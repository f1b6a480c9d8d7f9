import MiniRedis.Connection
import MiniRedis.LoggedMeaning
import MiniRedis.Recovery
import MiniRedis.LiveKeys
import MiniRedis.SubscriberCleanup
import MiniRedis.SubscriberOrder
import MiniRedis.Linearizability
import MiniRedis.ReplayRun
import MiniRedis.LazyExpiry
import MiniRedis.ErrorAtomicity
import MiniRedis.ReplyText
import MiniRedis.RewriteRuns
import MiniRedis.ListEnds
import MiniRedis.ManyArguments
import MiniRedis.WriteGate
import MiniRedis.InlineRequests
import MiniRedis.ParserSafety
import MiniRedis.DurableFiles
import MiniRedis.WriterDisk
import MiniRedis.CrashDurability
import MiniRedis.RewriteProgress
import MiniRedis.MapServer
import MiniRedis.CommandLocality
import MiniRedis.ClientSlots
import MiniRedis.ClientSession
import MiniRedis.ReadOnlyServer
import MiniRedis.CrashRecovery
import MiniRedis.SweeperRuns
import MiniRedis.PublishDelivery
import MiniRedis.WholeFrames
import MiniRedis.SerialReplies
import MiniRedis.Counters
