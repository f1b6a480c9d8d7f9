import MiniRedis.CommandFootprints
import MiniRedis.LazyExpiry

/-!
# Critical sections on the live view

What a critical section reads are live entries. In two databases with the same live view it
goes on the same way, and it leaves them with the same live view. `INFO` is the exception: it
reads the clock once and visits the shards later, when entries that it would still have
counted may be gone.
-/
namespace MiniRedis
open AtomicPrograms Wire

variable {host : Host} {A : Type}

/-- Two databases of the server that nothing which is read at `now` tells apart. -/
structure Db.Alike (now : ExpireAt) (db db' : Db host) : Prop where
  same : Db.Same now db db'
  left : db.Valid
  right : db'.Valid

namespace Db.Alike
variable {now : ExpireAt} {db db' : Db host}

theorem refl (h : db.Valid) (now : ExpireAt) : db.Alike now db := ⟨⟨rfl, rfl⟩, h, h⟩

theorem later {later : ExpireAt} (h : Alike now db db') (hn : now ≤ later) : Alike later db db' :=
  ⟨h.same.later hn, h.left, h.right⟩

/-- The same slot is set in both. -/
theorem changes {d d' : Db host} {key : Bytes} {o o' : Slot} (h : Alike now db db')
    (hd : db.Changes d key o) (hd' : db'.Changes d' key o') (ho : o.alive now = o'.alive now) :
    Alike now d d' := by
  refine ⟨⟨?_, ?_⟩, hd.valid h.left, hd'.valid h.right⟩
  · rw [hd.view, hd'.view, Keyspace.alive_update, Keyspace.alive_update, h.same.view, ho]
  · rw [hd.pubsub, hd'.pubsub, h.same.pubsub]

end Db.Alike

namespace Cmd
open Db

theorem respects_done (reply : Frame) : (Program.done reply : Sections host).Respects Alike :=
  trivial

/-- A critical section on one key, as a function of the live entry. -/
theorem respects_locked {key : Bytes} {section_ : ExpireAt → Shard → A × Shard}
    {slot : ExpireAt → Slot → A × Slot} (h : ∀ now, Acts now key (section_ now) (slot now))
    {next : A → Sections host} (hnext : ∀ a, (next a).Respects Alike) :
    Program.Respects Alike (.atomic (fun now db => (db.locked key (section_ now)).2)
      fun now db => next (db.locked key (section_ now)).1) := by
  refine fun now db => ⟨fun db' halike => ?_, hnext _⟩
  have hacts := db.locked_acts (h now)
  have hacts' := db'.locked_acts (h now)
  rw [← congrFun halike.same.view key] at hacts'
  exact ⟨halike.changes hacts.2 hacts'.2 rfl, congrArg next (hacts.1.trans hacts'.1.symm)⟩

theorem steps_valid {p : Sections host} (h : p.Respects Alike) :
    p.Steps fun db db' => db.Valid → db'.Valid :=
  h.steps (fun now _ hv => Alike.refl hv now) fun _ _ _ halike => halike.left

/-- A critical section that only reads. -/
theorem respects_read {f : ExpireAt → Db host → A}
    (hf : ∀ now db db', db.view now = db'.view now → f now db = f now db')
    {next : A → Sections host} (hnext : ∀ a, (next a).Respects Alike) :
    Program.Respects Alike (.atomic (fun _ db => db) fun now db => next (f now db)) :=
  fun now _ => ⟨fun _ halike => ⟨halike, congrArg next (hf now _ _ halike.same.view)⟩, hnext _⟩

theorem respects_once {key : Bytes} {section_ : ExpireAt → Shard → Frame × Shard}
    {slot : ExpireAt → Slot → Frame × Slot} (h : ∀ now, Acts now key (section_ now) (slot now)) :
    (once fun now (db : Db host) => db.locked key (section_ now)).Respects Alike :=
  respects_locked h respects_done

theorem respects_readLive (key : Bytes) (missing : Frame) (found : Value → Frame) :
    (look fun now (db : Db host) => readLive now db key missing found).Respects Alike :=
  respects_read (fun _ _ _ hv => readLive_congr hv key missing found) respects_done

theorem respects_ttl (key : Bytes) (inMs : Bool) :
    (look fun now (db : Db host) => ttl now db key inMs).Respects Alike :=
  respects_read (fun _ _ _ hv => ttl_congr hv key inMs) respects_done

theorem respects_delSections (keys : List Bytes) (removed : ℕ) :
    (delSections keys removed : Sections host).Respects Alike := by
  induction keys generalizing removed with
  | nil => trivial
  | cons key keys ih =>
      exact respects_locked (fun now => acts_delSection now key) fun live =>
        ih (if live then removed + 1 else removed)

theorem existsOne_congr {now : ExpireAt} {db db' : Db host} (hv : db.view now = db'.view now)
    (key : Bytes) : existsOne now db key = existsOne now db' key := by
  have hone : ∀ d : Db host, existsOne now d key = (d.view now key).isSome := by
    intro d
    change _ = (Slot.alive now (d.entry key)).isSome
    unfold existsOne
    cases d.entry key with
    | none => rfl
    | some entry => cases h : entryExpired now entry <;> simp [Slot.alive, Option.filter, h]
  rw [hone, hone, hv]

theorem respects_existsSections (keys : List Bytes) (count : ℕ) :
    (existsSections keys count : Sections host).Respects Alike := by
  induction keys generalizing count with
  | nil => trivial
  | cons key keys ih =>
      exact respects_read (fun _ _ _ hv => existsOne_congr hv key) fun found =>
        ih (if found then count + 1 else count)

theorem respects_mgetSections (keys : List Bytes) (responseLen : ℕ) (frames : List Frame) :
    (mgetSections keys responseLen frames : Sections host).Respects Alike := by
  induction keys generalizing responseLen frames with
  | nil => trivial
  | cons key keys ih =>
      have hnext : ∀ frame, ((mgetLenWith responseLen frame).elim (.done responseTooLarge)
          fun responseLen => mgetSections keys responseLen (frames ++ [frame]) :
            Sections host).Respects Alike := by
        intro frame
        cases mgetLenWith responseLen frame with
        | none => trivial
        | some n => exact ih n _
      exact respects_read (fun _ _ _ hv => readLive_congr hv key _ _) hnext

theorem respects_msetSections (pairs : List (Bytes × Bytes)) :
    (msetSections pairs : Sections host).Respects Alike := by
  induction pairs with
  | nil => trivial
  | cons p pairs ih =>
      have hacts : ∀ now, Acts now p.1 (fun shard => ((), msetSection p.1 p.2 shard))
          fun _ => ((), some ⟨.string p.2, none⟩) :=
        fun now => ⟨fun _ => rfl, fun shard => assigns_msetSection shard p.1 p.2⟩
      exact respects_locked hacts fun _ => ih

/-- A step on the pub/sub table. -/
theorem respects_pubsub {f : Db host → Frame × Db host}
    (hshards : ∀ db, (f db).2.shards = db.shards)
    (hf : ∀ db db', db.pubsub = db'.pubsub →
      (f db).2.pubsub = (f db').2.pubsub ∧ (f db).1 = (f db').1) :
    (once fun _ db => f db).Respects Alike := by
  refine fun now db => ⟨fun db' halike => ?_, trivial⟩
  have heq := hf db db' halike.same.pubsub
  refine ⟨⟨⟨?_, heq.1⟩, ?_, ?_⟩, congrArg Program.done heq.2⟩
  · rw [Db.view_of_shards (hshards db), Db.view_of_shards (hshards db'), halike.same.view]
  · exact Db.valid_of_shards (hshards db) halike.left
  · exact Db.valid_of_shards (hshards db') halike.right

/-- `INFO` without the section that counts the keys. -/
theorem respects_infoSections (aof : Option AofStats) (state : Option ServerState)
    {section_ : Option String} (h : infoIncludes section_ "memory" = false) :
    (infoSections aof state section_ : Sections host).Respects Alike := by
  refine fun now db => ⟨fun _ halike => ⟨halike, rfl⟩, ?_⟩
  dsimp only
  rw [h]
  trivial

end Cmd

namespace Command
open Cmd Db

/-- The command counts the live keys. -/
def reports : Command → Bool
  | info section_ => infoIncludes section_ "memory"
  | _ => false

theorem respects_sections {c : Command} (h : c.reports = false) :
    (c.sections : Sections host).Respects Alike := by
  cases c with
  | set key value expiresAt =>
      unfold sections
      dsimp only
      split_ifs with hfits
      · have hset : (fun (_ : ExpireAt) (db : Db host) => setAt db key value expiresAt) =
            fun _ db => db.locked key fun shard =>
              (.simple "OK", setSection key value expiresAt shard) := by
          funext _ db
          rw [setAt, if_pos hfits]
        rw [hset]
        have hacts : ∀ now, Acts now key
            (fun shard => (Frame.simple "OK", setSection key value expiresAt shard))
            fun _ => (.simple "OK", some ⟨.string value, expiresAt⟩) :=
          fun now => ⟨fun _ => rfl, fun shard => assigns_setSection shard key value expiresAt⟩
        exact respects_once hacts
      · trivial
  | del keys => exact respects_delSections keys 0
  | existsKeys keys => exact respects_existsSections keys 0
  | mget keys =>
      unfold sections
      dsimp only
      cases respArrayHeaderLen keys.length with
      | none => trivial
      | some n => exact respects_mgetSections keys n []
  | mset pairs =>
      unfold sections
      dsimp only
      split_ifs
      · trivial
      · exact respects_msetSections pairs
  | incr k | decr k | incrBy k n | append k v =>
      exact respects_once fun now => acts_update now k _ _
  | decrBy k n =>
      unfold sections
      dsimp only
      cases checkedNegI64 n with
      | some neg => exact respects_once fun now => acts_update now k _ _
      | none => trivial
  | expire k d | pexpire k d | pexpireAt k d =>
      exact respects_once fun now => acts_expireSection now k d
  | persist k => exact respects_once fun now => acts_persistSection now k
  | lpush k vs | rpush k vs | hset k ps | hincrby k f n =>
      exact respects_once fun now => acts_update_container now k _ _
  | lpop k count | rpop k count =>
      cases count <;> exact respects_once fun now => acts_takeFrom now k _ _
  | hdel k fs => exact respects_once fun now => acts_takeFrom now k _ _
  | get k | strlen k | lrange k s e | llen k | lindex k i | hget k f | hkeys k | hvals k
  | hgetall k | hexists k f | hlen k => exact respects_readLive k _ _
  | ttl k | pttl k => exact respects_ttl k _
  | publish ch msg => exact respects_pubsub (fun db => shards_publish db ch) (publish_congr ch)
  | info section_ => exact respects_infoSections none none h
  | ping msg => cases msg <;> trivial
  | _ => trivial

end Command
end MiniRedis
