import MiniRedis.ErrorAtomicity
import MiniRedis.SerialReplies

/-!
# Counters

A key to which clients only add. However their additions come together with each other, with
failing appends and rollbacks, with rewrites and sweeps, and with writes of other keys, each
acknowledged addition is counted once: the replies are the sums so far, and the key holds the
sum of all.
-/
namespace MiniRedis
open Cmd Numeral Wire

variable {host : Host}

/-- The slot is that of a counter without a deadline; a missing one stands at zero. -/
def Slot.Counter (n : ℤ) (slot : Slot) : Prop :=
  slot = none ∧ n = 0 ∨
    ∃ b i, slot = some ⟨.string b, none⟩ ∧ readI64 b = some i ∧ i.toInt = n

namespace Command

/-- What the command adds to a key, if it is one that adds. -/
def delta (key : Bytes) : Command → ℤ
  | incr k => if k = key then 1 else 0
  | decr k => if k = key then -1 else 0
  | incrBy k n => if k = key then n.toInt else 0
  | decrBy k n => if k = key then -n.toInt else 0
  | _ => 0

/-- The command leaves the key alone or adds to it. -/
def OnlyAdds (key : Bytes) (c : Command) : Prop :=
  key ∈ c.mutatedKeys →
    c = incr key ∨ c = decr key ∨ (∃ n, c = incrBy key n) ∨ ∃ n, c = decrBy key n

end Command

theorem incrValue_ok {i delta : Int64} {b : Bytes} (hb : readI64 b = some i)
    (h : (incrValue delta (.string b)).1.isError = false) :
    ∃ new : Int64, new.toInt = i.toInt + delta.toInt ∧
      incrValue delta (.string b) = (.integer new, .string (signed new.toInt)) := by
  unfold incrValue at h ⊢
  dsimp only at h ⊢
  rw [hb] at h ⊢
  dsimp only at h ⊢
  cases hnew : checkedAddI64 i delta with
  | none =>
      rw [hnew] at h
      cases h
  | some new => exact ⟨new, int64?_eq_some.mp hnew, rfl⟩

namespace Slot

theorem Counter.alive {n : ℤ} {slot : Slot} (h : slot.Counter n) (now : ExpireAt) :
    slot.alive now = slot := by
  rcases h with ⟨rfl, -⟩ | ⟨b, i, rfl, -⟩ <;> rfl

theorem counter_signed (i : Int64) :
    Slot.Counter i.toInt (some ⟨.string (signed i.toInt), none⟩) :=
  .inr ⟨_, i, rfl, readI64_signed i, rfl⟩

/-- An addition that succeeds. -/
theorem Counter.add {n : ℤ} {slot : Slot} {delta : Int64} (h : slot.Counter n)
    (he : (slot.update (.string zeroBytes) (incrValue delta)).1.isError = false) :
    ∃ new : Int64, new.toInt = n + delta.toInt ∧
      slot.update (.string zeroBytes) (incrValue delta) =
        (.integer new, some ⟨.string (signed new.toInt), none⟩) := by
  have hadd : ∀ b i, readI64 b = some i → i.toInt = n →
      (incrValue delta (.string b)).1.isError = false →
      ∃ new : Int64, new.toInt = n + delta.toInt ∧
        incrValue delta (.string b) = (.integer new, .string (signed new.toInt)) := by
    rintro b i hb rfl hok
    exact incrValue_ok hb hok
  rcases h with ⟨rfl, rfl⟩ | ⟨b, i, rfl, hb, hi⟩
  · obtain ⟨new, hnew, hvalue⟩ := hadd zeroBytes 0 readI64_zeroBytes rfl he
    refine ⟨new, hnew, ?_⟩
    simp only [Slot.update, Option.getD_none, hvalue]
  · obtain ⟨new, hnew, hvalue⟩ := hadd b i hb hi he
    refine ⟨new, hnew, ?_⟩
    simp only [Slot.update, Option.getD_some, hvalue]

end Slot

namespace Command
variable {now : ExpireAt} {db : Db host} {key : Bytes} {n : ℤ}

/-- A command that adds to the key, as a transaction on its slot; the number that `DECRBY` cannot
turn around is refused. -/
theorem OnlyAdds.transaction {c : Command} (h : c.OnlyAdds key) (hk : key ∈ c.mutatedKeys)
    (now : ExpireAt) :
    (∃ delta : Int64, delta.toInt = c.delta key ∧
      c.transaction now = some (.on key (Slot.update (.string zeroBytes) (incrValue delta)))) ∨
    c.transaction now = some (.refuse overflow) := by
  rcases h hk with rfl | rfl | ⟨i, rfl⟩ | ⟨i, rfl⟩
  · exact .inl ⟨1, (if_pos rfl).symm, rfl⟩
  · exact .inl ⟨-1, (if_pos rfl).symm, rfl⟩
  · exact .inl ⟨i, (if_pos rfl).symm, rfl⟩
  · cases hneg : checkedNegI64 i with
    | none => exact .inr (by rw [Command.transaction, hneg])
    | some neg =>
        exact .inl ⟨neg, (int64?_eq_some.mp hneg).trans (if_pos rfl).symm,
          by rw [Command.transaction, hneg]⟩

theorem delta_of_not_mutated {c : Command} (h : key ∉ c.mutatedKeys) : c.delta key = 0 := by
  cases c with
  | incr k | decr k | incrBy k i | decrBy k i =>
      exact if_neg fun hk => h (List.mem_singleton.mpr hk.symm)
  | _ => rfl

/-- A command that succeeds, on a database where the key is a counter. -/
theorem OnlyAdds.apply {c : Command} (h : c.OnlyAdds key) (hn : Slot.Counter n (db.entry key))
    (he : (c.apply now db).1.isError = false) :
    Slot.Counter (n + c.delta key) ((c.apply now db).2.entry key) ∧
      (key ∈ c.mutatedKeys →
        ∃ i : Int64, (c.apply now db).1 = .integer i ∧ i.toInt = n + c.delta key) := by
  by_cases hk : key ∈ c.mutatedKeys
  · have hr := c.apply_refines now db
    have hview : db.view now key = db.entry key := hn.alive now
    rcases h.transaction hk now with ⟨delta, hdelta, ht⟩ | ht
    · rw [ht] at hr
      have hreply : (c.apply now db).1 =
          (Slot.update (.string zeroBytes) (incrValue delta) (db.entry key)).1 := hview ▸ hr.reply
      rw [hreply] at he
      obtain ⟨new, hnew, hslot⟩ := hn.add he
      have hlater : (c.apply now db).2.view now key =
          some ⟨.string (signed new.toInt), none⟩ := by
        rw [hr.view, Keyspace.alive_apply]
        change Slot.alive now (Function.update (db.view now) key
          (Slot.update (.string zeroBytes) (incrValue delta) (db.view now key)).2 key) = _
        rw [Function.update_self, hview, hslot]
        rfl
      have hentry := (Slot.alive_eq_some.mp hlater).1
      rw [← hdelta, ← hnew]
      exact ⟨hentry ▸ Slot.counter_signed new, fun _ => ⟨new, hreply.trans (by rw [hslot]), rfl⟩⟩
    · rw [ht] at hr
      have hreply : (c.apply now db).1 = overflow := hr.reply
      rw [hreply] at he
      cases he
  · rw [entry_of_not_mutated now db c hk, delta_of_not_mutated hk, add_zero]
    exact ⟨hn, fun hm => (hk hm).elim⟩

end Command

namespace RewriteProtocol
open Aof Compaction Runs World

variable {Call : Type} {clock : ExpireAt} {db : Db host} {key : Bytes} {n : ℤ}

/-- What the writes add to the key. -/
def added (key : Bytes) (writes : List (Write Call)) : ℤ :=
  (writes.map fun r => r.cmd.delta key).sum

theorem added_concat (writes : List (Write Call)) (r : Write Call) :
    added key (writes ++ [r]) = added key writes + r.cmd.delta key := by
  simp [added]

/-- After writes that have succeeded the key holds what they have added. -/
theorem counter_replayed (hn : Slot.Counter n (db.entry key)) {writes : List (Write Call)}
    (hw : AllGenuine (Command.OnlyAdds key) clock db writes) :
    Slot.Counter (n + added key writes) ((replayed db writes).entry key) := by
  induction writes generalizing db n with
  | nil => exact (add_zero n).symm ▸ hn
  | cons r writes ih =>
      obtain ⟨hgenuine, hrest⟩ := hw
      have hnext := (hgenuine.worded.1.apply hn hgenuine.succeeded).1
      have hsum : n + added key (r :: writes) = n + r.cmd.delta key + added key writes := by
        simp [added, add_assoc]
      rw [hsum]
      exact ih hnext hrest

variable [DecidableEq Call]

/-- No addition is lost and none counts twice: the reply to an addition is the sum of the
acknowledged ones up to it, and whenever nobody holds the gate the key holds the sum of all. -/
theorem counter_exact (policy : FsyncPolicy) (now : ExpireAt) (h : db.Valid) (file : Bytes)
    (hn : Slot.Counter n (db.entry key)) (events : List (Event Call))
    (he : ∀ e ∈ events, e.Sent ∧ e.Asks (Command.OnlyAdds key)) :
    let w := run (World.step policy) events (start now db file)
    (∀ front r, front ++ [r] <+: records w.history → key ∈ r.cmd.mutatedKeys →
      ∀ reply, w.clients r.call = some (.answered (.ok reply)) →
        ∃ i : Int64, reply = .integer i ∧ i.toInt = n + added key (front ++ [r])) ∧
    (w.gate = none → Slot.Counter (n + added key (records w.history)) (w.db.view w.clock key)) := by
  intro w
  obtain ⟨htells, -⟩ := tells_run policy he (attended_start now db file)
    (tells_start _ now h file)
  have hall := htells.vouched.acknowledged
  refine ⟨fun front r hr hk reply hc => ?_, fun hfree => ?_⟩
  · have hpre : front ++ [r] <+: records w.history := hr
    obtain ⟨rest, hrest⟩ := hpre
    rw [show records (run (World.step policy) events (start now db file)).history =
      front ++ [r] ++ rest from hrest.symm] at hall
    obtain ⟨hfront, hlast, -⟩ := allGenuine_append.mp (allGenuine_append.mp hall).1
    have hcount := counter_replayed hn hfront
    obtain ⟨i, hi, hsum⟩ := (hlast.worded.1.apply hcount hlast.succeeded).2 hk
    refine ⟨i, ?_, by rw [hsum, added_concat, add_assoc]⟩
    rw [htells.replied _ _ hc reply rfl front r hr rfl]
    exact hi
  · have haccounts := htells.tracks.accounts
    rw [pending_of_free hfree] at haccounts
    have hcount := counter_replayed hn hall
    have hview : w.db.view w.clock key = (replayed db (records w.history)).view w.clock key :=
      congrFun haccounts key
    rw [hview]
    change Slot.Counter _ (Slot.alive w.clock ((replayed db (records w.history)).entry key))
    rw [hcount.alive]
    exact hcount

/-- Two additions are acknowledged; the append of a third one fails, and so does its sync. -/
def threeIncrs : List (Event ℕ) :=
  writeEvents 0 (.incr [107]) ++ writeEvents 1 (.incr [107]) ++
    [.request 2 (.incr [107]), .client 2, .client 2, .client 2,
      .writer { writeAll := .error (3, "disk full"), syncData := .error "disk full" }
        { openTemp := .ok [] }, .client 2, .client 2]

theorem counter_exact_threeIncrs :
    let w := run (World.step .always) threeIncrs (start 1000 (Db.new : Db Server.oneShard) [])
    w.gate = none ∧ Slot.Counter (0 + added [107] (records w.history)) (w.db.view w.clock [107]) ∧
      added [107] (records w.history) = 2 := by
  have hadds : (Command.incr [107]).OnlyAdds [107] := fun _ => .inl rfl
  have hevents : ∀ e ∈ threeIncrs, e.Sent ∧ e.Asks (Command.OnlyAdds [107]) := by
    simp [threeIncrs, writeEvents, Event.Sent, Event.Asks, World.fromClient_incr, hadds]
  exact ⟨rfl, (counter_exact .always 1000 Db.valid_new [] (.inl ⟨rfl, rfl⟩) threeIncrs
    hevents).2 rfl, rfl⟩

end RewriteProtocol
end MiniRedis
