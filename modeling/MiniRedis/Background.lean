import MiniRedis.LiveSections
import MiniRedis.Runs
import MiniRedis.TaskInvariant

/-!
# The sweeper and the snapshot beside the connection tasks

`sweep_once` and `aof_snapshot_entries` read the clock once and then lock one shard after the
other. In between the connection tasks and each other's steps go on; only the gate, which the
rewrite task takes for its snapshot, keeps the writes away. The calls read the clock when
they lock a shard, and time passes by events of its own.
-/
namespace MiniRedis

variable {host : Host}

namespace Db

/-- The critical section of `sweep_once` on one shard. -/
def sweepShard (now : ExpireAt) (db : Db host) (i : Fin shardCount) : Db host :=
  { db with shards := Function.update db.shards i ((db.shards i).sweep now) }

theorem shards_sweepShard (now : ExpireAt) (db : Db host) (i j : Fin shardCount) :
    (db.sweepShard now i).shards j = if j = i then (db.shards i).sweep now else db.shards j :=
  Function.update_apply ..

theorem shards_sweepShards (now : ExpireAt) {is : List (Fin shardCount)} (h : is.Nodup)
    (db : Db host) (j : Fin shardCount) :
    (is.foldl (sweepShard now) db).shards j =
      if j ∈ is then (db.shards j).sweep now else db.shards j := by
  induction is generalizing db with
  | nil => rfl
  | cons i is ih =>
      obtain ⟨hi, his⟩ := List.nodup_cons.mp h
      rw [List.foldl_cons, ih his, shards_sweepShard]
      by_cases hj : j = i
      · subst hj
        simp [hi]
      · simp [hj]

theorem pubsub_sweepShards (now : ExpireAt) (is : List (Fin shardCount)) (db : Db host) :
    (is.foldl (sweepShard now) db).pubsub = db.pubsub := by
  induction is generalizing db with
  | nil => rfl
  | cons i is ih => exact ih _

/-- Without anything in between, the critical sections are the sweep. -/
theorem sweepShards_eq (now : ExpireAt) (db : Db host) :
    (List.finRange shardCount).foldl (sweepShard now) db = db.sweepOnce now := by
  have hshards : ((List.finRange shardCount).foldl (sweepShard now) db).shards =
      (db.sweepOnce now).shards := by
    funext j
    rw [shards_sweepShards now (List.nodup_finRange shardCount), if_pos (List.mem_finRange j)]
    rfl
  have hpubsub := pubsub_sweepShards now (List.finRange shardCount) db
  generalize (List.finRange shardCount).foldl (sweepShard now) db = swept at hshards hpubsub
  cases swept with
  | mk shards pubsub =>
      cases hshards
      cases hpubsub
      rfl

variable {now : ExpireAt} {db : Db host}

theorem Valid.sweepShard (h : db.Valid) (now : ExpireAt) (i : Fin shardCount) :
    (db.sweepShard now i).Valid where
  indexed j := by
    rw [shards_sweepShard]
    split_ifs
    · exact (h.indexed i).sweep now
    · exact h.indexed j
  placed j k hk := by
    rw [shards_sweepShard] at hk
    split_ifs at hk with hj
    · refine hj ▸ h.placed i k fun hn => hk ?_
      rw [Shard.stored_sweep now (h.indexed i), Shard.live, hn]
      rfl
    · exact h.placed j k hk

theorem live_sweepShard (h : db.Valid) {later : ExpireAt} (hn : now ≤ later)
    (i j : Fin shardCount) :
    ((db.sweepShard now i).shards j).live later = (db.shards j).live later := by
  funext k
  rw [shards_sweepShard]
  split_ifs with hj
  · rw [Shard.live, Shard.stored_sweep now (h.indexed i), hj]
    exact Slot.alive_alive hn ((db.shards i).stored k)
  · rfl

/-- A sweep of one shard does not show in what is read from its own clock reading on. -/
theorem alike_sweepShard (h : db.Valid) {later : ExpireAt} (hn : now ≤ later)
    (i : Fin shardCount) : Alike later (db.sweepShard now i) db := by
  refine ⟨⟨?_, rfl⟩, h.sweepShard now i, h⟩
  funext k
  exact congrFun (live_sweepShard h hn i (shardIndex host k)) k

end Db

namespace Background
open AtomicPrograms Clients

variable {Call : Type}

/-! ## The tasks of the server -/

/-- Who can hold the gate. -/
inductive Holder (Call : Type) where
  | call (c : Call)
  | rewrite
deriving DecidableEq

/-- Where `sweep_once` stands, with its reading of the clock. -/
structure Pass where
  now : ExpireAt
  left : List (Fin shardCount)

/-- Where the rewrite task stands with its snapshot. -/
inductive Snapshot where
  /-- In front of `pause_writes`. -/
  | idle
  /-- The gate is taken. -/
  | paused
  /-- In `aof_snapshot_entries`, with its reading of the clock. -/
  | collecting (now : ExpireAt) (left : List (Fin shardCount)) (entries : List (Bytes × Entry))
  /-- In front of the drop of the guard. -/
  | taken (entries : List (Bytes × Entry))

structure World (host : Host) (Call : Type) where
  clock : ExpireAt
  clients : Clients.World host (Holder Call)
  pass : Option Pass := none
  snapshot : Snapshot := .idle

inductive Event (Call : Type) where
  | wait (ms : ℕ)
  | request (c : Call) (request : Request)
  /-- The next step of a connection task. -/
  | step (c : Call)
  | acknowledge (c : Call) (result : Except String Unit)
  /-- The next step of the sweeper. -/
  | sweeper
  /-- The next step of the rewrite task. -/
  | rewrite

namespace World

/-- A new pass begins, goes on with the next shard, or is over. -/
def sweeper (w : World host Call) : World host Call :=
  match w.pass with
  | none => { w with pass := some ⟨w.clock, List.finRange shardCount⟩ }
  | some ⟨_, []⟩ => { w with pass := none }
  | some ⟨now, i :: left⟩ => { w with
      clients := { w.clients with db := w.clients.db.sweepShard now i }
      pass := some ⟨now, left⟩ }

def rewrite (w : World host Call) : World host Call :=
  match w.snapshot with
  | .idle =>
      match w.clients.gate with
      | some _ => w
      | none => { w with clients := { w.clients with gate := some .rewrite }, snapshot := .paused }
  | .paused => { w with snapshot := .collecting w.clock (List.finRange shardCount) [] }
  | .collecting now (i :: left) entries =>
      let entries := entries ++ (w.clients.db.shards i).liveEntries now
      { w with snapshot := .collecting now left entries }
  | .collecting _ [] entries =>
      { w with snapshot := .taken (entries.insertionSort fun a b => bytesLe a.1 b.1 = true) }
  | .taken _ => { w with clients := { w.clients with gate := none }, snapshot := .idle }

variable [DecidableEq Call]

def client (w : World host Call) (e : Clients.Event (Holder Call)) : World host Call :=
  { w with clients := Clients.World.step e w.clients }

def step : Event Call → World host Call → World host Call
  | .wait ms, w => { w with clock := w.clock + ms }
  | .request c req, w => w.client (.request (.call c) w.clock req)
  | .step c, w => w.client (.step (.call c) w.clock)
  | .acknowledge c result, w => w.client (.acknowledge (.call c) result)
  | .sweeper, w => w.sweeper
  | .rewrite, w => w.rewrite

/-- A server without requests so far. -/
def start (now : ExpireAt) (aof : Bool) (db : Db host) : World host Call where
  clock := now
  clients := { aof := aof, db := db }

end World

end Background

/-! ## What a connection task can do -/

namespace Clients
open AtomicPrograms Db

theorem Request.steps_valid (r : Request) :
    (r.sections : Sections host).Steps fun db db' => db.Valid → db'.Valid := by
  cases r with
  | info aof state section_ =>
      exact (Cmd.readOnly_infoSections aof state section_).steps fun _ => id
  | pubsub act =>
      exact Cmd.steps_valid (Cmd.respects_pubsub (fun _ => rfl) fun db db' h =>
        ⟨congrArg act h, rfl⟩)
  | command cmd =>
      cases h : cmd.reports with
      | false => exact Cmd.steps_valid (Command.respects_sections h)
      | true =>
          cases cmd with
          | info section_ =>
              exact (Cmd.readOnly_infoSections none none section_).steps fun _ => id
          | _ => cases h

/-- Without the gate no shard is changed. -/
theorem Request.steps_shards {r : Request} (h : r.isWrite = false) :
    (r.sections : Sections host).Steps fun db db' => db'.shards = db.shards := by
  rcases Request.unguarded_cases h with hread | ⟨f, hf, hpub⟩
  · have hsame : ∀ db : Db host, db.shards = db.shards := fun _ => rfl
    exact Program.ReadOnly.steps (P := fun db db' => db'.shards = db.shards) hsame hread.readOnly
  · rw [hf]
    exact fun now db => ⟨hpub.shards db, trivial⟩

/-- The critical sections that a task still has to run do no more than they may. -/
def Stage.Fits : Stage host → Prop
  | .applying rest => rest.Steps fun db db' => db.Valid → db'.Valid
  | .reading rest => rest.Steps fun db db' => db'.shards = db.shards
  | _ => True

namespace Task
variable {aof : Bool} {t : Task host}

theorem fits_settle (h : t.stage.Fits) : (t.settle aof).stage.Fits := by
  unfold settle
  split
  · split_ifs <;> trivial
  · trivial
  · exact h

theorem holdsGate_settle : (t.settle aof).stage.holdsGate = t.stage.holdsGate := by
  unfold settle
  split
  case h_1 reply hs =>
    rw [hs]
    split_ifs <;> rfl
  case h_2 reply hs =>
    rw [hs]
    rfl
  case h_3 => rfl

theorem fits_new (now : ExpireAt) (r : Request) : (new now r : Task host).stage.Fits := by
  cases h : r.isWrite with
  | true =>
      rw [new, h]
      trivial
  | false =>
      rw [new, h]
      exact r.steps_shards h

theorem holdsGate_new (now : ExpireAt) (r : Request) :
    (new now r : Task host).stage.holdsGate = false := by
  cases h : r.isWrite <;> rw [new, h] <;> rfl

theorem fits_apply (t : Task host) : (t.apply aof).stage.Fits := fits_settle t.request.steps_valid

end Task

variable {Call : Type}

/-- All that a step of a call does to the world. -/
structure Moves (c : Call) (w w' : World host Call) : Prop where
  valid : w.db.Valid → w'.db.Valid
  shards : w.gate ≠ some c → w'.db.shards = w.db.shards
  gate : w'.gate = w.gate ∨ (w.gate = none ∧ w'.gate = some c) ∨
    (w.gate = some c ∧ w'.gate = none)
  others : ∀ d, d ≠ c → w'.tasks d = w.tasks d
  own : ∀ t, w'.tasks c = some t →
    t.stage.Fits ∧ (t.stage.holdsGate = true → w'.gate = some c)

namespace Moves
variable {c : Call} {w w' : World host Call} {t' : Task host}

theorem refl (ht : ∀ t, w.tasks c = some t →
    t.stage.Fits ∧ (t.stage.holdsGate = true → w.gate = some c)) : Moves c w w :=
  ⟨id, fun _ => rfl, Or.inl rfl, fun _ _ => rfl, ht⟩

variable [DecidableEq Call]

theorem of_set (htasks : w'.tasks = Function.update w.tasks c (some t'))
    (hvalid : w.db.Valid → w'.db.Valid) (hshards : w.gate ≠ some c → w'.db.shards = w.db.shards)
    (hgate : w'.gate = w.gate ∨ (w.gate = none ∧ w'.gate = some c) ∨
      (w.gate = some c ∧ w'.gate = none))
    (hfits : t'.stage.Fits) (hholds : t'.stage.holdsGate = true → w'.gate = some c) :
    Moves c w w' where
  valid := hvalid
  shards := hshards
  gate := hgate
  others d hd := by rw [htasks, Function.update_of_ne hd]
  own t ht := by
    rw [htasks, Function.update_self] at ht
    cases ht
    exact ⟨hfits, hholds⟩

/-- A step that leaves the database and the gate alone. -/
theorem of_task (hdb : w'.db = w.db) (hgate : w'.gate = w.gate)
    (htasks : w'.tasks = Function.update w.tasks c (some t')) (hfits : t'.stage.Fits)
    (hholds : t'.stage.holdsGate = true → w.gate = some c) : Moves c w w' :=
  of_set htasks (fun hv => hdb ▸ hv) (fun _ => congrArg Db.shards hdb) (Or.inl hgate) hfits
    fun hh => hgate.trans (hholds hh)

end Moves

/-- Whose step it is. -/
def Event.call : Event Call → Call
  | .request c .. | .step c _ | .acknowledge c _ => c

namespace World
variable [DecidableEq Call] {c : Call} {w : World host Call} {t : Task host}

theorem advance_moves (now : ExpireAt) (ht : w.tasks c = some t) (hfits : t.stage.Fits)
    (hholds : t.stage.holdsGate = true → w.gate = some c) : Moves c w (w.advance now c t) := by
  have hstay : Moves c w w := Moves.refl fun u hu => by
    obtain rfl := Option.some.inj (ht.symm.trans hu)
    exact ⟨hfits, hholds⟩
  unfold advance
  cases hs : t.stage with
  | waiting =>
      cases hg : w.gate with
      | some d => exact hstay
      | none =>
          refine Moves.of_set rfl id (fun _ => rfl) (Or.inr (Or.inl ⟨hg, rfl⟩)) ?_ fun _ => rfl
          split_ifs
          · trivial
          · exact Task.fits_apply t
  | saving left =>
      rw [hs] at hholds
      cases left with
      | nil => exact Moves.of_task rfl rfl rfl (Task.fits_apply t) fun _ => hholds rfl
      | cons key keys => exact Moves.of_task rfl rfl rfl trivial fun _ => hholds rfl
  | applying rest =>
      rw [hs] at hfits hholds
      cases rest with
      | done reply => exact hstay
      | atomic act next =>
          have hact := hfits now w.db
          exact Moves.of_set rfl hact.1 (fun hn => absurd (hholds rfl) hn) (Or.inl rfl)
            (Task.fits_settle hact.2) fun _ => hholds rfl
  | appending reply => exact hstay
  | restoring error left =>
      rw [hs] at hholds
      cases left with
      | nil => exact Moves.of_task rfl rfl rfl trivial fun _ => hholds rfl
      | cons s left =>
          exact Moves.of_set rfl (Db.changes_restoreEntry w.db s.1 s.2).valid
            (fun hn => absurd (hholds rfl) hn) (Or.inl rfl) trivial fun _ => hholds rfl
  | releasing result =>
      rw [hs] at hholds
      exact Moves.of_set rfl id (fun _ => rfl) (Or.inr (Or.inr ⟨hholds rfl, rfl⟩)) trivial
        Bool.noConfusion
  | reading rest =>
      rw [hs] at hfits
      cases rest with
      | done reply => exact hstay
      | atomic act next =>
          have hact := hfits now w.db
          refine Moves.of_set rfl (Db.valid_of_shards hact.1) (fun _ => hact.1) (Or.inl rfl)
            (Task.fits_settle hact.2) fun hh => ?_
          rw [Task.holdsGate_settle] at hh
          cases hh
  | answering result => exact Moves.of_task rfl rfl rfl trivial Bool.noConfusion
  | answered result => exact hstay

/-- A step of a call, whichever it is. -/
theorem step_moves {e : Event Call} (hc : e.call = c)
    (ht : ∀ t, w.tasks c = some t →
      t.stage.Fits ∧ (t.stage.holdsGate = true → w.gate = some c)) : Moves c w (w.step e) := by
  subst hc
  cases e with
  | request c now req =>
      unfold step
      dsimp only
      split_ifs with hsome
      · exact Moves.refl ht
      · refine Moves.of_task rfl rfl rfl (Task.fits_settle (Task.fits_new now req)) fun hh => ?_
        rw [Task.holdsGate_settle, Task.holdsGate_new] at hh
        cases hh
  | step c now =>
      unfold step
      dsimp only
      split
      case h_1 t hc => exact advance_moves now hc (ht t hc).1 (ht t hc).2
      case h_2 => exact Moves.refl ht
  | acknowledge c result =>
      unfold step
      dsimp only
      split
      case h_2 => exact Moves.refl ht
      case h_1 t hc =>
        split
        case h_2 => exact Moves.refl ht
        case h_1 reply hs =>
          have hholds : w.gate = some c := (ht t hc).2 (by rw [hs]; rfl)
          cases result with
          | ok u => exact Moves.of_task rfl rfl rfl trivial fun _ => hholds
          | error e => exact Moves.of_task rfl rfl rfl trivial fun _ => hholds

end World

end Clients
end MiniRedis
