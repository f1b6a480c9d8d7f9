import MiniRedis.Info
import MiniRedis.Runs

/-!
# Client slots

`accept_loop` takes a permit for every connection, as long as there are permits, and moves it
into the task of the connection. There the guard counts the client; its drop takes the client
out of the count and then gives the permit back. The loop and the tasks take their steps in any
order, and a task can end in any way: `handle` returns or fails or panics, or the runtime drops
the task, even before it has begun.
-/
namespace MiniRedis.ClientSlots
open Runs

def maxClients : ℕ := 1024

/-- Where the task of an accepted connection stands. -/
inductive Stage where
  /-- In front of `ClientGuard::new`. -/
  | spawned
  /-- In `handle`. -/
  | serving
  /-- The client is no longer counted, the permit is about to be dropped. -/
  | dropping
  | ended
deriving DecidableEq, Repr

/-- The permit of the connection is in the hands of its task. -/
def Stage.holdsPermit : Stage → Bool
  | ended => false
  | _ => true

/-- The loop, the semaphore and the tasks in the order in which they were spawned. -/
structure Acceptor where
  state : ServerState
  clientSlots : ℕ := maxClients
  /-- The loop has a permit for the connection that it has just accepted. -/
  admitting : Bool := false
  tasks : List Stage := []

inductive Event where
  /-- `accept` returns, and `try_acquire_owned`. -/
  | accept
  /-- The connection is counted and its task is spawned. -/
  | spawn
  | enter (i : ℕ)
  /-- The task ends: the drop of its guard, if it has made one. -/
  | leave (i : ℕ)
  | release (i : ℕ)

/-- `fetch_add` and `fetch_sub` of one, which wrap around. -/
def fetchAdd (n : ℕ) : ℕ := (n + 1) % 2 ^ 64
def fetchSub (n : ℕ) : ℕ := (n + (2 ^ 64 - 1)) % 2 ^ 64

namespace Acceptor

def accept (s : Acceptor) : Acceptor :=
  if s.admitting then s
  else match s.clientSlots with
    | 0 => s
    | slots + 1 => { s with clientSlots := slots, admitting := true }

def spawn (s : Acceptor) : Acceptor :=
  if s.admitting then { s with
    state := { s.state with totalConnections := fetchAdd s.state.totalConnections }
    admitting := false
    tasks := s.tasks ++ [.spawned] }
  else s

/-- `ClientGuard::new`. -/
def enter (s : Acceptor) (i : ℕ) : Acceptor :=
  match s.tasks[i]? with
  | some .spawned => { s with
      state := { s.state with connectedClients := fetchAdd s.state.connectedClients }
      tasks := s.tasks.set i .serving }
  | _ => s

def leave (s : Acceptor) (i : ℕ) : Acceptor :=
  match s.tasks[i]? with
  | some .spawned => { s with tasks := s.tasks.set i .dropping }
  | some .serving => { s with
      state := { s.state with connectedClients := fetchSub s.state.connectedClients }
      tasks := s.tasks.set i .dropping }
  | _ => s

def release (s : Acceptor) (i : ℕ) : Acceptor :=
  match s.tasks[i]? with
  | some .dropping => { s with
      clientSlots := s.clientSlots + 1
      tasks := s.tasks.set i .ended }
  | _ => s

/-- One step; where it cannot be taken, nothing happens. -/
def step : Event → Acceptor → Acceptor
  | .accept, s => s.accept
  | .spawn, s => s.spawn
  | .enter i, s => s.enter i
  | .leave i, s => s.leave i
  | .release i, s => s.release i

def start (startedAtMs : ℕ) : Acceptor := { state := ⟨0, 0, startedAtMs⟩ }

/-- The tasks that hold a permit. -/
def held (s : Acceptor) : ℕ := s.tasks.countP Stage.holdsPermit

/-- The tasks in `handle`. -/
def serving (s : Acceptor) : ℕ := s.tasks.countP (· = .serving)

/-- Every permit is in one place, and every task in `handle` is counted once. -/
structure Exact (s : Acceptor) : Prop where
  permits : s.clientSlots + s.held + s.admitting.toNat = maxClients
  connected : s.state.connectedClients = s.serving
  total : s.state.totalConnections = asUsize s.tasks.length

variable {s : Acceptor}

theorem serving_le_held (s : Acceptor) : s.serving ≤ s.held := by
  refine List.countP_mono_left fun stage _ h => ?_
  obtain rfl : stage = .serving := of_decide_eq_true h
  rfl

theorem Exact.connected_le (h : s.Exact) : s.state.connectedClients ≤ maxClients := by
  have hle := s.serving_le_held
  have hp := h.permits
  have hc := h.connected
  omega

/-- A count after the stage of one task has changed. -/
theorem countP_move {tasks : List Stage} {p : Stage → Bool} {i : ℕ} {old : Stage}
    (hi : tasks[i]? = some old) (stage : Stage) :
    (tasks.set i stage).countP p + (p old).toNat = tasks.countP p + (p stage).toNat := by
  obtain ⟨hlt, rfl⟩ := List.getElem?_eq_some_iff.mp hi
  have hpos : (p tasks[i]).toNat ≤ tasks.countP p := by
    cases hp : p tasks[i] with
    | false => exact Nat.zero_le _
    | true => exact List.countP_pos_iff.mpr ⟨_, List.getElem_mem hlt, hp⟩
  rw [List.countP_set hlt]
  cases hp : p tasks[i] with
  | false => cases p stage <;> simp
  | true =>
      rw [hp, Bool.toNat_true] at hpos
      cases p stage <;> simp <;> omega

/-- A task goes on to a stage with the permit and the client that it brings along. -/
theorem Exact.move (h : s.Exact) {i : ℕ} {old : Stage} (hi : s.tasks[i]? = some old)
    {stage : Stage} {slots connected : ℕ}
    (hslots : slots + stage.holdsPermit.toNat = s.clientSlots + old.holdsPermit.toNat)
    (hconnected : connected + (decide (old = .serving)).toNat =
      s.state.connectedClients + (decide (stage = .serving)).toNat) :
    Exact { s with
      state := { s.state with connectedClients := connected }
      clientSlots := slots
      tasks := s.tasks.set i stage } := by
  have hheld := countP_move (p := Stage.holdsPermit) hi stage
  have hserving := countP_move (p := (· = .serving)) hi stage
  refine ⟨?_, ?_, ?_⟩
  · have hp := h.permits
    unfold held at hp ⊢
    dsimp only
    omega
  · have hc := h.connected
    unfold serving at hc ⊢
    dsimp only
    omega
  · rw [List.length_set]
    exact h.total

theorem Exact.accept (h : s.Exact) : s.accept.Exact := by
  unfold Acceptor.accept
  split_ifs with ha
  · exact h
  · cases hslots : s.clientSlots with
    | zero => exact h
    | succ slots =>
        have hp := h.permits
        rw [hslots, Bool.eq_false_iff.mpr ha] at hp
        refine ⟨?_, h.connected, h.total⟩
        change slots + s.held + 1 = maxClients
        rw [← hp, Bool.toNat_false]
        omega

theorem Exact.spawn (h : s.Exact) : s.spawn.Exact := by
  unfold Acceptor.spawn
  split_ifs with ha
  · have hp := h.permits
    rw [ha] at hp
    refine ⟨?_, ?_, ?_⟩
    · rw [held, List.countP_append]
      exact hp
    · rw [serving, List.countP_append]
      exact h.connected
    · rw [List.length_append, h.total, fetchAdd, asUsize, asUsize, Nat.mod_add_mod]
      rfl
  · exact h

theorem Exact.enter (h : s.Exact) (i : ℕ) : (s.enter i).Exact := by
  unfold Acceptor.enter
  split
  · next hi =>
      -- the count is far from the end of its range
      have hlimit := h.connected_le
      refine h.move hi rfl ?_
      have hadd : fetchAdd s.state.connectedClients = s.state.connectedClients + 1 :=
        Nat.mod_eq_of_lt (by unfold maxClients at hlimit; omega)
      rw [hadd]
      rfl
  · exact h

theorem Exact.leave (h : s.Exact) (i : ℕ) : (s.leave i).Exact := by
  unfold Acceptor.leave
  split
  · next hi => exact h.move hi rfl rfl
  · next hi =>
      -- the task is one of those that are counted
      have hpos : 0 < s.state.connectedClients := by
        rw [h.connected]
        exact List.countP_pos_iff.mpr ⟨_, List.mem_of_getElem? hi, rfl⟩
      have hlimit := h.connected_le
      refine h.move hi rfl ?_
      have hsub : fetchSub s.state.connectedClients + 1 = s.state.connectedClients := by
        unfold fetchSub maxClients at *
        omega
      exact hsub
  · exact h

theorem Exact.release (h : s.Exact) (i : ℕ) : (s.release i).Exact := by
  unfold Acceptor.release
  split
  · next hi => exact h.move hi rfl rfl
  · exact h

theorem Exact.step (h : s.Exact) (e : Event) : (step e s).Exact := by
  cases e with
  | accept => exact h.accept
  | spawn => exact h.spawn
  | enter i => exact h.enter i
  | leave i => exact h.leave i
  | release i => exact h.release i

theorem exact_start (startedAtMs : ℕ) : (start startedAtMs).Exact := ⟨rfl, rfl, rfl⟩

theorem exact_run (startedAtMs : ℕ) (events : List Event) :
    (run Acceptor.step events (start startedAtMs)).Exact :=
  (kept (fun _ e h (_ : True) => h.step e) (exact_start startedAtMs) fun _ _ => trivial).2

/-- However the tasks end, no slot is lost and none is given twice: a connection is turned away
just if `maxClients` tasks hold a permit, the counter of `INFO` is the number of the tasks in
`handle`, and when all tasks have ended every slot is free again. -/
theorem slots_exact (startedAtMs : ℕ) (events : List Event) :
    let s := run Acceptor.step events (start startedAtMs)
    s.state.connectedClients = s.serving ∧ s.serving ≤ s.held ∧ s.held ≤ maxClients ∧
      s.state.totalConnections = asUsize s.tasks.length ∧
      (s.admitting = false → (s.accept.admitting = false ↔ s.held = maxClients)) ∧
      (s.admitting = false → s.held = 0 →
        s.clientSlots = maxClients ∧ s.state.connectedClients = 0) := by
  intro s
  have h : s.Exact := exact_run startedAtMs events
  have hp := h.permits
  refine ⟨h.connected, s.serving_le_held, by omega, h.total, fun ha => ?_, fun ha hzero => ?_⟩
  · rw [ha, Bool.toNat_false, Nat.add_zero] at hp
    unfold Acceptor.accept
    rw [ha, if_neg Bool.false_ne_true]
    cases hslots : s.clientSlots with
    | zero =>
        rw [hslots, Nat.zero_add] at hp
        exact iff_of_true ha hp
    | succ slots =>
        refine iff_of_false (Bool.noConfusion : true ≠ false) ?_
        omega
  · rw [ha, Bool.toNat_false] at hp
    have hserving := s.serving_le_held
    exact ⟨by omega, by rw [h.connected]; omega⟩

end Acceptor
end MiniRedis.ClientSlots
