import MiniRedis.ErrorAtomicity
import MiniRedis.LoggedSizes
import MiniRedis.Rereading
import MiniRedis.ReplayRun
import MiniRedis.Runs
import MiniRedis.Server

/-!
# Replay agrees with the running server

The log of a run is replayed at one later clock. An entry that was alive when a
command met it may be dead at that clock, so `replay` runs the command on an empty
slot. Commands that overwrite or empty the slot, or give it a deadline that has
passed too, end with the same live view all the same; the other ones do not.
-/
namespace MiniRedis
open Wire MiniRedis.Parser ParserRoundTrip Cmd

variable {host : Host}

/-! ## One slot -/

namespace Slot
variable {later : ExpireAt}

/-- Run in the log at `later` instead of at its own time, the change does not fail, and
what is alive at `later` is the same. -/
def Rerun (later : ExpireAt) (f g : Slot → Frame × Slot) (s : Slot) : Prop :=
  (f s).1.isError = false →
    (g (s.alive later)).1.isError = false ∧ (g (s.alive later)).2.alive later = (f s).2.alive later

/-- The slot is unchanged between the run and `later`, or its entry dies in between. -/
theorem alive_cases (later : ExpireAt) (s : Slot) :
    s.alive later = s ∨ ∃ value d, s = some ⟨value, some d⟩ ∧ d ≤ later ∧ s.alive later = none := by
  rcases s with _ | ⟨value, _ | d⟩
  · exact Or.inl rfl
  · exact Or.inl (alive_of_persistent rfl)
  · rcases Nat.lt_or_ge later d with h | h
    · exact Or.inl (alive_of_lt rfl h)
    · exact Or.inr ⟨value, d, rfl, h, alive_of_le rfl h⟩

theorem rerun_of_alive {f : Slot → Frame × Slot} {s : Slot} (h : s.alive later = s) :
    Rerun later f f s := by
  intro hf
  rw [h]
  exact ⟨hf, rfl⟩

theorem rerun_const (r : Frame × Slot) (s : Slot) : Rerun later (fun _ => r) (fun _ => r) s :=
  fun h => ⟨h, rfl⟩

theorem rerun_takeFrom {missing : Frame} (hm : missing.isError = false)
    (body : Value → Frame × Option Value) (s : Slot) :
    Rerun later (Slot.takeFrom missing body) (Slot.takeFrom missing body) s := by
  rcases alive_cases later s with h | ⟨value, d, rfl, hd, h⟩
  · exact rerun_of_alive h
  · intro _
    rw [h]
    refine ⟨hm, ?_⟩
    simp only [Slot.takeFrom]
    cases (body value).2 with
    | none => rfl
    | some value' => exact (alive_of_le rfl hd).symm

theorem expire_isError (now deadline : ExpireAt) (s : Slot) :
    (Slot.expire now deadline s).1.isError = false := by
  cases s <;> rfl

/-- A deadline that has not passed at `later` must find the entry alive then. -/
theorem rerun_expire {now deadline : ExpireAt} (hn : now ≤ later) {s : Slot}
    (h : deadline ≤ later ∨ s.alive later = s) :
    Rerun later (Slot.expire now deadline) (Slot.expire later deadline) s := by
  intro _
  refine ⟨expire_isError _ _ _, ?_⟩
  rcases s with _ | entry
  · rfl
  · have hdead : deadline ≤ later →
        Slot.alive later (if deadline ≤ now then none
          else some { entry with expiresAt := some deadline }) = none := by
      intro hd
      split_ifs
      · rfl
      · exact alive_of_le rfl hd
    rcases Nat.lt_or_ge later deadline with hd | hd
    · obtain hs := h.resolve_left (Nat.not_le.mpr hd)
      rw [hs]
      have hnd : ¬ deadline ≤ now := Nat.not_le.mpr (Nat.lt_of_le_of_lt hn hd)
      simp only [Slot.expire, Nat.not_le.mpr hd, hnd, if_false]
    · refine Eq.trans ?_ (hdead hd).symm
      cases Slot.alive later (some entry) with
      | none => rfl
      | some entry' => simp only [Slot.expire, hd, if_true, alive_none]

end Slot

/-! ## One transaction -/

namespace Transaction
variable {later : ExpireAt} {ks : Keyspace}

/-- The same for a transaction, run in the log on what is alive at `later`. -/
def Rerun (later : ExpireAt) (t u : Transaction) (ks : Keyspace) : Prop :=
  (t.run ks).1.isError = false →
    (u.run (ks.alive later)).1.isError = false ∧
      (u.run (ks.alive later)).2.alive later = (t.run ks).2.alive later

theorem rerun_on {k : Bytes} {f g : Slot → Frame × Slot} (h : Slot.Rerun later f g (ks k)) :
    Rerun later (on k f) (on k g) ks := by
  intro hf
  obtain ⟨h₁, h₂⟩ := h hf
  refine ⟨h₁, ?_⟩
  simp only [run, Keyspace.alive_update, Keyspace.alive_apply, h₂]
  congr 1
  funext k'
  exact Slot.alive_alive le_rfl (ks k')

theorem rerun_refuse {reply : Frame} (h : reply.isError = true) (u : Transaction) :
    Rerun later (refuse reply) u ks := by
  intro hf
  exact absurd (h.symm.trans hf) (by decide)

theorem rerun_remove (keys : List Bytes) : Rerun later (remove keys) (remove keys) ks := by
  intro _
  refine ⟨rfl, funext fun k => ?_⟩
  simp only [run, Keyspace.alive_apply, Keyspace.removeAll_apply]
  split_ifs
  · rfl
  · exact Slot.alive_alive le_rfl (ks k)

theorem rerun_assign (pairs : List (Bytes × Bytes)) :
    Rerun later (assign pairs) (assign pairs) ks := by
  intro _
  refine ⟨rfl, funext fun k => ?_⟩
  simp only [run, Keyspace.alive_apply, Keyspace.setAll_apply]
  cases assignedValue k pairs with
  | some v => rfl
  | none => exact Slot.alive_alive le_rfl (ks k)

end Transaction

namespace Command

/-- The command ends the same whether its key is missing or holds an entry that dies by `later`. -/
def forgets (later : ExpireAt) : Command → Bool
  | set .. | del .. | mset .. | lpop .. | rpop .. | hdel .. => true
  | expire _ d | pexpire _ d | pexpireAt _ d => d ≤ later
  | _ => false

/-- No key that the command modifies holds an entry that dies by `later`, unless the command
forgets what the key holds. -/
def ReplaySafe (later : ExpireAt) (ks : Keyspace) (c : Command) : Prop :=
  c.forgets later = true ∨
    ∀ k ∈ c.mutatedKeys, ∀ entry d, ks k = some entry → entry.expiresAt = some d → later < d

theorem ReplaySafe.alive {later : ExpireAt} {ks : Keyspace} {c : Command}
    (h : c.ReplaySafe later ks) (hf : c.forgets later = false) {k : Bytes}
    (hk : k ∈ c.mutatedKeys) : (ks k).alive later = ks k := by
  rcases Slot.alive_cases later (ks k) with hs | ⟨value, d, hs, hd, -⟩
  · exact hs
  · have hlt := h.resolve_left (by simp [hf]) k hk _ d hs rfl
    exact absurd hd (Nat.not_le.mpr hlt)

/-- A logged command at a later clock does what the command did at its own. -/
theorem rerun {now later : ExpireAt} {ks : Keyspace} {c : Command} {t : Transaction}
    (ht : c.transaction now = some t) (hn : now ≤ later) (hs : c.ReplaySafe later ks) :
    ∃ u, c.asLogged.transaction later = some u ∧ t.Rerun later u ks := by
  have same : ∀ {k : Bytes} {f : Slot → Frame × Slot}, c.forgets later = false →
      k ∈ c.mutatedKeys → Transaction.Rerun later (.on k f) (.on k f) ks := fun hf hk =>
    Transaction.rerun_on (Slot.rerun_of_alive (hs.alive hf hk))
  cases c with
  | set key value e =>
      obtain rfl := Option.some.inj ht
      refine ⟨_, rfl, ?_⟩
      split_ifs
      · exact Transaction.rerun_on (Slot.rerun_const _ _)
      · exact Transaction.rerun_refuse rfl _
  | del keys =>
      obtain rfl := Option.some.inj ht
      exact ⟨_, rfl, Transaction.rerun_remove keys⟩
  | mset pairs =>
      obtain rfl := Option.some.inj ht
      refine ⟨_, rfl, ?_⟩
      split_ifs
      · exact Transaction.rerun_refuse rfl _
      · exact Transaction.rerun_assign pairs
  | incr k | decr k | incrBy k n | append k v | persist k | lpush k vs | rpush k vs | hset k ps
  | hincrby k f n =>
      obtain rfl := Option.some.inj ht
      exact ⟨_, rfl, same rfl List.mem_cons_self⟩
  | decrBy k n =>
      obtain rfl := Option.some.inj ht
      refine ⟨_, rfl, ?_⟩
      cases checkedNegI64 n with
      | some neg => exact same rfl List.mem_cons_self
      | none => exact Transaction.rerun_refuse rfl _
  | expire k d | pexpire k d | pexpireAt k d =>
      obtain rfl := Option.some.inj ht
      refine ⟨_, rfl, Transaction.rerun_on (Slot.rerun_expire hn ?_)⟩
      by_cases hd : d ≤ later
      · exact Or.inl hd
      · exact Or.inr (hs.alive (decide_eq_false hd) List.mem_cons_self)
  | lpop k count | rpop k count =>
      obtain rfl := Option.some.inj ht
      refine ⟨_, rfl, Transaction.rerun_on (Slot.rerun_takeFrom ?_ _ _)⟩
      cases count <;> rfl
  | hdel k fs =>
      obtain rfl := Option.some.inj ht
      exact ⟨_, rfl, Transaction.rerun_on (Slot.rerun_takeFrom rfl _ _)⟩
  | _ => cases ht

/-- A logged frame of a client's command is read back as that command. -/
theorem FromClient.reread {c : Command} (hc : c.FromClient) (hd : c.DeadlineInRange)
    {now : ExpireAt} {frame : Frame} (hl : c.aofFrame now = some frame) (later : ExpireAt) :
    fromFrame later frame = .ok c.asLogged := by
  obtain ⟨args, hargs, rfl⟩ := Option.map_eq_some_iff.mp ((aofFrame_eq now c).symm.trans hl)
  have hw : c.isWrite = true := by rw [← logged_isSome now, hargs]; rfl
  obtain ⟨earlier, name, request, hr, -, -⟩ := hc.request
  obtain ⟨name', args', hargs', hread⟩ := (readFrom_of_fromArgs hr hw).reread hd now later
  obtain rfl := Option.some.inj (hargs.symm.trans hargs')
  exact hread

/-- One acknowledged write and the replay of its frame. -/
theorem applyFrame_rerun {host' : Host} {now later : ExpireAt} {db : Db host} {db' : Db host'}
    {c : Command} {frame : Frame} (hn : now ≤ later) (hc : c.FromClient) (hd : c.DeadlineInRange)
    (hv : db'.view later = db.view later) (hl : c.aofFrame now = some frame)
    (he : (c.apply now db).1.isError = false) (hs : c.ReplaySafe later (db.view now)) :
    ∃ db₁, Aof.applyFrame later db' frame = some db₁ ∧
      db₁.view later = (c.apply now db).2.view later := by
  have hw : (c.transaction now).isSome = true := by
    rw [← isWrite_iff_transaction, ← logged_isSome now, ← Option.isSome_map (f := commandFrame),
      ← aofFrame_eq, hl, Option.isSome_some]
  obtain ⟨t, ht⟩ := Option.isSome_iff_exists.mp hw
  obtain ⟨u, hu, hrerun⟩ := rerun ht hn hs
  have hrun := c.apply_refines now db
  have hrun' := c.asLogged.apply_refines later db'
  rw [ht] at hrun
  rw [hu] at hrun'
  rw [hrun.reply] at he
  have hks : db'.view later = (db.view now).alive later := by rw [hv, Db.view_alive hn]
  obtain ⟨h₁, h₂⟩ := hrerun he
  refine ⟨_, Aof.applyFrame_eq_some.mpr ⟨_, hc.reread hd hl later, ?_, rfl⟩, ?_⟩
  · rw [hrun'.reply, hks, h₁]
  · rw [hrun'.view, hks, h₂, ← Db.view_alive hn, hrun.view]
    funext k
    exact (Slot.alive_alive hn _).symm

/-- A client's command that answers with an error leaves the live view alone. -/
theorem FromClient.view_of_error {now : ExpireAt} {db : Db host} {c : Command} (hc : c.FromClient)
    (he : (c.apply now db).1.isError = true) : (c.apply now db).2.view now = db.view now := by
  refine Command.view_of_error ?_ he
  rintro ⟨key, value, rfl, -, hv⟩
  obtain ⟨earlier, name, request, hr, -, hlen⟩ := hc.request
  cases readFrom_of_fromArgs hr rfl
  have hfits : bulkResponseFits value.length = true := by
    rw [bulkResponseFits_iff]
    simp only [argsLen_cons, argsLen_nil] at hlen
    have hmax : maxBufferedFrameBytes = maxResponseFrameBytes := rfl
    omega
  exact Bool.false_ne_true (hv.symm.trans hfits)

end Command

/-! ## Runs -/

namespace Server

/-- A step of a run in which every append succeeds. -/
def step (e : ExpireAt × Command) (db : Db host) : Db host := (e.2.apply e.1 db).2

/-- The write was applied and answered without an error, so it was logged. -/
def Acknowledged (t : Db host × ExpireAt × Command) : Prop :=
  t.2.2.isWrite = true ∧ (t.2.2.apply t.2.1 t.1).1.isError = false

instance (t : Db host × ExpireAt × Command) : Decidable (Acknowledged t) :=
  inferInstanceAs (Decidable (_ ∧ _))

theorem execute_eq (now : ExpireAt) (db : Db host) (c : Command) :
    execute now (fun _ => .ok ()) db c =
      ⟨(c.apply now db).1, (c.apply now db).2,
        if Acknowledged (db, now, c) then c.aofFrame now else none⟩ := by
  unfold execute Acknowledged
  dsimp only
  by_cases he : (c.apply now db).1.isError = true
  · simp [he]
  · by_cases hw : c.isWrite = true
    · simp only [he, hw, if_true, true_and]
      cases c.aofFrame now <;> rfl
    · simp [he, hw]

/-- A client's command that is not acknowledged leaves the live view alone. -/
theorem view_of_not_acknowledged {now : ExpireAt} {db : Db host} {c : Command}
    (hc : c.FromClient) (h : ¬ Acknowledged (db, now, c)) :
    (c.apply now db).2.view now = db.view now := by
  by_cases he : (c.apply now db).1.isError = true
  · exact hc.view_of_error he
  · have hw : c.isWrite = false := by
      by_contra hw
      exact h ⟨by simpa using hw, by simpa using he⟩
    have hr := c.apply_refines now db
    cases ht : c.transaction now with
    | some t =>
        rw [Command.isWrite_iff_transaction now, ht] at hw
        cases hw
    | none =>
        rw [ht] at hr
        exact Db.view_of_shards hr

theorem serve_cons (now : ExpireAt) (c : Command) (run : List (ExpireAt × Command)) (db : Db host) :
    serve db ((now, c) :: run) =
      ((serve (c.apply now db).2 run).1,
        (if Acknowledged (db, now, c) then c.aofFrame now else none).toList ++
          (serve (c.apply now db).2 run).2) := by
  simp only [serve, execute_eq]

/-- Every logged frame is that of an acknowledged write. -/
theorem acknowledged_of_logged {run : List (ExpireAt × Command)} {db : Db host} {frame : Frame}
    (h : frame ∈ (serve db run).2) :
    ∃ t ∈ Runs.taken step run db, Acknowledged t ∧ t.2.2.aofFrame t.2.1 = some frame := by
  induction run generalizing db with
  | nil => cases h
  | cons e run ih =>
      obtain ⟨now, c⟩ := e
      rw [serve_cons] at h
      rcases List.mem_append.mp h with h | h
      · split_ifs at h with hack
        · exact ⟨(db, now, c), List.mem_cons_self, hack, Option.mem_toList.mp h⟩
        · cases h
      · obtain ⟨t, ht, hack⟩ := ih h
        exact ⟨t, List.mem_cons_of_mem _ ht, hack⟩

/-- What a client may send so that its deadline can be logged as it is. -/
structure Admissible (later : ExpireAt) (e : ExpireAt × Command) : Prop where
  fromClient : e.2.FromClient
  inRange : e.2.DeadlineInRange
  before : e.1 ≤ later

variable {host' : Host} {later : ExpireAt}

/-- The log of a run, replayed on a database with the same live view at a later clock. -/
theorem applyFrames_serve {run : List (ExpireAt × Command)} {db : Db host} {db' : Db host'}
    (hrun : ∀ e ∈ run, Admissible later e) (hv : db'.view later = db.view later)
    (hsafe : ∀ t ∈ Runs.taken step run db, Acknowledged t →
      t.2.2.ReplaySafe later (t.1.view t.2.1)) :
    ∃ db₁, Aof.applyFrames later (serve db run).2 db' = some db₁ ∧
      db₁.view later = (serve db run).1.view later := by
  induction run generalizing db db' with
  | nil => exact ⟨db', rfl, hv⟩
  | cons e run ih =>
      obtain ⟨now, c⟩ := e
      obtain ⟨he, hrun⟩ := List.forall_mem_cons.mp hrun
      obtain ⟨hs, hsafe⟩ := List.forall_mem_cons.mp hsafe
      rw [serve_cons]
      split_ifs with hack
      · obtain ⟨frame, hframe⟩ : ∃ frame, c.aofFrame now = some frame := by
          rw [← Option.isSome_iff_exists, Command.aofFrame_eq, Option.isSome_map,
            Command.logged_isSome, hack.1]
        obtain ⟨db₁, h₁, hv₁⟩ := Command.applyFrame_rerun he.before he.fromClient he.inRange hv
          hframe hack.2 (hs hack)
        obtain ⟨db₂, h₂, hv₂⟩ := ih hrun hv₁ hsafe
        refine ⟨db₂, ?_, hv₂⟩
        rw [hframe]
        exact Option.bind_eq_some_iff.mpr ⟨db₁, h₁, h₂⟩
      · have hview := view_of_not_acknowledged he.fromClient hack
        exact ih hrun (hv.trans (Db.view_congr he.before hview).symm) hsafe

end Server
end MiniRedis
