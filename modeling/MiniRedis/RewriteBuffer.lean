import MiniRedis.FarDeadlines
import MiniRedis.FrameStream
import MiniRedis.SameValues
import MiniRedis.SnapshotRestore
import MiniRedis.WriterRollback

/-!
# Writes during a rewrite

The entries of a rewrite are captured at one instant and written later, and an entry whose
deadline has passed by then is left out. The writes that the server acknowledged meanwhile
follow in the file. Executed at its own clock, a write finds its key as it was, unless the
entry was left out and the write came before the deadline.
-/
namespace MiniRedis
open Wire Cmd Aof ParserRoundTrip

variable {host host' : Host}

/-! ## Slots that were left out -/

namespace Slot
variable {later : ExpireAt} {s s' : Slot}

/-- The slots hold the same, or the first one lacks an entry that is dead by `later`. -/
def Trails (later : ExpireAt) (s s' : Slot) : Prop :=
  s.Same s' ∨ s = none ∧ ∃ value d, s' = some ⟨value, some d⟩ ∧ d ≤ later

theorem Trails.alive (h : s.Trails later s') (now : ExpireAt) :
    (s.alive now).Trails later (s'.alive now) := by
  rcases h with h | ⟨rfl, value, d, rfl, hd⟩
  · exact Or.inl (h.alive now)
  · rcases alive_cases now (some ⟨value, some d⟩) with ha | ⟨-, -, -, -, ha⟩
    · exact Or.inr ⟨rfl, value, d, ha, hd⟩
    · rw [ha]
      exact Or.inl trivial

/-- At the end the entries that were left out are dead. -/
theorem Trails.same_alive (h : s.Trails later s') : (s.alive later).Same (s'.alive later) := by
  rcases h with h | ⟨rfl, value, d, rfl, hd⟩
  · exact h.alive later
  · rw [alive_of_le rfl hd]
    exact trivial

/-- Where there is no entry, none was left out. -/
theorem Trails.same_none (h : s.Trails later none) : s.Same none := by
  rcases h with h | ⟨-, value, d, h, -⟩
  · exact h
  · cases h

/-- The change succeeds on the slot of the file as it did, and leaves no more behind. -/
def Follows (later : ExpireAt) (f : Slot → Frame × Slot) : Prop :=
  ∀ s s' : Slot, s.Trails later s' → (f s').1.isError = false →
    (f s).1.isError = false ∧ (f s).2.Trails later (f s').2

theorem follows_takeFrom {missing : Frame} (hm : missing.isError = false)
    {body : Value → Frame × Option Value} (hr : Respects (Slot.takeFrom missing body)) :
    Follows later (Slot.takeFrom missing body) := by
  intro s s' hs he
  rcases hs with hs | ⟨rfl, value, d, rfl, hd⟩
  · have h := hr s s' hs
    exact ⟨h.1 ▸ he, Or.inl h.2⟩
  · refine ⟨hm, ?_⟩
    change Trails later none ((body value).2.map fun value => ⟨value, some d⟩)
    cases (body value).2 with
    | none => exact Or.inl trivial
    | some value' => exact Or.inr ⟨rfl, value', d, rfl, hd⟩

theorem follows_expire {now deadline : ExpireAt} (hd : deadline ≤ later) :
    Follows later (Slot.expire now deadline) := by
  intro s s' hs he
  refine ⟨expire_isError now deadline s, ?_⟩
  rcases hs with hs | ⟨rfl, value, d, rfl, -⟩
  · exact Or.inl (respects_expire now deadline s s' hs).2
  · unfold Slot.expire
    dsimp only
    split_ifs
    · exact Or.inl trivial
    · exact Or.inr ⟨rfl, value, deadline, rfl, hd⟩

end Slot

namespace Keyspace
variable {later : ExpireAt} {out out' : Bytes → Prop} {a b : Keyspace}

/-- The keyspaces hold the same, but for entries at the keys in `out` that are dead by
`later`, which the first one may lack. -/
def Trails (later : ExpireAt) (out : Bytes → Prop) (a b : Keyspace) : Prop :=
  ∀ k, (a k).Trails later (b k) ∧ ((a k).Same (b k) ∨ out k)

theorem Trails.alive (h : a.Trails later out b) (now : ExpireAt) :
    (a.alive now).Trails later out (b.alive now) := fun k =>
  ⟨(h k).1.alive now, (h k).2.imp_left fun hs => hs.alive now⟩

theorem Trails.same_alive (h : a.Trails later out b) : (a.alive later).Same (b.alive later) :=
  fun k => (h k).1.same_alive

/-- A key without an entry needs not be left out. -/
theorem Trails.narrow (h : a.Trails later out b) (hout : ∀ k, out k → b k ≠ none → out' k) :
    a.Trails later out' b := by
  intro k
  refine ⟨(h k).1, ?_⟩
  rcases (h k).2 with hs | hk
  · exact Or.inl hs
  · by_cases hb : b k = none
    · have htrails := (h k).1
      rw [hb] at htrails ⊢
      exact Or.inl htrails.same_none
    · exact Or.inr (hout k hk hb)

end Keyspace

namespace Command

/-- The keys that the command gives a value or empties, whatever they hold. -/
def overwrites : Command → List Bytes
  | set key .. => [key]
  | del keys => keys
  | mset pairs => pairs.map (·.1)
  | _ => []

theorem overwrites_subset {c : Command} : c.overwrites ⊆ c.mutatedKeys := by
  cases c with
  | set | del | mset => exact List.Subset.refl _
  | _ => exact List.nil_subset _

/-- A command that does not look at what its keys hold, or meets the same there, succeeds
again, and leaves the same at the keys it overwrites. -/
theorem transaction_trails {now later : ExpireAt} {out : Bytes → Prop} {c : Command}
    {t : Transaction} (ht : c.transaction now = some t) {a b : Keyspace}
    (h : a.Trails later out b)
    (hs : c.forgets later = true ∨ ∀ k ∈ c.mutatedKeys, out k → b k = none)
    (he : (t.run b).1.isError = false) :
    (t.run a).1.isError = false ∧ ∀ k ∈ c.mutatedKeys,
      ((t.run a).2 k).Trails later ((t.run b).2 k) ∧
        (((t.run a).2 k).Same ((t.run b).2 k) ∨ out k ∧ k ∉ c.overwrites) := by
  have done_ : (t.run a).1.isError = false →
      (∀ k ∈ c.mutatedKeys, ((t.run a).2 k).Same ((t.run b).2 k)) →
      (t.run a).1.isError = false ∧ ∀ k ∈ c.mutatedKeys,
        ((t.run a).2 k).Trails later ((t.run b).2 k) ∧
          (((t.run a).2 k).Same ((t.run b).2 k) ∨ out k ∧ k ∉ c.overwrites) :=
    fun hreply hsame => ⟨hreply, fun k hk => ⟨Or.inl (hsame k hk), Or.inl (hsame k hk)⟩⟩
  have same_ : (∀ k ∈ c.mutatedKeys, (a k).Same (b k)) → (t.run a).1.isError = false ∧
      ∀ k ∈ c.mutatedKeys, ((t.run a).2 k).Same ((t.run b).2 k) := fun hsame => by
    have hr := transaction_respects ht hsame
    exact ⟨hr.1 ▸ he, hr.2⟩
  rcases hs with hf | hs
  · have on_ : ∀ {key : Bytes} {f : Slot → Frame × Slot}, t = .on key f → c.mutatedKeys = [key] →
        c.overwrites = [] → Slot.Follows later f → (t.run a).1.isError = false ∧
          ∀ k ∈ c.mutatedKeys, ((t.run a).2 k).Trails later ((t.run b).2 k) ∧
            (((t.run a).2 k).Same ((t.run b).2 k) ∨ out k ∧ k ∉ c.overwrites) := by
      intro key f heq hkeys hover hfollows
      rcases (h key).2 with hsame | hout
      · have hall := same_ (by rw [hkeys]; exact List.forall_mem_singleton.mpr hsame)
        exact done_ hall.1 hall.2
      · subst heq
        have hkey := hfollows _ _ (h key).1 he
        refine ⟨hkey.1, ?_⟩
        rw [hkeys, hover, List.forall_mem_singleton]
        simp only [Transaction.run, Function.update_self]
        exact ⟨hkey.2, Or.inr ⟨hout, List.not_mem_nil⟩⟩
    cases c with
    | set key value e =>
        obtain rfl := Option.some.inj ht
        split_ifs at he done_ ⊢
        · refine done_ rfl (List.forall_mem_singleton.mpr ?_)
          simp only [Transaction.run, Function.update_self]
          exact Slot.Same.refl _
        · cases he
    | del keys =>
        obtain rfl := Option.some.inj ht
        refine done_ rfl fun k hk => ?_
        have hmem : k ∈ keys := hk
        simp only [Transaction.run, Keyspace.removeAll_apply, if_pos hmem]
        exact trivial
    | mset pairs =>
        obtain rfl := Option.some.inj ht
        split_ifs at he done_ ⊢
        · cases he
        · refine done_ rfl fun k hk => ?_
          simp only [Transaction.run, Keyspace.setAll_apply]
          cases hv : assignedValue k pairs with
          | none => exact absurd hk (assignedValue_eq_none.mp hv)
          | some v => exact Slot.Same.refl _
    | lpop k count | rpop k count =>
        obtain rfl := Option.some.inj ht
        have hm : (popMissing count).isError = false := by cases count <;> rfl
        exact on_ rfl rfl rfl (Slot.follows_takeFrom hm (respects_pop _ count _))
    | hdel k fs =>
        obtain rfl := Option.some.inj ht
        exact on_ rfl rfl rfl (Slot.follows_takeFrom rfl (respects_hdel _ fs))
    | expire k d | pexpire k d | pexpireAt k d =>
        obtain rfl := Option.some.inj ht
        exact on_ rfl rfl rfl (Slot.follows_expire (of_decide_eq_true hf))
    | _ => cases hf
  · have hsame : ∀ k ∈ c.mutatedKeys, (a k).Same (b k) := by
      intro k hk
      rcases (h k).2 with hsame | hout
      · exact hsame
      · have htrails := (h k).1
        rw [hs k hk hout] at htrails ⊢
        exact htrails.same_none
    have hall := same_ hsame
    exact done_ hall.1 hall.2

/-- What a client's write is logged as does the same at the same clock. -/
theorem FromClientBy.applyFrame {now : ExpireAt} {c : Command} (hc : c.FromClientBy now)
    (hd : c.LoggedInTime now) (hw : c.isWrite = true) :
    ∃ frame, c.aofFrame now = some frame ∧ ∀ (host : Host) (db : Db host),
      (c.apply now db).1.isError = false →
        Aof.applyFrame now db frame = some (c.apply now db).2 := by
  obtain ⟨buf, rest, request, readAt, hle, -, hread⟩ := hc
  obtain ⟨nameBytes, s, args, -, -, hargs⟩ := fromFrame_eq_ok hread
  obtain ⟨logged, hl, hf⟩ := (readFrom_of_fromArgs hargs hw).reread_in_time hle hd
  refine ⟨commandFrame logged, by rw [aofFrame_eq, hl, Option.map_some], fun host db he => ?_⟩
  have happly := apply_asLogged now db c
  exact applyFrame_eq_some.mpr ⟨c.asLogged, hf, by rw [happly]; exact he, by rw [happly]⟩

end Command

/-! ## The writes of a run -/

namespace Server
variable {later : ExpireAt} {out : Bytes → Prop}

/-- The frames that the run appends, each at the clock of its command. -/
def journal (db : Db host) : List (ExpireAt × Command) → List (ExpireAt × Frame)
  | [] => []
  | (now, cmd) :: run =>
      let o := execute now (fun _ => .ok ()) db cmd
      o.logged.toList.map (now, ·) ++ journal o.db run

def applyJournal : List (ExpireAt × Frame) → Db host → Option (Db host)
  | [], db => some db
  | (now, frame) :: frames, db => (applyFrame now db frame).bind (applyJournal frames)

/-- They are the frames of the log. -/
theorem journal_frames (db : Db host) (run : List (ExpireAt × Command)) :
    (journal db run).map Prod.snd = (serve db run).2 := by
  induction run generalizing db with
  | nil => rfl
  | cons e run ih => simp [journal, serve, ih]

/-- The keys that are still left out after a step: their entries had not died before it, and
it did not overwrite them. -/
def outAfter (out : Bytes → Prop) (t : Db host × ExpireAt × Command) (k : Bytes) : Prop :=
  out k ∧ t.1.view t.2.1 k ≠ none ∧ ¬ (Acknowledged t ∧ k ∈ t.2.2.overwrites)

/-- The write does not rely on an entry that was left out: where such an entry is alive, the
command ends the same without it. -/
def Unreliant (later : ExpireAt) (out : Bytes → Prop) (t : Db host × ExpireAt × Command) : Prop :=
  Acknowledged t → t.2.2.forgets later = true ∨
    ∀ k ∈ t.2.2.mutatedKeys, out k → t.1.view t.2.1 k = none

/-- No write of the run does. -/
def UnreliantRun (later : ExpireAt) (out : Bytes → Prop) (db : Db host) :
    List (ExpireAt × Command) → Prop
  | [] => True
  | e :: run => Unreliant later out (db, e) ∧
      UnreliantRun later (outAfter out (db, e)) (step e db) run

/-- A write that the server acknowledges, on a database that lacks what was left out. -/
theorem trails_of_acknowledged {now : ExpireAt} {c : Command} {db : Db host} {db' : Db host'}
    (h : (db'.view now).Trails later out (db.view now)) (hack : Acknowledged (db, now, c))
    (hs : Unreliant later out (db, now, c)) :
    (c.apply now db').1.isError = false ∧
      ((c.apply now db').2.view now).Trails later (outAfter out (db, now, c))
        ((c.apply now db).2.view now) := by
  obtain ⟨t, ht⟩ := Option.isSome_iff_exists.mp
    ((Command.isWrite_iff_transaction now c).symm.trans hack.1)
  have hr := c.apply_refines now db
  have hr' := c.apply_refines now db'
  rw [ht] at hr hr'
  have he := hack.2
  rw [hr.reply] at he
  have hnarrow : (db'.view now).Trails later (fun k => out k ∧ db.view now k ≠ none)
      (db.view now) := h.narrow fun k hk hne => ⟨hk, hne⟩
  obtain ⟨hreply, hkeys⟩ := Command.transaction_trails ht hnarrow
    ((hs hack).imp_right fun hout k hk hk' => hout k hk hk'.1) he
  refine ⟨by rw [hr'.reply]; exact hreply, fun k => ?_⟩
  by_cases hk : k ∈ c.mutatedKeys
  · have htrails := hkeys k hk
    rw [hr.view, hr'.view]
    refine ⟨htrails.1.alive now, ?_⟩
    rcases htrails.2 with hsame | ⟨hout, hover⟩
    · exact Or.inl (hsame.alive now)
    · exact Or.inr ⟨hout.1, hout.2, fun ho => hover ho.2⟩
  · have hb : (c.apply now db).2.view now k = db.view now k :=
      congrArg (Slot.alive now) (hr.frame k hk)
    have ha : (c.apply now db').2.view now k = db'.view now k :=
      congrArg (Slot.alive now) (hr'.frame k hk)
    rw [ha, hb]
    refine ⟨(hnarrow k).1, (hnarrow k).2.imp_right fun hout => ⟨hout.1, hout.2, fun ho => ?_⟩⟩
    exact hk (Command.overwrites_subset ho.2)

theorem trails_of_not_acknowledged {now : ExpireAt} {c : Command} {db : Db host} {db' : Db host'}
    (hc : c.FromClient) (h : (db'.view now).Trails later out (db.view now))
    (hack : ¬ Acknowledged (db, now, c)) :
    (db'.view now).Trails later (outAfter out (db, now, c)) ((c.apply now db).2.view now) := by
  rw [view_of_not_acknowledged hc hack]
  exact h.narrow fun k hk hne => ⟨hk, hne, fun ho => hack ho.1⟩

/-- A command that a client sent during the rewrite. -/
structure Meanwhile (later : ExpireAt) (e : ExpireAt × Command) : Prop where
  fromClient : e.2.FromClientBy e.1
  inTime : e.2.LoggedInTime e.1
  before : e.1 ≤ later

/-- The journal of a run, on a database that lacks what was left out. -/
theorem applyJournal_journal {run : List (ExpireAt × Command)} {start : ExpireAt} {db : Db host}
    {db' : Db host'} (hrun : ∀ e ∈ run, Meanwhile later e) (hstart : start ≤ later)
    (horder : (start :: run.map Prod.fst).Pairwise (· ≤ ·))
    (h : (db'.view start).Trails later out (db.view start)) (hs : UnreliantRun later out db run) :
    ∃ db₁, applyJournal (journal db run) db' = some db₁ ∧
      (db₁.view later).Same ((serve db run).1.view later) := by
  induction run generalizing out start db db' with
  | nil =>
      refine ⟨db', rfl, ?_⟩
      rw [← Db.view_alive hstart, ← Db.view_alive hstart]
      exact h.same_alive
  | cons e run ih =>
      obtain ⟨now, c⟩ := e
      obtain ⟨he, hrun⟩ := List.forall_mem_cons.mp hrun
      rw [List.map_cons, List.pairwise_cons] at horder
      have hnow : start ≤ now := horder.1 now List.mem_cons_self
      have htrails := h.alive now
      rw [Db.view_alive hnow, Db.view_alive hnow] at htrails
      simp only [journal, serve, execute_eq]
      by_cases hack : Acknowledged (db, now, c)
      · obtain ⟨frame, hframe, hsame⟩ := he.fromClient.applyFrame he.inTime hack.1
        obtain ⟨hreply, hstep⟩ := trails_of_acknowledged htrails hack hs.1
        obtain ⟨db₁, h₁, hv⟩ := ih hrun he.before horder.2 hstep hs.2
        refine ⟨db₁, ?_, hv⟩
        rw [if_pos hack, hframe]
        exact Option.bind_eq_some_iff.mpr ⟨_, hsame host' db' hreply, h₁⟩
      · have hstep := trails_of_not_acknowledged he.fromClient.fromClient htrails hack
        obtain ⟨db₁, h₁, hv⟩ := ih hrun he.before horder.2 hstep hs.2
        refine ⟨db₁, ?_, hv⟩
        rw [if_neg hack]
        exact h₁

end Server

/-! ## The snapshot -/

namespace Aof
variable {now later : ExpireAt} {clock : Bytes → ExpireAt}

/-- The key was captured with an entry that had expired when it was to be written. -/
def LeftOut (clock : Bytes → ExpireAt) (now : ExpireAt) (db : Db host) (k : Bytes) : Prop :=
  ∃ entry, db.view now k = some entry ∧ entryExpired (clock k) entry = true

/-- The snapshot, run at the instant of its capture, gives all entries back but those. -/
theorem snapshot_trails (host' : Host) {db : Db host} (h : db.Served)
    (hclock : ∀ k, clock k ≤ later)
    (hd : ∀ k entry, db.view now k = some entry → DeadlineFits entry) {bytes : Bytes}
    (hw : writeSnapshotEntries clock (db.aofSnapshotEntries now) = .ok bytes) :
    ∃ (frames : List Frame) (db' : Db host'), bytes = encodeAll frames ∧
      applyFrames now frames Db.new = some db' ∧
      (db'.view now).Trails later (LeftOut clock now db) (db.view now) := by
  have hvalid := h.reachable.valid
  have hstorable : ∀ e ∈ db.aofSnapshotEntries now, Storable e.2 := fun e he =>
    storable_of_view h hd ((mem_aofSnapshotEntries hvalid).mp he)
  obtain ⟨commands, hsnap, hprints⟩ := writeSnapshotEntries_eq_ok hstorable hw
  obtain ⟨db', ha, hin, hout⟩ := applied_written host' now hvalid
    (fun e he => hstorable e (List.mem_filter.mp he).1) hsnap
  refine ⟨commands.map commandFrame, db', by rw [hprints.bytes, encodeAll_eq], ha, fun k => ?_⟩
  cases hk : db.view now k with
  | none =>
      have hsame : (db'.view now k).Same none := by
        rw [hout k fun entry he => by rw [hk] at he; cases he]
        exact trivial
      exact ⟨Or.inl hsame, Or.inl hsame⟩
  | some entry =>
      cases he : entryExpired (clock k) entry with
      | false =>
          have hsame := hin k entry hk he
          have halive : Slot.alive now (some entry) = some entry :=
            Slot.alive_eq_some.mpr ⟨rfl, Db.fresh_of_view hk⟩
          rw [halive] at hsame
          exact ⟨Or.inl hsame, Or.inl hsame⟩
      | true =>
          rw [hout k fun entry' he' => by rw [hk] at he'; rw [← Option.some.inj he', he]]
          refine ⟨?_, Or.inr ⟨entry, hk, he⟩⟩
          cases entry with
          | mk value expiresAt =>
              cases expiresAt with
              | none => cases he
              | some d =>
                  have hd : d ≤ clock k := of_decide_eq_true he
                  exact Or.inr ⟨rfl, value, d, rfl, hd.trans (hclock k)⟩

/-! ## The switched file -/

/-- The messages that reach the writer while it fills the buffer. -/
def WriterStep.MidRewrite : WriterStep → Prop
  | .write .. | .tick _ | .land => True
  | _ => False

namespace Writer
variable {policy : FsyncPolicy} {w : Writer}

/-- The frame that a step appends and acknowledges. -/
def appended (policy : FsyncPolicy) : Writer × WriterStep → Option Bytes
  | (w, .write bytes calls) =>
      match (w.write policy bytes calls).1 with
      | .ok () => some bytes
      | .error _ => none
  | _ => none

/-- The buffer, if there is one, holds the frames. -/
def Buffers (frames : List Bytes) (w : Writer) : Prop :=
  ∀ buffer, w.rewriteBuffer = some buffer → buffer.frames = frames

theorem Refiled.rewriteBuffer {w' : Writer} (h : w.Refiled w') :
    w'.rewriteBuffer = w.rewriteBuffer := by
  obtain ⟨file, size, rfl⟩ := h
  rfl

theorem Buffers.bufferFrame {frames : List Bytes} (h : w.Buffers frames) (bytes : Bytes) :
    (w.bufferFrame bytes).Buffers (frames ++ [bytes]) := by
  intro buffer' hb'
  unfold Writer.bufferFrame at hb'
  cases hb : w.rewriteBuffer with
  | none =>
      rw [hb] at hb'
      dsimp only at hb'
      rw [hb] at hb'
      cases hb'
  | some buffer =>
      rw [hb] at hb'
      unfold RewriteBuffer.push at hb'
      dsimp only at hb'
      cases hn : checkedAdd buffer.bytes bytes.length with
      | none =>
          rw [hn] at hb'
          cases hb'
      | some n =>
          rw [hn] at hb'
          dsimp only at hb'
          split_ifs at hb'
          · cases hb'
          · obtain rfl := Option.some.inj hb'
            rw [h buffer hb]

/-- A write fails and leaves the buffer, or its frame goes there. -/
theorem write_cases (policy : FsyncPolicy) (bytes : Bytes) (calls : WriteCalls) (w : Writer) :
    ∃ w', w'.rewriteBuffer = w.rewriteBuffer ∧
      ((∃ e, w.write policy bytes calls = (.error e, w')) ∨
        w.write policy bytes calls = (.ok (), w'.bufferFrame bytes)) := by
  have hb := (writeFrame_refiled policy bytes calls w).rewriteBuffer
  unfold write
  split_ifs
  · exact ⟨w, rfl, Or.inl ⟨_, rfl⟩⟩
  · cases hr : w.writeFrame policy bytes calls with
    | mk result w' =>
        rw [hr] at hb
        cases result with
        | ok => exact ⟨w', hb, Or.inr rfl⟩
        | error e => exact ⟨w'.markWriteFailed e, hb, Or.inl ⟨e, rfl⟩⟩

theorem Buffers.congr {frames : List Bytes} (h : w.Buffers frames) {w' : Writer}
    (hb : w'.rewriteBuffer = w.rewriteBuffer) : w'.Buffers frames :=
  fun buffer hb' => h buffer (hb.symm.trans hb')

theorem Buffers.step {frames : List Bytes} (h : w.Buffers frames) {step : WriterStep}
    (hs : step.MidRewrite) :
    (w.handle policy step).2.Buffers (frames ++ (appended policy (w, step)).toList) := by
  cases step with
  | write bytes calls =>
      obtain ⟨w', hb, hw⟩ := write_cases policy bytes calls w
      unfold handle appended
      dsimp only
      rcases hw with ⟨e, hw⟩ | hw
      · rw [hw]
        simpa using h.congr hb
      · rw [hw]
        exact (h.congr hb).bufferFrame bytes
  | tick syncData =>
      have hb : (w.handle policy (.tick syncData)).2.rewriteBuffer = w.rewriteBuffer := by
        unfold handle tick
        dsimp only
        split_ifs
        · cases syncData <;> rfl
        · rfl
      simpa [appended] using h.congr hb
  | land =>
      have hb : (w.handle policy .land).2.rewriteBuffer = w.rewriteBuffer := rfl
      simpa [appended] using h.congr hb
  | startRewrite | finishRewrite | abortRewrite => cases hs

/-- A rewrite that succeeds, with the frames that the writer acknowledges in the meantime. What
is in flight when the new file is synced does not fail. -/
structure Rewrites (policy : FsyncPolicy) (w : Writer) (steps : List WriterStep)
    (calls : FinishCalls) (temp : Bytes) (frames : List Bytes) : Prop where
  idle : w.rewriteBuffer = none
  midRewrite : ∀ step ∈ steps, step.MidRewrite
  acknowledged : (stepsTaken policy steps w.startRewrite.2).filterMap (appended policy) = frames
  openTemp : calls.openTemp = .ok temp
  appends : calls.append.lost frames.flatten = false
  finished : ((after policy steps w.startRewrite.2).finishRewrite policy calls).1 = .ok ()

/-- The file after the switch. -/
def switchedFile (policy : FsyncPolicy) (w : Writer) (steps : List WriterStep)
    (calls : FinishCalls) : Bytes :=
  ((after policy steps w.startRewrite.2).finishRewrite policy calls).2.file.bytes

/-- It is the temporary file with those frames behind it. -/
theorem Rewrites.file {steps : List WriterStep} {calls : FinishCalls} {temp : Bytes}
    {frames : List Bytes} (h : Rewrites policy w steps calls temp frames) :
    switchedFile policy w steps calls = temp ++ frames.flatten := by
  have hstart : w.startRewrite.2.Buffers [] := by
    rw [startRewrite, h.idle]
    intro buffer hb
    rw [← Option.some.inj hb]
  have hbuffers : (after policy steps w.startRewrite.2).Buffers frames := by
    have hstep : ∀ (noted : List Bytes) (w : Writer) (step : WriterStep), Buffers noted w →
        (fun t : Writer × WriterStep => t.2.MidRewrite) (w, step) →
        Buffers (noted ++ (appended policy (w, step)).toList) (w.handle policy step).2 :=
      fun noted w step hw hs => hw.step hs
    have hrun := Runs.kept_noted hstep hstart fun t ht => h.midRewrite t.2 (Runs.label_mem ht)
    rw [List.nil_append, h.acknowledged] at hrun
    exact hrun
  have hfinish := h.finished
  unfold switchedFile finishRewrite at hfinish ⊢
  cases hb : (after policy steps w.startRewrite.2).rewriteBuffer with
  | none =>
      rw [hb] at hfinish
      cases hfinish
  | some buffer =>
      rw [hb] at hfinish
      dsimp only at hfinish ⊢
      cases hr : replacement calls buffer with
      | error e =>
          rw [hr] at hfinish
          cases hfinish
      | ok file =>
          obtain ⟨temp', hren, rfl⟩ := replacement_eq_ok.mp hr
          obtain rfl : temp = temp' := Except.ok.inj (h.openTemp.symm.trans hren.openTemp)
          have hframes : buffer.frames = frames := hbuffers buffer hb
          subst hframes
          rw [switchTo_file, hren.whole h.appends]

end Writer
end Aof

/-! ## The file and the running server -/

namespace Server
open Aof.Writer
variable {later start : ExpireAt} {clock : Bytes → ExpireAt} {policy : FsyncPolicy} {w : Writer}
  {steps : List WriterStep} {calls : FinishCalls}

/-- Behind the snapshot the file has the frames of the run. The snapshot executed at the instant
of its capture, and each frame at the clock of its command, it gives the live view of the
server. -/
def Resumes (host' : Host) (start later : ExpireAt) (db : Db host)
    (run : List (ExpireAt × Command)) (temp file : Bytes) : Prop :=
  ∃ (snapshot : List Frame) (db₁ db₂ : Db host'), temp = encodeAll snapshot ∧
    file = encodeAll (snapshot ++ (journal db run).map Prod.snd) ∧
    applyFrames start snapshot Db.new = some db₁ ∧ applyJournal (journal db run) db₁ = some db₂ ∧
    (db₂.view later).Same ((serve db run).1.view later)

/-- A rewrite gives back the server that kept running, if no write that was acknowledged
meanwhile relies on an entry that was captured alive and left out. -/
theorem rewrite_resumes (host' : Host) {db : Db host} {run : List (ExpireAt × Command)}
    {temp : Bytes} (h : db.Served)
    (hd : ∀ k entry, db.view start k = some entry → DeadlineFits entry)
    (hclock : ∀ k, clock k ≤ later)
    (htemp : writeSnapshotEntries clock (db.aofSnapshotEntries start) = .ok temp)
    (hrun : ∀ e ∈ run, Meanwhile later e) (hstart : start ≤ later)
    (horder : (start :: run.map Prod.fst).Pairwise (· ≤ ·))
    (hw : Rewrites policy w steps calls temp ((serve db run).2.map fun frame => encode frame []))
    (hs : UnreliantRun later (LeftOut clock start db) db run) :
    Resumes host' start later db run temp (switchedFile policy w steps calls) := by
  obtain ⟨snapshot, db₁, hbytes, h₁, htrails⟩ := snapshot_trails host' h hclock hd htemp
  obtain ⟨db₂, h₂, hsame⟩ := applyJournal_journal hrun hstart horder htrails hs
  refine ⟨snapshot, db₁, db₂, hbytes, ?_, h₁, h₂, hsame⟩
  rw [hw.file, hbytes, journal_frames, encodeAll, encodeAll, List.flatMap_append,
    ← List.flatMap_def]

/-! ## A key that is persisted during a rewrite -/

/-- `SET k v`, with the deadline 1100. -/
def expiringDb : Db oneShard := ((Command.set [107] [118] (some 1100)).apply 1000 Db.new).2

def persistMeanwhile : List (ExpireAt × Command) := [(1050, .persist [107])]

theorem served_expiringDb : expiringDb.Served := .apply .new 1000 fromClient_set

theorem entries_expiringDb :
    expiringDb.aofSnapshotEntries 1000 = [([107], ⟨.string [118], some 1100⟩)] := rfl

theorem meanwhile_persist : ∀ e ∈ persistMeanwhile, Meanwhile 1200 e :=
  List.forall_mem_singleton.mpr ⟨fromClientBy_of_args (Nat.zero_le _) _ (by decide) (by decide)
    (fromFrame_persistFrame 0), trivial, by decide⟩

theorem fits_expiringDb (k : Bytes) (entry : Entry)
    (h : expiringDb.view 1000 k = some entry) : DeadlineFits entry := by
  have hm := (mem_aofSnapshotEntries served_expiringDb.reachable.valid).mpr h
  rw [entries_expiringDb] at hm
  obtain ⟨-, rfl⟩ := Prod.mk.inj (List.mem_singleton.mp hm)
  intro d hd
  obtain rfl := Option.some.inj hd
  decide

/-- The rewrite that buffers the command. -/
theorem rewrites_persist (temp : Bytes) : Rewrites .always (spawnWriter [])
    [.write (encode persistFrame []) {}] { openTemp := .ok temp } temp
      ((serve expiringDb persistMeanwhile).2.map fun frame => encode frame []) where
  idle := rfl
  midRewrite := List.forall_mem_singleton.mpr trivial
  acknowledged := rfl
  openTemp := rfl
  appends := rfl
  finished := rfl

/-- Written after its deadline, the key is missing from the file, although the server still
has it. -/
theorem persisted_key_left_out :
    expiringDb.Served ∧
    (∀ k entry, expiringDb.view 1000 k = some entry → DeadlineFits entry) ∧
    (∀ e ∈ persistMeanwhile, Meanwhile 1200 e) ∧
    writeSnapshotEntries (fun _ => 1200) (expiringDb.aofSnapshotEntries 1000) = .ok [] ∧
    Rewrites .always (spawnWriter []) [.write (encode persistFrame []) {}]
      { openTemp := .ok [] } []
      ((serve expiringDb persistMeanwhile).2.map fun frame => encode frame []) ∧
    (serve expiringDb persistMeanwhile).1.view 1200 [107] = some ⟨.string [118], none⟩ ∧
    ¬ Resumes oneShard 1000 1200 expiringDb persistMeanwhile []
      (switchedFile .always (spawnWriter []) [.write (encode persistFrame []) {}]
        { openTemp := .ok [] }) := by
  refine ⟨served_expiringDb, fits_expiringDb, meanwhile_persist, rfl, rewrites_persist [], rfl,
    ?_⟩
  rintro ⟨snapshot, db₁, db₂, hempty, -, h₁, h₂, hsame⟩
  cases snapshot with
  | cons frame frames =>
      have hpos := wire_length_pos frame
      rw [encodeAll_eq, List.flatMap_cons] at hempty
      rw [(List.eq_nil_of_append_eq_nil hempty.symm).1] at hpos
      cases hpos
  | nil =>
      obtain rfl := Option.some.inj h₁
      have ha : applyJournal (journal expiringDb persistMeanwhile) (Db.new : Db oneShard) =
          some _ := Option.bind_eq_some_iff.mpr
          ⟨_, applyFrame_eq_some.mpr ⟨_, fromFrame_persistFrame 1050, rfl, rfl⟩, rfl⟩
      obtain rfl := Option.some.inj (ha.symm.trans h₂)
      exact hsame [107]

/-- Written in time, it is not. -/
theorem rewrite_resumes_persist :
    ∃ temp, writeSnapshotEntries (fun _ => 1050) (expiringDb.aofSnapshotEntries 1000) = .ok temp ∧
      Resumes oneShard 1000 1200 expiringDb persistMeanwhile temp
        (switchedFile .always (spawnWriter []) [.write (encode persistFrame []) {}]
          { openTemp := .ok temp }) := by
  have hclock : ∀ k : Bytes, (fun _ => 1050 : Bytes → ExpireAt) k ≤ 1200 := fun _ =>
    (by decide : 1050 ≤ 1200)
  refine ⟨_, rfl, rewrite_resumes oneShard served_expiringDb fits_expiringDb hclock rfl
    meanwhile_persist (by decide) (by decide) (rewrites_persist _)
    ⟨fun _ => Or.inr fun k _ hout => ?_, trivial⟩⟩
  obtain ⟨entry, hv, he⟩ := hout
  have hm := (mem_aofSnapshotEntries served_expiringDb.reachable.valid).mpr hv
  rw [entries_expiringDb] at hm
  obtain ⟨-, rfl⟩ := Prod.mk.inj (List.mem_singleton.mp hm)
  have halive : entryExpired 1050 ⟨.string [118], some 1100⟩ = false := by decide
  exact absurd (halive.symm.trans he) Bool.false_ne_true

end Server
end MiniRedis
