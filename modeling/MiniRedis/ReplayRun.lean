import MiniRedis.AofReplay
import MiniRedis.FrameStream
import MiniRedis.ParserTurns

/-!
# Runs of the replay

To `replay` a file is a sequence of words, each of which is read as a frame whatever
follows it. How the file is cut into pieces shows only where a part of a word is
rejected or too long to wait for. Everything else about a run is determined by the
bytes: the words, the commands in them, and where the replay stops.
-/
namespace MiniRedis.Aof
open Wire MiniRedis.Parser ParserRoundTrip PrefixCode

variable {host : Host}

/-- The database after the command in a frame, if it is read and answers without an error. -/
def applyFrame (now : ExpireAt) (db : Db host) (frame : Frame) : Option (Db host) :=
  match Command.fromFrame now frame with
  | .ok cmd => if (cmd.apply now db).1.isError then none else some (cmd.apply now db).2
  | .error _ => none

def applyFrames (now : ExpireAt) : List Frame → Db host → Option (Db host)
  | [], db => some db
  | frame :: frames, db => (applyFrame now db frame).bind (applyFrames now frames)

theorem applyFrames_append (now : ExpireAt) (as bs : List Frame) (db : Db host) :
    applyFrames now (as ++ bs) db = (applyFrames now as db).bind (applyFrames now bs) := by
  induction as generalizing db with
  | nil => rfl
  | cons a as ih =>
      simp only [List.cons_append, applyFrames]
      cases applyFrame now db a with
      | none => rfl
      | some db' => exact ih db'

variable {now : ExpireAt}

theorem applyFrame_eq_some {db db' : Db host} {frame : Frame} :
    applyFrame now db frame = some db' ↔ ∃ cmd, Command.fromFrame now frame = .ok cmd ∧
      (cmd.apply now db).1.isError = false ∧ (cmd.apply now db).2 = db' := by
  unfold applyFrame
  cases Command.fromFrame now frame with
  | error e => simp
  | ok cmd => cases he : (cmd.apply now db).1.isError <;> simp [he]

/-! ## Words -/

/-- One word after the other, and the frames they are read as. -/
inductive Words : Bytes → List Frame → Prop
  | nil : Words [] []
  | cons {w ws : Bytes} {frame : Frame} {frames : List Frame} :
      Word w frame → Words ws frames → Words (w ++ ws) (frame :: frames)

theorem Words.append {ws ws' : Bytes} {fs fs' : List Frame} (h : Words ws fs)
    (h' : Words ws' fs') : Words (ws ++ ws') (fs ++ fs') := by
  induction h with
  | nil => exact h'
  | cons hw _ ih =>
      rw [List.append_assoc]
      exact .cons hw ih

/-- Of two ways to take words off the same bytes one goes on where the other stops. -/
theorem Words.compare {ws ws' x x' : Bytes} {fs fs' : List Frame} (h : Words ws fs)
    (h' : Words ws' fs') (heq : ws ++ x = ws' ++ x') :
    (∃ vs gs, ws' = ws ++ vs ∧ fs' = fs ++ gs ∧ Words vs gs ∧ x = vs ++ x') ∨
      ∃ vs gs, ws = ws' ++ vs ∧ fs = fs' ++ gs ∧ Words vs gs ∧ x' = vs ++ x := by
  induction h generalizing ws' fs' with
  | nil => exact Or.inl ⟨ws', fs', rfl, rfl, h', heq⟩
  | @cons w ws frame frames hw hws ih =>
      cases h' with
      | nil => exact Or.inr ⟨w ++ ws, frame :: frames, rfl, rfl, .cons hw hws, heq.symm⟩
      | @cons w' ws' frame' frames' hw' hws' =>
          have hp := hw (ws ++ x)
          have hp' := hw' (ws' ++ x')
          rw [← List.append_assoc, heq, List.append_assoc, hp'] at hp
          simp only [Except.ok.injEq, Prod.mk.injEq, Option.some.injEq] at hp
          obtain ⟨rfl, hrest⟩ := hp
          rw [List.append_assoc, List.append_assoc, hrest] at heq
          obtain rfl := List.append_cancel_right heq
          rcases ih hws' hrest.symm with ⟨vs, gs, rfl, rfl, hvs, hx⟩ | ⟨vs, gs, rfl, rfl, hvs, hx⟩
          · exact Or.inl ⟨vs, gs, (List.append_assoc ..).symm, rfl, hvs, hx⟩
          · exact Or.inr ⟨vs, gs, (List.append_assoc ..).symm, rfl, hvs, hx⟩

/-- No more words come after the ones that the parser waits after. -/
theorem Words.split {ws ws' x tail rest : Bytes} {fs fs' : List Frame} (h : Words ws fs)
    (h' : Words ws' fs') (heq : ws ++ x = ws' ++ tail) (ht : parse tail = .ok (none, rest)) :
    ∃ vs gs, ws' = ws ++ vs ∧ fs' = fs ++ gs ∧ Words vs gs ∧ x = vs ++ tail := by
  rcases h.compare h' heq with hsplit | ⟨vs, gs, rfl, rfl, hvs, rfl⟩
  · exact hsplit
  · cases hvs with
    | nil => exact ⟨[], [], by simp, by simp, .nil, rfl⟩
    | @cons w vs frame gs hw _ =>
        rw [List.append_assoc, hw] at ht
        cases ht

/-- The bytes are words, and after them bytes that the parser waits with, not too many. -/
def Awaits (p : Bytes) : Prop :=
  ∃ ws fs tail rest, p = ws ++ tail ∧ Words ws fs ∧ parse tail = .ok (none, rest) ∧
    rest.length ≤ maxAofBufferedFrameBytes

theorem Awaits.words {ws p : Bytes} {fs : List Frame} (hw : Words ws fs) (h : Awaits p) :
    Awaits (ws ++ p) := by
  obtain ⟨vs, gs, tail, rest, rfl, hv, ht, hlen⟩ := h
  exact ⟨ws ++ vs, fs ++ gs, tail, rest, (List.append_assoc ..).symm, hw.append hv, ht, hlen⟩

/-- The bytes on which the replay stops: they are rejected or too long, or hold a bad command. -/
inductive Refused (now : ExpireAt) (db : Db host) (junk : Bytes) : Prop
  | error {e : MiniRedis.Parser.Error} : parse junk = .error e → Refused now db junk
  | long {rest : Bytes} : parse junk = .ok (none, rest) →
      maxAofBufferedFrameBytes < rest.length → Refused now db junk
  | command {frame : Frame} {rest : Bytes} : parse junk = .ok (some frame, rest) →
      applyFrame now db frame = none → Refused now db junk

/-- A command that is read and answers with an error was applied all the same. -/
def refusedDb (now : ExpireAt) (db : Db host) (junk : Bytes) : Db host :=
  match parse junk with
  | .ok (some frame, _) =>
      match Command.fromFrame now frame with
      | .ok cmd => (cmd.apply now db).2
      | .error _ => db
  | _ => db

theorem Refused.ne_nil {db : Db host} {junk : Bytes} (h : Refused now db junk) : junk ≠ [] := by
  rintro rfl
  cases h with
  | error hp => cases hp
  | long hp hlen =>
      obtain ⟨-, rfl⟩ := Prod.mk.inj (Except.ok.inj hp)
      cases hlen
  | command hp _ => cases hp

/-- What is refused comes after words the parser waits after only if one of them fails. -/
theorem Refused.applyFrames_eq_none {db db' : Db host} {ws b junk ws' tail rest : Bytes}
    {fs fs' : List Frame} (h : Refused now db' junk) (hw : Words ws fs) (hb : Blank b)
    (ha : applyFrames now fs db = some db') (hw' : Words ws' fs')
    (heq : ws ++ (b ++ junk) = ws' ++ tail) (ht : parse tail = .ok (none, rest))
    (hlen : rest.length ≤ maxAofBufferedFrameBytes) : applyFrames now fs' db = none := by
  obtain ⟨vs, gs, rfl, rfl, hv, hx⟩ := hw.split hw' heq ht
  have hp : parse junk = parse (vs ++ tail) := by rw [← hx, hb]
  rw [applyFrames_append, ha, Option.bind_some]
  cases hv with
  | nil =>
      rw [List.nil_append, ht] at hp
      cases h with
      | error he => cases hp.symm.trans he
      | long hl hlong =>
          obtain ⟨-, rfl⟩ := Prod.mk.inj (Except.ok.inj (hp.symm.trans hl))
          exact absurd hlen (Nat.not_le.mpr hlong)
      | command hc _ => cases hp.symm.trans hc
  | @cons w vs frame gs hword _ =>
      rw [List.append_assoc, hword] at hp
      cases h with
      | error he => cases hp.symm.trans he
      | long hl _ => cases hp.symm.trans hl
      | command hc hnone =>
          have hframe := congrArg Prod.fst (Except.ok.inj (hp.symm.trans hc))
          obtain rfl := Option.some.inj hframe
          rw [applyFrames, hnone, Option.bind_none]

/-- Where the replay stops is determined by the bytes. -/
theorem Refused.unique {db d d' : Db host} {ws b junk ws' b' junk' : Bytes} {fs fs' : List Frame}
    (h : Refused now d junk) (hw : Words ws fs) (hb : Blank b)
    (ha : applyFrames now fs db = some d) (hw' : Words ws' fs') (hb' : Blank b')
    (ha' : applyFrames now fs' db = some d') (h' : Refused now d' junk')
    (heq : ws ++ (b ++ junk) = ws' ++ (b' ++ junk')) :
    ws = ws' ∧ fs = fs' ∧ d = d' ∧ b ++ junk = b' ++ junk' := by
  -- a word after the one refusal would have been applied before the other
  have no_word : ∀ {d : Db host} {b junk vs x : Bytes} {g : Frame} {gs : List Frame},
      Refused now d junk → Blank b → Words vs (g :: gs) → b ++ junk = vs ++ x →
      applyFrame now d g = none := by
    intro d b junk vs x g gs h hb hv hx
    cases hv with
    | @cons w vs _ _ hword _ =>
        have hp : parse junk = parse (w ++ vs ++ x) := by rw [← hx, hb]
        rw [List.append_assoc, hword] at hp
        cases h with
        | error he => cases hp.symm.trans he
        | long hl _ => cases hp.symm.trans hl
        | command hc hnone =>
            obtain rfl := Option.some.inj (congrArg Prod.fst (Except.ok.inj (hp.symm.trans hc)))
            exact hnone
  rcases hw.compare hw' heq with ⟨vs, gs, rfl, rfl, hv, hx⟩ | ⟨vs, gs, rfl, rfl, hv, hx⟩
  · rw [applyFrames_append, ha, Option.bind_some] at ha'
    cases hv with
    | nil => exact ⟨by simp, by simp, Option.some.inj ha', hx⟩
    | cons hword hvs =>
        rw [applyFrames, no_word h hb (.cons hword hvs) hx] at ha'
        cases ha'
  · rw [applyFrames_append, ha', Option.bind_some] at ha
    cases hv with
    | nil => exact ⟨by simp, by simp, (Option.some.inj ha).symm, hx.symm⟩
    | cons hword hvs =>
        rw [applyFrames, no_word h' hb' (.cons hword hvs) hx] at ha
        cases ha

/-! ## The inner loop -/

/-- Between the last applied word and the buffer are only the blank lines `pre`. -/
structure Open (s : ReplayState host) (pre : Bytes) : Prop where
  position : s.validLen + pre.length + s.buf.length = s.totalRead
  blank : Blank pre
  truncateTo : s.truncateTo = none

/-- What the inner loop does: it applies words, and waits for more bytes or stops. -/
inductive Drained (now : ExpireAt) (s : ReplayState host) (pre : Bytes) (s' : ReplayState host) :
    Prop
  | waits (ws tail : Bytes) {fs : List Frame} :
      pre ++ s.buf = ws ++ tail → Words ws fs → applyFrames now fs s.db = some s'.db →
      parse tail = .ok (none, s'.buf) → s'.buf.length ≤ maxAofBufferedFrameBytes →
      s'.applied = s.applied + fs.length → s'.validLen = s.validLen + ws.length →
      s'.totalRead = s.totalRead → s'.truncateTo = none → Drained now s pre s'
  | stops (ws b junk : Bytes) {fs : List Frame} {db : Db host} :
      pre ++ s.buf = ws ++ (b ++ junk) → Words ws fs → Blank b →
      applyFrames now fs s.db = some db → Refused now db junk → s'.db = refusedDb now db junk →
      s'.applied = s.applied + fs.length →
      s'.truncateTo = some (s.validLen + ws.length + b.length) → Drained now s pre s'

/-- The turn of the inner loop over a word. -/
def afterWord (s : ReplayState host) (db : Db host) (rest : Bytes) : ReplayState host :=
  { s with buf := rest, db := db, applied := s.applied + 1,
           validLen := s.totalRead - rest.length }

theorem Open.afterWord {s : ReplayState host} {pre w rest : Bytes} (hs : Open s pre)
    (hbuf : s.buf = w ++ rest) (db : Db host) :
    Open (afterWord s db rest) [] ∧ (Aof.afterWord s db rest).validLen =
      s.validLen + (pre ++ w).length := by
  have hpos := hs.position
  have hlen := congrArg List.length hbuf
  rw [List.length_append] at hlen
  refine ⟨⟨?_, blank_nil, hs.truncateTo⟩, ?_⟩
  · simp only [Aof.afterWord, List.length_nil]
    omega
  · simp only [Aof.afterWord, List.length_append]
    omega

theorem Drained.prepend {s s' : ReplayState host} {pre w rest : Bytes} {frame : Frame}
    {db : Db host} (hs : Open s pre) (hbuf : s.buf = w ++ rest) (hw : Word w frame)
    (ha : applyFrame now s.db frame = some db) (h : Drained now (afterWord s db rest) [] s') :
    Drained now s pre s' := by
  have hword : Word (pre ++ w) frame := hs.blank.word hw
  have hvalid := (hs.afterWord hbuf db).2
  have happly : ∀ fs, applyFrames now (frame :: fs) s.db = applyFrames now fs db := fun fs => by
    rw [applyFrames, ha, Option.bind_some]
  cases h with
  | @waits ws tail fs heq hws ha' ht hlen hcount hval htotal htrunc =>
      refine .waits (pre ++ w ++ ws) tail ?_ (.cons hword hws) ((happly fs).trans ha') ht hlen ?_ ?_
        htotal htrunc
      · have heq' : rest = ws ++ tail := heq
        simp only [hbuf, heq', List.append_assoc]
      · rw [hcount, List.length_cons, afterWord, Nat.add_assoc, Nat.add_comm 1]
      · simp only [hval, hvalid, List.length_append, Nat.add_assoc]
  | @stops ws b junk fs db' heq hws hb ha' href hdb hcount htrunc =>
      refine .stops (pre ++ w ++ ws) b junk ?_ (.cons hword hws) hb
        ((happly fs).trans ha') href hdb ?_ ?_
      · have heq' : rest = ws ++ (b ++ junk) := heq
        simp only [hbuf, heq', List.append_assoc]
      · rw [hcount, List.length_cons, afterWord, Nat.add_assoc, Nat.add_comm 1]
      · simp only [htrunc, hvalid, List.length_append, Nat.add_assoc]

theorem drain_spec {fuel : ℕ} {s : ReplayState host} {pre : Bytes} (hs : Open s pre)
    (hfuel : s.buf.length < fuel) : Drained now s pre (drain now fuel s) := by
  induction fuel generalizing s pre with
  | zero => omega
  | succ fuel ih =>
      have hpre : ∀ x, parse (pre ++ x) = parse x := hs.blank
      have hpos := hs.position
      rw [drain]
      by_cases he : s.buf = []
      · rw [if_pos (List.isEmpty_iff.mpr he)]
        refine .waits [] (pre ++ s.buf) rfl .nil rfl ?_ ?_ rfl rfl rfl hs.truncateTo
        · rw [hpre, he]
          rfl
        · rw [he]
          exact Nat.zero_le _
      · rw [if_neg (by rwa [List.isEmpty_iff])]
        -- whatever stops here stops before the buffer or before the blank lines
        cases hp : parse s.buf with
        | error e =>
            refine .stops [] [] (pre ++ s.buf) rfl .nil blank_nil rfl
              (.error ((hpre _).trans hp)) ?_ rfl rfl
            rw [refusedDb, hpre, hp]
        | ok r =>
            obtain ⟨o, rest⟩ := r
            cases o with
            | none =>
                dsimp only
                split_ifs with hlen
                · refine .stops [] [] (pre ++ s.buf) rfl .nil blank_nil rfl
                    (.long ((hpre _).trans hp) hlen) ?_ rfl rfl
                  rw [refusedDb, hpre, hp]
                · exact .waits [] (pre ++ s.buf) rfl .nil rfl ((hpre _).trans hp)
                    (Nat.not_lt.mp hlen) rfl rfl rfl hs.truncateTo
            | some frame =>
                have hstart : s.totalRead - s.buf.length = s.validLen + 0 + pre.length := by omega
                dsimp only
                cases hc : Command.fromFrame now frame with
                | error e =>
                    have hnone : applyFrame now s.db frame = none := by rw [applyFrame, hc]
                    refine .stops [] pre s.buf rfl .nil hs.blank rfl
                      (.command hp hnone) ?_ rfl (congrArg some hstart)
                    simp only [refusedDb, hp, hc]
                | ok cmd =>
                    dsimp only
                    split_ifs with herr
                    · have hnone : applyFrame now s.db frame = none := by
                        rw [applyFrame, hc]
                        exact if_pos herr
                      refine .stops [] pre s.buf rfl .nil hs.blank rfl
                        (.command hp hnone) ?_ rfl (congrArg some hstart)
                      simp only [refusedDb, hp, hc]
                    · have ha : applyFrame now s.db frame = some (cmd.apply now s.db).2 :=
                        applyFrame_eq_some.mpr ⟨cmd, hc, by simpa using herr, rfl⟩
                      obtain ⟨w, hbuf, hw⟩ := parse_word hp
                      have hne := List.length_pos_iff.mpr hw.ne_nil
                      have hlen := congrArg List.length hbuf
                      rw [List.length_append] at hlen
                      have hopen := (hs.afterWord hbuf (cmd.apply now s.db).2).1
                      exact .prepend hs hbuf hw ha
                        (ih hopen (by simp only [afterWord]; omega))

/-! ## The outer loop -/

/-- What `replay` does with a file: it applies the words and cuts off what is left of it, or
it stops inside the part of the file that it has read after `i` more pieces. -/
inductive Ran (now : ExpireAt) (s : ReplayState host) (pre : Bytes) (pieces : List Bytes)
    (s' : ReplayState host) : Prop
  | whole (ws tail : Bytes) {rest : Bytes} {fs : List Frame} :
      pre ++ s.buf ++ pieces.flatten = ws ++ tail → Words ws fs →
      applyFrames now fs s.db = some s'.db → parse tail = .ok (none, rest) →
      s'.applied = s.applied + fs.length →
      s'.truncateTo = (if rest.isEmpty then none else some (s.validLen + ws.length)) →
      (∀ i, Awaits (pre ++ s.buf ++ (pieces.take i).flatten)) → Ran now s pre pieces s'
  | stopped (i : ℕ) (ws b junk : Bytes) {fs : List Frame} {db : Db host} :
      pre ++ s.buf ++ (pieces.take i).flatten = ws ++ (b ++ junk) → Words ws fs → Blank b →
      applyFrames now fs s.db = some db → Refused now db junk → s'.db = refusedDb now db junk →
      s'.applied = s.applied + fs.length →
      s'.truncateTo = some (s.validLen + ws.length + b.length) →
      (∀ j, j < i → Awaits (pre ++ s.buf ++ (pieces.take j).flatten)) → Ran now s pre pieces s'

/-- The buffer after one more piece has been read. -/
def afterPiece (s : ReplayState host) (piece : Bytes) : ReplayState host :=
  { s with buf := s.buf ++ piece, totalRead := s.totalRead + piece.length }

theorem Ran.prepend {s s₁ s' : ReplayState host} {pre pre₁ ws tail piece : Bytes}
    {fs : List Frame} {pieces : List Bytes} (heq : pre ++ s.buf = ws ++ tail) (hw : Words ws fs)
    (ha : applyFrames now fs s.db = some s₁.db) (htail : tail = pre₁ ++ s₁.buf)
    (hawaits : Awaits (pre ++ s.buf)) (hcount : s₁.applied = s.applied + fs.length)
    (hval : s₁.validLen = s.validLen + ws.length)
    (h : Ran now (afterPiece s₁ piece) pre₁ pieces s') : Ran now s pre (piece :: pieces) s' := by
  have hpoint : ∀ ps : Bytes,
      pre ++ s.buf ++ (piece ++ ps) = ws ++ (pre₁ ++ (afterPiece s₁ piece).buf ++ ps) :=
        fun ps => by
    rw [heq, htail]
    simp only [afterPiece, List.append_assoc]
  have happly : ∀ gs, applyFrames now (fs ++ gs) s.db = applyFrames now gs s₁.db := fun gs => by
    rw [applyFrames_append, ha, Option.bind_some]
  have happlied : ∀ n, (afterPiece s₁ piece).applied + n = s.applied + (fs.length + n) :=
    fun n => by
    rw [afterPiece, hcount, Nat.add_assoc]
  have hvalid : ∀ n, (afterPiece s₁ piece).validLen + n = s.validLen + (ws.length + n) :=
    fun n => by
    rw [afterPiece, hval, Nat.add_assoc]
  cases h with
  | @whole vs tail' rest gs hbytes hv ha' ht hcount' htrunc hpoints =>
      refine .whole (ws ++ vs) tail' ?_ (hw.append hv) ((happly gs).trans ha') ht ?_ ?_
        fun i => ?_
      · rw [List.flatten_cons, hpoint, hbytes, List.append_assoc]
      · rw [hcount', happlied, List.length_append]
      · rw [htrunc, hvalid, List.length_append]
      · cases i with
        | zero => simpa using hawaits
        | succ i =>
            rw [List.take_succ_cons, List.flatten_cons, hpoint]
            exact (hpoints i).words hw
  | @stopped i vs b junk gs db hbytes hv hb ha' href hdb hcount' htrunc hpoints =>
      refine .stopped (i + 1) (ws ++ vs) b junk ?_ (hw.append hv) hb
        ((happly gs).trans ha') href hdb ?_ ?_ fun j hj => ?_
      · rw [List.take_succ_cons, List.flatten_cons, hpoint, hbytes, List.append_assoc]
      · rw [hcount', happlied, List.length_append]
      · rw [htrunc, hvalid, List.length_append]
      · cases j with
        | zero => simpa using hawaits
        | succ j =>
            rw [List.take_succ_cons, List.flatten_cons, hpoint]
            exact (hpoints j (Nat.lt_of_succ_lt_succ hj)).words hw

/-- What is left in the buffer is left alone when the loop turns again. -/
theorem drain_again {s : ReplayState host} {tail : Bytes} (ht : parse tail = .ok (none, s.buf))
    (hlen : s.buf.length ≤ maxAofBufferedFrameBytes) (fuel : ℕ) : drain now (fuel + 1) s = s := by
  rw [drain, (parse_blank ht).2]
  by_cases he : s.buf.isEmpty
  · exact if_pos he
  · rw [if_neg he]
    exact if_neg (Nat.not_lt.mpr hlen)

theorem replayLoop_spec {pieces : List Bytes} {s : ReplayState host} {pre : Bytes}
    (hs : Open s pre) : Ran now s pre pieces (replayLoop now pieces s) := by
  induction pieces generalizing s pre with
  | nil =>
      have hd : Drained now s pre (drain now (s.buf.length + 1) s) :=
        drain_spec hs (Nat.lt_add_one _)
      cases hd with
      | @waits ws tail fs heq hw ha ht hlen hcount hval htotal htrunc =>
          have hfinal : replayLoop now [] s =
              if (drain now (s.buf.length + 1) s).buf.isEmpty then drain now (s.buf.length + 1) s
              else { drain now (s.buf.length + 1) s with
                truncateTo := some (drain now (s.buf.length + 1) s).validLen } := by
            simp only [replayLoop, htrunc, Option.isSome_none, Bool.false_eq_true, if_false,
              drain_again ht hlen]
          have hawaits : Awaits (pre ++ s.buf) := ⟨ws, fs, tail, _, heq, hw, ht, hlen⟩
          refine .whole ws tail (by simpa using heq) hw ?_ ht ?_ ?_
            fun i => by simpa using hawaits
          · rw [hfinal]
            split_ifs <;> exact ha
          · rw [hfinal]
            split_ifs <;> exact hcount
          · rw [hfinal]
            split_ifs
            · exact htrunc
            · rw [hval]
      | @stops ws b junk fs db heq hw hb ha href hdb hcount htrunc =>
          have hfinal : replayLoop now [] s = drain now (s.buf.length + 1) s := by
            simp only [replayLoop, htrunc, Option.isSome_some, if_true]
          rw [hfinal]
          exact .stopped 0 ws b junk (by simpa using heq) hw hb ha href hdb
            hcount htrunc fun j hj => absurd hj (Nat.not_lt_zero j)
  | cons piece pieces ih =>
      have hd : Drained now s pre (drain now (s.buf.length + 1) s) :=
        drain_spec hs (Nat.lt_add_one _)
      cases hd with
      | @waits ws tail fs heq hw ha ht hlen hcount hval htotal htrunc =>
          have hnext : replayLoop now (piece :: pieces) s =
              replayLoop now pieces (afterPiece (drain now (s.buf.length + 1) s) piece) := by
            simp only [replayLoop, htrunc, Option.isSome_none, Bool.false_eq_true, if_false,
              afterPiece]
          obtain ⟨⟨pre', htail, hblank⟩, -⟩ := parse_blank ht
          have hopen : Open (afterPiece (drain now (s.buf.length + 1) s) piece) pre' := by
            refine ⟨?_, hblank, htrunc⟩
            have hpos := hs.position
            have hl := congrArg List.length heq
            rw [htail] at hl
            simp only [List.length_append] at hl
            simp only [afterPiece, List.length_append, hval, htotal]
            omega
          rw [hnext]
          exact .prepend heq hw ha htail ⟨ws, fs, tail, _, heq, hw, ht, hlen⟩ hcount hval (ih hopen)
      | @stops ws b junk fs db heq hw hb ha href hdb hcount htrunc =>
          have hfinal : replayLoop now (piece :: pieces) s = drain now (s.buf.length + 1) s := by
            simp only [replayLoop, htrunc, Option.isSome_some, if_true]
          rw [hfinal]
          exact .stopped 0 ws b junk (by simpa using heq) hw hb ha href hdb
            hcount htrunc fun j hj => absurd hj (Nat.not_lt_zero j)

/-! ## Whole files -/

/-- What `replay` makes of a file. -/
inductive Replays (now : ExpireAt) (db : Db host) (pieces : List Bytes) : Replayed host → Prop
  | whole (ws tail : Bytes) {rest : Bytes} {fs : List Frame} {db' : Db host} :
      pieces.flatten = ws ++ tail → Words ws fs → applyFrames now fs db = some db' →
      parse tail = .ok (none, rest) → (∀ i, Awaits (pieces.take i).flatten) →
      Replays now db pieces ⟨fs.length, db', if rest.isEmpty then pieces.flatten else ws⟩
  | stopped (i : ℕ) (ws b junk : Bytes) {fs : List Frame} {db' : Db host} :
      (pieces.take i).flatten = ws ++ (b ++ junk) → Words ws fs → Blank b →
      applyFrames now fs db = some db' → Refused now db' junk →
      (∀ j, j < i → Awaits (pieces.take j).flatten) →
      Replays now db pieces ⟨fs.length, refusedDb now db' junk, ws ++ b⟩

theorem flatten_take_drop (pieces : List Bytes) (i : ℕ) :
    (pieces.take i).flatten ++ (pieces.drop i).flatten = pieces.flatten := by
  rw [← List.flatten_append, List.take_append_drop]

theorem replay_replays (now : ExpireAt) (db : Db host) (pieces : List Bytes) :
    Replays now db pieces (replay now db pieces) := by
  have hopen : Open ({ db := db } : ReplayState host) [] := ⟨rfl, blank_nil, rfl⟩
  have hran : Ran now ({ db := db } : ReplayState host) [] pieces
    (replayLoop now pieces { db := db }) :=
    replayLoop_spec hopen
  cases hran with
  | @whole ws tail rest fs hbytes hw ha ht hcount htrunc hpoints =>
      have hfile : pieces.flatten = ws ++ tail := hbytes
      have hreplay : replay now db pieces =
          ⟨fs.length, (replayLoop now pieces { db := db }).db,
            if rest.isEmpty then pieces.flatten else ws⟩ := by
        simp only [replay, hcount, htrunc, Nat.zero_add]
        by_cases hr : rest.isEmpty = true
        · simp only [hr, if_true]
        · -- what is left is cut off, and there is something left
          obtain ⟨⟨v, rfl, -⟩, -⟩ := parse_blank ht
          have hpos := List.length_pos_iff.mpr fun h => hr (List.isEmpty_iff.mpr h)
          have hlt : ws.length < pieces.flatten.length := by
            rw [hfile, List.length_append, List.length_append]
            omega
          simp only [hr, Bool.false_eq_true, if_false, hlt, if_true]
          rw [hfile, List.take_left]
      rw [hreplay]
      exact .whole ws tail hfile hw ha ht fun i => hpoints i
  | @stopped i ws b junk fs db' hbytes hw hb ha href hdb hcount htrunc hpoints =>
      have hread : (pieces.take i).flatten = ws ++ (b ++ junk) := hbytes
      have hreplay : replay now db pieces = ⟨fs.length, refusedDb now db' junk, ws ++ b⟩ := by
        have hfile := flatten_take_drop pieces i
        rw [hread] at hfile
        have hpos := List.length_pos_iff.mpr href.ne_nil
        have hlen := congrArg List.length hfile
        simp only [List.length_append] at hlen
        have hlt : ws.length + b.length < pieces.flatten.length := by omega
        have htake : (ws ++ (b ++ junk) ++ (pieces.drop i).flatten).take (ws.length + b.length) =
            ws ++ b := by
          rw [← List.length_append, ← List.append_assoc ws, List.append_assoc (ws ++ b),
            List.take_left]
        simp only [replay, hcount, htrunc, hdb, Nat.zero_add, hlt, if_true]
        rw [← hfile, htake]
      rw [hreplay]
      exact .stopped i ws b junk hread hw hb ha href fun j hj => hpoints j hj

/-- A file is replayed to its end, if the parser waits wherever it is cut into pieces. -/
theorem replay_awaits {pieces : List Bytes} {ws tail rest : Bytes} {fs : List Frame}
    {db db' : Db host} (hfile : pieces.flatten = ws ++ tail) (hw : Words ws fs)
    (ha : applyFrames now fs db = some db') (ht : parse tail = .ok (none, rest))
    (hpoints : ∀ i, Awaits (pieces.take i).flatten) :
    replay now db pieces = ⟨fs.length, db', if rest.isEmpty then pieces.flatten else ws⟩ := by
  have hr := replay_replays now db pieces
  generalize replay now db pieces = r at hr
  cases hr with
  | @whole ws' tail' rest' fs' db'' hfile' hw' ha' ht' _ =>
      obtain ⟨vs, gs, rfl, rfl, hv, rfl⟩ := hw.split hw' (hfile.symm.trans hfile') ht'
      cases hv with
      | nil =>
          obtain rfl := Option.some.inj (ha.symm.trans (by simpa using ha'))
          rw [List.nil_append, ht'] at ht
          obtain ⟨-, rfl⟩ := Prod.mk.inj (Except.ok.inj ht)
          simp only [List.append_nil]
      | cons hword _ =>
          rw [List.append_assoc, hword] at ht
          cases ht
  | @stopped i ws' b junk fs' db'' hread hw' hb ha' href _ =>
      obtain ⟨vs, gs, tail', rest', hp, hv, ht', hlen⟩ := hpoints i
      have hnone := href.applyFrames_eq_none hw' hb ha' hv (hread.symm.trans hp) ht' hlen
      have hwhole := flatten_take_drop pieces i
      rw [hp, hfile, List.append_assoc] at hwhole
      obtain ⟨us, hs, rfl, rfl, -⟩ := hv.split hw hwhole ht
      rw [applyFrames_append, hnone] at ha
      cases ha

/-! ## Readable frames -/

theorem word_wire {frame : Frame} (h : Readable frame) : Word (wire frame) frame :=
  parse_wire h.parseable h.length_le

theorem words_wire {frames : List Frame} (h : ∀ frame ∈ frames, Readable frame) :
    Words (frames.flatMap wire) frames := by
  induction frames with
  | nil => exact .nil
  | cons frame frames ih =>
      obtain ⟨hf, hfs⟩ := List.forall_mem_cons.mp h
      exact .cons (word_wire hf) (ih hfs)

theorem awaits_of_readable {frames : List Frame} {p q : Bytes}
    (h : ∀ frame ∈ frames, Readable frame) (hpq : p ++ q = frames.flatMap wire) : Awaits p := by
  obtain ⟨done, rest, tail, rfl, hp, -, ht, hlen, -⟩ := cut_frames h hpq
  exact ⟨_, done, tail, tail, hp, words_wire fun f hf => h f (List.mem_append_left _ hf), ht, hlen⟩

/-- A file of readable frames whose commands all succeed is replayed whole. -/
theorem replay_spec {frames : List Frame} {pieces : List Bytes} {db db' : Db host}
    (hfile : pieces.flatten = frames.flatMap wire) (hread : ∀ frame ∈ frames, Readable frame)
    (ha : applyFrames now frames db = some db') :
    replay now db pieces = ⟨frames.length, db', pieces.flatten⟩ := by
  have hend : pieces.flatten = frames.flatMap wire ++ [] := by rw [hfile, List.append_nil]
  exact replay_awaits hend (words_wire hread) ha rfl fun i =>
    awaits_of_readable hread ((flatten_take_drop pieces i).trans hfile)

/-- Blank lines do not start like a frame. -/
theorem eq_nil_of_blank {b junk : Bytes} {tag : UInt8} {c : Bytes} (hb : Blank b)
    (heq : b ++ junk = tag :: c) (htag : isRespType tag = true) : b = [] := by
  cases b with
  | nil => rfl
  | cons tag' b =>
      obtain ⟨rfl, -⟩ := List.cons.inj heq
      have hp := hb []
      rw [List.append_nil, parse_resp b htag] at hp
      cases hf : parseFrame (maxNestingDepth + 1) (tag' :: b) with
      | error e => cases e <;> simp [hf, parse, parseLoop] at hp
      | ok r =>
          simp only [hf, parse, parseLoop] at hp
          split_ifs at hp
          cases hp

/-- A file that is read at once is cut in front of what is refused. -/
theorem replay_refused {done : List Frame} {tag : UInt8} {c : Bytes} {db db' : Db host}
    (hread : ∀ f ∈ done, Readable f) (ha : applyFrames now done db = some db')
    (href : Refused now db' (tag :: c)) (htag : isRespType tag = true) :
    replay now db [done.flatMap wire ++ tag :: c] =
      ⟨done.length, refusedDb now db' (tag :: c), done.flatMap wire⟩ := by
  have hr := replay_replays now db [done.flatMap wire ++ tag :: c]
  have hw := words_wire hread
  generalize replay now db [done.flatMap wire ++ tag :: c] = r at hr
  cases hr with
  | @whole ws tail rest fs db'' hfile hw' ha' ht hpoints =>
      obtain ⟨vs, gs, tail', rest', hp, hv, ht', hlen⟩ := hpoints 1
      have hfile' : done.flatMap wire ++ ([] ++ tag :: c) = vs ++ tail' := by simpa using hp
      have hnone := href.applyFrames_eq_none hw blank_nil ha hv hfile' ht' hlen
      have hboth : vs ++ tail' = ws ++ tail := hp.symm.trans hfile
      obtain ⟨us, hs, rfl, rfl, -⟩ := hv.split hw' hboth ht
      rw [applyFrames_append, hnone] at ha'
      cases ha'
  | @stopped i ws b junk fs db'' hfile hw' hb ha' href' _ =>
      have hbytes : ws ++ (b ++ junk) = done.flatMap wire ++ ([] ++ tag :: c) := by
        cases i with
        | zero =>
            have hnil : ws = [] ∧ b = [] ∧ junk = [] := by simpa using hfile
            exact absurd hnil.2.2 href'.ne_nil
        | succ i => simpa using hfile.symm
      obtain ⟨rfl, rfl, rfl, hjunk⟩ := href'.unique hw' hb ha' hw blank_nil ha href hbytes
      obtain rfl := eq_nil_of_blank hb hjunk htag
      have hsame : junk = tag :: c := hjunk
      rw [hsame, List.append_nil]

/-- A file with a command in it that is refused is cut before that command. -/
theorem replay_refusedFrame {done rest : List Frame} {frame : Frame} {db db' : Db host}
    (hread : ∀ f ∈ done ++ frame :: rest, Readable f) (ha : applyFrames now done db = some db')
    (hnone : applyFrame now db' frame = none) :
    ∃ db'', replay now db [(done ++ frame :: rest).flatMap wire] =
        ⟨done.length, db'', done.flatMap wire⟩ ∧
      ∀ cmd, Command.fromFrame now frame = .ok cmd → db'' = (cmd.apply now db').2 := by
  have hf : Readable frame := hread frame (List.mem_append_right _ List.mem_cons_self)
  have hp := word_wire hf (rest.flatMap wire)
  obtain ⟨tag, w, hw, htag⟩ := wire_cons frame
  rw [hw, List.cons_append] at hp
  rw [List.flatMap_append, List.flatMap_cons, hw, List.cons_append,
    replay_refused (fun f hf => hread f (List.mem_append_left _ hf)) ha (.command hp hnone) htag]
  exact ⟨_, rfl, fun cmd hc => by simp only [refusedDb, hp, hc]⟩

/-- So is a file with a failing command in it, which has been applied all the same. -/
theorem replay_stops {done rest : List Frame} {frame : Frame} {cmd : Command} {db db' : Db host}
    (hread : ∀ f ∈ done ++ frame :: rest, Readable f) (ha : applyFrames now done db = some db')
    (hc : Command.fromFrame now frame = .ok cmd) (he : (cmd.apply now db').1.isError = true) :
    replay now db [(done ++ frame :: rest).flatMap wire] =
      ⟨done.length, (cmd.apply now db').2, done.flatMap wire⟩ := by
  have hnone : applyFrame now db' frame = none := by
    rw [applyFrame, hc]
    exact if_pos he
  obtain ⟨db'', hr, hdb⟩ := replay_refusedFrame hread ha hnone
  rw [hr, hdb cmd hc]

/-- A file with bytes in it that the parser rejects is cut before them. -/
theorem replay_rejects {done : List Frame} {tag : UInt8} {c : Bytes} {e : MiniRedis.Parser.Error}
    {db db' : Db host} (hread : ∀ f ∈ done, Readable f)
    (ha : applyFrames now done db = some db') (htag : isRespType tag = true)
    (hp : parse (tag :: c) = .error e) :
    replay now db [done.flatMap wire ++ tag :: c] = ⟨done.length, db', done.flatMap wire⟩ := by
  rw [replay_refused hread ha (.error hp) htag, refusedDb, hp]

end MiniRedis.Aof
