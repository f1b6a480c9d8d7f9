import MiniRedis.Runs
import MiniRedis.TaskInvariant

/-!
# Linearizability of the commands

A write becomes visible one critical section after the other, and may be undone, while
commands that only read do not wait for the gate. As long as none of them is at work on a
key at the same time as a write, the calls are linearizable: a write takes its place when
its outcome is settled, a read at its last critical section. Otherwise they are not.
-/
namespace MiniRedis.Clients
open AtomicPrograms Linearization Db

variable {host : Host} {Call : Type}

namespace World

/-- `order` are the settled calls with their replies, and `A` is what they lead to. -/
structure Consistent (db₀ : Db host) (w : World host Call) (A : Db host)
    (order : List (Call × Frame)) : Prop where
  linearizes : Linearizes w.Alone w.history db₀ A order
  ordered : ∀ c r, (c, r) ∈ order ↔ ∃ t, w.tasks c = some t ∧ t.stage.result = some (.ok r)
  marked : ∀ c result, .responded c result ∈ w.history →
    ∃ t, w.tasks c = some t ∧ t.stage = .answered result
  gate : ∀ c, w.gate = some c ↔ ∃ t, w.tasks c = some t ∧ t.stage.holdsGate = true
  sound : ∀ c t, w.tasks c = some t → t.Sound w.aof A w.db
  free : w.gate = none → ∀ l, SameAt l A w.db
  apart : ∀ c d t f, w.tasks c = some t → w.tasks d = some f → t.dirty = true →
    f.midRead = true → t.meets f = false

variable [DecidableEq Call]

theorem set_apply (w : World host Call) (c : Call) (t : Task host) (d : Call) :
    (w.set c t).tasks d = if d = c then some t else w.tasks d := Function.update_apply ..

/-- What has to be shown where one task moves. -/
theorem Consistent.set {db₀ A A' : Db host} {w w' : World host Call}
    {order order' : List (Call × Frame)} (h : Consistent db₀ w A order) {c : Call} {t' : Task host}
    (haof : w'.aof = w.aof) (htasks : ∀ d, w'.tasks d = if d = c then some t' else w.tasks d)
    (hlin : Linearizes w'.Alone w'.history db₀ A' order')
    (hord : ∀ d r, (d, r) ∈ order' ↔
      if d = c then t'.stage.result = some (.ok r) else (d, r) ∈ order)
    (hmark : ∀ d result, .responded d result ∈ w'.history →
      if d = c then t'.stage = .answered result else .responded d result ∈ w.history)
    (hgate : ∀ d, w'.gate = some d ↔ if d = c then t'.stage.holdsGate = true else w.gate = some d)
    (hown : t'.Sound w.aof A' w'.db)
    (hothers : ∀ d t, d ≠ c → w.tasks d = some t → t.Sound w.aof A' w'.db)
    (hfree : w'.gate = none → ∀ l, SameAt l A' w'.db)
    (hdirty : t'.dirty = true → ∀ d f, d ≠ c → w.tasks d = some f → f.midRead = true →
      t'.meets f = false)
    (hmid : t'.midRead = true → ∀ d f, d ≠ c → w.tasks d = some f → f.dirty = true →
      f.meets t' = false) : Consistent db₀ w' A' order' where
  linearizes := hlin
  ordered d r := by
    rw [hord, htasks]
    split_ifs
    · simp
    · exact h.ordered d r
  marked d result hm := by
    have hm' := hmark d result hm
    rw [htasks]
    split_ifs at hm' ⊢
    · exact ⟨t', rfl, hm'⟩
    · exact h.marked d result hm'
  gate d := by
    rw [hgate, htasks]
    split_ifs
    · simp
    · exact h.gate d
  sound d t ht := by
    rw [haof]
    rw [htasks] at ht
    split_ifs at ht with hd
    · cases ht
      exact hown
    · exact hothers d t hd ht
  free := hfree
  apart d e t f ht hf hdir hread := by
    rw [htasks] at ht hf
    split_ifs at ht hf with hd he he
    · cases ht
      cases hf
      exact (t'.not_midRead_of_dirty hdir hread).elim
    · cases ht
      exact hdirty hdir e f he hf hread
    · cases hf
      exact hmid hread d t hd ht hdir
    · exact h.apart d e t f ht hf hdir hread

/-- What a call alone does is settled when it is in the order. -/
theorem Consistent.alone_mono {db₀ A : Db host} {w w' : World host Call}
    {order : List (Call × Frame)} (h : Consistent db₀ w A order) {c : Call} {t t' : Task host}
    (ht : w.tasks c = some t) (htasks : ∀ d, w'.tasks d = if d = c then some t' else w.tasks d)
    (hreq : t'.request = t.request)
    (hread : t'.readings = t.readings ∨ t.stage.result = none) :
    Linearizes w'.Alone w.history db₀ A order := by
  refine h.linearizes.mono ?_
  rintro ⟨d, r⟩ hd s s' ⟨u, hu, hafter⟩
  by_cases hdc : d = c
  · subst hdc
    obtain ⟨v, hv, hresult⟩ := (h.ordered d r).mp hd
    cases ht.symm.trans hu
    cases ht.symm.trans hv
    refine ⟨t', by rw [htasks, if_pos rfl], ?_⟩
    rcases hread with hread | hread
    · rw [hreq, hread]
      exact hafter
    · rw [hread] at hresult
      cases hresult
  · exact ⟨u, by rw [htasks, if_neg hdc, hu], hafter⟩

/-- A task moves, and the order of the settled calls stays. -/
theorem Consistent.move {db₀ A : Db host} {w w' : World host Call} {order : List (Call × Frame)}
    (h : Consistent db₀ w A order) {c : Call} {t t' : Task host} (ht : w.tasks c = some t)
    (haof : w'.aof = w.aof) (htasks : ∀ d, w'.tasks d = if d = c then some t' else w.tasks d)
    (hhistory : w'.history = w.history) (hreq : t'.request = t.request)
    (hread : t'.readings = t.readings ∨ t.stage.result = none)
    (hresult : ∀ r, t'.stage.result = some (.ok r) ↔ t.stage.result = some (.ok r))
    (hopen : ∀ result, t.stage ≠ .answered result)
    (hgate : ∀ d, w'.gate = some d ↔ if d = c then t'.stage.holdsGate = true else w.gate = some d)
    (hown : t'.Sound w.aof A w'.db)
    (hothers : ∀ d t, d ≠ c → w.tasks d = some t → t.Sound w.aof A w'.db)
    (hfree : w'.gate = none → ∀ l, SameAt l A w'.db)
    (hdirty : t'.dirty = true → ∀ d f, d ≠ c → w.tasks d = some f → f.midRead = true →
      t'.meets f = false)
    (hmid : t'.midRead = true → ∀ d f, d ≠ c → w.tasks d = some f → f.dirty = true →
      f.meets t' = false) : Consistent db₀ w' A order := by
  refine h.set haof htasks ?_ (fun d r => ?_) (fun d result hm => ?_) hgate hown hothers hfree
    hdirty hmid
  · rw [hhistory]
    exact h.alone_mono ht htasks hreq hread
  · split_ifs with hd
    · rw [hd, h.ordered, ht, hresult]
      simp
    · rfl
  · rw [hhistory] at hm
    split_ifs with hd
    · obtain ⟨u, hu, hs⟩ := h.marked d result hm
      rw [hd, ht] at hu
      cases hu
      exact (hopen result hs).elim
    · exact hm

/-- A call takes its place behind all the others that are settled. -/
theorem Consistent.commit {db₀ A A' : Db host} {w w' : World host Call}
    {order : List (Call × Frame)} (h : Consistent db₀ w A order) {c : Call} {t t' : Task host}
    {r : Frame} (ht : w.tasks c = some t) (haof : w'.aof = w.aof)
    (htasks : ∀ d, w'.tasks d = if d = c then some t' else w.tasks d)
    (hhistory : w'.history = w.history) (hopen : t.stage.result = none)
    (hresult : t'.stage.result = some (.ok r))
    (hafter : t'.request.sections.after t'.readings A = some (.done r, A'))
    (hreq : t'.request = t.request)
    (hgate : ∀ d, w'.gate = some d ↔ if d = c then t'.stage.holdsGate = true else w.gate = some d)
    (hown : t'.Sound w.aof A' w'.db)
    (hothers : ∀ d t, d ≠ c → w.tasks d = some t → t.Sound w.aof A' w'.db)
    (hfree : w'.gate = none → ∀ l, SameAt l A' w'.db)
    (hdirty : t'.dirty = false) (hmid : t'.midRead = false) :
    Consistent db₀ w' A' (order ++ [(c, r)]) := by
  have hunmarked : ∀ result, .responded c result ∉ w.history := fun result hm => by
    obtain ⟨u, hu, hs⟩ := h.marked c result hm
    cases ht.symm.trans hu
    rw [hs] at hopen
    cases hopen
  have hnew : ∀ r, (c, r) ∉ order := fun r hm => by
    obtain ⟨u, hu, hs⟩ := (h.ordered c r).mp hm
    cases ht.symm.trans hu
    rw [hopen] at hs
    cases hs
  refine h.set haof htasks ?_ (fun d r' => ?_) (fun d result hm => ?_) hgate hown hothers hfree
    (fun hd => ?_) fun hm => ?_
  · rw [hhistory]
    refine (h.alone_mono ht htasks hreq (Or.inr hopen)).commit
      ⟨t', by rw [htasks, if_pos rfl], hafter⟩ (fun hm => ?_) hunmarked
    obtain ⟨e, he, rfl⟩ := List.mem_map.mp hm
    exact hnew e.2 he
  · rw [List.mem_append, List.mem_singleton, Prod.mk.injEq]
    split_ifs with hd
    · rw [hd, hresult]
      simp [hnew, eq_comm]
    · simp [hd]
  · rw [hhistory] at hm
    split_ifs with hd
    · exact (hunmarked result (hd ▸ hm)).elim
    · exact hm
  · rw [hdirty] at hd
    cases hd
  · rw [hmid] at hm
    cases hm

omit [DecidableEq Call] in
/-- Only one task holds the gate. -/
theorem Consistent.not_holdsGate {db₀ A : Db host} {w : World host Call}
    {order : List (Call × Frame)} (h : Consistent db₀ w A order) {c d : Call} {t f : Task host}
    (ht : w.tasks c = some t) (hg : t.stage.holdsGate = true) (hd : d ≠ c)
    (hf : w.tasks d = some f) : f.stage.holdsGate = false := by
  rw [← Bool.not_eq_true]
  intro hg'
  have hc := (h.gate c).mpr ⟨t, ht, hg⟩
  have hd' := (h.gate d).mpr ⟨f, hf, hg'⟩
  rw [hc] at hd'
  cases hd'
  exact hd rfl

theorem Consistent.gate_iff {db₀ A : Db host} {w : World host Call}
    {order : List (Call × Frame)} (h : Consistent db₀ w A order) {c : Call} {t t' : Task host}
    (ht : w.tasks c = some t) (hg : t'.stage.holdsGate = t.stage.holdsGate) (d : Call) :
    w.gate = some d ↔ if d = c then t'.stage.holdsGate = true else w.gate = some d := by
  split_ifs with hd
  · rw [hd, h.gate, ht, hg]
    simp
  · rfl

/-- The write of the gate holder, whatever its reply, becomes settled. -/
theorem Consistent.commit_write {db₀ A A' : Db host} {w : World host Call}
    {order : List (Call × Frame)} (h : Consistent db₀ w A order) {c : Call} {t : Task host}
    {r : Frame} (ht : w.tasks c = some t) (hw : t.request.isWrite = true)
    (hstage : t.stage = .applying (.done r) ∨ t.stage = .appending r)
    (hafter : t.request.sections.after t.readings A = some (.done r, A'))
    (hsame : ∀ l, SameAt l A' w.db) :
    Consistent db₀ (w.set c { t with stage := .releasing (.ok r) }) A' (order ++ [(c, r)]) := by
  have hg : t.stage.holdsGate = true := by
    rcases hstage with hs | hs <;> rw [hs] <;> rfl
  have hopen : t.stage.result = none := by
    rcases hstage with hs | hs <;> rw [hs] <;> rfl
  refine h.commit ht rfl (set_apply w c _) rfl hopen rfl hafter rfl (h.gate_iff ht hg.symm) hsame
    (fun d f hd hf => ?_) (fun _ => hsame) (Bool.and_false _) rfl
  have hn := h.not_holdsGate ht hg hd hf
  refine (h.sound d f hf).rebase hn fun hread l hl => ?_
  by_cases hr : t.readings = []
  · rw [hr] at hafter
    rw [(Prod.mk.inj (Option.some.inj hafter)).2]
    exact (sameAt_equivalence l).refl _
  · have hdirty : t.dirty = true := by
      unfold Task.dirty
      rcases hstage with hs | hs <;> simp [hs, hr]
    have hout := Task.not_mem_slots ((h.sound d f hf).onlyReads hread).1
      (h.apart c d t f ht hf hdirty hread) hl
    rw [← Request.footprint_write hw] at hout
    exact (t.request.within_sections.after sameAt_equivalence hafter).2 l hout

theorem set_self {w : World host Call} {c : Call} {t : Task host} (ht : w.tasks c = some t) :
    w.set c t = w := by
  unfold set
  rw [Function.update_eq_self_iff.mpr ht.symm]

theorem Consistent.settle {db₀ A : Db host} {w : World host Call} {order : List (Call × Frame)}
    (h : Consistent db₀ w A order) {c : Call} {t : Task host} (ht : w.tasks c = some t) :
    ∃ A' order', Consistent db₀ (w.set c (t.settle w.aof)) A' order' := by
  have hsound := h.sound c t ht
  unfold Task.Sound at hsound
  unfold Task.settle
  cases hs : t.stage with
  | waiting | saving left | appending reply | restoring error left | releasing result
  | answering result | answered result => exact ⟨A, order, by rwa [set_self ht]⟩
  | applying rest =>
      cases rest with
      | atomic act next => exact ⟨A, order, by rwa [set_self ht]⟩
      | done reply =>
          simp only [hs] at hsound ⊢
          obtain ⟨hw, hsaved, A₁, hafter, hsame⟩ := hsound
          split_ifs with hc
          · -- the writer is asked next
            have haof : w.aof = true := by
              simp only [Bool.and_eq_true] at hc
              exact hc.1.2
            refine ⟨A, order, h.move ht rfl (set_apply w c _) rfl rfl (Or.inl rfl)
              (fun r => by rw [hs]; rfl) (fun result => by rw [hs]; nofun)
              (h.gate_iff ht (by rw [hs]; rfl))
              ⟨hw, ⟨(hsaved haof).keys, (hsaved haof).entries⟩, A₁, hafter, hsame⟩
              (fun d f _ hf => h.sound d f hf) (fun hn => h.free hn)
              (fun hd d f _ hf hm => ?_) nofun⟩
            refine h.apart c d t f ht hf ?_ hm
            rw [← hd, Task.dirty, hs]
            rfl
          · exact ⟨A₁, _, h.commit_write ht hw (Or.inl hs) hafter hsame⟩
  | reading rest =>
      cases rest with
      | atomic act next => exact ⟨A, order, by rwa [set_self ht]⟩
      | done reply =>
          simp only [hs] at hsound ⊢
          exact ⟨A, _, h.commit ht rfl (set_apply w c _) rfl (by rw [hs]; rfl) rfl hsound.2.1 rfl
            (h.gate_iff ht (by rw [hs]; rfl)) trivial (fun d f _ hf => h.sound d f hf)
            (fun hn => h.free hn) (Bool.and_false _) rfl⟩

theorem set_set (w : World host Call) (c : Call) (t t' : Task host) :
    (w.set c t).set c t' = w.set c t' := by
  unfold set
  rw [Function.update_idem]

theorem set_self_apply (w : World host Call) (c : Call) (t : Task host) :
    (w.set c t).tasks c = some t := by rw [set_apply, if_pos rfl]

/-- The move to a stage that may be settled at once. -/
theorem Consistent.then_settle {db₀ A : Db host} {w : World host Call} {c : Call} {t : Task host}
    {order : List (Call × Frame)} (h : Consistent db₀ (w.set c t) A order) :
    ∃ A' order', Consistent db₀ (w.set c (t.settle w.aof)) A' order' := by
  have hs := h.settle (set_self_apply w c t)
  rwa [set_set] at hs

/-- A call begins. -/
theorem Consistent.request {db₀ A : Db host} {w : World host Call} {order : List (Call × Frame)}
    (h : Consistent db₀ w A order) (now : ExpireAt) {c : Call} (hc : w.tasks c = none)
    (req : Request) : ∃ A' order', Consistent db₀ (w.request now c req) A' order' := by
  have hnew : ∀ r, (c, r) ∉ order := fun r hm => by
    obtain ⟨u, hu, _⟩ := (h.ordered c r).mp hm
    rw [hc] at hu
    cases hu
  have hunmarked : ∀ result, .responded c result ∉ w.history := fun result hm => by
    obtain ⟨u, hu, _⟩ := h.marked c result hm
    rw [hc] at hu
    cases hu
  have hgate : w.gate ≠ some c := fun hg => by
    obtain ⟨u, hu, _⟩ := (h.gate c).mp hg
    rw [hc] at hu
    cases hu
  have hopen : (Task.new now req : Task host).stage.result = none := by
    unfold Task.new
    dsimp only
    split_ifs <;> rfl
  have hfree : (Task.new now req : Task host).stage.holdsGate = false := by
    unfold Task.new
    dsimp only
    split_ifs <;> rfl
  have hset : Consistent db₀
      ({ w with history := w.history ++ [Mark.invoked c] }.set c (Task.new now req)) A order := by
    refine h.set rfl (set_apply _ c _) ?_ (fun d r => ?_) (fun d result hm => ?_)
      (fun d => ?_) ?_ (fun d f _ hf => h.sound d f hf) (fun hn => h.free hn) (fun hd => ?_)
      fun hm => ?_
    · refine Linearizes.mono (h.linearizes.invoke fun hm => ?_) ?_
      · obtain ⟨e, he, rfl⟩ := List.mem_map.mp hm
        exact hnew e.2 he
      · rintro ⟨d, r⟩ hd s s' ⟨u, hu, hafter⟩
        have hdc : d ≠ c := fun heq => hnew r (heq ▸ hd)
        exact ⟨u, by rw [set_apply, if_neg hdc]; exact hu, hafter⟩
    · split_ifs with hd
      · rw [hopen, hd]
        exact iff_of_false (hnew r) nofun
      · rfl
    · have hm' : .responded d result ∈ w.history := by
        rcases List.mem_append.mp hm with hm | hm
        · exact hm
        · cases List.mem_singleton.mp hm
      split_ifs with hd
      · exact (hunmarked result (hd ▸ hm')).elim
      · exact hm'
    · split_ifs with hd
      · rw [hfree, hd]
        exact iff_of_false hgate Bool.false_ne_true
      · rfl
    · unfold Task.Sound Task.new
      dsimp only
      split_ifs with hw
      · exact ⟨hw, rfl, rfl⟩
      · exact ⟨Bool.not_eq_true _ ▸ hw, rfl, Or.inl rfl⟩
    · cases hd
    · unfold Task.midRead Task.new at hm
      dsimp only at hm
      split at hm <;> cases hm
  exact hset.then_settle

/-- The move of a gate holder that leaves the database alone. -/
theorem Consistent.move_holder {db₀ A : Db host} {w : World host Call}
    {order : List (Call × Frame)} (h : Consistent db₀ w A order) {c : Call} {t t' : Task host}
    (ht : w.tasks c = some t) (hg : t.stage.holdsGate = true) (hreq : t'.request = t.request)
    (hread : t'.readings = t.readings) (hg' : t'.stage.holdsGate = true)
    (hresult : ∀ r, t'.stage.result = some (.ok r) ↔ t.stage.result = some (.ok r))
    (hown : t'.Sound w.aof A w.db) (hdirty : t'.dirty = true → t.dirty = true) :
    Consistent db₀ (w.set c t') A order := by
  refine h.move ht rfl (set_apply w c _) rfl hreq (Or.inl hread) hresult (fun result hs => ?_)
    (h.gate_iff ht (hg'.trans hg.symm)) hown (fun d f _ hf => h.sound d f hf)
    (fun hn => h.free hn) (fun hd d f _ hf hm => ?_) fun hm => ?_
  · rw [hs] at hg
    cases hg
  · have hapart := h.apart c d t f ht hf (hdirty hd) hm
    rwa [Task.meets, hreq]
  · unfold Task.midRead at hm
    cases hs : t'.stage with
    | reading rest =>
        rw [hs] at hg'
        cases hg'
    | waiting | saving left | applying rest | appending reply | restoring error left
    | releasing result | answering result | answered result =>
        rw [hs] at hm
        cases hm

/-- In front of its first critical section, a write has changed nothing. -/
theorem Sound_applying {A D : Db host} {t : Task host} {aof : Bool}
    (hw : t.request.isWrite = true) (hr : t.readings = []) (hsaved : aof = true → t.Saved A [])
    (hsame : ∀ l, SameAt l A D) :
    ({ t with stage := .applying t.request.sections } : Task host).Sound aof A D :=
  ⟨hw, fun ha => ⟨(hsaved ha).keys, (hsaved ha).entries⟩, A, by rw [hr]; rfl, hsame⟩

/-- The gate is free and a write takes it. -/
theorem Consistent.acquire {db₀ A : Db host} {w : World host Call} {order : List (Call × Frame)}
    (h : Consistent db₀ w A order) {c : Call} {t : Task host} (ht : w.tasks c = some t)
    (hs : t.stage = .waiting) (hg : w.gate = none) :
    ∃ A' order', Consistent db₀ ({ w with gate := some c }.set c
      (if w.aof then { t with stage := .saving (sortDedup t.request.mutatedKeys) }
        else t.apply w.aof)) A' order' := by
  have hsound := h.sound c t ht
  unfold Task.Sound at hsound
  rw [hs] at hsound
  have hmove : ∀ t' : Task host, t'.request = t.request → t'.readings = [] →
      t'.stage.holdsGate = true → t'.stage.result = none → t'.Sound w.aof A w.db →
      Consistent db₀ ({ w with gate := some c }.set c t') A order := by
    intro t' hreq hread hholds hresult hown
    have hclean : t'.dirty = false := by rw [Task.dirty, hread]; rfl
    refine h.move ht rfl (set_apply _ c _) rfl hreq (Or.inl (hread.trans hsound.2.2.symm))
      (fun r => by rw [hresult, hs]; rfl) (fun result => by rw [hs]; nofun) (fun d => ?_) hown
      (fun d f _ hf => h.sound d f hf) nofun (fun hd => ?_) fun hm => ?_
    · split_ifs with hd
      · rw [hd]
        exact iff_of_true rfl hholds
      · rw [hg]
        exact iff_of_false (fun heq => hd (Option.some.inj heq).symm) nofun
    · rw [hclean] at hd
      cases hd
    · rw [Task.midRead, hread] at hm
      split at hm <;> cases hm
  by_cases ha : w.aof = true
  · rw [if_pos ha]
    refine ⟨A, order, hmove _ rfl hsound.2.2 rfl rfl ⟨hsound.1, hsound.2.2, ⟨?_, ?_⟩, h.free hg⟩⟩
    · dsimp only
      rw [hsound.2.1]
      rfl
    · dsimp only
      rw [hsound.2.1]
      nofun
  · rw [if_neg ha]
    exact (hmove { t with stage := .applying t.request.sections } rfl hsound.2.2 rfl rfl
      (Sound_applying hsound.1 hsound.2.2 (fun ht => (ha ht).elim) (h.free hg))).then_settle

/-- `snapshot_entries` locks the shard of the next key. -/
theorem Consistent.save {db₀ A : Db host} {w : World host Call} {order : List (Call × Frame)}
    (h : Consistent db₀ w A order) {c : Call} {t : Task host} (ht : w.tasks c = some t)
    {key : Bytes} {keys : List Bytes} (hs : t.stage = .saving (key :: keys)) :
    Consistent db₀ (w.set c { t with
      rollback := t.rollback ++ [(key, w.db.entry key)], stage := .saving keys }) A order := by
  have hsound := h.sound c t ht
  unfold Task.Sound at hsound
  rw [hs] at hsound
  obtain ⟨hw, hr, hsaved, hsame⟩ := hsound
  refine h.move_holder ht (by rw [hs]; rfl) rfl rfl rfl (fun r => by rw [hs]; rfl)
    ⟨hw, hr, ⟨?_, fun s hm => ?_⟩, hsame⟩ (fun hd => ?_)
  · rw [← hsaved.keys]
    simp
  · rcases List.mem_append.mp hm with hm | hm
    · exact hsaved.entries s hm
    · rw [List.mem_singleton.mp hm]
      exact (hsame (keySlot host key)).symm
  · rw [Task.dirty, Bool.and_false] at hd
    cases hd

theorem Consistent.saved {db₀ A : Db host} {w : World host Call} {order : List (Call × Frame)}
    (h : Consistent db₀ w A order) {c : Call} {t : Task host} (ht : w.tasks c = some t)
    (hs : t.stage = .saving []) :
    ∃ A' order', Consistent db₀ (w.set c (t.apply w.aof)) A' order' := by
  have hsound := h.sound c t ht
  unfold Task.Sound at hsound
  rw [hs] at hsound
  obtain ⟨hw, hr, hsaved, hsame⟩ := hsound
  have hmove : Consistent db₀ (w.set c { t with stage := .applying t.request.sections }) A
      order := by
    refine h.move_holder ht (by rw [hs]; rfl) rfl rfl rfl (fun r => by rw [hs]; rfl)
      (Sound_applying hw hr (fun _ => hsaved) hsame) fun hd => ?_
    rw [Task.dirty, hr] at hd
    cases hd
  exact hmove.then_settle

/-- The writer has appended the frame of the write, or it has not. -/
theorem Consistent.acknowledge {db₀ A : Db host} {w : World host Call}
    {order : List (Call × Frame)} (h : Consistent db₀ w A order) {c : Call} {t : Task host}
    (ht : w.tasks c = some t) {reply : Frame} (hs : t.stage = .appending reply)
    (result : Except String Unit) :
    ∃ A' order', Consistent db₀ (w.set c (t.acknowledge reply result)) A' order' := by
  have hsound := h.sound c t ht
  have hout : ∀ l, l ∉ slots host t.request.mutatedKeys → SameAt l A w.db := fun l hl =>
    hsound.same_outside (by rw [hs]; rfl) hl
  have hclean : t.dirty = false → ∀ l, SameAt l A w.db := fun hd =>
    hsound.same_of_clean (by rw [hs]; rfl) hd
  unfold Task.Sound at hsound
  rw [hs] at hsound
  obtain ⟨hw, hsaved, A₁, hafter, hsame⟩ := hsound
  cases result with
  | ok _ => exact ⟨A₁, _, h.commit_write ht hw (Or.inr hs) hafter hsame⟩
  | error e =>
      have hkeys : t.rollback.map Prod.fst = sortDedup t.request.mutatedKeys := by
        rw [← hsaved.keys, List.append_nil]
      refine ⟨A, order, h.move_holder ht (by rw [hs]; rfl) rfl rfl rfl (fun r => by rw [hs]; rfl)
        ⟨fun hr => hclean ?_, fun l hl => hout l fun hm => hl ?_, fun s hm => ⟨?_, ?_⟩⟩
        fun hd => ?_⟩
      · have hr' : t.readings = [] := hr
        rw [Task.dirty, hr']
        rfl
      · rcases hm with ⟨key, hk, rfl⟩
        rw [hkeys]
        exact mem_slots (mem_sortDedup.mpr hk)
      · have hm' : s.1 ∈ t.rollback.map Prod.fst := List.mem_map_of_mem hm
        rw [hkeys] at hm'
        exact mem_sortDedup.mp hm'
      · exact hsaved.entries s hm
      · simp only [Task.dirty, hs, Bool.and_true]
        simp only [Task.dirty, Task.acknowledge, Bool.and_eq_true] at hd
        exact hd.1

/-- `restore_entries` puts one entry back. -/
theorem Consistent.restore {db₀ A : Db host} {w : World host Call} {order : List (Call × Frame)}
    (h : Consistent db₀ w A order) {c : Call} {t : Task host} (ht : w.tasks c = some t)
    {error : Frame} {s : Bytes × Option Entry} {left : List (Bytes × Option Entry)}
    (hs : t.stage = .restoring error (s :: left)) :
    Consistent db₀ ({ w with db := w.db.restoreEntry s.1 s.2 }.set c
      { t with stage := .restoring error left }) A order := by
  have hsound := h.sound c t ht
  unfold Task.Sound at hsound
  rw [hs] at hsound
  obtain ⟨hclean, hout, hleft⟩ := hsound
  have hg : t.stage.holdsGate = true := by rw [hs]; rfl
  have hrestored := sameAt_restoreEntry w.db s.1 s.2
  have hback : ∀ l, (l ≠ keySlot host s.1 → SameAt l A w.db) →
      SameAt l A (w.db.restoreEntry s.1 s.2) := by
    intro l hl
    by_cases hk : l = keySlot host s.1
    · rw [hk]
      exact (hleft s List.mem_cons_self).2.symm.trans hrestored.2.symm
    · exact (sameAt_equivalence l).trans (hl hk) (hrestored.1 l hk)
  refine h.move ht rfl (set_apply _ c _) rfl rfl (Or.inl rfl) (fun r => by rw [hs]; rfl)
    (fun result => by rw [hs]; nofun) (h.gate_iff ht (by rw [hs]; rfl))
    ⟨fun hr l => hback l fun _ => hclean hr l, fun l hl => hback l fun hk => hout l fun hm => ?_,
      fun s hm => hleft s (List.mem_cons_of_mem _ hm)⟩
    (fun d f hd hf => (h.sound d f hf).of_not_holdsGate (h.not_holdsGate ht hg hd hf))
    (fun hn => ?_) (fun hd d f _ hf hm => ?_) nofun
  · rcases hm with ⟨key, hkey, rfl⟩
    rcases List.mem_cons.mp hkey with rfl | hkey
    · exact hk rfl
    · exact hl (mem_slots hkey)
  · have hc := (h.gate c).mpr ⟨t, ht, hg⟩
    exact nomatch hc.symm.trans hn
  · refine h.apart c d t f ht hf ?_ hm
    simp only [Task.dirty, Bool.and_eq_true] at hd
    simp only [Task.dirty, hs, hd.1, List.isEmpty_cons]
    rfl

/-- Everything is put back. -/
theorem Consistent.restored {db₀ A : Db host} {w : World host Call} {order : List (Call × Frame)}
    (h : Consistent db₀ w A order) {c : Call} {t : Task host} (ht : w.tasks c = some t)
    {error : Frame} (hs : t.stage = .restoring error []) :
    Consistent db₀ (w.set c { t with stage := .releasing (.error error) }) A order := by
  have hsound := h.sound c t ht
  unfold Task.Sound at hsound
  rw [hs] at hsound
  refine h.move_holder ht (by rw [hs]; rfl) rfl rfl rfl (fun r => ?_)
    (fun l => hsound.2.1 l ?_) (fun hd => ?_)
  · rw [hs]
    exact iff_of_false nofun nofun
  · rintro ⟨key, hk, _⟩
    cases hk
  · rw [Task.dirty, Bool.and_false] at hd
    cases hd

/-- The guard is dropped. -/
theorem Consistent.release {db₀ A : Db host} {w : World host Call} {order : List (Call × Frame)}
    (h : Consistent db₀ w A order) {c : Call} {t : Task host} (ht : w.tasks c = some t)
    {result : Except Frame Frame} (hs : t.stage = .releasing result) :
    Consistent db₀ ({ w with gate := none }.set c { t with stage := .answering result }) A
      order := by
  have hsound := h.sound c t ht
  unfold Task.Sound at hsound
  rw [hs] at hsound
  have hc := (h.gate c).mpr ⟨t, ht, by rw [hs]; rfl⟩
  refine h.move ht rfl (set_apply _ c _) rfl rfl (Or.inl rfl) (fun r => by rw [hs]; rfl)
    (fun result => by rw [hs]; nofun) (fun d => ?_) trivial (fun d f _ hf => h.sound d f hf)
    (fun _ => hsound) (fun hd => ?_) nofun
  · split_ifs with hd
    · exact iff_of_false nofun Bool.false_ne_true
    · rw [hc]
      exact iff_of_false nofun fun heq => hd (Option.some.inj heq).symm
  · rw [Task.dirty, Bool.and_false] at hd
    cases hd

/-- The reply is sent. -/
theorem Consistent.answer {db₀ A : Db host} {w : World host Call} {order : List (Call × Frame)}
    (h : Consistent db₀ w A order) {c : Call} {t : Task host} (ht : w.tasks c = some t)
    {result : Except Frame Frame} (hs : t.stage = .answering result) :
    Consistent db₀ ({ w with history := w.history ++ [Mark.responded c result] }.set c
      { t with stage := .answered result }) A order := by
  have hin : ∀ r, (c, r) ∈ order ↔ result = .ok r := fun r => by
    rw [h.ordered, ht]
    simp [hs, Stage.result]
  refine h.set rfl (set_apply _ c _) ?_ (fun d r => ?_) (fun d result' hm => ?_)
    (h.gate_iff ht (by rw [hs]; rfl)) trivial (fun d f _ hf => h.sound d f hf) (fun hn => h.free hn)
    (fun hd => ?_) nofun
  · have hlin : Linearizes ({ w with history := w.history ++ [Mark.responded c result] }.set c
        { t with stage := .answered result }).Alone w.history db₀ A order :=
      h.alone_mono ht (set_apply _ c _) rfl (Or.inl rfl)
    refine hlin.respond (fun r hr => (hin r).mpr hr) fun e he hm => ?_
    obtain ⟨p, hp, rfl⟩ := List.mem_map.mp hm
    exact nomatch he.symm.trans ((hin p.2).mp hp)
  · split_ifs with hd
    · rw [hd, hin]
      simp [Stage.result]
    · rfl
  · split_ifs with hd
    · rcases List.mem_append.mp hm with hm | hm
      · obtain ⟨u, hu, hstage⟩ := h.marked d result' hm
        rw [hd, ht] at hu
        cases hu
        cases hs.symm.trans hstage
      · cases List.mem_singleton.mp hm
        rfl
    · rcases List.mem_append.mp hm with hm | hm
      · exact hm
      · cases List.mem_singleton.mp hm
        exact (hd rfl).elim
  · rw [Task.dirty, Bool.and_false] at hd
    cases hd

/-! ## Critical sections -/

/-- A critical section of a write. -/
theorem Consistent.write_section {db₀ A : Db host} {w : World host Call}
    {order : List (Call × Frame)} (h : Consistent db₀ w A order) {c : Call} {t : Task host}
    (ht : w.tasks c = some t) {act : ExpireAt → Db host → Db host}
    {next : ExpireAt → Db host → Sections host} (hs : t.stage = .applying (.atomic act next))
    (now : ExpireAt) (hno : ¬ Overlaps (w, .step c now)) :
    ∃ A' order', Consistent db₀ ({ w with db := act now w.db }.set c
      ((t.ran now (.applying (next now w.db))).settle w.aof)) A' order' := by
  have hsound := h.sound c t ht
  unfold Task.Sound at hsound
  rw [hs] at hsound
  obtain ⟨hw, hsaved, A₁, hafter, hsame⟩ := hsound
  have hg : t.stage.holdsGate = true := by rw [hs]; rfl
  have hstep := t.request.within_sections.step sameAt_equivalence hafter hsame now
  have hmove : Consistent db₀ ({ w with db := act now w.db }.set c
      (t.ran now (.applying (next now w.db)))) A order := by
    refine h.move ht rfl (set_apply _ c _) rfl rfl (Or.inr (by rw [hs]; rfl))
      (fun r => by rw [hs]; rfl) (fun result => by rw [hs]; nofun) (h.gate_iff ht (by rw [hs]; rfl))
      ⟨hw, fun ha => ⟨(hsaved ha).keys, (hsaved ha).entries⟩, act now A₁, hstep⟩
      (fun d f hd hf => (h.sound d f hf).of_not_holdsGate (h.not_holdsGate ht hg hd hf))
      (fun hn => ?_) (fun _ d f _ hf hm => ?_) nofun
    · have hc := (h.gate c).mpr ⟨t, ht, hg⟩
      exact nomatch hc.symm.trans hn
    · by_cases hr : t.readings = []
      · -- the first section: no read of its keys is half done
        have hc := not_collides hno ht hf
        simp only [Task.collides, hs, hr, hm, List.isEmpty_nil, Bool.true_and] at hc
        exact hc
      · refine h.apart c d t f ht hf ?_ hm
        simp [Task.dirty, hs, hr]
  exact hmove.then_settle

omit [DecidableEq Call] in
/-- Where a read looks, the database is as the settled calls have left it. -/
theorem Consistent.same_at_read {db₀ A : Db host} {w : World host Call}
    {order : List (Call × Frame)} (h : Consistent db₀ w A order) {t : Task host}
    (hw : t.request.isWrite = false)
    (hmeets : ∀ d f, w.tasks d = some f → f.dirty = true → f.meets t = false) :
    ∀ l ∈ t.request.footprint host, SameAt l A w.db := by
  intro l hl
  cases hg : w.gate with
  | none => exact h.free hg l
  | some d =>
      obtain ⟨f, hf, hholds⟩ := (h.gate d).mp hg
      cases hd : f.dirty with
      | false => exact (h.sound d f hf).same_of_clean hholds hd l
      | true =>
          exact (h.sound d f hf).same_outside hholds
            (Task.not_mem_slots hw (hmeets d f hf hd) hl)

/-- A critical section of a command that only reads. -/
theorem Consistent.read_section {db₀ A : Db host} {w : World host Call}
    {order : List (Call × Frame)} (h : Consistent db₀ w A order) {c : Call} {t : Task host}
    (ht : w.tasks c = some t) {act : ExpireAt → Db host → Db host}
    {next : ExpireAt → Db host → Sections host} (hs : t.stage = .reading (.atomic act next))
    (hro : t.request.OnlyReads host) (now : ExpireAt) (hno : ¬ Overlaps (w, .step c now)) :
    ∃ A' order', Consistent db₀ ({ w with db := act now w.db }.set c
      ((t.ran now (.reading (next now w.db))).settle w.aof)) A' order' := by
  have hsound := h.sound c t ht
  unfold Task.Sound at hsound
  rw [hs] at hsound
  obtain ⟨hw, hafter, _⟩ := hsound
  have hmeets : ∀ d f, w.tasks d = some f → f.dirty = true → f.meets t = false := by
    intro d f hf hd
    have hc := not_collides hno ht hf
    simp only [Task.collides, hs, hd, Bool.true_and] at hc
    exact hc
  have hstep := hro.readOnly.step sameAt_equivalence t.request.within_sections hafter
    (h.same_at_read hw hmeets) now
  have hact : act now w.db = w.db := ((hro.readOnly.after hafter).1 now w.db).1
  rw [hact]
  have hmove : Consistent db₀ (w.set c (t.ran now (.reading (next now w.db)))) A order := by
    refine h.move ht rfl (set_apply w c _) rfl rfl (Or.inr (by rw [hs]; rfl))
      (fun r => by rw [hs]; rfl) (fun result => by rw [hs]; nofun) (h.gate_iff ht (by rw [hs]; rfl))
      ⟨hw, hstep, Or.inr hro⟩ (fun d f _ hf => h.sound d f hf) (fun hn => h.free hn)
      (fun hd => ?_) fun _ d f _ hf hd => ?_
    · rw [Task.dirty, Task.ran, Bool.and_false] at hd
      cases hd
    · exact hmeets d f hf hd
  exact hmove.then_settle

/-- A step on the pub/sub table takes its place at once. -/
theorem Consistent.pubsub_section {db₀ A : Db host} {w : World host Call}
    {order : List (Call × Frame)} (h : Consistent db₀ w A order) {c : Call} {t : Task host}
    (ht : w.tasks c = some t) (hg : t.stage.holdsGate = false) (hopen : t.stage.result = none)
    (hr : t.readings = []) {f : Db host → Frame × Db host}
    (hsections : t.request.sections = Cmd.once fun _ db => f db) (hf : Request.OnPubsub f)
    (now : ExpireAt) :
    Consistent db₀ ({ w with db := (f w.db).2 }.set c
      (t.ran now (.answering (.ok (f w.db).1)))) (f A).2 (order ++ [(c, (f w.db).1)]) := by
  have hp : A.pubsub = w.db.pubsub := by
    have hnot : ∀ keys, Location.pubsub ∉ slots host keys := by
      rintro keys ⟨key, _, heq⟩
      cases heq
    cases hgate : w.gate with
    | none => exact h.free hgate .pubsub
    | some d =>
        obtain ⟨u, hu, hholds⟩ := (h.gate d).mp hgate
        exact (h.sound d u hu).same_outside hholds (hnot _)
  have hcongr := hf.congr A w.db hp
  refine h.commit ht rfl (set_apply _ c _) rfl hopen rfl ?_ rfl (h.gate_iff ht hg.symm) trivial
    (fun d u _ hu => (h.sound d u hu).shift (hf.shards A) (hf.shards w.db) hcongr.1)
    (fun hn l => ?_) (Bool.and_false _) rfl
  · rw [Task.ran, hsections, hr, ← hcongr.2]
    rfl
  · cases l with
    | pubsub => exact hcongr.1
    | slot i key =>
        have hsame : (A.shards i).stored key = (w.db.shards i).stored key := h.free hn (.slot i key)
        change ((f A).2.shards i).stored key = ((f w.db).2.shards i).stored key
        rw [hf.shards, hf.shards, hsame]

/-! ## Runs -/

theorem advance_consistent {db₀ A : Db host} {w : World host Call} {order : List (Call × Frame)}
    (h : Consistent db₀ w A order) {c : Call} {t : Task host} (ht : w.tasks c = some t)
    (now : ExpireAt) (hno : ¬ Overlaps (w, .step c now)) :
    ∃ A' order', Consistent db₀ (w.advance now c t) A' order' := by
  unfold advance
  cases hs : t.stage with
  | waiting =>
      dsimp only
      cases hg : w.gate with
      | some d => exact ⟨A, order, h⟩
      | none => exact h.acquire ht hs hg
  | saving left =>
      cases left with
      | nil => exact h.saved ht hs
      | cons key keys => exact ⟨A, order, h.save ht hs⟩
  | applying rest =>
      cases rest with
      | done reply => exact ⟨A, order, h⟩
      | atomic act next => exact h.write_section ht hs now hno
  | appending reply => exact ⟨A, order, h⟩
  | restoring error left =>
      cases left with
      | nil => exact ⟨A, order, h.restored ht hs⟩
      | cons s left => exact ⟨A, order, h.restore ht hs⟩
  | releasing result => exact ⟨A, order, h.release ht hs⟩
  | reading rest =>
      cases rest with
      | done reply => exact ⟨A, order, h⟩
      | atomic act next =>
          by_cases hro : t.request.OnlyReads host
          · exact h.read_section ht hs hro now hno
          · have hsound := h.sound c t ht
            unfold Task.Sound at hsound
            rw [hs] at hsound
            obtain ⟨f, hsections, hf⟩ := (Request.unguarded_cases hsound.1).resolve_left hro
            have hr := hsound.2.2.resolve_right hro
            have hafter := hsound.2.1
            rw [hr, hsections] at hafter
            cases hafter
            exact ⟨_, _, h.pubsub_section ht (by rw [hs]; rfl) (by rw [hs]; rfl) hr hsections hf
              now⟩
  | answering result => exact ⟨A, order, h.answer ht hs⟩
  | answered result => exact ⟨A, order, h⟩

theorem step_consistent {db₀ A : Db host} {w : World host Call} {order : List (Call × Frame)}
    (h : Consistent db₀ w A order) (e : Event Call) (hno : ¬ Overlaps (w, e)) :
    ∃ A' order', Consistent db₀ (step e w) A' order' := by
  cases e with
  | request c now req =>
      cases hc : w.tasks c with
      | some t =>
          rw [step, hc]
          exact ⟨A, order, h⟩
      | none =>
          rw [step, hc]
          exact h.request now hc req
  | step c now =>
      rw [step]
      cases ht : w.tasks c with
      | none => exact ⟨A, order, h⟩
      | some t => exact advance_consistent h ht now hno
  | acknowledge c result =>
      rw [step]
      cases ht : w.tasks c with
      | none => exact ⟨A, order, h⟩
      | some t =>
          dsimp only
          cases hs : t.stage with
          | appending reply => exact h.acknowledge ht hs result
          | _ => exact ⟨A, order, h⟩

omit [DecidableEq Call] in
theorem consistent_start (aof : Bool) (db : Db host) :
    Consistent db (World.mk aof db none (fun _ : Call => none) []) db [] where
  linearizes := Linearizes.empty db
  ordered c r := iff_of_false nofun fun ⟨t, ht, _⟩ => nomatch ht
  marked c result h := by cases h
  gate c := iff_of_false nofun fun ⟨t, ht, _⟩ => nomatch ht
  sound c t h := by cases h
  free _ l := (sameAt_equivalence l).refl db
  apart c d t f h := by cases h

/-- In a run without overlaps the calls are linearizable at every moment. -/
theorem linearizable {events : List (Event Call)} {aof : Bool} {db : Db host}
    (h : ∀ e ∈ Runs.taken step events (World.mk aof db none (fun _ => none) []), ¬ Overlaps e)
    {w : World host Call}
    (hw : Runs.run step events (World.mk aof db none (fun _ => none) []) = w) :
    ∃ db' order, Linearizes w.Alone w.history db db' order := by
  have hstep : ∀ (w : World host Call) (e : Event Call),
      (∃ A order, Consistent db w A order) → ¬ Overlaps (w, e) →
      ∃ A order, Consistent db (step e w) A order := by
    rintro w e ⟨A, order, hinv⟩ hno
    exact step_consistent hinv e hno
  have hinv := (Runs.kept hstep ⟨db, [], consistent_start aof db⟩ h).2
  rw [hw] at hinv
  obtain ⟨A, order, hinv⟩ := hinv
  exact ⟨A, order, hinv.linearizes⟩

/-- The start of a server without entries. -/
abbrev fresh (aof : Bool) : World ⟨fun _ => 0, 1⟩ Bool :=
  ⟨aof, Db.new, none, fun _ => none, []⟩

/-- A write, and a read behind it. -/
def orderlyRun : List (Event Bool) :=
  [.request false 0 (.command (.set [107] [118] none)), .step false 0, .step false 0,
    .step false 0, .request true 0 (.command (.get [107])), .step true 0, .step true 0,
    .step false 0]

theorem linearizable_orderlyRun :
    ∃ db' order, Linearizes (Runs.run step orderlyRun (fresh false)).Alone
      (Runs.run step orderlyRun (fresh false)).history Db.new db' order := by
  have hno : ∀ e ∈ Runs.taken step orderlyRun (fresh false), ¬ Overlaps e := by decide
  exact linearizable hno rfl

/-! ## A read that overlaps with a write -/

/-- A read between the critical section of a write and the answer of the writer, which is
an error. -/
def dirtyRun : List (Event Bool) :=
  [.request false 0 (.command (.set [107] [118] none)), .step false 0, .step false 0,
    .step false 0, .step false 0, .request true 0 (.command (.get [107])), .step true 0,
    .step true 0, .acknowledge false (.error "No space left on device"), .step false 0,
    .step false 0, .step false 0, .step false 0]

/-- A read of two keys between the two critical sections of a write of both. -/
def tornRun : List (Event Bool) :=
  [.request false 0 (.command (.mset [([97], [49]), ([98], [50])])), .step false 0,
    .step false 0, .request true 0 (.command (.mget [[97], [98]])), .step true 0, .step true 0,
    .step true 0, .step false 0, .step false 0, .step false 0]

omit [DecidableEq Call] in
/-- A call alone answers one thing. -/
theorem Alone.unique {w : World host Call} {c : Call} {db db' db₁ : Db host} {r r₁ : Frame}
    {t : Task host} (h : w.Alone c db r db') (ht : w.tasks c = some t)
    (hafter : t.request.sections.after t.readings db = some (.done r₁, db₁)) :
    r = r₁ ∧ db' = db₁ := by
  obtain ⟨u, hu, hrun⟩ := h
  cases ht.symm.trans hu
  cases hrun.symm.trans hafter
  exact ⟨rfl, rfl⟩

/-- Neither run is linearizable: one reply was never stored, the other is half of a write. -/
theorem overlaps_not_linearizable :
    (¬ ∃ db' order, Linearizes (Runs.run step dirtyRun (fresh true)).Alone
      (Runs.run step dirtyRun (fresh true)).history Db.new db' order) ∧
    ¬ ∃ db' order, Linearizes (Runs.run step tornRun (fresh false)).Alone
      (Runs.run step tornRun (fresh false)).history Db.new db' order := by
  constructor
  · rintro ⟨db', order, h⟩
    have hhistory : (Runs.run step dirtyRun (fresh true)).history =
        [.invoked false, .invoked true, .responded true (.ok (.bulk [118])),
          .responded false (.error (.error "ERR AOF write failed: No space left on device"))] := rfl
    have hread : (true, .bulk [118]) ∈ order := h.answered true _ (by rw [hhistory]; simp)
    have hfailed : false ∉ order.map Prod.fst := h.failed false _ (by rw [hhistory]; simp; rfl)
    have htask : (Runs.run step dirtyRun (fresh true)).tasks true =
        some ⟨.command (.get [107]), none, [], [0], .answered (.ok (.bulk [118]))⟩ := rfl
    cases order with
    | nil => cases hread
    | cons e order =>
        obtain ⟨c, r⟩ := e
        obtain ⟨s, halone, _⟩ := h.serial
        cases c with
        | false => exact hfailed List.mem_cons_self
        | true =>
            have hr : r = .null := (halone.unique htask rfl).1
            have hhead := reply_of_head h.nodup hread
            rw [hr] at hhead
            cases hhead
  · rintro ⟨db', order, h⟩
    have hhistory : (Runs.run step tornRun (fresh false)).history =
        [.invoked false, .invoked true, .responded true (.ok (.array [.bulk [49], .null])),
          .responded false (.ok (.simple "OK"))] := rfl
    have hread : (true, .array [.bulk [49], .null]) ∈ order :=
      h.answered true _ (by rw [hhistory]; simp)
    have hmget : (Runs.run step tornRun (fresh false)).tasks true =
        some ⟨.command (.mget [[97], [98]]), none, [], [0, 0],
          .answered (.ok (.array [.bulk [49], .null]))⟩ := rfl
    have hmset : (Runs.run step tornRun (fresh false)).tasks false =
        some ⟨.command (.mset [([97], [49]), ([98], [50])]),
          (Command.mset [([97], [49]), ([98], [50])]).aofFrame 0, [], [0, 0],
          .answered (.ok (.simple "OK"))⟩ := rfl
    cases order with
    | nil => cases hread
    | cons e order =>
        obtain ⟨c, r⟩ := e
        obtain ⟨s, halone, hrest⟩ := h.serial
        cases c with
        | true =>
            have hr : r = .array [.null, .null] := (halone.unique hmget rfl).1
            have hhead := reply_of_head h.nodup hread
            rw [hr] at hhead
            cases hhead
        | false =>
            -- behind the whole write, both keys are there
            have hs := (halone.unique hmset rfl).2
            have hread' : (true, .array [.bulk [49], .null]) ∈ order := by
              rcases List.mem_cons.mp hread with hread | hread
              · cases hread
              · exact hread
            cases order with
            | nil => cases hread'
            | cons e order =>
                obtain ⟨c, r'⟩ := e
                obtain ⟨s', halone', _⟩ := hrest
                have hnodup := (List.nodup_cons.mp h.nodup)
                cases c with
                | false => exact hnodup.1 List.mem_cons_self
                | true =>
                    rw [hs] at halone'
                    have hr : r' = .array [.bulk [49], .bulk [50]] := (halone'.unique hmget rfl).1
                    have hhead := reply_of_head hnodup.2 hread'
                    rw [hr] at hhead
                    cases hhead

end World
end MiniRedis.Clients
