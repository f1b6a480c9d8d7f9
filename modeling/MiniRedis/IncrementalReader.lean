import MiniRedis.PrefixCode

/-!
# Readers on a growing buffer

A reader that is started again whenever more bytes have arrived must not change its
mind. What it returns is `Local`: it depends on the bytes it takes, so it stays the
same on every longer buffer. What it rejects stays rejected if the reader is `Firm`,
except on the buffers of a set `late`. If those are exactly the buffers of which a
part was rejected too early, whether the arrival of the bytes shows is decided by
them alone.
-/
namespace MiniRedis.PrefixCode

variable {B E A C : Type}

/-- The reader takes the bytes of a word off the buffer, whatever follows them. -/
def Local (r : Reader B E A) : Prop :=
  ∀ c a rest, r c = .ok (a, rest) → ∃ w, c = w ++ rest ∧ Reads r w a

/-- The reader fails, and not for want of more bytes. -/
def Rejects (e : E) (r : Reader B E A) (c : List B) : Prop := ∃ x, r c = .error x ∧ x ≠ e

/-- What is rejected stays rejected, unless `late` holds of the longer buffer. -/
def Firm (e : E) (r : Reader B E A) (late : List B → Prop) : Prop :=
  ∀ p q, Rejects e r p → Rejects e r (p ++ q) ∨ late (p ++ q)

/-- Some part of a buffer in `late` is rejected. -/
def Early (e : E) (r : Reader B E A) (late : List B → Prop) : Prop :=
  ∀ c, late c → ∃ p q, c = p ++ q ∧ Rejects e r p

/-- The buffers on which a reader may change its mind are those of `late`. -/
structure Settles (e : E) (r : Reader B E A) (late : List B → Prop) : Prop where
  isLocal : Local r
  firm : Firm e r late
  early : Early e r late

theorem Local.append {r : Reader B E A} (h : Local r) {c rest : List B} {a : A}
    (hr : r c = .ok (a, rest)) (q : List B) : r (c ++ q) = .ok (a, rest ++ q) := by
  obtain ⟨w, rfl, hw⟩ := h c a rest hr
  rw [List.append_assoc]
  exact hw (rest ++ q)

theorem Settles.congr {e : E} {r : Reader B E A} {late late' : List B → Prop}
    (h : Settles e r late) (heq : ∀ c, late c ↔ late' c) : Settles e r late' := by
  obtain rfl : late = late' := funext fun c => propext (heq c)
  exact h

/-- A reader that rejects nothing it accepts later. -/
theorem settles_of_stable {e : E} {r : Reader B E A} (h : Local r)
    (hr : ∀ p q, Rejects e r p → Rejects e r (p ++ q)) : Settles e r fun _ => False :=
  ⟨h, fun p q hp => Or.inl (hr p q hp), fun _ h => h.elim⟩

theorem settles_pure (e : E) (a : A) :
    Settles e (fun c => (.ok (a, c) : Except E (A × List B))) fun _ => False :=
  settles_of_stable (fun _ _ _ h => ⟨[], by cases h; rfl, by cases h; exact reads_pure a⟩)
    fun _ _ h => by
      obtain ⟨x, hx, -⟩ := h
      cases hx

theorem settles_fail {e x : E} (hx : x ≠ e) :
    Settles e (fun _ => (.error x : Except E (A × List B))) fun _ => False :=
  settles_of_stable (fun _ _ _ h => by cases h) fun _ _ _ => ⟨x, rfl, hx⟩

/-- The late buffers of a sequence: those of its first part, or of the part after it. -/
def lateThen (r : Reader B E A) (late : List B → Prop) (late' : A → List B → Prop)
    (c : List B) : Prop :=
  late c ∨ ∃ a rest, r c = .ok (a, rest) ∧ late' a rest

theorem andThen_of_ok {r : Reader B E A} {k : A → Reader B E C} {c rest : List B} {a : A}
    (h : r c = .ok (a, rest)) : andThen r k c = k a rest := by
  simp only [andThen, h, bind, Except.bind]

theorem andThen_of_error {r : Reader B E A} {k : A → Reader B E C} {c : List B} {x : E}
    (h : r c = .error x) : andThen r k c = .error x := by
  simp only [andThen, h, bind, Except.bind]

theorem Local.andThen {r : Reader B E A} {k : A → Reader B E C} (h : Local r)
    (hk : ∀ a, Local (k a)) : Local (andThen r k) := by
  intro c b rest hb
  obtain ⟨a, c', hr, hb'⟩ := andThen_eq_ok.mp hb
  obtain ⟨w, rfl, hw⟩ := h c a c' hr
  obtain ⟨v, rfl, hv⟩ := hk a c' b rest hb'
  exact ⟨w ++ v, (List.append_assoc w v rest).symm, hw.andThen hv⟩

theorem Settles.andThen {e : E} {r : Reader B E A} {k : A → Reader B E C} {late : List B → Prop}
    {late' : A → List B → Prop} (h : Settles e r late) (hk : ∀ a, Settles e (k a) (late' a)) :
    Settles e (andThen r k) (lateThen r late late') := by
  refine ⟨h.isLocal.andThen fun a => (hk a).isLocal, fun p q hp => ?_, fun c hc => ?_⟩
  · obtain ⟨x, hx, hne⟩ := hp
    cases hr : r p with
    | error y =>
        obtain rfl : y = x := by simpa [andThen_of_error hr] using hx
        rcases h.firm p q ⟨y, hr, hne⟩ with ⟨z, hz, hz'⟩ | hl
        · exact Or.inl ⟨z, andThen_of_error hz, hz'⟩
        · exact Or.inr (Or.inl hl)
    | ok ac =>
        obtain ⟨a, c'⟩ := ac
        have hrq := h.isLocal.append hr q
        rw [andThen_of_ok hr] at hx
        rcases (hk a).firm c' q ⟨x, hx, hne⟩ with ⟨z, hz, hz'⟩ | hl
        · exact Or.inl ⟨z, (andThen_of_ok hrq).trans hz, hz'⟩
        · exact Or.inr (Or.inr ⟨a, c' ++ q, hrq, hl⟩)
  · rcases hc with hl | ⟨a, c', hr, hl⟩
    · obtain ⟨p, q, rfl, x, hx, hne⟩ := h.early c hl
      exact ⟨p, q, rfl, x, andThen_of_error hx, hne⟩
    · obtain ⟨w, rfl, hw⟩ := h.isLocal c a c' hr
      obtain ⟨p, q, rfl, x, hx, hne⟩ := (hk a).early c' hl
      exact ⟨w ++ p, q, (List.append_assoc w p q).symm, x, (andThen_of_ok (hw p)).trans hx, hne⟩

/-- After its first byte the reader is one of its own kind. -/
theorem Settles.cons {e : E} {r : Reader B E A} {late : List B → Prop} (h : Settles e r late)
    (hnil : r [] = .error e) (b : B) :
    Settles e (fun c => r (b :: c)) fun c => late (b :: c) := by
  refine ⟨fun c a rest hr => ?_, fun p q hp => h.firm (b :: p) q hp, fun c hc => ?_⟩
  · obtain ⟨w, hw, hread⟩ := h.isLocal _ _ _ hr
    cases w with
    | nil => cases hnil.symm.trans (hread [])
    | cons b' w =>
        obtain ⟨rfl, rfl⟩ := List.cons.inj hw
        exact ⟨w, rfl, hread⟩
  · obtain ⟨p, q, hpq, x, hx, hne⟩ := h.early _ hc
    cases p with
    | nil => exact absurd (Except.error.inj (hx.symm.trans hnil)) hne
    | cons b' p =>
        obtain ⟨rfl, rfl⟩ := List.cons.inj hpq
        exact ⟨p, q, rfl, x, hx, hne⟩

/-- A reader that waits for its first byte and goes by it. -/
theorem settles_of_cons {e : E} {r : Reader B E A} {late : List B → Prop}
    (hnil : r [] = .error e) (hlate : ¬ late [])
    (h : ∀ b, Settles e (fun c => r (b :: c)) fun c => late (b :: c)) : Settles e r late := by
  refine ⟨fun c a rest hr => ?_, fun p q hp => ?_, fun c hc => ?_⟩
  · cases c with
    | nil => cases hnil.symm.trans hr
    | cons b c =>
        obtain ⟨w, rfl, hw⟩ := (h b).isLocal c a rest hr
        exact ⟨b :: w, rfl, hw⟩
  · cases p with
    | nil =>
        obtain ⟨x, hx, hne⟩ := hp
        exact absurd (Except.error.inj (hx.symm.trans hnil)) hne
    | cons b p => exact (h b).firm p q hp
  · cases c with
    | nil => exact absurd hc hlate
    | cons b c =>
        obtain ⟨p, q, rfl, hp⟩ := (h b).early c hc
        exact ⟨b :: p, q, rfl, hp⟩

/-- The late buffers of a number of items. -/
def lateItems (r : Reader B E A) (late : List B → Prop) : ℕ → List B → Prop
  | 0 => fun _ => False
  | n + 1 => lateThen r late fun _ => lateItems r late n

theorem Settles.items {e : E} {r : Reader B E A} {late : List B → Prop} (h : Settles e r late)
    (n : ℕ) : Settles e (items r n) (lateItems r late n) := by
  induction n with
  | zero => exact settles_pure e []
  | succ n ih =>
      refine (h.andThen fun a => ih.andThen fun as => settles_pure e (a :: as)).congr fun c => ?_
      simp only [lateItems, lateThen, and_false, exists_false, or_false]

/-! ## A stream of words -/

/-- Reading one value after the other gets from one buffer to another. -/
inductive Yields (r : Reader B E A) : List B → List A → List B → Prop
  | nil (c : List B) : Yields r c [] c
  | cons {c c' d : List B} {a : A} {as : List A} :
      r c = .ok (a, c') → Yields r c' as d → Yields r c (a :: as) d

theorem Yields.trans {r : Reader B E A} {b c d : List B} {as as' : List A}
    (h : Yields r b as c) (h' : Yields r c as' d) : Yields r b (as ++ as') d := by
  induction h with
  | nil c => exact h'
  | cons hr _ ih => exact .cons hr (ih h')

/-- The values that were read are read from every longer buffer. -/
theorem Yields.append {r : Reader B E A} (hr : Local r) {c d : List B} {as : List A}
    (h : Yields r c as d) (q : List B) : Yields r (c ++ q) as (d ++ q) := by
  induction h with
  | nil c => exact .nil (c ++ q)
  | cons ha _ ih => exact .cons (hr.append ha q) ih

/-- They take a word off the buffer. -/
theorem Yields.word {r : Reader B E A} (hr : Local r) {c d : List B} {as : List A}
    (h : Yields r c as d) : ∃ w, c = w ++ d ∧ ∀ x, Yields r (w ++ x) as x := by
  induction h with
  | nil c => exact ⟨[], rfl, fun x => .nil x⟩
  | cons ha _ ih =>
      obtain ⟨v, rfl, hv⟩ := ih
      obtain ⟨w, rfl, hw⟩ := hr _ _ _ ha
      refine ⟨w ++ v, (List.append_assoc w v _).symm, fun x => ?_⟩
      rw [List.append_assoc]
      exact .cons (hw (v ++ x)) (hv x)

/-- The reader gets no further than its first failure, on whatever way. -/
theorem Yields.unique {r : Reader B E A} {c d d' : List B} {as as' : List A}
    (h : Yields r c as d) (h' : Yields r c as' d') {x x' : E} (hd : r d = .error x)
    (hd' : r d' = .error x') : as = as' ∧ d = d' := by
  induction h generalizing as' with
  | nil c =>
      cases h' with
      | nil => exact ⟨rfl, rfl⟩
      | cons ha _ => cases hd.symm.trans ha
  | cons ha _ ih =>
      cases h' with
      | nil => cases hd'.symm.trans ha
      | cons ha' h' =>
          obtain ⟨rfl, rfl⟩ := Prod.mk.inj (Except.ok.inj (ha.symm.trans ha'))
          obtain ⟨rfl, rfl⟩ := ih h' hd
          exact ⟨rfl, rfl⟩

/-- A late buffer that the stream gets to is rejected itself. -/
def Quiet (e : E) (r : Reader B E A) (late : List B → Prop) (b : List B) : Prop :=
  ∀ as c, Yields r b as c → late c → Rejects e r c

/-- Where the reader stops on the first bytes of a quiet stream, it goes on or stays. -/
theorem Quiet.rejects {e : E} {r : Reader B E A} {late : List B → Prop} {p q d : List B}
    {as : List A} (h : Quiet e r late (p ++ q)) (hs : Settles e r late) (hy : Yields r p as d)
    (hd : Rejects e r d) : Rejects e r (d ++ q) :=
  (hs.firm d q hd).elim id (h as (d ++ q) (hy.append hs.isLocal q))

/-- What is left of a quiet stream is quiet. -/
theorem Quiet.rest {e : E} {r : Reader B E A} {late : List B → Prop} {b c : List B} {as : List A}
    (h : Quiet e r late b) (hy : Yields r b as c) : Quiet e r late c :=
  fun as' d hd => h (as ++ as') d (hy.trans hd)

/-- A stream that is not quiet has a part that is rejected where the whole goes on. -/
theorem Settles.cut {e : E} {r : Reader B E A} {late : List B → Prop} {b c : List B} {as : List A}
    (hs : Settles e r late) (hy : Yields r b as c) (hl : late c) :
    ∃ u p q, b = u ++ (p ++ q) ∧ c = p ++ q ∧ Yields r (u ++ p) as p ∧ Rejects e r p := by
  obtain ⟨u, rfl, hu⟩ := hy.word hs.isLocal
  obtain ⟨p, q, rfl, hp⟩ := hs.early c hl
  exact ⟨u, p, q, rfl, rfl, hu p, hp⟩

end MiniRedis.PrefixCode
