import Mathlib.Algebra.GroupWithZero.Nat
import Mathlib.Data.List.Basic

/-!
# Readers of prefix codes

A reader takes bytes off the front of a buffer, or fails, or asks for more. For
a code word it is meant to read, it returns the value whatever follows the word
(`Reads`), and on every proper prefix of the word it asks for more (`Waits`).
Both properties follow the sequential structure of a reader, and the second one
needs the first for the parts that are already complete.
-/
namespace MiniRedis.PrefixCode

variable {B E A C : Type}

abbrev Reader (B E A : Type) := List B → Except E (A × List B)

/-- The reader takes exactly the word, whatever follows it. -/
def Reads (r : Reader B E A) (w : List B) (a : A) : Prop :=
  ∀ rest, r (w ++ rest) = .ok (a, rest)

/-- On every proper prefix of the word the reader reports `e`, "more bytes needed". -/
def Waits (e : E) (r : Reader B E A) (w : List B) : Prop :=
  ∀ p q, p ++ q = w → q ≠ [] → r p = .error e

theorem waits_nil (e : E) (r : Reader B E A) : Waits e r [] := by
  intro p q h hq
  exact (hq (List.append_eq_nil_iff.mp h).2).elim

theorem reads_pure (a : A) : Reads (fun c => (.ok (a, c) : Except E (A × List B))) [] a :=
  fun _ => rfl

/-- Sequencing: the second reader starts where the first one stopped. -/
def andThen (r : Reader B E A) (k : A → Reader B E C) : Reader B E C := fun c =>
  r c >>= fun p => k p.1 p.2

theorem Reads.andThen {r : Reader B E A} {k : A → Reader B E C} {w v : List B} {a : A} {b : C}
    (h : Reads r w a) (hk : Reads (k a) v b) : Reads (andThen r k) (w ++ v) b := by
  intro rest
  simp only [PrefixCode.andThen, List.append_assoc, h (v ++ rest)]
  exact hk rest

/-- A cut inside the first word stops the first reader, and a later cut the second one. -/
theorem Waits.andThen {e : E} {r : Reader B E A} {k : A → Reader B E C} {w v : List B} {a : A}
    (hw : Waits e r w) (h : Reads r w a) (hk : Waits e (k a) v) :
    Waits e (andThen r k) (w ++ v) := by
  intro p q hpq hq
  rcases List.append_eq_append_iff.mp hpq with ⟨t, rfl, rfl⟩ | ⟨t, rfl, rfl⟩
  · by_cases ht : t = []
    · subst ht
      have hp := h []
      simp only [List.append_nil] at hp hw ⊢
      simp only [PrefixCode.andThen, hp]
      exact hk [] v rfl (by simpa using hq)
    · simp only [PrefixCode.andThen, hw p t rfl ht]
      rfl
  · simp only [PrefixCode.andThen, h t]
    exact hk t q rfl hq

/-- Reading as many words as a list has, one after the other. -/
def items (r : Reader B E A) : ℕ → Reader B E (List A)
  | 0 => fun c => .ok ([], c)
  | n + 1 => andThen r fun a => andThen (items r n) fun as c => .ok (a :: as, c)

theorem reads_items {r : Reader B E A} {word : A → List B} (as : List A)
    (h : ∀ a ∈ as, Reads r (word a) a) : Reads (items r as.length) (as.flatMap word) as := by
  induction as with
  | nil => exact reads_pure []
  | cons a as ih =>
      have ht := ih fun b hb => h b (List.mem_cons_of_mem a hb)
      have hk := ht.andThen (k := fun as c => .ok (a :: as, c)) (reads_pure (a :: as))
      rw [List.append_nil] at hk
      exact (h a List.mem_cons_self).andThen hk

theorem waits_items {e : E} {r : Reader B E A} {word : A → List B} (as : List A)
    (h : ∀ a ∈ as, Reads r (word a) a) (hw : ∀ a ∈ as, Waits e r (word a)) :
    Waits e (items r as.length) (as.flatMap word) := by
  induction as with
  | nil => exact waits_nil e _
  | cons a as ih =>
      have ht := ih (fun b hb => h b (List.mem_cons_of_mem a hb))
        (fun b hb => hw b (List.mem_cons_of_mem a hb))
      have hr := reads_items as fun b hb => h b (List.mem_cons_of_mem a hb)
      have hk := ht.andThen hr (k := fun as c => .ok (a :: as, c)) (waits_nil e _)
      rw [List.append_nil] at hk
      exact (hw a List.mem_cons_self).andThen (h a List.mem_cons_self) hk

/-- Where a stream of words is cut: after some whole words, and then inside the next one. -/
theorem cut_words (word : A → List B) {as : List A} {p q : List B} (h : p ++ q = as.flatMap word) :
    ∃ done rest tail, as = done ++ rest ∧ p = done.flatMap word ++ tail ∧
      tail ++ q = rest.flatMap word ∧
      ∀ a as', rest = a :: as' → ∃ r, r ≠ [] ∧ tail ++ r = word a := by
  induction as generalizing p with
  | nil =>
      obtain ⟨rfl, rfl⟩ := List.append_eq_nil_iff.mp h
      exact ⟨[], [], [], rfl, rfl, rfl, fun a as' hr => by cases hr⟩
  | cons a as ih =>
      rw [List.flatMap_cons] at h
      rcases List.append_eq_append_iff.mp h with ⟨r, hp, hq⟩ | ⟨p', hp, hq⟩
      · by_cases hr : r = []
        · subst hr
          rw [List.append_nil] at hp
          obtain ⟨done, rest, tail, h₁, h₂, h₃, h₄⟩ := ih (p := []) (by simpa using hq)
          refine ⟨a :: done, rest, tail, by rw [h₁]; rfl, ?_, h₃, h₄⟩
          rw [List.flatMap_cons, List.append_assoc, ← h₂, List.append_nil, hp]
        · refine ⟨[], a :: as, p, rfl, rfl, h, fun b bs hb => ⟨r, hr, ?_⟩⟩
          obtain ⟨rfl, rfl⟩ := List.cons.inj hb
          exact hp.symm
      · obtain ⟨done, rest, tail, h₁, h₂, h₃, h₄⟩ := ih hq.symm
        refine ⟨a :: done, rest, tail, by rw [h₁]; rfl, ?_, h₃, h₄⟩
        rw [List.flatMap_cons, List.append_assoc, ← h₂, hp]

/-- Whatever the reader returns satisfies `P` and took at least `size` bytes. -/
def Costs (P : A → Prop) (size : A → ℕ) (r : Reader B E A) : Prop :=
  ∀ c a rest, r c = .ok (a, rest) → P a ∧ size a + rest.length ≤ c.length

theorem bind_eq_ok {x : Except E A} {f : A → Except E C} {b : C} :
    (x >>= f) = .ok b ↔ ∃ a, x = .ok a ∧ f a = .ok b := by
  cases x <;> simp [bind, Except.bind]

theorem andThen_eq_ok {r : Reader B E A} {k : A → Reader B E C} {c rest : List B} {b : C} :
    andThen r k c = .ok (b, rest) ↔ ∃ a c', r c = .ok (a, c') ∧ k a c' = .ok (b, rest) := by
  simp only [andThen, bind_eq_ok, Prod.exists]

theorem Costs.andThen {P : A → Prop} {Q : C → Prop} {size : A → ℕ} {size' : C → ℕ}
    {r : Reader B E A} {k : A → Reader B E C} (h : Costs P size r)
    (hk : ∀ a, P a → ∀ c b rest, k a c = .ok (b, rest) →
      Q b ∧ size' b + rest.length ≤ size a + c.length) :
    Costs Q size' (andThen r k) := by
  intro c b rest hb
  obtain ⟨a, c', hr, hk'⟩ := andThen_eq_ok.mp hb
  obtain ⟨hP, hs⟩ := h c a c' hr
  obtain ⟨hQ, hs'⟩ := hk a hP c' b rest hk'
  exact ⟨hQ, Nat.le_trans hs' hs⟩

theorem Costs.items {P : A → Prop} {size : A → ℕ} {r : Reader B E A} (h : Costs P size r)
    (n : ℕ) :
    Costs (fun as => as.length = n ∧ ∀ a ∈ as, P a) (fun as => (as.map size).sum)
      (PrefixCode.items r n) := by
  induction n with
  | zero =>
      intro c as rest hc
      obtain ⟨rfl, rfl⟩ : [] = as ∧ c = rest := by simpa [PrefixCode.items] using hc
      simp
  | succ n ih =>
      intro c as rest hc
      obtain ⟨a, c', ha, hc'⟩ := andThen_eq_ok.mp hc
      obtain ⟨bs, c'', hb, hd⟩ := andThen_eq_ok.mp hc'
      obtain ⟨rfl, rfl⟩ : a :: bs = as ∧ c'' = rest := by simpa using hd
      obtain ⟨hP, hs⟩ := h c a c' ha
      obtain ⟨⟨hn, hPs⟩, hs'⟩ := ih c' bs c'' hb
      refine ⟨⟨by rw [List.length_cons, hn], ?_⟩, ?_⟩
      · intro x hx
        rcases List.mem_cons.mp hx with rfl | hx
        · exact hP
        · exact hPs x hx
      · simp only [List.map_cons, List.sum_cons] at hs' ⊢
        omega

end MiniRedis.PrefixCode
