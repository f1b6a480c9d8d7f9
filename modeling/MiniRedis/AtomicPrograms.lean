import Mathlib.Data.Set.Basic

/-!
# Programs of atomic steps

A program works on a shared state in atomic steps, each of which also reads an input,
such as a clock. Between two of its steps other programs may take theirs. The state has
locations. A program that stays within a set of them does the same in states that agree
there, and leaves every other location alone.
-/
namespace MiniRedis.AtomicPrograms

inductive Program (S T R : Type) where
  | done (reply : R)
  | atomic (act : T → S → S) (next : T → S → Program S T R)

variable {S T R L : Type}

namespace Program

/-- One step for each input, with no other steps in between. -/
def after : List T → Program S T R → S → Option (Program S T R × S)
  | [], p, s => some (p, s)
  | t :: ts, p, s =>
      match p with
      | .done _ => none
      | .atomic act next => after ts (next t s) (act t s)

/-- The whole program, with the same input for every step. -/
def eval (t : T) : Program S T R → S → R × S
  | .done reply, s => (reply, s)
  | .atomic act next, s => (next t s).eval t (act t s)

theorem exists_after_eval (t : T) (p : Program S T R) (s : S) :
    ∃ n, p.after (List.replicate n t) s = some (.done (p.eval t s).1, (p.eval t s).2) := by
  induction p generalizing s with
  | done reply => exact ⟨0, rfl⟩
  | atomic act next ih =>
      have hn := ih t s (act t s)
      cases hn with
      | intro n hn => exact ⟨n + 1, hn⟩

theorem after_concat {p : Program S T R} {ts : List T} {s s' : S} {act : T → S → S}
    {next : T → S → Program S T R} (h : p.after ts s = some (.atomic act next, s')) (t : T) :
    p.after (ts ++ [t]) s = some (next t s', act t s') := by
  induction ts generalizing p s with
  | nil =>
      cases h
      rfl
  | cons u ts ih =>
      cases p with
      | done reply => cases h
      | atomic act' next' => exact ih h

/-- No step changes the state. -/
def ReadOnly : Program S T R → Prop
  | .done _ => True
  | .atomic act next => ∀ t s, act t s = s ∧ (next t s).ReadOnly

theorem ReadOnly.after {p q : Program S T R} {ts : List T} {s s' : S} (h : p.ReadOnly)
    (hp : p.after ts s = some (q, s')) : q.ReadOnly ∧ s' = s := by
  induction ts generalizing p s with
  | nil =>
      cases hp
      exact ⟨h, rfl⟩
  | cons t ts ih =>
      cases p with
      | done reply => cases hp
      | atomic act next =>
          have hq := ih (h t s).2 hp
          exact ⟨hq.1, hq.2.trans (h t s).1⟩

/-- The program reads and writes in `F` only; `same` compares two states at a location. -/
def Within (same : L → S → S → Prop) (F : Set L) : Program S T R → Prop
  | .done _ => True
  | .atomic act next => ∀ t s,
      (∀ s', (∀ l ∈ F, same l s s') →
        (∀ l ∈ F, same l (act t s) (act t s')) ∧ next t s = next t s') ∧
      (∀ l, l ∉ F → same l s (act t s)) ∧ (next t s).Within same F

variable {same : L → S → S → Prop} {F : Set L}

theorem Within.after (heq : ∀ l, Equivalence (same l)) {p q : Program S T R} {ts : List T}
    {s s' : S} (h : p.Within same F) (hp : p.after ts s = some (q, s')) :
    q.Within same F ∧ ∀ l, l ∉ F → same l s s' := by
  induction ts generalizing p s with
  | nil =>
      cases hp
      exact ⟨h, fun l _ => (heq l).refl _⟩
  | cons t ts ih =>
      cases p with
      | done reply => cases hp
      | atomic act next =>
          have hq := ih (h t s).2.2 hp
          exact ⟨hq.1, fun l hl => (heq l).trans ((h t s).2.1 l hl) (hq.2 l hl)⟩

/-- In a state that agrees on `F` the same steps lead to the same program. -/
theorem Within.congr {p q : Program S T R} {ts : List T} {s₁ s₂ s₁' : S} (h : p.Within same F)
    (hs : ∀ l ∈ F, same l s₁ s₂) (hp : p.after ts s₁ = some (q, s₁')) :
    ∃ s₂', p.after ts s₂ = some (q, s₂') ∧ ∀ l ∈ F, same l s₁' s₂' := by
  induction ts generalizing p s₁ s₂ with
  | nil =>
      cases hp
      exact ⟨s₂, rfl, hs⟩
  | cons t ts ih =>
      cases p with
      | done reply => cases hp
      | atomic act next =>
          have hstep := (h t s₁).1 s₂ hs
          have hq := ih (h t s₁).2.2 hstep.1 hp
          rw [hstep.2] at hq
          exact hq

/-- A step in a state that agrees everywhere with the one that the steps so far lead to. -/
theorem Within.step {p : Program S T R} {ts : List T} {s s₁ s₂ : S} {act : T → S → S}
    {next : T → S → Program S T R} (heq : ∀ l, Equivalence (same l)) (h : p.Within same F)
    (hp : p.after ts s = some (.atomic act next, s₁)) (hs : ∀ l, same l s₁ s₂) (t : T) :
    p.after (ts ++ [t]) s = some (next t s₂, act t s₁) ∧ ∀ l, same l (act t s₁) (act t s₂) := by
  have hq : (atomic act next).Within same F := (h.after heq hp).1
  have hin := (hq t s₁).1 s₂ fun l _ => hs l
  refine ⟨hin.2 ▸ after_concat hp t, fun l => ?_⟩
  by_cases hl : l ∈ F
  · exact hin.1 l hl
  · exact (heq l).trans ((heq l).symm ((hq t s₁).2.1 l hl))
      ((heq l).trans (hs l) ((hq t s₂).2.1 l hl))

/-- A step that only reads, in a state that agrees on `F`. -/
theorem ReadOnly.step {p : Program S T R} {ts : List T} {s s₂ : S} {act : T → S → S}
    {next : T → S → Program S T R} (hr : p.ReadOnly) (heq : ∀ l, Equivalence (same l))
    (h : p.Within same F) (hp : p.after ts s = some (.atomic act next, s))
    (hs : ∀ l ∈ F, same l s s₂) (t : T) : p.after (ts ++ [t]) s = some (next t s₂, s) := by
  have hq : (atomic act next).Within same F := (h.after heq hp).1
  have hro : (atomic act next).ReadOnly := (hr.after hp).1
  have hstep := after_concat hp t
  rwa [((hq t s).1 s₂ hs).2, (hro t s).1] at hstep

/-! ## Programs and relations -/

/-- Every step of the program is related by `P`. -/
def Steps (P : S → S → Prop) : Program S T R → Prop
  | .done _ => True
  | .atomic act next => ∀ t s, P s (act t s) ∧ (next t s).Steps P

theorem ReadOnly.steps {P : S → S → Prop} (h : ∀ s, P s s) {p : Program S T R}
    (hp : p.ReadOnly) : p.Steps P := by
  induction p with
  | done reply => exact trivial
  | atomic act next ih =>
      intro t s
      have hact := hp t s
      exact ⟨hact.1.symm ▸ h s, ih t s hact.2⟩

/-- From states that are alike the program goes on the same way, and leaves them alike. -/
def Respects (alike : T → S → S → Prop) : Program S T R → Prop
  | .done _ => True
  | .atomic act next => ∀ t s,
      (∀ s', alike t s s' → alike t (act t s) (act t s') ∧ next t s = next t s') ∧
      (next t s).Respects alike

/-- What makes a state like itself is kept by every step. -/
theorem Respects.steps {alike : T → S → S → Prop} {P : S → Prop}
    (hrefl : ∀ t s, P s → alike t s s) (hleft : ∀ t s s', alike t s s' → P s)
    {p : Program S T R} (hp : p.Respects alike) : p.Steps fun s s' => P s → P s' := by
  induction p with
  | done reply => exact trivial
  | atomic act next ih =>
      intro t s
      have hact := hp t s
      exact ⟨fun hs => hleft t _ _ (hact.1 s (hrefl t s hs)).1, ih t s hact.2⟩

end Program
end MiniRedis.AtomicPrograms
