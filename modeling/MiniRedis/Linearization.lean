import Mathlib.Data.List.Nodup

/-!
# Linearizability

A history records when calls begin and how they end. A linearization puts calls in one
order, with a reply for each, in which running them alone, one after the other, gives these
replies. All calls that have ended well are in it, with the reply they got; those that have
failed are not. A call that ended before another began comes first.
-/
namespace MiniRedis.Linearization

inductive Mark (C R E : Type) where
  | invoked (c : C)
  | responded (c : C) (result : Except E R)

/-- `a` stands somewhere in front of `b`. -/
def Before {A : Type} (l : List A) (a b : A) : Prop := [a, b].Sublist l

variable {C R E S : Type}

/-- The calls one after the other; `effect` says what a call alone answers and does. -/
def Serial (effect : C → S → R → S → Prop) : List (C × R) → S → S → Prop
  | [], s, s' => s = s'
  | e :: order, s, s'' => ∃ s', effect e.1 s e.2 s' ∧ Serial effect order s' s''

structure Linearizes (effect : C → S → R → S → Prop) (history : List (Mark C R E)) (s s' : S)
    (order : List (C × R)) : Prop where
  nodup : (order.map Prod.fst).Nodup
  answered : ∀ c r, .responded c (.ok r) ∈ history → (c, r) ∈ order
  failed : ∀ c e, .responded c (.error e) ∈ history → c ∉ order.map Prod.fst
  realTime : ∀ a b result, Before history (.responded a result) (.invoked b) →
    a ∈ order.map Prod.fst → b ∈ order.map Prod.fst → Before (order.map Prod.fst) a b
  serial : Serial effect order s s'

theorem before_concat {A : Type} {l : List A} {a b x : A} :
    Before (l ++ [x]) a b ↔ Before l a b ∨ a ∈ l ∧ b = x := by
  unfold Before
  have hrev : ∀ k : List A, [a, b].Sublist k ↔ [b, a].Sublist k.reverse :=
    fun k => List.reverse_sublist.symm
  rw [hrev, hrev, List.reverse_append, List.reverse_singleton, List.singleton_append]
  constructor
  · intro h
    cases h with
    | cons _ h => exact Or.inl h
    | cons_cons _ h => exact Or.inr ⟨by simpa using h, rfl⟩
  · rintro (h | ⟨h, rfl⟩)
    · exact h.cons x
    · exact List.Sublist.cons_cons _ (by simpa using h)

/-- What comes behind a prefix comes behind each of its members. -/
theorem before_of_prefix {A : Type} {front l : List A} {a b : A} (h : front <+: l) (ha : a ∈ front)
    (hb : b ∉ front) (hl : b ∈ l) : Before l a b := by
  obtain ⟨rest, rfl⟩ := h
  have hrest : b ∈ rest := (List.mem_append.mp hl).resolve_left hb
  exact (List.singleton_sublist.mpr ha).append (List.singleton_sublist.mpr hrest)

theorem serial_concat {effect : C → S → R → S → Prop} {order : List (C × R)} {s s' s'' : S}
    {c : C} {r : R} (h : Serial effect order s s') (hc : effect c s' r s'') :
    Serial effect (order ++ [(c, r)]) s s'' := by
  induction order generalizing s with
  | nil =>
      cases h
      exact ⟨s'', hc, rfl⟩
  | cons e order ih => exact ⟨h.choose, h.choose_spec.1, ih h.choose_spec.2⟩

theorem Serial.mono {effect effect' : C → S → R → S → Prop} {order : List (C × R)} {s s' : S}
    (h : Serial effect order s s')
    (he : ∀ e ∈ order, ∀ s s', effect e.1 s e.2 s' → effect' e.1 s e.2 s') :
    Serial effect' order s s' := by
  induction order generalizing s with
  | nil => exact h
  | cons e order ih =>
      have hs := h.choose_spec
      exact ⟨h.choose, he e List.mem_cons_self _ _ hs.1,
        ih hs.2 fun e h => he e (List.mem_cons_of_mem _ h)⟩

/-- A call has one reply in an order. -/
theorem reply_of_head {c : C} {r r' : R} {order : List (C × R)}
    (hn : (((c, r) :: order).map Prod.fst).Nodup) (h : (c, r') ∈ (c, r) :: order) : r' = r := by
  rcases List.mem_cons.mp h with h | h
  · cases h
    rfl
  · have hc : c ∈ order.map Prod.fst := List.mem_map.mpr ⟨_, h, rfl⟩
    exact ((List.nodup_cons.mp hn).1 hc).elim

namespace Linearizes
variable {effect : C → S → R → S → Prop} {history : List (Mark C R E)} {s s' s'' : S}
  {order : List (C × R)} {c : C} {r : R}

theorem empty (s : S) : Linearizes effect ([] : List (Mark C R E)) s s [] where
  nodup := List.nodup_nil
  answered _ _ h := by cases h
  failed _ _ h := by cases h
  realTime _ _ _ h := by cases h
  serial := rfl

/-- Between its beginning and its end, a call can be put behind all others. -/
theorem commit (h : Linearizes effect history s s' order) (hc : effect c s' r s'')
    (hnew : c ∉ order.map Prod.fst) (hopen : ∀ result, .responded c result ∉ history) :
    Linearizes effect history s s'' (order ++ [(c, r)]) where
  nodup := by
    rw [List.map_append]
    refine List.nodup_append.mpr ⟨h.nodup, List.nodup_singleton c, fun a ha b hb heq => hnew ?_⟩
    rw [heq, List.mem_singleton.mp hb] at ha
    exact ha
  answered a r' ha := List.mem_append_left _ (h.answered a r' ha)
  failed a e ha hm := by
    rw [List.map_append, List.mem_append] at hm
    rcases hm with hm | hm
    · exact h.failed a e ha hm
    · cases List.mem_singleton.mp hm
      exact hopen _ ha
  realTime a b result hab ha hb := by
    rw [List.map_append] at ha hb ⊢
    refine before_concat.mpr ?_
    have hresponded : .responded a result ∈ history := hab.subset List.mem_cons_self
    have ha' : a ∈ order.map Prod.fst := by
      rcases List.mem_append.mp ha with ha | ha
      · exact ha
      · cases List.mem_singleton.mp ha
        exact (hopen _ hresponded).elim
    rcases List.mem_append.mp hb with hb | hb
    · exact Or.inl (h.realTime a b result hab ha' hb)
    · exact Or.inr ⟨ha', List.mem_singleton.mp hb⟩
  serial := serial_concat h.serial hc

theorem invoke (h : Linearizes effect history s s' order) (hnew : c ∉ order.map Prod.fst) :
    Linearizes effect (history ++ [.invoked c]) s s' order where
  nodup := h.nodup
  answered a r ha := h.answered a r (by simpa using ha)
  failed a e ha := h.failed a e (by simpa using ha)
  realTime a b result hab ha hb := by
    rcases before_concat.mp hab with hab | ⟨_, heq⟩
    · exact h.realTime a b result hab ha hb
    · cases heq
      exact (hnew hb).elim
  serial := h.serial

/-- A call answers with the reply it has in the order, or fails and is not in it. -/
theorem respond (h : Linearizes effect history s s' order) {result : Except E R}
    (hok : ∀ r, result = .ok r → (c, r) ∈ order)
    (herror : ∀ e, result = .error e → c ∉ order.map Prod.fst) :
    Linearizes effect (history ++ [.responded c result]) s s' order where
  nodup := h.nodup
  answered a r ha := by
    rcases List.mem_append.mp ha with ha | ha
    · exact h.answered a r ha
    · cases List.mem_singleton.mp ha
      exact hok r rfl
  failed a e ha := by
    rcases List.mem_append.mp ha with ha | ha
    · exact h.failed a e ha
    · cases List.mem_singleton.mp ha
      exact herror e rfl
  realTime a b result' hab ha hb := by
    rcases before_concat.mp hab with hab | ⟨_, heq⟩
    · exact h.realTime a b result' hab ha hb
    · cases heq
  serial := h.serial

theorem mono (h : Linearizes effect history s s' order) {effect' : C → S → R → S → Prop}
    (he : ∀ e ∈ order, ∀ s s', effect e.1 s e.2 s' → effect' e.1 s e.2 s') :
    Linearizes effect' history s s' order :=
  ⟨h.nodup, h.answered, h.failed, h.realTime, h.serial.mono he⟩

end Linearizes
end MiniRedis.Linearization
