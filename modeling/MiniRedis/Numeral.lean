import Mathlib.Data.List.Induction
import Mathlib.Tactic.IntervalCases

/-!
# Decimal numerals as bytes

Printing and reading of natural numbers and of signed 64-bit integers in ASCII.
The reader is the permissive one of the Rust standard library: an optional sign,
leading zeros allowed, at least one digit, and no result outside the type. It
is therefore only a left inverse of the printer, but it never reads a numeral
that is shorter than the printed form of its value.
-/
namespace MiniRedis.Numeral

def isDigit (b : UInt8) : Bool := 48 ≤ b && b ≤ 57

/-- `to_string` of an unsigned integer. -/
def decimal (n : ℕ) : List UInt8 := (Nat.toDigits 10 n).map fun c => c.toNat.toUInt8

/-- `to_string` of a signed integer. -/
def signed (n : ℤ) : List UInt8 :=
  if n < 0 then 45 :: decimal n.natAbs else decimal n.natAbs

/-- The value of a string of digits, most significant first. -/
def digitsValue (ds : List UInt8) : Option ℕ :=
  ds.foldlM (fun n b => if isDigit b then some (10 * n + (b.toNat - 48)) else none) 0

/-- The integer as a signed 64-bit one, when it is in range. -/
def int64? (n : ℤ) : Option Int64 :=
  if -9223372036854775808 ≤ n ∧ n ≤ 9223372036854775807 then some (Int64.ofInt n) else none

/-- `str::parse::<i64>`. A bare sign is an error, as in the standard library. -/
def parseInt64 : List UInt8 → Option Int64
  | [] => none
  | b :: ds =>
      if b = 45 then
        if ds = [] then none else (digitsValue ds).bind fun n => int64? (-n)
      else if b = 43 then
        if ds = [] then none else (digitsValue ds).bind fun n => int64? n
      else (digitsValue (b :: ds)).bind fun n => int64? n

theorem digitChar_byte (d : ℕ) (h : d < 10) :
    (Nat.digitChar d).toNat.toUInt8 = (48 + d).toUInt8 := by
  interval_cases d <;> rfl

/-- The last digit comes off the end. -/
theorem decimal_eq (n : ℕ) :
    decimal n = (if n < 10 then [] else decimal (n / 10)) ++ [(48 + n % 10).toUInt8] := by
  unfold decimal
  rw [Nat.toDigits_eq_if (by omega)]
  split_ifs with h
  · simp only [List.map_cons, List.map_nil, List.nil_append, digitChar_byte n h,
      Nat.mod_eq_of_lt h]
  · simp only [List.map_append, List.map_cons, List.map_nil,
      digitChar_byte (n % 10) (Nat.mod_lt _ (by omega))]

theorem decimal_ne_nil (n : ℕ) : decimal n ≠ [] := by
  rw [decimal_eq]
  simp

theorem length_decimal_le_iff {n k : ℕ} (hk : 0 < k) : (decimal n).length ≤ k ↔ n < 10 ^ k := by
  simpa [decimal] using Nat.length_toDigits_le_iff (n := n) (by omega : 1 < 10) hk

theorem length_decimal_pos (n : ℕ) : 0 < (decimal n).length :=
  List.length_pos_iff.mpr (decimal_ne_nil n)

theorem length_decimal_mono {m n : ℕ} (h : m ≤ n) :
    (decimal m).length ≤ (decimal n).length := by
  rw [length_decimal_le_iff (length_decimal_pos n)]
  exact h.trans_lt ((length_decimal_le_iff (length_decimal_pos n)).mp le_rfl)

theorem digit_toNat {d : ℕ} (h : d < 10) : ((48 + d).toUInt8).toNat = 48 + d := by
  simp only [Nat.toUInt8_eq, UInt8.toNat_ofNat']
  omega

theorem isDigit_iff (b : UInt8) : isDigit b = true ↔ 48 ≤ b.toNat ∧ b.toNat ≤ 57 := by
  simp only [isDigit, Bool.and_eq_true, decide_eq_true_eq, UInt8.le_iff_toNat_le]
  exact Iff.rfl

theorem isDigit_of_mem_decimal {n : ℕ} {b : UInt8} (h : b ∈ decimal n) : isDigit b = true := by
  induction n using Nat.strong_induction_on with
  | _ n ih =>
      rw [decimal_eq] at h
      rcases List.mem_append.mp h with h | h
      · split_ifs at h with hn
        · cases h
        · exact ih (n / 10) (by omega) h
      · rw [List.mem_singleton.mp h, isDigit_iff, digit_toNat (Nat.mod_lt n (by omega))]
        omega

theorem digitsValue_snoc (ds : List UInt8) (b : UInt8) :
    digitsValue (ds ++ [b]) = (digitsValue ds).bind fun n =>
      if isDigit b then some (10 * n + (b.toNat - 48)) else none := by
  simp only [digitsValue, List.foldlM_append, List.foldlM_cons, List.foldlM_nil, bind_pure]
  rfl

@[simp] theorem digitsValue_decimal (n : ℕ) : digitsValue (decimal n) = some n := by
  induction n using Nat.strong_induction_on with
  | _ n ih =>
      have hd := digit_toNat (Nat.mod_lt n (by omega : 0 < 10))
      have hb : isDigit ((48 + n % 10).toUInt8) = true := by
        rw [isDigit_iff, hd]
        omega
      simp only [decimal_eq n, digitsValue_snoc, hd, hb, if_true]
      split_ifs with h
      · simp only [digitsValue, List.foldlM_nil, Option.pure_def, Option.bind_some,
          Option.some.injEq]
        omega
      · rw [ih (n / 10) (by omega)]
        simp only [Option.bind_some, Option.some.injEq]
        omega

theorem digitsValue_lt {ds : List UInt8} {n : ℕ} (h : digitsValue ds = some n) :
    n < 10 ^ ds.length := by
  induction ds using List.reverseRecOn generalizing n with
  | nil =>
      obtain rfl : 0 = n := by simpa [digitsValue] using h
      simp
  | append_singleton ds b ih =>
      rw [digitsValue_snoc] at h
      obtain ⟨m, hm, h⟩ := Option.bind_eq_some_iff.mp h
      split_ifs at h with hb
      have hlt := ih hm
      have hd := (isDigit_iff b).mp hb
      simp only [Option.some.injEq] at h
      rw [List.length_append, List.length_singleton, pow_succ]
      omega

/-- Reading never makes a numeral longer: leading zeros are what it may drop. -/
theorem length_decimal_le_of_value {ds : List UInt8} {n : ℕ} (hne : ds ≠ [])
    (h : digitsValue ds = some n) : (decimal n).length ≤ ds.length :=
  (length_decimal_le_iff (List.length_pos_iff.mpr hne)).mpr (digitsValue_lt h)

theorem int64_range (v : Int64) :
    -9223372036854775808 ≤ v.toInt ∧ v.toInt ≤ 9223372036854775807 := by
  have h₁ := v.le_toInt
  have h₂ := v.toInt_lt
  omega

theorem int64?_eq_some {n : ℤ} {v : Int64} : int64? n = some v ↔ v.toInt = n := by
  unfold int64?
  constructor
  · intro h
    split_ifs at h with hn
    rw [← Option.some.inj h, Int64.toInt_ofInt_of_le (by omega) (by omega)]
  · rintro rfl
    rw [if_pos (int64_range v), Int64.ofInt_toInt]

@[simp] theorem int64?_toInt (v : Int64) : int64? v.toInt = some v := int64?_eq_some.mpr rfl

/-- A numeral never starts with a sign. -/
theorem decimal_cons (n : ℕ) : ∃ b ds, decimal n = b :: ds ∧ b ≠ 45 ∧ b ≠ 43 := by
  obtain ⟨b, ds, h⟩ := List.exists_cons_of_ne_nil (decimal_ne_nil n)
  have hb := isDigit_of_mem_decimal (n := n) (b := b) (by simp [h])
  refine ⟨b, ds, h, ?_, ?_⟩ <;> (rintro rfl; simp [isDigit] at hb)

theorem parseInt64_decimal (n : ℕ) : parseInt64 (decimal n) = int64? n := by
  obtain ⟨b, ds, h, h₁, h₂⟩ := decimal_cons n
  have hv := digitsValue_decimal n
  rw [h] at hv ⊢
  simp only [parseInt64, h₁, h₂, if_false, hv, Option.bind_some]

@[simp] theorem parseInt64_signed (v : Int64) : parseInt64 (signed v.toInt) = some v := by
  unfold signed
  split_ifs with h
  · have hv : -((v.toInt.natAbs : ℕ) : ℤ) = v.toInt := by omega
    simp only [parseInt64, if_true, decimal_ne_nil, if_false, digitsValue_decimal,
      Option.bind_some, hv, int64?_toInt]
  · have hv : ((v.toInt.natAbs : ℕ) : ℤ) = v.toInt := by omega
    rw [parseInt64_decimal, hv, int64?_toInt]

/-- The three shapes of an accepted numeral, each with its digits and its sign. -/
theorem parseInt64_cases {ds : List UInt8} {v : Int64} (h : parseInt64 ds = some v) :
    ∃ es n, es ≠ [] ∧ digitsValue es = some n ∧
      ((v.toInt = n ∧ es.length ≤ ds.length) ∨ (v.toInt = -n ∧ es.length + 1 = ds.length)) := by
  cases ds with
  | nil => cases h
  | cons b ds =>
      simp only [parseInt64] at h
      split_ifs at h with hb hd hb' hd
      · obtain ⟨n, hn, hv⟩ := Option.bind_eq_some_iff.mp h
        exact ⟨ds, n, hd, hn, Or.inr ⟨int64?_eq_some.mp hv, rfl⟩⟩
      · obtain ⟨n, hn, hv⟩ := Option.bind_eq_some_iff.mp h
        exact ⟨ds, n, hd, hn, Or.inl ⟨int64?_eq_some.mp hv, by simp⟩⟩
      · obtain ⟨n, hn, hv⟩ := Option.bind_eq_some_iff.mp h
        exact ⟨b :: ds, n, by simp, hn, Or.inl ⟨int64?_eq_some.mp hv, le_rfl⟩⟩

/-- The printed form of a number that was read is no longer than what was read. -/
theorem length_signed_le {ds : List UInt8} {v : Int64} (h : parseInt64 ds = some v) :
    (signed v.toInt).length ≤ ds.length := by
  obtain ⟨es, n, hne, hn, hv⟩ := parseInt64_cases h
  have hlen := length_decimal_le_of_value hne hn
  unfold signed
  rcases hv with ⟨hv, he⟩ | ⟨hv, he⟩
  · rw [if_neg (by omega), show v.toInt.natAbs = n by omega]
    omega
  · rw [show v.toInt.natAbs = n by omega]
    split_ifs <;> grind

theorem mem_signed {n : ℤ} {b : UInt8} (h : b ∈ signed n) : b = 45 ∨ isDigit b = true := by
  unfold signed at h
  split_ifs at h
  · rcases List.mem_cons.mp h with h | h
    · exact Or.inl h
    · exact Or.inr (isDigit_of_mem_decimal h)
  · exact Or.inr (isDigit_of_mem_decimal h)

theorem signed_natCast (n : ℕ) : signed n = decimal n := by
  rw [signed, if_neg (by omega), Int.natAbs_natCast]

end MiniRedis.Numeral
