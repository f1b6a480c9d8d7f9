import MiniRedis.Numeral

/-!
# Frames, their encoding and the size limits

The RESP2 frame type, the encoder with its length computation, and the limits
that both ends of a connection and the append-only file share. Lengths are
`usize` values: every sum the source forms with `checked_add` is `checkedAdd`
here and fails from `2 ^ 64` on.
-/
namespace MiniRedis

abbrev Bytes := List UInt8

/-- `str::as_bytes`. -/
def asBytes (s : String) : Bytes := s.toByteArray.data.toList

/-- `std::str::from_utf8` followed by `ok`. -/
def fromUtf8 (b : Bytes) : Option String := String.fromUTF8? ⟨b.toArray⟩

@[simp] theorem fromUtf8_asBytes (s : String) : fromUtf8 (asBytes s) = some s := by
  have h : (⟨s.toByteArray.data.toList.toArray⟩ : ByteArray) = s.toByteArray := by
    rw [Array.toArray_toList]
  rw [fromUtf8, asBytes, h, String.fromUTF8?, dif_pos s.isValidUTF8]
  rfl

theorem asBytes_of_fromUtf8 {b : Bytes} {s : String} (h : fromUtf8 b = some s) :
    asBytes s = b := by
  unfold fromUtf8 String.fromUTF8? at h
  split_ifs at h with hv
  rw [← Option.some.inj h]
  simp [asBytes, String.fromUTF8]

theorem asBytes_ofList (cs : List Char) :
    asBytes (String.ofList cs) = cs.flatMap String.utf8EncodeChar := by
  rw [asBytes, String.toByteArray_ofList, List.utf8Encode]
  simp

theorem utf8EncodeChar_ascii (b : UInt8) (h : b.toNat < 128) :
    String.utf8EncodeChar (Char.ofNat b.toNat) = [b] := by
  have hv : (Char.ofNat b.toNat).val.toNat = b.toNat := by
    rw [Char.ofNat, dif_pos (Or.inl (by omega))]
    rfl
  simp only [String.utf8EncodeChar, hv]
  rw [if_pos (by omega)]
  simp

/-- ASCII text passes the UTF-8 check. -/
theorem fromUtf8_ascii (b : Bytes) (h : ∀ x ∈ b, x.toNat < 128) :
    ∃ s, fromUtf8 b = some s ∧ asBytes s = b := by
  have hs : asBytes (String.ofList (b.map fun x => Char.ofNat x.toNat)) = b := by
    rw [asBytes_ofList, List.flatMap_map]
    induction b with
    | nil => rfl
    | cons x b ih =>
        rw [List.flatMap_cons, utf8EncodeChar_ascii x (h x (by simp)),
          ih fun y hy => h y (by simp [hy]), List.singleton_append]
  exact ⟨_, (congrArg fromUtf8 hs).symm.trans (fromUtf8_asBytes _), hs⟩

inductive Frame where
  | simple (s : String)
  | error (s : String)
  | integer (n : Int64)
  | bulk (b : Bytes)
  | null
  | nullArray
  | array (items : List Frame)
deriving Repr

namespace Frame

/-- The reply is `Frame::Error`. -/
def isError : Frame → Bool
  | .error _ => true
  | _ => false

end Frame

namespace Wire
open Numeral

/-- The number as a `usize`, when it is one. -/
def usize? (n : ℕ) : Option ℕ := if n < 2 ^ 64 then some n else none

def checkedAdd (a b : ℕ) : Option ℕ := usize? (a + b)

/-- `str::from_utf8(b).ok().and_then(|s| s.parse::<i64>().ok())`. -/
def readI64 (b : Bytes) : Option Int64 := (fromUtf8 b).bind fun s => parseInt64 (asBytes s)

/-- ASCII text is read as it stands. -/
theorem readI64_ascii {b : Bytes} (h : ∀ x ∈ b, x.toNat < 128) : readI64 b = parseInt64 b := by
  obtain ⟨s, hs, hb⟩ := fromUtf8_ascii b h
  rw [readI64, hs, Option.bind_some, hb]

theorem parseInt64_of_readI64 {b : Bytes} {n : Int64} (h : readI64 b = some n) :
    parseInt64 b = some n := by
  obtain ⟨s, hs, hn⟩ := Option.bind_eq_some_iff.mp h
  rw [← asBytes_of_fromUtf8 hs]
  exact hn

theorem ascii_of_mem_signed {n : ℤ} {b : UInt8} (h : b ∈ signed n) : b.toNat < 128 := by
  rcases mem_signed h with rfl | h
  · decide
  · have := (isDigit_iff b).mp h
    omega

@[simp] theorem readI64_signed (n : Int64) : readI64 (signed n.toInt) = some n := by
  rw [readI64_ascii fun x hx => ascii_of_mem_signed hx, parseInt64_signed]

theorem usize?_eq_some {n m : ℕ} : usize? n = some m ↔ n = m ∧ n < 2 ^ 64 := by
  unfold usize?
  split_ifs with h <;> grind

@[simp] theorem usize?_bind_add (a b : ℕ) :
    ((usize? a).bind fun x => checkedAdd x b) = usize? (a + b) := by
  unfold checkedAdd usize?
  split_ifs <;> first | rfl | (simp_all; omega) | (simp_all)

theorem usize?_bind_bind (a b : ℕ) (f : ℕ → Option ℕ) :
    ((usize? a).bind fun x => (checkedAdd x b).bind f) = (usize? (a + b)).bind f := by
  rw [← usize?_bind_add, Option.bind_assoc]

/-! ## Limits -/

def maxBufferedFrameBytes : ℕ := 64 * 1024 * 1024
def maxResponseFrameBytes : ℕ := 64 * 1024 * 1024
def maxBulkLen : ℕ := maxBufferedFrameBytes

def decimalLenUsize (n : ℕ) : ℕ := (decimal n).length
def decimalLenI64 (n : Int64) : ℕ := (signed n.toInt).length

def respBulkLen (len : ℕ) : Option ℕ :=
  (checkedAdd 1 (decimalLenUsize len)).bind fun n =>
    (checkedAdd n 2).bind fun n => (checkedAdd n len).bind fun n => checkedAdd n 2

def respArrayHeaderLen (items : ℕ) : Option ℕ :=
  (checkedAdd 1 (decimalLenUsize items)).bind fun n => checkedAdd n 2

/-- The new total, or `none` where the source returns `false` and keeps the old one. -/
def checkedAddResponseLen (total add : ℕ) : Option ℕ :=
  match checkedAdd total add with
  | some newTotal => if newTotal ≤ maxResponseFrameBytes then some newTotal else none
  | none => none

def bulkResponseFits (len : ℕ) : Bool :=
  match respBulkLen len with
  | some bulkLen => bulkLen ≤ maxResponseFrameBytes
  | none => false

def responseTooLarge : Frame :=
  .error s!"ERR response exceeds output limit of {maxResponseFrameBytes} bytes"

/-- The encoded length of a bulk string with `len` bytes. -/
def bulkLen (len : ℕ) : ℕ := 1 + (decimal len).length + 2 + len + 2

/-- The encoded length of an array header for `items` elements. -/
def headerLen (items : ℕ) : ℕ := 1 + (decimal items).length + 2

theorem respBulkLen_eq (len : ℕ) : respBulkLen len = usize? (bulkLen len) := by
  unfold respBulkLen bulkLen decimalLenUsize
  rw [show checkedAdd 1 (decimal len).length = usize? (1 + (decimal len).length) from rfl,
    usize?_bind_bind, usize?_bind_bind, usize?_bind_add]

theorem respBulkLen_of_lt {n : ℕ} (h : bulkLen n < 2 ^ 64) : respBulkLen n = some (bulkLen n) :=
  (respBulkLen_eq n).trans (usize?_eq_some.mpr ⟨rfl, h⟩)

theorem respArrayHeaderLen_eq (items : ℕ) :
    respArrayHeaderLen items = usize? (headerLen items) := by
  rw [respArrayHeaderLen, headerLen, ← usize?_bind_add]
  rfl

theorem checkedAddResponseLen_eq (total add : ℕ) :
    checkedAddResponseLen total add =
      if total + add ≤ maxResponseFrameBytes then some (total + add) else none := by
  have hmax : maxResponseFrameBytes < 2 ^ 64 := by decide
  unfold checkedAddResponseLen checkedAdd usize?
  by_cases h : total + add < 2 ^ 64
  · simp only [h, if_true]
  · simp only [h, if_false]
    rw [if_neg (by omega)]

theorem bulkResponseFits_iff (len : ℕ) :
    bulkResponseFits len = true ↔ bulkLen len ≤ maxResponseFrameBytes := by
  have hmax : maxResponseFrameBytes < 2 ^ 64 := by decide
  rw [bulkResponseFits, respBulkLen_eq, usize?]
  by_cases h : bulkLen len < 2 ^ 64
  · simp only [h, if_true, decide_eq_true_eq]
  · simp only [h, if_false, Bool.false_eq_true, false_iff]
    omega

/-- The length of a bulk string with eight digits in its header. -/
theorem bulkLen_eight {n : ℕ} (h : 10 ^ 7 ≤ n) (h' : n < 10 ^ 8) : bulkLen n = n + 13 := by
  have h₈ := length_decimal_le_iff (n := n) (k := 8) (by omega)
  have h₇ := length_decimal_le_iff (n := n) (k := 7) (by omega)
  unfold bulkLen
  omega

theorem bulkLen_mono {m n : ℕ} (h : m ≤ n) : bulkLen m ≤ bulkLen n := by
  have := length_decimal_mono h
  unfold bulkLen
  omega

theorem bulkResponseFits_mono {m n : ℕ} (h : m ≤ n) (hn : bulkResponseFits n = true) :
    bulkResponseFits m = true :=
  (bulkResponseFits_iff m).mpr ((bulkLen_mono h).trans ((bulkResponseFits_iff n).mp hn))

/-! ## Encoder -/

mutual
/-- The bytes of a frame on the wire. -/
def wire : Frame → Bytes
  | .simple s => 43 :: (asBytes s ++ [13, 10])
  | .error s => 45 :: (asBytes s ++ [13, 10])
  | .integer n => 58 :: (signed n.toInt ++ [13, 10])
  | .bulk b => 36 :: (decimal b.length ++ [13, 10] ++ b ++ [13, 10])
  | .null => [36, 45, 49, 13, 10]
  | .nullArray => [42, 45, 49, 13, 10]
  | .array items => 42 :: (decimal items.length ++ [13, 10] ++ wireItems items)

def wireItems : List Frame → Bytes
  | [] => []
  | item :: items => wire item ++ wireItems items
end

@[simp] theorem wireItems_eq_flatMap (items : List Frame) :
    wireItems items = items.flatMap wire := by
  induction items with
  | nil => rfl
  | cons item items ih => rw [wireItems, ih, List.flatMap_cons]

mutual
/-- `encode`, with the buffer it appends to as an accumulator. -/
def encode : Frame → Bytes → Bytes
  | .simple s, out => out ++ [43] ++ asBytes s ++ [13, 10]
  | .error s, out => out ++ [45] ++ asBytes s ++ [13, 10]
  | .integer n, out => out ++ [58] ++ signed n.toInt ++ [13, 10]
  | .bulk b, out => out ++ [36] ++ decimal b.length ++ [13, 10] ++ b ++ [13, 10]
  | .null, out => out ++ [36, 45, 49, 13, 10]
  | .nullArray, out => out ++ [42, 45, 49, 13, 10]
  | .array items, out => encodeItems items (out ++ [42] ++ decimal items.length ++ [13, 10])

def encodeItems : List Frame → Bytes → Bytes
  | [], out => out
  | item :: items, out => encodeItems items (encode item out)
end

mutual
def encodedLen : Frame → Option ℕ
  | .simple s | .error s => (checkedAdd 1 (asBytes s).length).bind fun n => checkedAdd n 2
  | .integer n => (checkedAdd 1 (decimalLenI64 n)).bind fun n => checkedAdd n 2
  | .bulk b => respBulkLen b.length
  | .null | .nullArray => some 5
  | .array items =>
      (respArrayHeaderLen items.length).bind fun len => encodedLenItems items len

def encodedLenItems : List Frame → ℕ → Option ℕ
  | [], len => some len
  | item :: items, len =>
      (encodedLen item).bind fun n => (checkedAdd len n).bind fun len => encodedLenItems items len
end

mutual
theorem encode_eq_append (f : Frame) (out : Bytes) : encode f out = out ++ wire f := by
  cases f with
  | array items =>
      simp only [encode, wire, encodeItems_eq_append, List.append_assoc, List.cons_append,
        List.nil_append]
  | _ => simp only [encode, wire, List.append_assoc, List.cons_append, List.nil_append]

theorem encodeItems_eq_append (items : List Frame) (out : Bytes) :
    encodeItems items out = out ++ wireItems items := by
  cases items with
  | nil => rw [encodeItems, wireItems, List.append_nil]
  | cons item items =>
      rw [encodeItems, encodeItems_eq_append items, encode_eq_append item, List.append_assoc,
        wireItems]
end

@[simp] theorem length_wire_bulk (b : Bytes) : (wire (.bulk b)).length = bulkLen b.length := by
  simp only [wire, bulkLen, List.length_cons, List.length_append, List.length_nil]
  omega

theorem length_wire_array (items : List Frame) :
    (wire (.array items)).length =
      headerLen items.length + (items.map fun item => (wire item).length).sum := by
  simp only [wire, wireItems_eq_flatMap, headerLen, List.length_cons, List.length_append,
    List.length_flatMap, List.length_nil]
  omega

mutual
theorem encodedLen_eq (f : Frame) : encodedLen f = usize? (wire f).length := by
  cases f with
  | simple s | error s | integer s =>
      simp only [encodedLen, wire, decimalLenI64, List.length_cons, List.length_append,
        List.length_nil]
      rw [checkedAdd, usize?_bind_add]
      congr 1
      omega
  | bulk b => rw [encodedLen, respBulkLen_eq, length_wire_bulk]
  | null | nullArray => rfl
  | array items =>
      rw [encodedLen, respArrayHeaderLen_eq, length_wire_array, encodedLenItems_eq]

theorem encodedLenItems_eq (items : List Frame) (n : ℕ) :
    ((usize? n).bind fun len => encodedLenItems items len) =
      usize? (n + (items.map fun item => (wire item).length).sum) := by
  cases items with
  | nil => simp [encodedLenItems]
  | cons item items =>
      have h := encodedLenItems_eq items (n + (wire item).length)
      simp only [encodedLenItems, encodedLen_eq item, List.map_cons, List.sum_cons]
      rw [← Nat.add_assoc, ← h, ← usize?_bind_bind]
      by_cases hw : (wire item).length < 2 ^ 64
      · simp only [usize?, hw, if_true, Option.bind_some]
      · have hx : ∀ x, checkedAdd x (wire item).length = none := fun x =>
          if_neg (by omega)
        simp only [usize?, hw, if_false, hx, Option.bind_none]
end

theorem encodedLen_eq_some {f : Frame} {n : ℕ} :
    encodedLen f = some n ↔ (wire f).length = n ∧ (wire f).length < 2 ^ 64 := by
  rw [encodedLen_eq, usize?_eq_some]

/-- The encoder appends the same bytes to every buffer, and the computed length is their
number, unless it is no `usize`. -/
theorem encodedLen_exact (f : Frame) :
    (∀ out, encode f out = out ++ encode f []) ∧
    (∀ n, encodedLen f = some n ↔ (encode f []).length = n ∧ n < 2 ^ 64) ∧
    (encodedLen f = none ↔ 2 ^ 64 ≤ (encode f []).length) := by
  have hwire : encode f [] = wire f := by rw [encode_eq_append, List.nil_append]
  rw [hwire]
  refine ⟨encode_eq_append f, fun n => ?_, ?_⟩
  · rw [encodedLen_eq_some]
    exact ⟨fun h => ⟨h.1, h.1 ▸ h.2⟩, fun h => ⟨h.1, h.1 ▸ h.2⟩⟩
  · rw [encodedLen_eq, usize?]
    by_cases hlen : (wire f).length < 2 ^ 64
    · rw [if_pos hlen]
      exact iff_of_false (Option.some_ne_none _) (not_le.mpr hlen)
    · rw [if_neg hlen]
      exact iff_of_true rfl (not_lt.mp hlen)

end Wire
end MiniRedis
