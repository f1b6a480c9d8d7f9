import MiniRedis.Reencoding

/-!
# Inline requests

Every list of arguments has inline requests: each argument stands between double quotes,
byte by byte. The two ways to write a byte, and the lines made of them, are relations that
do not mention the parser.
-/
namespace MiniRedis.Parser
open Wire

/-! ## Quoted arguments -/

/-- A hexadecimal digit of either case, with its value. -/
def HexDigit (d : UInt8) (v : ℕ) : Prop :=
  48 ≤ d ∧ d ≤ 57 ∧ v = d.toNat - 48 ∨ 97 ≤ d ∧ d ≤ 102 ∧ v = d.toNat - 87 ∨
    65 ≤ d ∧ d ≤ 70 ∧ v = d.toNat - 55

/-- The ways to write a byte between double quotes. -/
inductive Spells : Bytes → UInt8 → Prop where
  /-- `\xHH`. -/
  | hex {high low b : UInt8} {h l : ℕ} (hh : HexDigit high h) (hl : HexDigit low l)
      (hb : b.toNat = 16 * h + l) : Spells [92, 120, high, low] b
  /-- A printable byte that is neither a double quote nor a backslash. -/
  | literal {b : UInt8} (hp : 32 ≤ b ∧ b ≤ 126) (hq : b ≠ 34) (hs : b ≠ 92) : Spells [b] b

inductive Quotes : Bytes → Bytes → Prop where
  | nil : Quotes [] []
  | cons {word text value : Bytes} {b : UInt8} (hw : Spells word b) (h : Quotes text value) :
      Quotes (word ++ text) (b :: value)

/-- A line with quoted arguments and separators between them. -/
inductive QuotedLine : Bytes → List Bytes → Prop where
  | last {text value : Bytes} (h : Quotes text value) : QuotedLine (34 :: (text ++ [34])) [value]
  | more {text value gap line : Bytes} {args : List Bytes} (h : Quotes text value)
      (hne : gap ≠ []) (hgap : ∀ s ∈ gap, s = 32 ∨ s = 9) (hl : QuotedLine line args) :
      QuotedLine (34 :: (text ++ 34 :: (gap ++ line))) (value :: args)

/-! ## Every argument can be written -/

def hexDigit (n : ℕ) : UInt8 := if n < 10 then UInt8.ofNat (48 + n) else UInt8.ofNat (87 + n)

theorem hexDigit_spec {n : ℕ} (h : n < 16) : HexDigit (hexDigit n) n := by
  unfold HexDigit
  interval_cases n <;> decide

theorem spells_hex (b : UInt8) :
    Spells [92, 120, hexDigit (b.toNat / 16), hexDigit (b.toNat % 16)] b := by
  have hb := b.toNat_lt
  exact .hex (hexDigit_spec (by omega)) (hexDigit_spec (by omega)) (by omega)

theorem exists_quotes (value : Bytes) : ∃ text, Quotes text value := by
  induction value with
  | nil => exact ⟨[], .nil⟩
  | cons b value ih =>
      obtain ⟨text, h⟩ := ih
      exact ⟨_, .cons (spells_hex b) h⟩

theorem exists_quotedLine {args : List Bytes} (hne : args ≠ []) : ∃ line, QuotedLine line args := by
  induction args with
  | nil => exact (hne rfl).elim
  | cons value args ih =>
      obtain ⟨text, h⟩ := exists_quotes value
      by_cases hargs : args = []
      · rw [hargs]
        exact ⟨_, .last h⟩
      · obtain ⟨line, hl⟩ := ih hargs
        refine ⟨_, .more h (List.cons_ne_nil 32 []) (fun s hs => ?_) hl⟩
        exact Or.inl (List.mem_singleton.mp hs)

/-! ## What the splitter makes of them -/

theorem hexValue_of_digit {d : UInt8} {v : ℕ} (h : HexDigit d v) :
    ∃ u, hexValue d = some u ∧ u.toNat = v ∧ v < 16 := by
  unfold hexValue
  rcases h with ⟨h₁, h₂, rfl⟩ | ⟨h₁, h₂, rfl⟩ | ⟨h₁, h₂, rfl⟩
  all_goals
    have hge := UInt8.le_iff_toNat_le.mp h₁
    have hle := UInt8.le_iff_toNat_le.mp h₂
    simp only [UInt8.le_iff_toNat_le, UInt8.reduceToNat] at hge hle ⊢
  · rw [if_pos ⟨hge, hle⟩]
    exact ⟨_, rfl, UInt8.toNat_sub_of_le _ _ h₁, by omega⟩
  · rw [if_neg (by omega), if_pos ⟨hge, hle⟩]
    refine ⟨_, rfl, ?_, by omega⟩
    rw [UInt8.toNat_add, UInt8.toNat_sub_of_le _ _ h₁]
    change (d.toNat - 97 + 10) % 256 = d.toNat - 87
    omega
  · rw [if_neg (by omega), if_neg (by omega), if_pos ⟨hge, hle⟩]
    refine ⟨_, rfl, ?_, by omega⟩
    rw [UInt8.toNat_add, UInt8.toNat_sub_of_le _ _ h₁]
    change (d.toNat - 65 + 10) % 256 = d.toNat - 55
    omega

/-- The two halves of a byte. -/
theorem halves_toNat {h l : UInt8} (hh : h.toNat < 16) (hl : l.toNat < 16) :
    (h <<< 4 ||| l).toNat = 16 * h.toNat + l.toNat := by
  have hor : h.toNat <<< 4 + l.toNat = h.toNat <<< 4 ||| l.toNat :=
    Nat.shiftLeft_add_eq_or_of_lt hl h.toNat
  have hshift : (h <<< 4).toNat = h.toNat <<< 4 := by
    rw [UInt8.toNat_shiftLeft, Nat.shiftLeft_eq, Nat.shiftLeft_eq]
    change h.toNat * 16 % 256 = h.toNat * 16
    omega
  rw [UInt8.toNat_or, hshift, ← hor, Nat.shiftLeft_eq]
  omega

theorem readInlineQuoted_spells {word : Bytes} {b : UInt8} (h : Spells word b) (line out : Bytes) :
    readInlineQuoted 34 (word ++ line) out = readInlineQuoted 34 line (out ++ [b]) := by
  cases h with
  | @hex high low b x y hh hl hb =>
      obtain ⟨u, hu, hux, hx⟩ := hexValue_of_digit hh
      obtain ⟨v, hv, hvy, hy⟩ := hexValue_of_digit hl
      have hbyte : u <<< 4 ||| v = b := by
        rw [← UInt8.toNat_inj, halves_toNat (by omega) (by omega), hb]
        omega
      simp only [List.cons_append, List.nil_append]
      rw [readInlineQuoted.eq_def]
      dsimp only
      rw [if_neg (by decide), if_neg (by decide), if_pos ⟨rfl, rfl⟩, hu, hv]
      dsimp only
      rw [hbyte]
  | literal hp hq hs =>
      rw [List.singleton_append, readInlineQuoted.eq_def]
      dsimp only
      rw [if_neg hq, if_pos hs]

/-- Quoted text is read up to its closing quote. -/
theorem readInlineQuoted_quotes {text value : Bytes} (h : Quotes text value) (rest out : Bytes) :
    readInlineQuoted 34 (text ++ 34 :: rest) out = .ok (out ++ value, rest) := by
  induction h generalizing out with
  | nil =>
      rw [List.nil_append, readInlineQuoted.eq_def, List.append_nil]
      exact if_pos rfl
  | @cons word text value b hw _ ih =>
      rw [List.append_assoc, readInlineQuoted_spells hw, ih, List.append_assoc,
        List.singleton_append]

/-- A quoted argument ends at a separator or with the line. -/
theorem readInlineArg_quotes {text value rest : Bytes} (h : Quotes text value)
    (hrest : ∀ b ∈ rest.head?, isInlineSpace b = true) (fuel : ℕ) :
    readInlineArg (fuel + 1) (34 :: (text ++ 34 :: rest)) [] = .ok (value, rest) := by
  rw [readInlineArg.eq_def]
  dsimp only
  rw [if_neg (by decide), if_pos (Or.inr rfl), readInlineQuoted_quotes h, List.nil_append]
  change readInlineArg fuel rest value = _
  cases fuel with
  | zero => rfl
  | succ fuel =>
      cases rest with
      | nil => rfl
      | cons b rest => exact if_pos (hrest b rfl)

/-- A turn of the splitter over separators and a quoted argument. -/
theorem splitInlineArgsLoop_quote {gap : Bytes} (hgap : ∀ s ∈ gap, isInlineSpace s = true)
    (fuel : ℕ) (line : Bytes) :
    splitInlineArgsLoop (fuel + 1) (gap ++ 34 :: line) = (do
      let (arg, line) ← readInlineArg (line.length + 1) (34 :: line) []
      let args ← splitInlineArgsLoop fuel line
      .ok (arg :: args)) := by
  rw [splitInlineArgsLoop, List.dropWhile_append_of_pos hgap,
    List.dropWhile_cons_of_neg (by decide)]
  rfl

theorem splitInlineArgsLoop_line {line : Bytes} {args : List Bytes} (h : QuotedLine line args)
    {gap : Bytes} (hgap : ∀ s ∈ gap, isInlineSpace s = true) {fuel : ℕ}
    (hfuel : args.length ≤ fuel) :
    splitInlineArgsLoop fuel (gap ++ line) = .ok args := by
  induction h generalizing gap fuel with
  | @last text value hq =>
      have hnil : ∀ b ∈ ([] : Bytes).head?, isInlineSpace b = true := fun b hb => by cases hb
      cases fuel with
      | zero => cases hfuel
      | succ fuel =>
          rw [splitInlineArgsLoop_quote hgap, readInlineArg_quotes hq hnil]
          change (splitInlineArgsLoop fuel []) >>= _ = _
          cases fuel <;> rfl
  | @more text value gap' line args hq hne hgap' _ ih =>
      have hspace : ∀ s ∈ gap', isInlineSpace s = true := fun s hs => by
        rcases hgap' s hs with rfl | rfl <;> rfl
      have hhead : ∀ b ∈ (gap' ++ line).head?, isInlineSpace b = true := by
        cases gap' with
        | nil => exact (hne rfl).elim
        | cons s gap' =>
            intro b hb
            exact Option.some.inj hb ▸ hspace s List.mem_cons_self
      cases fuel with
      | zero => cases hfuel
      | succ fuel =>
          rw [splitInlineArgsLoop_quote hgap, readInlineArg_quotes hq hhead]
          change (splitInlineArgsLoop fuel (gap' ++ line)) >>= _ = _
          rw [ih hspace (Nat.le_of_succ_le_succ hfuel)]
          rfl

/-! ## The line -/

theorem mem_quotes {text value : Bytes} (h : Quotes text value) {x : UInt8} (hx : x ∈ text) :
    32 ≤ x := by
  induction h with
  | nil => cases hx
  | @cons word text value b hw _ ih =>
      rcases List.mem_append.mp hx with hx | hx
      · cases hw with
        | literal hp => exact (List.mem_singleton.mp hx) ▸ hp.1
        | @hex high low b h l hh hl =>
            have hdigit : ∀ {d : UInt8} {v : ℕ}, HexDigit d v → 32 ≤ d := by
              intro d v hd
              rcases hd with hd | hd | hd
              · exact UInt8.le_trans (by decide : 32 ≤ 48) hd.1
              · exact UInt8.le_trans (by decide : 32 ≤ 97) hd.1
              · exact UInt8.le_trans (by decide : 32 ≤ 65) hd.1
            simp only [List.mem_cons, List.not_mem_nil, or_false] at hx
            rcases hx with rfl | rfl | rfl | rfl
            · decide
            · decide
            · exact hdigit hh
            · exact hdigit hl
      · exact ih hx

/-- No byte of the line is the end of a line, or a part of it. -/
theorem mem_quotedLine {line : Bytes} {args : List Bytes} (h : QuotedLine line args) {x : UInt8}
    (hx : x ∈ line) : x ≠ 10 ∧ x ≠ 13 := by
  have hprint : ∀ {x : UInt8}, 32 ≤ x → x ≠ 10 ∧ x ≠ 13 := by
    intro x hx
    constructor <;> (rintro rfl; exact absurd hx (by decide))
  induction h with
  | last hq =>
      simp only [List.mem_cons, List.mem_append, List.not_mem_nil, or_false] at hx
      rcases hx with rfl | hx | rfl
      · decide
      · exact hprint (mem_quotes hq hx)
      · decide
  | more hq _ hgap _ ih =>
      simp only [List.mem_cons, List.mem_append] at hx
      rcases hx with rfl | hx | rfl | hx | hx
      · decide
      · exact hprint (mem_quotes hq hx)
      · decide
      · rcases hgap x hx with rfl | rfl <;> decide
      · exact ih hx

theorem stripCr_end {line cr : Bytes} (h : 13 ∉ line) (hcr : cr = [] ∨ cr = [13]) :
    stripCr (line ++ cr) = line := by
  unfold stripCr
  rcases hcr with rfl | rfl
  · rw [List.append_nil, if_neg]
    intro hlast
    exact h (List.mem_of_getLast? hlast)
  · rw [List.getLast?_concat, if_pos rfl, List.dropLast_concat]

theorem QuotedLine.args_length {line : Bytes} {args : List Bytes} (h : QuotedLine line args) :
    args ≠ [] ∧ args.length ≤ line.length := by
  induction h with
  | last => exact ⟨List.cons_ne_nil _ _, by simp⟩
  | more _ _ _ _ ih =>
      refine ⟨List.cons_ne_nil _ _, ?_⟩
      simp only [List.length_cons, List.length_append]
      omega

theorem QuotedLine.starts {line : Bytes} {args : List Bytes} (h : QuotedLine line args) :
    ∃ tail, line = 34 :: tail := by
  cases h <;> exact ⟨_, rfl⟩

theorem inlineFrame_line {line : Bytes} {args : List Bytes} (h : QuotedLine line args) :
    inlineFrame line = .ok (some (.array (args.map .bulk))) := by
  obtain ⟨hne, hlen⟩ := h.args_length
  have hsplit : splitInlineArgs line = .ok args :=
    splitInlineArgsLoop_line h (List.forall_mem_nil _) (Nat.le_succ_of_le hlen)
  have hempty : args.isEmpty = false := List.isEmpty_eq_false_iff.mpr hne
  rw [inlineFrame, hsplit]
  change (if args.isEmpty then _ else _) = _
  rw [hempty]
  rfl

/-- Every list of arguments has a line, and the parser reads the list from every line it has,
and consumes that line only. -/
theorem inline_requests :
    (∀ args, args ≠ [] → ∃ line, QuotedLine line args) ∧
    ∀ line args cr rest, QuotedLine line args → cr = [] ∨ cr = [13] →
      (line ++ cr).length ≤ maxLineLen →
        parse (line ++ cr ++ 10 :: rest) = .ok (some (.array (args.map .bulk)), rest) := by
  refine ⟨fun args hne => exists_quotedLine hne, fun line args cr rest h hcr hlen => ?_⟩
  have hbytes := fun x => mem_quotedLine h (x := x)
  have hlf : 10 ∉ line ++ cr := by
    intro hx
    rcases List.mem_append.mp hx with hx | hx
    · exact (hbytes 10 hx).1 rfl
    · rcases hcr with rfl | rfl <;> revert hx <;> decide
  have hturn : turn (line ++ cr ++ 10 :: rest) = .ok (some (.array (args.map .bulk)), rest) := by
    have hinline := inlineTurn_line hlf rest
    rw [if_neg (not_lt.mpr hlen), stripCr_end (fun hx => (hbytes 13 hx).2 rfl) hcr,
      inlineFrame_line h] at hinline
    obtain ⟨tail, rfl⟩ := h.starts
    exact hinline
  rw [parse, parseLoop_succ, hturn]

/-- An empty argument and a backslash, in front of another request. -/
theorem inline_requests_two :
    parse ([34, 34, 32, 34, 92, 120, 53, 67, 34] ++ [13] ++ 10 :: [80, 10]) =
      .ok (some (.array [.bulk [], .bulk [92]]), [80, 10]) := by
  have hword : Spells [92, 120, 53, 67] 92 :=
    .hex (by unfold HexDigit; decide : HexDigit 53 5)
      (by unfold HexDigit; decide : HexDigit 67 12) rfl
  have hline : QuotedLine [34, 34, 32, 34, 92, 120, 53, 67, 34] [[], [92]] :=
    .more .nil (List.cons_ne_nil 32 []) (fun s hs => Or.inl (List.mem_singleton.mp hs))
      (.last (.cons hword .nil))
  exact inline_requests.2 _ _ [13] [80, 10] hline (Or.inr rfl) (by decide)

end MiniRedis.Parser
