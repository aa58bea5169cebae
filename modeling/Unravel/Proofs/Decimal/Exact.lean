import Mathlib.Data.List.TakeWhile
import Mathlib.Data.Nat.Cast.Order.Field
import Unravel.Proofs.Decimal.Layout

/-! Texts of numbers are exact. The digits of a finite number have no zero at either end, the two notations of the number denote
   the same decimal, the digits can be taken from either text, and reading a text gives the number back. -/
namespace Unravel

open List

variable {fuel rank : Nat} {d : Decimal} {l : Layout} {ds : List Char}

namespace Decimal

open Double (rankUnits)

theorem mul_pow_leadingZeros_lt {num den : Nat} (small : num < den) : num * 10 ^ leadingZeros fuel num den < den := by
  induction fuel generalizing num with
  | zero =>
    rw [leadingZeros]
    omega
  | succ fuel ih =>
    rw [leadingZeros]
    split
    · omega
    · rename_i more
      have := ih (Nat.lt_of_not_le more)
      rwa [Nat.mul_assoc, ← Nat.pow_succ'] at this

theorem lt_pow_magnitude (num : Nat) {den : Nat} (positive : 0 < den) : (num : ℚ) < 10 ^ magnitude num den * den := by
  unfold magnitude
  split
  · have last : num / den < 10 ^ (Nat.toDigits 10 (num / den)).length :=
      (Nat.length_toDigits_le_iff (by decide) Nat.length_toDigits_pos).1 (Nat.le_refl _)
    have := (Nat.div_lt_iff_lt_mul positive).1 last
    rw [zpow_natCast]
    exact_mod_cast this
  · rename_i small
    have zeros := @mul_pow_leadingZeros_lt 400 num den (Nat.lt_of_not_le small)
    have zerosQ : (num : ℚ) * 10 ^ leadingZeros 400 num den < den := by exact_mod_cast zeros
    rw [zpow_neg, zpow_natCast, inv_mul_eq_div, lt_div_iff₀ (by positivity)]
    exact zerosQ

/-- A decimal on a grid has the digits of the rank there, or the next number. -/
theorem Basin.onGrid?_coefficient_le {e : Int} (h : (ofRank rank).onGrid? e = some d) :
    (d.coefficient : ℚ) ≤ (2 * rankUnits rank : Nat) / (10 ^ e * (2 ^ 1075 : Nat)) + 1 := by
  have floor : ∀ n : Nat, n ≤ 2 * rankUnits rank * 10 ^ (-e).toNat / (10 ^ e.toNat * 2 ^ 1075) + 1 →
      (n : ℚ) ≤ (2 * rankUnits rank : Nat) / (10 ^ e * (2 ^ 1075 : Nat)) + 1 := by
    intro n bound
    have quotient : ((2 * rankUnits rank * 10 ^ (-e).toNat / (10 ^ e.toNat * 2 ^ 1075) : Nat) : ℚ)
        ≤ (2 * rankUnits rank : Nat) / (10 ^ e * (2 ^ 1075 : Nat)) := by
      refine Nat.cast_div_le.trans (le_of_eq ?_)
      rw [← pow_toNat_div]
      push_cast
      field_simp
    have boundQ : (n : ℚ) ≤ ((2 * rankUnits rank * 10 ^ (-e).toNat / (10 ^ e.toNat * 2 ^ 1075) : Nat) : ℚ) + 1 := by
      exact_mod_cast bound
    linarith
  unfold onGrid? at h
  extract_lets up down scaled step quotient rest nearer other at h
  have near : nearer ≤ quotient + 1 := by
    dsimp only [nearer]
    split <;> omega
  have next : other ≤ quotient + 1 := by
    dsimp only [other]
    split <;> omega
  split at h
  · cases h
    exact floor _ near
  · split at h
    · cases h
      exact floor _ next
    · cases h

theorem sought_coefficient_lt (positive : 0 < rank) : (sought rank).coefficient < 10 ^ 20 := by
  obtain ⟨k, -, within, found⟩ := Basin.search_first (Basin.ofRank rank) _ 17 0 (Nat.succ_pos 16) (by decide)
    (onGrid?_seventeen positive)
  change _ = some (sought rank) at found
  have bound := Basin.onGrid?_coefficient_le found
  have below := lt_pow_magnitude (2 * rankUnits rank) (Nat.two_pow_pos 1075)
  generalize magnitude (2 * rankUnits rank) (2 ^ 1075) = m at *
  have digits : ((2 * rankUnits rank : Nat) : ℚ) / (10 ^ (m - (k : Int)) * (2 ^ 1075 : Nat)) < 10 ^ k := by
    rw [div_lt_iff₀ (by positivity), ← mul_assoc, ← zpow_natCast, ← zpow_add₀ (by norm_num),
      show (k : Int) + (m - k) = m by omega]
    exact below
  have most : (10 : ℚ) ^ k ≤ 10 ^ 17 := pow_le_pow_right₀ (by norm_num) within
  have total : ((sought rank).coefficient : ℚ) < 10 ^ 17 + 1 := by linarith
  have whole : (sought rank).coefficient < 10 ^ 17 + 1 := by exact_mod_cast total
  omega

theorem strip_last (positive : 0 < d.coefficient) (small : d.coefficient < 10 ^ fuel) :
    (strip fuel d).coefficient % 10 ≠ 0 := by
  induction fuel generalizing d with
  | zero => omega
  | succ fuel ih =>
    rw [strip]
    split
    · apply ih
      · change 0 < d.coefficient / 10
        omega
      · change d.coefficient / 10 < 10 ^ fuel
        rw [Nat.pow_succ] at small
        omega
    · omega

theorem coefficient_pos_of_strip (positive : 0 < (strip fuel d).coefficient) : 0 < d.coefficient := by
  induction fuel generalizing d with
  | zero => exact positive
  | succ fuel ih =>
    rw [strip] at positive
    split at positive
    · omega
    · exact positive

theorem shortest_last (positive : 0 < rank) : (shortest rank).coefficient % 10 ≠ 0 := by
  have some := (shortest_roundsTo positive).coefficient_pos positive
  rw [shortest_eq] at some ⊢
  exact strip_last (coefficient_pos_of_strip some) (sought_coefficient_lt positive)

theorem digits_ends (last : d.coefficient % 10 ≠ 0) :
    d.digits.head? ≠ some '0' ∧ d.digits.getLast? ≠ some '0' := by
  constructor
  · obtain ⟨first, more, shape, nonzero⟩ := Numeral.head_toDigits (n := d.coefficient) (by omega)
    rw [digits, shape]
    simpa using nonzero
  · have nonzero : ∀ m < 10, m ≠ 0 → m.digitChar ≠ '0' := by decide
    rw [digits, Nat.toDigits_eq_if (by decide)]
    split
    · rename_i small
      simpa using nonzero _ small (by omega)
    · simpa using nonzero _ (Nat.mod_lt _ (by decide)) last

end Decimal

namespace Numeral

/-- The digits of a written numeral without the zeros at both ends, and where the point stands: the number is
`0.digits * 10 ^ point`. -/
def significand (t : Text) : Text × Int :=
  let mantissa := t.takeWhile (· != ofChar 'e')
  let exponent := (t.dropWhile (· != ofChar 'e')).drop 1
  let whole := mantissa.takeWhile (· != ofChar '.')
  let combined := whole ++ (mantissa.dropWhile (· != ofChar '.')).drop 1
  let significant := combined.dropWhile isZero
  let shift := if exponent.isEmpty then 0 else (readInteger? 10 exponent).getD 0
  (Text.trimRight isZero significant, whole.length + shift - (combined.length - significant.length))

section Significand

variable {ds : List Char}

theorem isDigitOf_digitText (digits : IsDigits ds) : ∀ c ∈ digitText ds, c.isDigitOf 10 := by
  intro c member
  obtain ⟨d, hd, rfl⟩ := mem_map.1 member
  rw [@CodePoint.isDigitOf_eq_isBetween 10 _ '9' rfl (by decide)]
  exact isDigit_ofChar (digits d hd)

theorem positional_digitText (digits : IsDigits ds) : positional 10 (digitText ds) = digitsValue (digitText ds) := by
  refine foldl_ext _ _ _ fun n c member => ?_
  obtain ⟨d, hd, rfl⟩ := mem_map.1 member
  have digit : (ofChar d).isDigit = true := isDigit_ofChar (digits d hd)
  rw [decimalValue?_ofChar (digits d hd), CodePoint.digit, CodePoint.digitValue?, if_pos digit]
  rfl

theorem readInteger?_exponent (digits : IsDigits ds) (some : ds ≠ []) (short : ds.length ≤ digitLimit) (negative : Bool) :
    readInteger? 10 ((if negative then "-" else "+" : Text) ++ digitText ds)
      = .some (if negative then -(digitsValue (digitText ds) : Int) else digitsValue (digitText ds)) := by
  have valid := isDigitOf_digitText digits
  have visible : ((if negative then "-" else "+" : Text) ++ digitText ds).trim CodePoint.isBlank
      = (if negative then "-" else "+" : Text) ++ digitText ds := by
    refine Text.trim_eq_self fun c member => ?_
    rcases mem_append.1 member with sign | member
    · cases negative with
      | false => exact (by decide : ∀ c ∈ ("+" : Text), c.isBlank = false) c sign
      | true => exact (by decide : ∀ c ∈ ("-" : Text), c.isBlank = false) c sign
    · exact CodePoint.isBlank_of_isDigitOf (valid c member)
  have sign : readSign ((if negative then "-" else "+" : Text) ++ digitText ds) = (negative, digitText ds) := by
    cases negative <;> rfl
  have values := readDigits?_digits valid (mt map_eq_nil_iff.1 some)
  have few : ¬(digitLimit < ((digitText ds).map CodePoint.digit).length ∧ 10 ∉ [2, 4, 8, 16, 32]) := by
    rw [length_map, digitText, length_map]
    omega
  rw [readInteger?, visible, sign]
  dsimp only
  rw [show dropRadixMark 10 (digitText ds) = digitText ds from rfl, values]
  dsimp only
  rw [if_neg few, foldl_map, ← positional_digitText digits]
  rfl

theorem takeWhile_before {p : CodePoint → Bool} {t rest : Text} {c : CodePoint} (clear : ∀ x ∈ t, p x = true) (stop : p c = false) :
    (t ++ c :: rest).takeWhile p = t ∧ (t ++ c :: rest).dropWhile p = c :: rest := by
  have neg : ¬p c = true := by simp [stop]
  rw [takeWhile_append_of_pos clear, dropWhile_append_of_pos clear, takeWhile_cons_of_neg neg,
    dropWhile_cons_of_neg neg, append_nil]
  exact ⟨rfl, rfl⟩

theorem cut_exponent (numeral : l.IsNumeral) :
    l.text.takeWhile (· != ofChar 'e') = digitText l.whole ++ l.fractionText ∧
      l.text.dropWhile (· != ofChar 'e') = l.exponentText := by
  have other : ∀ {d : Char}, d.isDigit = true → (ofChar d != 'e') = true :=
    fun digit => bne_iff_ne.2 (Layout.ne_of_isDigit digit rfl)
  have clear : ∀ x ∈ digitText l.whole ++ l.fractionText, (x != 'e') = true := by
    intro x member
    rcases mem_append.1 member with member | member
    · obtain ⟨d, hd, rfl⟩ := mem_map.1 member
      exact other (numeral.whole d hd)
    · rw [Layout.fractionText] at member
      split at member
      · cases member
      · rcases mem_append.1 member with point | member
        · exact (by decide : ∀ x ∈ ("." : Text), (x != 'e') = true) x point
        · obtain ⟨d, hd, rfl⟩ := mem_map.1 member
          exact other (numeral.fraction d hd)
  rw [Layout.text, ← append_assoc, Layout.exponentText]
  cases l.exponent with
  | none => rw [append_nil, takeWhile_eq_self_iff.2 clear, dropWhile_eq_nil_iff.2 clear]; exact ⟨rfl, rfl⟩
  | some e => exact takeWhile_before clear rfl

theorem cut_point (numeral : l.IsNumeral) :
    (digitText l.whole ++ l.fractionText).takeWhile (· != ofChar '.') = digitText l.whole ∧
      ((digitText l.whole ++ l.fractionText).dropWhile (· != ofChar '.')).drop 1 = digitText l.fraction := by
  have clear : ∀ x ∈ digitText l.whole, (x != '.') = true := by
    intro x member
    obtain ⟨d, hd, rfl⟩ := mem_map.1 member
    exact bne_iff_ne.2 (Layout.ne_of_isDigit (numeral.whole d hd) rfl)
  rw [Layout.fractionText]
  split
  · rename_i none
    rw [append_nil, takeWhile_eq_self_iff.2 clear, dropWhile_eq_nil_iff.2 clear, none]
    exact ⟨rfl, rfl⟩
  · obtain ⟨before, after⟩ := @takeWhile_before _ _ (digitText l.fraction) (ofChar '.') clear rfl
    exact ⟨before, congrArg (List.drop 1) after⟩

theorem shift_exponentText (numeral : l.IsNumeral)
    (short : ∀ negative ds, l.exponent = some (negative, ds) → ds.length ≤ digitLimit) :
    (if (l.exponentText.drop 1).isEmpty then 0 else (readInteger? 10 (l.exponentText.drop 1)).getD 0) = l.shownExponent := by
  have valid := numeral.exponent
  rw [Layout.exponentText, Layout.shownExponent]
  cases shape : l.exponent with
  | none => rfl
  | some e =>
    obtain ⟨negative, ds⟩ := e
    obtain ⟨isDigits, some⟩ := valid negative ds shape
    have signed : (((if negative then "-" else "+" : Text) ++ digitText ds).isEmpty) = false := by
      cases negative <;> rfl
    change (if ((if negative then "-" else "+" : Text) ++ digitText ds).isEmpty then 0
      else (readInteger? 10 ((if negative then "-" else "+" : Text) ++ digitText ds)).getD 0) = _
    rw [signed, if_neg Bool.false_ne_true, readInteger?_exponent isDigits some (short negative ds shape)]
    rfl

theorem trimRight_zeros (last : ds.getLast? ≠ some '0') (n : Nat) :
    Text.trimRight isZero (digitText (ds ++ List.replicate n '0')) = digitText ds := by
  have zeros : ∀ c ∈ List.replicate n (ofChar '0'), isZero c = true := by
    intro c member
    rw [eq_of_mem_replicate member]
    rfl
  have kept : Stops isZero (digitText ds).reverse := by
    intro c head
    rw [head?_reverse, digitText, getLast?_map] at head
    obtain ⟨d, found, rfl⟩ := Option.map_eq_some_iff.1 head
    refine beq_eq_false_iff_ne.2 fun same => last ?_
    rw [found, CodePoint.ofChar_injective same]
  rw [digitText, map_append, map_replicate, Text.trimRight, reverse_append, reverse_replicate,
    dropWhile_append_of_pos zeros]
  change (((digitText ds).reverse).dropWhile isZero).reverse = digitText ds
  rw [kept.dropWhile, reverse_reverse]

theorem dropWhile_zeros (first : ds.head? ≠ some '0') (n : Nat) :
    (digitText (List.replicate n '0' ++ ds)).dropWhile isZero = digitText ds := by
  have zeros : ∀ c ∈ List.replicate n (ofChar '0'), isZero c = true := by
    intro c member
    rw [eq_of_mem_replicate member]
    rfl
  have kept : Stops isZero (digitText ds) := by
    intro c head
    rw [digitText, head?_map] at head
    obtain ⟨d, found, rfl⟩ := Option.map_eq_some_iff.1 head
    refine beq_eq_false_iff_ne.2 fun same => first ?_
    rw [found, CodePoint.ofChar_injective same]
  rw [digitText, map_append, map_replicate, dropWhile_append_of_pos zeros]
  exact kept.dropWhile

theorem significand_text (numeral : l.IsNumeral)
    (short : ∀ negative ds, l.exponent = some (negative, ds) → ds.length ≤ digitLimit) {a b : Nat}
    (shape : l.whole ++ l.fraction = List.replicate a '0' ++ (ds ++ List.replicate b '0')) (nonempty : ds ≠ [])
    (first : ds.head? ≠ some '0') (last : ds.getLast? ≠ some '0') :
    significand l.text = (digitText ds, l.whole.length + l.shownExponent - a) := by
  obtain ⟨mantissa, exponent⟩ := cut_exponent numeral
  obtain ⟨whole, fraction⟩ := cut_point numeral
  have combined : digitText l.whole ++ digitText l.fraction = digitText (List.replicate a '0' ++ (ds ++ List.replicate b '0')) := by
    rw [← shape, digitText, digitText, digitText, map_append]
  have head : (ds ++ List.replicate b '0').head? ≠ some '0' := by
    rwa [head?_append_of_ne_nil ds nonempty]
  unfold significand
  dsimp only
  rw [mantissa, exponent, whole, fraction, combined, dropWhile_zeros head, trimRight_zeros last, shift_exponentText numeral short]
  refine Prod.ext rfl ?_
  simp only [digitText, length_map, length_append, length_replicate]
  omega

end Significand

theorem radixLiteral?_unmarked {zero : CodePoint} {rest : Text}
    (plain : zero ≠ '0' ∨ ∀ mark ∈ rest.head?, mark ∉ ("xXoObB" : Text)) : radixLiteral? (zero :: rest) = none := by
  refine Option.eq_none_iff_forall_not_mem.2 fun literal read => ?_
  obtain ⟨mark, member, shape, -⟩ := radixLiteral?_iff.1 (Option.mem_def.1 read)
  obtain ⟨rfl, rfl⟩ := List.cons.inj shape
  have other := plain.resolve_left (fun nonzero => nonzero rfl) _ rfl
  exact other ((by decide : ∀ entry ∈ radixMarks, ofChar entry.1 ∈ ("xXoObB" : Text)) _ member)

theorem radixLiteral?_signed (numeral : l.IsNumeral) (negative : Bool) :
    radixLiteral? (signText negative ++ l.text) = none := by
  cases negative with
  | true => exact radixLiteral?_unmarked (.inl (by decide))
  | false =>
    rw [signText, if_neg Bool.false_ne_true, nil_append, Layout.text]
    rcases numeral.leading with zero | ⟨d, ds, shape, nonzero⟩
    · -- after a leading zero there is nothing, a point or an exponent
      rw [zero]
      refine radixLiteral?_unmarked (.inr fun mark head => ?_)
      change mark ∈ (l.fractionText ++ l.exponentText).head? at head
      rw [Layout.fractionText, Layout.exponentText] at head
      split at head
      · cases shape : l.exponent with
        | none =>
          rw [shape] at head
          cases head
        | some e =>
          rw [shape] at head
          cases head
          decide
      · cases head
        decide
    · rw [shape]
      exact radixLiteral?_unmarked (.inl fun same => nonzero (CodePoint.ofChar_injective same))

/-- The conversion of a numeral gives the double nearest to what it shows. -/
theorem stringToNumber_signed (numeral : l.IsNumeral) (negative : Bool) :
    stringToNumber (signText negative ++ l.text) = .ok (.ofDecimal negative l.decimal.coefficient l.decimal.exponent) := by
  obtain ⟨d, digit, more, shape⟩ := Layout.head_text numeral
  have visible : (signText negative ++ l.text).isEmpty = false := by
    rw [shape]
    cases negative <;> rfl
  have finite : Text.startsWith l.text "Infinity" = false := by
    refine Bool.eq_false_iff.2 fun word => ?_
    obtain ⟨rest, same⟩ := List.isPrefixOf_iff_prefix.1 word
    rw [shape] at same
    exact Layout.ne_of_isDigit digit rfl (List.cons.inj same).1.symm
  rw [stringToNumber, Layout.trim_signed (by decide) (by decide) numeral, visible, if_neg Bool.false_ne_true, radixLiteral?_signed numeral, readDecimal?, Layout.readSign_signed numeral]
  dsimp only
  rw [finite, if_neg Bool.false_ne_true, Layout.readUnsigned?_text numeral]
  rfl

end Numeral

namespace NumberStyle

open Numeral

variable {style : NumberStyle} {d : Decimal}

theorem length_exponentDigits_le (width : style.exponentWidth ≤ digitLimit) {exponent : Int} (small : exponent.natAbs < 1000) :
    (style.exponentDigits exponent).length ≤ digitLimit := by
  have few : (Nat.toDigits 10 exponent.natAbs).length ≤ 3 := (Nat.length_toDigits_le_iff (by decide) (by decide)).2 small
  have limit : digitLimit = 4300 := rfl
  rw [exponentDigits, length_append, length_replicate]
  omega

/-- The digits of a decimal and the place of its point can be taken from its text in any style. -/
theorem significand_layout (width : style.exponentWidth ≤ digitLimit) (last : d.coefficient % 10 ≠ 0)
    (near : -400 ≤ d.point ∧ d.point ≤ 400) : significand (style.layout d).text = (digitText d.digits, d.point) := by
  have numeral : (style.layout d).IsNumeral := isNumeral_layout (by omega)
  have nonempty : d.digits ≠ [] := Nat.toDigits_ne_nil
  have point : d.point = d.digits.length + d.exponent := rfl
  have length : 0 < d.digits.length := Nat.length_toDigits_pos
  obtain ⟨first, final⟩ := Decimal.digits_ends last
  have short : ∀ negative ds, (style.layout d).exponent = some (negative, ds) → ds.length ≤ digitLimit := by
    intro negative ds shown
    unfold layout at shown
    split at shown
    · split at shown
      · cases shown
      · split at shown <;> cases shown
    · cases shown
      exact length_exponentDigits_le width (by omega)
  -- the digits stand between zeros: none before a whole number, those after the point before a small one
  have found : ∃ a b, (style.layout d).whole ++ (style.layout d).fraction
      = List.replicate a '0' ++ (d.digits ++ List.replicate b '0')
      ∧ (style.layout d).whole.length + (style.layout d).shownExponent - a = d.point := by
    unfold layout
    split
    · split
      · obtain ⟨k, mark⟩ : ∃ k, (if style.wholeMark = [] then [] else ['0']) = List.replicate k '0' := by
          split
          · exact ⟨0, rfl⟩
          · exact ⟨1, rfl⟩
        refine ⟨0, d.exponent.toNat + k, ?_, ?_⟩
        · rw [mark, ← replicate_append_replicate, append_assoc]
          rfl
        · change ((d.digits ++ List.replicate d.exponent.toNat '0').length : Int) + 0 - 0 = d.point
          rw [length_append, length_replicate]
          omega
      · split
        · refine ⟨0, 0, by rw [take_append_drop, replicate_zero, append_nil]; rfl, ?_⟩
          change ((d.digits.take d.point.toNat).length : Int) + 0 - 0 = d.point
          rw [length_take]
          omega
        · refine ⟨1 + (-d.point).toNat, 0, ?_, ?_⟩
          · rw [← replicate_append_replicate, replicate_zero, append_nil, append_assoc]
            rfl
          · change (1 : Int) + 0 - (1 + (-d.point).toNat : Nat) = d.point
            omega
    · refine ⟨0, 0, by rw [take_append_drop, replicate_zero, append_nil]; rfl, ?_⟩
      rw [length_take, shownExponent_exponentDigits]
      omega
  obtain ⟨a, b, shape, place⟩ := found
  rw [significand_text numeral short shape nonempty first final, place]

section Texts

variable {rank : Fin (0x7ff0000000000000 + 1)}

theorem text_eq_layout (plain : style.IsPlain) (positive : 0 < rank.val) (finite : rank.val < Double.infinityRank) (negative : Bool) :
    style.text (.signed negative rank) = signText negative ++ (style.layout (.shortest rank.val)).text := by
  rw [text, if_neg (Nat.ne_of_gt positive), if_neg (Nat.ne_of_lt finite), decimalText_eq plain]
  rfl

/-- Reading the notation of the shortest decimal gives the number back. -/
theorem ofDecimal_layout (positive : 0 < rank.val) (negative : Bool) :
    Double.ofDecimal negative (style.layout (.shortest rank.val)).decimal.coefficient
      (style.layout (.shortest rank.val)).decimal.exponent = .signed negative rank := by
  have same : (style.layout (.shortest rank.val)).decimal.RoundsTo rank.val := by
    rw [Decimal.RoundsTo, value_layout]
    exact Decimal.shortest_roundsTo positive
  rw [same.ofDecimal_eq, Double.ofRank_val]

theorem value_digits (d : Decimal) : (Nat.ofDigitChars 10 d.digits 0 : ℚ) / 10 ^ d.digits.length * 10 ^ d.point = d.value := by
  have scale : (10 : ℚ) ^ d.digits.length ≠ 0 := by positivity
  rw [Decimal.digits, Nat.ofDigitChars_toDigits (by decide) (by decide), Decimal.value, Decimal.point, zpow_add₀ (by norm_num),
    zpow_natCast]
  rw [Decimal.digits] at scale ⊢
  field_simp

theorem exponent_layout_of_near (near : style.above < d.point ∧ d.point ≤ style.upTo) : (style.layout d).exponent = none := by
  rw [layout, if_pos near]
  split
  · rfl
  · split <;> rfl

theorem exponent_layout_of_far (far : ¬(style.above < d.point ∧ d.point ≤ style.upTo)) :
    (style.layout d).exponent.isSome ∧ (style.layout d).shownExponent = d.point - 1 := by
  rw [layout, if_neg far]
  exact ⟨rfl, shownExponent_exponentDigits ..⟩

/-- Every finite number other than zero is written exactly. Its digits and the place of its point, which are those
of the text that messages show, have no zero at either end; the script's text denotes what the text of messages
denotes, shows an exponent only outside of the range from a millionth to ten to the twenty-first, and both are
read back as the number. -/
theorem text_exact (positive : 0 < rank.val) (finite : rank.val < Double.infinityRank) (negative : Bool) :
    ∃ given written : Layout, given.IsNumeral ∧ written.IsNumeral
      ∧ message.text (.signed negative rank) = signText negative ++ given.text
      ∧ readDouble? (message.text (.signed negative rank)) = some (.signed negative rank)
      ∧ significand (message.text (.signed false rank))
          = (digitText (Decimal.shortest rank.val).digits, (Decimal.shortest rank.val).point)
      ∧ (Decimal.shortest rank.val).digits ≠ []
      ∧ (Decimal.shortest rank.val).digits.head? ≠ some '0' ∧ (Decimal.shortest rank.val).digits.getLast? ≠ some '0'
      ∧ (Nat.ofDigitChars 10 (Decimal.shortest rank.val).digits 0 : ℚ) / 10 ^ (Decimal.shortest rank.val).digits.length
          * 10 ^ (Decimal.shortest rank.val).point = given.value
      ∧ script.text (.signed negative rank) = signText negative ++ written.text
      ∧ written.value = given.value
      ∧ (-6 < (Decimal.shortest rank.val).point ∧ (Decimal.shortest rank.val).point ≤ 21 → written.exponent = none)
      ∧ (¬(-6 < (Decimal.shortest rank.val).point ∧ (Decimal.shortest rank.val).point ≤ 21) →
          written.exponent.isSome ∧ written.shownExponent = (Decimal.shortest rank.val).point - 1)
      ∧ stringToNumber (script.text (.signed negative rank)) = .ok (.signed negative rank) := by
  have rounds := Decimal.shortest_roundsTo positive
  have last := Decimal.shortest_last positive
  obtain ⟨first, final⟩ := Decimal.digits_ends last
  have numeral (style : NumberStyle) : (style.layout (.shortest rank.val)).IsNumeral :=
    isNumeral_layout (rounds.coefficient_pos positive)
  have exact (style : NumberStyle) : (style.layout (.shortest rank.val)).value = (Decimal.shortest rank.val).value := by
    rw [← (numeral style).value_decimal, value_layout]
  have given := text_eq_layout isPlain_message positive finite
  have written := text_eq_layout isPlain_script positive finite
  refine ⟨message.layout (.shortest rank.val), script.layout (.shortest rank.val), numeral message, numeral script, given negative,
    ?_, ?_, Nat.toDigits_ne_nil, first, final, ?_, written negative, ?_, fun near => ?_, fun far => ?_, ?_⟩
  · rw [given, Layout.readDouble?_signed (numeral message), ofDecimal_layout positive]
  · rw [given, signText, if_neg Bool.false_ne_true, List.nil_append]
    exact significand_layout (by decide) last (rounds.point_bounds positive finite)
  · rw [value_digits, exact]
  · rw [exact, exact]
  · exact @exponent_layout_of_near script _ near
  · exact @exponent_layout_of_far script _ far
  · rw [written, stringToNumber_signed (numeral script), ofDecimal_layout positive]

/-- The smallest number, negated: `-5e-324`. -/
theorem text_exact_smallest :
    ∃ given written : Layout, given.IsNumeral ∧ written.IsNumeral
      ∧ message.text (.signed true 1) = signText true ++ given.text
      ∧ script.text (.signed true 1) = signText true ++ written.text ∧ written.value = given.value
      ∧ stringToNumber (script.text (.signed true 1)) = .ok (.signed true 1) := by
  obtain ⟨given, written, numeral, numeral', shown, -, -, -, -, -, -, text, same, -, -, read⟩ :=
    @text_exact 1 (by decide) (by decide) true
  exact ⟨given, written, numeral, numeral', shown, text, same, read⟩

end Texts

end NumberStyle

end Unravel
