import Unravel.Proofs.Outcome
import Unravel.Value.Operate

/-! How conversions and operators end on the values of the algebra. Conversions to text and to numbers always succeed, and
   operators fail in their own job only. The digits that integers are parsed from can be refused for one reason: a
   Kelvin sign is among them. -/
namespace Unravel

open Outcome List

variable {base : Nat} {digits : Text} {E : Fault → Prop}

namespace CodePoint

/-- A digit of a base, letters of either case counting from ten. -/
def isDigitOf (base : Nat) (c : CodePoint) : Bool := c.digitValue?.any (decide <| · < base)

/-- The value of a digit. -/
def digit (c : CodePoint) : Nat := c.digitValue?.getD 0

variable {base : Nat} {c : CodePoint}

theorem digitValue?_of_isDigitOf (h : c.isDigitOf base) : ∃ v, c.digitValue? = some v ∧ v < base := by
  rw [isDigitOf, Option.any_eq_true] at h
  obtain ⟨v, value, small⟩ := h
  exact ⟨v, value, of_decide_eq_true small⟩

theorem toNat_of_isDigitOf (h : c.isDigitOf base) :
    48 ≤ c.toNat ∧ c.toNat ≤ 57 ∨ 97 ≤ c.toNat ∧ c.toNat ≤ 122 ∨ 65 ≤ c.toNat ∧ c.toNat ≤ 90 := by
  obtain ⟨v, value, -⟩ := digitValue?_of_isDigitOf h
  rw [digitValue?] at value
  split at value
  next digit => exact .inl (by simpa [isDigit, isBetween] using digit)
  next =>
    split at value
    next lower => exact .inr (.inl (by simpa [isLower, isBetween] using lower))
    next =>
      split at value
      next upper => exact .inr (.inr (by simpa [isUpper, isBetween] using upper))
      next => cases value

theorem isBlank_of_isDigitOf (h : c.isDigitOf base) : c.isBlank = false := by
  have range := toNat_of_isDigitOf h
  simp only [isBlank, contains_eq_mem, mem_cons, not_mem_nil, Bool.or_eq_false_iff, Bool.and_eq_false_iff,
    decide_eq_false_iff_not, or_false, not_or]
  omega

theorem isDigitOf_sixteen : c.isDigitOf 16 = c.isHexDigit := by
  rw [Bool.eq_iff_iff]
  simp only [isHexDigit, isDigitOf, digitValue?, isDigit, isLower, isUpper, isBetween, Bool.or_eq_true, Bool.and_eq_true,
    decide_eq_true_eq]
  simp only [Char.reduceToNat]
  split_ifs <;> simp only [Option.any_some, Option.any_none, decide_eq_true_eq, Bool.false_eq_true, false_iff] <;> omega

theorem isDigitOf_eq_isBetween {high : Char} (last : high.toNat + 1 = '0'.toNat + base) (decimal : base ≤ 10) :
    c.isDigitOf base = c.isBetween '0' high := by
  rw [Bool.eq_iff_iff]
  simp only [isDigitOf, digitValue?, isDigit, isLower, isUpper, isBetween, Bool.and_eq_true, decide_eq_true_eq]
  simp only [Char.reduceToNat] at last ⊢
  split_ifs <;> simp only [Option.any_some, Option.any_none, decide_eq_true_eq, Bool.false_eq_true, false_iff] <;> omega

end CodePoint

section RadixDigits

variable {base : Nat} {c : CodePoint}

theorem isDigitOf_or_kelvin (h : isRadixDigit base c) :
    c.isDigitOf base ∨ c.toNat = 0x212a ∧ 20 < base := by
  rw [isRadixDigit, Bool.or_eq_true, Bool.and_eq_true, beq_iff_eq, decide_eq_true_eq] at h
  refine h.imp_left fun digit => ?_
  rw [CodePoint.isDigitOf]
  cases value : c.digitValue? with
  | none => simp [value] at digit
  | some v => simpa [value] using digit

theorem isRadixDigit_of_isDigitOf (h : c.isDigitOf base) : isRadixDigit base c := by
  obtain ⟨v, value, small⟩ := CodePoint.digitValue?_of_isDigitOf h
  rw [isRadixDigit, value, Bool.or_eq_true, decide_eq_true_eq]
  exact .inl small

theorem isBlank_of_isRadixDigit (h : isRadixDigit base c) : c.isBlank = false := by
  rcases isDigitOf_or_kelvin h with digit | ⟨kelvin, -⟩
  · exact CodePoint.isBlank_of_isDigitOf digit
  · rw [CodePoint.isBlank, kelvin]
    rfl

theorem ne_of_isRadixDigit (h : isRadixDigit base c) {d : CodePoint} (outside : isRadixDigit base d = false) : c ≠ d := by
  rintro rfl
  rw [h] at outside
  cases outside

end RadixDigits

theorem Text.trim_eq_self {p : CodePoint → Bool} {t : Text} (h : ∀ c ∈ t, p c = false) : t.trim p = t := by
  have keeps : ∀ {s : Text}, (∀ c ∈ s, p c = false) → s.dropWhile p = s := by
    intro s hs
    cases s with
    | nil => rfl
    | cons c rest => rw [dropWhile_cons, hs c (.head _), if_neg (by decide)]
  rw [Text.trim, Text.trimLeft, keeps h, Text.trimRight, keeps fun c hc => h c (mem_reverse.mp hc),
    reverse_reverse]

namespace Numeral

def isZero (c : CodePoint) : Bool := c == '0'

/-- The number that digits of a base denote, most significant first. -/
def positional (base : Nat) (t : Text) : Nat := t.foldl (fun n c => n * base + c.digit) 0

variable {base : Nat} {t : Text}

theorem radixValue?_digit {c : CodePoint} (h : c.isDigitOf base) : radixValue? base c = some c.digit := by
  obtain ⟨v, value, small⟩ := CodePoint.digitValue?_of_isDigitOf h
  rw [radixValue?, CodePoint.digit, value]
  exact if_pos small

theorem readDigits?_digits (digits : ∀ c ∈ t, c.isDigitOf base) (some : t ≠ []) : readDigits? base t = .some (t.map CodePoint.digit) := by
  induction t with
  | nil => exact absurd rfl some
  | cons c rest ih =>
    have value := radixValue?_digit (digits c (.head _))
    cases rest with
    | nil => rw [readDigits?, value]; rfl
    | cons d more =>
      have others : ∀ c ∈ d :: more, c.isDigitOf base := fun c hc => digits c (.tail _ hc)
      rw [readDigits?, value]
      dsimp only
      rw [if_neg (ne_of_isRadixDigit (isRadixDigit_of_isDigitOf (others d (.head _))) rfl),
        ih others (cons_ne_nil d more)]
      rfl

theorem dropRadixMark_of_head (h : t.head? ≠ some (ofChar '0')) : dropRadixMark base t = t := by
  cases t with
  | nil => cases mark : radixMark? base <;> simp [dropRadixMark, mark]
  | cons c rest =>
    have nonzero : c ≠ '0' := fun same => h (congrArg some same)
    cases mark : radixMark? base with
    | none => simp [dropRadixMark, mark]
    | some m =>
      cases rest with
      | nil => simp [dropRadixMark, mark]
      | cons d more => simp [dropRadixMark, mark, nonzero]

theorem head?_significant : (t.dropWhile isZero).head? ≠ some (ofChar '0') := by
  intro head
  have kept := head?_dropWhile_not isZero t
  rw [head] at kept
  exact absurd kept (by decide)

theorem readInteger?_plain (plain : ∀ c ∈ t, isRadixDigit base c) (significant : t.head? ≠ some (ofChar '0')) :
    readInteger? base t = (readDigits? base t).bind fun digits =>
      if digitLimit < digits.length ∧ base ∉ [2, 4, 8, 16, 32] then none
      else some ((digits.foldl (fun n v => n * base + v) 0 : Nat) : Int) := by
  have visible : t.trim CodePoint.isBlank = t := Text.trim_eq_self fun c hc => isBlank_of_isRadixDigit (plain c hc)
  have unsigned : readSign t = (false, t) := by
    cases t with
    | nil => rfl
    | cons c rest =>
      have here := plain c (.head _)
      rw [readSign, if_neg (ne_of_isRadixDigit here rfl), if_neg (ne_of_isRadixDigit here rfl)]
  rw [readInteger?, visible, unsigned]
  dsimp only
  rw [dropRadixMark_of_head significant]
  cases readDigits? base t <;> rfl

/-- Digits without a leading zero are read as the number that they denote, if they are few enough or the base is a power
of two. -/
theorem readInteger?_digits (digits : ∀ c ∈ t, c.isDigitOf base) (some : t ≠ [])
    (significant : t.head? ≠ .some (ofChar '0')) :
    readInteger? base t = if digitLimit < t.length ∧ base ∉ [2, 4, 8, 16, 32] then none else .some (positional base t : Int) := by
  rw [readInteger?_plain (fun c hc => isRadixDigit_of_isDigitOf (digits c hc)) significant, readDigits?_digits digits some,
    Option.bind_some, length_map, foldl_map]
  rfl

end Numeral

theorem ends_digitsToNumber (some : digits ≠ []) :
    (digitsToNumber digits base).Ends (fun _ => True)
      fun f => ∃ read, f = .invalidDigits base read ∧ (∀ c ∈ read, c ∈ digits) ∧ ∃ c ∈ read, c.isDigitOf base = false := by
  rw [digitsToNumber, if_neg (by simpa using some)]
  change Ends (if (digits.dropWhile Numeral.isZero).isEmpty then _ else _) _ _
  refine ends_ite (fun _ => trivial) fun left => ?_
  split
  next n _ => cases (Double.ofInt n).isInfinite <;> exact True.intro
  next refused =>
    refine ends_ite (fun _ => trivial) fun short => ⟨_, rfl, fun c hc => (dropWhile_sublist Numeral.isZero).subset hc, ?_⟩
    by_contra none
    have valid : ∀ c ∈ digits.dropWhile Numeral.isZero, c.isDigitOf base := by
      intro c hc
      by_contra bad
      exact none ⟨c, hc, Bool.eq_false_iff.mpr bad⟩
    have few : ¬Numeral.digitLimit < (digits.dropWhile Numeral.isZero).length := fun long => short (Nat.lt_trans (by decide) long)
    change Numeral.readInteger? base (digits.dropWhile Numeral.isZero) = Option.none at refused
    rw [Numeral.readInteger?_digits valid (by simpa using left) Numeral.head?_significant, if_neg fun long => few long.1] at refused
    cases refused

theorem succeeds_digitsToNumber (some : digits ≠ [])
    (valid : ∀ c ∈ digits, c.isDigitOf base) : (digitsToNumber digits base).Succeeds := by
  refine (ends_digitsToNumber some).widen ?_
  rintro f ⟨read, -, inside, c, hc, bad⟩
  rw [valid c (inside c hc)] at bad
  cases bad

/-- The marks of literals of other bases. -/
def radixMarks : List (Char × Nat) := [('x', 16), ('X', 16), ('o', 8), ('O', 8), ('b', 2), ('B', 2)]

/-- A zero, a mark and digits of the base of the mark. -/
def IsRadixLiteral (t : Text) (base : Nat) (digits : Text) : Prop :=
  ∃ mark, (mark, base) ∈ radixMarks ∧ t = ofChar '0' :: ofChar mark :: digits
    ∧ digits ≠ [] ∧ ∀ c ∈ digits, c.isDigitOf base

theorem radixLiteral?_iff {t : Text} :
    radixLiteral? t = some (base, digits) ↔ IsRadixLiteral t base digits := by
  have hex (ds : Text) : ds.all CodePoint.isHexDigit = true ↔ ∀ c ∈ ds, c.isDigitOf 16 = true := by
    simp only [all_eq_true, CodePoint.isDigitOf_sixteen]
  have octal (ds : Text) : ds.all CodePoint.isOctalDigit = true ↔ ∀ c ∈ ds, c.isDigitOf 8 = true := by
    simp only [all_eq_true, @CodePoint.isDigitOf_eq_isBetween 8 _ '7' rfl (by decide)]
    rfl
  have binary (ds : Text) : ds.all (CodePoint.isBetween · '0' '1') = true ↔ ∀ c ∈ ds, c.isDigitOf 2 = true := by
    simp only [all_eq_true, @CodePoint.isDigitOf_eq_isBetween 2 _ '1' rfl (by decide)]
  constructor
  · intro h
    cases t with
    | nil => cases h
    | cons zero rest =>
      cases rest with
      | nil => cases h
      | cons mark body =>
        rw [radixLiteral?] at h
        split at h
        next => cases h
        next whole =>
          obtain rfl : zero = '0' := by
            by_contra other
            exact whole (.inl other)
          have some : body ≠ [] := fun none => whole (.inr (by rw [none]; rfl))
          split at h
          next found =>
            cases h
            obtain ⟨rfl | rfl, valid⟩ := found
            · exact ⟨'x', by decide, rfl, some, (hex _).1 valid⟩
            · exact ⟨'X', by decide, rfl, some, (hex _).1 valid⟩
          split at h
          next found =>
            cases h
            obtain ⟨rfl | rfl, valid⟩ := found
            · exact ⟨'o', by decide, rfl, some, (octal _).1 valid⟩
            · exact ⟨'O', by decide, rfl, some, (octal _).1 valid⟩
          split at h
          next found =>
            cases h
            obtain ⟨rfl | rfl, valid⟩ := found
            · exact ⟨'b', by decide, rfl, some, (binary _).1 valid⟩
            · exact ⟨'B', by decide, rfl, some, (binary _).1 valid⟩
          next => cases h
  · rintro ⟨mark, member, rfl, some, valid⟩
    have whole : ¬('0' ≠ ofChar '0' ∨ digits.isEmpty = true) := by simp [some]
    rw [radixLiteral?, if_neg whole]
    simp only [radixMarks, mem_cons, Prod.mk.injEq, not_mem_nil, or_false] at member
    rcases member with ⟨rfl, rfl⟩ | ⟨rfl, rfl⟩ | ⟨rfl, rfl⟩ | ⟨rfl, rfl⟩ | ⟨rfl, rfl⟩ | ⟨rfl, rfl⟩
    · exact if_pos ⟨.inl rfl, (hex _).2 valid⟩
    · exact if_pos ⟨.inr rfl, (hex _).2 valid⟩
    · rw [if_neg fun other => absurd other.1 (by decide)]
      exact if_pos ⟨.inl rfl, (octal _).2 valid⟩
    · rw [if_neg fun other => absurd other.1 (by decide)]
      exact if_pos ⟨.inr rfl, (octal _).2 valid⟩
    · rw [if_neg fun other => absurd other.1 (by decide), if_neg fun other => absurd other.1 (by decide)]
      exact if_pos ⟨.inl rfl, (binary _).2 valid⟩
    · rw [if_neg fun other => absurd other.1 (by decide), if_neg fun other => absurd other.1 (by decide)]
      exact if_pos ⟨.inr rfl, (binary _).2 valid⟩

theorem succeeds_stringToNumber (t : Text) : (stringToNumber t).Succeeds := by
  rw [stringToNumber]
  refine ends_ite (fun _ => trivial) fun _ => ?_
  split
  next base digits literal =>
    obtain ⟨mark, -, -, some, valid⟩ := radixLiteral?_iff.1 literal
    exact succeeds_digitsToNumber some valid
  next =>
    split
    · trivial
    · trivial

/-- The digits of an integer were refused because of a Kelvin sign, which counts as a letter of bases above twenty. -/
def Fault.blamesKelvin : Fault → Bool
  | .invalidDigits base digits => decide (20 < base) && digits.any fun c => c.toNat == 0x212a
  | _ => false

/-- How evaluation may go wrong. -/
def Fault.isOfEvaluation (f : Fault) : Bool := decide (f.category = .evaluation) || f.blamesKelvin

theorem Fault.isOfEvaluation_of_category {f : Fault} (h : f.category = .evaluation) : f.isOfEvaluation := by
  simp [isOfEvaluation, h]

theorem Fault.isOfEvaluation_of_kelvin {f : Fault} (h : f.blamesKelvin) : f.isOfEvaluation := by
  simp [isOfEvaluation, h]

namespace Value

mutual
theorem succeeds_toText : ∀ v : Value, v.isModelled → v.toText.Succeeds
  | .undefined, _ => trivial
  | .boolean _, _ => trivial
  | .number _, _ => trivial
  | .string _, _ => trivial
  | .array items, h => (succeeds_itemTexts items h).map fun _ _ => trivial
  | .null, h => by cases h

theorem succeeds_itemTexts : ∀ vs : List Value, areModelled vs → (itemTexts vs).Succeeds
  | [], _ => trivial
  | v :: rest, h => by
    rw [areModelled, Bool.and_eq_true] at h
    have others := succeeds_itemTexts rest h.2
    have here := succeeds_toText v h.1
    cases v with
    | undefined => exact others.map fun _ _ => trivial
    | _ => exact here.bind fun _ _ => others.map fun _ _ => trivial
end

variable {v l r : Value}

theorem succeeds_toNumber (h : v.isModelled) : v.toNumber.Succeeds := by
  cases v with
  | array items => exact (succeeds_toText _ h).bind fun t _ => succeeds_stringToNumber t
  | string t => exact succeeds_stringToNumber t
  | null => cases h
  | _ => trivial

theorem succeeds_toWord (h : v.isModelled) : v.toWord.Succeeds := (succeeds_toNumber h).map fun _ _ => trivial

theorem succeeds_toInt32 (h : v.isModelled) : v.toInt32.Succeeds := (succeeds_toWord h).map fun _ _ => trivial

theorem succeeds_typeName (h : v.isModelled) : v.typeName.Succeeds := by
  cases v with
  | null => cases h
  | _ => trivial

theorem ends_toPrimitive (h : v.isModelled) : v.toPrimitive.Ends (fun w => w.isModelled) E := by
  cases v with
  | array items => exact (succeeds_toText _ h).ends.map fun _ _ => rfl
  | null => cases h
  | _ => rfl

theorem succeeds_lessThan (hl : l.isModelled) (hr : r.isModelled) : (lessThan l r).Succeeds := by
  refine (ends_toPrimitive hl).bind fun a ha => (ends_toPrimitive hr).bind fun b hb => ?_
  split
  next => trivial
  next => exact (succeeds_toNumber ha).bind fun x _ => (succeeds_toNumber hb).bind fun y _ => trivial

theorem ends_sameType : (sameType l r).Ends (fun _ => True) fun f => f.category = .evaluation := by
  rw [sameType.eq_def]
  split
  · rfl
  all_goals trivial

theorem ends_strictEquals (hl : l.isModelled) (hr : r.isModelled) :
    (strictEquals l r).Ends (fun _ => True) fun f => f.category = .evaluation := by
  refine (succeeds_typeName hl).ends.bind fun s _ => (succeeds_typeName hr).ends.bind fun t _ => ?_
  exact ends_ite (fun _ => ends_sameType) fun _ => trivial

theorem ends_looseEquals (hl : l.isModelled) (hr : r.isModelled) :
    (looseEquals l r).Ends (fun _ => True) fun f => f.category = .evaluation := by
  induction n : l.conversions + r.conversions using Nat.strongRecOn generalizing l r with
  | ind n ih =>
    rw [looseEquals.eq_def]
    refine (succeeds_typeName hl).ends.bind fun s _ => (succeeds_typeName hr).ends.bind fun t _ => ?_
    refine ends_ite (fun _ => ends_strictEquals hl hr) fun _ => ?_
    split
    next => trivial
    next => trivial
    next => exact ih _ (by simp only [← n, conversions]; omega) rfl hr rfl
    next => exact ih _ (by simp only [← n, conversions]; omega) hl rfl rfl
    next =>
      refine (succeeds_toText _ hl).ends.bind fun t _ => ih _ ?_ rfl hr rfl
      simp only [← n, conversions]
      omega
    next =>
      refine (succeeds_toText _ hr).ends.bind fun t _ => ih _ ?_ hl rfl rfl
      simp only [← n, conversions]
      omega
    next => exact (succeeds_toNumber hl).ends.bind fun x _ => (succeeds_toNumber hr).ends.bind fun y _ => trivial

theorem ends_concatOrAdd (hl : l.isModelled) (hr : r.isModelled) :
    (concatOrAdd l r).Ends (fun v => v.isModelled) E := by
  refine (ends_toPrimitive hl).bind fun a ha => (ends_toPrimitive hr).bind fun b hb => ?_
  split
  next => exact (succeeds_toText _ hb).ends.map fun _ _ => rfl
  next => exact (succeeds_toText _ ha).ends.map fun _ _ => rfl
  next => exact (succeeds_toNumber ha).ends.bind fun x _ => (succeeds_toNumber hb).ends.map fun y _ => rfl

theorem ends_arithmetic (f : Double → Double → Double) (hl : l.isModelled) (hr : r.isModelled) :
    (arithmetic f l r).Ends (fun v => v.isModelled) E :=
  (succeeds_toNumber hl).ends.bind fun _ _ => (succeeds_toNumber hr).ends.map fun _ _ => rfl

theorem ends_compare (wanted : Bool) (hl : l.isModelled) (hr : r.isModelled) :
    (compare wanted l r).Ends (fun v => v.isModelled) E := (succeeds_lessThan hl hr).ends.map fun _ _ => rfl

theorem ends_bitwise (f : BitVec 32 → BitVec 32 → BitVec 32) (hl : l.isModelled) (hr : r.isModelled) :
    (bitwise f l r).Ends (fun v => v.isModelled) E :=
  (succeeds_toWord hl).ends.bind fun _ _ => (succeeds_toWord hr).ends.map fun _ _ => rfl

theorem ends_binary (op : BinaryOp) (hl : l.isModelled) (hr : r.isModelled) :
    (binary op l r).Ends (fun v => v.isModelled) fun f => f.category = .evaluation := by
  cases op with
  | add => exact ends_concatOrAdd hl hr
  | sub | mul | div | rem | pow => exact ends_arithmetic _ hl hr
  | less | greaterEq => exact ends_compare _ hl hr
  | greater | lessEq => exact ends_compare _ hr hl
  | looseEq | looseNe => exact (ends_looseEquals hl hr).map fun _ _ => rfl
  | strictEq | strictNe => exact (ends_strictEquals hl hr).map fun _ _ => rfl
  | bitAnd | bitOr | bitXor | shiftLeft | shiftRight => exact ends_bitwise _ hl hr
  | shiftRightZero => exact (succeeds_toWord hl).ends.bind fun _ _ => (succeeds_toWord hr).ends.map fun _ _ => rfl
  | logicalAnd | logicalOr | nullish | membership | instanceOf | other => rfl

theorem ends_unary (op : UnaryOp) (h : v.isModelled) :
    (unary op v).Ends (fun v => v.isModelled) fun f => f.category = .evaluation := by
  cases op with
  | minus | plus => exact (succeeds_toNumber h).ends.map fun _ _ => rfl
  | bitNot => exact (succeeds_toWord h).ends.map fun _ _ => rfl
  | typeOf => exact (succeeds_typeName h).ends.map fun _ _ => rfl
  | not | void | delete | other => rfl

end Value

theorem ends_parseInt {v radix : Value} (hv : v.isModelled) (hr : radix.isModelled) :
    (parseInt v radix).Ends (fun _ => True) fun f => f.blamesKelvin := by
  refine (Value.succeeds_toText v hv).ends.bind fun t _ => ?_
  dsimp only
  refine (Value.succeeds_toInt32 hr).ends.bind fun r _ => ?_
  split
  next => trivial
  next base rest _ =>
    refine ends_ite (fun _ => trivial) fun some => ?_
    refine Ends.bind (P := fun _ => True) ?_ fun _ _ => trivial
    refine (ends_digitsToNumber (by simpa using some)).widen ?_
    rintro f ⟨read, rfl, inside, c, hc, bad⟩
    have taken := all_eq_true.mp all_takeWhile c (inside c hc)
    obtain ⟨kelvin, large⟩ := (isDigitOf_or_kelvin taken).resolve_left (by simp [bad])
    simp only [Fault.blamesKelvin, large, decide_true, Bool.true_and, any_eq_true, beq_iff_eq]
    exact ⟨c, hc, kelvin⟩

theorem succeeds_parseFloat {v : Value} (h : v.isModelled) : (parseFloat v).Succeeds := by
  refine (Value.succeeds_toText v h).bind fun t _ => ?_
  split
  next => trivial
  next => trivial

end Unravel
