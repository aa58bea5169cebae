import Unravel.Datum.Read
import Unravel.Proofs.Decimal.Literal
import Unravel.Proofs.Value.Conversion

/-! Numerals and their readers. A numeral has whole digits, perhaps a fraction, perhaps an exponent; a reader
   that meets one before a character that continues none takes it whole, with the number that it denotes. -/
namespace Unravel

open List

variable {ds : List Char} {c : Char}

theorem CodePoint.ofChar_injective {a b : Char} (same : ofChar a = ofChar b) : a = b := by
  have values : a.toNat = b.toNat := congrArg CodePoint.toNat same
  exact Char.ext (UInt32.toNat_inj.1 values)

namespace Numeral

/-- The text of a run of digits. -/
def digitText (ds : List Char) : Text := ds.map ofChar

def IsDigits (ds : List Char) : Prop := ∀ c ∈ ds, c.isDigit = true

theorem isDigits_toDigits (n : Nat) : IsDigits (Nat.toDigits 10 n) :=
  fun _ member => Nat.isDigit_of_mem_toDigits (by decide) (by decide) member

theorem isDigits_replicate (n : Nat) : IsDigits (List.replicate n '0') := by
  intro c member
  rw [eq_of_mem_replicate member]
  rfl

theorem IsDigits.append {es : List Char} (hd : IsDigits ds) (he : IsDigits es) : IsDigits (ds ++ es) := by
  intro c member
  rcases mem_append.1 member with first | second
  · exact hd c first
  · exact he c second

theorem IsDigits.take (h : IsDigits ds) (n : Nat) : IsDigits (ds.take n) :=
  fun c member => h c (mem_of_mem_take member)

theorem IsDigits.drop (h : IsDigits ds) (n : Nat) : IsDigits (ds.drop n) :=
  fun c member => h c (mem_of_mem_drop member)

theorem isDigit_ofChar (h : c.isDigit = true) : (ofChar c).isDigit = true := by
  rw [Char.isDigit_iff_toNat] at h
  rw [CodePoint.isDigit, CodePoint.isBetween, Bool.and_eq_true, decide_eq_true_eq, decide_eq_true_eq]
  exact h

theorem decimalValue?_ofChar (h : c.isDigit = true) :
    (ofChar c).decimalValue? = some (c.toNat - '0'.toNat) := by
  rw [Char.isDigit_iff_toNat] at h
  have first : (0x30 ≤ (ofChar c).toNat && (ofChar c).toNat < 0x30 + 10) = true := by
    rw [Bool.and_eq_true, decide_eq_true_eq, decide_eq_true_eq]
    exact ⟨h.1, Nat.lt_succ_of_le h.2⟩
  rw [CodePoint.decimalValue?, CodePoint.decimalZeros, find?_cons, first]
  rfl

theorem isDecimal_ofChar (h : c.isDigit = true) : (ofChar c).isDecimal = true := by
  rw [CodePoint.isDecimal, decimalValue?_ofChar h]
  rfl

theorem takeWhile_digits {p : CodePoint → Bool} (accepts : ∀ c : Char, c.isDigit = true → p c = true)
    (digits : IsDigits ds) {rest : Text} (stops : Stops p rest) :
    (digitText ds ++ rest).takeWhile p = digitText ds := by
  have all : ∀ c ∈ digitText ds, p c = true := by
    intro c member
    obtain ⟨d, hd, rfl⟩ := mem_map.1 member
    exact accepts d (digits d hd)
  rw [takeWhile_append_of_pos all, stops.takeWhile, append_nil]

theorem digitsValue_digitText (digits : IsDigits ds) :
    digitsValue (digitText ds) = Nat.ofDigitChars 10 ds 0 := by
  have run : ∀ n : Nat, (digitText ds).foldl (fun n c => n * 10 + c.decimalValue?.getD 0) n
      = Nat.ofDigitChars 10 ds n := by
    induction ds with
    | nil => exact fun _ => rfl
    | cons d ds ih =>
      intro n
      have rest : IsDigits ds := fun c member => digits c (.tail d member)
      rw [digitText, map_cons, foldl_cons, decimalValue?_ofChar (digits d (.head _)),
        Nat.ofDigitChars_cons, Nat.mul_comm]
      exact ih rest _
  exact run 0

theorem digitsValue_toDigits (n : Nat) : digitsValue (digitText (Nat.toDigits 10 n)) = n := by
  rw [digitsValue_digitText (isDigits_toDigits n), Nat.ofDigitChars_ten_toDigits]

theorem ofNat_eq_digitText (n : Nat) : Text.ofNat n = digitText (Nat.toDigits 10 n) := by
  rw [Text.ofNat, Text.ofString, Nat.repr_eq_ofList_toDigits, String.toList_ofList]
  rfl

theorem head_toDigits {n : Nat} (positive : 0 < n) : ∃ d ds, Nat.toDigits 10 n = d :: ds ∧ d ≠ '0' := by
  induction n using Nat.strongRecOn with
  | ind n ih =>
    by_cases small : n < 10
    · have nonzero : ∀ m < 10, 0 < m → m.digitChar ≠ '0' := by decide
      exact ⟨n.digitChar, [], Nat.toDigits_of_lt_base small, nonzero n small positive⟩
    · obtain ⟨d, ds, hd, nonzero⟩ := ih (n / 10) (by omega) (by omega)
      refine ⟨d, ds ++ [(n % 10).digitChar], ?_, nonzero⟩
      rw [Nat.toDigits_of_base_le (by decide) (by omega), hd]
      rfl

/-- The text of a sign. -/
def signText (negative : Bool) : Text := if negative then "-" else []

/-- The parts of a numeral without sign. An exponent comes with its sign. -/
structure Layout where
  whole : List Char
  fraction : List Char
  exponent : Option (Bool × List Char)

namespace Layout

def fractionText (l : Layout) : Text := if l.fraction = [] then [] else "." ++ digitText l.fraction

def exponentText (l : Layout) : Text :=
  match l.exponent with
  | none => []
  | some (negative, ds) => "e" ++ ((if negative then "-" else "+" : Text) ++ digitText ds)

def text (l : Layout) : Text := digitText l.whole ++ (l.fractionText ++ l.exponentText)

/-- The exponent that the numeral shows. -/
def shownExponent (l : Layout) : Int :=
  match l.exponent with
  | none => 0
  | some (negative, ds) =>
    let n : Int := digitsValue (digitText ds)
    if negative then -n else n

/-- The decimal that a numeral shows, all its digits being taken for a whole number. -/
def decimal (l : Layout) : Decimal :=
  ⟨digitsValue (digitText (l.whole ++ l.fraction)), l.shownExponent - l.fraction.length⟩

/-- The number that a numeral denotes. -/
def value (l : Layout) : ℚ :=
  (Nat.ofDigitChars 10 l.whole 0 + Nat.ofDigitChars 10 l.fraction 0 / 10 ^ l.fraction.length) * 10 ^ l.shownExponent

/-- Digits where digits belong, and no zero before another whole digit. -/
structure IsNumeral (l : Layout) : Prop where
  whole : IsDigits l.whole
  fraction : IsDigits l.fraction
  exponent : ∀ negative ds, l.exponent = some (negative, ds) → IsDigits ds ∧ ds ≠ []
  leading : l.whole = ['0'] ∨ ∃ d ds, l.whole = d :: ds ∧ d ≠ '0'

variable {l : Layout} {rest : Text}

theorem IsNumeral.value_decimal (numeral : l.IsNumeral) : l.decimal.value = l.value := by
  have digits := digitsValue_digitText (numeral.whole.append numeral.fraction)
  have scale : (10 : ℚ) ^ l.fraction.length ≠ 0 := by positivity
  rw [Decimal.value, decimal, digits, Nat.ofDigitChars_append, Nat.ofDigitChars_eq_ofDigitChars_zero, value,
    zpow_sub₀ (by norm_num), zpow_natCast]
  push_cast
  field_simp

/-- What follows cannot continue a numeral: the text ends, or a comma or a closing bracket comes. -/
def Ends (rest : Text) : Prop :=
  ∀ c ∈ rest.head?, c.isDigit = false ∧ c ≠ '.' ∧ c ≠ 'e' ∧ c ≠ 'E'

theorem Ends.stops (ends : Ends rest) : Stops CodePoint.isDigit rest := fun c h => (ends c h).1

theorem stops_exponentText (ends : Ends rest) : Stops CodePoint.isDigit (l.exponentText ++ rest) := by
  unfold exponentText
  cases l.exponent with
  | none => exact ends.stops
  | some e =>
    intro c head
    cases head
    rfl

theorem stops_fractionText (ends : Ends rest) :
    Stops CodePoint.isDigit (l.fractionText ++ (l.exponentText ++ rest)) := by
  unfold fractionText
  split
  · exact stops_exponentText ends
  · intro c head
    cases head
    rfl

theorem wholeDigits_append (numeral : l.IsNumeral) {after : Text} (stops : Stops CodePoint.isDigit after) :
    Datum.wholeDigits (digitText l.whole ++ after) = digitText l.whole := by
  have digits := numeral.whole
  rcases numeral.leading with zero | ⟨d, ds, shape, nonzero⟩
  · rw [zero]
    rfl
  · have split := takeWhile_digits (fun _ => isDigit_ofChar) digits stops
    rw [shape] at split ⊢
    have other : ofChar d ≠ '0' := fun same => nonzero (CodePoint.ofChar_injective same)
    exact (if_neg other).trans split

theorem isEmpty_digitText (some : ds ≠ []) : (digitText ds).isEmpty = false := by
  cases ds with
  | nil => exact absurd rfl some
  | cons d ds => rfl

theorem fractionLength_append (numeral : l.IsNumeral) (ends : Ends rest) :
    Datum.fractionLength (l.fractionText ++ (l.exponentText ++ rest)) = l.fractionText.length := by
  unfold fractionText
  split
  · unfold exponentText
    cases l.exponent with
    | none =>
      cases rest with
      | nil => rfl
      | cons c more => exact if_neg fun h => (ends c rfl).2.1 h.1
    | some e => rfl
  · rename_i some
    have digits := takeWhile_digits (fun _ => isDigit_ofChar) numeral.fraction (stops_exponentText (l := l) ends)
    change Datum.fractionLength ('.' :: (digitText l.fraction ++ _)) = _
    rw [Datum.fractionLength, digits, if_pos ⟨rfl, by rw [isEmpty_digitText some]; rfl⟩]
    exact Nat.add_comm ..

theorem exponentLength_append (numeral : l.IsNumeral) (ends : Ends rest) :
    Datum.exponentLength (l.exponentText ++ rest) = l.exponentText.length := by
  have valid := numeral.exponent
  unfold exponentText
  cases shape : l.exponent with
  | none =>
    cases rest with
    | nil => rfl
    | cons c more => exact if_neg fun h => h.1.elim (ends c rfl).2.2.1 (ends c rfl).2.2.2
  | some e =>
    obtain ⟨negative, ds⟩ := e
    obtain ⟨isDigits, some⟩ := valid negative ds shape
    have digits := takeWhile_digits (fun _ => isDigit_ofChar) isDigits ends.stops
    have sign : (readSign (((if negative then "-" else "+" : Text) ++ digitText ds) ++ rest)).2 = digitText ds ++ rest := by
      cases negative <;> rfl
    change Datum.exponentLength ('e' :: (((if negative then "-" else "+" : Text) ++ digitText ds) ++ rest)) = _
    rw [Datum.exponentLength]
    dsimp only
    rw [sign, digits, if_pos ⟨.inl rfl, by rw [isEmpty_digitText some]; rfl⟩]
    cases negative <;> simp [Text.ofString] <;> omega

theorem IsNumeral.whole_ne_nil (numeral : l.IsNumeral) : l.whole ≠ [] := by
  rcases numeral.leading with zero | ⟨d, ds, shape, -⟩
  · rw [zero]
    exact cons_ne_nil _ _
  · rw [shape]
    exact cons_ne_nil _ _

theorem scanNumber?_append (numeral : l.IsNumeral) (ends : Ends rest) :
    Datum.scanNumber? (l.text ++ rest)
      = some (digitText l.whole, decide (0 < l.fractionText.length + l.exponentText.length), l.text.length) := by
  have shape : l.text ++ rest = digitText l.whole ++ (l.fractionText ++ (l.exponentText ++ rest)) := by
    simp only [text, append_assoc]
  have length : l.text.length = (digitText l.whole).length + l.fractionText.length + l.exponentText.length := by
    simp only [text, length_append, Nat.add_assoc]
  unfold Datum.scanNumber?
  dsimp only
  rw [shape, wholeDigits_append numeral (stops_fractionText ends), isEmpty_digitText numeral.whole_ne_nil, drop_left,
    fractionLength_append numeral ends, drop_left, exponentLength_append numeral ends, length]
  rfl

theorem exists_literal (numeral : l.IsNumeral) :
    ∃ lit : DecimalLiteral CodePoint.isDecimal, lit.text = l.text ∧ lit.decimal = l.decimal := by
  have digits : ∀ {ds : List Char}, IsDigits ds → ∀ c ∈ digitText ds, c.isDecimal = true := by
    intro ds isDigits c member
    obtain ⟨d, hd, rfl⟩ := mem_map.1 member
    exact isDecimal_ofChar (isDigits d hd)
  have visible : digitText l.whole ≠ [] := mt map_eq_nil_iff.1 numeral.whole_ne_nil
  have fraction : ∃ f : Option Text, f.getD [] = digitText l.fraction ∧ f.elim [] (ofChar '.' :: ·) = l.fractionText := by
    by_cases none : l.fraction = []
    · exact ⟨Option.none, by rw [none]; rfl, by rw [fractionText, if_pos none]; rfl⟩
    · exact ⟨some (digitText l.fraction), rfl, by rw [fractionText, if_neg none]; rfl⟩
  have exponent : ∃ e : Option (ExponentPart CodePoint.isDecimal), e.elim [] ExponentPart.text = l.exponentText
      ∧ e.elim 0 ExponentPart.value = l.shownExponent := by
    have valid := numeral.exponent
    unfold exponentText shownExponent
    cases shape : l.exponent with
    | none => exact ⟨none, rfl, rfl⟩
    | some e =>
      obtain ⟨negative, ds⟩ := e
      obtain ⟨isDigits, some⟩ := valid negative ds shape
      have isSign : IsSign (if negative then "-" else "+" : Text) := by
        cases negative
        · exact .inr (.inl rfl)
        · exact .inl rfl
      refine ⟨Option.some ⟨'e', if negative then "-" else "+", digitText ds, .inl rfl, isSign,
        mt map_eq_nil_iff.1 some, digits isDigits⟩, rfl, ?_⟩
      cases negative <;> rfl
  obtain ⟨f, fractionDigits, fractionText⟩ := fraction
  obtain ⟨e, exponentText, exponentValue⟩ := exponent
  refine ⟨⟨digitText l.whole, f, e, digits numeral.whole, by rw [fractionDigits]; exact digits numeral.fraction, .inl visible⟩, ?_, ?_⟩
  · rw [text, ← fractionText, ← exponentText]
    rfl
  · change (⟨digitsValue (digitText l.whole ++ f.getD []), e.elim 0 ExponentPart.value - (f.getD []).length⟩ : Decimal) = l.decimal
    rw [decimal, exponentValue, fractionDigits, digitText, digitText, digitText, map_append, length_map]

/-- The reader of decimals finds the digits and the exponent that a numeral shows. -/
theorem readUnsigned?_text (numeral : l.IsNumeral) :
    readUnsigned? l.text = some (l.decimal.coefficient, l.decimal.exponent, []) := by
  obtain ⟨lit, text, decimal⟩ := exists_literal numeral
  obtain ⟨c, e, left, read, suffix, exact⟩ := @readUnsigned?_literal [] lit
  rw [append_nil, text, suffix_nil.1 suffix] at read
  rw [read, ← decimal, exact rfl]

theorem mem_text (numeral : l.IsNumeral) {c : CodePoint} (member : c ∈ l.text) :
    (∃ d : Char, d.isDigit = true ∧ c = d) ∨ c ∈ (".e+-" : Text) := by
  have digit : ∀ {ds : List Char}, IsDigits ds → c ∈ digitText ds → ∃ d : Char, d.isDigit = true ∧ c = d := by
    intro ds digits member
    obtain ⟨d, hd, rfl⟩ := mem_map.1 member
    exact ⟨d, digits d hd, rfl⟩
  unfold text fractionText exponentText at member
  rw [mem_append, mem_append] at member
  rcases member with whole | fraction | exponent
  · exact .inl (digit numeral.whole whole)
  · split at fraction
    · exact nomatch fraction
    · rcases mem_append.1 fraction with point | digits
      · exact .inr (mem_append_left _ point)
      · exact .inl (digit numeral.fraction digits)
  · cases shape : l.exponent with
    | none =>
      rw [shape] at exponent
      exact nomatch exponent
    | some e =>
      obtain ⟨negative, ds⟩ := e
      rw [shape] at exponent
      rcases mem_append.1 exponent with mark | signed
      · exact .inr ((by decide : ∀ c ∈ ("e" : Text), c ∈ (".e+-" : Text)) c mark)
      · rcases mem_append.1 signed with sign | digits
        · right
          cases negative with
          | false => exact (by decide : ∀ c ∈ ("+" : Text), c ∈ (".e+-" : Text)) c sign
          | true => exact (by decide : ∀ c ∈ ("-" : Text), c ∈ (".e+-" : Text)) c sign
        · exact .inl (digit (numeral.exponent negative ds shape).1 digits)

theorem trim_signed {p : CodePoint → Bool} (digits : ∀ n < 58, 48 ≤ n → ∀ h, p ⟨n, h⟩ = false)
    (others : ∀ c ∈ (".e+-" : Text), p c = false) (numeral : l.IsNumeral) (negative : Bool) :
    (signText negative ++ l.text).trim p = signText negative ++ l.text := by
  refine Text.trim_eq_self fun c member => ?_
  rcases mem_append.1 member with sign | member
  · cases negative with
    | false => cases sign
    | true => exact others c ((by decide : ∀ c ∈ signText true, c ∈ (".e+-" : Text)) c sign)
  · rcases mem_text numeral member with ⟨d, digit, rfl⟩ | other
    · have range := Char.isDigit_iff_toNat.1 digit
      exact digits d.toNat (Nat.lt_succ_of_le range.2) range.1 _
    · exact others c other

theorem head_text (numeral : l.IsNumeral) : ∃ d : Char, d.isDigit = true ∧ ∃ more, l.text = ofChar d :: more := by
  have digits := numeral.whole
  unfold text
  cases shape : l.whole with
  | nil => exact absurd shape numeral.whole_ne_nil
  | cons d ds =>
    rw [shape] at digits
    exact ⟨d, digits d (.head _), _, rfl⟩

theorem ne_of_isDigit {d : Char} (digit : d.isDigit = true) (none : c.isDigit = false) : ofChar d ≠ c := by
  intro same
  rw [CodePoint.ofChar_injective same, none] at digit
  exact Bool.false_ne_true digit

theorem readSign_signed (numeral : l.IsNumeral) (negative : Bool) :
    readSign (signText negative ++ l.text) = (negative, l.text) := by
  obtain ⟨d, digit, more, shape⟩ := head_text numeral
  cases negative with
  | true => rfl
  | false =>
    rw [signText, if_neg Bool.false_ne_true, nil_append, shape, readSign, if_neg (ne_of_isDigit digit rfl),
      if_neg (ne_of_isDigit digit rfl)]

/-- Reading a numeral gives the double nearest to what it shows. -/
theorem readDouble?_signed (numeral : l.IsNumeral) (negative : Bool) :
    readDouble? (signText negative ++ l.text) = some (.ofDecimal negative l.decimal.coefficient l.decimal.exponent) := by
  obtain ⟨d, digit, more, shape⟩ := head_text numeral
  have word : lowerAscii l.text = ofChar d :: lowerAscii more := by
    rw [shape, lowerAscii, map_cons, if_neg]
    · rfl
    · intro upper
      rw [CodePoint.isUpper, CodePoint.isBetween, Bool.and_eq_true, decide_eq_true_eq] at upper
      have low : 65 ≤ d.toNat := upper.1
      have high : d.toNat ≤ 57 := (Char.isDigit_iff_toNat.1 digit).2
      omega
  unfold readDouble?
  rw [trim_signed (by decide) (by decide) numeral, readSign_signed numeral]
  dsimp only
  rw [word, readUnsigned?_text numeral, if_neg, if_neg]
  · exact fun same => ne_of_isDigit digit rfl (List.cons.inj same).1
  · rintro (same | same)
    · exact ne_of_isDigit digit rfl (List.cons.inj same).1
    · exact ne_of_isDigit digit rfl (List.cons.inj same).1

end Layout

end Numeral

namespace NumberStyle

open Numeral

/-- Nothing follows a whole number, or a point and a zero. -/
def IsPlain (style : NumberStyle) : Prop := style.wholeMark = [] ∨ style.wholeMark = (".0" : Text)

theorem isPlain_script : script.IsPlain := .inl rfl

theorem isPlain_message : message.IsPlain := .inr rfl

/-- The digits of an exponent, filled up to the width of the style. -/
def exponentDigits (style : NumberStyle) (exponent : Int) : List Char :=
  List.replicate (style.exponentWidth - (Nat.toDigits 10 exponent.natAbs).length) '0' ++ Nat.toDigits 10 exponent.natAbs

/-- The notations of a style: a whole number, a point among the digits, a point before them, an exponent. -/
def layout (style : NumberStyle) (d : Decimal) : Layout :=
  if style.above < d.point ∧ d.point ≤ style.upTo then
    if d.digits.length ≤ d.point then
      ⟨d.digits ++ List.replicate d.exponent.toNat '0', if style.wholeMark = [] then [] else ['0'], none⟩
    else if 0 < d.point then ⟨d.digits.take d.point.toNat, d.digits.drop d.point.toNat, none⟩
    else ⟨['0'], List.replicate (-d.point).toNat '0' ++ d.digits, none⟩
  else ⟨d.digits.take 1, d.digits.drop 1, some (d.point - 1 < 0, style.exponentDigits (d.point - 1))⟩

variable {style : NumberStyle} {d : Decimal}

theorem isDigits_exponentDigits (exponent : Int) : IsDigits (style.exponentDigits exponent) :=
  (isDigits_replicate _).append (isDigits_toDigits _)

theorem digitsValue_exponentDigits (exponent : Int) :
    digitsValue (digitText (style.exponentDigits exponent)) = exponent.natAbs := by
  rw [digitsValue_digitText (isDigits_exponentDigits exponent), exponentDigits, Nat.ofDigitChars_append,
    Nat.ofDigitChars_replicate_zero, Nat.mul_zero, Nat.ofDigitChars_ten_toDigits]

theorem isNumeral_layout (positive : 0 < d.coefficient) : (style.layout d).IsNumeral := by
  have isDigits : IsDigits d.digits := isDigits_toDigits _
  have absent : ∀ (negative : Bool) (ds : List Char), (none : Option (Bool × List Char)) = some (negative, ds) → IsDigits ds ∧ ds ≠ [] := by
    rintro _ _ ⟨⟩
  obtain ⟨first, more, shape, nonzero⟩ := head_toDigits positive
  change d.digits = first :: more at shape
  unfold layout
  split
  · split
    · refine ⟨isDigits.append (isDigits_replicate _), ?_, absent, .inr ⟨first, more ++ List.replicate d.exponent.toNat '0', ?_, nonzero⟩⟩
      · split
        · exact forall_mem_nil _
        · exact isDigits_replicate 1
      · rw [shape]
        rfl
    · split
      · obtain ⟨n, hn⟩ : ∃ n, d.point.toNat = n + 1 := ⟨d.point.toNat - 1, by omega⟩
        refine ⟨isDigits.take _, isDigits.drop _, absent, .inr ⟨first, more.take n, ?_, nonzero⟩⟩
        rw [shape, hn]
        rfl
      · exact ⟨isDigits_replicate 1, (isDigits_replicate _).append isDigits, absent, .inl rfl⟩
  · refine ⟨isDigits.take _, isDigits.drop _, ?_, .inr ⟨first, [], by rw [shape]; rfl, nonzero⟩⟩
    rintro negative ds ⟨⟩
    exact ⟨isDigits_exponentDigits _, append_ne_nil_of_right_ne_nil _ Nat.toDigits_ne_nil⟩

theorem digitsValue_digits (d : Decimal) : digitsValue (digitText d.digits) = d.coefficient := digitsValue_toDigits _

theorem decimal_zeros (n k : Nat) :
    Layout.decimal ⟨d.digits ++ List.replicate n '0', List.replicate k '0', none⟩ = ⟨d.coefficient * 10 ^ (n + k), -(k : Int)⟩ := by
  have isDigits : IsDigits d.digits := isDigits_toDigits _
  have value : digitsValue (digitText (d.digits ++ List.replicate (n + k) '0')) = d.coefficient * 10 ^ (n + k) := by
    rw [digitsValue_digitText (isDigits.append (isDigits_replicate _)), Nat.ofDigitChars_append, ← digitsValue_digitText isDigits,
      digitsValue_digits, Nat.ofDigitChars_replicate_zero, Nat.mul_comm]
  rw [Layout.decimal, append_assoc, replicate_append_replicate, value, length_replicate]
  exact congrArg (Decimal.mk _) (Int.zero_sub _)

theorem decimal_split (n : Nat) :
    Layout.decimal ⟨d.digits.take n, d.digits.drop n, none⟩ = ⟨d.coefficient, -((d.digits.length - n : Nat) : Int)⟩ := by
  rw [Layout.decimal, take_append_drop, digitsValue_digits, length_drop]
  exact congrArg (Decimal.mk _) (Int.zero_sub _)

theorem decimal_fraction (n : Nat) :
    Layout.decimal ⟨['0'], List.replicate n '0' ++ d.digits, none⟩ = ⟨d.coefficient, -((n + d.digits.length : Nat) : Int)⟩ := by
  have isDigits : IsDigits d.digits := isDigits_toDigits _
  have value : digitsValue (digitText (List.replicate (1 + n) '0' ++ d.digits)) = d.coefficient := by
    rw [digitsValue_digitText ((isDigits_replicate _).append isDigits), Nat.ofDigitChars_append,
      Nat.ofDigitChars_replicate_zero, Nat.mul_zero, ← digitsValue_digitText isDigits, digitsValue_digits]
  rw [← replicate_append_replicate, append_assoc] at value
  rw [Layout.decimal, show ['0'] = List.replicate 1 '0' from rfl, value, length_append, length_replicate]
  exact congrArg (Decimal.mk _) (Int.zero_sub _)

theorem shownExponent_exponentDigits (whole fraction : List Char) (exponent : Int) :
    Layout.shownExponent ⟨whole, fraction, some (exponent < 0, style.exponentDigits exponent)⟩ = exponent := by
  rw [Layout.shownExponent]
  dsimp only
  rw [digitsValue_exponentDigits]
  by_cases negative : exponent < 0
  · rw [if_pos (decide_eq_true negative)]
    omega
  · rw [if_neg (by simpa using negative)]
    omega

theorem decimal_exponent (exponent : Int) :
    Layout.decimal ⟨d.digits.take 1, d.digits.drop 1, some (exponent < 0, style.exponentDigits exponent)⟩
      = ⟨d.coefficient, exponent - (d.digits.length - 1 : Nat)⟩ := by
  rw [Layout.decimal, shownExponent_exponentDigits, take_append_drop, digitsValue_digits, length_drop]

/-- Every notation denotes the decimal. -/
theorem value_layout : (style.layout d).decimal.value = d.value := by
  have point : d.point = d.digits.length + d.exponent := rfl
  have some : 0 < d.digits.length := Nat.length_toDigits_pos
  have same : ∀ e, e = d.exponent → Decimal.value ⟨d.coefficient, e⟩ = d.value := by
    rintro e rfl
    rfl
  unfold layout
  split
  · split
    · obtain ⟨k, mark⟩ : ∃ k, (if style.wholeMark = [] then [] else ['0']) = List.replicate k '0' := by
        split
        · exact ⟨0, rfl⟩
        · exact ⟨1, rfl⟩
      have whole : (d.exponent.toNat : Int) = d.exponent := by omega
      rw [mark, decimal_zeros, Decimal.value, Decimal.value, ← whole, zpow_natCast, Int.toNat_natCast, zpow_neg, zpow_natCast]
      push_cast
      rw [pow_add]
      field_simp
    · split
      · rw [decimal_split]
        exact same _ (by omega)
      · rw [decimal_fraction]
        exact same _ (by omega)
  · rw [decimal_exponent]
    exact same _ (by omega)

theorem exponentText_eq (exponent : Int) :
    style.exponentText exponent
      = "e" ++ ((if decide (exponent < 0) then "-" else "+" : Text) ++ digitText (style.exponentDigits exponent)) := by
  have digits : Text.ofNat exponent.natAbs = digitText (Nat.toDigits 10 exponent.natAbs) := ofNat_eq_digitText _
  unfold exponentText exponentDigits
  dsimp only
  rw [digits, digitText, digitText, map_append, map_replicate, length_map, append_assoc, append_assoc]
  simp only [decide_eq_true_eq]

theorem decimalText_eq (plain : style.IsPlain) : style.decimalText d = (style.layout d).text := by
  have point : d.point = d.digits.length + d.exponent := rfl
  have some : 0 < d.digits.length := Nat.length_toDigits_pos
  unfold decimalText layout
  dsimp only
  rw [length_map]
  split
  · split
    · have zeros : d.point - (d.digits.length : Int) = d.exponent := by omega
      have mark : style.wholeMark = Layout.fractionText ⟨d.digits ++ List.replicate d.exponent.toNat '0',
          if style.wholeMark = [] then [] else ['0'], none⟩ := by
        rcases plain with none | shown
        · rw [Layout.fractionText, if_pos none, if_pos rfl, none]
        · rw [Layout.fractionText, shown]
          rfl
      rw [zeros, Layout.text, ← mark, Layout.exponentText, append_nil, digitText, map_append, map_replicate]
    · split
      · have fraction : d.digits.drop d.point.toNat ≠ [] := by
          apply ne_nil_of_length_pos
          rw [length_drop]
          omega
        rw [Layout.text, Layout.fractionText, if_neg fraction, Layout.exponentText, append_nil, digitText, digitText,
          map_take, map_drop, append_assoc]
      · have fraction : List.replicate (-d.point).toNat '0' ++ d.digits ≠ [] := by
          apply ne_nil_of_length_pos
          rw [length_append]
          omega
        rw [Layout.text, Layout.fractionText, if_neg fraction, Layout.exponentText, append_nil, digitText, digitText,
          map_append, map_replicate]
        rfl
  · have fraction : (if d.digits.length = 1 then [] else ("." : Text) ++ (d.digits.map ofChar).drop 1)
        = if d.digits.drop 1 = [] then [] else ("." : Text) ++ digitText (d.digits.drop 1) := by
      rw [digitText, map_drop]
      simp only [drop_eq_nil_iff, show d.digits.length ≤ 1 ↔ d.digits.length = 1 by omega]
    rw [exponentText_eq, fraction, append_assoc, ← map_take]
    rfl

theorem script_layout_whole (whole : 0 ≤ d.exponent) (small : d.point ≤ 21) :
    script.layout d = ⟨d.digits ++ List.replicate d.exponent.toNat '0', [], none⟩ := by
  have some : 0 < d.digits.length := Nat.length_toDigits_pos
  have point : d.point = d.digits.length + d.exponent := rfl
  have above : script.above = -6 := rfl
  rw [layout, if_pos ⟨by omega, small⟩, if_pos (by omega)]
  rfl

theorem script_layout_broken (broken : d.exponent < 0 ∨ 21 < d.point) :
    0 < (script.layout d).fractionText.length + (script.layout d).exponentText.length := by
  have point : d.point = d.digits.length + d.exponent := rfl
  have some : 0 < d.digits.length := Nat.length_toDigits_pos
  have upTo : script.upTo = 21 := rfl
  have shown : ∀ l : Layout, l.fraction ≠ [] → 0 < l.fractionText.length := by
    intro l some
    rw [Layout.fractionText, if_neg some]
    exact Nat.succ_pos _
  unfold layout
  split
  · apply Nat.add_pos_left
    rw [if_neg (by omega)]
    apply shown
    split
    · apply ne_nil_of_length_pos
      rw [length_drop]
      omega
    · apply ne_nil_of_length_pos
      rw [length_append]
      omega
  · exact Nat.add_pos_right _ (Nat.succ_pos _)

end NumberStyle

end Unravel
