import Unravel.Proofs.Value.Integer

/-! The texts that conversions take for numbers. A whole text is converted if it is empty, a literal of another base or a
   signed decimal literal; `parseFloat` reads the longest decimal literal at the start. What counts as a digit of a decimal
   literal are the decimal digits of all scripts, so the grammar over the ten common digits is followed only by
   texts without the others. -/
namespace Unravel

open Numeral List

/-- The number is what a whole text stands for, or NaN if it stands for none. -/
structure ConvertsWhole (digit : CodePoint → Bool) (t : Text) (x : Double) : Prop where
  accepts : x ≠ .nan ↔ t = [] ∨ (∃ base ds, IsRadixLiteral t base ds) ∨ ∃ y, Denotes digit t y
  empty : t = [] → x = .zero false
  radix : ∀ base ds, IsRadixLiteral t base ds → x.Rounds false (positional base ds)
  decimal : ∀ y, Denotes digit t y → x = y

/-- The number is what the longest literal at the start of a text stands for, or NaN if there is none. -/
structure ReadsLongest (digit : CodePoint → Bool) (t : Text) (x : Double) : Prop where
  accepts : x ≠ .nan ↔ ∃ p y, p <+: t ∧ Denotes digit p y
  longest : x ≠ .nan → ∃ p, p <+: t ∧ Denotes digit p x ∧
    ∀ q y, q <+: t → Denotes digit q y → q.length ≤ p.length ∧ (q = p → y = x)

section Digits

variable {digit : CodePoint → Bool} {t : Text} {x y : Double}

theorem denotes_iff (same : ∀ c ∈ t, digit c = c.isDecimal) : Denotes digit t x ↔ Denotes CodePoint.isDecimal t x :=
  ⟨fun h => h.retype same, fun h => h.retype fun c member => (same c member).symm⟩

theorem ConvertsWhole.retype (same : ∀ c ∈ t, digit c = c.isDecimal) (h : ConvertsWhole CodePoint.isDecimal t x) :
    ConvertsWhole digit t x := by
  obtain ⟨accepts, empty, radix, decimal⟩ := h
  refine ⟨?_, empty, radix, fun y denotes => decimal y ((denotes_iff same).1 denotes)⟩
  simpa only [denotes_iff same] using accepts

theorem ReadsLongest.retype (same : ∀ c ∈ t, digit c = c.isDecimal) (h : ReadsLongest CodePoint.isDecimal t x) :
    ReadsLongest digit t x := by
  have start : ∀ {p y}, p <+: t → (Denotes digit p y ↔ Denotes CodePoint.isDecimal p y) := fun inside =>
    denotes_iff fun c member => same c (inside.subset member)
  obtain ⟨accepts, longest⟩ := h
  constructor
  · rw [accepts]
    constructor
    · rintro ⟨p, y, inside, denotes⟩
      exact ⟨p, y, inside, (start inside).2 denotes⟩
    · rintro ⟨p, y, inside, denotes⟩
      exact ⟨p, y, inside, (start inside).1 denotes⟩
  · intro number
    obtain ⟨p, inside, denotes, most⟩ := longest number
    exact ⟨p, inside, (start inside).2 denotes, fun q y other denotes' => most q y other ((start other).1 denotes')⟩

end Digits

section Whole

variable {t : Text} {x y : Double}

theorem Numeral.Denotes.read (h : Denotes CodePoint.isDecimal t x) : readDecimal? t = some (x, []) := by
  obtain ⟨y, left, read, suffix, same⟩ := @readDecimal?_denotes t [] x h
  rw [append_nil] at read
  rw [read, same rfl, suffix_nil.1 suffix]

theorem Numeral.Denotes.unique (hx : Denotes CodePoint.isDecimal t x) (hy : Denotes CodePoint.isDecimal t y) : x = y := by
  have same := hx.read.symm.trans hy.read
  cases same
  rfl

theorem IsRadixLiteral.not_denotes {base : Nat} {ds : Text} (h : IsRadixLiteral t base ds) : ¬Denotes CodePoint.isDecimal t x := by
  obtain ⟨mark, member, rfl, -, -⟩ := h
  intro denotes
  have partly : ∃ y, readDecimal? ('0' :: ofChar mark :: ds) = some (y, ofChar mark :: ds) := by
    simp only [radixMarks, mem_cons, Prod.mk.injEq, not_mem_nil, or_false] at member
    rcases member with ⟨rfl, -⟩ | ⟨rfl, -⟩ | ⟨rfl, -⟩ | ⟨rfl, -⟩ | ⟨rfl, -⟩ | ⟨rfl, -⟩ <;> exact ⟨_, rfl⟩
  obtain ⟨y, read⟩ := partly
  rw [denotes.read] at read
  cases read

/-- How a trimmed text is converted. -/
theorem convertsWhole_stringToNumber (s : Text) :
    ∃ x, stringToNumber s = .ok x ∧ ConvertsWhole CodePoint.isDecimal (s.trim CodePoint.isScriptBlank) x := by
  rw [stringToNumber]
  generalize s.trim CodePoint.isScriptBlank = t
  have unmarked : ∀ {base ds}, ¬IsRadixLiteral [] base ds := by
    rintro base ds ⟨mark, -, shape, -⟩
    cases shape
  by_cases none : t = []
  · subst none
    have silent : ∀ {y}, ¬Denotes CodePoint.isDecimal [] y := by
      intro y denotes
      cases denotes.read
    refine ⟨.zero false, rfl, ⟨fun _ => .inl rfl, fun _ => by rintro ⟨⟩⟩, fun _ => rfl, fun base ds literal => absurd literal unmarked,
      fun y denotes => absurd denotes silent⟩
  rw [if_neg (by simpa using none)]
  cases shape : radixLiteral? t with
  | some literal =>
    obtain ⟨base, ds⟩ := literal
    have literal := radixLiteral?_iff.1 shape
    obtain ⟨mark, member, -, some, valid⟩ := id literal
    have large : 2 ≤ base := (by decide : ∀ entry ∈ radixMarks, 2 ≤ entry.2) _ member
    obtain ⟨x, read, rounds⟩ := digitsToNumber_rounds large some valid
    refine ⟨x, read, ⟨fun _ => .inr (.inl ⟨base, ds, literal⟩), fun _ => rounds.ne_nan⟩, fun empty => absurd empty none, ?_,
      fun y denotes => absurd denotes literal.not_denotes⟩
    intro base' ds' other
    have same := shape.symm.trans (radixLiteral?_iff.2 other)
    cases same
    exact rounds
  | none =>
    have other : ∀ base ds, ¬IsRadixLiteral t base ds := by
      intro base ds literal
      rw [radixLiteral?_iff.2 literal] at shape
      cases shape
    dsimp only
    by_cases denotes : ∃ x, Denotes CodePoint.isDecimal t x
    · obtain ⟨x, denotes⟩ := denotes
      rw [denotes.read]
      exact ⟨x, rfl, ⟨fun _ => .inr (.inr ⟨x, denotes⟩), fun _ => denotes.ne_nan⟩, fun empty => absurd empty none,
        fun base ds literal => absurd literal (other base ds), fun y => denotes.unique⟩
    · have nan : ∀ x, readDecimal? t ≠ some (x, []) := by
        intro x read
        obtain ⟨p, whole, found⟩ := denotes_of_readDecimal? read
        rw [append_nil] at whole
        exact denotes ⟨x, whole ▸ found⟩
      refine ⟨.nan, ?_, ⟨fun number => absurd rfl number, ?_⟩, fun empty => absurd empty none,
        fun base ds literal => absurd literal (other base ds), fun y found => absurd ⟨y, found⟩ denotes⟩
      · split
        · exact absurd ‹_› (nan _)
        · rfl
      · rintro (empty | ⟨base, ds, literal⟩ | found)
        · exact absurd empty none
        · exact absurd literal (other base ds)
        · exact absurd found denotes

end Whole

/-- `parseFloat` reads as far as it can. -/
theorem readsLongest_parseFloat (s : Text) :
    ∃ x, parseFloat (.string s) = .ok x ∧ ReadsLongest CodePoint.isDecimal (s.trimLeft CodePoint.isScriptBlank) x := by
  have reads : parseFloat (.string s) = .ok (((readDecimal? (s.trimLeft CodePoint.isScriptBlank)).map Prod.fst).getD .nan) := by
    have text : (Value.string s).toText = .ok s := rfl
    rw [parseFloat, text]
    simp only [bind, Except.bind]
    cases readDecimal? (s.trimLeft CodePoint.isScriptBlank) <;> rfl
  rw [reads]
  generalize s.trimLeft CodePoint.isScriptBlank = t
  refine ⟨_, rfl, ?_⟩
  cases taken : readDecimal? t with
  | none =>
    have silent : ¬∃ p y, p <+: t ∧ Denotes CodePoint.isDecimal p y := by
      rintro ⟨p, y, ⟨after, rfl⟩, denotes⟩
      obtain ⟨z, left, read, -⟩ := @readDecimal?_denotes p after y denotes
      rw [taken] at read
      cases read
    exact ⟨⟨fun number => absurd rfl number, fun found => absurd found silent⟩, fun number => absurd rfl number⟩
  | some result =>
    obtain ⟨x, left⟩ := result
    obtain ⟨p, rfl, denotes⟩ := denotes_of_readDecimal? taken
    refine ⟨⟨fun _ => ⟨p, x, prefix_append .., denotes⟩, fun _ => denotes.ne_nan⟩, fun _ => ⟨p, prefix_append .., denotes, ?_⟩⟩
    rintro q y ⟨after, same⟩ other
    constructor
    · obtain ⟨z, left', read, suffix, -⟩ := @readDecimal?_denotes q after y other
      rw [same, taken] at read
      cases read
      have total := congrArg List.length same
      have shorter := suffix.length_le
      rw [length_append, length_append] at total
      omega
    · rintro rfl
      exact other.unique denotes

/-- The grammar of numbers in texts. Its digits may be any class that has the decimal digits of all scripts among the
characters of the text, and no others. -/
theorem conversions_follow_grammar (s : Text) {digit : CodePoint → Bool} (same : ∀ c ∈ s, digit c = c.isDecimal) :
    (∃ x, stringToNumber s = .ok x ∧ ConvertsWhole digit (s.trim CodePoint.isScriptBlank) x)
    ∧ ∃ x, parseFloat (.string s) = .ok x ∧ ReadsLongest digit (s.trimLeft CodePoint.isScriptBlank) x := by
  have left : ∀ c ∈ s.trimLeft CodePoint.isScriptBlank, c ∈ s := fun c member => (List.dropWhile_sublist _).subset member
  have both : ∀ c ∈ s.trim CodePoint.isScriptBlank, c ∈ s := by
    intro c member
    rw [Text.trim, Text.trimRight, List.mem_reverse] at member
    exact left c (List.mem_reverse.1 ((List.dropWhile_sublist _).subset member))
  obtain ⟨x, converted, whole⟩ := convertsWhole_stringToNumber s
  obtain ⟨y, read, longest⟩ := readsLongest_parseFloat s
  exact ⟨⟨x, converted, whole.retype fun c member => same c (both c member)⟩,
    ⟨y, read, longest.retype fun c member => same c (left c member)⟩⟩

def twelve : DecimalLiteral CodePoint.isDigit where
  whole := "12"
  fraction := none
  exponent := none
  wholeDigits := by decide
  fractionDigits := by decide
  some := by decide

/-- The common digits at the start of a length. -/
theorem length_is_read : ∃ x, parseFloat (.string (" 12.5px" : Text)) = .ok x ∧ x ≠ .nan := by
  obtain ⟨-, x, read, longest⟩ := @conversions_follow_grammar " 12.5px" CodePoint.isDigit (by decide)
  have rounds := twelve.decimal.rounds false
  rw [twelve.value_decimal] at rounds
  exact ⟨x, read, longest.accepts.2 ⟨_, _, ⟨".5px", rfl⟩, .decimal (.inr (.inr rfl)) twelve rounds⟩⟩

def arabicThree : CodePoint := ⟨0x663, by decide⟩

theorem Numeral.Denotes.exists_digit {digit : CodePoint → Bool} {t : Text} {x : Double} (h : Denotes digit t x) :
    ofChar 'I' ∈ t ∨ ∃ c ∈ t, digit c = true := by
  cases h with
  | infinity isSign => exact .inl (mem_append_right _ (.head _))
  | decimal isSign l rounds =>
    obtain ⟨w, f, e, wholeDigits, fractionDigits, visible⟩ := l
    refine .inr ?_
    rcases visible with some | some
    · obtain ⟨c, member⟩ := exists_mem_of_ne_nil _ some
      exact ⟨c, mem_append_right _ (mem_append_left _ member), wholeDigits c member⟩
    · obtain ⟨c, member⟩ := exists_mem_of_ne_nil _ some
      cases f with
      | none => cases member
      | some ds =>
        refine ⟨c, mem_append_right _ (mem_append_right _ (mem_append_left _ ?_)), fractionDigits c member⟩
        exact .tail _ member

/-- A digit of another script is converted, though no literal over the common digits stands there. -/
theorem arabicThree_is_converted :
    stringToNumber [arabicThree] = .ok (.ofNat 3) ∧ (¬∃ y, Denotes CodePoint.isDigit [arabicThree] y)
      ∧ parseFloat (.string ['1', arabicThree]) = .ok (.ofNat 13) := by
  have three : Double.ofDecimal false 3 0 = .ofNat 3 := by decide +kernel
  have thirteen : Double.ofDecimal false 13 0 = .ofNat 13 := by decide +kernel
  refine ⟨?_, ?_, ?_⟩
  · rw [← three]
    rfl
  · rintro ⟨y, denotes⟩
    exact absurd denotes.exists_digit (by decide)
  · rw [← thirteen]
    rfl

end Unravel
