import Unravel.Proofs.Decimal.Exact
import Unravel.Proofs.Grammar.Operands
import Unravel.Proofs.Value.Integer

/-! Number literals. A numeral that shows a point or an exponent is one token before anything that could follow it, and
   denotes what its layout denotes; no literal denotes a negative number. -/
namespace Unravel.Grammar

open Numeral List

variable {c : CodePoint}

section Runs

variable {p : CodePoint → Bool} {t ds rest : Text}

/-- A text that does not go on with a run of digits, even after a separator. -/
def EndsRun (p : CodePoint → Bool) (rest : Text) : Prop := ∀ c ∈ rest.head?, p c = false ∧ c ≠ '_'

theorem digitTail_cons (digit : p c) (t : Text) : digitTail p (c :: t) = 1 + digitTail p t := by
  cases t with
  | nil => exact if_pos digit
  | cons d t => rw [digitTail, if_pos digit]

theorem digitTail_end (ends : EndsRun p rest) : digitTail p rest = 0 := by
  cases rest with
  | nil => rfl
  | cons c rest =>
    obtain ⟨digit, separator⟩ := ends c rfl
    cases rest with
    | nil => rw [digitTail, if_neg (Bool.eq_false_iff.mp digit)]
    | cons d rest => rw [digitTail, if_neg (Bool.eq_false_iff.mp digit), if_neg fun both => separator both.1]

theorem digitTail_append (digits : ∀ c ∈ ds, p c) (ends : EndsRun p rest) : digitTail p (ds ++ rest) = ds.length := by
  induction ds with
  | nil => exact digitTail_end ends
  | cons d ds ih =>
    obtain ⟨here, below⟩ := forall_mem_cons.mp digits
    rw [cons_append, digitTail_cons here, ih below, length_cons, Nat.add_comm]

theorem digitRun_append (digits : ∀ c ∈ ds, p c) (ends : EndsRun p rest) : digitRun p (ds ++ rest) = ds.length := by
  cases ds with
  | cons d ds =>
    rw [← digitTail_append digits ends, cons_append, digitRun, if_pos (digits d (.head _))]
  | nil =>
    cases rest with
    | nil => rfl
    | cons c rest => exact if_neg (Bool.eq_false_iff.mp (ends c rfl).1)

theorem of_mem_digitTail (member : c ∈ t.take (digitTail p t)) : p c ∨ c = '_' := by
  fun_induction digitTail p t with
  | case1 => cases member
  | case2 d digit =>
    cases mem_singleton.mp member
    exact .inl digit
  | case3 | case6 => cases member
  | case4 d e more digit ih =>
    rw [Nat.add_comm, take_succ_cons] at member
    rcases mem_cons.mp member with rfl | below
    · exact .inl digit
    · exact ih below
  | case5 d e more _ pair ih =>
    rw [Nat.add_comm, take_succ_cons, take_succ_cons] at member
    rcases mem_cons.mp member with rfl | below
    · exact .inr pair.1
    · rcases mem_cons.mp below with rfl | below
      · exact .inl pair.2
      · exact ih below

theorem of_mem_digitRun (member : c ∈ t.take (digitRun p t)) : p c ∨ c = '_' := by
  unfold digitRun at member
  split at member
  next =>
    split at member
    next => exact of_mem_digitTail member
    next => cases member
  next => cases member

end Runs

section Extent

variable {l : Layout} {raw : Text}

theorem isNamePart_of_isDigit (h : c.isDigit) : isNamePart c := by
  have all : ∀ n < 58, 48 ≤ n → ∀ bound, isNamePart ⟨n, bound⟩ := by decide
  rw [CodePoint.isDigit, CodePoint.isBetween, Bool.and_eq_true, decide_eq_true_eq, decide_eq_true_eq] at h
  exact all c.toNat (Nat.lt_succ_of_le h.2) h.1 c.isLt

theorem endsRun_separate (separate : IsSeparate raw) : EndsRun CodePoint.isDigit raw := by
  intro c first
  obtain ⟨other, -⟩ := separate c first
  refine ⟨Bool.eq_false_iff.mpr fun digit => ?_, ?_⟩
  · rw [isNamePart_of_isDigit digit] at other
    cases other
  · rintro rfl
    cases other

theorem isDigit_digitText {ds : List Char} (digits : IsDigits ds) : ∀ c ∈ digitText ds, c.isDigit := by
  intro c member
  obtain ⟨d, hd, rfl⟩ := mem_map.mp member
  exact isDigit_ofChar (digits d hd)

theorem length_digitText (ds : List Char) : (digitText ds).length = ds.length := length_map _

theorem exponentLength_layout (numeral : l.IsNumeral) (separate : IsSeparate raw) :
    exponentLength (l.exponentText ++ raw) = l.exponentText.length := by
  unfold Layout.exponentText
  cases shape : l.exponent with
  | none =>
    cases raw with
    | nil => rfl
    | cons c raw =>
      refine if_neg ?_
      obtain ⟨other, -⟩ := separate c rfl
      rintro (rfl | rfl) <;> cases other
  | some e =>
    obtain ⟨negative, ds⟩ := e
    obtain ⟨digits, filled⟩ := numeral.exponent negative ds shape
    have run := digitRun_append (isDigit_digitText digits) (endsRun_separate separate)
    have some : (digitText ds).length ≠ 0 := by
      rw [length_digitText]
      exact mt eq_nil_of_length_eq_zero filled
    have after : ∀ sign : CodePoint, sign = '+' ∨ sign = '-' →
        exponentLength ('e' :: sign :: (digitText ds ++ raw)) = (digitText ds).length + 2 := by
      intro sign either
      rw [exponentLength, if_pos (.inl rfl)]
      dsimp only
      rw [if_pos either, drop_succ_cons, drop_zero, run, if_neg some]
      omega
    cases negative with
    | false => exact after _ (.inl rfl)
    | true => exact after _ (.inr rfl)

theorem endsRun_tail (separate : IsSeparate raw) : EndsRun CodePoint.isDigit (l.fractionText ++ (l.exponentText ++ raw)) := by
  unfold Layout.fractionText
  split
  · unfold Layout.exponentText
    cases l.exponent with
    | none => exact endsRun_separate separate
    | some e =>
      rintro c ⟨⟩
      decide
  · rintro c ⟨⟩
    decide

theorem endsRun_exponent (separate : IsSeparate raw) : EndsRun CodePoint.isDigit (l.exponentText ++ raw) := by
  unfold Layout.exponentText
  cases l.exponent with
  | none => exact endsRun_separate separate
  | some e =>
    rintro c ⟨⟩
    decide

/-- A numeral that shows a point or an exponent. -/
def IsBroken (l : Layout) : Prop := l.fraction ≠ [] ∨ l.exponent.isSome

theorem exists_mark (broken : IsBroken l) (raw : Text) : ∃ c more, l.fractionText ++ (l.exponentText ++ raw) = c :: more ∧
    (c = '.' ∨ c = 'e') := by
  unfold Layout.fractionText Layout.exponentText
  by_cases whole : l.fraction = []
  · rw [if_pos whole]
    obtain ⟨e, shape⟩ := Option.isSome_iff_exists.mp (broken.resolve_left fun some => some whole)
    rw [shape]
    exact ⟨_, _, rfl, .inr rfl⟩
  · rw [if_neg whole]
    exact ⟨_, _, rfl, .inl rfl⟩

theorem wholeLength_marked (numeral : l.IsNumeral) (mark : c = '.' ∨ c = 'e') (more : Text) :
    wholeLength (digitText l.whole ++ c :: more) = l.whole.length := by
  have ends : EndsRun CodePoint.isDigit (c :: more) := by
    rintro d ⟨⟩
    rcases mark with rfl | rfl <;> decide
  rcases numeral.leading with zero | ⟨d, ds, whole, nonzero⟩
  · rw [zero]
    rcases mark with rfl | rfl <;> rfl
  · have run := digitRun_append (isDigit_digitText numeral.whole) ends
    have other : ofChar d ≠ '0' := fun same => nonzero (CodePoint.ofChar_injective same)
    rw [length_digitText, whole] at run
    rw [whole]
    rw [digitText, map_cons, cons_append] at run ⊢
    obtain ⟨e, rest, after⟩ : ∃ e rest, ds.map ofChar ++ c :: more = e :: rest :=
      exists_cons_of_ne_nil (append_ne_nil_of_right_ne_nil _ (cons_ne_nil c more))
    rw [after] at run ⊢
    exact (if_neg other).trans run

theorem decimalLength_layout (numeral : l.IsNumeral) (broken : IsBroken l) (separate : IsSeparate raw) :
    decimalLength (digitText l.whole ++ (l.fractionText ++ (l.exponentText ++ raw))) = l.text.length := by
  have whole : wholeLength (digitText l.whole ++ (l.fractionText ++ (l.exponentText ++ raw))) = l.whole.length := by
    obtain ⟨c, more, shape, mark⟩ := exists_mark broken raw
    rw [shape]
    exact wholeLength_marked numeral mark more
  have some : l.whole.length ≠ 0 := mt eq_nil_of_length_eq_zero numeral.whole_ne_nil
  have exponent := exponentLength_layout numeral separate
  have length : l.text.length = l.whole.length + (l.fractionText.length + l.exponentText.length) := by
    rw [Layout.text, length_append, length_append, length_digitText]
  have rest : ∀ after : Text, (digitText l.whole ++ after).drop l.whole.length = after := by
    intro after
    rw [← length_digitText, drop_left]
  rw [decimalLength, whole, rest]
  by_cases point : l.fraction = []
  · have none : l.fractionText = [] := if_pos point
    obtain ⟨body, shape⟩ : ∃ body, l.exponentText = ofChar 'e' :: body := by
      obtain ⟨e, shape⟩ := Option.isSome_iff_exists.mp (broken.resolve_left fun some => some point)
      rw [Layout.exponentText, shape]
      exact ⟨_, rfl⟩
    rw [none, shape, length_nil, length_cons, Nat.zero_add] at length
    rw [shape, length_cons] at exponent
    rw [none, shape, nil_append, cons_append]
    dsimp only
    rw [if_neg (by decide), if_neg some, ← cons_append, exponent, length]
    rfl
  · have shape : l.fractionText = ofChar '.' :: digitText l.fraction := if_neg point
    have run := digitRun_append (isDigit_digitText numeral.fraction) (@endsRun_exponent l raw separate)
    rw [shape, length_cons] at length
    rw [shape, cons_append]
    dsimp only
    rw [if_pos rfl, run, if_neg fun both => some both.1, drop_left, exponent, length]
    omega

theorem radix?_marked (numeral : l.IsNumeral) (mark : c = '.' ∨ c = 'e') (more : Text) :
    Literal.radix? (digitText l.whole ++ c :: more) = none := by
  rcases numeral.leading with zero | ⟨d, ds, whole, nonzero⟩
  · rw [zero]
    rcases mark with rfl | rfl <;> rfl
  · have other : ofChar d ≠ '0' := fun same => nonzero (CodePoint.ofChar_injective same)
    obtain ⟨e, rest, after⟩ : ∃ e rest, ds.map ofChar ++ c :: more = e :: rest :=
      exists_cons_of_ne_nil (append_ne_nil_of_right_ne_nil _ (cons_ne_nil c more))
    rw [whole, digitText, map_cons, cons_append, after]
    exact if_pos other

theorem radix?_layout (numeral : l.IsNumeral) (broken : IsBroken l) (raw : Text) :
    Literal.radix? (digitText l.whole ++ (l.fractionText ++ (l.exponentText ++ raw))) = none := by
  obtain ⟨c, more, shape, mark⟩ := exists_mark broken raw
  rw [shape]
  exact radix?_marked numeral mark more

theorem radixLength_unmarked {t : Text} (h : Literal.radix? t = none) : radixLength t = 0 := by
  have none_digit : ∀ t, digitRun (fun _ => false) t = 0 := by
    intro t
    cases t <;> rfl
  rw [radixLength, h]
  dsimp only
  rw [none_digit]
  rfl

theorem numberLength_layout (numeral : l.IsNumeral) (broken : IsBroken l) (separate : IsSeparate raw) :
    numberLength (l.text ++ raw) = l.text.length := by
  have shape : l.text ++ raw = digitText l.whole ++ (l.fractionText ++ (l.exponentText ++ raw)) := by
    simp only [Layout.text, append_assoc]
  have radix := radixLength_unmarked (radix?_layout numeral broken raw)
  have plain := digitRun_append (isDigit_digitText numeral.whole) (@endsRun_tail l raw separate)
  have mark : (l.fractionText ++ (l.exponentText ++ raw)).head? ≠ some (ofChar 'n') := by
    obtain ⟨c, more, shape, mark⟩ := exists_mark broken raw
    rw [shape]
    rintro ⟨⟩
    rcases mark with same | same <;> cases same
  have length : (digitText l.whole).length ≤ l.text.length := by
    rw [Layout.text, length_append]
    exact Nat.le_add_right _ _
  rw [shape, numberLength, radix, plain, decimalLength_layout numeral broken separate, Nat.zero_max,
    drop_left, if_neg fun both => mark both.2]
  exact max_eq_right length

/-- A point behind a whole number belongs to it. -/
theorem numberLength_pointed (numeral : l.IsNumeral) (raw : Text) :
    l.whole.length < numberLength (digitText l.whole ++ "." ++ raw) := by
  have filled : l.whole.length ≠ 0 := mt eq_nil_of_length_eq_zero numeral.whole_ne_nil
  have rest : (digitText l.whole ++ ofChar '.' :: raw).drop l.whole.length = ofChar '.' :: raw := by
    rw [← length_digitText, drop_left]
  have decimal : l.whole.length < decimalLength (digitText l.whole ++ ofChar '.' :: raw) := by
    rw [decimalLength, wholeLength_marked numeral (.inl rfl) raw, rest]
    dsimp only
    rw [if_pos rfl, if_neg fun both => filled both.1]
    omega
  rw [append_assoc]
  exact decimal.trans_le (Nat.le_max_right _ _)

/-- What starts with a digit is a token as far as the longest numeral reaches. -/
theorem leads_number {d : Char} (digit : d.isDigit) {t : Text} {n : Nat} (extent : numberLength (ofChar d :: t) = n + 1) :
    Leads (ofChar d :: t) (.number (ofChar d :: t.take n)) (t.drop n) := by
  have start : isNameStart (ofChar d) = false := by rw [isNameStart, isDigit_ofChar digit, Bool.not_true, Bool.and_false]
  have word : nameLength isNameStart 0 (ofChar d :: t) = 0 := by
    rw [nameLength, start, if_neg Bool.false_ne_true, if_neg (Layout.ne_of_isDigit digit rfl)]
  refine ⟨n + 1, ?_, drop_succ_cons⟩
  rw [token?, word, extent]
  rfl

theorem leads_numeral (numeral : l.IsNumeral) (broken : IsBroken l) (separate : IsSeparate raw) :
    Leads (l.text ++ raw) (.number l.text) raw := by
  have extent := numberLength_layout numeral broken separate
  obtain ⟨d, digit, more, shape⟩ := Layout.head_text numeral
  rw [shape, cons_append] at extent ⊢
  have leads := leads_number digit extent
  rwa [take_left, drop_left] at leads

end Extent

section Value

variable {l : Layout}

theorem number_layout (numeral : l.IsNumeral) (broken : IsBroken l) :
    Literal.number l.text = .ok (.ofDecimal false l.decimal.coefficient l.decimal.exponent) := by
  have absent : ∀ c : CodePoint, (∀ d : Char, d.isDigit = true → c ≠ d) → c ∉ (".e+-" : Text) → c ∉ l.text := by
    intro c digits others member
    rcases Layout.mem_text numeral member with ⟨d, digit, same⟩ | other
    · exact digits d digit same
    · exact others other
  have letter : ∀ c : Char, c.isDigit = false → ∀ d : Char, d.isDigit = true → ofChar c ≠ d :=
    fun c none d digit same => Layout.ne_of_isDigit digit none same.symm
  have whole : Literal.significant l.text = l.text := by
    refine filter_eq_self.mpr fun c member => bne_iff_ne.mpr ?_
    rintro rfl
    exact absent _ (letter '_' rfl) (by decide) member
  have last : l.text.getLast? ≠ some (ofChar 'n') :=
    fun same => absent _ (letter 'n' rfl) (by decide) (mem_of_getLast? same)
  have radix : Literal.radix? l.text = none := by
    have none := radix?_layout numeral broken []
    rwa [append_nil] at none
  have legacy : Literal.legacyRadix? l.text = none := by
    refine if_neg fun conditions => ?_
    obtain ⟨c, more, shape, mark⟩ := exists_mark broken []
    rw [append_nil] at shape
    have decimal := all_eq_true.mp conditions.2.2 c (by rw [Layout.text, shape]; simp)
    rcases mark with rfl | rfl <;> cases decimal
  have read : readDouble? l.text = some (.ofDecimal false l.decimal.coefficient l.decimal.exponent) :=
    Layout.readDouble?_signed numeral false
  rw [Literal.number, whole, if_neg last, Literal.readNumber?, radix]
  dsimp only
  rw [legacy]
  dsimp only
  rw [read]

end Value

section Signs

variable {base : Nat} {t : Text} {x : Double}

theorem readSign_plain (plain : t.head? ≠ some (ofChar '-')) : (readSign t).1 = false := by
  cases t with
  | nil => rfl
  | cons c rest =>
    rw [readSign, if_neg fun same => plain (congrArg some same)]
    split <;> rfl

theorem trimRight_start (p : CodePoint → Bool) (t : Text) : t.trimRight p <+: t := by
  rw [← reverse_suffix, Text.trimRight, reverse_reverse]
  exact dropWhile_suffix p

theorem trim_within (p : CodePoint → Bool) (t : Text) : t.trim p <:+: t :=
  (trimRight_start p _).isInfix.trans (dropWhile_suffix p).isInfix

theorem eq_of_head?_trim {p : CodePoint → Bool} {d : CodePoint} (kept : p c = false) (h : (Text.trim p (c :: t)).head? = some d) : d = c := by
  obtain ⟨rest, shape⟩ := head?_eq_some_iff.mp h
  rw [Text.trim, Text.trimLeft, dropWhile_cons_of_neg (Bool.eq_false_iff.mp kept)] at shape
  have start := trimRight_start p (c :: t)
  rw [shape] at start
  exact (cons_prefix_cons.mp start).1

theorem readInteger?_nonneg (plain : ofChar '-' ∉ t) {n : Int} (h : readInteger? base t = some n) : 0 ≤ n := by
  have sign : (readSign (t.trim CodePoint.isBlank)).1 = false :=
    readSign_plain fun same => plain ((trim_within _ t).subset (mem_of_head? same))
  unfold readInteger? at h
  dsimp only at h
  rw [sign] at h
  split at h
  next => cases h
  next digits _ =>
    split at h
    next => cases h
    next =>
      cases h
      exact Int.natCast_nonneg _

theorem isNegative_digitsToNumber (plain : ofChar '-' ∉ t) (h : digitsToNumber t base = .ok x) : x.isNegative = false := by
  unfold digitsToNumber at h
  dsimp only at h
  split at h
  next => cases h
  next =>
    split at h
    next =>
      cases h
      rfl
    next =>
      split at h
      next n read =>
        split at h
        next =>
          cases h
          rfl
        next =>
          obtain ⟨k, rfl⟩ := Int.eq_ofNat_of_zero_le (readInteger?_nonneg (fun member => plain ((dropWhile_suffix _).subset member)) read)
          cases h
          exact Double.isNegative_ofInt k
      next =>
        split at h
        next =>
          cases h
          rfl
        next => cases h

theorem isNegative_readDouble? (plain : (t.trim CodePoint.isBlank).head? ≠ some (ofChar '-')) (h : readDouble? t = some x) :
    x.isNegative = false := by
  unfold readDouble? at h
  dsimp only at h
  rw [readSign_plain plain] at h
  split at h
  next =>
    cases h
    rfl
  next =>
    split at h
    next =>
      cases h
      rfl
    next =>
      split at h
      next c e _ =>
        cases h
        exact (Decimal.rounds ⟨c, e⟩ false).isNegative
      next => cases h

end Signs

section Tokens

variable {t u : Text} {n : Nat}

theorem head_of_numberLength (some : 0 < numberLength t) : ∃ c more, t = c :: more ∧ (c.isDigit ∨ c = '.') := by
  cases t with
  | nil => cases some
  | cons c more =>
    refine ⟨c, more, rfl, ?_⟩
    by_contra neither
    obtain ⟨digit, point⟩ := not_or.mp neither
    rw [numberLength_eq_zero (Bool.eq_false_iff.mpr digit) fun here => absurd here point] at some
    cases some

/-- The letters that mark a base. -/
def radixLetters : Text := "xXoObB"

theorem radix?_eq_some {base : Nat} (h : Literal.radix? t = some base) : base ∈ [16, 8, 2] ∧
    ∃ mark ∈ radixLetters, ∃ more, t = ofChar '0' :: mark :: more := by
  unfold Literal.radix? at h
  split at h
  next zero mark more =>
    split at h
    next => cases h
    next same =>
      cases not_not.mp same
      have found : base ∈ [16, 8, 2] ∧ mark ∈ radixLetters := by
        split at h
        next either =>
          cases h
          rcases either with rfl | rfl <;> decide
        next =>
          split at h
          next either =>
            cases h
            rcases either with rfl | rfl <;> decide
          next =>
            split at h
            next either =>
              cases h
              rcases either with rfl | rfl <;> decide
            next => cases h
      exact ⟨found.1, mark, found.2, more, rfl⟩
  next => cases h

theorem minus_not_mem_run {p : CodePoint → Bool} (other : p (ofChar '-') = false) (t : Text) :
    ofChar '-' ∉ t.take (digitRun p t) := by
  intro member
  rcases of_mem_digitRun member with digit | separator
  · rw [other] at digit
    cases digit
  · cases separator

theorem radixLength_eq (t : Text) : radixLength t = 0 ∨
    ∃ p : CodePoint → Bool, p (ofChar '-') = false ∧ radixLength t = digitRun p (t.drop 2) + 2 := by
  unfold radixLength
  dsimp only
  split
  next => exact .inl rfl
  next =>
    refine .inr ⟨_, ?_, rfl⟩
    cases radix : Literal.radix? t with
    | none => rfl
    | some base =>
      have bases := (radix?_eq_some radix).1
      simp only [mem_cons, not_mem_nil, or_false] at bases
      rcases bases with rfl | rfl | rfl <;> rfl

theorem minus_not_mem_radix (t : Text) : ofChar '-' ∉ t.take (radixLength t) := by
  have plain : ∀ mark ∈ radixLetters, '-' ≠ mark := by decide
  cases radix : Literal.radix? t with
  | none =>
    rw [radixLength_unmarked radix]
    exact not_mem_nil
  | some base =>
    obtain ⟨-, mark, letter, more, rfl⟩ := radix?_eq_some radix
    rcases radixLength_eq ('0' :: mark :: more) with none | ⟨p, other, length⟩
    · rw [none]
      exact not_mem_nil
    · rw [length, take_succ_cons, take_succ_cons, mem_cons, mem_cons]
      exact not_or.mpr ⟨by decide, not_or.mpr ⟨plain mark letter, minus_not_mem_run other more⟩⟩

theorem minus_not_mem_whole (none : decimalLength t = 0) : ofChar '-' ∉ t.take (numberLength t) := by
  have whole : ofChar '-' ∉ t.take (max (radixLength t) (digitRun CodePoint.isDigit t)) := by
    rcases max_choice (radixLength t) (digitRun CodePoint.isDigit t) with same | same
    · rw [same]
      exact minus_not_mem_radix t
    · rw [same]
      exact minus_not_mem_run rfl t
  rw [numberLength, none, Nat.max_zero]
  split
  next big =>
    rw [take_add_one, ← head?_drop, big.2, mem_append]
    exact not_or.mpr ⟨whole, by decide⟩
  next => exact whole

theorem decimalLength_marked {mark : CodePoint} (letter : mark ∈ radixLetters) {d : CodePoint}
    (next : d ≠ '_' → d = mark) (rest : Text) : decimalLength ('0' :: d :: rest) = 0 := by
  have other : ∀ mark ∈ radixLetters, mark.isBetween '1' '9' = false ∧ mark ≠ '.' ∧
      mark ≠ 'e' ∧ mark ≠ 'E' := by decide
  have plain : d.isBetween '1' '9' = false ∧ d ≠ '.' ∧ d ≠ 'e' ∧ d ≠ 'E' := by
    by_cases separator : d = '_'
    · rw [separator]
      decide
    · rw [next separator]
      exact other mark letter
  obtain ⟨digit, point, small, large⟩ := plain
  have whole : wholeLength ('0' :: d :: rest) = 1 := by
    rw [wholeLength, if_pos rfl, digit]
    rfl
  have exponent : exponentLength (d :: rest) = 0 := if_neg (not_or.mpr ⟨small, large⟩)
  rw [decimalLength, whole, drop_succ_cons, drop_zero]
  dsimp only
  rw [if_neg point, if_neg Nat.one_ne_zero, exponent]
  rfl

theorem significant_cons (kept : c ≠ '_') (t : Text) :
    Literal.significant (c :: t) = c :: Literal.significant t := by
  rw [Literal.significant, filter_cons, if_pos (bne_iff_ne.mpr kept)]
  rfl

theorem minus_not_mem_marked {base : Nat} (h : Literal.radix? (Literal.significant (t.take (numberLength t))) = some base) :
    ofChar '-' ∉ t.take (numberLength t) := by
  obtain ⟨-, mark, letter, s, shape⟩ := radix?_eq_some h
  refine minus_not_mem_whole ?_
  cases length : numberLength t with
  | zero =>
    rw [length] at shape
    cases shape
  | succ k =>
    obtain ⟨c, more, rfl, first⟩ := head_of_numberLength (t := t) (by omega)
    have kept : c ≠ '_' := by
      rintro rfl
      rcases first with digit | point
      · cases digit
      · cases point
    rw [length, take_succ_cons, significant_cons kept] at shape
    obtain ⟨rfl, rest⟩ := List.cons.inj shape
    cases taken : more.take k with
    | nil =>
      rw [taken] at rest
      cases rest
    | cons d ds =>
      obtain ⟨after, rfl⟩ : ∃ after, more = d :: after := by
        cases more with
        | nil =>
          rw [take_nil] at taken
          cases taken
        | cons e after =>
          cases k with
          | zero => cases taken
          | succ k =>
            cases taken
            exact ⟨after, rfl⟩
      refine decimalLength_marked letter (fun other => ?_) after
      rw [taken, significant_cons other] at rest
      exact (List.cons.inj rest).1

theorem head?_trim_significant (some : 0 < numberLength t) :
    ((Literal.significant (t.take (numberLength t))).trim CodePoint.isBlank).head? ≠ Option.some (ofChar '-') := by
  obtain ⟨c, more, rfl, first⟩ := head_of_numberLength some
  have digits : ∀ n < 58, 48 ≤ n → ∀ bound, CodePoint.isBlank ⟨n, bound⟩ = false := by decide
  obtain ⟨blank, separator, sign⟩ : c.isBlank = false ∧ c ≠ '_' ∧ '-' ≠ c := by
    rcases first with digit | rfl
    · have other : ∀ d : CodePoint, d.isDigit = false → c ≠ d := by
        rintro d none rfl
        cases digit.symm.trans none
      refine ⟨?_, other _ rfl, (other _ rfl).symm⟩
      rw [CodePoint.isDigit, CodePoint.isBetween, Bool.and_eq_true, decide_eq_true_eq, decide_eq_true_eq] at digit
      exact digits c.toNat (Nat.lt_succ_of_le digit.2) digit.1 c.isLt
    · decide
  obtain ⟨k, length⟩ := Nat.exists_eq_add_one.mpr some
  rw [length, take_succ_cons, significant_cons separator]
  exact fun same => sign (eq_of_head?_trim blank same)

/-- No literal denotes a negative number. -/
theorem isNegative_number (h : token? t = some (.number u, n)) {x : Double} (value : Literal.number u = .ok x) :
    x.isNegative = false := by
  obtain ⟨some, rfl⟩ := heads_of_token? h
  have subset : ∀ {k : Nat} {c : CodePoint}, c ∈ (Literal.significant (t.take (numberLength t))).drop k → c ∈ t.take (numberLength t) :=
    fun member => mem_of_mem_filter (mem_of_mem_drop member)
  unfold Literal.number at value
  dsimp only at value
  split at value
  next => cases value
  next =>
    split at value
    next y found =>
      cases value
      unfold Literal.readNumber? at found
      split at found
      next base marked =>
        exact isNegative_digitsToNumber (fun member => minus_not_mem_marked marked (subset member)) (Outcome.eq_ok_of_toOption found)
      next =>
        split at found
        next base legacy =>
          refine isNegative_digitsToNumber (fun member => ?_) (Outcome.eq_ok_of_toOption found)
          unfold Literal.legacyRadix? at legacy
          split at legacy
          next conditions => cases all_eq_true.mp conditions.2.2 _ member
          next => cases legacy
        next => exact isNegative_readDouble? (head?_trim_significant some) found
    next => cases value

end Tokens

section Reading

variable {r : Readers} {t u rest : Text} {l : Layout}

theorem reads_primary_number (leads : Leads t (.number u) rest) :
    Reads (r.primary false) t (ahead rest) fun p => ∃ start, p = Phrase.number u start := by
  refine reads_position.bind fun start _ => reads_peek.next ?_
  rw [leads.next?]
  exact (reads_take leads).bind fun _ _ => reads_pure ⟨start, rfl⟩

theorem isFirm_whole (numeral : l.IsNumeral) : IsFirm (digitText l.whole) := by
  have digits : ∀ n < 58, 48 ≤ n → ∀ bound, (⟨n, bound⟩ : CodePoint) ∈ openings := by decide
  obtain ⟨d, ds, whole⟩ := exists_cons_of_ne_nil numeral.whole_ne_nil
  have range := Char.isDigit_iff_toNat.mp (numeral.whole d (whole ▸ (.head _)))
  rw [whole]
  exact ⟨_, rfl, .inr (digits d.toNat (Nat.lt_succ_of_le range.2) range.1 _)⟩

theorem isAccess_number (firm : IsFirm u) (leads : ∀ raw, IsSeparate raw → Leads (u ++ raw) (.number u) raw) :
    IsAccess u fun p => ∃ start, p = Phrase.number u start where
  firm := firm
  starts raw separate := ⟨.number u, (leads raw separate).next?, rfl⟩
  reads := by
    intro n room raw rest Q free further
    have leads := leads raw free.separate
    refine reads_access ?_ (reads_primary_number leads) fun p read => further p _ read ?_
    · rw [leads.next?]
      rintro ⟨⟩
    · rw [readers_bound]
      omega

end Reading

end Unravel.Grammar

namespace Unravel

open Numeral Grammar
open Double (rankUnits)

/-- A whole number below ten to the twenty-first, the script's bound for writing whole numbers out. -/
def Double.IsSmallWhole (x : Double) : Prop := ∃ n < 10 ^ 21, x.units = (n * 2 ^ 1074 : Nat)

theorem exists_multiple_iff (u : Int) (bound k : Nat) :
    (∃ n < bound, u = (n * 2 ^ k : Nat)) ↔ 0 ≤ u ∧ u.toNat % 2 ^ k = 0 ∧ u.toNat / 2 ^ k < bound := by
  constructor
  · rintro ⟨n, small, rfl⟩
    rw [Int.toNat_natCast, Nat.mul_mod_left, Nat.mul_div_cancel n (Nat.two_pow_pos k)]
    exact ⟨Int.natCast_nonneg _, rfl, small⟩
  · rintro ⟨positive, whole, small⟩
    refine ⟨u.toNat / 2 ^ k, small, ?_⟩
    rw [Nat.div_mul_cancel (Nat.dvd_of_mod_eq_zero whole), Int.toNat_of_nonneg positive]

instance (x : Double) : Decidable x.IsSmallWhole := decidable_of_iff _ (exists_multiple_iff x.units (10 ^ 21) 1074).symm

theorem Numeral.Layout.isBroken_of_shown {l : Layout} (shown : 0 < l.fractionText.length + l.exponentText.length) : IsBroken l := by
  by_contra whole
  obtain ⟨fraction, exponent⟩ := not_or.mp whole
  rw [Layout.fractionText, if_pos (not_not.mp fraction), Layout.exponentText, Option.not_isSome_iff_eq_none.mp exponent] at shown
  exact Nat.lt_irrefl 0 shown

section Doubles

variable {x : Double}

theorem isSmallWhole_signed {rank : Fin (0x7ff0000000000000 + 1)} :
    (Double.signed false rank).IsSmallWhole ↔ ∃ n < 10 ^ 21, rankUnits rank.val = n * 2 ^ 1074 := by
  refine exists_congr fun n => and_congr_right fun _ => ?_
  rw [Double.units, if_neg Bool.false_ne_true, Int.natCast_inj]

theorem render_layout {rank : Fin (0x7ff0000000000000 + 1)} (some : 0 < rank.val) (finite : (Double.signed false rank).isFinite) :
    (NumberStyle.script.layout (.shortest rank.val)).IsNumeral ∧
      Render.number (.signed false rank) = (NumberStyle.script.layout (.shortest rank.val)).text := by
  have below : rank.val < Double.infinityRank := by
    have bounded : rank.val ≠ Double.infinityRank := by simpa [Double.isFinite] using finite
    exact Nat.lt_of_le_of_ne (Nat.le_of_lt_succ rank.isLt) bounded
  refine ⟨NumberStyle.isNumeral_layout ((Decimal.shortest_roundsTo some).coefficient_pos some), ?_⟩
  rw [Render.number, Double.isNegative, Bool.and_false, if_neg Bool.false_ne_true,
    NumberStyle.text_eq_layout NumberStyle.isPlain_script some below, signText, if_neg Bool.false_ne_true, List.nil_append]

/-- A whole number below the bound is written out. -/
theorem exists_whole (positive : x.isNegative = false) (finite : x.isFinite) (small : x.IsSmallWhole) :
    ∃ l : Layout, l.IsNumeral ∧ Render.number x = digitText l.whole := by
  cases x with
  | nan => cases finite
  | signed negative rank =>
    cases positive
    rcases Nat.eq_zero_or_pos rank.val with zero | some
    · refine ⟨⟨['0'], [], none⟩, ⟨List.forall_mem_singleton.mpr rfl, List.forall_mem_nil _, by rintro _ _ ⟨⟩, .inl rfl⟩, ?_⟩
      rw [Render.number, Double.isNegative, Bool.and_false, if_neg Bool.false_ne_true, NumberStyle.text, zero]
      rfl
    · obtain ⟨numeral, text⟩ := render_layout some finite
      obtain ⟨whole, bound⟩ := (Decimal.shortest_written_out_iff some).mpr (isSmallWhole_signed.mp small)
      refine ⟨_, numeral, text.trans ?_⟩
      rw [NumberStyle.script_layout_whole whole bound, Layout.text, Layout.fractionText, if_pos rfl, Layout.exponentText, List.append_nil]
      exact List.append_nil _

/-- The text of a number that is not written out shows a point or an exponent, and denotes the number. -/
theorem exists_broken (positive : x.isNegative = false) (finite : x.isFinite) (other : ¬x.IsSmallWhole) :
    ∃ l : Layout, l.IsNumeral ∧ IsBroken l ∧ Render.number x = l.text ∧ Literal.number l.text = .ok x := by
  cases x with
  | nan => cases finite
  | signed negative rank =>
    cases positive
    have some : 0 < rank.val := by
      refine Nat.pos_of_ne_zero fun zero => other ⟨0, by decide, ?_⟩
      rw [Double.units, zero, Nat.zero_mul]
      rfl
    obtain ⟨numeral, text⟩ := render_layout some finite
    have shown : IsBroken (NumberStyle.script.layout (.shortest rank.val)) := by
      refine Layout.isBroken_of_shown (NumberStyle.script_layout_broken ?_)
      rw [isSmallWhole_signed, ← Decimal.shortest_written_out_iff some, not_and_or, not_le, not_le] at other
      exact other
    refine ⟨_, numeral, shown, text, ?_⟩
    rw [number_layout numeral shown, NumberStyle.ofDecimal_layout some]

end Doubles

end Unravel
