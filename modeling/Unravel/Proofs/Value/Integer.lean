import Mathlib.Data.Nat.Digits.Defs
import Unravel.Proofs.Decimal.Layout

/-! Reading integers. Digits of a base give the correctly rounded number that they denote, however many they are, and
   `parseInt` reads the longest run of digits after blanks, a sign and a mark. The Kelvin sign, which counts as a
   letter of bases above twenty though no number can be read from it, is the one exception. -/
namespace Unravel

open List

namespace Double

theorem Rounds.infinite_iff {negative : Bool} {q : ℚ} {x : Double} (h : Rounds negative q x) :
    x = infinity negative ↔ overflow ≤ q := by
  refine ⟨fun same => ?_, fun large => h.unique (.infinite large)⟩
  cases h with
  | infinite large => exact large
  | finite rank below small _ _ =>
    cases same
    exact absurd below (Nat.lt_irrefl _)

theorem Rounds.neg {negative : Bool} {q : ℚ} {x : Double} (h : Rounds negative q x) : Rounds (!negative) q x.neg := by
  cases h with
  | infinite large => exact .infinite large
  | finite rank below small nearest even => exact .finite rank below small nearest even

theorem Rounds.ne_nan {negative : Bool} {q : ℚ} {x : Double} (h : Rounds negative q x) : x ≠ .nan := by
  rintro ⟨⟩
  cases h

theorem Rounds.isNegative {negative : Bool} {q : ℚ} {x : Double} (h : Rounds negative q x) : x.isNegative = negative := by
  cases h <;> rfl

theorem eq_infinity {x : Double} (h : x.isInfinite = true) : x = .infinity x.isNegative := by
  cases x with
  | nan => cases h
  | signed negative rank =>
    have top : rank.val = infinityRank := beq_iff_eq.1 h
    change _ = ofRank negative infinityRank
    rw [← top, ofRank_val]

theorem isNegative_ofInt (n : Nat) : (ofInt n).isNegative = false := by
  rw [ofInt, decide_eq_false (by omega)]
  rfl

theorem rounds_ofInt (n : Nat) : Rounds false n (ofInt n) := by
  have ratio := rounds_ofRatio false n Nat.one_pos
  rw [Nat.cast_one, div_one] at ratio
  rw [ofInt, decide_eq_false (by omega), Int.natAbs_natCast]
  exact ratio

end Double

theorem CodePoint.digit_pos {base : Nat} {c : CodePoint} (h : c.isDigitOf base) (nonzero : c ≠ ofChar '0') : 0 < c.digit := by
  obtain ⟨v, value, -⟩ := digitValue?_of_isDigitOf h
  rw [digit, value, Option.getD_some]
  rw [digitValue?] at value
  split at value
  · rename_i isDigit
    have low : 48 ≤ c.toNat := by
      rw [CodePoint.isDigit, isBetween, Bool.and_eq_true, decide_eq_true_eq] at isDigit
      exact isDigit.1
    have other : c.toNat ≠ 48 := by
      cases c
      rintro rfl
      exact nonzero rfl
    have : v = c.toNat - 48 := (Option.some.inj value).symm
    omega
  split at value
  · cases value
    exact Nat.succ_pos _
  split at value
  · cases value
    exact Nat.succ_pos _
  · cases value

namespace Numeral

variable {base : Nat} {t : Text}

theorem readDigits?_eq_none (plain : ∀ c ∈ t, c ≠ '_') {bad : CodePoint} (member : bad ∈ t)
    (refused : radixValue? base bad = none) : readDigits? base t = none := by
  induction t with
  | nil => cases member
  | cons c rest ih =>
    cases rest with
    | nil =>
      rw [mem_singleton.1 member] at refused
      rw [readDigits?, refused]
      rfl
    | cons d more =>
      have later : bad ∈ d :: more → readDigits? base (d :: more) = none := fun here =>
        ih (fun c hc => plain c (.tail _ hc)) here
      rw [readDigits?]
      rcases mem_cons.1 member with rfl | here
      · rw [refused]
      · cases radixValue? base c with
        | none => rfl
        | some v =>
          dsimp only
          rw [if_neg (plain d (.tail _ (.head _))), later here]
          rfl

theorem positional_significant (t : Text) : positional base (t.dropWhile isZero) = positional base t := by
  induction t with
  | nil => rfl
  | cons c rest ih =>
    rw [dropWhile_cons]
    split
    · rename_i zero
      have start : 0 * base + c.digit = 0 := by
        rw [isZero, beq_iff_eq] at zero
        rw [zero, Nat.zero_mul]
        rfl
      rw [ih, positional, positional, foldl_cons, start]
    · rfl

theorem mul_pow_le_foldl (n : Nat) : n * base ^ t.length ≤ t.foldl (fun n c => n * base + c.digit) n := by
  induction t generalizing n with
  | nil => exact Nat.le_of_eq (Nat.mul_one n)
  | cons c rest ih =>
    calc n * base ^ (rest.length + 1) = n * base * base ^ rest.length := by rw [Nat.pow_succ']; ring
      _ ≤ (n * base + c.digit) * base ^ rest.length := Nat.mul_le_mul_right _ (Nat.le_add_right ..)
      _ ≤ _ := ih _

theorem pow_le_positional {c : CodePoint} (digit : c.isDigitOf base) (nonzero : c ≠ '0') :
    base ^ t.length ≤ positional base (c :: t) := by
  calc base ^ t.length = 1 * base ^ t.length := (Nat.one_mul _).symm
    _ ≤ (0 * base + c.digit) * base ^ t.length := Nat.mul_le_mul_right _ (by rw [Nat.zero_mul, Nat.zero_add]; exact CodePoint.digit_pos digit nonzero)
    _ ≤ positional base (c :: t) := mul_pow_le_foldl _

theorem overflow_le_positional (large : 2 ≤ base) (digits : ∀ c ∈ t, c.isDigitOf base)
    (significant : t.head? ≠ some (ofChar '0')) (long : digitLimit < t.length) : Double.overflow ≤ positional base t := by
  cases t with
  | nil => cases long
  | cons c rest =>
    have least := @pow_le_positional base rest c (digits c (.head _)) fun same => significant (congrArg some same)
    have length : 1024 ≤ rest.length := Nat.le_of_lt_succ (Nat.lt_trans (by decide) long)
    have power : 2 ^ 1024 ≤ positional base (c :: rest) :=
      calc 2 ^ 1024 ≤ 2 ^ rest.length := Nat.pow_le_pow_right (by decide) length
        _ ≤ base ^ rest.length := Nat.pow_le_pow_left large _
        _ ≤ _ := least
    calc Double.overflow ≤ 2 ^ 1024 := sub_le_self _ (by positivity)
      _ ≤ (positional base (c :: rest) : ℚ) := by exact_mod_cast power

end Numeral

open Numeral

section Digits

variable {base : Nat} {digits : Text}

theorem digitsToNumber_zeros (some : digits ≠ []) (none : digits.dropWhile isZero = []) :
    digitsToNumber digits base = .ok (.zero false) := by
  rw [digitsToNumber, show (fun c : CodePoint => c == '0') = isZero from rfl, if_neg (by simpa using some), none]
  rfl

theorem digitsToNumber_refused (left : digits.dropWhile isZero ≠ []) (refused : readInteger? base (digits.dropWhile isZero) = none) :
    digitsToNumber digits base = if 400 < (digits.dropWhile isZero).length then .ok (.infinity false)
      else .error (.invalidDigits base (digits.dropWhile isZero)) := by
  have some : digits ≠ [] := fun none => left (by rw [none]; rfl)
  rw [digitsToNumber, show (fun c : CodePoint => c == '0') = isZero from rfl, if_neg (by simpa using some)]
  dsimp only
  rw [if_neg (by simpa using left), refused]

/-- Digits of a base give the number that they denote, correctly rounded. -/
theorem digitsToNumber_rounds (large : 2 ≤ base) (some : digits ≠ []) (valid : ∀ c ∈ digits, c.isDigitOf base) :
    ∃ x, digitsToNumber digits base = .ok x ∧ x.Rounds false (positional base digits) := by
  have kept : ∀ c ∈ digits.dropWhile isZero, c.isDigitOf base :=
    fun c member => valid c ((dropWhile_sublist isZero).subset member)
  rw [← positional_significant]
  by_cases none : digits.dropWhile isZero = []
  · rw [none]
    refine ⟨_, digitsToNumber_zeros some none, ?_⟩
    rw [positional, foldl_nil, Nat.cast_zero]
    exact Double.rounds_zero false
  · have read := readInteger?_digits kept none head?_significant
    by_cases long : digitLimit < (digits.dropWhile isZero).length ∧ base ∉ [2, 4, 8, 16, 32]
    · rw [if_pos long] at read
      rw [digitsToNumber_refused none read, if_pos (Nat.lt_trans (by decide) long.1)]
      exact ⟨_, rfl, .infinite (overflow_le_positional large kept head?_significant long.1)⟩
    · refine ⟨.ofInt (positional base (digits.dropWhile isZero)), ?_, Double.rounds_ofInt _⟩
      rw [digitsToNumber, show (fun c : CodePoint => c == '0') = isZero from rfl, if_neg (by simpa using some)]
      dsimp only
      rw [if_neg (by simpa using none), read, if_neg long]
      dsimp only
      split
      · rename_i infinite
        rw [Double.eq_infinity infinite, Double.isNegative_ofInt]
      · rfl

theorem positional_eq_ofDigits : positional base digits = Nat.ofDigits base (digits.reverse.map CodePoint.digit) := by
  rw [positional, Nat.ofDigits_eq_foldr, foldr_map, foldr_reverse]
  simp [Nat.mul_comm, Nat.add_comm]

/-- However many digits there are, their number is the double nearest to their value, and infinite where that value is at least
half a step beyond the greatest double. -/
theorem digitsToNumber_nearest (range : 2 ≤ base ∧ base ≤ 36) (filled : digits ≠ []) (valid : ∀ c ∈ digits, c.isDigitOf base) :
    ∃ x, digitsToNumber digits base = .ok x ∧ x.Rounds false (Nat.ofDigits base (digits.reverse.map CodePoint.digit) : Nat) ∧
      (x = .infinity false ↔ (2 ^ 1024 - 2 ^ 970 : ℚ) ≤ (Nat.ofDigits base (digits.reverse.map CodePoint.digit) : Nat)) := by
  rw [← positional_eq_ofDigits]
  obtain ⟨x, read, rounds⟩ := digitsToNumber_rounds range.1 filled valid
  exact ⟨x, read, rounds, rounds.infinite_iff⟩

/-- In the base ten, the reader of whole numbers refuses that many digits. -/
theorem digitsToNumber_nines : readInteger? 10 (.replicate 4301 (ofChar '9')) = none ∧
    digitsToNumber (.replicate 4301 (ofChar '9')) 10 = .ok (.infinity false) := by
  have valid : ∀ c ∈ List.replicate 4301 (ofChar '9'), c.isDigitOf 10 := by
    intro c hc
    rw [List.eq_of_mem_replicate hc]
    rfl
  have long : digitLimit < (List.replicate 4301 (ofChar '9')).length := by
    rw [List.length_replicate]
    decide
  obtain ⟨x, read, -, infinite⟩ := digitsToNumber_nearest (by decide) (by rintro ⟨⟩) valid
  rw [← positional_eq_ofDigits] at infinite
  rw [readInteger?_digits valid (by rintro ⟨⟩) (by decide), if_pos ⟨long, by decide⟩]
  exact ⟨rfl, infinite.mpr (overflow_le_positional (by decide) valid (by decide) long) ▸ read⟩

end Digits

/-- The base for which a radix stands, given the mark before the digits. -/
def integerBase (radix : Int) (mark : Text) : Nat :=
  if mark ≠ [] then 16 else if radix = 0 then 10 else radix.toNat

/-- The mark of the base sixteen stands here. -/
def IsMarked (t : Text) : Prop := ("0x" : Text) <+: t ∨ ("0X" : Text) <+: t

theorem startsWith_mark (t : Text) : (Text.startsWith t "0x" || Text.startsWith t "0X") = true ↔ IsMarked t := by
  rw [Bool.or_eq_true, Text.startsWith, Text.startsWith, List.isPrefixOf_iff_prefix, List.isPrefixOf_iff_prefix]
  rfl

theorem parseIntBase?_mark {radix : Int} {mark run : Text}
    (isMark : (radix = 0 ∨ radix = 16) ∧ (mark = ("0x" : Text) ∨ mark = ("0X" : Text))
      ∨ mark = [] ∧ (radix = 0 ∨ radix = 16 → ¬IsMarked run)) (range : radix = 0 ∨ 2 ≤ radix ∧ radix ≤ 36) :
    parseIntBase? radix (mark ++ run) = some (integerBase radix mark, run) := by
  rcases isMark with ⟨radices, shown⟩ | ⟨rfl, unmarked⟩
  · rcases radices with rfl | rfl <;> rcases shown with rfl | rfl <;> rfl
  · rw [nil_append, parseIntBase?]
    by_cases radices : radix = 0 ∨ radix = 16
    · rw [Bool.eq_false_iff.2 (mt (startsWith_mark run).1 (unmarked radices))]
      rcases radices with rfl | rfl <;> rfl
    · rw [not_or] at radices
      rw [if_neg radices.1, if_neg (by omega), if_neg fun sixteen => radices.2 sixteen.1, integerBase,
        if_neg (fun some => some rfl), if_neg radices.1]

/-- A text taken apart in order to read an integer. Each part is as long as it can be. -/
structure IntegerCut (radix : Int) (t : Text) where
  blanks : Text
  sign : Text
  mark : Text
  digits : Text
  rest : Text
  text_eq : blanks ++ (sign ++ (mark ++ (digits ++ rest))) = t
  areBlank : ∀ c ∈ blanks, c.isScriptBlank = true
  visible : Stops CodePoint.isScriptBlank (sign ++ (mark ++ (digits ++ rest)))
  isSign : IsSign sign
  unsigned : sign = [] → Stops isSignMark (mark ++ (digits ++ rest))
  isMark : (radix = 0 ∨ radix = 16) ∧ (mark = "0x" ∨ mark = "0X")
    ∨ mark = [] ∧ (radix = 0 ∨ radix = 16 → ¬IsMarked (digits ++ rest))
  areDigits : ∀ c ∈ digits, c.isDigitOf (integerBase radix mark) = true
  longest : Stops (CodePoint.isDigitOf (integerBase radix mark)) rest

/-- The sign whose lower case is a letter of the alphabet. -/
def kelvin : CodePoint := ⟨0x212a, by decide⟩

namespace IntegerCut

variable {radix : Int} {t : Text} (cut : IntegerCut radix t)

def negative : Bool := cut.sign == ("-" : Text)

def base : Nat := integerBase radix cut.mark

/-- The digits are followed by a Kelvin sign, and the base has a letter for it. -/
def MeetsKelvin : Prop := 20 < cut.base ∧ cut.rest.head? = some kelvin

/-- All that counts as a digit, from the first that is no zero. -/
def taken : Text := ((cut.digits ++ cut.rest).takeWhile (isRadixDigit cut.base)).dropWhile isZero

theorem readSign_eq : readSign (t.trimLeft CodePoint.isScriptBlank) = (cut.negative, cut.mark ++ (cut.digits ++ cut.rest)) := by
  have trimmed : t.trimLeft CodePoint.isScriptBlank = cut.sign ++ (cut.mark ++ (cut.digits ++ cut.rest)) :=
    calc t.trimLeft CodePoint.isScriptBlank
        = (cut.blanks ++ (cut.sign ++ (cut.mark ++ (cut.digits ++ cut.rest)))).dropWhile CodePoint.isScriptBlank :=
          congrArg (List.dropWhile _) cut.text_eq.symm
      _ = _ := by rw [dropWhile_append_of_pos cut.areBlank, cut.visible.dropWhile]
  rw [trimmed, readSign_append cut.isSign cut.unsigned]
  rfl

theorem parseIntBase?_eq (range : radix = 0 ∨ 2 ≤ radix ∧ radix ≤ 36) :
    parseIntBase? radix (cut.mark ++ (cut.digits ++ cut.rest)) = some (cut.base, cut.digits ++ cut.rest) :=
  parseIntBase?_mark cut.isMark range

theorem exists_cut (radix : Int) (t : Text) : Nonempty (IntegerCut radix t) := by
  obtain ⟨body, hbody⟩ : ∃ body, body = t.dropWhile CodePoint.isScriptBlank := ⟨_, rfl⟩
  have visible : Stops CodePoint.isScriptBlank body := by
    rw [hbody]
    exact stops_dropWhile _ t
  obtain ⟨sign, after, rfl, isSign, unsigned⟩ := exists_sign body
  have marked : ∃ mark run, after = mark ++ run ∧ ((radix = 0 ∨ radix = 16) ∧ (mark = ("0x" : Text) ∨ mark = ("0X" : Text))
      ∨ mark = [] ∧ (radix = 0 ∨ radix = 16 → ¬IsMarked run)) := by
    by_cases stands : (radix = 0 ∨ radix = 16) ∧ IsMarked after
    · obtain ⟨radices, ⟨run, rfl⟩ | ⟨run, rfl⟩⟩ := stands
      · exact ⟨"0x", run, rfl, .inl ⟨radices, .inl rfl⟩⟩
      · exact ⟨"0X", run, rfl, .inl ⟨radices, .inr rfl⟩⟩
    · exact ⟨[], after, rfl, .inr ⟨rfl, fun radices shown => stands ⟨radices, shown⟩⟩⟩
  obtain ⟨mark, run, rfl, isMark⟩ := marked
  let digit := CodePoint.isDigitOf (integerBase radix mark)
  have whole : run.takeWhile digit ++ run.dropWhile digit = run := takeWhile_append_dropWhile
  refine ⟨⟨t.takeWhile CodePoint.isScriptBlank, sign, mark, run.takeWhile digit, run.dropWhile digit, ?_,
    fun _ => of_mem_takeWhile, ?_, isSign, ?_, ?_, fun _ => of_mem_takeWhile, stops_dropWhile digit run⟩⟩
  · rw [whole, hbody, takeWhile_append_dropWhile]
  · rwa [whole]
  · rwa [whole]
  · rwa [whole]

theorem takeWhile_append : (cut.digits ++ cut.rest).takeWhile (isRadixDigit cut.base)
    = cut.digits ++ cut.rest.takeWhile (isRadixDigit cut.base) :=
  takeWhile_append_of_pos fun c member => isRadixDigit_of_isDigitOf (cut.areDigits c member)

theorem takeWhile_digits (apart : ¬cut.MeetsKelvin) : (cut.digits ++ cut.rest).takeWhile (isRadixDigit cut.base) = cut.digits := by
  have stops : Stops (isRadixDigit cut.base) cut.rest := by
    intro c head
    refine Bool.eq_false_iff.2 fun counts => ?_
    rcases isDigitOf_or_kelvin counts with digit | ⟨sign, large⟩
    · exact Bool.false_ne_true ((cut.longest c head).symm.trans digit)
    · have same : c = kelvin := by
        cases c
        cases sign
        rfl
      exact apart ⟨large, by rw [Option.mem_def.1 head, same]⟩
  rw [cut.takeWhile_append, stops.takeWhile, append_nil]

theorem readInteger?_taken (meets : cut.MeetsKelvin) : cut.taken ≠ [] ∧ readInteger? cut.base cut.taken = none := by
  obtain ⟨large, head⟩ := meets
  have counts : isRadixDigit cut.base kelvin = true := by
    rw [isRadixDigit, decide_eq_true large]
    rfl
  have member : kelvin ∈ cut.taken := by
    obtain ⟨more, shape⟩ : ∃ more, cut.rest = kelvin :: more := head?_eq_some_iff.1 head
    have found : kelvin ∈ (cut.digits ++ cut.rest).takeWhile (isRadixDigit cut.base) := by
      rw [cut.takeWhile_append, shape, takeWhile_cons_of_pos counts]
      exact mem_append_right _ (.head _)
    rw [← @takeWhile_append_dropWhile _ isZero (List.takeWhile _ _), mem_append] at found
    refine found.resolve_left fun zero => ?_
    exact absurd (of_mem_takeWhile zero) (by decide)
  have plain : ∀ c ∈ cut.taken, isRadixDigit cut.base c = true := fun c hc =>
    of_mem_takeWhile ((dropWhile_sublist isZero).subset hc)
  have refused : readDigits? cut.base cut.taken = none :=
    readDigits?_eq_none (fun c hc => ne_of_isRadixDigit (plain c hc) rfl) member rfl
  refine ⟨ne_nil_of_mem member, ?_⟩
  rw [readInteger?_plain plain head?_significant, refused]
  rfl

variable {radixValue : Value}

theorem parseInt_of_range (range : ¬(radix = 0 ∨ 2 ≤ radix ∧ radix ≤ 36)) (hr : radixValue.toInt32 = .ok radix) :
    parseInt (.string t) radixValue = .ok .nan := by
  have text : (Value.string t).toText = .ok t := rfl
  have none : ∀ body, parseIntBase? radix body = none := by
    intro body
    rw [parseIntBase?, if_neg (by omega), if_pos (by omega)]
  rw [parseInt, text]
  simp only [bind, Except.bind, hr, none]
  rfl

variable (range : radix = 0 ∨ 2 ≤ radix ∧ radix ≤ 36) (hr : radixValue.toInt32 = .ok radix)

include range hr

theorem parseInt_eq :
    parseInt (.string t) radixValue =
      if ((cut.digits ++ cut.rest).takeWhile (isRadixDigit cut.base)).isEmpty then .ok .nan
      else (digitsToNumber ((cut.digits ++ cut.rest).takeWhile (isRadixDigit cut.base)) cut.base).map fun x =>
        if cut.negative then x.neg else x := by
  have text : (Value.string t).toText = .ok t := rfl
  rw [parseInt, text]
  simp only [bind, Except.bind, cut.readSign_eq, hr, cut.parseIntBase?_eq range]
  split
  · rfl
  · cases digitsToNumber ((cut.digits ++ cut.rest).takeWhile (isRadixDigit cut.base)) cut.base <;> rfl

theorem parseInt_nan (apart : ¬cut.MeetsKelvin) (none : cut.digits = []) : parseInt (.string t) radixValue = .ok .nan := by
  rw [cut.parseInt_eq range hr, cut.takeWhile_digits apart, none]
  rfl

theorem parseInt_rounds (apart : ¬cut.MeetsKelvin) (some : cut.digits ≠ []) :
    ∃ x, parseInt (.string t) radixValue = .ok x ∧ x.Rounds cut.negative (positional cut.base cut.digits) := by
  have large : 2 ≤ cut.base := by
    rw [base, integerBase]
    split
    · decide
    · split
      · decide
      · omega
  obtain ⟨x, read, rounds⟩ := digitsToNumber_rounds large some cut.areDigits
  rw [cut.parseInt_eq range hr, cut.takeWhile_digits apart, if_neg (by simpa using some), read]
  refine ⟨if cut.negative then x.neg else x, rfl, ?_⟩
  cases cut.negative with
  | false => exact rounds
  | true => exact rounds.neg

/-- After a Kelvin sign the text is refused, or counts as infinite if it is long. -/
theorem parseInt_kelvin (meets : cut.MeetsKelvin) :
    parseInt (.string t) radixValue = if 400 < cut.taken.length then .ok (.infinity cut.negative)
      else .error (.invalidDigits cut.base cut.taken) := by
  obtain ⟨left, refused⟩ := cut.readInteger?_taken meets
  have some : (cut.digits ++ cut.rest).takeWhile (isRadixDigit cut.base) ≠ [] := by
    intro none
    rw [taken, none] at left
    exact left rfl
  have ends : digitsToNumber ((cut.digits ++ cut.rest).takeWhile (isRadixDigit cut.base)) cut.base
      = if 400 < cut.taken.length then .ok (.infinity false) else .error (.invalidDigits cut.base cut.taken) :=
    digitsToNumber_refused left refused
  rw [cut.parseInt_eq range hr, if_neg (by simpa using some), ends]
  by_cases long : 400 < cut.taken.length
  · rw [if_pos long, if_pos long]
    cases cut.negative <;> rfl
  · rw [if_neg long, if_neg long]
    rfl

end IntegerCut

/-- `parseInt` reads the longest run of digits after blanks, a sign and a mark of the base, correctly rounded, and gives
NaN exactly for a radix out of range and for a text without digits there. If a Kelvin sign follows in a base above
twenty, it fails or gives an infinity. -/
theorem parseInt_reads_longest_run (t : Text) {radix : Value} (modelled : radix.isModelled) :
    ∃ r, radix.toInt32 = .ok r ∧ Nonempty (IntegerCut r t) ∧ ∀ cut : IntegerCut r t,
      (parseInt (.string t) radix = .ok .nan ↔ ¬(r = 0 ∨ 2 ≤ r ∧ r ≤ 36) ∨ cut.digits = [] ∧ ¬cut.MeetsKelvin)
      ∧ (r = 0 ∨ 2 ≤ r ∧ r ≤ 36 → cut.digits ≠ [] → ¬cut.MeetsKelvin →
          ∃ x, parseInt (.string t) radix = .ok x ∧ x.Rounds cut.negative (positional cut.base cut.digits))
      ∧ (r = 0 ∨ 2 ≤ r ∧ r ≤ 36 → cut.MeetsKelvin →
          parseInt (.string t) radix = if 400 < cut.taken.length then .ok (.infinity cut.negative)
            else .error (.invalidDigits cut.base cut.taken)) := by
  obtain ⟨r, hr⟩ := (Value.succeeds_toInt32 modelled).exists_ok
  refine ⟨r, hr, IntegerCut.exists_cut r t, fun cut => ⟨⟨fun nan => ?_, ?_⟩, ?_, ?_⟩⟩
  · by_contra other
    rw [not_or, not_not, not_and_or, not_not] at other
    obtain ⟨range, digits | meets⟩ := other
    · by_cases meets : cut.MeetsKelvin
      · rw [cut.parseInt_kelvin range hr meets] at nan
        split at nan <;> cases nan
      · obtain ⟨x, read, rounds⟩ := cut.parseInt_rounds range hr meets digits
        rw [read] at nan
        cases nan
        exact rounds.ne_nan rfl
    · rw [cut.parseInt_kelvin range hr meets] at nan
      split at nan <;> cases nan
  · rintro (outside | ⟨none, apart⟩)
    · exact IntegerCut.parseInt_of_range outside hr
    · by_cases range : r = 0 ∨ 2 ≤ r ∧ r ≤ 36
      · exact cut.parseInt_nan range hr apart none
      · exact IntegerCut.parseInt_of_range range hr
  · exact fun range some apart => cut.parseInt_rounds range hr apart some
  · exact fun range meets => cut.parseInt_kelvin range hr meets

def signedHex : IntegerCut 0 (" -0x1Fz" : Text) where
  blanks := " "
  sign := "-"
  mark := "0x"
  digits := "1F"
  rest := "z"
  text_eq := rfl
  areBlank := by decide
  visible := by unfold Stops; decide
  isSign := .inl rfl
  unsigned := by rintro ⟨⟩
  isMark := .inl ⟨.inl rfl, .inl rfl⟩
  areDigits := by decide
  longest := by unfold Stops; decide

theorem signedHex_is_read : ∃ x, parseInt (.string (" -0x1Fz" : Text)) .undefined = .ok x ∧ x.Rounds true 31 := by
  obtain ⟨r, hr, -, reads⟩ := @parseInt_reads_longest_run " -0x1Fz" .undefined rfl
  obtain rfl : 0 = r := Except.ok.inj hr
  have value : positional signedHex.base signedHex.digits = 31 := by decide
  have read := (reads signedHex).2.1 (.inl rfl) (by decide) fun meets => absurd meets.1 (by decide)
  rw [value] at read
  exact read

def beforeKelvin : IntegerCut 36 ['1', kelvin] where
  blanks := []
  sign := []
  mark := []
  digits := "1"
  rest := [kelvin]
  text_eq := rfl
  areBlank := by decide
  visible := by unfold Stops; decide
  isSign := .inr (.inr rfl)
  unsigned := fun _ => by unfold Stops; decide
  isMark := .inr ⟨rfl, fun radices => absurd radices (by decide)⟩
  areDigits := by decide
  longest := by unfold Stops; decide

/-- The number before the Kelvin sign is not read. -/
theorem beforeKelvin_is_refused : parseInt (.string ['1', kelvin]) (.number (.ofNat 36))
    = .error (.invalidDigits 36 ['1', kelvin]) := by
  have radix : (Value.number (.ofNat 36)).toInt32 = .ok 36 :=
    congrArg Except.ok (by decide +kernel : (Double.ofNat 36).toWord.toInt = 36)
  rw [beforeKelvin.parseInt_kelvin (.inr (by decide)) radix ⟨by decide, rfl⟩, if_neg (by decide)]
  rfl

end Unravel
