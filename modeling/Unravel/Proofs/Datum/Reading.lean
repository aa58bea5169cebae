import Unravel.Challenge
import Unravel.Proofs.Decimal.Layout

/-! Reading JSON text that was written for an answer. Each reader, standing before a text and anything that may
   follow it, takes the text and leaves what follows: strings come back as they were, numbers as their shortest
   decimals, arrays member by member. -/
namespace Unravel.Datum

open List

open Numeral (Layout digitText signText)

/-- The read gives a value and leaves a text. -/
def Gives {α : Type} (read : Reader α) (value : α) (rest : Text) : Prop :=
  ∃ offset, read = .ok (value, ⟨rest, offset⟩)

theorem skip_one (c : CodePoint) (rest : Text) (offset : Nat) :
    (⟨c :: rest, offset⟩ : Cursor).skip 1 = ⟨rest, offset + 1⟩ := rfl

section Strings

variable {start fuel offset : Nat} {read rest : Text} {c : CodePoint}

theorem eq_of_toNat {n : Nat} (bound : n < 0x110000) (same : c.toNat = n) : c = ⟨n, bound⟩ := by
  cases c
  cases same
  rfl

theorem shortEscape?_eq_some {e : Text} (h : Text.shortEscape? c = some e) :
    ∃ y, e = [ofChar '\\', y] ∧ y ≠ 'u' ∧ simpleEscape? y = some c := by
  unfold Text.shortEscape? at h
  split at h
  · rename_i same
    cases h
    exact ⟨'"', rfl, by decide, by rw [same]; rfl⟩
  split at h
  · rename_i same
    cases h
    exact ⟨'\\', rfl, by decide, by rw [same]; rfl⟩
  split at h
  · rename_i same
    cases h
    exact ⟨'b', rfl, by decide, by rw [eq_of_toNat (by decide) same]; rfl⟩
  split at h
  · rename_i same
    cases h
    exact ⟨'f', rfl, by decide, by rw [eq_of_toNat (by decide) same]; rfl⟩
  split at h
  · rename_i same
    cases h
    exact ⟨'n', rfl, by decide, by rw [same]; rfl⟩
  split at h
  · rename_i same
    cases h
    exact ⟨'r', rfl, by decide, by rw [same]; rfl⟩
  split at h
  · rename_i same
    cases h
    exact ⟨'t', rfl, by decide, by rw [same]; rfl⟩
  · cases h

theorem shortEscape?_eq_none (h : Text.shortEscape? c = none) : c ≠ '"' ∧ c ≠ '\\' := by
  constructor
  · rintro rfl
    exact nomatch h
  · rintro rfl
    exact nomatch h

theorem hexUnit?_control (small : c.toNat < 0x20) : hexUnit? (Text.hex 4 c.toNat ++ rest) = some c.toNat := by
  have length : ∀ n < 0x20, (Text.hex 4 n).length = 4 := by decide
  have value : ∀ n < 0x20, hexUnit? (Text.hex 4 n) = some n := by decide
  have taken : (Text.hex 4 c.toNat ++ rest).take 4 = (Text.hex 4 c.toNat).take 4 := by
    rw [take_append_of_le_length (by rw [length _ small])]
  rw [← value _ small, hexUnit?, taken]
  rfl

theorem readUnitEscape_control (offset : Nat) (small : c.toNat < 0x20) (more : rest ≠ []) :
    Gives (readUnitEscape ⟨'u' :: (Text.hex 4 c.toNat ++ rest), offset⟩) c rest := by
  have length : ∀ n < 0x20, (Text.hex 4 n).length = 4 := by decide
  have long : ¬ (Text.hex 4 c.toNat ++ rest).length ≤ 4 := by
    rw [length_append, length _ small]
    have := length_pos_iff.2 more
    omega
  have point : unitPoint c.toNat = c := by
    rw [unitPoint, CodePoint.ofNat?, dif_pos c.isLt]
    rfl
  have plain : c.isHighSurrogate = false := by
    unfold CodePoint.isHighSurrogate
    rw [decide_eq_false (by omega)]
    rfl
  have after : (Text.hex 4 c.toNat ++ rest).drop 4 = rest := by
    rw [drop_append_of_le_length (Nat.le_of_eq (length _ small).symm), drop_of_length_le
      (Nat.le_of_eq (length _ small)), nil_append]
  unfold readUnitEscape
  rw [skip_one]
  dsimp only [Cursor.skip]
  rw [if_neg long, hexUnit?_control small]
  dsimp only
  rw [point, plain, after, if_neg (fun h => Bool.false_ne_true h.1)]
  exact ⟨_, rfl⟩

theorem readString_escape (start fuel offset : Nat) (c : CodePoint) (read : Text) (more : rest ≠ []) : ∃ next,
    readString start (fuel + 1) ⟨Text.jsonEscape c ++ rest, offset⟩ read
      = readString start fuel ⟨rest, next⟩ (c :: read) := by
  unfold Text.jsonEscape
  cases escape : Text.shortEscape? c with
  | some e =>
    obtain ⟨y, rfl, notUnit, value⟩ := shortEscape?_eq_some escape
    refine ⟨offset + 2, ?_⟩
    dsimp only [cons_append, nil_append]
    rw [readString]
    dsimp only
    rw [if_neg (by decide), if_pos rfl, if_neg notUnit, value]
    rfl
  | none =>
    obtain ⟨notQuote, notBackslash⟩ := shortEscape?_eq_none escape
    dsimp only
    by_cases small : c.toNat < 0x20
    · obtain ⟨next, unit⟩ := readUnitEscape_control (offset + 1) small more
      have written : Text.unitEscapes c = ofChar '\\' :: 'u' :: Text.hex 4 c.toNat := by
        rw [Text.unitEscapes, if_pos (by omega)]
        rfl
      refine ⟨next, ?_⟩
      rw [if_pos small, written]
      dsimp only [cons_append]
      rw [readString]
      dsimp only
      rw [if_neg (by decide), if_pos rfl, if_pos rfl, skip_one, unit]
    · refine ⟨offset + 1, ?_⟩
      rw [if_neg small]
      dsimp only [cons_append, nil_append]
      rw [readString]
      dsimp only
      rw [if_neg notQuote, if_neg notBackslash, if_neg (by omega)]
      rfl

/-- The reader takes a whole string up to its closing quote. -/
theorem readString_quoted {t : Text} (enough : t.length < fuel) :
    Gives (readString start fuel ⟨t.flatMap Text.jsonEscape ++ (ofChar '"' :: rest), offset⟩ read)
      (read.reverse ++ t) rest := by
  induction t generalizing fuel offset read with
  | nil =>
    obtain _ | fuel := fuel
    · omega
    refine ⟨offset + 1, ?_⟩
    rw [append_nil]
    rfl
  | cons c t ih =>
    obtain _ | fuel := fuel
    · omega
    rw [flatMap_cons, append_assoc]
    obtain ⟨next, step⟩ := readString_escape start fuel offset c read
      (append_ne_nil_of_right_ne_nil (t.flatMap Text.jsonEscape) (cons_ne_nil (ofChar '"') rest))
    rw [step]
    have taken := @ih fuel next (c :: read) (by simpa using enough)
    rwa [reverse_cons, append_assoc] at taken

theorem length_le_quoted (t : Text) : t.length ≤ (t.flatMap Text.jsonEscape).length := by
  induction t with
  | nil => exact Nat.le_refl 0
  | cons c t ih =>
    have some : 0 < (Text.jsonEscape c).length := by
      unfold Text.jsonEscape
      split
      · rename_i escape
        obtain ⟨y, rfl, -⟩ := shortEscape?_eq_some escape
        exact Nat.succ_pos 1
      · split
        · unfold Text.unitEscapes
          split <;> exact Nat.succ_pos _
        · exact Nat.succ_pos 0
    rw [flatMap_cons, length_append, length_cons]
    omega

end Strings

section Numbers

variable {l : Layout} {rest : Text}

theorem skip_append (t rest : Text) (offset : Nat) :
    (⟨t ++ rest, offset⟩ : Cursor).skip t.length = ⟨rest, offset + t.length⟩ := by
  rw [Cursor.skip, drop_left]

/-- The double that a numeral denotes. -/
def layoutDouble (l : Layout) : Double :=
  .ofDecimal false l.decimal.coefficient l.decimal.exponent

theorem takeMinus_append (numeral : l.IsNumeral) (negative : Bool) :
    takeMinus (signText negative ++ (l.text ++ rest)) = (negative, l.text ++ rest) := by
  obtain ⟨d, digit, more, shape⟩ := Layout.head_text numeral
  cases negative with
  | true => rfl
  | false =>
    rw [signText, if_neg Bool.false_ne_true, nil_append, shape]
    exact if_neg (Layout.ne_of_isDigit digit rfl)

theorem length_signText (negative : Bool) : (signText negative).length = if negative then 1 else 0 := by
  cases negative <;> rfl

/-- A numeral with its sign is read as a whole number, or as a double if it shows a fraction or an exponent. -/
theorem readNumber_layout (numeral : l.IsNumeral) (ends : Layout.Ends rest)
    (short : 0 < l.fractionText.length + l.exponentText.length ∨ l.whole.length ≤ Numeral.digitLimit)
    (negative : Bool) (offset : Nat) :
    Gives (readNumber ⟨signText negative ++ (l.text ++ rest), offset⟩)
      (if 0 < l.fractionText.length + l.exponentText.length then
        .number (if negative then (layoutDouble l).neg else layoutDouble l)
      else
        .integer (if negative then -(Numeral.digitsValue (digitText l.whole) : Int)
          else Numeral.digitsValue (digitText l.whole))) rest := by
  have whole : (digitText l.whole).length = l.whole.length := length_map ..
  have after : (⟨signText negative ++ (l.text ++ rest), offset⟩ : Cursor).skip
      (l.text.length + if negative then 1 else 0) = ⟨rest, offset + (signText negative ++ l.text).length⟩ := by
    rw [← length_signText, Nat.add_comm, ← length_append, ← append_assoc, skip_append]
  unfold readNumber
  dsimp only
  rw [takeMinus_append numeral]
  dsimp only
  rw [Layout.scanNumber?_append numeral ends]
  dsimp only
  have double : Numeral.readDouble? l.text = some (layoutDouble l) := Layout.readDouble?_signed numeral false
  rw [after, take_left, double]
  by_cases broken : 0 < l.fractionText.length + l.exponentText.length
  · rw [if_pos broken, if_pos (decide_eq_true broken)]
    exact ⟨_, rfl⟩
  · rw [if_neg broken, if_neg (by simpa using broken), if_neg (by omega)]
    exact ⟨_, rfl⟩

/-- What the script's text of a finite number is read as: a whole number below ten to the twenty-first as the
whole number that its shortest decimal shows. -/
def ofWritten : Double → Datum
  | .nan => .null
  | .signed negative rank =>
    let d := Decimal.shortest rank.val
    if rank.val = 0 then .integer 0
    else if 0 ≤ d.exponent ∧ d.point ≤ 21 then
      .integer (if negative then -(d.wholeNumber : Int) else d.wholeNumber)
    else .number (.signed negative rank)

/-- The text is a numeral with a sign, and is read as the datum. -/
def Denotes (t : Text) (datum : Datum) : Prop :=
  ∃ negative l, t = signText negative ++ Layout.text l ∧ l.IsNumeral ∧
    ∀ rest offset, Layout.Ends rest → Gives (readNumber ⟨t ++ rest, offset⟩) datum rest

theorem denotes_zero : Denotes "0" (.integer 0) := by
  have numeral : Layout.IsNumeral ⟨['0'], [], none⟩ := by
    refine ⟨Numeral.isDigits_replicate 1, ?_, ?_, .inl rfl⟩
    · intro c member
      exact nomatch member
    · intro negative ds shape
      exact nomatch shape
  exact ⟨false, _, rfl, numeral, fun rest offset ends => readNumber_layout numeral ends (.inr (by decide)) false offset⟩

variable {d : Decimal}

theorem denotes_whole (positive : 0 < d.coefficient) (whole : 0 ≤ d.exponent) (small : d.point ≤ 21)
    (negative : Bool) : Denotes (signText negative ++ NumberStyle.script.decimalText d)
      (.integer (if negative then -(d.wholeNumber : Int) else d.wholeNumber)) := by
  have numeral := @NumberStyle.isNumeral_layout .script d positive
  have shape := NumberStyle.script_layout_whole whole small
  have value : Numeral.digitsValue (digitText (NumberStyle.script.layout d).whole) = d.wholeNumber := by
    have digits := congrArg Decimal.coefficient (@NumberStyle.decimal_zeros d d.exponent.toNat 0)
    rw [Layout.decimal, replicate_zero, append_nil] at digits
    rw [shape]
    exact digits
  have short : (NumberStyle.script.layout d).whole.length ≤ Numeral.digitLimit := by
    have point : d.point = d.digits.length + d.exponent := rfl
    have limit : Numeral.digitLimit = 4300 := rfl
    rw [shape, length_append, length_replicate]
    omega
  have plain : ¬ 0 < (NumberStyle.script.layout d).fractionText.length + (NumberStyle.script.layout d).exponentText.length := by
    rw [shape]
    exact Nat.lt_irrefl 0
  rw [NumberStyle.decimalText_eq NumberStyle.isPlain_script]
  refine ⟨negative, _, rfl, numeral, fun rest offset ends => ?_⟩
  rw [append_assoc]
  have read := readNumber_layout numeral ends (.inr short) negative offset
  rw [if_neg plain, value] at read
  exact read

theorem denotes_broken {rank : Fin (0x7ff0000000000000 + 1)} (rounds : d.RoundsTo rank.val) (positive : 0 < rank.val)
    (broken : d.exponent < 0 ∨ 21 < d.point) (negative : Bool) :
    Denotes (signText negative ++ NumberStyle.script.decimalText d) (.number (.signed negative rank)) := by
  have numeral := @NumberStyle.isNumeral_layout .script d (rounds.coefficient_pos positive)
  have shown := NumberStyle.script_layout_broken broken
  have value : layoutDouble (NumberStyle.script.layout d) = .signed false rank := by
    have same : (NumberStyle.script.layout d).decimal.RoundsTo rank.val := by
      rw [Decimal.RoundsTo, NumberStyle.value_layout]
      exact rounds
    rw [layoutDouble, same.ofDecimal_eq, Double.ofRank_val]
  rw [NumberStyle.decimalText_eq NumberStyle.isPlain_script]
  refine ⟨negative, _, rfl, numeral, fun rest offset ends => ?_⟩
  rw [append_assoc]
  have read := readNumber_layout numeral ends (.inl shown) negative offset
  rw [if_pos shown, value] at read
  cases negative <;> exact read

theorem denotes_text {x : Double} (finite : x.isFinite = true) :
    Denotes (NumberStyle.script.text x) (ofWritten x) := by
  cases x with
  | nan => exact nomatch finite
  | signed negative rank =>
    rw [NumberStyle.text, ofWritten]
    by_cases zero : rank.val = 0
    · rw [if_pos zero, if_pos zero]
      exact denotes_zero
    · have positive : 0 < rank.val := Nat.pos_of_ne_zero zero
      have bounded : rank.val ≠ Double.infinityRank := by simpa [Double.isFinite] using finite
      have rounds := Decimal.shortest_roundsTo positive
      rw [if_neg zero, if_neg zero, if_neg bounded]
      by_cases whole : 0 ≤ (Decimal.shortest rank.val).exponent ∧ (Decimal.shortest rank.val).point ≤ 21
      · rw [if_pos whole]
        exact denotes_whole (rounds.coefficient_pos positive) whole.1 whole.2 negative
      · rw [if_neg whole]
        exact denotes_broken rounds positive (by omega) negative

end Numbers

section Values

variable {fuel offset : Nat} {rest : Text}

theorem readValue_null : Gives (readValue (fuel + 1) ⟨("null" : Text) ++ rest, offset⟩) .null rest := ⟨_, rfl⟩

theorem readValue_true : Gives (readValue (fuel + 1) ⟨("true" : Text) ++ rest, offset⟩) (.boolean true) rest := ⟨_, rfl⟩

theorem readValue_false : Gives (readValue (fuel + 1) ⟨("false" : Text) ++ rest, offset⟩) (.boolean false) rest :=
  ⟨_, rfl⟩

theorem quoteJson_append (t rest : Text) : t.quoteJson ++ rest
    = ofChar '"' :: (t.flatMap Text.jsonEscape ++ (ofChar '"' :: rest)) := by
  simp only [Text.quoteJson, append_assoc]
  rfl

theorem readValue_quoted (t : Text) :
    Gives (readValue (fuel + 1) ⟨t.quoteJson ++ rest, offset⟩) (.text t) rest := by
  have enough : t.length < (t.quoteJson ++ rest).length + 1 := by
    have := length_le_quoted t
    rw [quoteJson_append, length_cons, length_append]
    omega
  obtain ⟨next, read⟩ := @readString_quoted offset _ (offset + 1) [] rest t enough
  rw [quoteJson_append] at read ⊢
  refine ⟨next, ?_⟩
  rw [readValue]
  dsimp only
  rw [if_pos rfl, skip_one, read]
  rfl

theorem words_find?_numeral {d : Char} (digit : d.isDigit = true) (negative : Bool) (more : Text) :
    (words.find? fun word => (⟨signText negative ++ (ofChar d :: more), offset⟩ : Cursor).starts word.1)
      = none := by
  have other : ∀ c : Char, c.isDigit = false → ((c : CodePoint) == ofChar d) = false := by
    intro c none
    rw [beq_eq_false_iff_ne]
    intro same
    rw [CodePoint.ofChar_injective same, digit] at none
    exact Bool.false_ne_true none.symm
  have differs : ∀ (x y : CodePoint) (w t : Text), (x == y) = false → ¬ Text.startsWith (y :: t) (x :: w) = true := by
    intro x y w t ne
    rw [Text.startsWith, isPrefixOf_cons_cons, ne]
    exact Bool.false_ne_true
  have minus : ∀ w, ¬ Text.startsWith ('-' :: ofChar d :: more) ('-' :: 'I' :: w) = true := by
    intro w starts
    rw [Text.startsWith, isPrefixOf_cons_cons, Bool.and_eq_true] at starts
    exact differs _ _ _ _ (other 'I' rfl) starts.2
  rw [find?_eq_none]
  simp only [words, forall_mem_cons]
  cases negative with
  | false =>
    exact ⟨differs _ _ _ _ (other 'n' rfl), differs _ _ _ _ (other 't' rfl), differs _ _ _ _ (other 'f' rfl),
      differs _ _ _ _ (other 'N' rfl), differs _ _ _ _ (other 'I' rfl), differs _ _ _ _ (other '-' rfl),
      forall_mem_nil _⟩
  | true =>
    exact ⟨Bool.false_ne_true, Bool.false_ne_true, Bool.false_ne_true, Bool.false_ne_true, Bool.false_ne_true,
      minus _, forall_mem_nil _⟩

theorem readValue_other {head : CodePoint} {t : Text} (quote : head ≠ '"') (brace : head ≠ '\x7b')
    (bracket : head ≠ '[') (word : (words.find? fun word => (⟨head :: t, offset⟩ : Cursor).starts word.1) = none) :
    readValue (fuel + 1) ⟨head :: t, offset⟩ = readNumber ⟨head :: t, offset⟩ := by
  rw [readValue]
  dsimp only
  rw [if_neg quote, if_neg brace, if_neg bracket, word]

theorem readValue_numeral {t : Text} {datum : Datum} (denotes : Denotes t datum) (ends : Layout.Ends rest) :
    Gives (readValue (fuel + 1) ⟨t ++ rest, offset⟩) datum rest := by
  obtain ⟨negative, l, shape, numeral, read⟩ := denotes
  obtain ⟨d, digit, more, head⟩ := Layout.head_text numeral
  have number := read rest offset ends
  have other : ∀ c : Char, c.isDigit = false → ofChar d ≠ c := by
    intro c none same
    rw [CodePoint.ofChar_injective same, none] at digit
    exact Bool.false_ne_true digit
  rw [shape, head, append_assoc, cons_append] at number ⊢
  have word := @words_find?_numeral offset d digit negative (more ++ rest)
  have dispatch : readValue (fuel + 1) ⟨signText negative ++ (ofChar d :: (more ++ rest)), offset⟩
      = readNumber ⟨signText negative ++ (ofChar d :: (more ++ rest)), offset⟩ := by
    cases negative with
    | false => exact readValue_other (other '"' rfl) (other '\x7b' rfl) (other '[' rfl) word
    | true => exact readValue_other (by decide) (by decide) (by decide) word
  rw [dispatch]
  exact number

/-- What the text of an answer is read as. -/
def ofAnswer : Value → Datum
  | .undefined | .null => .null
  | .boolean b => .boolean b
  | .string t => .text t
  | .number x => if x.isFinite then ofWritten x else .null
  | .array items => .list (ofAnswers items)
where
  ofAnswers : List Value → List Datum
    | [] => []
    | v :: rest => ofAnswer v :: ofAnswers rest

theorem join_single (t : Text) : Text.join "," [t] = t := append_nil t

theorem join_cons (t u : Text) (ts : List Text) : Text.join "," (t :: u :: ts) = t ++ ("," ++ Text.join "," (u :: ts)) := rfl

theorem skipBlanks_of_head {c : CodePoint} {t : Text} (visible : [0x20, 0x9, 0xa, 0xd].contains c.toNat = false) :
    (⟨c :: t, offset⟩ : Cursor).skipBlanks = ⟨c :: t, offset⟩ := by
  rw [Cursor.skipBlanks, takeWhile_cons_of_neg (by rw [visible]; exact Bool.false_ne_true)]
  rfl

/-- The text starts with a character that is neither blank nor a closing bracket. -/
def Opens (t : Text) : Prop :=
  ∃ c more, t = c :: more ∧ [0x20, 0x9, 0xa, 0xd].contains c.toNat = false ∧ c ≠ ']'

theorem Denotes.opens {t : Text} {datum : Datum} (h : Denotes t datum) : Opens t := by
  obtain ⟨negative, l, rfl, numeral, -⟩ := h
  obtain ⟨d, digit, more, head⟩ := Layout.head_text numeral
  rw [head]
  cases negative with
  | true => exact ⟨'-', _, rfl, rfl, by decide⟩
  | false =>
    have range := Char.isDigit_iff_toNat.1 digit
    have visible : ∀ n < 58, 48 ≤ n → [0x20, 0x9, 0xa, 0xd].contains n = false := by decide
    refine ⟨d, _, rfl, visible d.toNat (Nat.lt_succ_of_le range.2) range.1, fun same => ?_⟩
    rw [CodePoint.ofChar_injective same] at digit
    exact nomatch digit

theorem opens_answerText (v : Value) : Opens v.answerText := by
  cases v with
  | undefined => exact ⟨'n', _, rfl, rfl, by decide⟩
  | null => exact ⟨'n', _, rfl, rfl, by decide⟩
  | boolean b =>
    cases b with
    | true => exact ⟨'t', _, rfl, rfl, by decide⟩
    | false => exact ⟨'f', _, rfl, rfl, by decide⟩
  | string t => exact ⟨'"', _, rfl, rfl, by decide⟩
  | array items => exact ⟨'[', _, rfl, rfl, by decide⟩
  | number x =>
    rw [Value.answerText]
    split
    · rename_i finite
      exact (denotes_text finite).opens
    · exact ⟨'n', _, rfl, rfl, by decide⟩

theorem opens_join {t : Text} (opens : Opens t) (ts : List Text) (after : Text) : Opens (Text.join "," (t :: ts) ++ after) := by
  obtain ⟨c, more, rfl, visible, other⟩ := opens
  cases ts with
  | nil => exact ⟨c, _, by rw [join_single]; rfl, visible, other⟩
  | cons u ts => exact ⟨c, _, by rw [join_cons]; rfl, visible, other⟩

theorem Opens.skipBlanks {t : Text} (h : Opens t) : (⟨t, offset⟩ : Cursor).skipBlanks = ⟨t, offset⟩ := by
  obtain ⟨c, more, rfl, visible, -⟩ := h
  exact skipBlanks_of_head visible

theorem Opens.not_starts {t : Text} (h : Opens t) : (⟨t, offset⟩ : Cursor).starts "]" = false := by
  obtain ⟨c, more, rfl, -, other⟩ := h
  have differs : (']' == c) = false := beq_eq_false_iff_ne.2 other.symm
  change (']' == c && _) = false
  rw [differs]
  rfl

theorem readValue_emptyArray : Gives (readValue (fuel + 1) ⟨("[]" : Text) ++ rest, offset⟩) (.list []) rest := ⟨_, rfl⟩

theorem readValue_array {t : Text} (opens : Opens t) :
    readValue (fuel + 1) ⟨'[' :: t, offset⟩ = readElements fuel ⟨t, offset + 1⟩ [] := by
  rw [readValue]
  dsimp only
  rw [if_neg (by decide), if_neg (by decide), if_pos rfl, skip_one, opens.skipBlanks, opens.not_starts]
  rfl

theorem readElements_last {datum : Datum} {t : Text} {read : List Datum}
    (value : Gives (readValue fuel ⟨t, offset⟩) datum (']' :: rest)) :
    Gives (readElements (fuel + 1) ⟨t, offset⟩ read) (.list (read.reverse ++ [datum])) rest := by
  obtain ⟨next, value⟩ := value
  rw [readElements, value]
  dsimp only
  have closes : (⟨']' :: rest, next⟩ : Cursor).starts "]" = true := rfl
  rw [skipBlanks_of_head rfl, if_pos closes, reverse_cons]
  exact ⟨_, rfl⟩

theorem readElements_next {datum : Datum} {t after : Text} {read : List Datum} (opens : Opens after)
    (value : Gives (readValue fuel ⟨t, offset⟩) datum (',' :: after)) :
    ∃ next, readElements (fuel + 1) ⟨t, offset⟩ read = readElements fuel ⟨after, next⟩ (datum :: read) := by
  obtain ⟨next, value⟩ := value
  refine ⟨next + 1, ?_⟩
  have goesOn : ¬ (⟨',' :: after, next⟩ : Cursor).starts "]" = true := Bool.false_ne_true
  have comma : (⟨',' :: after, next⟩ : Cursor).starts "," = true := rfl
  rw [readElements, value]
  dsimp only
  rw [skipBlanks_of_head rfl, if_neg goesOn, if_pos comma, skip_one, opens.skipBlanks]

theorem ends_comma (t : Text) : Layout.Ends (',' :: t) := by
  rintro c ⟨⟩
  decide

theorem ends_bracket (t : Text) : Layout.Ends (']' :: t) := by
  rintro c ⟨⟩
  decide

theorem length_pos_of_opens {t : Text} (h : Opens t) : 0 < t.length := by
  obtain ⟨c, more, rfl, -⟩ := h
  exact Nat.succ_pos _

theorem answerText_array (items : List Value) (rest : Text) :
    (Value.array items).answerText ++ rest
      = ofChar '[' :: (Text.join "," (Value.answerTexts items) ++ (ofChar ']' :: rest)) := by
  rw [Value.answerText, append_assoc, append_assoc]
  rfl

theorem length_array (items : List Value) :
    (Value.array items).answerText.length = (Text.join "," (Value.answerTexts items)).length + 2 := by
  rw [Value.answerText, length_append, length_append]
  exact Nat.add_right_comm 1 _ 1 |>.trans (Nat.add_comm _ _)

mutual
/-- The text of an answer is read back, whatever follows it. -/
theorem readValue_answer : ∀ (v : Value) (fuel offset : Nat) (rest : Text), 2 * v.answerText.length ≤ fuel + 1 →
    Layout.Ends rest → Gives (readValue (fuel + 1) ⟨v.answerText ++ rest, offset⟩) (ofAnswer v) rest
  | .undefined, _, _, _, _, _ => readValue_null
  | .null, _, _, _, _, _ => readValue_null
  | .boolean true, _, _, _, _, _ => readValue_true
  | .boolean false, _, _, _, _, _ => readValue_false
  | .string t, _, _, _, _, _ => readValue_quoted t
  | .number x, fuel, offset, rest, _, ends => by
    rw [Value.answerText, ofAnswer]
    by_cases finite : x.isFinite = true
    · rw [if_pos finite, if_pos finite]
      exact readValue_numeral (denotes_text finite) ends
    · rw [if_neg finite, if_neg finite]
      exact readValue_null
  | .array [], _, _, _, _, _ => readValue_emptyArray
  | .array (v :: vs), fuel, offset, rest, enough, _ => by
    have opens : Opens (Text.join "," (Value.answerTexts (v :: vs)) ++ (ofChar ']' :: rest)) :=
      opens_join (opens_answerText v) _ _
    rw [length_array] at enough
    rw [answerText_array, readValue_array opens]
    exact readElements_answers (v :: vs) (cons_ne_nil v vs) fuel (offset + 1) rest [] (by omega)

theorem readElements_answers : ∀ (items : List Value), items ≠ [] → ∀ (fuel offset : Nat) (rest : Text)
    (read : List Datum), 2 * (Text.join "," (Value.answerTexts items)).length < fuel →
    Gives (readElements fuel ⟨Text.join "," (Value.answerTexts items) ++ (ofChar ']' :: rest), offset⟩ read)
      (.list (read.reverse ++ ofAnswer.ofAnswers items)) rest
  | [], nonempty, _, _, _, _, _ => absurd rfl nonempty
  | [v], _, fuel, offset, rest, read, enough => by
    have some := length_pos_of_opens (opens_answerText v)
    rw [Value.answerTexts, Value.answerTexts, join_single] at enough ⊢
    obtain ⟨fuel, rfl⟩ : ∃ n, fuel = n + 2 := ⟨fuel - 2, by omega⟩
    exact readElements_last (readValue_answer v fuel offset _ (by omega) (ends_bracket rest))
  | v :: w :: vs, _, fuel, offset, rest, read, enough => by
    have shape : Text.join "," (Value.answerTexts (v :: w :: vs))
        = v.answerText ++ (ofChar ',' :: Text.join "," (Value.answerTexts (w :: vs))) := rfl
    have some := length_pos_of_opens (opens_answerText v)
    have opens : Opens (Text.join "," (Value.answerTexts (w :: vs)) ++ (ofChar ']' :: rest)) :=
      opens_join (opens_answerText w) _ _
    rw [shape, length_append, length_cons] at enough
    rw [shape, append_assoc, cons_append]
    obtain ⟨fuel, rfl⟩ : ∃ n, fuel = n + 2 := ⟨fuel - 2, by omega⟩
    obtain ⟨next, step⟩ := @readElements_next (fuel + 1) offset _ _ _ read opens
      (readValue_answer v fuel offset _ (by omega) (ends_comma _))
    rw [step]
    have others := readElements_answers (w :: vs) (cons_ne_nil w vs) (fuel + 1) next rest (ofAnswer v :: read)
      (by omega)
    rwa [reverse_cons, append_assoc] at others
end

end Values

end Unravel.Datum
