import Unravel.Proofs.Decimal.Extent

/-! Decimal literals and their reader. A literal has digits with perhaps a point before, among or after them, and perhaps an
   exponent; a signed one may also be the word for infinity. The reader takes the longest literal at the start of a
   text and gives the number that it denotes, correctly rounded. The digits are those of any script. -/
namespace Unravel.Numeral

open List

variable {p : CodePoint → Bool} {sign t : Text}

/-- What follows a run of characters of a class does not start with another one. -/
def Stops (p : CodePoint → Bool) (rest : Text) : Prop := ∀ c ∈ rest.head?, p c = false

theorem Stops.takeWhile {rest : Text} (h : Stops p rest) : rest.takeWhile p = [] := by
  cases rest with
  | nil => rfl
  | cons c more => exact takeWhile_cons_of_neg (by simp [h c rfl])

theorem Stops.dropWhile {rest : Text} (h : Stops p rest) : rest.dropWhile p = rest := by
  cases rest with
  | nil => rfl
  | cons c more => exact dropWhile_cons_of_neg (by simp [h c rfl])

theorem stops_dropWhile (p : CodePoint → Bool) (t : Text) : Stops p (t.dropWhile p) := by
  intro c head
  have kept := head?_dropWhile_not p t
  rw [Option.mem_def.1 head] at kept
  exact kept

theorem of_mem_takeWhile {c : CodePoint} (member : c ∈ t.takeWhile p) : p c = true :=
  all_eq_true.1 all_takeWhile c member

section Signs

def isSignMark (c : CodePoint) : Bool := c == '-' || c == '+'

/-- A sign, or none. -/
def IsSign (sign : Text) : Prop := sign = "-" ∨ sign = "+" ∨ sign = []

theorem readSign_append {body : Text} (isSign : IsSign sign) (unsigned : sign = [] → Stops isSignMark body) :
    readSign (sign ++ body) = (sign == ("-" : Text), body) := by
  rcases isSign with rfl | rfl | rfl
  · rfl
  · rfl
  · rw [nil_append]
    cases body with
    | nil => rfl
    | cons c more =>
      have other := unsigned rfl c rfl
      rw [isSignMark, Bool.or_eq_false_iff, beq_eq_false_iff_ne, beq_eq_false_iff_ne] at other
      rw [readSign, if_neg other.1, if_neg other.2]
      rfl

theorem exists_sign (t : Text) : ∃ sign body, t = sign ++ body ∧ IsSign sign ∧ (sign = [] → Stops isSignMark body) := by
  cases t with
  | nil => exact ⟨[], [], rfl, .inr (.inr rfl), fun _ => by rintro c ⟨⟩⟩
  | cons c more =>
    by_cases minus : c = '-'
    · exact ⟨"-", more, by rw [minus]; rfl, .inl rfl, by rintro ⟨⟩⟩
    by_cases plus : c = '+'
    · exact ⟨"+", more, by rw [plus]; rfl, .inr (.inl rfl), by rintro ⟨⟩⟩
    refine ⟨[], c :: more, rfl, .inr (.inr rfl), fun _ => ?_⟩
    rintro d ⟨⟩
    rw [isSignMark, Bool.or_eq_false_iff, beq_eq_false_iff_ne, beq_eq_false_iff_ne]
    exact ⟨minus, plus⟩

end Signs

/-- The exponent of a literal whose digits are of a class. -/
structure ExponentPart (digit : CodePoint → Bool) where
  mark : CodePoint
  sign : Text
  digits : Text
  isMark : mark = 'e' ∨ mark = 'E'
  isSign : IsSign sign
  some : digits ≠ []
  areDigits : ∀ c ∈ digits, digit c = true

def ExponentPart.text {digit : CodePoint → Bool} (e : ExponentPart digit) : Text := e.mark :: (e.sign ++ e.digits)

def ExponentPart.value {digit : CodePoint → Bool} (e : ExponentPart digit) : Int :=
  if e.sign == ("-" : Text) then -(digitsValue e.digits : Int) else digitsValue e.digits

/-- An unsigned decimal literal whose digits are of a class. There is a digit before or after the point. -/
structure DecimalLiteral (digit : CodePoint → Bool) where
  whole : Text
  fraction : Option Text
  exponent : Option (ExponentPart digit)
  wholeDigits : ∀ c ∈ whole, digit c = true
  fractionDigits : ∀ c ∈ fraction.getD [], digit c = true
  some : whole ≠ [] ∨ fraction.getD [] ≠ []

namespace DecimalLiteral

variable {digit : CodePoint → Bool} (l : DecimalLiteral digit)

def fractionText : Text := l.fraction.elim [] fun ds => '.' :: ds

def exponentText : Text := l.exponent.elim [] ExponentPart.text

def text : Text := l.whole ++ (l.fractionText ++ l.exponentText)

def shownExponent : Int := l.exponent.elim 0 ExponentPart.value

/-- The decimal that a literal shows, all its digits being taken for a whole number. -/
def decimal : Decimal := ⟨digitsValue (l.whole ++ l.fraction.getD []), l.shownExponent - (l.fraction.getD []).length⟩

/-- The number that a literal denotes. -/
def value : ℚ :=
  (digitsValue l.whole + digitsValue (l.fraction.getD []) / 10 ^ (l.fraction.getD []).length) * 10 ^ l.shownExponent

end DecimalLiteral

theorem digitsValue_append (s t : Text) : digitsValue (s ++ t) = digitsValue s * 10 ^ t.length + digitsValue t := by
  have run : ∀ n : Nat, t.foldl (fun n c => n * 10 + c.decimalValue?.getD 0) n = n * 10 ^ t.length + digitsValue t := by
    induction t with
    | nil => exact fun n => (Nat.mul_one n).symm
    | cons c rest ih =>
      intro n
      have first : digitsValue (c :: rest) = _ := ih (0 * 10 + c.decimalValue?.getD 0)
      rw [foldl_cons, ih, first, length_cons, Nat.pow_succ]
      ring
  rw [digitsValue, foldl_append, run]
  rfl

theorem DecimalLiteral.value_decimal {digit : CodePoint → Bool} (l : DecimalLiteral digit) : l.decimal.value = l.value := by
  have scale : (10 : ℚ) ^ (l.fraction.getD []).length ≠ 0 := by positivity
  rw [Decimal.value, decimal, digitsValue_append, value, zpow_sub₀ (by norm_num), zpow_natCast]
  push_cast
  field_simp

section Reading

variable {rest : Text}

theorem isSignMark_of_isDecimal {c : CodePoint} (h : c.isDecimal = true) : isSignMark c = false := by
  refine Bool.eq_false_iff.2 fun mark => ?_
  rw [isSignMark, Bool.or_eq_true, beq_iff_eq, beq_iff_eq] at mark
  rcases mark with rfl | rfl <;> exact absurd h (by decide)

theorem readExponent_append (e : ExponentPart CodePoint.isDecimal) :
    readExponent (e.text ++ rest) =
      (if e.sign == ("-" : Text) then -(digitsValue (e.digits ++ rest.takeWhile CodePoint.isDecimal) : Int)
        else digitsValue (e.digits ++ rest.takeWhile CodePoint.isDecimal), rest.dropWhile CodePoint.isDecimal) := by
  have unsigned : e.sign = [] → Stops isSignMark (e.digits ++ rest) := by
    intro _ c head
    rw [head?_append_of_ne_nil _ e.some] at head
    exact isSignMark_of_isDecimal (e.areDigits c (mem_of_mem_head? head))
  have some : (e.digits ++ rest.takeWhile CodePoint.isDecimal).isEmpty = false := by simp [e.some]
  rw [ExponentPart.text, cons_append, append_assoc, readExponent, if_pos e.isMark, readSign_append e.isSign unsigned]
  dsimp only
  rw [takeWhile_append_of_pos e.areDigits, dropWhile_append_of_pos e.areDigits, some]
  rfl

theorem readExponent_parts (t : Text) : ∃ (e : Option (ExponentPart CodePoint.isDecimal)) (left : Text),
    t = e.elim [] ExponentPart.text ++ left ∧ readExponent t = (e.elim 0 ExponentPart.value, left) := by
  cases t with
  | nil => exact ⟨none, [], rfl, rfl⟩
  | cons c more =>
    rw [readExponent]
    by_cases mark : c = 'e' ∨ c = 'E'
    · obtain ⟨sign, body, rfl, isSign, unsigned⟩ := exists_sign more
      rw [if_pos mark, readSign_append isSign unsigned]
      dsimp only
      by_cases empty : body.takeWhile CodePoint.isDecimal = []
      · rw [empty]
        exact ⟨none, _, rfl, rfl⟩
      · rw [if_neg (by simpa using empty)]
        refine ⟨some ⟨c, sign, body.takeWhile CodePoint.isDecimal, mark, isSign, empty, fun _ => of_mem_takeWhile⟩,
          body.dropWhile CodePoint.isDecimal, ?_, rfl⟩
        rw [Option.elim_some, ExponentPart.text, cons_append, append_assoc, takeWhile_append_dropWhile]
    · rw [if_neg mark]
      exact ⟨none, _, rfl, rfl⟩

theorem ExponentPart.stops (e : ExponentPart CodePoint.isDecimal) : Stops CodePoint.isDecimal (e.text ++ rest) := by
  rintro c ⟨⟩
  rcases e.isMark with mark | mark <;> rw [mark] <;> decide

theorem readFraction_append {afterDigits : Bool} {ds : Text} (digits : ∀ c ∈ ds, c.isDecimal = true)
    (some : afterDigits = true ∨ ds ≠ []) :
    readFraction afterDigits ('.' :: (ds ++ rest))
      = (ds ++ rest.takeWhile CodePoint.isDecimal, rest.dropWhile CodePoint.isDecimal) := by
  have counts : (afterDigits || !(ds ++ rest.takeWhile CodePoint.isDecimal).isEmpty) = true := by
    rcases some with rfl | some
    · rfl
    · simp [some]
  rw [readFraction, takeWhile_append_of_pos digits, dropWhile_append_of_pos digits, if_pos ⟨rfl, counts⟩]

theorem readFraction_parts (afterDigits : Bool) (t : Text) : ∃ (f : Option Text) (left : Text),
    t = f.elim [] (ofChar '.' :: ·) ++ left ∧ (∀ c ∈ f.getD [], c.isDecimal = true)
      ∧ readFraction afterDigits t = (f.getD [], left) := by
  cases t with
  | nil => exact ⟨none, [], rfl, forall_mem_nil _, rfl⟩
  | cons c more =>
    rw [readFraction]
    split
    · rename_i point
      refine ⟨some (more.takeWhile CodePoint.isDecimal), more.dropWhile CodePoint.isDecimal, ?_, fun _ => of_mem_takeWhile, rfl⟩
      rw [Option.elim_some, cons_append, takeWhile_append_dropWhile, point.1]
    · exact ⟨none, _, rfl, forall_mem_nil _, rfl⟩

theorem readFraction_other {afterDigits : Bool} (other : ∀ c ∈ t.head?, c ≠ '.') :
    readFraction afterDigits t = ([], t) := by
  cases t with
  | nil => rfl
  | cons c more => rw [readFraction, if_neg fun point => other c rfl point.1]

theorem readFraction_suffix (afterDigits : Bool) (t : Text) : (readFraction afterDigits t).2 <:+ t := by
  obtain ⟨f, left, shape, -, read⟩ := readFraction_parts afterDigits t
  rw [read, shape]
  exact suffix_append ..

theorem readExponent_suffix (t : Text) : (readExponent t).2 <:+ t := by
  obtain ⟨e, left, shape, read⟩ := readExponent_parts t
  rw [read, shape]
  exact suffix_append ..

theorem readUnsigned?_append {w after ds later left : Text} {x : Int} (digits : ∀ c ∈ w, c.isDecimal = true)
    (stops : Stops CodePoint.isDecimal after) (fraction : readFraction (!w.isEmpty) after = (ds, later))
    (exponent : readExponent later = (x, left)) :
    readUnsigned? (w ++ after) = if w = [] ∧ ds = [] then none else some (digitsValue (w ++ ds), x - ds.length, left) := by
  have empty : (w.isEmpty && ds.isEmpty) = true ↔ w = [] ∧ ds = [] := by
    rw [Bool.and_eq_true, List.isEmpty_iff, List.isEmpty_iff]
  rw [readUnsigned?, takeWhile_append_of_pos digits, dropWhile_append_of_pos digits, stops.takeWhile, stops.dropWhile,
    append_nil]
  dsimp only
  rw [fraction]
  dsimp only
  rw [exponent]
  simp only [empty]

theorem literal_of_readUnsigned? {c : Nat} {e : Int} (read : readUnsigned? t = some (c, e, rest)) :
    ∃ l : DecimalLiteral CodePoint.isDecimal, t = l.text ++ rest ∧ l.decimal = ⟨c, e⟩ := by
  have whole : t.takeWhile CodePoint.isDecimal ++ t.dropWhile CodePoint.isDecimal = t := takeWhile_append_dropWhile
  have wholeDigits : ∀ c ∈ t.takeWhile CodePoint.isDecimal, c.isDecimal = true := fun _ => of_mem_takeWhile
  have stops := stops_dropWhile CodePoint.isDecimal t
  generalize t.takeWhile CodePoint.isDecimal = w at *
  generalize t.dropWhile CodePoint.isDecimal = after at *
  subst whole
  obtain ⟨f, later, rfl, fractionDigits, fraction⟩ := readFraction_parts (!w.isEmpty) after
  obtain ⟨x, left, rfl, exponent⟩ := readExponent_parts later
  rw [readUnsigned?_append wholeDigits stops fraction exponent] at read
  split at read
  · cases read
  · rename_i visible
    cases read
    refine ⟨⟨w, f, x, wholeDigits, fractionDigits, not_and_or.1 visible⟩, ?_, rfl⟩
    rw [DecimalLiteral.text, append_assoc, append_assoc]
    rfl

/-- The reader takes at least the literal that stands there, and before nothing else gives the decimal that it shows. -/
theorem readUnsigned?_literal (l : DecimalLiteral CodePoint.isDecimal) :
    ∃ c e left, readUnsigned? (l.text ++ rest) = some (c, e, left) ∧ left <:+ rest ∧ (rest = [] → l.decimal = ⟨c, e⟩) := by
  obtain ⟨w, f, x, wholeDigits, fractionDigits, visible⟩ := l
  have unread : rest.dropWhile CodePoint.isDecimal <:+ rest := dropWhile_suffix _
  have text : DecimalLiteral.text ⟨w, f, x, wholeDigits, fractionDigits, visible⟩ ++ rest
      = w ++ (f.elim [] (ofChar '.' :: ·) ++ (x.elim [] ExponentPart.text ++ rest)) := by
    rw [DecimalLiteral.text, append_assoc, append_assoc]
    rfl
  rw [text]
  cases f with
  | some ds =>
    have point : Stops CodePoint.isDecimal ('.' :: (ds ++ (x.elim [] ExponentPart.text ++ rest))) := by
      rintro c ⟨⟩
      decide
    have counts : (!w.isEmpty) = true ∨ ds ≠ [] := visible.imp (fun some => by simpa using some) id
    cases x with
    | some x =>
      have fraction := @readFraction_append (x.text ++ rest) _ _ fractionDigits counts
      rw [x.stops.takeWhile, x.stops.dropWhile, append_nil] at fraction
      have read := readUnsigned?_append wholeDigits point fraction (readExponent_append x)
      rw [if_neg (not_and_or.2 visible)] at read
      refine ⟨_, _, _, read, unread, ?_⟩
      rintro rfl
      rw [takeWhile_nil, append_nil]
      rfl
    | none =>
      have fraction := @readFraction_append rest _ _ fractionDigits counts
      have read := readUnsigned?_append wholeDigits point fraction (Prod.eta _).symm
      rw [if_neg fun none => visible.elim (fun some => some none.1) fun some => some (append_eq_nil_iff.1 none.2).1] at read
      refine ⟨_, _, _, read, (readExponent_suffix _).trans unread, ?_⟩
      rintro rfl
      rw [takeWhile_nil, append_nil]
      rfl
  | none =>
    have some : w ≠ [] := visible.resolve_right fun some => some rfl
    cases x with
    | some x =>
      have other : ∀ c ∈ (x.text ++ rest).head?, c ≠ '.' := by
        rintro c ⟨⟩
        rcases x.isMark with mark | mark <;> rw [mark] <;> decide
      have read := readUnsigned?_append wholeDigits x.stops (readFraction_other other) (readExponent_append x)
      rw [if_neg fun none => some none.1] at read
      refine ⟨_, _, _, read, unread, ?_⟩
      rintro rfl
      rw [takeWhile_nil, append_nil x.digits]
      rfl
    | none =>
      -- the digits that follow belong to the whole ones
      have digits : ∀ c ∈ w ++ rest.takeWhile CodePoint.isDecimal, c.isDecimal = true :=
        forall_mem_append.2 ⟨wholeDigits, fun _ => of_mem_takeWhile⟩
      have read := readUnsigned?_append digits (stops_dropWhile _ rest) (Prod.eta _).symm (Prod.eta _).symm
      rw [if_neg fun none => some (append_eq_nil_iff.1 none.1).1, append_assoc, takeWhile_append_dropWhile] at read
      refine ⟨_, _, _, read, (readExponent_suffix _).trans ((readFraction_suffix _ _).trans unread), ?_⟩
      rintro rfl
      rw [takeWhile_nil, append_nil]
      rfl

end Reading

/-- The double that a signed literal, or the signed word for infinity, stands for. -/
inductive Denotes (digit : CodePoint → Bool) : Text → Double → Prop
  | infinity {sign : Text} (isSign : IsSign sign) : Denotes digit (sign ++ ("Infinity" : Text)) (.infinity (sign == ("-" : Text)))
  | decimal {sign : Text} (isSign : IsSign sign) (l : DecimalLiteral digit) {x : Double}
    (rounds : x.Rounds (sign == ("-" : Text)) l.value) : Denotes digit (sign ++ l.text) x

section Signed

variable {digit digit' : CodePoint → Bool} {t rest : Text} {x : Double}

theorem Denotes.ne_nan (h : Denotes digit t x) : x ≠ .nan := by
  rintro rfl
  cases h with
  | decimal isSign l rounds => cases rounds

theorem Denotes.retype (h : Denotes digit t x) (same : ∀ c ∈ t, digit c = digit' c) : Denotes digit' t x := by
  cases h with
  | infinity isSign => exact .infinity isSign
  | decimal isSign l rounds =>
    obtain ⟨w, f, e, wholeDigits, fractionDigits, visible⟩ := l
    rename_i sign
    have kept : ∀ {ds : Text}, (∀ c ∈ ds, c ∈ sign ++ DecimalLiteral.text ⟨w, f, e, wholeDigits, fractionDigits, visible⟩) →
        (∀ c ∈ ds, digit c = true) → ∀ c ∈ ds, digit' c = true :=
      fun inside digits c member => (same c (inside c member)).symm.trans (digits c member)
    have whole : ∀ c ∈ w, digit' c = true := kept (fun c member => mem_append_right _ (mem_append_left _ member)) wholeDigits
    have fraction : ∀ c ∈ f.getD [], digit' c = true := by
      refine kept (fun c member => ?_) fractionDigits
      cases f with
      | none => cases member
      | some ds =>
        exact mem_append_right _ (mem_append_right _ (mem_append_left _ (.tail _ member)))
    cases e with
    | none => exact .decimal isSign ⟨w, f, none, whole, fraction, visible⟩ rounds
    | some e =>
      have exponent : ∀ c ∈ e.digits, digit' c = true := by
        refine kept (fun c member => ?_) e.areDigits
        refine mem_append_right _ (mem_append_right _ (mem_append_right _ ?_))
        exact .tail _ (mem_append_right _ member)
      exact .decimal isSign ⟨w, f, some ⟨e.mark, e.sign, e.digits, e.isMark, e.isSign, e.some, exponent⟩, whole, fraction, visible⟩ rounds

theorem DecimalLiteral.head_text (l : DecimalLiteral CodePoint.isDecimal) :
    ∃ c more, l.text = c :: more ∧ (c.isDecimal = true ∨ c = '.') := by
  obtain ⟨w, f, e, wholeDigits, fractionDigits, visible⟩ := l
  cases w with
  | cons c more => exact ⟨c, _, rfl, .inl (wholeDigits c (.head _))⟩
  | nil =>
    cases f with
    | none => exact absurd visible (by simp)
    | some ds => exact ⟨_, _, rfl, .inr rfl⟩

theorem readDecimal?_infinity (isSign : IsSign sign) :
    readDecimal? (sign ++ (("Infinity" : Text) ++ rest)) = some (.infinity (sign == ("-" : Text)), rest) := by
  have unsigned : sign = [] → Stops isSignMark (("Infinity" : Text) ++ rest) := by
    rintro - c ⟨⟩
    decide
  rw [readDecimal?, readSign_append isSign unsigned]
  dsimp only
  rw [Text.startsWith, List.isPrefixOf_iff_prefix.2 (prefix_append ..), if_pos rfl]
  rfl

theorem readDecimal?_finite {body : Text} (isSign : IsSign sign) (unsigned : sign = [] → Stops isSignMark body)
    (finite : ¬("Infinity" : Text) <+: body) :
    readDecimal? (sign ++ body) = (readUnsigned? body).map fun r => (.ofDecimal (sign == ("-" : Text)) r.1 r.2.1, r.2.2) := by
  rw [readDecimal?, readSign_append isSign unsigned]
  dsimp only
  rw [Text.startsWith, if_neg (mt List.isPrefixOf_iff_prefix.1 finite)]

theorem denotes_of_readDecimal? (read : readDecimal? t = some (x, rest)) :
    ∃ p, t = p ++ rest ∧ Denotes CodePoint.isDecimal p x := by
  obtain ⟨sign, body, rfl, isSign, unsigned⟩ := exists_sign t
  by_cases finite : ("Infinity" : Text) <+: body
  · obtain ⟨more, rfl⟩ := finite
    rw [readDecimal?_infinity isSign] at read
    cases read
    exact ⟨_, (append_assoc ..).symm, .infinity isSign⟩
  · rw [readDecimal?_finite isSign unsigned finite] at read
    obtain ⟨⟨c, e, left⟩, taken, same⟩ := Option.map_eq_some_iff.1 read
    cases same
    obtain ⟨l, rfl, shown⟩ := literal_of_readUnsigned? taken
    refine ⟨_, (append_assoc ..).symm, .decimal isSign l ?_⟩
    have rounds := l.decimal.rounds (sign == ("-" : Text))
    rw [l.value_decimal, shown] at rounds
    exact rounds

/-- The reader takes at least the text that denotes a double, and before nothing else gives that double. -/
theorem readDecimal?_denotes (h : Denotes CodePoint.isDecimal t x) :
    ∃ y left, readDecimal? (t ++ rest) = some (y, left) ∧ left <:+ rest ∧ (rest = [] → y = x) := by
  cases h with
  | infinity isSign =>
    rw [append_assoc, readDecimal?_infinity isSign]
    exact ⟨_, _, rfl, suffix_refl _, fun _ => rfl⟩
  | decimal isSign l rounds =>
    obtain ⟨c, more, shape, first⟩ := l.head_text
    have unsigned : ∀ sign : Text, sign = [] → Stops isSignMark (l.text ++ rest) := by
      rw [shape]
      rintro - - c ⟨⟩
      rcases first with digit | rfl
      · exact isSignMark_of_isDecimal digit
      · decide
    have finite : ¬("Infinity" : Text) <+: l.text ++ rest := by
      rintro ⟨after, same⟩
      rw [shape] at same
      have head : 'I' = c := (List.cons.inj same).1
      rw [← head] at first
      exact absurd first (by decide)
    obtain ⟨c, e, left, taken, suffix, exact⟩ := @readUnsigned?_literal rest l
    rw [append_assoc, readDecimal?_finite isSign (unsigned _) finite, taken]
    refine ⟨_, _, rfl, suffix, fun none => ?_⟩
    have own (negative : Bool) := l.decimal.rounds negative
    rw [l.value_decimal, exact none] at own
    exact (own _).unique rounds

end Signed

end Unravel.Numeral
