import Unravel.Proofs.Grammar.Enclosure

/-! The parentheses around a source. The one before it is closed by the one after it, unless the source closes it and ends in a line
   comment, which hides the other. -/
namespace Unravel

variable {within : Within} {c : CodePoint} {far : Bool} {source t : Text} {n : Nat} {next : Cursor}

open List hiding get

namespace Grammar

section Gaps

/-- Where a reader of blanks and comments stands after one more character, and whether the gap reaches at least so far. -/
def Within.turn (within : Within) (c : CodePoint) : Option (Within × Bool) :=
  match within with
  | .blanks => if isBlank c then some (.blanks, true) else if c = '/' then some (.slash, false) else none
  | .slash => if c = '/' then some (.lineComment, false) else if c = '*' then some (.blockComment, false) else none
  | .lineComment => if endsLineComment c then some (.blanks, true) else some (.lineComment, false)
  | .blockComment => if c = '*' then some (.star, false) else some (.blockComment, false)
  | .star => if c = '/' then some (.blanks, true) else if c = '*' then some (.star, false) else some (.blockComment, false)

/-- How far a gap reaches that is known to reach as far as `settled`. -/
def reach (settled seen : Nat) (within : Within) : Text → Nat
  | [] => if within matches .lineComment then seen else settled
  | c :: more =>
    match within.turn c with
    | none => settled
    | some (next, far) => reach (if far then seen + 1 else settled) (seen + 1) next more

theorem length_gapFrom (settled : Gap) (seen : Nat) (within : Within) (t : Text) :
    (gapFrom settled seen within t).length = reach settled.length seen within t := by
  induction t generalizing settled seen within with
  | nil => cases within <;> rfl
  | cons c more ih =>
    cases within <;> simp only [gapFrom, reach, Within.turn] <;> grind

theorem turn_blanks {next : Within} (h : within.turn c = some (next, far)) :
    next = .blanks ↔ far = true := by
  cases within <;> grind [Within.turn]

theorem turn_slash (h : within.turn c = some (.slash, far)) :
    within = .blanks ∧ c = '/' := by
  cases within <;> grind [Within.turn]

theorem turn_lineComment (h : within.turn c = some (.lineComment, far)) :
    within = .slash ∧ c = '/' ∨ within = .lineComment ∧ endsLineComment c = false := by
  cases within <;> grind [Within.turn]

/-- Nothing but blanks and comments. -/
def IsGap (t : Text) : Prop := ahead t = []

theorem length_gap (t : Text) : (gap t).length = reach 0 0 .blanks t := length_gapFrom {} 0 .blanks t

theorem isGap_iff : IsGap t ↔ t.length ≤ reach 0 0 .blanks t := by
  rw [IsGap, ahead, length_gap, drop_eq_nil_iff]

theorem reach_take (settled seen : Nat) (within : Within) (t : Text) (room : settled ≤ seen)
    (h : reach settled seen within t = n) : n = settled ∨ seen ≤ n ∧ reach settled seen within (t.take (n - seen)) = n := by
  induction t generalizing settled seen within with
  | nil => cases within <;> simp_all [reach]
  | cons c more ih =>
    rw [reach] at h
    split at h
    next => exact .inl h.symm
    next next far turned =>
      have short : seen < n → reach settled seen within ((c :: more).take (n - seen)) =
          reach (if far then seen + 1 else settled) (seen + 1) next (more.take (n - (seen + 1))) := by
        intro less
        rw [show n - seen = n - (seen + 1) + 1 by omega, take_succ_cons, reach, turned]
      cases far with
      | false =>
        rcases ih settled (seen + 1) next (by omega) h with same | ⟨le, again⟩
        · exact .inl same
        · exact .inr ⟨by omega, (short (by omega)).trans again⟩
      | true =>
        refine .inr ?_
        rcases ih (seen + 1) (seen + 1) next (Nat.le_refl _) h with same | ⟨le, again⟩
        · refine ⟨by omega, (short (by omega)).trans ?_⟩
          rw [same, Nat.sub_self, take_zero]
          cases next <;> rfl
        · exact ⟨by omega, (short (by omega)).trans again⟩

theorem isGap_take (t : Text) : IsGap (t.take (gap t).length) := by
  rw [isGap_iff, length_gap, length_take]
  rcases reach_take 0 0 .blanks t (Nat.le_refl 0) rfl with none | ⟨-, again⟩
  · omega
  · rw [Nat.sub_zero] at again
    omega

/-- A text without a line end. -/
def IsLine (t : Text) : Prop := ∀ c ∈ t, endsLineComment c = false

/-- A gap that reaches up to a line comment to the end of a text. -/
def EndsInComment (settled seen : Nat) (within : Within) (t : Text) : Prop :=
  ∃ before comment, t = before ++ "//" ++ comment ∧ IsLine comment ∧ reach settled seen within before = seen + before.length

theorem EndsInComment.cons {settled seen : Nat} {next : Within}
    (turned : within.turn c = some (next, far)) (h : EndsInComment (if far then seen + 1 else settled) (seen + 1) next t) :
    EndsInComment settled seen within (c :: t) := by
  obtain ⟨before, comment, rfl, line, all⟩ := h
  refine ⟨c :: before, comment, rfl, line, ?_⟩
  rw [reach, turned]
  exact all.trans (by rw [length_cons]; omega)

/-- A gap that reaches beyond the parenthesis after a text hides it in a line comment: one that starts in the text, or the one that is
being read. -/
theorem endsInComment_of_reach (settled seen : Nat) (within : Within) (t : Text) (room : settled ≤ seen)
    (here : within = .blanks → settled = seen) (all : seen + t.length + 1 ≤ reach settled seen within (t ++ ")")) :
    EndsInComment settled seen within t ∨ (within = .slash ∧ ∃ comment, t = "/" ++ comment ∧ IsLine comment) ∨
      within = .lineComment ∧ IsLine t := by
  induction t generalizing settled seen within with
  | nil =>
    cases within with
    | lineComment => exact .inr (.inr ⟨rfl, nofun⟩)
    -- Elsewhere the parenthesis ends the gap or stands in a comment without an end.
    | _ =>
      have stops : seen + 1 ≤ settled := all
      omega
  | cons c t ih =>
    rw [List.cons_append, reach] at all
    split at all
    next =>
      rw [List.length_cons] at all
      omega
    next next far turned =>
      rcases ih (if far then seen + 1 else settled) (seen + 1) next (by split <;> omega)
        (fun blanks => if_pos ((turn_blanks turned).mp blanks)) (by rw [List.length_cons] at all; omega) with
        further | ⟨rfl, comment, rfl, line⟩ | ⟨rfl, line⟩
      · exact .inl (further.cons turned)
      · obtain ⟨rfl, rfl⟩ := turn_slash turned
        exact .inl ⟨[], comment, rfl, line, here rfl⟩
      · rcases turn_lineComment turned with ⟨rfl, rfl⟩ | ⟨rfl, same⟩
        · exact .inr (.inl ⟨rfl, t, rfl, line⟩)
        · exact .inr (.inr ⟨rfl, List.forall_mem_cons.mpr ⟨same, line⟩⟩)

theorem exists_comment_of_isGap (h : IsGap (t ++ ")")) :
    ∃ before comment, t = before ++ "//" ++ comment ∧ IsGap before ∧ IsLine comment := by
  have all := isGap_iff.mp h
  rw [length_append] at all
  rcases endsInComment_of_reach 0 0 .blanks t (Nat.le_refl 0) (fun _ => rfl) (by rw [Nat.zero_add]; exact all) with
    ⟨before, comment, same, line, whole⟩ | ⟨⟨⟩, -⟩ | ⟨⟨⟩, -⟩
  exact ⟨before, comment, same, isGap_iff.mpr (by omega), line⟩

end Gaps

section Whole

/-- After an expression the text ends, or a semicolon does it. -/
def IsOver (t : Text) : Prop := IsGap t ∨ ∃ rest, ahead t = ";" ++ rest ∧ IsGap rest

theorem semicolon_cases {operand : Bool} {c : Cursor} (h : semicolon operand c = some ((), next)) :
    next = c ∨ ahead c.rest = ";" ++ next.rest := by
  change (if mayEnd operand c.rest then pure () else symbol ";" : Reader Unit) c = some ((), next) at h
  split at h
  next =>
    cases h
    exact .inl rfl
  next => exact .inr (symbol_rest h)

theorem expressionStatement_of_opening {r : Readers} {c : Cursor} {clause : Clause}
    (opens : next? (ahead c.rest) = some (.symbol "(")) (h : r.statementWith c = some (clause, next)) :
    r.expressionStatement c = some (clause, next) := by
  obtain ⟨start, -, read⟩ := looks_position.run h
  obtain ⟨token, rfl, read⟩ := looks_peek.run read
  rw [opens] at read
  exact read

theorem isGap_of_untilStop {α : Type} {item : Reader α} {c : Cursor}
    (h : untilStop (do return (← get).ahead.rest.isEmpty) item n c = some ([], next)) : IsGap c.rest := by
  cases n with
  | zero => cases h
  | succ n =>
    change (if c.ahead.rest.isEmpty then pure [] else (do
      let head ← item
      return head :: (← untilStop _ item n)) : Reader (List α)) c = some ([], next) at h
    split at h
    next finished =>
      rw [IsGap, ← Cursor.ahead_rest]
      exact List.isEmpty_iff.mp finished
    next =>
      obtain ⟨⟨head, between⟩, -, h⟩ := Option.bind_eq_some_iff.mp h
      obtain ⟨⟨rest, last⟩, -, h⟩ := Option.bind_eq_some_iff.mp h
      cases h

theorem first_of_untilStop {α : Type} {stop : Reader Bool} {item : Reader α} {c : Cursor} {a : α} {as : List α}
    (looks : Looks stop fun _ _ => True) (h : untilStop stop item n c = some (a :: as, next)) :
    ∃ between m, item c = some (a, between) ∧ untilStop stop item m between = some (as, next) := by
  cases n with
  | zero => cases h
  | succ n =>
    obtain ⟨⟨stopped, here⟩, looked, h⟩ := Option.bind_eq_some_iff.mp h
    obtain ⟨rfl, -⟩ := looks c stopped here looked
    cases stopped with
    | true => cases h
    | false =>
      obtain ⟨⟨b, between⟩, read, h⟩ := Option.bind_eq_some_iff.mp h
      obtain ⟨⟨rest, last⟩, others, h⟩ := Option.bind_eq_some_iff.mp h
      cases h
      exact ⟨between, n, read, others⟩

theorem looks_atEnd : Looks (do return (← get).ahead.rest.isEmpty : Reader Bool) fun _ _ => True := by
  rintro c b next ⟨⟩
  exact ⟨rfl, trivial⟩

theorem expressions_of_program (opens : next? (ahead t) = some (.symbol "(")) {clause : Clause}
    (h : program t = some [clause]) {p : Phrase} (expression : clause.expression = some p) :
    ∃ after, (readers (4 * t.length + 15)).expressions true (Cursor.start t) = some (p, after) ∧ IsOver after.rest := by
  obtain ⟨⟨clauses, stop⟩, run, rfl⟩ := Option.map_eq_some_iff.mp h
  obtain ⟨between, m, read, finished⟩ := first_of_untilStop looks_atEnd run
  obtain ⟨⟨p', after⟩, reads, read⟩ := Option.bind_eq_some_iff.mp (expressionStatement_of_opening opens read)
  obtain ⟨⟨⟨⟩, last⟩, ended, read⟩ := Option.bind_eq_some_iff.mp read
  cases read
  cases expression
  refine ⟨after, reads, ?_⟩
  have gap : IsGap between.rest := isGap_of_untilStop finished
  rcases semicolon_cases ended with rfl | same
  · exact .inl gap
  · exact .inr ⟨between.rest, same, gap⟩

/-- What the parenthesis before a source opens, with the text after the parenthesis that closes it. -/
def opened? (source : Text) : Option (Phrase × Text) :=
  let t := Render.parenthesised source
  ((readers (4 * t.length + 14)).primary true (Cursor.start t)).map fun read => (read.1, read.2.rest)

/-- What hides a parenthesis after it: a line comment at its end, with nothing before it but blanks, comments and perhaps one
semicolon. -/
def Hides (tail : Text) : Prop :=
  ∃ before comment, tail = before ++ "//" ++ comment ∧ IsLine comment ∧
    (IsGap before ∨ ∃ blank more, before = blank ++ ";" ++ more ∧ IsGap blank ∧ IsGap more)

/-- After the parenthesis that closes the one before a source nothing follows, since it is the one after the source, or the source
closes it and hides the other. -/
def Closes (source rest : Text) : Prop :=
  rest = [] ∨ ∃ inner tail, source = inner ++ ")" ++ tail ∧ rest = tail ++ ")" ∧ Hides tail

theorem hides_of_isOver {tail : Text} (h : IsOver (tail ++ ")")) : Hides tail := by
  rcases h with gap | ⟨rest, same, gap⟩
  · obtain ⟨before, comment, rfl, blank, line⟩ := exists_comment_of_isGap gap
    exact ⟨before, comment, rfl, line, .inl blank⟩
  · have parted : (tail ++ ")" : Text).take (Grammar.gap (tail ++ ")")).length ++ (";" ++ rest) = tail ++ ")" := by
      rw [← same, ahead, take_append_drop]
    have blank := isGap_take (tail ++ ")")
    generalize (tail ++ ")" : Text).take (Grammar.gap (tail ++ ")")).length = start at parted blank
    rcases eq_nil_or_concat' rest with rfl | ⟨more, last, rfl⟩
    · cases append_inj_right' parted rfl
    · have whole : start ++ ";" ++ more ++ [last] = tail ++ ")" := by
        rw [← parted, append_assoc, append_assoc]
      obtain ⟨rfl, closing⟩ := append_inj' whole rfl
      rw [closing] at gap
      obtain ⟨before, comment, rfl, further, line⟩ := exists_comment_of_isGap gap
      refine ⟨start ++ ";" ++ before, comment, ?_, line, .inr ⟨start, before, rfl, blank, further⟩⟩
      simp only [append_assoc]

theorem opened?_of_single {p : Phrase} (h : single source = .ok p) (function : p.IsFunction) :
    ∃ rest, opened? source = some (p, rest) ∧ Encloses (Render.parenthesised source) rest p ∧ Closes source rest := by
  obtain ⟨legal, clause, read, expression⟩ := single_eq_ok_iff.mp h
  obtain ⟨after, reads, finished⟩ := expressions_of_program (next?_parenthesised source) read expression
  have primary := primary_of_expressions true _ _ _ reads function
  have encloses := encloses_of_primary primary function
  refine ⟨after.rest, Option.map_eq_some_iff.mpr ⟨(p, after), primary, rfl⟩, encloses, ?_⟩
  rcases suffix_concat_iff.mp encloses.suffix with none_left | ⟨tail, same, -⟩
  · exact .inl none_left
  · rw [same] at finished
    obtain ⟨inner, whole⟩ := Encloses.closed (t := source ++ ")") encloses
    refine .inr ⟨inner, tail, ?_, same, hides_of_isOver finished⟩
    rw [same] at whole
    exact append_cancel_right (whole.trans (append_assoc _ _ _).symm)

theorem single_of_opened? {p : Phrase} (legal : source.all isLegal) (h : opened? source = some (p, [])) :
    single source = .ok p := by
  obtain ⟨⟨q, next⟩, read, same⟩ := Option.map_eq_some_iff.mp h
  obtain ⟨rfl, finished⟩ := Prod.mk.inj same
  have value := (kind_of_opening (next?_parenthesised source) read).2
  obtain ⟨clause, _, program, expression, rfl⟩ := program_of_primary (P := (· = q)) (next?_parenthesised source)
    (fun p same => same ▸ value) ⟨q, next, read, finished, rfl⟩
  exact single_eq_ok_iff.mpr ⟨legal, clause, program, expression⟩

end Whole

end Grammar

open Grammar

/-- A function with one parameter. -/
def Shape.TakesOne (f : Shape) : Prop := ∃ parameter body name isArrow, f.form = .function [parameter] body name isArrow

instance (f : Shape) : Decidable f.TakesOne := by
  obtain ⟨m, g⟩ := f
  cases g with
  | function params body name isArrow =>
    obtain _ | ⟨parameter, _ | ⟨other, more⟩⟩ := params
    · exact isFalse (by rintro ⟨_, _, _, _, ⟨⟩⟩)
    · exact isTrue ⟨parameter, body, name, isArrow, rfl⟩
    · exact isFalse (by rintro ⟨_, _, _, _, ⟨⟩⟩)
  | _ => exact isFalse (by rintro ⟨_, _, _, _, ⟨⟩⟩)

theorem parseFunction_eq_ok_iff {f : Shape} : parseFunction source = .ok f ↔
    ∃ p, single source = .ok p ∧ p.IsFunction ∧ p.lowered = .ok f ∧ f.TakesOne := by
  constructor
  · intro parsed
    obtain ⟨p, single, h⟩ := Outcome.bind_eq_ok.mp parsed
    split at h
    next => cases h
    next function =>
      obtain ⟨g, lowered, h⟩ := Outcome.bind_eq_ok.mp h
      refine ⟨p, single, not_not.mp function, ?_, function_of_parseFunction parsed⟩
      split at h
      next => exact h ▸ lowered
      next => cases h
      next => exact h ▸ lowered
  · rintro ⟨p, single, function, lowered, parameter, body, name, isArrow, form⟩
    rw [parseFunction, single]
    change (if p.core ≠ "function_expression" then throw _ else _) = _
    rw [if_neg (show ¬p.core ≠ "function_expression" from not_not_intro function), lowered]
    dsimp only [bind, Except.bind]
    rw [form]
    rfl

instance (p : Phrase) : Decidable p.IsFunction := inferInstanceAs (Decidable (p.core = "function_expression"))

/-- Stays within the parentheses. -/
def plainSource : Text := "function(a)\x7b\x7d"

/-- Closes the parenthesis before it, and hides the one after it. -/
def hidingSource : Text := "function(a)\x7b\x7d) //"

/-- Opens a parenthesis and leaves it open. -/
def reopened : Text := "(function(b)\x7b\x7d"

/-- Closes the parenthesis before it, and opens another. -/
def reopeningSource : Text := "function(a)\x7b\x7d)" ++ reopened

theorem exists_parseFunction_hidingSource : ∃ f, parseFunction hidingSource = .ok f := by
  obtain ⟨f, parsed, -⟩ := Outcome.exists_ok_of_any
    (show (parseFunction hidingSource).toOption.any fun _ => true by decide +kernel)
  exact ⟨f, parsed⟩

end Unravel
