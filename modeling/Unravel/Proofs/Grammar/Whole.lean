import Unravel.Proofs.Grammar.Access
import Unravel.Proofs.Grammar.Reading

/-! Reading a text to its end: an expression in parentheses is all that is read of the parentheses with it. -/
namespace Unravel

open List hiding get

/-- The characters that a source can have. -/
def CodePoint.isLegal (c : CodePoint) : Bool := !c.isSurrogate && c.toNat != 0

export CodePoint (isLegal)

namespace Grammar

section Ends

variable {α β : Type} {r : Reader α} {f : α → Reader β} {t mid : Text} {P : α → Prop} {Q : β → Prop}

/-- At the end of a text a reader takes nothing and succeeds. -/
def Rests (r : Reader α) (P : α → Prop) : Prop := ∀ c : Cursor, c.rest = [] → ∃ a, r c = some (a, c) ∧ P a

/-- A reader takes all of a text. -/
def Finishes (r : Reader α) (t : Text) (P : α → Prop) : Prop :=
  ∀ c : Cursor, ahead c.rest = t → ∃ a next, r c = some (a, next) ∧ next.rest = [] ∧ P a

theorem rests_pure {a : α} (h : P a) : Rests (pure a) P := fun _ _ => ⟨a, rfl, h⟩

theorem Rests.bind (h : Rests r P) (further : ∀ a, P a → Rests (f a) Q) : Rests (r >>= f) Q := by
  intro c finished
  obtain ⟨a, first, ha⟩ := h c finished
  obtain ⟨b, second, hb⟩ := further a ha c finished
  exact ⟨b, Option.bind_eq_some_iff.mpr ⟨(a, c), first, second⟩, hb⟩

/-- From a place on a reader takes all of the text. -/
def Completes (c : Cursor) (r : Reader α) (P : α → Prop) : Prop := ∃ a next, r c = some (a, next) ∧ next.rest = [] ∧ P a

theorem Completes.bind {c : Cursor} (h : Completes c r P) (further : ∀ a, P a → Rests (f a) Q) : Completes c (r >>= f) Q := by
  obtain ⟨a, next, first, finished, ha⟩ := h
  obtain ⟨b, second, hb⟩ := further a ha next finished
  exact ⟨b, next, Option.bind_eq_some_iff.mpr ⟨(a, next), first, second⟩, finished, hb⟩

theorem Completes.after {c : Cursor} {a : α} (h : Completes c (f a) Q) (looked : r c = some (a, c)) : Completes c (r >>= f) Q := by
  obtain ⟨b, next, second, finished, hb⟩ := h
  exact ⟨b, next, Option.bind_eq_some_iff.mpr ⟨(a, c), looked, second⟩, finished, hb⟩

theorem Finishes.bind (h : Finishes r t P) (further : ∀ a, P a → Rests (f a) Q) : Finishes (r >>= f) t Q :=
  fun c here => Completes.bind (h c here) further

theorem Reads.bind_finishes (h : Reads r t mid P) (further : ∀ a, P a → Finishes (f a) mid Q) : Finishes (r >>= f) t Q := by
  intro c here
  obtain ⟨a, between, first, stopped, ha⟩ := h c here
  obtain ⟨b, next, second, finished, hb⟩ := further a ha between stopped
  exact ⟨b, next, Option.bind_eq_some_iff.mpr ⟨(a, between), first, second⟩, finished, hb⟩

theorem Finishes.orElse {s : Reader α} (h : Finishes r t P) : Finishes (r <|> s) t P := by
  intro c here
  obtain ⟨a, next, read, finished, ha⟩ := h c here
  refine ⟨a, next, ?_, finished, ha⟩
  change (r c <|> s c) = _
  rw [read]
  rfl

theorem rests_isOver : Rests (Readers.isOver true) (· = true) := by
  intro c finished
  refine ⟨true, ?_, rfl⟩
  change some (mayEnd true c.rest, c) = _
  rw [finished]
  rfl

theorem rests_peek : Rests peek (· = none) := by
  intro c finished
  refine ⟨none, ?_, rfl⟩
  change some ((token? c.ahead.rest).map (·.1), c) = _
  rw [Cursor.ahead_rest, finished]
  rfl

theorem rests_isNext {token : Token} : Rests (isNext token) (· = false) :=
  rests_peek.bind fun next same => rests_pure (by rw [same]; rfl)

theorem rests_takeIf {token : Token} : Rests (takeIf token) (· = false) :=
  rests_isNext.bind fun next same => by
    rw [same]
    exact rests_pure rfl

theorem rests_require {b : Bool} (h : b) : Rests (require b) fun _ => True := by
  rw [require, if_pos h]
  exact rests_pure trivial

theorem finishes_take {token : Token} (h : Leads t token []) : Finishes take t (· = token) := by
  intro c here
  obtain ⟨n, found, all⟩ := h
  refine ⟨token, c.ahead.skip n, ?_, ?_, rfl⟩
  · rw [take_eq, here, found]
    rfl
  · rw [Cursor.skip_rest, Cursor.ahead_rest, here, all]

theorem finishes_symbol {s : String} (h : Leads t (.symbol s) []) : Finishes (symbol s) t fun _ => True := by
  have taken : Finishes (takeIf (.symbol s)) t (· = true) := by
    refine reads_isNext.bind_finishes fun b same => ?_
    rw [h.next?, beq_self_eq_true] at same
    rw [same, if_pos rfl]
    exact (finishes_take h).bind fun _ _ => rests_pure rfl
  exact taken.bind fun _ same => rests_require same

end Ends

section Whole

variable {t : Text} {e : Shape} {n : Nat} {P : Phrase → Prop}

theorem leads_opening (t : Text) : Leads (Render.parenthesised t) (.symbol "(") (t ++ ")") := by
  rw [Render.parenthesised, append_assoc]
  exact leads_bracket (by decide) _

theorem finishes_parenthesised (firm : IsFirm t) (h : ReadsAll t P) (room : t.length + 3 ≤ n) (start : Position) :
    Finishes ((readers n).parenthesised start true) (Render.parenthesised t) fun q => ∃ p, P p ∧ q = .parenthesised start p := by
  have inside : ahead (t ++ ")") = t ++ ")" := ahead_solid (firm.append _).solid
  have member : (")" : Text) ∈ brackets := by decide
  have closing : ahead ")" = ")" := ahead_bracket member []
  have ends : Ends Strength.sequence ")" := ends_bracket member (by decide) []
  have last : Leads ")" (.symbol ")") [] := leads_bracket member []
  refine Finishes.orElse ?_
  refine (reads_symbol (leads_opening t)).bind_finishes fun _ _ => ?_
  rw [inside]
  refine (h n room _ ends).bind_finishes fun p hp => ?_
  rw [closing]
  refine (finishes_symbol last).bind fun _ _ => rests_isNext.bind fun b same => ?_
  rw [same]
  exact (rests_require rfl).bind fun _ _ => rests_pure ⟨p, hp, rfl⟩

theorem finishes_primary (firm : IsFirm t) (h : ReadsAll t P) (room : t.length + 3 ≤ n) :
    Finishes ((readers n).primary true) (Render.parenthesised t) fun q => ∃ start p, P p ∧ q = .parenthesised start p := by
  refine reads_position.bind_finishes fun start _ => reads_peek.bind_finishes fun token same => ?_
  rw [same, (leads_opening t).next?]
  intro c here
  obtain ⟨q, next, read, finished, found⟩ := finishes_parenthesised firm h room start c here
  exact ⟨q, next, read, finished, start, found⟩

section Opening

variable {r : Readers} {k : Nat} {c : Cursor} {P : Phrase → Prop}

theorem peek_opening (opens : next? (ahead c.rest) = some (.symbol "(")) : peek c = some (some (.symbol "("), c) := by
  rw [← opens, ← Cursor.ahead_rest]
  rfl

theorem completes_access (bound : r.bound = k + 1) (opens : next? (ahead c.rest) = some (.symbol "("))
    (head : Completes c (r.primary true) P) : Completes c (r.access true) P := by
  have notNew : isNextWord "new" c = some (false, c) := by
    change some (next? c.ahead.rest == some (.word "new"), c) = _
    rw [Cursor.ahead_rest, opens]
    rfl
  refine Completes.after (a := false) (head.bind fun p hp => ?_) notNew
  rw [bound]
  refine Rests.bind (P := (· = none)) (rests_isOver.bind fun finished same => ?_) fun next same => ?_
  · rw [same]
    exact rests_pure rfl
  · rw [same]
    exact rests_pure hp

theorem completes_operation (bound : r.bound = k + 1) (opens : next? (ahead c.rest) = some (.symbol "("))
    (head : Completes c (r.primary true) P) : Completes c (r.operation true) P := by
  have assignable : Completes c (r.assignable true) P := by
    refine (completes_access bound opens head).bind fun p hp => rests_peek.bind fun next same => ?_
    rw [same]
    exact rests_pure hp
  have operand : Completes c (r.operand true (k + 1)) P :=
    Completes.after (Completes.after (a := some (.symbol "(")) assignable (peek_opening opens)) rfl
  rw [Readers.operation, bound]
  refine operand.bind fun p hp => Rests.bind (P := (· = [])) (rests_isOver.bind fun finished same => ?_) fun tail empty => ?_
  · rw [same]
    exact rests_pure rfl
  · rw [empty]
    exact (rests_require rfl).bind fun _ _ => rests_pure hp

theorem completes_cover (bound : r.bound = k + 1) (opens : next? (ahead c.rest) = some (.symbol "("))
    (head : Completes c (r.primary true) P) : Completes c (r.coverWith true) P := by
  refine (completes_operation bound opens head).bind fun p hp => rests_isOver.bind fun finished same => ?_
  refine rests_isNext.bind fun mark _ => ?_
  rw [same]
  exact rests_pure hp

theorem completes_expressions (bound : r.bound = k + 1) (value : ∀ p, P p → p.isExpression) (cover : Completes c (r.cover true) P) :
    Completes c (r.expressions true) P := by
  have expression : Completes c (r.expression true) P :=
    cover.bind fun p hp => (rests_require (value p hp)).bind fun _ _ => rests_pure hp
  rw [Readers.expressions, bound]
  refine Completes.bind (P := fun ps => ∃ p, ps = [p] ∧ P p) ?_ fun ps found => ?_
  · refine expression.bind fun p hp => rests_takeIf.bind fun comma same => ?_
    rw [same]
    exact rests_pure ⟨p, rfl, hp⟩
  · obtain ⟨p, rfl, hp⟩ := found
    exact rests_pure hp

theorem completes_statement (opens : next? (ahead c.rest) = some (.symbol "(")) (h : Completes c (r.expressions true) P) :
    Completes c r.statementWith fun clause => ∃ p, clause.expression = some p ∧ P p := by
  refine Completes.after (Completes.after (a := some (.symbol "(")) ?_ (peek_opening opens)) rfl
  refine Completes.after (h.bind fun p hp => ?_) rfl
  refine Rests.bind (P := fun _ => True) (rests_isOver.bind fun finished same => ?_) fun _ _ => rests_pure ⟨p, rfl, hp⟩
  rw [same]
  exact rests_pure trivial

end Opening

/-- A text that starts with a parenthesis and has nothing after what is read first is a program of one statement. -/
theorem program_of_primary {P : Phrase → Prop} (opens : next? (ahead t) = some (.symbol "(")) (value : ∀ p, P p → p.isExpression)
    (h : Completes (Cursor.start t) ((readers (4 * t.length + 14)).primary true) P) :
    ∃ clause p, program t = some [clause] ∧ clause.expression = some p ∧ P p := by
  let atEnd : Reader Bool := do return (← get).ahead.rest.isEmpty
  have notYet : atEnd (Cursor.start t) = some (false, Cursor.start t) := by
    change some ((Cursor.start t).ahead.rest.isEmpty, Cursor.start t) = _
    rw [Cursor.ahead_rest, Cursor.start]
    cases left : ahead t with
    | nil =>
      rw [left] at opens
      cases opens
    | cons c more => rfl
  have finished : Rests atEnd (· = true) := by
    intro c none_left
    refine ⟨_, rfl, ?_⟩
    rw [Cursor.ahead_rest, none_left]
    rfl
  have statement : Completes (Cursor.start t) (readers (4 * t.length + 16)).statement fun c => ∃ p, c.expression = some p ∧ P p :=
    completes_statement (r := readers (4 * t.length + 15)) opens (completes_expressions rfl value (completes_cover rfl opens h))
  have all : Completes (Cursor.start t) (untilStop atEnd (readers (4 * t.length + 16)).statement (4 * t.length + 15))
      fun clauses => ∃ clause p, clauses = [clause] ∧ clause.expression = some p ∧ P p := by
    refine Completes.after (a := false) ?_ notYet
    refine statement.bind fun clause found => Rests.bind (P := (· = [])) (finished.bind fun stopped same => ?_) fun rest none_left => ?_
    · rw [same]
      exact rests_pure rfl
    · obtain ⟨p, expression, hp⟩ := found
      rw [none_left]
      exact rests_pure ⟨clause, p, rfl, expression, hp⟩
  obtain ⟨_, next, read, -, clause, p, rfl, expression, hp⟩ := all
  exact ⟨clause, p, Option.map_eq_some_iff.mpr ⟨_, read, rfl⟩, expression, hp⟩

theorem ahead_parenthesised (t : Text) : ahead (Render.parenthesised t) = Render.parenthesised t := by
  rw [Render.parenthesised, append_assoc]
  exact ahead_bracket (by decide) _

theorem next?_parenthesised (t : Text) : next? (ahead (Render.parenthesised t)) = some (.symbol "(") := by
  rw [ahead_parenthesised, (leads_opening t).next?]

theorem program_parenthesised (firm : IsFirm t) (h : ReadsAll t P) : ∃ clause q, program (Render.parenthesised t) = some [clause] ∧
    clause.expression = some q ∧ ∃ start p, P p ∧ q = .parenthesised start p := by
  have length : (Render.parenthesised t).length = t.length + 2 := by simp [Render.parenthesised, Text.ofString]
  refine program_of_primary (next?_parenthesised t) ?_ (finishes_primary firm h (by omega) _ (ahead_parenthesised t))
  rintro q ⟨start, p, -, rfl⟩
  rfl

theorem checkEncoding_eq_ok_iff : t.checkEncoding = .ok () ↔ ∀ c ∈ t, c.isSurrogate = false := by
  have clear : (∀ c ∈ t, c.isSurrogate = false) ↔ t.dropWhile (fun c => !c.isSurrogate) = [] := by
    simp [dropWhile_eq_nil_iff]
  have after : t.drop (t.takeWhile fun c => !c.isSurrogate).length = t.dropWhile fun c => !c.isSurrogate :=
    (congrArg (List.drop _) takeWhile_append_dropWhile.symm).trans drop_left
  have whole : ∀ c : CodePoint, (c.isHighSurrogate || c.isLowSurrogate) = c.isSurrogate := fun _ => rfl
  rw [clear, Text.checkEncoding]
  simp only [whole, after]
  cases rest : t.dropWhile fun c => !c.isSurrogate with
  | nil => exact ⟨fun _ => rfl, fun _ => rfl⟩
  | cons x more =>
    have surrogate : x.isSurrogate = true := by
      have head := head?_dropWhile_not (fun c : CodePoint => !c.isSurrogate) t
      rw [rest] at head
      simpa using head
    rw [takeWhile_cons_of_pos surrogate]
    exact ⟨by rintro ⟨⟩, by rintro ⟨⟩⟩

theorem isLegal_parenthesised : (Render.parenthesised t).all isLegal = t.all isLegal := by
  rw [Render.parenthesised, all_append, all_append]
  exact (Bool.and_true _).trans (Bool.true_and _)

theorem all_isLegal_iff : t.all isLegal ↔ t.checkEncoding = .ok () ∧ t.any (fun c => c.toNat == 0) = false := by
  rw [checkEncoding_eq_ok_iff, all_eq_true, any_eq_false, ← forall₂_and]
  simp [isLegal]

/-- A source stands for a phrase if with parentheses around it, it is a program whose only statement is that expression. -/
theorem single_eq_ok_iff {source : Text} {p : Phrase} : single source = .ok p ↔ source.all isLegal ∧
    ∃ clause, program (Render.parenthesised source) = some [clause] ∧ clause.expression = some p := by
  rw [← isLegal_parenthesised, all_isLegal_iff, and_assoc]
  rw [single, show "(" ++ source ++ ")" = Render.parenthesised source from rfl]
  dsimp only [bind]
  cases (Render.parenthesised source).checkEncoding with
  | error f => exact ⟨by rintro ⟨⟩, by rintro ⟨⟨⟩, -⟩⟩
  | ok _ =>
    cases (Render.parenthesised source).any fun c => c.toNat == 0 with
    | true => exact ⟨by rintro ⟨⟩, by rintro ⟨-, ⟨⟩, -⟩⟩
    | false =>
      dsimp only [Except.bind]
      rw [if_neg Bool.false_ne_true]
      cases program (Render.parenthesised source) with
      | none => exact ⟨by rintro ⟨⟩, by rintro ⟨-, -, _, ⟨⟩, -⟩⟩
      | some clauses =>
        obtain _ | ⟨clause, _ | ⟨other, more⟩⟩ := clauses
        · exact ⟨by rintro ⟨⟩, by rintro ⟨-, -, _, ⟨⟩, -⟩⟩
        · dsimp only
          cases expression : clause.expression with
          | none =>
            refine ⟨by rintro ⟨⟩, ?_⟩
            rintro ⟨-, -, _, ⟨⟩, same⟩
            cases expression.symm.trans same
          | some e =>
            refine ⟨fun h => ⟨rfl, rfl, clause, rfl, ?_⟩, ?_⟩
            · cases h
              exact expression
            · rintro ⟨-, -, _, ⟨⟩, same⟩
              cases expression.symm.trans same
              rfl
        · exact ⟨by rintro ⟨⟩, by rintro ⟨-, -, _, ⟨⟩, -⟩⟩

theorem single_of_readsAll (firm : IsFirm t) (h : ReadsAll t P) (legal : t.all isLegal) :
    ∃ start p, P p ∧ single t = .ok (.parenthesised start p) := by
  obtain ⟨clause, q, read, expression, start, p, hp, rfl⟩ := program_parenthesised firm h
  exact ⟨start, p, hp, single_eq_ok_iff.mpr ⟨legal, clause, read, expression⟩⟩

theorem single_eq_ok (firm : IsFirm t) (h : ReadsAll t (·.Shows e)) (legal : t.all isLegal) :
    ∃ p, single t = .ok p ∧ p.Shows e := by
  obtain ⟨start, p, shows, read⟩ := single_of_readsAll firm h legal
  exact ⟨_, read, shows.lowered, rfl⟩

end Whole

end Grammar

end Unravel
