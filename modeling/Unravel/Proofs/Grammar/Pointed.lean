import Unravel.Proofs.Grammar.Provenance

/-! A point directly behind a whole number belongs to the number. If none comes after it, no point is left for an access, and what is
   read is no member. -/
namespace Unravel.Grammar

open Numeral List Outcome

variable {p : Phrase} {c next : Cursor} {r : Readers} {mayEnd : Bool} {t u raw rest front : Text}

section Members

/-- A phrase that stands for a member. -/
def Phrase.IsMember (p : Phrase) : Prop := ∃ o w, p.lowered = .ok (.node () (.member o w))

theorem not_isMember (h : p.lowered.Gives fun e => ∀ o w, e.form ≠ .member o w) : ¬p.IsMember := by
  rintro ⟨o, w, lowered⟩
  exact h _ lowered o w rfl

theorem tight_isMember : Tight Phrase.IsMember where
  foreign _ _ _ := not_isMember (gives_error _)
  assign target op value := by
    refine not_isMember ?_
    rw [Phrase.assign]
    dsimp only
    split <;> first | exact gives_after fun _ => gives_after fun _ => gives_pure (by rintro _ _ ⟨⟩) | exact gives_throw _
  unary _ _ _ := not_isMember (gives_after fun _ => gives_pure (by rintro _ _ ⟨⟩))
  binary _ _ _ := not_isMember (gives_after fun _ => gives_after fun _ => gives_pure (by rintro _ _ ⟨⟩))
  conditional _ _ _ := not_isMember (gives_after fun _ => gives_after fun _ => gives_after fun _ => gives_pure (by rintro _ _ ⟨⟩))
  sequence _ _ _ := not_isMember (gives_after fun _ => gives_pure (by rintro _ _ ⟨⟩))

theorem indexOf_noMember (p : Phrase) (isOptional : Bool) : Yields (r.indexOf p isOptional) fun q => ¬q.IsMember := by
  refine .after fun _ => .after fun _ => .after fun _ => .pure (not_isMember ?_)
  cases isOptional
  · exact gives_after fun _ => gives_after fun _ => gives_pure (by rintro _ _ ⟨⟩)
  · exact gives_error _

theorem callOf_noMember (p : Phrase) (isOptional : Bool) : Yields (r.callOf p isOptional) fun q => ¬q.IsMember := by
  refine .after fun _ => .after fun _ => .pure (not_isMember ?_)
  cases isOptional
  · exact gives_after fun _ => gives_after fun _ => gives_pure (by rintro _ _ ⟨⟩)
  · exact gives_error _

theorem memberOf_noMember (p : Phrase) : Yields (Readers.memberOf p true) fun q => ¬q.IsMember := by
  refine .after fun _ => .after fun token => ?_
  cases token with
  | word _ | privateName _ => exact .pure (not_isMember (gives_error _))
  | _ => exact .failure

/-- Where no point is, nothing turns what comes before into a member. -/
theorem gathers_suffix? (clear : IsUndotted t) (calls mayEnd : Bool) (p : Phrase) :
    Gathers t anywhere (r.suffix? calls mayEnd p) fun next => ∀ q ∈ next, ¬q.IsMember := by
  have stop : Yields (pure none) fun next : Option Phrase => ∀ q ∈ next, ¬q.IsMember := .pure (by rintro q ⟨⟩)
  have found : ∀ {q : Phrase}, ¬q.IsMember → Yields (pure (some q)) fun next => ∀ q ∈ next, ¬q.IsMember := by
    refine fun other => .pure ?_
    rintro q ⟨⟩
    exact other
  have go : ∀ {reader : Reader Phrase}, Yields reader (fun q => ¬q.IsMember) →
      Yields (do return some (← reader)) fun next => ∀ q ∈ next, ¬q.IsMember := fun reads => reads.bind fun _ => found
  refine (looks_isOver mayEnd).gathers fun _ => .ite (fun _ => stop.gathers) fun _ => looks_peek.gathers fun token => ?_
  split
  next s =>
    refine .ite (fun point => ?_) fun _ => Yields.gathers ?_
    · subst point
      intro c a next inside here
      have starts : "." <+: ahead c.rest := prefix_of_next? here.2.symm
      exact absurd (((ahead_suffix _).trans inside).subset (starts.subset (.head _))) clear
    refine .ite (go (indexOf_noMember p false)) (.ite (.after fun place => .after fun _ => found (not_isMember (gives_error _))) ?_)
    refine .ite stop (.ite (go (callOf_noMember p false)) (.ite (.after fun _ => .after fun _ => ?_) (.ite ?_ stop)))
    · exact .ite (go (indexOf_noMember p true)) (.after fun _ => .ite (go (callOf_noMember p true)) (go (memberOf_noMember p)))
    · exact .after fun _ => found (not_isMember (gives_error _))
  next => exact stop.gathers

theorem gathers_suffixes [r.MovesForward] (clear : IsUndotted t) (calls mayEnd : Bool) (n : Nat) (other : ¬p.IsMember) :
    Gathers t anywhere (r.suffixes calls mayEnd n p) fun q => ¬q.IsMember := by
  induction n generalizing p with
  | zero => exact .failure
  | succ n ih =>
    refine (gathers_suffix? clear calls mayEnd p).bind fun next further => ?_
    cases next with
    | none => exact .pure other
    | some q => exact .after fun _ => ih (further q rfl)

theorem access_noMember [r.MovesForward] (clear : IsUndotted t) (new : next? (ahead c.rest) ≠ some (.word "new"))
    (head : ∀ q mid, r.primary mayEnd c = some (q, mid) → ¬q.IsMember ∧ mid.rest <:+ t)
    (h : r.access mayEnd c = some (p, next)) : ¬p.IsMember := by
  obtain ⟨asked, same, read⟩ := (looks_isNext _).run h
  rw [beq_false_of_ne new] at same
  subst same
  obtain ⟨⟨q, mid⟩, first, second⟩ := Option.bind_eq_some_iff.mp read
  obtain ⟨other, inside⟩ := head q mid first
  exact gathers_suffixes clear true mayEnd _ other mid p next inside trivial second

end Members

section Numbers

variable {n : Nat}

theorem expressions_noMember (clear : IsUndotted rest) (leads : Leads (ahead c.rest) (.number u) rest)
    (h : (readers n).expressions false c = some (p, next)) : ¬p.IsMember := by
  intro member
  cases n with
  | zero => cases h
  | succ n =>
    refine access_noMember clear ?_ (fun q mid first => ?_) (access_of_expressions tight_isMember false c p next h member) member
    · rw [leads.next?]
      rintro ⟨⟩
    · obtain ⟨start, -, read⟩ := looks_position.run first
      obtain ⟨token, rfl, read⟩ := looks_peek.run read
      rw [leads.next?] at read
      obtain ⟨⟨token, between⟩, taken, read⟩ := Option.bind_eq_some_iff.mp read
      cases read
      refine ⟨not_isMember (gives_after fun _ => gives_pure (by rintro _ _ ⟨⟩)), ?_⟩
      rw [leads.unique (leads_of_take taken)]

/-- Numbers are no parameters. -/
theorem refuses_arrow_number (solid : IsSolid t) (leads : Leads t (.number u) rest) (start : Position) (isAsync mayEnd : Bool) :
    Refuses (r.arrow start isAsync mayEnd) ("(" ++ t) := by
  have other : ∀ s : Text, next? t ≠ some (.symbol s) := by
    intro s
    rw [leads.next?]
    rintro ⟨⟩
  have parameter : Refuses r.parameter t := by
    refine reads_position.bind_refuses fun start _ => (reads_takeIf_other (other _)).next_refuses (reads_peek.next_refuses ?_)
    rw [leads.next?]
    exact (refuses_require rfl).bind
  have list : ∀ k, Refuses (r.parameterList k) t := by
    intro k
    cases k with
    | zero => exact fun _ _ => rfl
    | succ k => exact (reads_takeIf_other (other _)).next_refuses parameter.bind
  have opens := @reads_bracket "(" (by decide) t
  rw [ahead_solid solid] at opens
  exact (opens.bind_refuses fun _ _ => list _).bind

theorem suffix_of_closing {x : CodePoint} (fresh : x ∉ front) (h : x :: rest <:+ front ++ raw) : rest <:+ raw := by
  induction front with
  | nil => exact (suffix_cons x rest).trans h
  | cons y front ih =>
    rcases suffix_cons_iff.mp h with same | inside
    · injection same with head
      exact absurd (head ▸ .head _) fresh
    · exact ih (fun member => fresh (.tail _ member)) inside

theorem enclosed_noMember (clear : IsUndotted raw) (fresh : ofChar ')' ∉ front) (solid : IsSolid (front ++ raw))
    (leads : Leads (front ++ raw) (.number u) rest) (behind : rest <:+ raw) (here : ahead c.rest = "(" ++ (front ++ raw))
    (h : (readers n).primary mayEnd c = some (p, next)) : ¬p.IsMember ∧ next.rest <:+ raw := by
  have opens : next? (ahead c.rest) = some (.symbol "(") := by
    rw [here]
    exact (leads_bracket (by decide) _).next?
  obtain ⟨start, read⟩ := parenthesised_of_opening opens h
  obtain ⟨inner, outer, e, opening, between, closing, rfl⟩ := exists_enclosed ((orElse_eq_some read).resolve_right fun arrow => by
    cases (refuses_arrow_number solid leads start false mayEnd c here).symm.trans arrow)
  have same : inner.rest = front ++ raw := (append_cancel_left (here.symm.trans opening)).symm
  have clearRest : IsUndotted rest := fun member => clear (behind.subset member)
  have other : ¬e.IsMember := expressions_noMember clearRest (by rwa [same, ahead_solid solid]) between
  refine ⟨other, suffix_of_closing fresh ?_⟩
  rw [← same]
  exact (closing ▸ ahead_suffix outer.rest).trans (suffix_of_run between)

theorem leads_pointed {l : Layout} (numeral : l.IsNumeral) (raw : Text) :
    ∃ u rest, Leads (digitText l.whole ++ "." ++ raw) (.number u) rest ∧ rest <:+ raw := by
  have longer := numberLength_pointed numeral raw
  obtain ⟨n, extent⟩ := Nat.exists_eq_succ_of_ne_zero (Nat.ne_zero_of_lt longer)
  obtain ⟨d, ds, whole⟩ := exists_cons_of_ne_nil numeral.whole_ne_nil
  have digit : d.isDigit := numeral.whole d (whole ▸ .head _)
  rw [extent, whole, length_cons] at longer
  rw [whole] at extent ⊢
  refine ⟨_, _, leads_number digit extent, ?_⟩
  have past : (digitText ds ++ ".").length ≤ n := by
    rw [length_append, length_digitText]
    exact Nat.le_of_lt_succ longer
  change (digitText ds ++ "." ++ raw).drop n <:+ raw
  rw [drop_append, drop_eq_nil_of_le past, nil_append]
  exact drop_suffix _ _

end Numbers

/-- A whole number, a point and a name are no text of a member. -/
theorem parse_pointed_ne {l : Layout} (numeral : l.IsNumeral) {w : Text} (word : IsWord w) (o : Shape) (v : Text) :
    parseExpression (digitText l.whole ++ "." ++ w) ≠ .ok (.node () (.member o v)) := by
  intro parsed
  obtain ⟨p, read, lowered⟩ := Outcome.bind_eq_ok.mp parsed
  obtain ⟨-, clause, program, expression⟩ := single_eq_ok_iff.mp read
  obtain ⟨after, reads, -⟩ := expressions_of_program (next?_parenthesised _) program expression
  obtain ⟨u, rest, leads, behind⟩ := leads_pointed numeral (w ++ ")")
  have clear : IsUndotted (w ++ ")") := by
    obtain ⟨n, found, -⟩ := leads_word word (show IsSeparate [] by rintro c ⟨⟩)
    have plain : IsUndotted w := sound_token found
    exact fun member => (mem_append.mp member).elim plain (by decide)
  have fresh : ofChar ')' ∉ digitText l.whole ++ "." := by
    refine fun member => (mem_append.mp member).elim (fun digit => ?_) (by decide)
    exact absurd (isDigit_digitText numeral.whole _ digit) (by decide)
  have solid : IsSolid (digitText l.whole ++ "." ++ (w ++ ")")) := (((isFirm_whole numeral).append _).append _).solid
  have here : ahead (Cursor.start (Render.parenthesised (digitText l.whole ++ "." ++ w))).rest =
      "(" ++ (digitText l.whole ++ "." ++ (w ++ ")")) := by
    refine (ahead_parenthesised _).trans ?_
    rw [Render.parenthesised, append_assoc, append_assoc _ w]
  refine access_noMember clear ?_ (fun q mid => enclosed_noMember clear fresh solid leads behind here)
    (access_of_expressions tight_isMember true _ _ _ reads ⟨o, v, lowered⟩) ⟨o, v, lowered⟩
  rw [here, (leads_bracket (by decide) _).next?]
  rintro ⟨⟩

end Unravel.Grammar
