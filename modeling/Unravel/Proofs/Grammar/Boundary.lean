import Unravel.Syntax.Render
import Unravel.Proofs.Grammar.Lexing

/-! Where expressions start and where they end: which characters they start with, and what ends before which token. -/
namespace Unravel.Grammar

variable {mark op : Text}

section Ends

/-- The least strength of what ends before a token. -/
def limit : Option Token → Nat
  | none => Strength.sequence
  | some (.symbol s) =>
    if s ∈ ([")", "]", "\x7d", ":"] : List Text) then Strength.sequence
    else if s = "," then Strength.assignment
    else if s = "?" then Strength.conditional + 1
    else if (binaryOp? (.symbol s)).isSome then Strength.unary
    else if s ∈ assignments then Strength.access
    else Strength.primary + 1
  | some (.word w) => if w = "in" ∨ w = "instanceof" then Strength.unary else Strength.primary + 1
  | some _ => Strength.primary + 1

/-- A text before which everything of some strength ends. -/
structure Ends (strength : Nat) (raw : Text) : Prop where
  separate : IsSeparate raw
  limit_le : limit (next? (ahead raw)) ≤ strength

variable {s : Nat} {raw : Text}

theorem Ends.mono {s' : Nat} (h : Ends s raw) (le : s ≤ s') : Ends s' raw := ⟨h.separate, h.limit_le.trans le⟩

/-- Symbols that go on with what is before them. -/
def continuations : List Text := [".", "[", "`", "(", "?.", "++", "--", "=>"]

theorem Ends.not_continued (h : Ends s raw) (le : s ≤ Strength.access) (member : mark ∈ continuations) :
    next? (ahead raw) ≠ some (.symbol mark) := by
  have beyond : ∀ mark ∈ continuations, Strength.access < limit (some (.symbol mark)) := by decide
  intro same
  have least := h.limit_le
  have most := beyond mark member
  rw [same] at least
  omega

theorem Ends.not_assigned (h : Ends s raw) (lt : s < Strength.access) (member : op ∈ assignments) :
    next? (ahead raw) ≠ some (.symbol op) := by
  have beyond : ∀ op ∈ assignments, Strength.access ≤ limit (some (.symbol op)) := by decide
  intro same
  have least := h.limit_le
  have most := beyond op member
  rw [same] at least
  omega

theorem unary_le_limit {token : Token} {op : BinaryOp} (h : binaryOp? token = some op) : Strength.unary ≤ limit (some token) := by
  have closed : ∀ s ∈ ([")", "]", "\x7d", ":", ",", "?"] : List Text), binaryOp? (.symbol s) = none := by decide
  cases token with
  | symbol s =>
    have other : s ∉ ([")", "]", "\x7d", ":", ",", "?"] : List Text) := by
      intro member
      rw [closed s member] at h
      cases h
    simp only [List.mem_cons, not_or] at other
    simp [limit, other, h]
  | word w =>
    rw [limit]
    split <;> decide
  | _ => cases h

theorem Ends.not_operated (h : Ends s raw) (lt : s < Strength.unary) : (next? (ahead raw)).bind binaryOp? = none := by
  have least := h.limit_le
  cases found : next? (ahead raw) with
  | none => rfl
  | some token =>
    cases operator : binaryOp? token with
    | none => exact operator
    | some op =>
      have most := unary_le_limit operator
      rw [found] at least
      omega

theorem Ends.not_symbol (h : Ends s raw) (lt : s < limit (some (.symbol mark))) :
    next? (ahead raw) ≠ some (.symbol mark) := by
  intro same
  have least := h.limit_le
  rw [same] at least
  omega

theorem Ends.not_name (h : Ends s raw) (le : s ≤ Strength.access) {w : Text} (word : next? (ahead raw) = some (.word w)) :
    isName w = false ∧ w ≠ "function" := by
  have least := h.limit_le
  rw [word, limit] at least
  split at least
  next operator => rcases operator with rfl | rfl <;> decide
  next => exact absurd (least.trans le) (by decide)

theorem isSolid_cons {c : CodePoint} (blank : isBlank c = false) (slash : c ≠ '/') (more : Text) :
    IsSolid (c :: more) := ⟨blank, fun same => absurd same slash⟩

theorem isSolid_bracket (h : mark ∈ brackets) (raw : Text) : IsSolid (mark ++ raw) := by
  fin_cases h <;> exact isSolid_cons (by decide) (by decide) _

theorem ahead_bracket (h : mark ∈ brackets) (raw : Text) : ahead (mark ++ raw) = mark ++ raw :=
  ahead_solid (isSolid_bracket h raw)

theorem ends_bracket (h : mark ∈ brackets) (least : limit (some (.symbol mark)) ≤ s) (raw : Text) :
    Ends s (mark ++ raw) := by
  refine ⟨?_, ?_⟩
  · fin_cases h <;> exact isSeparate_mark (by decide) _
  · rwa [ahead_solid (isSolid_bracket h raw), (leads_bracket h raw).next?]

theorem ends_spaced {t rest : Text} {token : Token} (solid : IsSolid t) (leads : Leads t token rest) :
    Ends (limit (some token)) (" " ++ t) := by
  refine ⟨isSeparate_blank t, ?_⟩
  rw [ahead_blank solid, leads.next?]

theorem isSolid_operator {op : BinaryOp} (known : op.isKnown) (raw : Text) : IsSolid (op.symbol ++ (" " ++ raw)) := by
  cases op with
  | other s => cases known
  | div =>
    refine ⟨by decide, fun _ d second => ?_⟩
    cases second
    decide
  | _ => exact isSolid_cons (by decide) (by decide) _

theorem isSolid_assignment (h : op ∈ assignments) (raw : Text) : IsSolid (op ++ (" " ++ raw)) := by
  have plain : ∀ op ∈ assignments, op ≠ "/=" → ∃ c ∈ op.head?, isBlank c = false ∧ c ≠ '/' := by
    decide
  by_cases slash : op = "/="
  · rw [slash]
    refine ⟨by decide, fun _ d second => ?_⟩
    cases second
    decide
  · obtain ⟨c, first, blank, other⟩ := plain op h slash
    obtain ⟨more, rfl⟩ := List.head?_eq_some_iff.mp first
    exact isSolid_cons blank other _

theorem ends_operator {op : BinaryOp} (known : op.isKnown) (raw : Text) :
    Ends Strength.unary (" " ++ (op.symbol ++ (" " ++ raw))) := by
  refine (ends_spaced (isSolid_operator known raw) (leads_operator known raw)).mono ?_
  cases op with
  | other s => cases known
  | _ => decide

theorem ends_assignment (h : op ∈ assignments) (raw : Text) :
    Ends Strength.access (" " ++ (op ++ (" " ++ raw))) := by
  have most : ∀ op ∈ assignments, limit (some (.symbol op)) ≤ Strength.access := by decide
  exact (ends_spaced (isSolid_assignment h raw) (leads_assignment h raw)).mono (most op h)

theorem ends_question (raw : Text) : Ends (Strength.conditional + 1) (" " ++ ("?" ++ (" " ++ raw))) :=
  ends_spaced (isSolid_cons (by decide) (by decide) _) (leads_question raw)

end Ends

section Firm

/-- The characters that an expression starts with, apart from those of a name. -/
def openings : Text := "\\([\x7b-+!~0123456789"

/-- A text that starts like an expression. -/
def IsFirm (t : Text) : Prop := ∃ c ∈ t.head?, isNameStart c ∨ c ∈ openings

variable {t : Text}

theorem IsFirm.append (h : IsFirm t) (more : Text) : IsFirm (t ++ more) := by
  obtain ⟨c, first, opens⟩ := h
  obtain ⟨rest, rfl⟩ := List.head?_eq_some_iff.mp first
  exact ⟨c, rfl, opens⟩

theorem IsFirm.length_pos (h : IsFirm t) : 0 < t.length := by
  obtain ⟨c, first, -⟩ := h
  obtain ⟨rest, rfl⟩ := List.head?_eq_some_iff.mp first
  exact Nat.succ_pos _

theorem IsFirm.head_ne (h : IsFirm t) {d : CodePoint} (part : isNamePart d = false) (other : d ∉ openings) :
    t.head? ≠ some d := by
  obtain ⟨c, first, opens⟩ := h
  rw [first]
  rintro ⟨⟩
  rcases opens with start | sign
  · rw [isNamePart_of_isNameStart start] at part
    cases part
  · exact other sign

theorem IsFirm.solid (h : IsFirm t) : IsSolid t := by
  have slash := h.head_ne (d := '/') (by decide) (by decide)
  obtain ⟨c, first, opens⟩ := h
  obtain ⟨rest, rfl⟩ := List.head?_eq_some_iff.mp first
  refine isSolid_cons ?_ (fun same => slash (congrArg some same)) rest
  rcases opens with start | sign
  · have part := isNamePart_of_isNameStart start
    rw [isNamePart] at part
    simp only [Bool.and_eq_true, Bool.not_eq_true'] at part
    exact part.1.2
  · have solid : ∀ c ∈ openings, isBlank c = false := by decide
    exact solid c sign

theorem IsFirm.next?_ne (h : IsFirm t) {d : CodePoint} {more : Text} (part : isNamePart d = false) (other : d ∉ openings) :
    next? t ≠ some (.symbol (d :: more)) := by
  intro same
  have starts := prefix_of_next? same
  obtain ⟨after, rfl⟩ := starts
  exact h.head_ne part other rfl

theorem IsWord.firm {w : Text} (word : IsWord w) : IsFirm w := by
  obtain ⟨c, more, rfl, start | escape⟩ := word.head
  · exact ⟨c, rfl, .inl start⟩
  · refine ⟨c, rfl, .inr ?_⟩
    rw [escape]
    decide

end Firm

end Unravel.Grammar
