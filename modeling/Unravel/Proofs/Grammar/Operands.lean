import Unravel.Proofs.Grammar.Grouping
import Unravel.Proofs.Grammar.Lists

/-! Reading operands with the operators before, between and behind them back from their text. -/
namespace Unravel.Grammar

open List

variable {w : Text} {n : Nat} {op : UnaryOp}

section Operands

variable {r : Readers} {t raw rest : Text} {P : Phrase → Prop} {e : Shape}

/-- The tokens that an expression with its accesses starts with. The word `await` is none: it takes what follows it for
its operand if it can. -/
def startsAccess : Token → Bool
  | .word w => isName w && w != "yield" && w != "await" && (unaryOp? (.word w)).isNone
  | .number _ => true
  | .symbol s => s == "(" || s == "[" || s == "\x7b"
  | _ => false

/-- A text that is read back as an expression with its accesses. -/
structure IsAccess (t : Text) (P : Phrase → Prop) : Prop where
  firm : IsFirm t
  starts : ∀ raw, IsSeparate raw → ∃ token, next? (t ++ raw) = some token ∧ startsAccess token
  reads : ReadsAccess t P

theorem unaryOp?_name (word : IsWord w) (name : isName w) : unaryOp? (.word w) = none := by
  have words : ∀ entry ∈ UnaryOp.known, (entry.2 : Text) ∈ reserved ∨ nameLength isNameStart 0 (entry.2 : Text) = 0 := by
    decide
  have none_known : UnaryOp.known.find? (fun entry => (entry.2 : Text) == w) = none := by
    refine find?_eq_none.mpr fun entry member same => ?_
    rw [beq_iff_eq] at same
    rcases words entry member with keyword | sign
    · exact ne_of_isName name keyword same.symm
    · have whole := word.whole
      rw [← same, sign] at whole
      exact word.nonempty (same ▸ eq_nil_of_length_eq_zero whole.symm)
  rw [unaryOp?, UnaryOp.ofSymbol, none_known]

theorem isAccess_name (word : IsWord w) (name : isName w) (yields : w ≠ "yield") (awaits : w ≠ "await") :
    IsAccess w fun p => ∃ start, p = Phrase.name w start where
  firm := word.firm
  starts raw separate := by
    refine ⟨.word w, (leads_word word separate).next?, ?_⟩
    simp [startsAccess, name, yields, awaits, unaryOp?_name word name]
  reads := readsAccess_name word name

theorem isAccess_parenthesised (firm : IsFirm t) (h : ReadsAll t (·.Shows e)) :
    IsAccess (Render.parenthesised t) (·.Shows e) where
  firm := ⟨'(', rfl, .inr (by decide)⟩
  starts raw _ := by
    refine ⟨.symbol "(", ?_, rfl⟩
    rw [Render.parenthesised, append_assoc, append_assoc, (leads_bracket (by decide) _).next?]
  reads := readsAccess_parenthesised firm h

theorem IsAccess.extend {more : Text} {Q : Phrase → Prop} (h : IsAccess t P) (separate : ∀ raw, IsSeparate (more ++ raw))
    (reads : ReadsAccess (t ++ more) Q) : IsAccess (t ++ more) Q where
  firm := h.firm.append more
  starts raw _ := by
    rw [append_assoc]
    exact h.starts (more ++ raw) (separate raw)
  reads := reads

theorem isAccess_array {xs : List Piece} (items : ∀ x ∈ xs, x.IsItem) :
    IsAccess ("[" ++ listing xs ++ "]") (·.Shows (.node () (.array (xs.map Piece.tree)))) where
  firm := ⟨'[', rfl, .inr (by decide)⟩
  starts raw _ := by
    refine ⟨.symbol "[", ?_, rfl⟩
    rw [append_assoc, append_assoc, (leads_bracket (by decide) _).next?]
  reads := readsAccess_array items

theorem IsAccess.call (h : IsAccess t (·.Shows e)) {xs : List Piece} (items : ∀ x ∈ xs, x.IsItem) :
    IsAccess (t ++ "(" ++ listing xs ++ ")") (·.Shows (.node () (.call e (xs.map Piece.tree)))) := by
  have reads := h.reads.call items
  rw [append_assoc, append_assoc] at reads ⊢
  exact h.extend (fun raw => isSeparate_mark (by decide) _) reads

/-- What an assignment can be made to. -/
def Phrase.IsPlace (p : Phrase) (e : Shape) : Prop := p.Shows e ∧ (p.role = .name ∨ p.role = .access)

theorem IsAccess.imp {Q : Phrase → Prop} (h : IsAccess t P) (weaker : ∀ p, P p → Q p) : IsAccess t Q where
  firm := h.firm
  starts := h.starts
  reads n room raw rest R free further := h.reads n room raw rest R free fun p k hp => further p k (weaker p hp)

theorem IsAccess.member (h : IsAccess t (·.Shows e)) (word : IsWord w) :
    IsAccess (t ++ "." ++ w) (·.IsPlace (.node () (.member e w))) := by
  have reads := h.reads.member word
  rw [append_assoc] at reads ⊢
  exact (h.extend (fun raw => isSeparate_mark (by decide) _) reads).imp fun p hp => ⟨hp.1, .inr hp.2⟩

theorem IsAccess.index {key : Text} {k : Shape} (h : IsAccess t (·.Shows e)) (firm : IsFirm key) (inside : ReadsAll key (·.Shows k)) :
    IsAccess (t ++ "[" ++ key ++ "]") (·.IsPlace (.node () (.index e k))) := by
  have reads := h.reads.index firm inside
  rw [append_assoc, append_assoc] at reads ⊢
  exact (h.extend (fun raw => isSeparate_mark (by decide) _) reads).imp fun p hp => ⟨hp.1, .inr hp.2⟩

theorem shows_name (w : Text) (start : Position) : (Phrase.name w start).Shows (Shape.identifier w) := ⟨rfl, rfl⟩

theorem isPlace_name (defined : w ≠ "undefined") (start : Position) : (Phrase.name w start).IsPlace (Shape.identifier w) := by
  refine ⟨shows_name w start, .inl ?_⟩
  rw [Phrase.name]
  simp [defined]

/-- What starts like an expression with its accesses is one, up to an assignment. -/
theorem reads_operand_assignable {token : Token} (found : next? t = some token) (starts : startsAccess token)
    (h : Reads (r.assignable false) t rest P) (k : Nat) : Reads (r.operand false (k + 1)) t rest P := by
  refine reads_position.bind fun start _ => reads_peek.next ?_
  rw [found]
  cases token with
  | word w =>
    simp only [startsAccess, Bool.and_eq_true, bne_iff_ne, ne_eq, Option.isNone_iff_eq_none] at starts
    obtain ⟨⟨⟨-, notYield⟩, notAwait⟩, notUnary⟩ := starts
    simp only [notYield, notAwait, if_false, notUnary]
    exact h
  | symbol s =>
    simp only [startsAccess, Bool.or_eq_true, beq_iff_eq] at starts
    rcases starts with (rfl | rfl) | rfl
    · exact h
    · exact h
    · exact h
  | number _ => exact h
  | _ => cases starts

theorem ReadsAccess.access (h : ReadsAccess t P) (room : t.length + 2 ≤ n) (ends : Ends Strength.access raw) :
    Reads ((readers n).access false) (t ++ raw) (ahead raw) P := by
  refine h n room raw _ _ (ends.free le_rfl n) fun p k hp enough => ?_
  obtain _ | k := k
  · omega
  refine (reads_suffixes_end k ends).imp fun q same => ?_
  rwa [same]

theorem ReadsAccess.assignable (h : ReadsAccess t P) (room : t.length + 2 ≤ n) (ends : Ends Strength.unary raw) :
    Reads ((readers n).assignable false) (t ++ raw) (ahead raw) P := by
  refine (h.access room (ends.mono (by decide))).bind fun p hp => reads_peek.bind fun next same => ?_
  cases next with
  | none => exact reads_pure hp
  | some token =>
    cases token with
    | symbol s =>
      have other : s ∉ assignments := fun member => ends.not_assigned (by decide) member same.symm
      have plain : ¬((s = "=" ∧ p.role.isTarget = true) ∨ (compoundAssignments.contains s = true ∧ p.role.isCompoundTarget = true)) := by
        rintro (⟨equals, -⟩ | ⟨compound, -⟩)
        · exact other (equals ▸ (.head _))
        · exact other (.tail _ (contains_iff_mem.mp compound))
      dsimp only
      rw [if_neg plain]
      exact reads_pure hp
    | _ => exact reads_pure hp

/-- Before a text and what ends it, an operand is read, in as many steps as it has characters. -/
def ReadsOperand (s : Nat) (t : Text) (P : Phrase → Prop) : Prop :=
  ∀ n, t.length + 2 ≤ n → ∀ raw, Ends s raw → ∀ k, t.length < k → Reads ((readers n).operand false k) (t ++ raw) (ahead raw) P

theorem IsAccess.operand (h : IsAccess t P) : ReadsOperand Strength.unary t P := by
  intro n room raw ends k steps
  obtain _ | k := k
  · omega
  obtain ⟨token, found, passes⟩ := h.starts raw ends.separate
  exact reads_operand_assignable found passes (h.reads.assignable room ends) k

theorem reads_expression {x : Piece} (item : x.IsItem) (room : x.text.length + 3 ≤ n) (ends : Ends Strength.assignment raw) :
    Reads ((readers n).expression false) (x.text ++ raw) (ahead raw) (·.Shows x.tree) :=
  (item.reads.cover room ends).bind fun _ shows => (reads_require shows.expression).bind fun _ _ => reads_pure shows

theorem readsOperand_assign {op : Text} (target : IsAccess t (·.IsPlace e)) (member : op ∈ assignments) {x : Piece} (value : x.IsItem) :
    ReadsOperand Strength.assignment (t ++ " " ++ op ++ " " ++ x.text) (·.Shows (.node () (.assign e op x.tree))) := by
  intro n room raw ends k steps
  obtain _ | k := k
  · omega
  have length : (t ++ " " ++ op ++ " " ++ x.text).length = t.length + 1 + op.length + 1 + x.text.length := by
    simp only [length_append]
    rfl
  have shape : t ++ " " ++ op ++ " " ++ x.text ++ raw = t ++ (" " ++ (op ++ (" " ++ (x.text ++ raw)))) := by simp
  have after : Ends Strength.access (" " ++ (op ++ (" " ++ (x.text ++ raw)))) := ends_assignment member _
  have leads := leads_assignment member (x.text ++ raw)
  obtain ⟨token, found, passes⟩ := target.starts _ after.separate
  rw [shape]
  refine reads_operand_assignable found passes ?_ k
  refine (target.reads.access (by omega) after).bind fun p hp => ?_
  rw [ahead_blank (isSolid_assignment member _)]
  refine reads_peek.next ?_
  rw [leads.next?]
  have assigns : (op = "=" ∧ p.role.isTarget = true) ∨ (compoundAssignments.contains op = true ∧ p.role.isCompoundTarget = true) := by
    have roles : p.role.isTarget = true ∧ p.role.isCompoundTarget = true := by
      rcases hp.2 with role | role <;> rw [role] <;> exact ⟨rfl, rfl⟩
    rcases mem_cons.mp member with equals | compound
    · exact .inl ⟨equals, roles.1⟩
    · exact .inr ⟨contains_iff_mem.mpr compound, roles.2⟩
  dsimp only
  rw [if_pos assigns]
  refine (reads_take leads).bind fun _ _ => ?_
  rw [ahead_blank (value.firm.append raw).solid]
  refine (reads_expression value (by omega) ends).bind fun v hv => reads_pure ⟨?_, rfl⟩
  rcases hp.2 with role | role
  · rw [Phrase.assign, role, hp.1.lowered, hv.lowered]
    rfl
  · rw [Phrase.assign, role, hp.1.lowered, hv.lowered]
    rfl

/-- The token of an operator before its operand. -/
def unaryToken (op : UnaryOp) : Token := if op.isWord then .word op.symbol else .symbol op.symbol

theorem reads_operand_unary (known : op.isKnown) {after : Text} (leads : Leads t (unaryToken op) after) {k : Nat}
    (h : Reads (r.operand false k) (ahead after) rest (·.Shows e)) :
    Reads (r.operand false (k + 1)) t rest (·.Shows (.node () (.unary op e))) := by
  have whole : ∀ start, Reads (do
      let _ ← take
      let p ← r.operand false k
      require p.isExpression
      return Phrase.unary op start p) t rest (fun p : Phrase => p.Shows (.node () (.unary op e))) := by
    intro start
    refine (reads_take leads).bind fun _ _ => h.bind fun p shows => ?_
    refine (reads_require shows.expression).bind fun _ _ => reads_pure ⟨?_, rfl⟩
    rw [Phrase.unary, shows.lowered]
    rfl
  refine reads_position.bind fun start _ => reads_peek.next ?_
  rw [leads.next?]
  cases op with
  | other s => cases known
  | _ => exact whole start

theorem leads_unary_word (known : op.isKnown) (word : op.isWord) (more : Text) :
    Leads (op.symbol ++ (" " ++ more)) (unaryToken op) (" " ++ more) := by
  cases op with
  | typeOf | void | delete => exact leads_word ⟨by decide, by decide⟩ (isSeparate_blank _)
  | other s => cases known
  | _ => cases word

theorem readsOperand_word (known : op.isKnown) (word : op.isWord) (firm : IsFirm t)
    (h : ReadsOperand Strength.unary t (·.Shows e)) :
    ReadsOperand Strength.unary (op.symbol ++ " " ++ t) (·.Shows (.node () (.unary op e))) := by
  intro n room raw ends k steps
  have length : (op.symbol ++ " " ++ t).length = op.symbol.length + 1 + t.length := by
    simp only [length_append]
    rfl
  obtain _ | k := k
  · omega
  rw [append_assoc, append_assoc]
  refine reads_operand_unary known (leads_unary_word known word (t ++ raw)) ?_
  rw [ahead_blank (firm.append raw).solid]
  exact h n (by omega) raw ends k (by omega)

theorem leads_unary_sign (known : op.isKnown) (sign : op.isWord = false) (firm : IsFirm t)
    (once : op = .minus ∨ op = .plus → Text.startsWith t op.symbol = false) (raw : Text) :
    Leads (op.symbol ++ (t ++ raw)) (unaryToken op) (t ++ raw) := by
  have shape : op.symbol ∈ signs ∧ unaryToken op = .symbol op.symbol ∧
      (op.symbol = "-" → op = .minus) ∧ (op.symbol = "+" → op = .plus) := by
    cases op with
    | other s => cases known
    | typeOf | void | delete => cases sign
    | _ => decide
  obtain ⟨member, token, isMinus, isPlus⟩ := shape
  rw [token]
  refine leads_sign member fun c first => ?_
  have notEquals := (firm.append raw).head_ne (d := '=') (by decide) (by decide)
  refine ⟨fun same => notEquals (same ▸ first), fun twice => ?_⟩
  have starts : Text.startsWith t op.symbol = true := by
    obtain ⟨d, here, -⟩ := firm
    obtain ⟨more, rfl⟩ := head?_eq_some_iff.mp here
    cases first
    rw [← twice, Text.startsWith]
    simp
  have unsigned : ¬(op = .minus ∨ op = .plus) := fun either => by simp [once either] at starts
  exact ⟨fun minus => unsigned (.inl (isMinus minus)), fun plus => unsigned (.inr (isPlus plus))⟩

theorem readsOperand_sign (known : op.isKnown) (sign : op.isWord = false) (firm : IsFirm t)
    (once : op = .minus ∨ op = .plus → Text.startsWith t op.symbol = false) (h : ReadsOperand Strength.unary t (·.Shows e)) :
    ReadsOperand Strength.unary (op.symbol ++ t) (·.Shows (.node () (.unary op e))) := by
  intro n room raw ends k steps
  have single : 0 < op.symbol.length := by
    cases op with
    | other s => cases known
    | _ => decide
  have length : (op.symbol ++ t).length = op.symbol.length + t.length := length_append
  obtain _ | k := k
  · omega
  rw [append_assoc]
  refine reads_operand_unary known (leads_unary_sign known sign firm once raw) ?_
  rw [ahead_solid (firm.append raw).solid]
  exact h n (by omega) raw ends k (by omega)

end Operands

end Unravel.Grammar
