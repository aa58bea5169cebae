import Unravel.Proofs.Grammar.Operands

/-! Reading operations, conditionals, assignments and sequences back from their text. -/
namespace Unravel.Grammar

open List

variable {P : Phrase → Prop} {x : Piece} {op : UnaryOp} {xs : List Piece}

section Parameters

variable {t more raw : Text} {n : Nat}

/-- What follows the first expression with its accesses, if something does: an operator other than a plain assignment. -/
def Trails (more : Text) : Prop :=
  ∀ raw, Ends Strength.access (more ++ raw) ∧ next? (ahead (more ++ raw)) ≠ some (.symbol ",") ∧
    next? (ahead (more ++ raw)) ≠ some (.symbol ")") ∧ next? (ahead (more ++ raw)) ≠ some (.symbol "=")

/-- A text that starts with an expression with its accesses, or with something that starts no parameter. -/
inductive Heads : Text → Prop
  | closed {t : Text} (h : ∀ raw, IsSeparate raw → (next? (t ++ raw)).any Readers.startsPattern = false) : Heads t
  | access {t : Text} {P : Phrase → Prop} (h : IsAccess t P) : Heads t
  | trailing {t more : Text} {P : Phrase → Prop} (h : IsAccess t P) (trails : Trails more) : Heads (t ++ more)

theorem Heads.append (h : Heads t) (trails : Trails more) : Heads (t ++ more) := by
  cases h with
  | closed h =>
    refine .closed fun raw _ => ?_
    rw [append_assoc]
    exact h _ (trails raw).1.separate
  | access h => exact .trailing h trails
  | @trailing t before P h first =>
    rw [append_assoc]
    refine .trailing h fun raw => ?_
    rw [append_assoc]
    exact first (more ++ raw)

theorem IsAccess.target (h : IsAccess t P) (room : t.length + 3 ≤ n) (ends : Ends Strength.access raw) :
    Reads (readers n).target (t ++ raw) (ahead raw) P := by
  cases n with
  | zero => omega
  | succ n => exact h.reads.access (by omega) ends

theorem stops_require {α : Type} {b : Bool} {f : Unit → Reader α} {R : Text → Prop} (h : b = true → Stops (f ()) t R) :
    Stops (require b >>= f) t R := by
  cases b with
  | false => exact (refuses_require rfl).bind.stops
  | true => exact (reads_require rfl).bind_stops fun _ _ => h rfl

theorem IsAccess.stops {R : Text → Prop} (h : IsAccess t P) (room : t.length + 3 ≤ n)
    (ends : Ends Strength.access raw)
    (plain : next? (ahead raw) ≠ some (.symbol "=") → R (ahead raw))
    (defaulted : ∀ after, Leads (ahead raw) (.symbol "=") after → Stops ((readers n).expression false) (ahead after) R) :
    Stops (readers n).parameter (t ++ raw) R := by
  have spread : next? (t ++ raw) ≠ some (.symbol "...") := (h.firm.append raw).next?_ne (by decide) (by decide)
  refine reads_position.bind_stops fun start _ => (reads_takeIf_other spread).next_stops ?_
  refine reads_peek.bind_stops fun token _ => stops_require fun _ => (h.target room ends).bind_stops fun p _ => ?_
  refine stops_require fun _ => ?_
  by_cases equals : next? (ahead raw) = some (.symbol "=")
  · obtain ⟨⟨token, k⟩, found, same⟩ := Option.map_eq_some_iff.mp equals
    cases same
    have leads : Leads (ahead raw) (.symbol "=") ((ahead raw).drop k) := ⟨k, found, rfl⟩
    refine (reads_takeIf leads).next_stops ?_
    exact (defaulted _ leads).bind fun _ _ stop => stops_pure stop
  · refine (reads_takeIf_other equals).next_stops ?_
    exact stops_pure (plain equals)

theorem Heads.stops (h : Heads t) (firm : IsFirm t) (room : t.length + 3 ≤ n) (divides : Divides raw) :
    Stops (readers n).parameter (t ++ raw)
      fun stop => stop = ahead raw ∨ next? stop ≠ some (.symbol ",") ∧ next? stop ≠ some (.symbol ")") := by
  cases h with
  | closed h =>
    have spread : next? (t ++ raw) ≠ some (.symbol "...") := (firm.append raw).next?_ne (by decide) (by decide)
    refine reads_position.bind_stops fun start _ => (reads_takeIf_other spread).next_stops ?_
    refine reads_peek.next_stops ?_
    rw [h raw divides.ends.separate]
    exact (refuses_require rfl).bind.stops
  | access h =>
    refine h.stops room (divides.ends.mono (by decide)) (fun _ => .inl rfl) fun after leads => ?_
    rcases divides.token with same | same
    · rw [leads.next?] at same
      cases same
    · rw [leads.next?] at same
      cases same
  | @trailing t more P h trails =>
    rw [length_append] at room
    rw [append_assoc]
    obtain ⟨ends, comma, bracket, equals⟩ := trails raw
    refine h.stops (by omega) ends (fun _ => .inr ⟨comma, bracket⟩) fun after leads => ?_
    exact absurd leads.next? equals

/-- An assignment that is taken for a parameter is taken as a whole, if it is a plain one. -/
theorem stops_assign (target : IsAccess t P) {op : Text} (member : op ∈ assignments) (value : x.IsItem)
    (room : (t ++ " " ++ op ++ " " ++ x.text).length + 3 ≤ n) (divides : Divides raw) :
    Stops (readers n).parameter (t ++ " " ++ op ++ " " ++ x.text ++ raw)
      fun stop => stop = ahead raw ∨ next? stop ≠ some (.symbol ",") ∧ next? stop ≠ some (.symbol ")") := by
  have length : (t ++ " " ++ op ++ " " ++ x.text).length = t.length + 1 + op.length + 1 + x.text.length := by
    simp only [length_append]
    rfl
  have shape : t ++ " " ++ op ++ " " ++ x.text ++ raw = t ++ (" " ++ (op ++ (" " ++ (x.text ++ raw)))) := by simp
  have leads := leads_assignment member (x.text ++ raw)
  have solid := ahead_blank (isSolid_assignment member (x.text ++ raw))
  have other : ∀ op ∈ assignments, op ≠ "," ∧ op ≠ ")" := by decide
  rw [shape]
  refine target.stops (by omega) (ends_assignment member _) (fun _ => ?_) fun after again => ?_
  · rw [solid, leads.next?]
    refine .inr ⟨?_, ?_⟩
    · rintro ⟨⟩
      exact (other _ member).1 rfl
    · rintro ⟨⟩
      exact (other _ member).2 rfl
  · rw [solid] at again
    rw [again.unique leads, ahead_blank (value.firm.append raw).solid]
    exact (reads_expression value (by omega) divides.ends).stops (.inl rfl)

end Parameters

/-- A piece that is read back wherever an operand can stand. -/
structure Piece.IsOperand (x : Piece) : Prop where
  firm : IsFirm x.text
  heads : Heads x.text
  reads : ReadsOperand Strength.unary x.text (·.Shows x.tree)

theorem IsAccess.isOperand (h : IsAccess x.text (·.Shows x.tree)) : x.IsOperand := ⟨h.firm, .access h, h.operand⟩

theorem heads_unary {t : Text} (known : op.isKnown)
    (leads : ∀ raw, next? (t ++ raw) = some (unaryToken op)) : Heads t := by
  refine .closed fun raw _ => ?_
  rw [leads raw]
  cases op with
  | other s => cases known
  | _ => decide

theorem isOperand_word (known : op.isKnown) (word : op.isWord) (h : x.IsOperand) :
    Piece.IsOperand ⟨.node () (.unary op x.tree), op.symbol ++ " " ++ x.text⟩ where
  firm := by
    cases op with
    | typeOf | void | delete => exact ((IsWord.firm ⟨by decide, by decide⟩).append _).append _
    | other s => cases known
    | _ => cases word
  heads := by
    refine heads_unary known fun raw => ?_
    rw [append_assoc, append_assoc]
    exact (leads_unary_word known word _).next?
  reads := readsOperand_word known word h.firm h.reads

theorem isOperand_sign (known : op.isKnown) (sign : op.isWord = false) (h : x.IsOperand)
    (once : op = .minus ∨ op = .plus → Text.startsWith x.text op.symbol = false) :
    Piece.IsOperand ⟨.node () (.unary op x.tree), op.symbol ++ x.text⟩ where
  firm := by
    cases op with
    | typeOf | void | delete => cases sign
    | other s => cases known
    | _ => exact ⟨_, rfl, .inr (by decide)⟩
  heads := by
    refine heads_unary known fun raw => ?_
    rw [append_assoc]
    exact (leads_unary_sign known sign h.firm once raw).next?
  reads := readsOperand_sign known sign h.firm once h.reads

def Piece.binary (left : Piece) (op : BinaryOp) (right : Piece) : Piece where
  tree := .node () (.binary op left.tree right.tree)
  text := left.text ++ " " ++ op.symbol ++ " " ++ right.text

namespace Operation

/-- All operators are known and all operands are read back. -/
def IsReadable : Operation Piece → Prop
  | operand x => x.IsOperand
  | apply left op right => left.IsReadable ∧ op.isKnown ∧ right.IsReadable

/-- The operators with their right operands. -/
def row (tail : List (BinaryOp × Piece)) : Text := tail.flatMap fun next => " " ++ (next.1.symbol ++ (" " ++ next.2.text))

variable {t : Operation Piece}

theorem text_fold (t : Operation Piece) : (t.fold Piece.binary).text = t.first.text ++ row t.tail := by
  induction t with
  | operand x => exact (append_nil x.text).symm
  | apply left op right ihl ihr =>
    rw [fold, Piece.binary, ihl, ihr]
    simp [first, tail, row]

theorem IsReadable.first (h : t.IsReadable) : t.first.IsOperand := by
  induction t with
  | operand x => exact h
  | apply left op right ihl _ => exact ihl h.1

theorem IsReadable.tail (h : t.IsReadable) : ∀ next ∈ t.tail, next.1.isKnown ∧ next.2.IsOperand := by
  induction t with
  | operand x => exact nofun
  | apply left op right ihl ihr =>
    intro next member
    rcases mem_append.mp member with before | here
    · exact ihl h.1 next before
    · rcases mem_cons.mp here with rfl | after
      · exact ⟨h.2.1, h.2.2.first⟩
      · exact ihr h.2.2 next after

end Operation

section Chains

variable {raw : Text} {n : Nat} {tail : List (BinaryOp × Piece)}

theorem ends_row (readable : ∀ next ∈ tail, next.1.isKnown ∧ next.2.IsOperand) (ends : Ends (Strength.conditional + 1) raw) :
    Ends Strength.unary (Operation.row tail ++ raw) := by
  cases tail with
  | nil => exact ends.mono (by decide)
  | cons next tail =>
    have shape : Operation.row (next :: tail) ++ raw =
        " " ++ (next.1.symbol ++ (" " ++ (next.2.text ++ (Operation.row tail ++ raw)))) := by simp [Operation.row]
    rw [shape]
    exact ends_operator (readable next (.head _)).1 _

theorem reads_chain_end {s : Nat} (ends : Ends s raw) (lt : s < Strength.unary) (k : Nat) :
    Reads ((readers n).chain false (k + 1)) (ahead raw) (ahead raw) (· = []) := by
  refine reads_isOver.next (reads_peek.next ?_)
  rw [ends.not_operated lt]
  exact reads_pure rfl

theorem reads_chain (readable : ∀ next ∈ tail, next.1.isKnown ∧ next.2.IsOperand) (room : (Operation.row tail).length + 2 ≤ n)
    (ends : Ends (Strength.conditional + 1) raw) (k : Nat) (steps : (Operation.row tail).length < k) :
    Reads ((readers n).chain false k) (ahead (Operation.row tail ++ raw)) (ahead raw)
      fun read => List.Forall₂ (fun x y => x.1 = y.1 ∧ x.2.Shows y.2.tree) read tail := by
  induction tail generalizing k with
  | nil =>
    obtain _ | k := k
    · omega
    refine (reads_chain_end ends (by decide) k).imp fun read empty => ?_
    rw [empty]
    exact .nil
  | cons next tail ih =>
    obtain ⟨op, x⟩ := next
    obtain _ | k := k
    · omega
    obtain ⟨known, operand⟩ := readable (op, x) (.head _)
    have others : ∀ next ∈ tail, next.1.isKnown ∧ next.2.IsOperand := fun next member => readable next (.tail _ member)
    have shape : Operation.row ((op, x) :: tail) ++ raw =
        " " ++ (op.symbol ++ (" " ++ (x.text ++ (Operation.row tail ++ raw)))) := by simp [Operation.row]
    have length : (Operation.row ((op, x) :: tail)).length = op.symbol.length + 2 + x.text.length + (Operation.row tail).length := by
      have blank : Text.ofString " " = [' '] := rfl
      simp [Operation.row, blank]
      omega
    have leads := leads_operator known (x.text ++ (Operation.row tail ++ raw))
    rw [shape, ahead_blank (isSolid_operator known _)]
    refine reads_isOver.next (reads_peek.next ?_)
    rw [leads.next?, Option.bind_some, binaryOp?_operatorToken known]
    refine (reads_take leads).bind fun _ _ => ?_
    rw [ahead_blank (operand.firm.append _).solid]
    have inside : x.text.length + 2 ≤ n := by omega
    have bound : x.text.length < (readers n).bound := by
      rw [readers_bound]
      omega
    refine (operand.reads n inside _ (ends_row others ends) _ bound).bind fun p shows => ?_
    refine (reads_require shows.expression).bind fun _ _ => ?_
    exact (ih others (by omega) k (by omega)).bind fun read all => reads_pure (.cons ⟨rfl, shows⟩ all)

/-- Before a text and what ends it, operands with the operators between them are read. -/
def ReadsOperation (t : Text) (P : Phrase → Prop) : Prop :=
  ∀ n, t.length + 2 ≤ n → ∀ raw, Ends (Strength.conditional + 1) raw → Reads ((readers n).operation false) (t ++ raw) (ahead raw) P

theorem shows_binary {p q : Phrase} {a b : Shape} (op : BinaryOp) (left : p.Shows a) (right : q.Shows b) :
    (Phrase.binary p op q).Shows (.node () (.binary op a b)) := by
  refine ⟨?_, rfl⟩
  rw [Phrase.binary, left.lowered, right.lowered]
  rfl

theorem readsOperation {t : Operation Piece} (levelled : t.IsLevelled) (readable : t.IsReadable) :
    ReadsOperation (t.fold Piece.binary).text (·.Shows (t.fold Piece.binary).tree) := by
  intro n room raw ends
  rw [t.text_fold, length_append] at room
  rw [t.text_fold, append_assoc]
  have bound : t.first.text.length < (readers n).bound ∧ (Operation.row t.tail).length < (readers n).bound := by
    rw [readers_bound]
    omega
  refine (readable.first.reads n (by omega) _ (ends_row readable.tail ends) _ bound.1).bind fun first shows => ?_
  refine (reads_chain readable.tail (by omega) ends _ bound.2).bind fun tail all => ?_
  have expression : (tail.isEmpty || first.isExpression) = true := by rw [shows.expression, Bool.or_true]
  refine (reads_require expression).bind fun _ _ => reads_pure ?_
  have related : (Chain.group Phrase.binary first tail).Shows (Chain.group Piece.binary t.first t.tail).tree :=
    Chain.group_related (R := fun (p : Phrase) (x : Piece) => p.Shows x.tree) (fun op => shows_binary op) shows all
  rwa [Chain.group_levelled Piece.binary levelled] at related

/-- A piece that is read back wherever operands with operators between them can stand. -/
structure Piece.IsOperation (x : Piece) : Prop where
  firm : IsFirm x.text
  heads : Heads x.text
  reads : ReadsOperation x.text (·.Shows x.tree)

theorem trails_operator {op : BinaryOp} (known : op.isKnown) (more : Text) : Trails (" " ++ (op.symbol ++ (" " ++ more))) := by
  intro raw
  have shape : " " ++ (op.symbol ++ (" " ++ more)) ++ raw = " " ++ (op.symbol ++ (" " ++ (more ++ raw))) := by simp
  have other : operatorToken op ≠ .symbol "," ∧ operatorToken op ≠ .symbol ")" ∧ operatorToken op ≠ .symbol "=" := by
    cases op with
    | other s => cases known
    | _ => decide
  rw [shape, ahead_blank (isSolid_operator known _), (leads_operator known _).next?]
  refine ⟨(ends_operator known _).mono (by decide), ?_, ?_, ?_⟩
  · exact fun same => other.1 (Option.some.inj same)
  · exact fun same => other.2.1 (Option.some.inj same)
  · exact fun same => other.2.2 (Option.some.inj same)

theorem isOperation_fold {t : Operation Piece} (levelled : t.IsLevelled) (readable : t.IsReadable) :
    (t.fold Piece.binary).IsOperation := by
  refine ⟨?_, ?_, readsOperation levelled readable⟩
  · rw [t.text_fold]
    exact readable.first.firm.append _
  · rw [t.text_fold]
    cases same : t.tail with
    | nil =>
      rw [Operation.row, flatMap_nil, append_nil]
      exact readable.first.heads
    | cons next tail =>
      refine readable.first.heads.append ?_
      have shape : Operation.row (next :: tail) = " " ++ (next.1.symbol ++ (" " ++ (next.2.text ++ Operation.row tail))) := by
        simp [Operation.row]
      have member : next ∈ t.tail := same ▸ (.head _)
      rw [shape]
      exact trails_operator (readable.tail next member).1 _

theorem Piece.IsOperand.isOperation (h : x.IsOperand) : x.IsOperation :=
  @isOperation_fold (.operand x) trivial h

end Chains

section Items

variable {x y z : Piece} {t raw : Text} {e : Shape}

theorem reads_cover_operation {n : Nat} (ends : Ends Strength.assignment raw)
    (h : Reads ((readers n).operation false) t (ahead raw) P) : Reads ((readers n).coverWith false) t (ahead raw) P := by
  refine h.bind fun p hp => ?_
  refine reads_isOver.next ((reads_isNext_other (ends.not_symbol (by decide))).next ?_)
  exact reads_pure hp

theorem reads_cover_operand {n : Nat} (ends : Ends Strength.assignment raw)
    (h : Reads ((readers (n + 2)).operand false (n + 1)) t (ahead raw) P) : Reads ((readers (n + 2)).coverWith false) t (ahead raw) P := by
  refine reads_cover_operation ends (h.bind fun p hp => (reads_chain_end ends (by decide) n).bind fun tail empty => ?_)
  rw [empty]
  exact (reads_require rfl).bind fun _ _ => reads_pure hp

theorem ReadsOperand.cover (h : ReadsOperand Strength.assignment t P) : ReadsCover t P := by
  intro n room raw ends
  obtain ⟨n, rfl⟩ : ∃ m, n = m + 2 := ⟨n - 2, by omega⟩
  exact reads_cover_operand ends (h (n + 2) room raw ends (n + 1) (by omega))

theorem IsAccess.cover (h : IsAccess t P) : ReadsCover t P :=
  ReadsOperand.cover fun n room raw ends => h.operand n room raw (ends.mono (by decide))

theorem Piece.IsOperation.isItem (h : x.IsOperation) : x.IsItem where
  firm := h.firm
  reads n room raw ends := reads_cover_operation ends (h.reads n room raw (ends.mono (by decide)))
  stops _ room _ divides := h.heads.stops h.firm room divides

/-- The text of a conditional after its test. -/
def branches (y z : Piece) : Text := " " ++ ("?" ++ (" " ++ (y.text ++ (" " ++ (":" ++ (" " ++ z.text))))))

theorem branches_append (raw : Text) : branches y z ++ raw =
    " " ++ ("?" ++ (" " ++ (y.text ++ (" " ++ (":" ++ (" " ++ (z.text ++ raw))))))) := by simp [branches]

theorem trails_branches : Trails (branches y z) := by
  intro raw
  have solid : ∀ more : Text, IsSolid ("?" ++ more) := isSolid_cons (by decide) (by decide)
  rw [branches_append, ahead_blank (solid _), (leads_question _).next?]
  exact ⟨(ends_question _).mono (by decide), by decide, by decide, by decide⟩

theorem reads_conditional (test : x.IsOperation) (consequent : y.IsItem) (alternate : z.IsItem) :
    ReadsCover (x.text ++ branches y z) (·.Shows (.node () (.conditional x.tree y.tree z.tree))) := by
  intro n room raw ends
  have length : (x.text ++ branches y z).length = x.text.length + y.text.length + z.text.length + 6 := by
    have texts : Text.ofString " " = [' '] ∧ Text.ofString "?" = ['?'] ∧
        Text.ofString ":" = [':'] := ⟨rfl, rfl, rfl⟩
    simp [branches, texts]
    omega
  have colon : ∀ more : Text, Leads (":" ++ more) (.symbol ":") more := leads_bracket (by decide)
  have colonSolid : ∀ more : Text, IsSolid (":" ++ more) := isSolid_bracket (by decide)
  have questionSolid : ∀ more : Text, IsSolid ("?" ++ more) := isSolid_cons (by decide) (by decide)
  rw [append_assoc, branches_append]
  refine (test.reads n (by omega) _ (ends_question _)).bind fun p shows => ?_
  rw [ahead_blank (questionSolid _)]
  refine reads_isOver.next (reads_isNext.next ?_)
  rw [(leads_question _).next?, beq_self_eq_true]
  refine (reads_require shows.expression).bind fun _ _ => (reads_symbol (leads_question _)).bind fun _ _ => ?_
  rw [ahead_blank (consequent.firm.append _).solid]
  have between : Ends Strength.assignment (" " ++ (":" ++ (" " ++ (z.text ++ raw)))) :=
    (ends_spaced (colonSolid _) (colon _)).mono (by decide)
  refine (reads_expression consequent (by omega) between).bind fun q hq => ?_
  rw [ahead_blank (colonSolid _)]
  refine (reads_symbol (colon _)).bind fun _ _ => ?_
  rw [ahead_blank (alternate.firm.append _).solid]
  refine (reads_expression alternate (by omega) ends).bind fun a ha => reads_pure ⟨?_, rfl⟩
  rw [Phrase.conditional, shows.lowered, hq.lowered, ha.lowered]
  rfl

theorem isItem_conditional (test : x.IsOperation) (consequent : y.IsItem) (alternate : z.IsItem) :
    Piece.IsItem ⟨.node () (.conditional x.tree y.tree z.tree), x.text ++ branches y z⟩ where
  firm := test.firm.append _
  reads := reads_conditional test consequent alternate
  stops _ room _ divides := (test.heads.append trails_branches).stops (test.firm.append _) room divides

theorem isItem_assign {op : Text} (target : IsAccess t (·.IsPlace e)) (member : op ∈ assignments) (value : x.IsItem) :
    Piece.IsItem ⟨.node () (.assign e op x.tree), t ++ " " ++ op ++ " " ++ x.text⟩ where
  firm := by
    rw [append_assoc, append_assoc, append_assoc]
    exact target.firm.append _
  reads := (readsOperand_assign target member value).cover
  stops _ room _ divides := stops_assign target member value room divides

end Items

section Commas

variable {raw : Text} {n : Nat}

theorem reads_commaSeparated (items : ∀ y ∈ x :: xs, y.IsItem)
    (room : (listing (x :: xs)).length + 3 ≤ n) (ends : Ends Strength.sequence raw) (k : Nat) (steps : (listing (x :: xs)).length < k) :
    Reads (commaSeparated ((readers n).expression false) k) (listing (x :: xs) ++ raw) (ahead raw)
      fun ps => List.Forall₂ Phrase.Shows ps ((x :: xs).map Piece.tree) := by
  induction xs generalizing x k with
  | nil =>
    obtain _ | k := k
    · omega
    rw [listing_single] at room ⊢
    refine (reads_expression (items x (.head _)) room (ends.mono (by decide))).bind fun p shows => ?_
    refine (reads_takeIf_other (ends.not_symbol (by decide))).next ?_
    exact reads_pure (.cons shows .nil)
  | cons y xs ih =>
    obtain _ | k := k
    · omega
    have others : ∀ z ∈ y :: xs, z.IsItem := fun z hz => items z (.tail x hz)
    have divided : Ends Strength.assignment ("," ++ (" " ++ (listing (y :: xs) ++ raw))) := ends_bracket (by decide) (by decide) _
    rw [length_listing_cons] at room steps
    rw [listing_cons, append_assoc, append_assoc, append_assoc]
    refine (reads_expression (items x (.head _)) (by omega) divided).bind fun p shows => ?_
    rw [ahead_bracket (by decide)]
    refine (reads_takeIf (leads_bracket (by decide) _)).next ?_
    rw [ahead_blank ((isFirm_listing (others y (.head _)).firm xs).append _).solid]
    exact (ih others (by omega) k (by omega)).bind fun ps all => reads_pure (.cons shows all)

theorem mapM_lowered {ps : List Phrase} {es : List Shape} (shown : List.Forall₂ Phrase.Shows ps es) :
    ps.mapM Phrase.lowered = .ok es := by
  induction shown with
  | nil => rfl
  | cons here rest ih =>
    rw [mapM_cons, here.lowered, ih]
    rfl

theorem readsAll_listing (items : ∀ y ∈ x :: xs, y.IsItem) :
    ReadsAll (listing (x :: xs)) fun p => ∃ q qs, p = Phrase.sequence q qs ∧ List.Forall₂ Phrase.Shows (q :: qs) ((x :: xs).map Piece.tree) := by
  intro n room raw ends
  have steps : (listing (x :: xs)).length < (readers n).bound := by
    rw [readers_bound]
    omega
  refine (reads_commaSeparated items room ends _ steps).bind fun ps shown => ?_
  cases shown with
  | @cons q e qs es here rest => exact reads_pure ⟨q, qs, rfl, .cons here rest⟩

theorem ReadsCover.all {t : Text} (h : ReadsCover t P) (value : ∀ p, P p → p.isExpression) : ReadsAll t P := by
  intro n room raw ends
  obtain ⟨n, rfl⟩ : ∃ m, n = m + 2 := ⟨n - 2, by omega⟩
  have expression : Reads ((readers (n + 2)).expression false) (t ++ raw) (ahead raw) P :=
    (h.cover room (ends.mono (by decide))).bind fun p hp => (reads_require (value p hp)).bind fun _ _ => reads_pure hp
  have single : Reads (commaSeparated ((readers (n + 2)).expression false) (n + 1)) (t ++ raw) (ahead raw) fun ps => ∃ p, ps = [p] ∧ P p := by
    refine expression.bind fun p hp => (reads_takeIf_other (ends.not_symbol (by decide))).next ?_
    exact reads_pure ⟨p, rfl, hp⟩
  refine single.bind fun ps found => ?_
  obtain ⟨p, rfl, hp⟩ := found
  exact reads_pure hp

theorem Piece.IsItem.all (h : x.IsItem) : ReadsAll x.text (·.Shows x.tree) :=
  h.reads.all fun _ shows => shows.expression

theorem readsAll_sequence {y : Piece} (items : ∀ z ∈ x :: y :: xs, z.IsItem) :
    ReadsAll (listing (x :: y :: xs)) (·.Shows (.node () (.sequence ((x :: y :: xs).map Piece.tree)))) := by
  refine fun n room raw ends => (readsAll_listing items n room raw ends).imp fun p found => ?_
  obtain ⟨q, qs, rfl, shown⟩ := found
  have lowered := mapM_lowered shown
  cases shown with
  | cons here rest =>
    cases rest with
    | cons second rest =>
      rw [Phrase.sequence, if_neg (by simp)]
      refine ⟨?_, rfl⟩
      dsimp only
      rw [lowered]
      rfl

end Commas

end Unravel.Grammar
