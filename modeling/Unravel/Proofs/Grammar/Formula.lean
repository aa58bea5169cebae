import Unravel.Proofs.Grammar.Operations
import Unravel.Proofs.Grammar.Whole

/-! Formulas are made of names by operators, assignments, accesses, calls, arrays and sequences. A formula whose names and
   operators are written like those of a source is read back from its text, with two exceptions. -/
namespace Unravel

open List

/-- Names, operators of all kinds, calls, members and arrays. -/
def Form.isFormula {ρ : Type} : Form ρ → Bool
  | identifier _ | array _ | call .. | member .. | index .. | binary .. | unary .. | conditional .. | assign .. | sequence _ => true
  | _ => false

open Grammar

/-- The name that takes what follows it for its operand. -/
def Form.isAwait {ρ : Type} : Form ρ → Bool
  | identifier w => w = "await"
  | _ => false

/-- What can stand on the left of an assignment. -/
def Form.isPlace {ρ : Type} : Form ρ → Bool
  | identifier w => w != "undefined"
  | member .. | index .. => true
  | _ => false

/-- Names and operators like those of a source. -/
def Form.IsSpelled {α : Type} : Form (Tree α) → Prop
  | identifier w => IsWord w ∧ Grammar.isName w ∧ w ≠ "yield" ∧ w.all isLegal
  | member _ w => IsWord w ∧ w.all isLegal
  | binary op _ _ => op.isKnown
  | unary op _ => op.isKnown
  | assign target op _ => op ∈ assignments ∧ target.form.isPlace
  | sequence es => 2 ≤ es.length
  | _ => True

namespace Tree

variable {α : Type}

def IsFormula (t : Tree α) : Prop := ∀ n ∈ t.walk, n.form.isFormula

instance (t : Tree α) : Decidable t.IsFormula := inferInstanceAs (Decidable (∀ n ∈ t.walk, _))

def IsSpelled (t : Tree α) : Prop := ∀ n ∈ t.walk, n.form.IsSpelled

/-- A disjunction whose left operand is a nullish choice that starts with a parenthesis of its own: it gets no
parentheses and falls apart. -/
def hidesChoice (n : Tree α) : Bool :=
  match n.form with
  | .binary .logicalOr left _ =>
    match left.form, left.renderExpression with
    | .binary .nullish _ _, .ok text => text.startsWith "("
    | _, _ => false
  | _ => false

theorem hidesChoice_disjunction {m : α} {left right a b : Tree α} {text : Text} (form : left.form = .binary .nullish a b)
    (rendered : left.renderExpression = .ok text) : (node m (.binary .logicalOr left right)).hidesChoice = text.startsWith "(" := by
  rw [hidesChoice, form_node]
  dsimp only
  rw [form, rendered]

/-- No disjunction hides a choice, and no name is `await`. -/
def IsClear (t : Tree α) : Prop := ∀ n ∈ t.walk, n.hidesChoice = false ∧ n.form.isAwait = false

instance (t : Tree α) : Decidable t.IsClear := inferInstanceAs (Decidable (∀ n ∈ t.walk, _ ∧ _))

theorem rendered_node (m : α) (f : Form (Tree α)) : (node m f).rendered = Render.layer (f.map fun t => (t, t.rendered)) :=
  para_node _ m f

theorem renderExpression_node (m : α) (f : Form (Tree α)) :
    (node m f).renderExpression = Render.expression (f.map fun t => (t, t.rendered)) := by
  rw [renderExpression, rendered_node]
  rfl

end Tree

namespace Grammar

/-- The text of a tree in a place that asks for some strength. -/
def shown (least : Nat) (e : Shape) (t : Text) : Text := if e.form.strength < least then Render.parenthesised t else t

/-- A tree is read back from its text, in all places that its strength suffices for. -/
structure Legible (e : Shape) (t : Text) : Prop where
  firm : IsFirm t
  legal : t.all isLegal
  place : e.form.isPlace → IsAccess t (·.IsPlace e)
  access : Strength.access ≤ e.form.strength → IsAccess t (·.Shows e)
  operand : Strength.unary ≤ e.form.strength → Piece.IsOperand ⟨e, t⟩
  operation : Strength.conditional < e.form.strength → ∃ o : Operation Piece, o.IsLevelled ∧ o.IsReadable ∧
    o.fold Piece.binary = ⟨e, t⟩ ∧ ∀ op ∈ o.root, ∃ left right, e.form = .binary op left right
  item : Strength.assignment ≤ e.form.strength → Piece.IsItem ⟨e, t⟩
  all : ReadsAll t (·.Shows e)

namespace Legible

variable {e : Shape} {t : Text}

theorem of_item (item : Piece.IsItem ⟨e, t⟩) (legal : t.all isLegal)
    (weak : e.form.strength ≤ Strength.conditional) (open_ : e.form.isPlace = false) : Legible e t where
  firm := item.firm
  legal := legal
  place h := by simp [open_] at h
  access h := absurd (h.trans weak) (by decide)
  operand h := absurd (h.trans weak) (by decide)
  operation h := absurd weak (by omega)
  item _ := item
  all := item.all

theorem of_operation {o : Operation Piece} (levelled : o.IsLevelled) (readable : o.IsReadable)
    (same : o.fold Piece.binary = ⟨e, t⟩) (root : ∀ op ∈ o.root, ∃ left right, e.form = .binary op left right)
    (legal : t.all isLegal) (weak : e.form.strength < Strength.unary) (open_ : e.form.isPlace = false) : Legible e t := by
  have operation : Piece.IsOperation ⟨e, t⟩ := by
    rw [← same]
    exact isOperation_fold levelled readable
  exact {
    firm := operation.firm
    legal := legal
    place := fun h => by simp [open_] at h
    access := fun h => absurd (lt_of_le_of_lt h weak) (by decide)
    operand := fun h => absurd h (by omega)
    operation := fun _ => ⟨o, levelled, readable, same, root⟩
    item := fun _ => operation.isItem
    all := operation.isItem.all }

theorem of_operand (operand : Piece.IsOperand ⟨e, t⟩) (legal : t.all isLegal) (weak : e.form.strength < Strength.access)
    (open_ : e.form.isPlace = false) : Legible e t where
  firm := operand.firm
  legal := legal
  place h := by simp [open_] at h
  access h := absurd h (by omega)
  operand _ := operand
  operation _ := ⟨.operand ⟨e, t⟩, trivial, operand, rfl, nofun⟩
  item _ := operand.isOperation.isItem
  all := operand.isOperation.isItem.all

theorem of_access (access : IsAccess t (·.Shows e)) (place : e.form.isPlace → IsAccess t (·.IsPlace e))
    (legal : t.all isLegal) : Legible e t := by
  have operand : Piece.IsOperand ⟨e, t⟩ := IsAccess.isOperand access
  exact {
    firm := access.firm
    legal := legal
    place := place
    access := fun _ => access
    operand := fun _ => operand
    operation := fun _ => ⟨.operand ⟨e, t⟩, trivial, operand, rfl, nofun⟩
    item := fun _ => operand.isOperation.isItem
    all := operand.isOperation.isItem.all }

theorem of_place (place : IsAccess t (·.IsPlace e)) (legal : t.all isLegal) : Legible e t :=
  of_access (place.imp fun _ hp => hp.1) (fun _ => place) legal

variable (h : Legible e t)

include h

theorem parenthesised : IsAccess (Render.parenthesised t) (·.Shows e) := isAccess_parenthesised h.firm h.all

theorem shown_access : IsAccess (shown Strength.access e t) (·.Shows e) := by
  rw [shown]
  split
  next => exact h.parenthesised
  next strong => exact h.access (not_lt.mp strong)

theorem shown_operand : Piece.IsOperand ⟨e, shown Strength.unary e t⟩ := by
  rw [shown]
  split
  next => exact IsAccess.isOperand h.parenthesised
  next strong => exact h.operand (not_lt.mp strong)

theorem shown_operation : Piece.IsOperation ⟨e, shown (Strength.conditional + 1) e t⟩ := by
  rw [shown]
  split
  next => exact (IsAccess.isOperand h.parenthesised).isOperation
  next strong =>
    obtain ⟨o, levelled, readable, same, -⟩ := h.operation (not_lt.mp strong)
    rw [← same]
    exact isOperation_fold levelled readable

theorem shown_item : Piece.IsItem ⟨e, shown Strength.assignment e t⟩ := by
  rw [shown]
  split
  next => exact (IsAccess.isOperand h.parenthesised).isOperation.isItem
  next strong => exact h.item (not_lt.mp strong)

theorem legal_parenthesised : (Render.parenthesised t).all isLegal := by
  rw [Render.parenthesised, all_append, all_append, h.legal]
  rfl

theorem legal_shown (least : Nat) : (shown least e t).all isLegal := by
  rw [shown]
  split
  next => exact h.legal_parenthesised
  next => exact h.legal

end Legible

section Layers

variable {e : Shape} {t : Text}

theorem within_shown (rendered : e.renderExpression = .ok t) (least : Nat) : Render.within least (e, e.rendered) = .ok (shown least e t) := by
  have text : e.rendered.expression = .ok t := rendered
  rw [Render.within, text]
  rfl

theorem callee_shown (formula : e.form.isFormula) (rendered : e.renderExpression = .ok t) :
    Render.callee (e, e.rendered) = .ok (shown Strength.access e t) := by
  have within := within_shown rendered Strength.access
  obtain ⟨m, f⟩ := e
  cases f with
  | function _ _ _ _ | object _ => cases formula
  | _ => exact within

theorem legal_listing {xs : List Piece} (legal : ∀ x ∈ xs, x.text.all isLegal) : (listing xs).all isLegal := by
  induction xs with
  | nil => rfl
  | cons x xs ih =>
    have here := legal x (.head _)
    cases xs with
    | nil => rwa [listing_single]
    | cons y xs =>
      have below := ih fun z hz => legal z (.tail x hz)
      rw [listing_cons, all_append, here, all_append, all_append, below]
      rfl

theorem listed_shown {es : List Shape} (each : ∀ e ∈ es, ∃ t, e.renderExpression = .ok t ∧ Legible e t) :
    ∃ xs : List Piece, xs.map Piece.tree = es ∧ (∀ x ∈ xs, x.IsItem) ∧ (listing xs).all isLegal ∧
      Render.listed (es.map fun e => (e, e.rendered)) = .ok (listing xs) := by
  have pieces : ∃ xs : List Piece, xs.map Piece.tree = es ∧ (∀ x ∈ xs, x.IsItem ∧ x.text.all isLegal) ∧
      (es.map fun e => (e, e.rendered)).mapM (Render.within Strength.assignment) = .ok (xs.map Piece.text) := by
    induction es with
    | nil => exact ⟨[], rfl, nofun, rfl⟩
    | cons e es ih =>
      obtain ⟨t, rendered, legible⟩ := each e (.head _)
      obtain ⟨xs, trees, items, texts⟩ := ih fun d hd => each d (.tail e hd)
      refine ⟨⟨e, shown Strength.assignment e t⟩ :: xs, by rw [map_cons, trees], ?_, ?_⟩
      · exact forall_mem_cons.mpr ⟨⟨legible.shown_item, legible.legal_shown _⟩, items⟩
      · rw [map_cons, mapM_cons, within_shown rendered, texts]
        rfl
  obtain ⟨xs, trees, items, texts⟩ := pieces
  refine ⟨xs, trees, fun x hx => (items x hx).1, legal_listing fun x hx => (items x hx).2, ?_⟩
  rw [Render.listed, texts]
  rfl

/-- An operator next to one that it must not be mixed with. -/
def mixes (op : BinaryOp) (e : Shape) : Bool :=
  match e.form with
  | .binary inner _ _ => op.mixesNullish inner
  | _ => false

/-- The text of an operand of a binary operator. -/
def operandText (op : BinaryOp) (least : Nat) (e : Shape) (t : Text) : Text :=
  if mixes op e && !Text.startsWith (shown least e t) "(" then Render.parenthesised (shown least e t) else shown least e t

theorem operand_shown (rendered : e.renderExpression = .ok t) (op : BinaryOp) (least : Nat) :
    Render.operand op least (e, e.rendered) = .ok (operandText op least e t) := by
  rw [Render.operand, within_shown rendered]
  obtain ⟨m, f⟩ := e
  cases f <;> rfl

theorem startsWith_parenthesised (t : Text) : Text.startsWith (Render.parenthesised t) "(" := by
  rw [Text.startsWith, List.isPrefixOf_iff_prefix]
  exact ⟨t ++ ")", rfl⟩

theorem operandText_cases (op : BinaryOp) (least : Nat) (e : Shape) (t : Text) :
    operandText op least e t = Render.parenthesised t ∨
      operandText op least e t = t ∧ least ≤ e.form.strength ∧ (mixes op e → Text.startsWith t "(") := by
  rw [operandText, shown]
  by_cases weak : e.form.strength < least
  · rw [if_pos weak, startsWith_parenthesised]
    simp
  · rw [if_neg weak]
    by_cases mixed : (mixes op e && !Text.startsWith t "(") = true
    · exact .inl (if_pos mixed)
    · refine .inr ⟨if_neg mixed, not_lt.mp weak, fun mixing => ?_⟩
      simpa [mixing] using mixed

/-- An operand is read back whole, or as an operation whose last operator shows. -/
theorem Legible.operation_operandText (h : Legible e t) (op : BinaryOp) {least : Nat} (strong : Strength.conditional < least) :
    ∃ o : Operation Piece, o.IsLevelled ∧ o.IsReadable ∧ o.fold Piece.binary = ⟨e, operandText op least e t⟩ ∧
      ∀ inner ∈ o.root, (∃ left right, e.form = .binary inner left right) ∧ least ≤ inner.strength ∧
        (op.mixesNullish inner → Text.startsWith t "(") := by
  rcases operandText_cases op least e t with same | ⟨same, enough, mixing⟩
  · rw [same]
    exact ⟨.operand ⟨e, _⟩, trivial, IsAccess.isOperand h.parenthesised, rfl, nofun⟩
  · rw [same]
    obtain ⟨o, levelled, readable, folded, root⟩ := h.operation (lt_of_lt_of_le strong enough)
    refine ⟨o, levelled, readable, folded, fun inner member => ?_⟩
    obtain ⟨left, right, form⟩ := root inner member
    rw [form] at enough
    rw [mixes, form] at mixing
    exact ⟨⟨left, right, form⟩, enough, mixing⟩

theorem Legible.legal_operandText (h : Legible e t) (op : BinaryOp) (least : Nat) :
    (operandText op least e t).all isLegal := by
  rcases operandText_cases op least e t with same | ⟨same, -⟩
  · rw [same]
    exact h.legal_parenthesised
  · rw [same]
    exact h.legal

end Layers

section Strengths

variable {op inner : BinaryOp}

theorem strengths (known : op.isKnown) :
    op = .nullish ∧ level op = 1 ∧ op.strength = 4 ∧ op.leftStrength = 4 ∧ op.rightStrength = 5 ∨
    op = .logicalOr ∧ level op = 2 ∧ op.strength = 4 ∧ op.leftStrength = 4 ∧ op.rightStrength = 5 ∨
    op = .pow ∧ level op = 12 ∧ op.strength = 14 ∧ op.leftStrength = 16 ∧ op.rightStrength = 14 ∨
    op ≠ .pow ∧ 3 ≤ level op ∧ level op ≤ 11 ∧
      op.strength = level op + 2 ∧ op.leftStrength = level op + 2 ∧ op.rightStrength = level op + 3 := by
  cases op with
  | other s => cases known
  | nullish => exact .inl (by decide)
  | logicalOr => exact .inr (.inl (by decide))
  | pow => exact .inr (.inr (.inl (by decide)))
  | _ => exact .inr (.inr (.inr (by decide)))

theorem takesBefore_left (known : op.isKnown) (innerKnown : inner.isKnown) (enough : op.leftStrength ≤ inner.strength)
    (apart : ¬(op = .logicalOr ∧ inner = .nullish)) : takesBefore inner op := by
  rw [takesBefore_iff]
  have outside := strengths known
  have inside := strengths innerKnown
  grind

theorem not_takesBefore_right (known : op.isKnown) (innerKnown : inner.isKnown) (enough : op.rightStrength ≤ inner.strength) :
    ¬takesBefore op inner := by
  rw [takesBefore_iff]
  have outside := strengths known
  have inside := strengths innerKnown
  grind

theorem conditional_lt_strengths (known : op.isKnown) :
    Strength.conditional < op.strength ∧ op.strength < Strength.unary ∧ Strength.conditional < op.leftStrength ∧
      Strength.conditional < op.rightStrength := by
  have kinds := strengths known
  simp only [Strength.conditional, Strength.unary]
  omega

end Strengths

/-- A tree has a text from which it is read back. -/
def ReadsBack (e : Shape) : Prop := ∃ t, e.renderExpression = .ok t ∧ Legible e t

section Forms

variable {e a b : Shape} {es : List Shape}

theorem readsBack_identifier {w : Text} (word : IsWord w) (name : isName w) (yields : w ≠ "yield") (awaits : w ≠ "await")
    (legal : w.all isLegal) : ReadsBack (.node () (.identifier w)) := by
  have access := isAccess_name word name yields awaits
  refine ⟨w, rfl, .of_access (access.imp ?_) (fun place => access.imp ?_) legal⟩
  · rintro p ⟨start, rfl⟩
    exact shows_name w start
  · rintro p ⟨start, rfl⟩
    exact isPlace_name (bne_iff_ne.mp place) start

theorem readsBack_array (each : ∀ e ∈ es, ReadsBack e) : ReadsBack (.node () (.array es)) := by
  obtain ⟨xs, rfl, items, legal, text⟩ := listed_shown each
  refine ⟨"[" ++ listing xs ++ "]", ?_, .of_access (isAccess_array items) nofun ?_⟩
  · rw [Tree.renderExpression_node, Form.map, Render.expression, text]
    rfl
  · rw [all_append, all_append, legal]
    rfl

theorem readsBack_call (formula : e.form.isFormula) (callee : ReadsBack e) (each : ∀ e ∈ es, ReadsBack e) :
    ReadsBack (.node () (.call e es)) := by
  obtain ⟨t, rendered, legible⟩ := callee
  obtain ⟨xs, rfl, items, legal, text⟩ := listed_shown each
  refine ⟨shown Strength.access e t ++ "(" ++ listing xs ++ ")", ?_, .of_access (legible.shown_access.call items) nofun ?_⟩
  · rw [Tree.renderExpression_node, Form.map, Render.expression, text, callee_shown formula rendered]
    rfl
  · rw [all_append, all_append, all_append, legible.legal_shown, legal]
    rfl

theorem readsBack_member {w : Text} (formula : e.form.isFormula) (object : ReadsBack e) (word : IsWord w)
    (legal : w.all isLegal) : ReadsBack (.node () (.member e w)) := by
  obtain ⟨t, rendered, legible⟩ := object
  refine ⟨shown Strength.access e t ++ "." ++ w, ?_, .of_place (legible.shown_access.member word) ?_⟩
  · rw [Tree.renderExpression_node, Form.map, Render.expression, callee_shown formula rendered]
    rfl
  · rw [all_append, all_append, legible.legal_shown, legal]
    rfl

theorem readsBack_index (formula : e.form.isFormula) (object : ReadsBack e) (key : ReadsBack a) : ReadsBack (.node () (.index e a)) := by
  obtain ⟨t, rendered, legible⟩ := object
  obtain ⟨u, inside, keyed⟩ := key
  have text : a.rendered.expression = .ok u := inside
  refine ⟨shown Strength.access e t ++ "[" ++ u ++ "]", ?_, .of_place (legible.shown_access.index keyed.firm keyed.all) ?_⟩
  · rw [Tree.renderExpression_node, Form.map, Render.expression, callee_shown formula rendered, text]
    rfl
  · rw [all_append, all_append, all_append, legible.legal_shown, keyed.legal]
    rfl

theorem legal_symbol {op : BinaryOp} (known : op.isKnown) : op.symbol.all isLegal := by
  cases op with
  | other s => cases known
  | _ => decide

theorem readsBack_binary {op : BinaryOp} (known : op.isKnown) (left : ReadsBack a) (right : ReadsBack b)
    (spelled : ∀ inner, (∃ c d, a.form = .binary inner c d) ∨ (∃ c d, b.form = .binary inner c d) → inner.isKnown)
    (clear : (Tree.node () (.binary op a b)).hidesChoice = false) : ReadsBack (.node () (.binary op a b)) := by
  obtain ⟨t, rendered, legible⟩ := left
  obtain ⟨u, rendered', legible'⟩ := right
  obtain ⟨-, weak, strong, strong'⟩ := conditional_lt_strengths known
  obtain ⟨o, levelled, readable, folded, root⟩ := legible.operation_operandText op strong
  obtain ⟨o', levelled', readable', folded', root'⟩ := legible'.operation_operandText op strong'
  refine ⟨operandText op op.leftStrength a t ++ " " ++ op.symbol ++ " " ++ operandText op op.rightStrength b u, ?_, ?_⟩
  · rw [Tree.renderExpression_node, Form.map, Render.expression, operand_shown rendered, operand_shown rendered']
    rfl
  · refine Legible.of_operation (o := .apply o op o') ⟨levelled, levelled', ?_, ?_⟩ ⟨readable, known, readable'⟩ ?_ ?_ ?_ weak rfl
    · intro inner member
      obtain ⟨⟨c, d, form⟩, enough, mixing⟩ := root inner member
      refine takesBefore_left known (spelled inner (.inl ⟨c, d, form⟩)) enough ?_
      rintro ⟨rfl, rfl⟩
      rw [Tree.hidesChoice_disjunction form rendered] at clear
      exact Bool.false_ne_true (clear.symm.trans (mixing rfl))
    · intro inner member
      obtain ⟨⟨c, d, form⟩, enough, -⟩ := root' inner member
      exact not_takesBefore_right known (spelled inner (.inr ⟨c, d, form⟩)) enough
    · rw [Operation.fold, folded, folded']
      rfl
    · rintro inner ⟨⟩
      exact ⟨a, b, rfl⟩
    · rw [all_append, all_append, all_append, all_append, legible.legal_operandText, legible'.legal_operandText,
        legal_symbol known]
      rfl

theorem readsBack_unary {op : UnaryOp} (known : op.isKnown) (operand : ReadsBack e) : ReadsBack (.node () (.unary op e)) := by
  obtain ⟨t, rendered, legible⟩ := operand
  have symbol : op.symbol.all isLegal := by
    cases op with
    | other s => cases known
    | _ => decide
  have text : (Tree.node () (.unary op e)).renderExpression = Render.unary op (e, e.rendered) := Tree.renderExpression_node _ _
  have weak : Strength.unary < Strength.access := by decide
  rw [Render.unary, within_shown rendered] at text
  by_cases word : op.isWord = true
  · refine ⟨op.symbol ++ " " ++ shown Strength.unary e t, ?_, .of_operand (isOperand_word known word legible.shown_operand) ?_ weak rfl⟩
    · rw [text]
      exact if_pos word
    · rw [all_append, all_append, symbol, legible.legal_shown]
      rfl
  · have sign : op.isWord = false := Bool.eq_false_iff.mpr word
    rw [show (Except.ok (shown Strength.unary e t) >>= _ : Outcome Text) = _ from if_neg word] at text
    have single : op = .minus ∨ op = .plus → Text.startsWith (Render.parenthesised t) op.symbol = false := by
      rintro (rfl | rfl) <;> rfl
    by_cases twice : (op = .minus ∨ op = .plus) ∧ (shown Strength.unary e t).startsWith op.symbol
    · have whole : shown Strength.unary e t = t := by
        refine if_neg fun lacking => ?_
        rw [shown, if_pos lacking, single twice.1] at twice
        cases twice.2
      have enclosed : Piece.IsOperand ⟨e, Render.parenthesised t⟩ := IsAccess.isOperand legible.parenthesised
      refine ⟨op.symbol ++ Render.parenthesised t, ?_, .of_operand (isOperand_sign known sign enclosed single) ?_ weak rfl⟩
      · rw [text, if_pos twice, whole]
        rfl
      · rw [all_append, symbol, legible.legal_parenthesised]
        rfl
    · have once : op = .minus ∨ op = .plus → (shown Strength.unary e t).startsWith op.symbol = false :=
        fun either => Bool.eq_false_iff.mpr fun starts => twice ⟨either, starts⟩
      refine ⟨op.symbol ++ shown Strength.unary e t, ?_, .of_operand (isOperand_sign known sign legible.shown_operand once) ?_ weak rfl⟩
      · rw [text, if_neg twice]
        rfl
      · rw [all_append, symbol, legible.legal_shown]
        rfl

theorem append_branches (t : Text) {y z : Piece} : t ++ branches y z = t ++ " ? " ++ y.text ++ " : " ++ z.text := by
  rw [append_assoc, append_assoc, append_assoc]
  rfl

theorem readsBack_conditional (test : ReadsBack e) (consequent : ReadsBack a) (alternate : ReadsBack b) :
    ReadsBack (.node () (.conditional e a b)) := by
  obtain ⟨t, rendered, legible⟩ := test
  obtain ⟨u, renderedA, legibleA⟩ := consequent
  obtain ⟨v, renderedB, legibleB⟩ := alternate
  refine ⟨shown (Strength.conditional + 1) e t ++ branches ⟨a, shown Strength.assignment a u⟩ ⟨b, shown Strength.assignment b v⟩, ?_,
    .of_item (isItem_conditional legible.shown_operation legibleA.shown_item legibleB.shown_item) ?_ le_rfl rfl⟩
  · rw [Tree.renderExpression_node, Form.map, Render.expression, within_shown rendered, within_shown renderedA, within_shown renderedB,
      append_branches]
    rfl
  · have signs : ∀ s ∈ ([" ", "?", ":"] : List Text), s.all isLegal := by decide
    simp [branches, all_append, legible.legal_shown, legibleA.legal_shown, legibleB.legal_shown, signs]

theorem readsBack_assign {op : Text} (member : op ∈ assignments) (place : e.form.isPlace) (target : ReadsBack e) (value : ReadsBack a) :
    ReadsBack (.node () (.assign e op a)) := by
  obtain ⟨t, rendered, legible⟩ := target
  obtain ⟨u, renderedA, legibleA⟩ := value
  have legal : ∀ op ∈ assignments, op.all isLegal := by decide
  have whole : shown Strength.access e t = t := by
    refine if_neg ?_
    obtain ⟨m, f⟩ := e
    cases f with
    | identifier _ => exact of_decide_eq_false rfl
    | member _ _ | index _ _ => exact lt_irrefl _
    | _ => cases place
  refine ⟨t ++ " " ++ op ++ " " ++ shown Strength.assignment a u, ?_,
    .of_item (isItem_assign (legible.place place) member legibleA.shown_item) ?_ (Nat.le_succ _) rfl⟩
  · rw [Tree.renderExpression_node, Form.map, Render.expression, within_shown rendered, within_shown renderedA, whole]
    rfl
  · rw [all_append, all_append, all_append, all_append, legible.legal, legibleA.legal_shown, legal op member]
    rfl

theorem readsBack_sequence (several : 2 ≤ es.length) (each : ∀ e ∈ es, ReadsBack e) : ReadsBack (.node () (.sequence es)) := by
  obtain ⟨xs, rfl, items, legal, text⟩ := listed_shown each
  refine ⟨listing xs, ?_, ?_⟩
  · rw [Tree.renderExpression_node, Form.map, Render.expression, text]
  · obtain _ | ⟨x, _ | ⟨y, xs⟩⟩ := xs
    · cases several
    · cases Nat.le_of_succ_le_succ several
    exact {
      firm := isFirm_listing (items x (.head _)).firm _
      legal := legal
      place := by rintro ⟨⟩
      access := fun strong => absurd (show Strength.access ≤ Strength.sequence from strong) (by decide)
      operand := fun strong => absurd (show Strength.unary ≤ Strength.sequence from strong) (by decide)
      operation := fun strong => absurd (show Strength.conditional < Strength.sequence from strong) (by decide)
      item := fun strong => absurd (show Strength.assignment ≤ Strength.sequence from strong) (by decide)
      all := readsAll_sequence items }

/-- Every clear formula is read back from its text. -/
theorem readsBack (formula : e.IsFormula) (spelled : e.IsSpelled) (clear : e.IsClear) : ReadsBack e := by
  induction e using Tree.layers with
  | node m f ih =>
    have formulaHere : f.isFormula := formula _ (self_mem_walk _)
    have spelledHere : f.IsSpelled := spelled _ (self_mem_walk _)
    obtain ⟨choice, awaits⟩ := clear _ (self_mem_walk _)
    have back : ∀ c ∈ f.children, ReadsBack c := fun c child =>
      ih c child (fun n hn => formula n (mem_walk_of_child m child hn)) (fun n hn => spelled n (mem_walk_of_child m child hn))
        fun n hn => clear n (mem_walk_of_child m child hn)
    have formulaBelow : ∀ c ∈ f.children, c.form.isFormula := fun c child =>
      formula c (mem_walk_of_child m child (self_mem_walk c))
    have spelledBelow : ∀ c ∈ f.children, c.form.IsSpelled := fun c child =>
      spelled c (mem_walk_of_child m child (self_mem_walk c))
    cases f with
    | identifier w =>
      obtain ⟨word, name, yields, legal⟩ := spelledHere
      exact readsBack_identifier word name yields (of_decide_eq_false awaits) legal
    | array es => exact readsBack_array back
    | call c es =>
      obtain ⟨callee, each⟩ := forall_mem_cons.mp back
      exact readsBack_call (formulaBelow c (.head _)) callee each
    | member o w => exact readsBack_member (formulaBelow o (.head _)) (back o (.head _)) spelledHere.1 spelledHere.2
    | index o k =>
      obtain ⟨object, key⟩ := forall_mem_cons.mp back
      exact readsBack_index (formulaBelow o (.head _)) object (key k (.head _))
    | binary op a b =>
      obtain ⟨left, right⟩ := forall_mem_cons.mp back
      refine readsBack_binary spelledHere left (right b (.head _)) ?_ choice
      rintro inner (⟨c, d, form⟩ | ⟨c, d, form⟩)
      · have known := spelledBelow a (.head _)
        rwa [form] at known
      · have known := spelledBelow b (.tail a (.head _))
        rwa [form] at known
    | unary op a => exact readsBack_unary spelledHere (back a (.head _))
    | conditional t a b =>
      obtain ⟨test, branches⟩ := forall_mem_cons.mp back
      obtain ⟨consequent, alternate⟩ := forall_mem_cons.mp branches
      exact readsBack_conditional test consequent (alternate b (.head _))
    | assign t op a =>
      obtain ⟨target, value⟩ := forall_mem_cons.mp back
      exact readsBack_assign spelledHere.1 spelledHere.2 target (value a (.head _))
    | sequence es => exact readsBack_sequence spelledHere back
    | _ => cases formulaHere

end Forms

end Grammar

end Unravel
