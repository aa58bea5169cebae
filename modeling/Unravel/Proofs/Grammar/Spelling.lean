import Unravel.Proofs.Grammar.Formula
import Unravel.Proofs.Grammar.Keys

/-! Trees whose names, operators, numbers and keys are such as can be read from a text, and the phrases that stand for them. Each
   construct keeps this if its parts have it. -/
namespace Unravel

open List

section Surrogates

variable {t : Text}

theorem isUnpaired_of_legal (legal : t.all isLegal) : t.IsUnpaired := by
  induction t with
  | nil => exact .nil
  | cons c t ih =>
    rw [all_cons, Bool.and_eq_true] at legal
    refine isChain_cons.mpr ⟨fun d _ pair => ?_, ih legal.2⟩
    simp [isLegal, CodePoint.isSurrogate, pair.1] at legal

theorem head?_joinSurrogates (d : CodePoint) (t : Text) : ∀ c ∈ (Text.joinSurrogates (d :: t)).head?, c = d ∨ 0x10000 ≤ c.toNat := by
  cases t with
  | nil =>
    rintro c ⟨⟩
    exact .inl rfl
  | cons e t =>
    intro c first
    rw [Text.joinSurrogates] at first
    split at first
    next =>
      rw [head?_cons, Option.mem_some_iff] at first
      rw [← first]
      dsimp only
      omega
    next => exact .inl (Option.some.inj first).symm

theorem isUnpaired_joinSurrogates (t : Text) : (Text.joinSurrogates t).IsUnpaired := by
  fun_induction Text.joinSurrogates t with
  | case1 high low rest pair ih =>
    refine isChain_cons.mpr ⟨fun d _ both => ?_, ih⟩
    have high := Text.isHighSurrogate_iff.mp both.1
    dsimp only at high
    omega
  | case2 c d rest apart ih =>
    refine isChain_cons.mpr ⟨fun e first both => ?_, ih⟩
    rcases head?_joinSurrogates d rest e first with rfl | large
    · exact apart both
    · have low := Text.isLowSurrogate_iff.mp both.2
      omega
  | case3 t short =>
    cases t with
    | nil => exact .nil
    | cons c rest =>
      cases rest with
      | nil => exact .singleton c
      | cons d rest => exact absurd rfl (short c d rest)

end Surrogates

open Grammar

namespace Tree

variable {α : Type} {m : α} {f : Form (Tree α)}

theorem isFormula_node : (node m f).IsFormula ↔ f.isFormula ∧ ∀ c ∈ f.children, c.IsFormula := by
  simp only [IsFormula, walk_node, forall_mem_cons, mem_flatMap, form_node]
  refine and_congr_right fun _ => ⟨fun h c hc n hn => h n ⟨c, hc, hn⟩, ?_⟩
  rintro h n ⟨c, hc, hn⟩
  exact h c hc n hn

theorem isSpelled_node : (node m f).IsSpelled ↔ f.IsSpelled ∧ ∀ c ∈ f.children, c.IsSpelled := by
  simp only [IsSpelled, walk_node, forall_mem_cons, mem_flatMap, form_node]
  refine and_congr_right fun _ => ⟨fun h c hc n hn => h n ⟨c, hc, hn⟩, ?_⟩
  rintro h n ⟨c, hc, hn⟩
  exact h c hc n hn

end Tree

/-- Names are words, and numbers are not negative. -/
def Form.IsLeaf : Form Shape → Prop
  | identifier w => Grammar.IsWord w ∧ Grammar.isName w ∧ w.all isLegal
  | number x => x.isNegative = false
  | _ => True

/-- The names, numbers and keys at the top of a tree are such as can be read. -/
def Form.IsWritten : Form Shape → Prop
  | member holder w => holder.form.IsLeaf ∧ Grammar.IsWord w ∧ w.all isLegal
  | object properties => ∀ q ∈ properties, ∀ k v, q.form = .property k v → k.IsUnpaired ∧ v.form.IsLeaf
  | f => f.IsLeaf

theorem Form.IsWritten.isLeaf {f : Form Shape} (h : f.IsWritten) : f.IsLeaf := by
  cases f with
  | identifier w => exact h
  | number x => exact h
  | _ => trivial

namespace Grammar

open Outcome

/-- What a phrase stands for, if anything, is such as can be read; if it is a formula, then all of it is, and what serves as a name
or an access is one. -/
def Phrase.IsWritten (p : Phrase) : Prop := p.lowered.Gives fun e =>
  e.form.IsWritten ∧ (e.IsFormula → e.IsSpelled ∧ (p.role = .name ∨ p.role = .access → e.form.isPlace))

/-- A phrase stands for a construct of some kind, whose parts other phrases stand for. -/
def Phrase.IsMadeOf (p : Phrase) (parts : List Phrase) (K : Form Shape → Prop) : Prop :=
  ∀ e, p.lowered = .ok e → ∃ f, e = .node () f ∧ K f ∧ List.Forall₂ (fun q c => q.lowered = .ok c) parts f.children

namespace Phrase

variable {p q r : Phrase} {parts : List Phrase} {K : Form Shape → Prop}

theorem IsMadeOf.isWritten (made : p.IsMadeOf parts K) (written : ∀ q ∈ parts, q.IsWritten)
    (kind : ∀ f, K f → f.IsWritten ∧ ((∀ c ∈ f.children, c.IsFormula) → f.IsSpelled ∧
      (p.role = .name ∨ p.role = .access → f.isPlace))) : p.IsWritten := by
  intro e lowered
  obtain ⟨f, rfl, here, each⟩ := made e lowered
  refine ⟨(kind f here).1, fun formula => ?_⟩
  have formulas := (Tree.isFormula_node.mp formula).2
  obtain ⟨spelled, place⟩ := (kind f here).2 formulas
  refine ⟨Tree.isSpelled_node.mpr ⟨spelled, fun c child => ?_⟩, place⟩
  obtain ⟨q, member, same⟩ := exists_left_of_mem each child
  exact ((written q member c same).2 (formulas c child)).1

theorem IsMadeOf.isWritten_value (made : p.IsMadeOf parts K) (written : ∀ q ∈ parts, q.IsWritten)
    (kind : ∀ f, K f → f.IsWritten ∧ ((∀ c ∈ f.children, c.IsFormula) → f.IsSpelled)) (value : p.role ≠ .name ∧ p.role ≠ .access) :
    p.IsWritten :=
  made.isWritten written fun f here =>
    ⟨(kind f here).1, fun formulas => ⟨(kind f here).2 formulas, fun role => absurd role (not_or.mpr value)⟩⟩

theorem isWritten_of_other (h : p.lowered.Gives fun e => e.form.IsWritten ∧ e.form.isFormula = false) : p.IsWritten := by
  intro e lowered
  obtain ⟨written, other⟩ := h e lowered
  refine ⟨written, fun formula => ?_⟩
  rw [formula e e.self_mem_walk] at other
  cases other

theorem isMadeOf_member (p : Phrase) (isOptional : Bool) (property : Token) (place : Position) :
    (Phrase.member p isOptional property place).IsMadeOf [p] fun f =>
      ∃ t w, p.lowered = .ok t ∧ property = .word w ∧ f = .member t w := by
  intro e h
  cases isOptional with
  | true => cases h
  | false =>
    cases property with
    | word w =>
      obtain ⟨t, object, h⟩ := bind_eq_ok.mp h
      cases h
      exact ⟨_, rfl, ⟨t, w, object, rfl, rfl⟩, .cons object .nil⟩
    | _ => cases h

theorem isMadeOf_index (p q : Phrase) (isOptional : Bool) :
    (Phrase.index p isOptional q).IsMadeOf [p, q] fun f => ∃ t k, f = .index t k := by
  intro e h
  cases isOptional with
  | true => cases h
  | false =>
    obtain ⟨t, object, h⟩ := bind_eq_ok.mp h
    obtain ⟨k, key, h⟩ := bind_eq_ok.mp h
    cases h
    exact ⟨_, rfl, ⟨t, k, rfl⟩, .cons object (.cons key .nil)⟩

theorem isMadeOf_unary (op : UnaryOp) (start : Position) (p : Phrase) :
    (Phrase.unary op start p).IsMadeOf [p] fun f => ∃ t, f = .unary op t := by
  intro e h
  obtain ⟨t, operand, h⟩ := bind_eq_ok.mp h
  cases h
  exact ⟨_, rfl, ⟨t, rfl⟩, .cons operand .nil⟩

theorem isMadeOf_binary (p : Phrase) (op : BinaryOp) (q : Phrase) :
    (Phrase.binary p op q).IsMadeOf [p, q] fun f => ∃ a b, f = .binary op a b := by
  intro e h
  obtain ⟨a, left, h⟩ := bind_eq_ok.mp h
  obtain ⟨b, right, h⟩ := bind_eq_ok.mp h
  cases h
  exact ⟨_, rfl, ⟨a, b, rfl⟩, .cons left (.cons right .nil)⟩

theorem isMadeOf_conditional (p q r : Phrase) :
    (Phrase.conditional p q r).IsMadeOf [p, q, r] fun f => ∃ t a b, f = .conditional t a b := by
  intro e h
  obtain ⟨t, test, h⟩ := bind_eq_ok.mp h
  obtain ⟨a, consequent, h⟩ := bind_eq_ok.mp h
  obtain ⟨b, alternate, h⟩ := bind_eq_ok.mp h
  cases h
  exact ⟨_, rfl, ⟨t, a, b, rfl⟩, .cons test (.cons consequent (.cons alternate .nil))⟩

theorem isMadeOf_assign (p : Phrase) (op : Text) (q : Phrase) :
    (Phrase.assign p op q).IsMadeOf [p, q] fun f =>
      (p.role = .name ∨ p.role = .access) ∧ ∃ t v, p.lowered = .ok t ∧ f = .assign t op v := by
  intro e h
  have plain (role : p.role = .name ∨ p.role = .access) (h : (do
      let t ← p.lowered
      return Tree.node () (.assign t op (← q.lowered)) : Outcome Shape) = .ok e) :
      ∃ f, e = .node () f ∧ ((p.role = .name ∨ p.role = .access) ∧ ∃ t v, p.lowered = .ok t ∧ f = .assign t op v) ∧
        List.Forall₂ (fun q c => q.lowered = .ok c) [p, q] f.children := by
    obtain ⟨t, target, h⟩ := bind_eq_ok.mp h
    obtain ⟨v, value, h⟩ := bind_eq_ok.mp h
    cases h
    exact ⟨_, rfl, ⟨role, t, v, target, rfl⟩, .cons target (.cons value .nil)⟩
  rw [Phrase.assign] at h
  dsimp only at h
  split at h
  next role => exact plain (.inl role) h
  next role => exact plain (.inr role) h
  next => cases h

theorem isMadeOf_sequence (p : Phrase) {ps : List Phrase} (several : ps ≠ []) :
    (Phrase.sequence p ps).IsMadeOf (p :: ps) fun f => ∃ es, f = .sequence es ∧ 2 ≤ es.length := by
  intro e h
  rw [Phrase.sequence, if_neg (by simpa using several)] at h
  obtain ⟨es, lowered, h⟩ := bind_eq_ok.mp h
  cases h
  have each := forall₂_of_mapM lowered
  refine ⟨_, rfl, ⟨es, rfl, ?_⟩, each⟩
  rw [← each.length_eq, length_cons]
  exact Nat.succ_le_succ (length_pos_iff.mpr several)

end Phrase

theorem Element.forall₂_of_lowered {what : Text} {elements : List Element} {es : List Shape} (h : lowered what elements = .ok es) :
    List.Forall₂ (fun q c => q.lowered = .ok c) (elements.filterMap phrase?) es := by
  induction elements generalizing es with
  | nil =>
    cases h
    exact .nil
  | cons element elements ih =>
    cases element with
    | comma => exact ih h
    | spread start p => cases h
    | item p =>
      obtain ⟨e, first, h⟩ := bind_eq_ok.mp h
      obtain ⟨rest, others, h⟩ := bind_eq_ok.mp h
      cases h
      exact .cons first (ih others)

namespace Phrase

theorem isMadeOf_array (start : Position) (elements : List Element) (commented : Bool) :
    (Phrase.array start elements commented).IsMadeOf (elements.filterMap Element.phrase?) fun f => ∃ es, f = .array es := by
  intro e h
  rw [Phrase.array] at h
  dsimp only at h
  split at h
  next => cases h
  next =>
    obtain ⟨es, lowered, h⟩ := bind_eq_ok.mp h
    cases h
    exact ⟨_, rfl, ⟨es, rfl⟩, Element.forall₂_of_lowered lowered⟩

theorem isMadeOf_call (p : Phrase) (isOptional : Bool) (arguments : List Element) :
    (Phrase.call p isOptional arguments).IsMadeOf (p :: arguments.filterMap Element.phrase?) fun f => ∃ t es, f = .call t es := by
  intro e h
  cases isOptional with
  | true => cases h
  | false =>
    obtain ⟨es, lowered, h⟩ := bind_eq_ok.mp h
    obtain ⟨t, callee, h⟩ := bind_eq_ok.mp h
    cases h
    exact ⟨_, rfl, ⟨t, es, rfl⟩, .cons callee (Element.forall₂_of_lowered lowered)⟩

end Phrase

/-- The words and numbers of a legal text. -/
def Token.IsWritten : Token → Prop
  | .word w => IsWord w ∧ w.all isLegal
  | .number u => u.all isLegal ∧ ∀ x, Literal.number u = .ok x → x.isNegative = false
  | _ => True

def Member.IsWritten (m : Member) : Prop := m.lowered.Gives fun e => ∀ k v, e.form = .property k v → k.IsUnpaired ∧ v.form.IsLeaf

section Written

variable {p q r : Phrase} {token : Token} {w : Text}

theorem isWritten_name (word : IsWord w) (name : isName w) (yields : w ≠ "yield") (legal : w.all isLegal)
    (start : Position) : (Phrase.name w start).IsWritten := by
  refine gives_ok ⟨⟨word, name, legal⟩, fun _ => ⟨Tree.isSpelled_node.mpr ⟨⟨word, name, yields, legal⟩, forall_mem_nil _⟩, fun role => ?_⟩⟩
  refine bne_iff_ne.mpr ?_
  rintro rfl
  rcases role with role | role <;> cases role

theorem isWritten_parenthesised (h : p.IsWritten) (start : Position) : (Phrase.parenthesised start p).IsWritten := by
  intro e lowered
  obtain ⟨written, formula⟩ := h e lowered
  refine ⟨written, fun all => ⟨(formula all).1, fun role => ?_⟩⟩
  rcases role with role | role <;> cases role

theorem isWritten_number (h : (Token.number w).IsWritten) (start : Position) : (Phrase.number w start).IsWritten := by
  refine Phrase.isWritten_of_other fun e lowered => ?_
  obtain ⟨x, value, lowered⟩ := bind_eq_ok.mp lowered
  cases lowered
  exact ⟨h.2 x value, rfl⟩

theorem isWritten_member (h : p.IsWritten) (written : token.IsWritten) (isOptional : Bool) (place : Position) :
    (Phrase.member p isOptional token place).IsWritten := by
  refine (Phrase.isMadeOf_member p isOptional token place).isWritten (forall_mem_singleton.mpr h) ?_
  rintro f ⟨o, w, object, rfl, rfl⟩
  exact ⟨⟨(h o object).1.isLeaf, written⟩, fun _ => ⟨written, fun _ => rfl⟩⟩

theorem isWritten_index (h : p.IsWritten) (hk : q.IsWritten) (isOptional : Bool) : (Phrase.index p isOptional q).IsWritten := by
  refine (Phrase.isMadeOf_index p q isOptional).isWritten (forall_mem_cons.mpr ⟨h, forall_mem_singleton.mpr hk⟩) ?_
  rintro f ⟨t, k, rfl⟩
  exact ⟨trivial, fun _ => ⟨trivial, fun _ => rfl⟩⟩

theorem isWritten_unary {op : UnaryOp} (known : op.isKnown) (h : p.IsWritten) (start : Position) :
    (Phrase.unary op start p).IsWritten := by
  refine (Phrase.isMadeOf_unary op start p).isWritten_value (forall_mem_singleton.mpr h) ?_ ⟨by rintro ⟨⟩, by rintro ⟨⟩⟩
  rintro f ⟨t, rfl⟩
  exact ⟨trivial, fun _ => known⟩

theorem isWritten_binary {op : BinaryOp} (known : op.isKnown) (hp : p.IsWritten) (hq : q.IsWritten) : (Phrase.binary p op q).IsWritten := by
  have both := forall_mem_cons.mpr ⟨hp, forall_mem_singleton.mpr hq⟩
  refine (Phrase.isMadeOf_binary p op q).isWritten_value both ?_ ⟨by rintro ⟨⟩, by rintro ⟨⟩⟩
  rintro f ⟨a, b, rfl⟩
  exact ⟨trivial, fun _ => known⟩

theorem isWritten_conditional (hp : p.IsWritten) (hq : q.IsWritten) (hr : r.IsWritten) : (Phrase.conditional p q r).IsWritten := by
  have all := forall_mem_cons.mpr ⟨hp, forall_mem_cons.mpr ⟨hq, forall_mem_singleton.mpr hr⟩⟩
  refine (Phrase.isMadeOf_conditional p q r).isWritten_value all ?_ ⟨by rintro ⟨⟩, by rintro ⟨⟩⟩
  rintro f ⟨t, a, b, rfl⟩
  exact ⟨trivial, fun _ => trivial⟩

theorem isWritten_assign {op : Text} (member : op ∈ assignments) (hp : p.IsWritten) (hq : q.IsWritten) : (Phrase.assign p op q).IsWritten := by
  have both := forall_mem_cons.mpr ⟨hp, forall_mem_singleton.mpr hq⟩
  refine (Phrase.isMadeOf_assign p op q).isWritten_value both ?_ ⟨by rintro ⟨⟩, by rintro ⟨⟩⟩
  rintro f ⟨role, t, v, lowered, rfl⟩
  exact ⟨trivial, fun formulas => ⟨member, ((hp t lowered).2 (formulas t (.head _))).2 role⟩⟩

theorem isWritten_sequence {ps : List Phrase} (h : ∀ q ∈ p :: ps, q.IsWritten) : (Phrase.sequence p ps).IsWritten := by
  by_cases single : ps = []
  · cases single
    exact h p (.head _)
  · refine (Phrase.isMadeOf_sequence p single).isWritten_value h ?_ ?_
    · rintro f ⟨es, rfl, several⟩
      exact ⟨trivial, fun _ => several⟩
    · rw [Phrase.sequence, if_neg (by simpa using single)]
      exact ⟨by rintro ⟨⟩, by rintro ⟨⟩⟩

theorem isWritten_array {elements : List Element} (h : ∀ q ∈ elements.filterMap Element.phrase?, q.IsWritten) (start : Position)
    (commented : Bool) : (Phrase.array start elements commented).IsWritten := by
  refine (Phrase.isMadeOf_array start elements commented).isWritten_value h ?_ ⟨by rintro ⟨⟩, by rintro ⟨⟩⟩
  rintro f ⟨es, rfl⟩
  exact ⟨trivial, fun _ => trivial⟩

theorem isWritten_call {arguments : List Element} (hp : p.IsWritten) (h : ∀ q ∈ arguments.filterMap Element.phrase?, q.IsWritten)
    (isOptional : Bool) : (Phrase.call p isOptional arguments).IsWritten := by
  have all := forall_mem_cons.mpr ⟨hp, h⟩
  refine (Phrase.isMadeOf_call p isOptional arguments).isWritten_value all ?_ ⟨by rintro ⟨⟩, by rintro ⟨⟩⟩
  rintro f ⟨t, es, rfl⟩
  exact ⟨trivial, fun _ => trivial⟩

theorem isUnpaired_string (u : Text) : (Literal.string u).Gives Text.IsUnpaired := by
  unfold Literal.string
  split
  next quote body =>
    split
    · exact gives_after fun decoded => gives_pure (isUnpaired_joinSurrogates decoded)
    · exact gives_throw _
  next => exact gives_throw _

theorem Token.IsWritten.key (h : token.IsWritten) (start : Position) : (Member.keyText token start).Gives Text.IsUnpaired := by
  intro k read
  cases token with
  | word w =>
    cases read
    exact isUnpaired_of_legal h.2
  | number u =>
    cases read
    exact isUnpaired_of_legal h.1
  | string u => exact isUnpaired_string u k read
  | _ => cases read

theorem isWritten_property {k : Text} {v : Shape} (key : k.IsUnpaired) (value : v.form.IsLeaf) :
    ∀ k' v', (Tree.node () (.property k v) : Shape).form = .property k' v' → k'.IsUnpaired ∧ v'.form.IsLeaf := by
  rintro _ _ ⟨⟩
  exact ⟨key, value⟩

theorem isWritten_pair (written : token.IsWritten) (h : p.IsWritten) (start : Position) : (Member.pair token start p).IsWritten := by
  intro e lowered
  obtain ⟨k, read, lowered⟩ := bind_eq_ok.mp lowered
  obtain ⟨v, same, lowered⟩ := bind_eq_ok.mp lowered
  cases lowered
  exact isWritten_property (written.key start k read) (h v same).1.isLeaf

theorem isWritten_object {ms : List Member} (h : ∀ m ∈ ms, m.IsWritten) (start : Position) : (Phrase.object start ms).IsWritten := by
  refine Phrase.isWritten_of_other fun e lowered => ?_
  obtain ⟨es, each, same⟩ := bind_eq_ok.mp lowered
  cases same
  refine ⟨fun q member => ?_, rfl⟩
  obtain ⟨m, part, same⟩ := exists_left_of_mem (forall₂_of_mapM each) member
  exact h m part q same

end Written

end Grammar

end Unravel
