import Unravel.Proofs.Alias.Capture
import Unravel.Proofs.Fold.Faults
import Unravel.Proofs.Fold.Result
import Unravel.Proofs.Members.Normal
import Unravel.Proofs.Pool.Dangling

/-! The passes take functions to functions: what a pass puts into a place is what the place is made for, so that the tree
   can be printed after each of them. -/
namespace Unravel

open Outcome

theorem Role.admits_expression {ρ σ : Type} {role : Role} {f : Form ρ} {g : Form σ} (other : role ≠ .name)
    (admitted : role.admits f) (old : f.isExpression) (new : g.isExpression) : role.admits g := by
  cases role with
  | name => exact absurd rfl other
  | target | expression => exact new
  | start => simp [admits, new]
  | property => cases f <;> simp_all [admits, Form.isProperty, Form.isExpression]
  | declarator => cases f <;> simp_all [admits, Form.isDeclarator, Form.isExpression]
  | statement => cases f <;> simp_all [admits, Form.isStatement, Form.isExpression]

namespace Normalised

theorem admits_dotted {role : Role} {t : Node} (h : role.admits t.form) : role.admits (dotted t).form := by
  obtain ⟨m, f⟩ := t
  rw [dotted_node]
  rcases spell_cases m (f.map dotted) with same | ⟨object, key, name, index, -, same⟩
  · rw [same, form_node, Role.admits_map]
    exact h
  · have old : role.admits (f.map dotted) := by
      rw [Role.admits_map]
      exact h
    rw [index] at old
    rw [same]
    cases role <;> exact old

theorem grammatical_dotted {t : Node} (h : t.Grammatical) : (dotted t).Grammatical := by
  induction t with
  | node m f ih =>
    have below : ∀ p ∈ (f.map dotted).places, p.role.admits p.tree.form := by
      intro p hp
      rw [Form.places_map] at hp
      obtain ⟨q, hq, rfl⟩ := List.mem_map.mp hp
      exact admits_dotted ((grammatical_node.mp h).1 q hq)
    have children : ∀ c ∈ (f.map dotted).children, c.Grammatical := by
      intro c hc
      rw [children_map] at hc
      obtain ⟨d, hd, rfl⟩ := List.mem_map.mp hc
      exact ih d hd (h.child hd)
    rw [dotted_node]
    rcases spell_cases m (f.map dotted) with same | ⟨object, key, name, index, -, same⟩
    · rw [same]
      exact grammatical_node.mpr ⟨below, children⟩
    · rw [index] at below children
      rw [same]
      refine grammatical_node.mpr ⟨?_, ?_⟩
      · intro p hp
        cases List.mem_singleton.mp hp
        exact below _ (.head _)
      · intro c hc
        cases List.mem_singleton.mp hc
        exact children _ (.head _)

end Normalised

namespace Node

variable {root : Node} {ns : Namespace}

theorem IsFunctionTree.eliminateAliases (tree : root.IsFunctionTree) : root.eliminateAliases.root.IsFunctionTree :=
  ((Alias.Reduced.refl tree).run _ _).tree

theorem IsFunctionTree.recoverStrings (tree : root.IsFunctionTree) {v : Recovery}
    (h : root.recoverStrings ns = .ok (some v)) : v.root.IsFunctionTree := by
  obtain ⟨p, search, calls, result⟩ := Recovery.recoverStrings_eq_some h
  have pieces := (Pattern.isFound_of_find search).pieces_replaced tree calls
  have less := (Recovery.withoutAccessor_preserved pieces).1
  have least := (Recovery.withoutPool_preserved less (Recovery.withoutAccessor_isPiece (p := p) pieces.pool)).1
  rw [Recovery.removePieces_eq, Prod.mk.injEq] at result
  rw [result.1]
  exact least

theorem IsFunctionTree.normaliseMembers (tree : root.IsFunctionTree) : root.normaliseMembers.node.IsFunctionTree := by
  have distinct := tree.distinct.normaliseMembers
  obtain ⟨m, params, body, name, isArrow, rfl⟩ := tree.exists_node
  rw [node_normaliseMembers] at distinct ⊢
  refine ⟨⟨_, _, _, _, rfl⟩, distinct, ?_⟩
  have whole := Normalised.grammatical_dotted tree.grammatical
  rwa [Normalised.dotted_node] at whole

/-- What folding the result of a function does: the returned expression is exchanged for a term with identities of its
own, which is what the expression folds to. -/
structure IsFolded (ns : Namespace) (root e : Node) (folded : FoldedFunction) : Prop where
  result : resultExpression root = .ok e
  function : folded.function = substitute (exchange e folded.result) root
  distinct : folded.result.Distinct
  apart : ∀ x ∈ folded.result.ids, x ∉ root.ids
  expression : folded.result.form.isExpression
  grammatical : folded.result.Grammatical
  folds : (Folder.symbolic ns root).fold e = .ok folded.result.shape

theorem exists_isFolded {folded : FoldedFunction} (h : root.foldResult ns = .ok folded) : ∃ e, IsFolded ns root e folded := by
  obtain ⟨e, result, h⟩ := bind_eq_ok.mp h
  obtain ⟨s, done, h⟩ := bind_eq_ok.mp h
  cases h
  obtain ⟨folds, -⟩ := foldedResult_eq_ok done
  have term := Folder.isTerm_of_fold folds
  have shape : (s.numberFrom (nextId root)).shape = s := (Tree.shape_numberFrom s (nextId root)).trans s.shape_self
  have expression : Role.expression.admits (s.numberFrom (nextId root)).shape.form := by
    rw [shape]
    exact term.expression
  rw [Tree.form_shape, Role.admits_map] at expression
  exact ⟨e, {
    result := result
    function := rfl
    distinct := Tree.distinct_numberFrom s (nextId root)
    apart := fun x hx old => absurd (lt_nextId old) (Nat.not_lt.mpr (Tree.le_of_mem_numberFrom hx))
    expression := expression
    grammatical := Tree.grammatical_shape (shape.symm ▸ term.grammatical)
    folds := folds.trans (congrArg Except.ok shape.symm) }⟩

theorem IsFolded.tree {e : Node} {folded : FoldedFunction} (h : IsFolded ns root e folded) (tree : root.IsFunctionTree) :
    folded.function.IsFunctionTree := by
  have returned := returned_of_resultExpression h.result
  have replaced := (sight_of_returned tree returned).1
  have neutral := exchange_neutral tree returned h.expression
  rw [h.function]
  refine tree.substitute (exchange_root tree returned) (.single tree.distinct h.distinct h.apart e.mark) ?_ ?_
  · intro k hk r exchanged
    rw [(exchange_eq_some tree.distinct returned.mem_walk hk exchanged).2]
    exact h.grammatical
  · intro n hn p hp r exchanged
    have inside := walk_trans hn (child_mem_walk (place_mem_children hp))
    obtain ⟨same, rfl⟩ := exchange_eq_some tree.distinct returned.mem_walk inside exchanged
    have other : p.role ≠ .name := by
      intro role
      have kept := neutral.names n hn p hp role
      rw [exchanged] at kept
      cases kept
    have admitted := tree.grammatical n hn p hp
    rw [same] at admitted
    exact Role.admits_expression other admitted replaced h.expression

end Node

end Unravel
