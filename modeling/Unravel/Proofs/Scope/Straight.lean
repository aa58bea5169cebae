import Unravel.Proofs.Scope.Lookup
import Unravel.Proofs.Syntax.Outline

/-! Functions whose body is a row of expressions and returns. They declare nothing but their parameters and their own
   name, so that whatever stands in such a function outside of other functions can refer to nothing else in the tree. -/
namespace Unravel

open Resolution Pattern List

namespace Form

variable {ρ : Type}

def isStep : Form ρ → Bool
  | expressionStatement _ | returnStatement _ => true
  | _ => false

/-- Constructs that declare nothing around them and open no scope, functions apart. -/
def isQuiet (f : Form ρ) : Bool := f.isExpression || f.isProperty || f.isStep

theorem quiet_place {f : Form ρ} (quiet : f.isQuiet) (plain : Pattern.isFunction f = false) {p : Place ρ} (hp : p ∈ f.places) :
    p.isInner = false ∧ (p.role = .expression ∨ p.role = .target ∨ p.role = .property) := by
  cases f <;> simp [isQuiet, isExpression, isProperty, isStatement, isStep, Pattern.isFunction] at quiet plain <;>
    simp [places, Place.free, Place.fixed] at hp <;> grind

theorem isQuiet_of_admits {σ : Type} {role : Role} (h : role = .expression ∨ role = .target ∨ role = .property)
    {f : Form σ} (admitted : role.admits f) : f.isQuiet := by
  rcases h with rfl | rfl | rfl <;> simp_all [Role.admits, isQuiet]

end Form

namespace Node

theorem statements_surface (root : Node) : Tree.statements (surface root) = (Tree.statements root).map outline := by
  obtain ⟨m, f⟩ := root
  cases f <;> rfl

/-- A function that only evaluates expressions and returns. -/
def IsStraight (root : Node) : Prop := ∀ s ∈ Tree.statements root, s.form.isStep

theorem own_sight {t : Node} (grammatical : t.Grammatical) (quiet : t.form.isQuiet) (isWrite : Bool) (frames : List Frame)
    {n : Node} (hn : n ∈ ownTree t) : n.form.isQuiet ∧ ∃ written, ⟨written, n, frames⟩ ∈ t.sights isWrite frames := by
  induction t generalizing isWrite with
  | node m f ih =>
    rcases mem_ownTree_node.mp hn with rfl | ⟨plain, c, hc, hn⟩
    · exact ⟨quiet, isWrite, self_mem_sights _ _ _⟩
    · obtain ⟨p, hp, rfl⟩ := Form.mem_children.mp hc
      obtain ⟨outer, role⟩ := Form.quiet_place quiet plain hp
      have admitted := (grammatical_node.mp grammatical).1 p hp
      obtain ⟨still, written, seen⟩ := ih p.tree hc (grammatical.child hc) (Form.isQuiet_of_admits role admitted)
        p.role.isTarget hn
      refine ⟨still, written, mem_sights_node.mpr (Or.inr ⟨p, hp, ?_, ?_⟩)⟩
      · rcases role with role | role | role <;> (rw [role]; rfl)
      · rw [outer]
        exact seen

theorem name_place {params body : List Node} {name : Option Node} {isArrow : Bool} {q : Node} :
    (⟨.name, false, false, q⟩ : Place Node) ∈ (Form.function params body name isArrow).places ↔
      q ∈ params ∨ q ∈ name.toList := by
  simp [Form.places, Place.free, Place.inner]

/-- The scopes around the statements of a function that declares nothing but its parameters and its name. -/
def reach (m : NodeId) (params : List Node) (name : Option Node) : List Frame :=
  [⟨some m, functionDeclarations m name params []⟩, ⟨none, []⟩]

section Straight

variable {m : NodeId} {params body : List Node} {name : Option Node} {isArrow : Bool}
  (tree : IsFunctionTree (.node m (.function params body name isArrow)))
  (straight : IsStraight (.node m (.function params body name isArrow)))

include straight

theorem functionDeclarations_straight : functionDeclarations m name params body = functionDeclarations m name params [] := by
  have nothing : body.flatMap hoisted = [] := by
    refine flatMap_eq_nil_iff.mpr fun s hs => ?_
    have step := straight s hs
    obtain ⟨k, f⟩ := s
    cases f with
    | expressionStatement | returnStatement => rfl
    | _ => cases step
  rw [functionDeclarations, nothing]
  rfl

include tree

theorem statement_sight {s : Node} (hs : s ∈ body) :
    ⟨false, s, reach m params name⟩ ∈ overview (.node m (.function params body name isArrow)) := by
  have place : (⟨.statement, false, true, s⟩ : Place Node) ∈ (Form.function params body name isArrow).places :=
    mem_append_left _ (mem_append_right _ (mem_map_of_mem hs))
  refine mem_sights_node.mpr (Or.inr ⟨_, place, rfl, ?_⟩)
  rw [outermost_of_function tree]
  change _ ∈ sights s false [⟨some m, functionDeclarations m name params body⟩, ⟨none, []⟩]
  rw [functionDeclarations_straight straight]
  exact self_mem_sights s false _

omit straight in
theorem own_cases {n : Node} (hn : n ∈ ownNodes (.node m (.function params body name isArrow))) :
    (n.form.isName ∧ n ∈ (Form.function params body name isArrow).declaredNames) ∨ ∃ s ∈ body, n ∈ ownTree s := by
  obtain ⟨c, hc, hn⟩ := mem_flatMap.mp hn
  by_cases inside : c ∈ body
  · exact Or.inr ⟨c, inside, hn⟩
  · have place : (⟨.name, false, false, c⟩ : Place Node) ∈ (Form.function params body name isArrow).places := by
      simp only [Tree.children, form_node, Form.children, mem_append, inside, or_false] at hc
      exact name_place.mpr hc
    have admitted := (grammatical_node.mp tree.grammatical).1 _ place
    obtain ⟨k, x, rfl⟩ := form_of_isName admitted
    rcases mem_ownTree_node.mp hn with rfl | ⟨-, d, hd, -⟩
    · exact Or.inl ⟨rfl, mem_declaredNames.mpr ⟨_, place, rfl, rfl⟩⟩
    · cases hd

theorem own_statement {s n : Node} (hs : s ∈ body) (hn : n ∈ ownTree s) : n.form.isQuiet ∧
    ∃ written, ⟨written, n, reach m params name⟩ ∈ overview (.node m (.function params body name isArrow)) := by
  have grammatical : s.Grammatical := tree.grammatical.child (by simp [Form.children, hs])
  have quiet : s.form.isQuiet := by
    rw [Form.isQuiet, straight s hs, Bool.or_true]
  obtain ⟨still, written, seen⟩ := own_sight grammatical quiet false (reach m params name) hn
  exact ⟨still, written, sights_trans (statement_sight tree straight hs) seen⟩

theorem own_reference {n : Node} (hn : n ∈ ownNodes (.node m (.function params body name isArrow))) {r : Reference}
    (hr : r ∈ (of (.node m (.function params body name isArrow))).references) (node : r.node = n.mark) :
    r.binding = Scope.lookup r.name ((reach m params name).map Frame.scope) := by
  obtain ⟨v, hv, refers⟩ := mem_references.mp hr
  obtain ⟨leaf, -, -⟩ := reference_of_sight refers
  have same : v.node = n := by
    refine tree.distinct.same_node (node_mem_walk hv) (mem_walk_of_ownNodes hn) ?_
    rw [leaf, ← node]
    rfl
  rcases own_cases tree hn with ⟨-, declared⟩ | ⟨s, hs, hn⟩
  · rw [← same] at declared
    exact absurd declared (not_mem_declaredNames tree.distinct hv (self_mem_walk _))
  · obtain ⟨-, written, seen⟩ := own_statement tree straight hs hn
    rw [← same, leaf] at seen
    have listed := mem_references.mpr ⟨_, seen, rfl⟩
    rw [reference_unique tree.distinct hr listed rfl]
    rfl

end Straight

variable {root : Node} (straight : root.IsStraight) (tree : root.IsFunctionTree)

include straight tree

theorem IsStraight.quiet {n : Node} (hn : n ∈ ownNodes root) : n.form.isQuiet := by
  obtain ⟨m, params, body, name, isArrow, rfl⟩ := tree.exists_node
  rcases own_cases tree hn with ⟨isName, -⟩ | ⟨s, hs, hn⟩
  · obtain ⟨k, x, rfl⟩ := form_of_isName isName
    rfl
  · exact (own_statement tree straight hs hn).1

/-- What such code refers to is declared by a name, never by a statement or a declarator. -/
theorem IsStraight.declared_by_name {n : Node} (hn : n ∈ ownNodes root) {b : BindingId}
    (means : (of root).bindingOf n.mark = some b) {f : Frame} (hf : f ∈ root.frames) (owner : f.owner = b.scope)
    {d : Declaration} (hd : d ∈ f.declarations) {k : Node} (hk : k ∈ root.walk) (key : k.mark = d.key) : k.form.isName := by
  obtain ⟨m, params, body, name, isArrow, rfl⟩ := tree.exists_node
  obtain ⟨r, hr, node, binding⟩ := mem_of_bindingOf means
  rw [own_reference tree straight hn hr node] at binding
  obtain ⟨g, hg, ⟨e, he, -⟩, rfl⟩ := Frame.lookup_eq_some binding
  have own : g = ⟨some m, functionDeclarations m name params body⟩ := by
    rw [functionDeclarations_straight straight]
    simp only [reach, mem_cons, not_mem_nil, or_false] at hg
    rcases hg with rfl | rfl
    · rfl
    · cases he
  have opened : g ∈ frames (.node m (.function params body name isArrow)) := by
    rw [own]
    exact .tail _ (mem_filterMap.mpr ⟨_, mem_sights_node.mpr (Or.inl rfl), rfl⟩)
  rw [frame_eq tree.distinct hf opened owner, own, functionDeclarations_straight straight] at hd
  have declares : ∃ q : Node, (q ∈ params ∨ q ∈ name.toList) ∧ q.mark = d.key := by
    simp only [functionDeclarations, flatMap_nil, append_nil, mem_append, mem_map] at hd
    rcases hd with ⟨q, hq, rfl⟩ | ⟨q, hq, rfl⟩
    · exact ⟨q, Or.inr hq, rfl⟩
    · exact ⟨q, Or.inl hq, rfl⟩
  obtain ⟨q, hq, mark⟩ := declares
  have place : (⟨.name, false, false, q⟩ : Place Node) ∈ (Form.function params body name isArrow).places := name_place.mpr hq
  have inside := child_mem_walk (t := .node m (.function params body name isArrow)) (place_mem_children place)
  rw [tree.distinct.same_node hk inside (key.trans mark.symm)]
  exact (grammatical_node.mp tree.grammatical).1 _ place

omit tree in
theorem IsStraight.of_surface {other : Node} (same : surface other = surface root) : other.IsStraight := by
  have step : ∀ t : Node, (outline t).form.isStep = t.form.isStep := by
    intro t
    obtain ⟨m, f⟩ := t
    cases f <;> rfl
  intro s hs
  have shown : outline s ∈ (Tree.statements root).map outline := by
    rw [← statements_surface, ← same, statements_surface]
    exact mem_map_of_mem hs
  obtain ⟨t, ht, outlines⟩ := mem_map.mp shown
  rw [← step s, ← outlines, step t]
  exact straight t ht

end Node

end Unravel
