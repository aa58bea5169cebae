import Unravel.Proofs.Pass.Trees
import Unravel.Proofs.Scope.Straight

/-! In a function that only evaluates expressions and returns, aliases and pools of strings stand inside other functions,
   and nothing outside of these refers to them. Removing them does not show. -/
namespace Unravel

open Resolution Pattern

namespace Node

variable {root : Node} (straight : root.IsStraight) (tree : root.IsFunctionTree)

include straight tree

theorem surface_apply {aliases : List Alias} (all : ∀ a ∈ aliases, Alias.IsAlias root a) :
    surface (Alias.apply aliases root) = surface root := by
  have renamed : surface (substitute (Alias.rename aliases) root) = surface root := by
    refine surface_substitute (Alias.rename_root tree all) fun n hn => ?_
    cases found : Alias.rename aliases n with
    | none => rfl
    | some k =>
      obtain ⟨name, new, -⟩ := Option.map_eq_some_iff.mp found
      obtain ⟨a, ha, r, -, hr, node, binding, -⟩ := Alias.newName?_eq_some all new
      have means : (of root).bindingOf n.mark = some a.binding := by
        rw [← node, bindingOf_of_mem tree.distinct hr, binding]
      obtain ⟨f, hf, owner, d, declared, key⟩ := (all a ha).declaration tree.distinct
      have hd : d ∈ f.declarations := List.mem_of_mem_filter (declared ▸ List.mem_singleton_self d)
      obtain ⟨k, hk, mark, id, init, form, -⟩ := (all a ha).declarator
      have isName := straight.declared_by_name tree hn means hf owner hd hk (mark.trans key.symm)
      rw [form] at isName
      cases isName
  rw [Alias.apply_eq, ← renamed]
  refine surface_delete fun n hn doomed => ?_
  obtain ⟨a, ha, mark⟩ := Alias.condemned_iff.mp doomed
  obtain ⟨k, hk, same, id, init, form, -⟩ := (all a ha).declarator
  obtain ⟨l, hl, origin⟩ := own_of_surface renamed hn
  have quiet := straight.quiet tree hl
  rw [tree.distinct.same_node (mem_walk_of_ownNodes hl) hk (origin.trans (mark.symm.trans same.symm)), form] at quiet
  cases quiet

theorem surface_eliminateAliases : surface root.eliminateAliases.root = surface root := by
  have kept : root.eliminateAliases.root.IsFunctionTree ∧ surface root.eliminateAliases.root = surface root := by
    refine Unaliased.run_keeps (P := fun now => now.IsFunctionTree ∧ surface now = surface root) ?_ _ _ ⟨tree, rfl⟩
    rintro now aliases ⟨whole, same⟩ found
    have all : ∀ a ∈ aliases, Alias.IsAlias now a := fun a ha => Alias.isAlias_of_mem whole.distinct (found a ha).1
    exact ⟨Alias.round_tree whole all, (surface_apply (straight.of_surface same) whole all).trans same⟩
  exact kept.2

theorem means_no_function {n : Node} (hn : n ∈ ownNodes root) {function : Node}
    (declared : function ∈ root.walk ∧ isFunctionDeclaration function) {b : BindingId}
    (known : (of root).bindingFor function.mark = some b) : (of root).bindingOf n.mark ≠ some b := by
  intro means
  obtain ⟨f, hf, d, hd, key, rfl⟩ := (bindingFor_eq_some tree.distinct).mp known
  have isName := straight.declared_by_name tree hn means hf rfl hd declared.1 key.symm
  obtain ⟨m, x, rfl⟩ := form_of_isName isName
  cases declared.2

section Recovery

variable {p : Pattern} (found : p.IsFound root)

include found

theorem surface_replaced {plan : Plan} (calls : p.RepliesOutside root plan) :
    surface (substitute (plan.literal root) root) = surface root := by
  refine surface_substitute (Plan.literal_root tree calls) fun n hn => ?_
  cases replaced : plan.literal root n with
  | none => rfl
  | some k =>
    have outside := Plan.literal_call tree calls (mem_walk_of_ownNodes hn) replaced
    obtain ⟨callee, args, form, -, means⟩ := calledBinding?_eq_some outside.called
    rw [found.names] at means
    have part : callee ∈ ownNodes root := by
      refine ownNodes_child hn (by rw [form]; rfl) ?_
      rw [Tree.children, form]
      exact .head _
    exact absurd means (means_no_function straight tree part found.accessor found.accessorBinding)

theorem own_not_piece {n : Node} (hn : n ∈ ownNodes root) :
    n.mark ≠ p.rotation.mark ∧ n.mark ≠ p.accessor.mark ∧ n.mark ≠ p.poolFunction.mark := by
  have inside := mem_walk_of_ownNodes hn
  have undeclared : ∀ function : Node, function ∈ root.walk ∧ isFunctionDeclaration function → n.mark ≠ function.mark := by
    rintro ⟨m, f⟩ ⟨within, declared⟩ same
    have quiet := straight.quiet tree hn
    rw [tree.distinct.same_node inside within same] at quiet
    cases f with
    | functionDeclaration => cases quiet
    | _ => cases declared
  refine ⟨fun same => ?_, undeclared _ found.accessor, undeclared _ found.pool⟩
  -- the rotation hands over the pool function, which nothing here can mean
  obtain ⟨m, c, callee, pool, rest, rotation, -, means⟩ := found.given
  rw [tree.distinct.same_node inside found.rotation same, rotation] at hn
  have call := ownNodes_child hn rfl (List.mem_singleton_self _)
  have given : pool ∈ ownNodes root := ownNodes_child call rfl (.tail callee (.head _))
  exact means_no_function straight tree given found.pool found.poolBinding means

theorem surface_removePieces {t : Node} (same : surface t = surface root) :
    surface (Recovery.removePieces p t).1 = surface root := by
  have away : ∀ {t : Node}, surface t = surface root → ∀ n ∈ ownNodes t,
      n.mark ≠ p.rotation.mark ∧ n.mark ≠ p.accessor.mark ∧ n.mark ≠ p.poolFunction.mark := by
    intro t same n hn
    obtain ⟨k, hk, mark⟩ := own_of_surface same hn
    rw [← mark]
    exact own_not_piece straight tree found hk
  have less : surface (Recovery.withoutAccessor p t) = surface root := by
    rw [Recovery.withoutAccessor]
    split
    · refine (surface_delete fun n hn doomed => ?_).trans same
      simp [away same n hn] at doomed
    · exact same
  rw [Recovery.removePieces_eq, Recovery.withoutPool]
  split
  · refine (surface_delete fun n hn doomed => ?_).trans less
    simp [away less n hn] at doomed
  · exact less

end Recovery

theorem surface_recoverStrings {ns : Namespace} {v : Recovery} (h : root.recoverStrings ns = .ok (some v)) :
    surface v.root = surface root := by
  obtain ⟨p, search, calls, result⟩ := Recovery.recoverStrings_eq_some h
  have found := isFound_of_find search
  have removed := surface_removePieces straight tree found (surface_replaced straight tree found calls)
  rwa [← result] at removed

end Node

end Unravel
