import Unravel.Proofs.Pool.Pieces

/-! Recovery of strings leaves no reference that means something else than before. Calls become strings, which changes no
   scope; then functions go that nothing else refers to. -/
namespace Unravel

open Resolution List

variable {k n : Node} {x : NodeId}

namespace Plan

/-- The tree after the replacements. -/
abbrev replaced (plan : Plan) (root : Node) : Node := Node.substitute (plan.literal root) root

section Replacing

variable {root : Node} {p : Pattern} {plan : Plan}

theorem literal_fresh (h : plan.literal root n = some k) (hx : x ∈ Node.ids k) : x ∉ root.ids := by
  obtain ⟨i, r, -, -, rfl⟩ := literal_eq_some h
  rw [Node.ids_node, Form.children, flatMap_nil, mem_singleton] at hx
  intro old
  have below := Node.lt_nextId old
  rw [hx] at below
  exact absurd below (Nat.not_lt.mpr (Nat.le_add_right _ _))

theorem literal_closed (h : plan.literal root n = some k) {j : Node} (hj : j ∈ k.walk) :
    ¬ j.form.isName ∧ j.opening = none := by
  obtain ⟨i, r, -, -, rfl⟩ := literal_eq_some h
  rcases mem_walk_node.mp hj with rfl | ⟨c, hc, -⟩
  · exact ⟨nofun, rfl⟩
  · cases hc

theorem literal_separate (distinct : root.Distinct) : Node.Separate (plan.literal root) root where
  distinct n hn k replaced := by
    obtain ⟨i, r, -, -, rfl⟩ := literal_eq_some replaced
    exact nodup_singleton _
  fresh n hn k replaced x hx old := absurd old (literal_fresh replaced hx)
  apart n hn k replaced l hl j replaced' x hx hx' := by
    obtain ⟨i, r, listed, same, rfl⟩ := literal_eq_some replaced
    obtain ⟨i', r', listed', same', rfl⟩ := literal_eq_some replaced'
    rw [Node.ids_node, Form.children, flatMap_nil, mem_singleton] at hx hx'
    have index := Nat.add_left_cancel (hx.symm.trans hx')
    subst index
    rw [listed, Option.some.injEq] at listed'
    exact distinct.same_node hn hl (same.symm.trans (listed' ▸ same'))

theorem mem_ids_replaced (distinct : root.Distinct) (hn : n ∈ root.walk) (hx : x ∈ n.ids) :
    x ∈ (Node.substitute (plan.literal root) n).ids ↔ ∀ k ∈ n.walk, (plan.literal root k).isSome → x ∉ Node.ids k :=
  Node.mem_ids_substitute_iff (distinct.subtree hn) hx fun _ _ _ replaced hx' =>
    literal_fresh replaced hx' (Node.ids_subset hn hx)

variable (tree : root.IsFunctionTree) (calls : p.RepliesOutside root plan)

include tree calls

theorem literal_call (hn : n ∈ root.walk) (h : plan.literal root n = some k) : p.IsOutsideCall root n := by
  obtain ⟨i, r, listed, same, -⟩ := literal_eq_some h
  obtain ⟨n', isCall, mark⟩ := calls r (mem_of_getElem? listed)
  rwa [tree.distinct.same_node isCall.inside hn (mark.trans same)] at isCall

theorem literal_neutral : Node.Neutral (plan.literal root) root where
  names n hn q hq role := by
    cases replaced : plan.literal root q.tree with
    | none => rfl
    | some k =>
      have inside := walk_trans hn (child_mem_walk (place_mem_children hq))
      obtain ⟨callee, args, call⟩ := (literal_call tree calls inside replaced).call
      have admitted := tree.grammatical n hn q hq
      rw [role] at admitted
      obtain ⟨m, x, named⟩ := form_of_isName admitted
      rw [named] at call
      cases call
  hoisted n hn k replaced := by
    obtain ⟨callee, args, call⟩ := (literal_call tree calls hn replaced).call
    obtain ⟨i, r, -, -, rfl⟩ := literal_eq_some replaced
    obtain ⟨m, f⟩ := n
    cases call
    have quiet : Role.expression.hoists = false := rfl
    rw [Node.hoisted_of_not_hoists quiet rfl, Node.hoisted_of_not_hoists quiet rfl]

theorem literal_root : plan.literal root root = none := by
  cases replaced : plan.literal root root with
  | none => rfl
  | some k =>
    obtain ⟨callee, args, call⟩ := (literal_call tree calls (self_mem_walk root) replaced).call
    obtain ⟨params, body, name, isArrow, function⟩ := tree.function
    rw [function] at call
    cases call

theorem replaced_tree : (plan.replaced root).IsFunctionTree := by
  refine tree.substitute (literal_root tree calls) (literal_separate tree.distinct) (fun n hn k replaced => ?_)
    fun n hn q hq k replaced => ?_
  · obtain ⟨i, r, -, -, rfl⟩ := literal_eq_some replaced
    exact grammatical_node.mpr ⟨nofun, nofun⟩
  · have admitted := tree.grammatical n hn q hq
    have inside := walk_trans hn (child_mem_walk (place_mem_children hq))
    obtain ⟨callee, args, call⟩ := (literal_call tree calls inside replaced).call
    obtain ⟨i, r, -, -, rfl⟩ := literal_eq_some replaced
    rw [call] at admitted
    cases role : q.role <;> (rw [role] at admitted; exact admitted)

theorem replaced_preserved : Preserved root (plan.replaced root) :=
  Node.preserved_substitute tree (replaced_tree tree calls).distinct (literal_neutral tree calls) (literal_root tree calls)
    fun _ _ _ replaced _ => literal_closed replaced

theorem replaced_frames {f : Frame} (hf : f ∈ (plan.replaced root).frames) : f ∈ root.frames :=
  Node.frames_substitute tree.grammatical (literal_neutral tree calls) (literal_root tree calls) tree.not_statement
    (fun _ _ _ replaced _ hj => (literal_closed replaced hj).2) hf

end Replacing

end Plan

/-- Functions and expressions that stand as statements. They declare nothing around them but their own name. -/
def Form.isPiece {ρ : Type} : Form ρ → Bool
  | functionDeclaration .. | expressionStatement .. => true
  | _ => false

theorem Form.isPiece_prune {ρ σ : Type} (a : ρ → Option σ) (g : ρ → σ) (f : Form ρ) : (f.prune a g).isPiece = f.isPiece := by
  cases f <;> rfl

theorem Form.isRemovable_of_isPiece {ρ : Type} {f : Form ρ} (piece : f.isPiece) : f.isRemovable := by
  cases f <;> first | rfl | cases piece

namespace Node

/-- Whether such a statement is what a mark stands for, if it stands for anything in a tree. -/
def IsPiece (t : Node) (x : NodeId) : Prop := ∀ n ∈ t.walk, n.mark = x → n.form.isPiece

variable {t : Node} {doomed : NodeId → Bool}

theorem isPiece_of_mem (distinct : t.Distinct) (hn : n ∈ t.walk) (piece : n.form.isPiece) : IsPiece t n.mark := by
  intro k hk same
  rwa [distinct.same_node hk hn same]

theorem IsPiece.delete (h : IsPiece t x) : IsPiece (delete doomed t) x := by
  intro n hn mark
  obtain ⟨k, hk, rfl⟩ := mem_walk_delete hn
  have piece := h k hk ((mark_delete k).symm.trans mark)
  obtain ⟨m, f⟩ := k
  rwa [delete_node, form_node, Form.isPiece_prune]

theorem detachable_of_pieces (pieces : ∀ x, doomed x → IsPiece t x) : Detachable doomed t := by
  intro n hn condemned
  have piece := pieces n.mark condemned n hn rfl
  refine ⟨Form.isRemovable_of_isPiece piece, ?_⟩
  obtain ⟨m, f⟩ := n
  cases f with
  | functionDeclaration name params body => exact fun d hd => congrArg _ (mem_singleton.mp hd)
  | expressionStatement e => exact nofun
  | _ => cases piece

theorem gone_of_isWithin (tree : t.IsFunctionTree) (pieces : ∀ x, doomed x → IsPiece t x) {c : NodeId} (hx : x ∈ t.ids)
    (within : isWithin t x c) (condemned : doomed c) : x ∉ (delete doomed t).ids := by
  obtain ⟨n, hn, rfl, hx⟩ := (isWithin_iff tree.distinct hx).mp within
  have piece := pieces _ condemned n hn rfl
  refine not_mem_ids_delete tree.distinct tree.grammatical hn ?_ condemned (Form.isRemovable_of_isPiece piece) hx
  rintro rfl
  obtain ⟨params, body, name, isArrow, function⟩ := tree.function
  rw [function] at piece
  cases piece

/-- Pieces can go if only what goes with them refers to them. -/
theorem preserved_removal (tree : t.IsFunctionTree) (pieces : ∀ x, doomed x → IsPiece t x)
    (unused : ∀ x, doomed x → ∀ b, (of t).bindingFor x = some b → ∀ r ∈ (of t).references, r.binding = some b →
      ∃ c, doomed c ∧ isWithin t r.node c) : Preserved t (delete doomed t) := by
  refine preserved_delete tree (detachable_of_pieces pieces) fun f hf d hd condemned r hr means => ?_
  have known := (bindingFor_eq_some tree.distinct).mpr ⟨f, hf, d, hd, rfl, rfl⟩
  obtain ⟨c, condemned', within⟩ := unused d.key condemned _ known r hr means
  exact gone_of_isWithin tree pieces (reference_mem_ids hr) within condemned'

theorem piece_gone (tree : t.IsFunctionTree) (pieces : ∀ x, doomed x → IsPiece t x) {c : NodeId} (condemned : doomed c) :
    c ∉ (delete doomed t).ids := by
  intro left
  have inside := (ids_delete_sublist t).subset left
  obtain ⟨n, hn, rfl⟩ := mem_ids.mp inside
  have within := (isWithin_iff tree.distinct inside).mpr ⟨n, hn, rfl, mark_mem_ids (self_mem_walk n)⟩
  exact gone_of_isWithin tree pieces inside within condemned left

end Node

namespace Recovery

variable {t : Node} {p : Pattern}

theorem outsideReferences_eq_zero {function : NodeId} {ignored : List NodeId} :
    outsideReferences t function ignored = 0 ↔ ∀ b, (of t).bindingFor function = some b →
      ∀ r ∈ (of t).references, r.binding = some b → ∃ c ∈ function :: ignored, Node.isWithin t r.node c := by
  rw [outsideReferences]
  cases known : (of t).bindingFor function with
  | none => simp
  | some b =>
    simp only [Option.some.injEq, forall_eq', length_eq_zero_iff, filter_eq_nil_iff, referencesTo, mem_filter,
      beq_iff_eq, Bool.not_eq_true', Bool.not_eq_false, any_eq_true, and_imp]

theorem mem_ids_of_outsideReferences (distinct : t.Distinct) {function : NodeId} {ignored : List NodeId}
    (h : outsideReferences t function ignored ≠ 0) : function ∈ t.ids := by
  cases known : (of t).bindingFor function with
  | none =>
    refine absurd (outsideReferences_eq_zero.mpr fun b found => ?_) h
    rw [known] at found
    cases found
  | some b =>
    obtain ⟨f, hf, d, hd, rfl, -⟩ := (bindingFor_eq_some distinct).mp known
    exact Node.declaration_key hf hd

/-- The tree after the accessor and the rotation went, if they can. -/
def withoutAccessor (p : Pattern) (t : Node) : Node :=
  if outsideReferences t p.accessor.mark [p.rotation.mark] == 0 then
    Node.delete (fun id => id == p.rotation.mark || id == p.accessor.mark) t
  else t

/-- The tree after the pool function went, if it can. -/
def withoutPool (p : Pattern) (t : Node) : Node :=
  if outsideReferences t p.poolFunction.mark [] == 0 then Node.delete (fun id => id == p.poolFunction.mark) t else t

theorem removePieces_eq (p : Pattern) (t : Node) :
    removePieces p t = (withoutPool p (withoutAccessor p t),
      outsideReferences t p.accessor.mark [p.rotation.mark] == 0,
      outsideReferences (withoutAccessor p t) p.poolFunction.mark [] == 0) := rfl

theorem withoutAccessor_of_eq (h : outsideReferences t p.accessor.mark [p.rotation.mark] = 0) :
    withoutAccessor p t = Node.delete (fun id => id == p.rotation.mark || id == p.accessor.mark) t := by
  rw [withoutAccessor, h]
  rfl

theorem withoutAccessor_of_ne (h : outsideReferences t p.accessor.mark [p.rotation.mark] ≠ 0) : withoutAccessor p t = t := by
  rw [withoutAccessor, if_neg (by simpa using h)]

theorem withoutPool_of_eq (h : outsideReferences t p.poolFunction.mark [] = 0) :
    withoutPool p t = Node.delete (fun id => id == p.poolFunction.mark) t := by
  rw [withoutPool, h]
  rfl

theorem withoutPool_of_ne (h : outsideReferences t p.poolFunction.mark [] ≠ 0) : withoutPool p t = t := by
  rw [withoutPool, if_neg (by simpa using h)]

/-- The pieces of a pool where they stand in a tree. -/
structure Pieces (p : Pattern) (t : Node) : Prop where
  tree : t.IsFunctionTree
  pool : t.IsPiece p.poolFunction.mark
  accessor : t.IsPiece p.accessor.mark
  rotation : t.IsPiece p.rotation.mark
  undeclared : (of t).bindingFor p.rotation.mark = none

theorem Pieces.of_accessor (h : Pieces p t) :
    ∀ x, x == p.rotation.mark || x == p.accessor.mark → t.IsPiece x := by
  intro x condemned
  rcases Bool.or_eq_true_iff.mp condemned with same | same
  · exact beq_iff_eq.mp same ▸ h.rotation
  · exact beq_iff_eq.mp same ▸ h.accessor

theorem Pieces.of_pool (h : Pieces p t) : ∀ x, x == p.poolFunction.mark → t.IsPiece x := by
  intro x condemned
  exact beq_iff_eq.mp condemned ▸ h.pool

theorem withoutAccessor_preserved (h : Pieces p t) :
    (withoutAccessor p t).IsFunctionTree ∧ Preserved t (withoutAccessor p t) := by
  by_cases goes : outsideReferences t p.accessor.mark [p.rotation.mark] = 0
  · rw [withoutAccessor_of_eq goes]
    refine ⟨h.tree.delete, Node.preserved_removal h.tree h.of_accessor fun x condemned b known r hr means => ?_⟩
    rcases Bool.or_eq_true_iff.mp condemned with same | same
    · rw [beq_iff_eq.mp same, h.undeclared] at known
      cases known
    · rw [beq_iff_eq.mp same] at known
      obtain ⟨c, hc, within⟩ := outsideReferences_eq_zero.mp goes b known r hr means
      refine ⟨c, ?_, within⟩
      simpa [or_comm] using hc
  · rw [withoutAccessor_of_ne goes]
    exact ⟨h.tree, .refl t⟩

theorem withoutPool_preserved (tree : t.IsFunctionTree) (pool : t.IsPiece p.poolFunction.mark) :
    (withoutPool p t).IsFunctionTree ∧ Preserved t (withoutPool p t) := by
  by_cases goes : outsideReferences t p.poolFunction.mark [] = 0
  · rw [withoutPool_of_eq goes]
    have pieces : ∀ x, x == p.poolFunction.mark → t.IsPiece x := fun x condemned => beq_iff_eq.mp condemned ▸ pool
    refine ⟨tree.delete, Node.preserved_removal tree pieces fun x condemned b known r hr means => ?_⟩
    rw [beq_iff_eq.mp condemned] at known
    obtain ⟨c, hc, within⟩ := outsideReferences_eq_zero.mp goes b known r hr means
    exact ⟨c, by simpa using hc, within⟩
  · rw [withoutPool_of_ne goes]
    exact ⟨tree, .refl t⟩

end Recovery

end Unravel
