import Unravel.Proofs.Pool.Removal

/-! No reference is left dangling when the strings of a pool are recovered. The rotation goes with the accessor, but it is
   also lost with whatever it stands in: a call that becomes a string, or the pool function. -/
namespace Unravel

open Resolution

variable {x : NodeId} {b : BindingId}

namespace Plan

variable {root : Node} {p : Pattern} {plan : Plan} (tree : root.IsFunctionTree)
  (calls : p.RepliesOutside root plan)

theorem isWithin_replaced (distinct : root.Distinct) (after : (plan.replaced root).Distinct)
    {c : NodeId} (hx : x ∈ root.ids) (left : x ∈ (plan.replaced root).ids) :
    Node.isWithin (plan.replaced root) x c ↔ Node.isWithin root x c := by
  rw [Node.isWithin_iff after left, Node.isWithin_iff distinct hx]
  constructor
  · rintro ⟨n, hn, mark, xn⟩
    rcases Node.mem_walk_substitute hn with ⟨k, hk, kept, rfl⟩ | ⟨k, hk, r, replaced, hr⟩
    · refine ⟨k, hk, (Node.mark_substitute kept).symm.trans mark, ?_⟩
      rcases Node.mem_ids_substitute xn with old | ⟨l, hl, r, replaced, xr⟩
      · exact old
      · exact absurd hx (literal_fresh replaced xr)
    · exact absurd hx (literal_fresh replaced (Node.ids_subset hr xn))
  · rintro ⟨k, hk, rfl, xk⟩
    have spared := (mem_ids_replaced distinct (self_mem_walk root) hx).mp left
    have old : k.mark ∈ root.ids := Node.mark_mem_ids hk
    have stays : k.mark ∈ (plan.replaced root).ids := by
      refine (mem_ids_replaced distinct (self_mem_walk root) old).mpr fun l hl replaced kl => ?_
      exact spared l hl replaced (Node.ids_subset (distinct.mem_walk_of_mark hl hk kl) xk)
    obtain ⟨n, hn, mark⟩ := Node.mem_ids.mp stays
    refine ⟨n, hn, mark, ?_⟩
    rcases Node.mem_walk_substitute hn with ⟨k', hk', kept, rfl⟩ | ⟨k', hk', r, replaced, hr⟩
    · obtain rfl := distinct.same_node hk' hk ((Node.mark_substitute kept).symm.trans mark)
      exact (mem_ids_replaced distinct hk xk).mpr fun l hl => spared l (walk_trans hk hl)
    · exact absurd old (mark ▸ literal_fresh replaced (Node.mark_mem_ids hr))

theorem isPiece_replaced (old : x ∈ root.ids) (h : root.IsPiece x) :
    (plan.replaced root).IsPiece x := by
  intro n hn mark
  rcases Node.mem_walk_substitute hn with ⟨⟨m, f⟩, hk, kept, rfl⟩ | ⟨k, hk, r, replaced, hr⟩
  · have piece := h _ hk ((Node.mark_substitute kept).symm.trans mark)
    rw [Node.substitute_of_none kept]
    cases f <;> exact piece
  · exact absurd old (mark ▸ literal_fresh replaced (Node.mark_mem_ids hr))

include tree calls

theorem bindingFor_of_replaced
    (h : (of (plan.replaced root)).bindingFor x = some b) : (of root).bindingFor x = some b := by
  obtain ⟨f, hf, d, hd, key, rfl⟩ := (bindingFor_eq_some (replaced_tree tree calls).distinct).mp h
  exact (bindingFor_eq_some tree.distinct).mpr ⟨f, replaced_frames tree calls hf, d, hd, key, rfl⟩

theorem bindingFor_replaced (h : (of root).bindingFor x = some b) {r : Reference}
    (hr : r ∈ (of (plan.replaced root)).references) (means : r.binding = some b) :
    (of (plan.replaced root)).bindingFor x = some b := by
  have after := (replaced_tree tree calls).distinct
  obtain ⟨record, known, -⟩ := binding?_of_reference after hr means
  obtain ⟨f', hf', owner, -⟩ := (binding?_eq_some after).mp known
  obtain ⟨f, hf, d, hd, key, rfl⟩ := (bindingFor_eq_some tree.distinct).mp h
  obtain rfl := Node.frame_eq tree.distinct (replaced_frames tree calls hf') hf owner
  exact (bindingFor_eq_some after).mpr ⟨f', hf', d, hd, key, rfl⟩

theorem reference_left (means : (of root).bindingOf x = some b)
    (left : x ∈ (plan.replaced root).ids) :
    ∃ r ∈ (of (plan.replaced root)).references, r.node = x ∧ r.binding = some b := by
  obtain ⟨r, hr, rfl, binding⟩ := mem_of_bindingOf means
  obtain ⟨s, hs, refers⟩ := mem_references.mp hr
  obtain ⟨leaf, -, meant⟩ := reference_of_sight refers
  have spared := (mem_ids_replaced tree.distinct (self_mem_walk root) (reference_mem_ids hr)).mp left
  have kept : ∀ n ∈ root.walk, s.node ∈ n.walk → plan.literal root n = none := by
    intro n hn through
    rw [← Option.not_isSome_iff_eq_none]
    intro replaced
    refine spared n hn replaced ?_
    have inside := Node.mark_mem_ids through
    rwa [leaf] at inside
  have seen := Node.substitute_still_seen tree.grammatical (literal_neutral tree calls) (literal_root tree calls)
    tree.not_statement tree.distinct hs fun n hn through _ => kept n hn through
  have here := kept s.node (Node.node_mem_walk hs) (self_mem_walk _)
  rw [leaf] at here seen
  have again := seen _ (by rw [Node.substitute_of_none here]; exact Node.mem_sights_node.mpr (Or.inl rfl))
  exact ⟨_, mem_references.mpr ⟨_, again, rfl⟩, rfl, meant.symm.trans binding⟩

end Plan

namespace Pattern

variable {root : Node} {p : Pattern} {plan : Plan}

theorem IsFound.pieces (found : p.IsFound root) (tree : root.IsFunctionTree) : Recovery.Pieces p root := by
  have piece_of : ∀ n : Node, n ∈ root.walk → isFunctionDeclaration n → root.IsPiece n.mark := by
    intro n hn declared
    refine Node.isPiece_of_mem tree.distinct hn ?_
    obtain ⟨m, f⟩ := n
    cases f with
    | expressionStatement e => rfl
    | _ => exact declared
  obtain ⟨m, c, callee, pool, rest, same, -, -⟩ := found.given
  refine ⟨tree, piece_of _ found.pool.1 found.pool.2, piece_of _ found.accessor.1 found.accessor.2,
    Node.isPiece_of_mem tree.distinct found.rotation (by rw [same]; rfl), ?_⟩
  cases known : (of root).bindingFor p.rotation.mark with
  | none => rfl
  | some b =>
    -- a statement that only evaluates an expression declares nothing
    obtain ⟨f, hf, d, hd, key, -⟩ := (bindingFor_eq_some tree.distinct).mp known
    have own := (Node.function_declaration tree.distinct tree.grammatical hf hd found.rotation (by rw [same]; nofun) key).2
    rw [same] at own
    cases own

theorem IsFound.rotation_in_pool (found : p.IsFound root) (tree : root.IsFunctionTree) :
    ∃ given : Node, given ∈ p.rotation.walk ∧ (of root).bindingOf given.mark = some p.poolBinding ∧
      (Node.isWithin root given.mark p.poolFunction.mark → Node.isWithin root p.rotation.mark p.poolFunction.mark) := by
  obtain ⟨m, c, callee, given, rest, same, name, means⟩ := found.given
  have argument : given ∈ (Form.call callee (given :: rest)).children := by simp [Form.children]
  have statement : (.node c (.call callee (given :: rest)) : Node) ∈ p.rotation.walk := by
    rw [same]
    exact child_mem_walk (List.mem_singleton_self _)
  have below : given ∈ p.rotation.walk := walk_trans statement (child_mem_walk argument)
  refine ⟨given, below, means, fun within => ?_⟩
  have inside := walk_trans found.rotation below
  obtain ⟨n, hn, mark, gn⟩ := (Node.isWithin_iff tree.distinct (Node.mark_mem_ids inside)).mp within
  refine (Node.isWithin_iff tree.distinct (Node.mark_mem_ids found.rotation)).mpr ⟨n, hn, mark, ?_⟩
  have shared := tree.distinct.mem_walk_of_mark hn inside gn
  rcases tree.distinct.nested hn found.rotation shared below with up | down
  · -- between the rotation and its argument there is only the call
    have function := found.pool.2
    rw [tree.distinct.same_node found.pool.1 hn mark.symm] at function
    rw [same] at up
    rcases mem_walk_node.mp up with rfl | ⟨e, he, up_call⟩
    · cases function
    · cases List.mem_singleton.mp he
      rcases mem_walk_node.mp up_call with rfl | ⟨d, hd, up_argument⟩
      · cases function
      · have call := tree.distinct.subtree (walk_trans found.rotation statement)
        have only := call.same_child hd argument (Node.mark_mem_ids (walk_trans up_argument shared))
          (Node.mark_mem_ids (self_mem_walk given))
        subst only
        obtain ⟨k, x, rfl⟩ := form_of_isName name
        rcases mem_walk_node.mp up_argument with rfl | ⟨e, nothing, -⟩
        · cases function
        · cases nothing
  · exact Node.mark_mem_ids down

section Replaced

variable (found : p.IsFound root) (tree : root.IsFunctionTree)
  (calls : p.RepliesOutside root plan)

include found tree calls

theorem IsFound.pieces_replaced : Recovery.Pieces p (plan.replaced root) := by
  have pieces := found.pieces tree
  refine ⟨Plan.replaced_tree tree calls, Plan.isPiece_replaced (Node.mark_mem_ids found.pool.1) pieces.pool,
    Plan.isPiece_replaced (Node.mark_mem_ids found.accessor.1) pieces.accessor,
    Plan.isPiece_replaced (Node.mark_mem_ids found.rotation) pieces.rotation, ?_⟩
  cases known : (of (plan.replaced root)).bindingFor p.rotation.mark with
  | none => rfl
  | some b =>
    have before := Plan.bindingFor_of_replaced tree calls known
    rw [pieces.undeclared] at before
    cases before

theorem IsFound.given_left {given : Node} (below : given ∈ p.rotation.walk)
    (means : (of root).bindingOf given.mark = some p.poolBinding)
    (left : p.rotation.mark ∈ (plan.replaced root).ids) :
    ∃ r ∈ (of (plan.replaced root)).references, r.node = given.mark ∧
      r.binding = some p.poolBinding := by
  have inside := walk_trans found.rotation below
  have spared := (Plan.mem_ids_replaced tree.distinct (self_mem_walk root) (Node.mark_mem_ids found.rotation)).mp left
  refine Plan.reference_left tree calls means
    ((Plan.mem_ids_replaced tree.distinct (self_mem_walk root) (Node.mark_mem_ids inside)).mpr fun n hn replaced within => ?_)
  obtain ⟨k, literal⟩ := Option.isSome_iff_exists.mp replaced
  rcases tree.distinct.nested hn found.rotation (tree.distinct.mem_walk_of_mark hn inside within) below with up | down
  · exact (Plan.literal_call tree calls hn literal).outside.2
      ((Node.isWithin_iff tree.distinct (Node.mark_mem_ids hn)).mpr ⟨_, found.rotation, rfl, Node.mark_mem_ids up⟩)
  · exact spared n hn replaced (Node.mark_mem_ids down)

theorem IsFound.within_of_goes (left : p.rotation.mark ∈ (plan.replaced root).ids)
    (goes : Recovery.outsideReferences (plan.replaced root) p.poolFunction.mark [] = 0) :
    Node.isWithin root p.rotation.mark p.poolFunction.mark := by
  obtain ⟨given, below, means, within⟩ := found.rotation_in_pool tree
  obtain ⟨r, hr, node, binding⟩ := found.given_left tree calls below means left
  have after := Plan.replaced_tree tree calls
  have known := Plan.bindingFor_replaced tree calls found.poolBinding hr binding
  obtain ⟨c, hc, inside⟩ := Recovery.outsideReferences_eq_zero.mp goes _ known r hr binding
  rw [List.mem_singleton.mp hc, node] at inside
  have stays := reference_mem_ids hr
  rw [node] at stays
  exact within ((Plan.isWithin_replaced tree.distinct after.distinct
    (Node.mark_mem_ids (walk_trans found.rotation below)) stays).mp inside)

end Replaced

end Pattern

namespace Recovery

/-- What is true of the tree after recovery: references mean what they meant, a deleted function is not referred to, and
the rotation is left only with the accessor. The accessor can be left alone, if the rotation stood in a call that became a
string or in a pool function that went. -/
structure IsSafe (root : Node) (p : Pattern) (v : Recovery) : Prop where
  tree : v.root.IsFunctionTree
  references : Preserved root v.root
  pool : v.removedPool ↔ p.poolFunction.mark ∉ v.root.ids
  pool_unused : p.poolFunction.mark ∉ v.root.ids → ∀ r ∈ (of v.root).references, r.binding ≠ some p.poolBinding
  accessor_unused : p.accessor.mark ∉ v.root.ids → ∀ r ∈ (of v.root).references, r.binding ≠ some p.accessorBinding
  rotation : p.rotation.mark ∈ v.root.ids → p.accessor.mark ∈ v.root.ids
  lost : p.accessor.mark ∈ v.root.ids → (p.rotation.mark ∉ v.root.ids ↔
    (∃ r ∈ v.plan.replacements, Node.isWithin root p.rotation.mark r.call) ∨
      (v.removedPool ∧ Node.isWithin root p.rotation.mark p.poolFunction.mark))

/-- The steps of a recovery: the pieces are found, the pool is turned, the calls are planned and replaced, and pieces go. -/
theorem recoverStrings_steps {ns : Namespace} {root : Node} {v : Recovery} (h : root.recoverStrings ns = .ok (some v)) :
    ∃ p after, Pattern.find ns root = .ok (some p) ∧ p.simulate ns p.pool = (after, .ok v.rotations) ∧
      p.plan ns root p.pool after = .ok v.plan ∧
      (v.root, v.removedAccessor, v.removedPool) = removePieces p (v.plan.replaced root) := by
  obtain ⟨found, search, h⟩ := Outcome.bind_eq_ok.mp h
  cases found with
  | none => cases h
  | some p =>
    obtain ⟨rotations, turned, h⟩ := Outcome.bind_eq_ok.mp h
    obtain ⟨plan, planned, h⟩ := Outcome.bind_eq_ok.mp h
    obtain rfl := Option.some.inj (Except.ok.inj h)
    refine ⟨p, (p.simulate ns p.pool).1, search, ?_, planned, ?_⟩
    · exact Prod.ext rfl turned
    · rfl

theorem recoverStrings_eq_some {ns : Namespace} {root : Node} {v : Recovery} (h : root.recoverStrings ns = .ok (some v)) :
    ∃ p, Pattern.find ns root = .ok (some p) ∧
      (∀ r ∈ v.plan.replacements, ∃ n, p.IsOutsideCall root n ∧ n.mark = r.call) ∧
      (v.root, v.removedAccessor, v.removedPool) = removePieces p (v.plan.replaced root) := by
  obtain ⟨p, after, search, -, planned, result⟩ := recoverStrings_steps h
  exact ⟨p, search, Pattern.planned_call planned, result⟩

section Assembly

variable {t : Node} {p : Pattern}

theorem ids_withoutPool (h : x ∈ (withoutPool p t).ids) : x ∈ t.ids := by
  rw [withoutPool] at h
  split at h
  · exact (Node.ids_delete_sublist t).subset h
  · exact h

theorem pool_goes_iff (tree : t.IsFunctionTree) (pool : t.IsPiece p.poolFunction.mark) :
    outsideReferences t p.poolFunction.mark [] = 0 ↔ p.poolFunction.mark ∉ (withoutPool p t).ids := by
  constructor
  · intro goes
    rw [withoutPool_of_eq goes]
    refine Node.piece_gone tree (fun x condemned => ?_) (beq_self_eq_true _)
    exact beq_iff_eq.mp condemned ▸ pool
  · intro gone
    by_contra stays
    rw [withoutPool_of_ne stays] at gone
    exact gone (mem_ids_of_outsideReferences tree.distinct stays)

theorem pieces_gone (h : Pieces p t) (goes : outsideReferences t p.accessor.mark [p.rotation.mark] = 0) :
    p.accessor.mark ∉ (withoutAccessor p t).ids ∧ p.rotation.mark ∉ (withoutAccessor p t).ids := by
  rw [withoutAccessor_of_eq goes]
  exact ⟨Node.piece_gone h.tree h.of_accessor (by simp), Node.piece_gone h.tree h.of_accessor (by simp)⟩

theorem withoutAccessor_isPiece (h : t.IsPiece x) : (withoutAccessor p t).IsPiece x := by
  rw [withoutAccessor]
  split
  · exact h.delete
  · exact h

end Assembly

section Outcome

variable {root : Node} {p : Pattern} {plan : Plan} (found : p.IsFound root) (tree : root.IsFunctionTree)
  (calls : p.RepliesOutside root plan)

include found tree calls

theorem accessor_left (left : p.rotation.mark ∈
      (withoutPool p (withoutAccessor p (plan.replaced root))).ids) :
    p.accessor.mark ∈ (withoutPool p (withoutAccessor p (plan.replaced root))).ids := by
  have pieces := found.pieces_replaced tree calls
  by_cases goes : outsideReferences (plan.replaced root) p.accessor.mark [p.rotation.mark] = 0
  · exact absurd (ids_withoutPool left) (pieces_gone pieces goes).2
  · rw [withoutAccessor_of_ne goes] at left ⊢
    have there := ids_withoutPool left
    by_cases poolGoes : outsideReferences (plan.replaced root) p.poolFunction.mark [] = 0
    · -- the argument of the rotation keeps the pool function, unless the rotation is part of it
      have within := (Plan.isWithin_replaced tree.distinct pieces.tree.distinct (Node.mark_mem_ids found.rotation) there).mpr
        (found.within_of_goes tree calls there poolGoes)
      rw [withoutPool_of_eq poolGoes] at left
      exact absurd left (Node.gone_of_isWithin pieces.tree pieces.of_pool there within (beq_self_eq_true _))
    · rw [withoutPool_of_ne poolGoes]
      exact mem_ids_of_outsideReferences pieces.tree.distinct goes

/-- The accessor outlives the rotation exactly if something else takes the rotation with it. -/
theorem rotation_lost_iff (left : p.accessor.mark ∈
      (withoutPool p (withoutAccessor p (plan.replaced root))).ids) :
    p.rotation.mark ∉ (withoutPool p (withoutAccessor p (plan.replaced root))).ids ↔
      (∃ r ∈ plan.replacements, Node.isWithin root p.rotation.mark r.call) ∨
        (outsideReferences (withoutAccessor p (plan.replaced root)) p.poolFunction.mark [] = 0 ∧
          Node.isWithin root p.rotation.mark p.poolFunction.mark) := by
  have pieces := found.pieces_replaced tree calls
  have stays : outsideReferences (plan.replaced root) p.accessor.mark [p.rotation.mark] ≠ 0 :=
    fun goes => (pieces_gone pieces goes).1 (ids_withoutPool left)
  rw [withoutAccessor_of_ne stays]
  have old : p.rotation.mark ∈ root.ids := Node.mark_mem_ids found.rotation
  have spared : p.rotation.mark ∈ (plan.replaced root).ids ↔ _ :=
    Plan.mem_ids_replaced tree.distinct (self_mem_walk root) old
  constructor
  · intro gone
    by_cases there : p.rotation.mark ∈ (plan.replaced root).ids
    · have goes : outsideReferences (plan.replaced root) p.poolFunction.mark [] = 0 := by
        by_contra poolStays
        rw [withoutPool_of_ne poolStays] at gone
        exact gone there
      exact Or.inr ⟨goes, found.within_of_goes tree calls there goes⟩
    · rw [spared] at there
      push Not at there
      obtain ⟨k, hk, replaced, inside⟩ := there
      obtain ⟨r, hr, call⟩ := Plan.literal_isSome.mp replaced
      exact Or.inl ⟨r, hr, (Node.isWithin_iff tree.distinct old).mpr ⟨k, hk, call.symm, inside⟩⟩
  · rintro (⟨r, hr, within⟩ | ⟨goes, within⟩) rotates
    · obtain ⟨k, hk, mark, inside⟩ := (Node.isWithin_iff tree.distinct old).mp within
      exact spared.mp (ids_withoutPool rotates) k hk (Plan.literal_isSome.mpr ⟨r, hr, mark.symm⟩) inside
    · have there := ids_withoutPool rotates
      have within' := (Plan.isWithin_replaced tree.distinct pieces.tree.distinct old there).mpr within
      rw [withoutPool_of_eq goes] at rotates
      exact Node.gone_of_isWithin pieces.tree pieces.of_pool there within' (beq_self_eq_true _) rotates

end Outcome

theorem recovery_leaves_nothing_dangling (ns : Namespace) (root : Node) (h : root.IsFunctionTree) (v : Recovery)
    (succeeds : root.recoverStrings ns = .ok (some v)) :
    ∃ p, Pattern.find ns root = .ok (some p) ∧ IsSafe root p v := by
  obtain ⟨p, search, calls, result⟩ := recoverStrings_eq_some succeeds
  have found := Pattern.isFound_of_find search
  have pieces := found.pieces_replaced h calls
  obtain ⟨tree₂, preserved₂⟩ := withoutAccessor_preserved pieces
  have pool₂ := withoutAccessor_isPiece (p := p) pieces.pool
  obtain ⟨tree₃, preserved₃⟩ := withoutPool_preserved tree₂ pool₂
  rw [removePieces_eq, Prod.mk.injEq, Prod.mk.injEq] at result
  obtain ⟨final, -, removed⟩ := result
  have references := (Plan.replaced_preserved h calls).trans (preserved₂.trans preserved₃)
  rw [← final] at tree₃ references
  have unused : ∀ n ∈ root.walk, Pattern.isFunctionDeclaration n → ∀ b, (of root).bindingFor n.mark = some b →
      n.mark ∉ v.root.ids → ∀ r ∈ (of v.root).references, r.binding ≠ some b := by
    intro n hn function b known gone r hr means
    refine gone (references.declared h tree₃.distinct hn ?_ known hr means)
    intro name
    obtain ⟨m, x, rfl⟩ := Tree.form_of_isName name
    cases function
  have removed_iff : v.removedPool ↔ outsideReferences
      (withoutAccessor p (v.plan.replaced root)) p.poolFunction.mark [] = 0 := by
    rw [removed, beq_iff_eq]
  refine ⟨p, search, tree₃, references, ?_, unused _ found.pool.1 found.pool.2 _ found.poolBinding,
    unused _ found.accessor.1 found.accessor.2 _ found.accessorBinding, ?_, ?_⟩
  · rw [removed_iff, final]
    exact pool_goes_iff tree₂ pool₂
  · rw [final]
    exact accessor_left found h calls
  · rw [removed_iff, final]
    exact rotation_lost_iff found h calls

/-- A rotation in a pool function in the accessor, and a call whose index is not known. -/
def strayRotation : Node :=
  .node 0 (.function [.node 1 (.identifier "x")]
    [.node 2 (.functionDeclaration (.node 3 (.identifier "A")) [.node 4 (.identifier "n")]
        [.node 5 (.expressionStatement (.node 6 (.assign (.node 7 (.identifier "n")) "="
            (.node 8 (.binary .sub (.node 9 (.identifier "n")) (.node 10 (.number (Double.ofNat 0)))))))),
          .node 11 (.functionDeclaration (.node 12 (.identifier "P")) []
            [.node 13 (.declaration "var" [.node 14 (.declarator (.node 15 (.identifier "s"))
                (some (.node 16 (.array [.node 17 (.string "a"), .node 18 (.string "b")]))))]),
              .node 19 (.expressionStatement (.node 20 (.call (.node 21 (.identifier "P")) []))),
              .node 22 (.expressionStatement (.node 23 (.call
                (.node 24 (.function []
                  [.node 25 (.declaration "var" [.node 26 (.declarator (.node 27 (.identifier "c"))
                    (some (.node 28 (.binary .add
                      (.node 29 (.call (.node 30 (.identifier "A")) [.node 31 (.number (Double.ofNat 0))]))
                      (.node 32 (.string ""))))))])] none false))
                [.node 33 (.identifier "P"), .node 34 (.string "a")])))]),
          .node 35 (.returnStatement (some (.node 36 (.identifier "n"))))]),
      .node 37 (.returnStatement (some (.node 38 (.call (.node 39 (.identifier "A")) [.node 40 (.identifier "x")]))))]
    none false)

/-- The accessor is kept for the last call, but the rotation goes with the pool function. -/
theorem strayRotation_is_lost :
    ∃ p v, Pattern.find ⟨[]⟩ strayRotation = .ok (some p) ∧ strayRotation.recoverStrings ⟨[]⟩ = .ok (some v) ∧
      p.accessor.mark ∈ v.root.ids ∧ p.rotation.mark ∉ v.root.ids := by
  have finds : (Pattern.find ⟨[]⟩ strayRotation).toOption.any fun o => o.any fun p =>
      decide (p.accessor.mark = 2 ∧ p.rotation.mark = 22) := by decide +kernel
  have leaves : (strayRotation.recoverStrings ⟨[]⟩).toOption.any fun o => o.any fun v =>
      decide (2 ∈ v.root.ids ∧ 22 ∉ v.root.ids) := by decide +kernel
  obtain ⟨p, search, marks⟩ := Outcome.exists_some_of_any finds
  obtain ⟨v, succeeds, left⟩ := Outcome.exists_some_of_any leaves
  obtain ⟨accessor, rotation⟩ := of_decide_eq_true marks
  refine ⟨p, v, search, succeeds, ?_⟩
  rw [accessor, rotation]
  exact of_decide_eq_true left

theorem strayRotation_is_safe :
    strayRotation.IsFunctionTree ∧ ∃ p v, Pattern.find ⟨[]⟩ strayRotation = .ok (some p) ∧
      strayRotation.recoverStrings ⟨[]⟩ = .ok (some v) ∧ v.removedPool ∧ IsSafe strayRotation p v := by
  have tree : strayRotation.IsFunctionTree := ⟨⟨_, _, _, _, rfl⟩, by decide +kernel, by decide +kernel⟩
  have evaluated : (strayRotation.recoverStrings ⟨[]⟩).toOption.any fun result => result.any Recovery.removedPool := by
    decide +kernel
  obtain ⟨v, succeeds, removed⟩ := Outcome.exists_some_of_any evaluated
  obtain ⟨p, found, safe⟩ := recovery_leaves_nothing_dangling ⟨[]⟩ strayRotation tree v succeeds
  exact ⟨tree, p, v, found, succeeds, removed, safe⟩

end Recovery

end Unravel
