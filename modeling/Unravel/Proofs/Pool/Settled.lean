import Unravel.Proofs.Fold.Result
import Unravel.Proofs.Pool.Replaced

/-! Recovering the strings of a pool a second time. Either the pool function went and no other function holds strings, or the
   second search finds the same pieces and every call that is left has an index that is not known. -/
namespace Unravel

open Outcome Resolution List

variable {doomed : NodeId → Bool} {n t : Node} {x : NodeId} {after : Pool}

namespace Pattern

section Deleting

open Node

theorem stringOf?_delete (doomed : NodeId → Bool) (e : Node) : stringOf? (delete doomed e) = stringOf? e := by
  obtain ⟨m, f⟩ := e
  rw [delete_node]
  cases f <;> rfl

theorem isFunctionDeclaration_delete (t : Node) :
    isFunctionDeclaration (delete doomed t) = isFunctionDeclaration t := by
  obtain ⟨m, f⟩ := t
  rw [delete_node]
  cases f <;> rfl

theorem mem_ownTree_delete (hn : n ∈ ownTree (delete doomed t)) :
    ∃ k ∈ ownTree t, n = delete doomed k := by
  induction t with
  | node m f ih =>
    rw [delete_node] at hn
    rcases mem_ownTree_node.mp hn with rfl | ⟨plain, d, hd, hn⟩
    · exact ⟨_, self_mem_ownTree _, (delete_node doomed m f).symm⟩
    · obtain ⟨c, hc, rfl⟩ := mem_children_delete hd
      obtain ⟨k, hk, origin⟩ := ih c hc hn
      rw [isFunction_prune] at plain
      exact ⟨k, mem_ownTree_node.mpr (.inr ⟨plain, c, hc, hk⟩), origin⟩

theorem mem_ownNodes_delete (hn : n ∈ ownNodes (delete doomed t)) :
    ∃ k ∈ ownNodes t, n = delete doomed k := by
  obtain ⟨m, f⟩ := t
  rw [delete_node] at hn
  obtain ⟨d, hd, hn⟩ := mem_flatMap.mp hn
  obtain ⟨c, hc, rfl⟩ := mem_children_delete hd
  obtain ⟨k, hk, origin⟩ := mem_ownTree_delete hn
  exact ⟨k, mem_flatMap.mpr ⟨c, hc, hk⟩, origin⟩

variable {doomed : NodeId → Bool} {t : Node}

theorem delete?_of_plain (pieces : ∀ x, doomed x → t.IsPiece x) (hn : n ∈ t.walk)
    (plain : ¬n.form.isRemovable) : delete? doomed n = some (delete doomed n) := by
  refine delete?_eq_some.mpr
    ⟨fun condemned => plain (Form.isRemovable_of_isPiece (pieces _ condemned n hn rfl)), fun emptied => plain ?_, rfl⟩
  have declaration := (of_isEmptied emptied).1
  obtain ⟨m, f⟩ := n
  rw [delete_node] at declaration
  cases f <;> first | rfl | cases declaration

theorem delete?_of_operand (grammatical : t.Grammatical) (pieces : ∀ x, doomed x → t.IsPiece x) (hn : n ∈ t.walk)
    {p : Place Node} (hp : p ∈ n.form.places) (quiet : p.role.hoists = false) :
    delete? doomed p.tree = some (delete doomed p.tree) :=
  delete?_of_plain pieces (walk_trans hn (child_mem_walk (place_mem_children hp)))
    (Role.not_removable_of_quiet quiet (grammatical n hn p hp))

theorem params_of_delete (grammatical : t.Grammatical) (pieces : ∀ x, doomed x → t.IsPiece x) (hn : n ∈ t.walk)
    (declared : isFunctionDeclaration n) (h : Tree.params (delete doomed n) = []) : n.params = [] := by
  obtain ⟨m, f⟩ := n
  cases f with
  | functionDeclaration name params body =>
    rw [delete_node] at h
    change params.filterMap (delete? doomed) = [] at h
    refine eq_nil_iff_forall_not_mem.mpr fun c hc => ?_
    have listed : c ∈ params := hc
    have kept := delete?_of_operand grammatical pieces hn (p := ⟨.name, false, false, c⟩)
      (by simp [Form.places, Place.free, listed]) rfl
    rw [filterMap_eq_nil_iff.mp h c hc] at kept
    cases kept
  | _ => cases declared

theorem stringArray?_of_delete (grammatical : t.Grammatical) (pieces : ∀ x, doomed x → t.IsPiece x) (hn : n ∈ t.walk)
    (h : (stringArray? (delete doomed n)).isSome) : (stringArray? n).isSome := by
  obtain ⟨m, name, k, elements, same, filled, strings⟩ := stringArray?_isSome.mp h
  obtain ⟨m', f⟩ := n
  rw [delete_node] at same
  cases f with
  | declarator name' init =>
    rw [Form.prune_declarator] at same
    obtain ⟨rfl, form⟩ := Tree.node.inj same
    obtain ⟨init', rfl, left⟩ := Option.bind_eq_some_iff.mp (Form.declarator.inj form).2
    obtain ⟨-, -, origin⟩ := delete?_eq_some.mp left
    obtain ⟨k', g⟩ := init'
    rw [delete_node] at origin
    obtain ⟨rfl, array⟩ := Tree.node.inj origin
    cases g with
    | array es =>
      obtain rfl : elements = es.filterMap (delete? doomed) := Form.array.inj array
      have inside : (.node k (.array es) : Node) ∈ t.walk :=
        walk_trans hn (child_mem_walk (by simp [Tree.children, Form.children]))
      refine stringArray?_isSome.mpr ⟨_, name', _, es, rfl, fun empty => filled (by rw [empty]; rfl), fun e he => ?_⟩
      have kept := delete?_of_operand grammatical pieces inside (p := ⟨.expression, false, false, e⟩)
        (by simp [Form.places, Place.free, he]) rfl
      rw [← stringOf?_delete doomed]
      exact strings _ (mem_filterMap.mpr ⟨e, he, kept⟩)
    | _ => cases array
  | _ => cases same

theorem exists_holdsStrings_iff : (∃ strings, HoldsStrings n strings) ↔
    isFunctionDeclaration n ∧ n.params = [] ∧ ∃ k ∈ ownNodes n, (stringArray? k).isSome := by
  rw [← findSome?_isSome_iff]
  constructor
  · rintro ⟨strings, declared, params, array⟩
    exact ⟨declared, params, by rw [array]; rfl⟩
  · rintro ⟨declared, params, array⟩
    obtain ⟨strings, array⟩ := Option.isSome_iff_exists.mp array
    exact ⟨strings, declared, params, array⟩

/-- The function of that mark holds strings. -/
def HoldsAt (t : Node) (x : NodeId) : Prop := ∃ n ∈ t.walk, n.mark = x ∧ ∃ strings, HoldsStrings n strings

theorem holdsAt_of_delete (grammatical : t.Grammatical) (pieces : ∀ x, doomed x → t.IsPiece x)
    (h : HoldsAt (delete doomed t) x) : HoldsAt t x := by
  obtain ⟨n, hn, rfl, holds⟩ := h
  obtain ⟨k, hk, rfl⟩ := mem_walk_delete hn
  obtain ⟨declared, params, j, hj, array⟩ := exists_holdsStrings_iff.mp holds
  rw [isFunctionDeclaration_delete] at declared
  obtain ⟨i, hi, rfl⟩ := mem_ownNodes_delete hj
  refine ⟨k, hk, (mark_delete k).symm, exists_holdsStrings_iff.mpr
    ⟨declared, params_of_delete grammatical pieces hk declared params, i, hi, ?_⟩⟩
  exact stringArray?_of_delete grammatical pieces (walk_trans hk (mem_walk_of_ownNodes hi)) array

theorem find_eq_none {ns : Namespace} {root : Node} (h : ∀ x, ¬HoldsAt root x) : find ns root = .ok none := by
  have nothing : findPool? root (of root) = none := by
    rw [findPool?_eq, findSome?_eq_none_iff]
    intro n hn
    cases found : poolAt (of root) n with
    | none => rfl
    | some piece =>
      obtain ⟨pool, b, strings⟩ := piece
      obtain ⟨rfl, holds, -⟩ := poolAt_eq_some_iff.mp found
      exact absurd ⟨n, hn, rfl, strings, holds⟩ (h n.mark)
  rw [find, nothing]
  rfl

end Deleting

theorem mem_walk_of_checkOf? {function check : Node} (h : checkOf? function = some check) : check ∈ function.walk := by
  obtain ⟨⟨m, f⟩, hn, found⟩ := exists_of_findSome?_eq_some h
  refine walk_trans (mem_walk_of_ownNodes hn) ?_
  split at found
  next name init form =>
    cases form
    split at found
    next =>
      cases found
      exact child_mem_walk (by simp [Tree.children, Form.children])
    next => cases found
  next => cases found

section Names

variable {ns : Namespace} {p : Pattern} {names : Resolution} {function : Node}

theorem isMatch_names (same : ∀ n ∈ p.check.walk, names.bindingOf n.mark = p.names.bindingOf n.mark) (pool : Pool) :
    isMatch { p with names := names, poolFunction := function } ns pool = p.isMatch ns pool := by
  have evaluates : Folder.evaluate { Folder.of ns names with resolvers := [(p.accessorBinding, access pool)] } p.check =
      Folder.evaluate { Folder.of ns p.names with resolvers := [(p.accessorBinding, access pool)] } p.check :=
    Folder.evaluate_congr (F := { Folder.of ns p.names with resolvers := [(p.accessorBinding, access pool)] }) same
  simp only [isMatch, evaluates]

theorem rotateUntil_names (same : ∀ n ∈ p.check.walk, names.bindingOf n.mark = p.names.bindingOf n.mark) (left done : Nat)
    (pool : Pool) : rotateUntil { p with names := names, poolFunction := function } ns left done pool = p.rotateUntil ns left done pool := by
  induction left generalizing done pool with
  | zero => rfl
  | succ left ih =>
    rw [rotateUntil, rotateUntil, isMatch_names same]
    simp only [ih]

theorem plan_of_dynamic {root : Node} {before : Pool}
    (dynamic : ∀ n ∈ root.walk, ∀ first rest, p.accessorCall? root n = some (first :: rest) → static? ns first = .ok none) :
    ∃ plan, p.plan ns root before after = .ok plan ∧ plan.replacements = [] := by
  rw [plan_eq]
  suffices every : ∀ (l : List Node), (∀ n ∈ l, n ∈ root.walk) → ∀ start : Plan, start.replacements = [] →
      ∃ plan, l.foldlM (p.planNode ns root before after) start = .ok plan ∧ plan.replacements = [] from
    every root.walk (fun _ hn => hn) {} rfl
  intro l
  induction l with
  | nil => exact fun _ start empty => ⟨start, rfl, empty⟩
  | cons n l ih =>
    intro inside start empty
    have rest := ih fun k hk => inside k (.tail n hk)
    rw [foldlM_cons, planNode]
    cases call : p.accessorCall? root n with
    | none => exact rest start empty
    | some args =>
      have step : p.planCall ns root before after start n args = .ok { start with dynamicCalls := start.dynamicCalls + 1 } := by
        cases args with
        | nil => rfl
        | cons first more =>
          rw [planCall, dynamic n (inside n (.head _)) first more call]
          rfl
      obtain ⟨plan, planned, nothing⟩ := rest { start with dynamicCalls := start.dynamicCalls + 1 } empty
      exact ⟨plan, Outcome.bind_eq_ok.mpr ⟨_, step, planned⟩, nothing⟩

end Names

end Pattern

namespace Recovery

open Node Pattern

/-- The tree after a recovery: the tree itself if there is no pool. -/
def result (root : Node) : Option Recovery → Node
  | none => root
  | some v => v.root

/-- The rotation is left with the pool, and the strings that were put back change nothing that the searches look at: they
complete no array, and they make no operand of a shift known, no target of a rotation and no index. -/
structure StaysFound (ns : Namespace) (root : Node) (p : Pattern) (v : Recovery) : Prop where
  rotation : p.rotation.mark ∈ v.root.ids
  arrays : ∀ n ∈ root.walk, n.mark ∈ v.root.ids → isFunctionDeclaration n → n.params = [] → ∀ k ∈ ownNodes n,
    stringArray? k = none → stringArray? (substitute (v.plan.literal root) k) = none
  operands : ∀ n ∈ root.walk, IsCaller p.names p.poolFunction.mark p.poolBinding n → ∀ k ∈ n.walk, k.mark ∈ v.root.ids →
    ∀ op e, Shifts op e k → static? ns (substitute (v.plan.literal root) e) = static? ns e
  targets : ∀ n ∈ root.walk, n.mark ∈ v.root.ids → ∀ function goal, IsHanded p.names p.poolBinding n function goal →
    static? ns (substitute (v.plan.literal root) goal) = static? ns goal
  indices : ∀ n ∈ root.walk, n.mark ∈ v.root.ids → ∀ first rest, p.accessorCall? root n = some (first :: rest) →
    static? ns (substitute (v.plan.literal root) first) = .ok none

/-- Nothing new is left to be recovered: either the pool function went and no function that is left holds an array of strings, or
the pool is found again as it was. -/
structure IsSettled (ns : Namespace) (root : Node) (p : Pattern) (v : Recovery) : Prop where
  gone : p.poolFunction.mark ∉ v.root.ids → ∀ n ∈ root.walk, n.mark ∈ v.root.ids → isFunctionDeclaration n → n.params = [] →
    ∀ k ∈ ownNodes n, stringArray? (substitute (v.plan.literal root) k) = none
  stays : p.poolFunction.mark ∈ v.root.ids → StaysFound ns root p v

variable {ns : Namespace} {root : Node} {p : Pattern} {v : Recovery}

section Steps

theorem recoverStrings_of_none (h : find ns root = .ok none) : root.recoverStrings ns = .ok none := by
  rw [recoverStrings, h]
  rfl

theorem recoverStrings_of_steps {rotations : Nat} {plan : Plan} (search : find ns root = .ok (some p))
    (turned : p.simulate ns p.pool = (after, .ok rotations)) (planned : p.plan ns root p.pool after = .ok plan) :
    ∃ w, root.recoverStrings ns = .ok (some w) ∧ w.plan = plan ∧
      (w.root, w.removedAccessor, w.removedPool) = removePieces p (plan.replaced root) := by
  have run : root.recoverStrings ns = .ok (some ⟨(removePieces p (plan.replaced root)).1, (plan.apply root).2,
      after, rotations, plan, (removePieces p (plan.replaced root)).2.1,
      (removePieces p (plan.replaced root)).2.2⟩) := by
    refine Outcome.bind_eq_ok.mpr ⟨_, search, ?_⟩
    simp only [turned]
    exact Outcome.bind_eq_ok.mpr ⟨_, rfl, Outcome.bind_eq_ok.mpr ⟨_, planned, rfl⟩⟩
  exact ⟨_, run, rfl, rfl⟩

theorem removePieces_of_mark {function : Node} (mark : function.mark = p.poolFunction.mark) (names : Resolution) (t : Node) :
    removePieces { p with names := names, poolFunction := function } t = removePieces p t := by
  simp only [removePieces, mark]

end Steps

theorem holdsAt_withoutAccessor (h : Pieces p t) (holds : HoldsAt (withoutAccessor p t) x) : HoldsAt t x := by
  rw [withoutAccessor] at holds
  split at holds
  · exact holdsAt_of_delete h.tree.grammatical h.of_accessor holds
  · exact holds

theorem holdsAt_withoutPool (tree : t.IsFunctionTree) (pool : t.IsPiece p.poolFunction.mark)
    (holds : HoldsAt (withoutPool p t) x) : HoldsAt t x := by
  have pieces : ∀ y, y == p.poolFunction.mark → t.IsPiece y := fun y condemned => beq_iff_eq.mp condemned ▸ pool
  rw [withoutPool] at holds
  split at holds
  · exact holdsAt_of_delete tree.grammatical pieces holds
  · exact holds

section Settled

variable (tree : root.IsFunctionTree) (found : p.IsFound root)
  (calls : ∀ r ∈ v.plan.replacements, ∃ n, p.IsOutsideCall root n ∧ n.mark = r.call)
  (pieces : (v.root, v.removedAccessor, v.removedPool) = removePieces p (v.plan.replaced root))

include tree found calls pieces

/-- A function that holds strings in the end was left, and held an array of strings and calls that were replaced. -/
theorem origin_of_holdsAt (holds : HoldsAt v.root x) :
    ∃ n ∈ root.walk, n.mark ∈ v.root.ids ∧ isFunctionDeclaration n ∧ n.params = [] ∧
      ∃ k ∈ ownNodes n, stringArray? (substitute (v.plan.literal root) k) ≠ none := by
  have replaced := found.pieces_replaced tree calls
  have puts := Plan.literal_putsStrings tree calls
  have left : x ∈ v.root.ids := by
    obtain ⟨n, hn, rfl, -⟩ := holds
    exact mark_mem_ids hn
  rw [removePieces_eq, Prod.mk.injEq] at pieces
  rw [pieces.1] at holds
  have before := holdsAt_withoutAccessor replaced
    (holdsAt_withoutPool (withoutAccessor_preserved replaced).1 (withoutAccessor_isPiece replaced.pool) holds)
  obtain ⟨n', hn', rfl, held⟩ := before
  obtain ⟨declared, params, k', hk', array⟩ := exists_holdsStrings_iff.mp held
  rw [Plan.walk_replaced] at hn'
  obtain ⟨n, hn, rfl⟩ := mem_map.mp hn'
  have inside := (front_sublist root).subset hn
  rw [isFunctionDeclaration_substitute (puts.subtree inside)] at declared
  have kept := kept_of_isFunctionDeclaration (puts.subtree inside) declared
  rw [params_substitute (puts.subtree inside), map_eq_nil_iff] at params
  obtain ⟨k, hk, rfl⟩ := mem_ownNodes_substitute (puts.subtree inside) kept hk'
  rw [mark_substitute kept] at left
  exact ⟨n, inside, left, declared, params, k, hk, Option.isSome_iff_ne_none.mp array⟩

theorem removedPool_iff : v.removedPool ↔ p.poolFunction.mark ∉ v.root.ids := by
  have replaced := found.pieces_replaced tree calls
  rw [removePieces_eq, Prod.mk.injEq, Prod.mk.injEq] at pieces
  rw [pieces.1, pieces.2.2, beq_iff_eq]
  exact pool_goes_iff (withoutAccessor_preserved replaced).1 (withoutAccessor_isPiece replaced.pool)

theorem accessor_of_rotation (left : p.rotation.mark ∈ v.root.ids) : p.accessor.mark ∈ v.root.ids := by
  rw [removePieces_eq, Prod.mk.injEq] at pieces
  rw [pieces.1] at left ⊢
  exact accessor_left found tree calls left

theorem nothing_removed (pool : p.poolFunction.mark ∈ v.root.ids) (accessor : p.accessor.mark ∈ v.root.ids) :
    removePieces p (v.plan.replaced root) = (v.plan.replaced root, false, false) := by
  have replaced := found.pieces_replaced tree calls
  rw [removePieces_eq, Prod.mk.injEq] at pieces
  rw [pieces.1] at pool accessor
  have stays : outsideReferences (v.plan.replaced root) p.accessor.mark [p.rotation.mark] ≠ 0 :=
    fun goes => (pieces_gone replaced goes).1 (ids_withoutPool accessor)
  rw [removePieces_eq, withoutAccessor_of_ne stays] at *
  have remains : outsideReferences (v.plan.replaced root) p.poolFunction.mark [] ≠ 0 :=
    fun goes => (pool_goes_iff replaced.tree replaced.pool).mp goes pool
  rw [withoutPool_of_ne remains]
  simp [stays, remains]

end Settled

section Again

variable (tree : root.IsFunctionTree) (search : find ns root = .ok (some p))
  (calls : ∀ r ∈ v.plan.replacements, ∃ n, p.IsOutsideCall root n ∧ n.mark = r.call)

include tree search calls

theorem untouched_pieces :
    Untouched (v.plan.literal root) p.accessor ∧ Untouched (v.plan.literal root) p.rotation := by
  have found := isFound_of_find search
  have outside : ∀ piece ∈ root.walk, (∀ n, p.IsOutsideCall root n → ¬isWithin root n.mark piece.mark) →
      Untouched (v.plan.literal root) piece := by
    intro piece hp apart n hn
    have inside := walk_trans hp hn
    rw [← Option.not_isSome_iff_eq_none]
    intro replaced
    obtain ⟨k, literal⟩ := Option.isSome_iff_exists.mp replaced
    exact apart n (Plan.literal_call tree calls inside literal)
      ((isWithin_iff tree.distinct (mark_mem_ids inside)).mpr ⟨piece, hp, rfl, mark_mem_ids hn⟩)
  exact ⟨outside _ found.accessor.1 fun n call => call.outside.1, outside _ found.rotation fun n call => call.outside.2⟩

variable (stays : StaysFound ns root p v) (same : v.root = v.plan.replaced root)

include stays same

theorem find_again (pool : p.poolFunction.mark ∈ v.root.ids) (accessor : p.accessor.mark ∈ v.root.ids) :
    find ns v.root =
      .ok (some { p with names := of v.root, poolFunction := substitute (v.plan.literal root) p.poolFunction }) := by
  obtain ⟨names, poolFound, accessorFound, rotationFound⟩ := find_eq_some_iff.mp search
  obtain ⟨poolInside, holds, -⟩ := findPool?_eq_some poolFound
  rw [names] at poolFound accessorFound rotationFound
  have puts := Plan.literal_putsStrings tree calls
  obtain ⟨accessorWhole, rotationWhole⟩ := untouched_pieces tree search calls
  have left : ∀ n ∈ front (v.plan.literal root) root, (∀ callee args, n.form ≠ .call callee args) → n.mark ∈ v.root.ids :=
    fun n hn other => same ▸ Plan.left_of_front hn ((puts.subtree ((front_sublist root).subset hn)).kept other)
  have poolMark : (substitute (v.plan.literal root) p.poolFunction).mark = p.poolFunction.mark :=
    mark_substitute (kept_of_isFunctionDeclaration (puts.subtree poolInside) holds.declared)
  refine find_eq_some_iff.mpr ⟨rfl, ?_, ?_, ?_⟩
  · rw [same]
    refine findPool?_left tree calls poolFound (same ▸ pool) fun n hn declared => ?_
    refine stays.arrays n ((front_sublist root).subset hn) (left n hn fun callee args call => ?_) declared
    rw [isFunctionDeclaration, call] at declared
    cases declared
  · rw [same, poolMark]
    refine findAccessor_left tree calls accessorFound (same ▸ accessor) accessorWhole fun n hn caller k hk op e shifts => ?_
    refine stays.operands n ((front_sublist root).subset hn) (names ▸ caller) k ((front_sublist n).subset hk)
      (left k (front_trans hn hk) ?_) op e shifts
    obtain ⟨-, m, target, name, value, operand, rfl⟩ := shifts
    rintro _ _ ⟨⟩
  · rw [same]
    refine findRotation_left tree calls rotationFound (same ▸ stays.rotation) rotationWhole fun n hn function goal handed => ?_
    refine stays.targets n ((front_sublist root).subset hn) (left n hn ?_) function goal (names ▸ handed)
    obtain ⟨given, rest, invokes, -⟩ := handed
    obtain ⟨m, c, rfl⟩ := invocation?_eq_some invokes
    rintro _ _ ⟨⟩

theorem plan_again (function : Node) (before after : Pool) :
    ∃ plan, Pattern.plan ns v.root { p with names := of v.root, poolFunction := function } before after = .ok plan ∧
      plan.replacements = [] := by
  refine plan_of_dynamic fun n' hn' first' rest' call' => ?_
  rw [same] at hn' call'
  rw [Plan.walk_replaced] at hn'
  obtain ⟨n, hn, rfl⟩ := mem_map.mp hn'
  obtain ⟨left, args, call, args_eq⟩ := accessorCall?_of_left tree calls (isFound_of_find search).names hn call'
  obtain ⟨first, rest, rfl, rfl, -⟩ := map_eq_cons_iff.mp args_eq.symm
  exact stays.indices n ((front_sublist root).subset hn) (same ▸ left) first rest call

theorem simulate_again (function : Node) (turns : Pool) :
    simulate { p with names := of v.root, poolFunction := function } ns turns = p.simulate ns turns := by
  obtain ⟨names, -, -, rotationFound⟩ := find_eq_some_iff.mp search
  obtain ⟨inside, turner, given, goal, rest, invokes, -, -, checks⟩ := findRotation_eq_some rotationFound
  have left := stays.rotation
  rw [same] at left ⊢
  obtain ⟨rotationFront, -⟩ := Plan.front_of_left tree.distinct inside left
  have whole := (untouched_pieces tree search calls).2
  refine rotateUntil_names (fun n hn => ?_) _ _ _
  have below : n ∈ p.rotation.walk := by
    obtain ⟨m, c, form⟩ := invocation?_eq_some invokes
    rw [form]
    refine mem_walk_of_child m (mem_singleton_self _) (mem_walk_of_child c (.head _) ?_)
    exact walk_trans (mem_walk_of_checkOf? checks) hn
  rw [names]
  exact Plan.bindingOf_replaced tree calls (Plan.left_of_front (Untouched.mem_front rotationFront whole below) (whole n below))

end Again

/-- A pool that is found again is left as it is. -/
theorem recover_again (tree : root.IsFunctionTree) {p : Pattern} (search : find ns root = .ok (some p))
    (turned : p.simulate ns p.pool = (after, .ok v.rotations)) (planned : p.plan ns root p.pool after = .ok v.plan)
    (pieces : (v.root, v.removedAccessor, v.removedPool) = removePieces p (v.plan.replaced root))
    (stays : StaysFound ns root p v) (pool : p.poolFunction.mark ∈ v.root.ids) (accessor : p.accessor.mark ∈ v.root.ids) :
    ∃ w, v.root.recoverStrings ns = .ok (some w) ∧ w.plan.replacements = [] ∧
      (w.root, w.removedAccessor, w.removedPool) = (v.root, false, false) := by
  have found := isFound_of_find search
  have calls := planned_call planned
  have kept := nothing_removed tree found calls pieces pool accessor
  have same : v.root = v.plan.replaced root := (Prod.mk.inj (pieces.trans kept)).1
  have poolMark := mark_substitute (kept_of_isFunctionDeclaration
    ((Plan.literal_putsStrings tree calls).subtree found.pool.1) found.pool.2)
  have search₂ := find_again tree search calls stays same pool accessor
  have turned₂ := (simulate_again tree search calls stays same (substitute (v.plan.literal root) p.poolFunction) p.pool).trans turned
  obtain ⟨plan, planned₂, nothing⟩ := plan_again tree search calls stays same (substitute (v.plan.literal root) p.poolFunction) p.pool after
  obtain ⟨w, again, rfl, pieces₂⟩ := recoverStrings_of_steps search₂ turned₂ planned₂
  have identity : w.plan.replaced v.root = v.root := Untouched.substitute_eq fun n _ => by
    rw [← Option.not_isSome_iff_eq_none, Plan.literal_isSome, nothing]
    exact fun ⟨r, hr, _⟩ => nomatch hr
  refine ⟨w, again, nothing, ?_⟩
  rwa [identity, removePieces_of_mark poolMark, same, kept, ← same] at pieces₂

/-- Recovery is done once: on a settled result it succeeds again, and finds nothing to do. -/
theorem recovering_again_changes_nothing (ns : Namespace) (root : Node) (tree : root.IsFunctionTree) (first : Option Recovery)
    (succeeds : root.recoverStrings ns = .ok first)
    (settled : ∀ v ∈ first, ∀ p, find ns root = .ok (some p) → IsSettled ns root p v) :
    ∃ second, (result root first).recoverStrings ns = .ok second ∧ result (result root first) second = result root first ∧
      (second.isSome ↔ ∃ v ∈ first, ¬v.removedPool) ∧
      ∀ w ∈ second, w.plan.replacements = [] ∧ ¬w.removedAccessor ∧ ¬w.removedPool := by
  cases first with
  | none => exact ⟨none, succeeds, rfl, by simp, nofun⟩
  | some v =>
    obtain ⟨p, after, search, turned, planned, pieces⟩ := recoverStrings_steps succeeds
    have found := isFound_of_find search
    have calls := planned_call planned
    have removed := removedPool_iff tree found calls pieces
    have settles := settled v rfl p search
    by_cases pool : p.poolFunction.mark ∈ v.root.ids
    · have stays := settles.stays pool
      obtain ⟨w, again, nothing, same⟩ :=
        recover_again tree search turned planned pieces stays pool
          (accessor_of_rotation tree found calls pieces stays.rotation)
      obtain ⟨root₂, accessor₂, pool₂⟩ : w.root = v.root ∧ w.removedAccessor = false ∧ w.removedPool = false := by
        simpa only [Prod.mk.injEq] using same
      refine ⟨some w, again, root₂, ⟨fun _ => ⟨v, rfl, fun gone => removed.mp gone pool⟩, fun _ => rfl⟩, fun u hu => ?_⟩
      cases hu
      exact ⟨nothing, by rw [accessor₂]; exact Bool.false_ne_true, by rw [pool₂]; exact Bool.false_ne_true⟩
    · have gone : ∀ x, ¬HoldsAt v.root x := by
        intro x holds
        obtain ⟨n, hn, left, declared, params, k, hk, array⟩ := origin_of_holdsAt tree found calls pieces holds
        exact array (settles.gone pool n hn left declared params k hk)
      refine ⟨none, recoverStrings_of_none (find_eq_none gone), rfl, ⟨nofun, ?_⟩, nofun⟩
      rintro ⟨u, hu, stays⟩
      cases hu
      exact absurd (removed.mpr pool) stays

/-- A check for `StaysFound`: no call is replaced in a function that calls the pool or is called where it stands. -/
def looksFound (ns : Namespace) (root : Node) (p : Pattern) (v : Recovery) : Bool :=
  decide (p.rotation.mark ∈ v.root.ids) && root.walk.all fun n =>
    (!isFunctionDeclaration n || (ownNodes n).all fun k =>
      (stringArray? k).isSome || (stringArray? (substitute (v.plan.literal root) k)).isNone) &&
    (!(isFunctionDeclaration n && calls p.names p.poolBinding n || (invocation? n).isSome) ||
      decide (Untouched (v.plan.literal root) n)) &&
    (!decide (n.mark ∈ v.root.ids) || ((p.accessorCall? root n).bind List.head?).all fun first =>
      (static? ns (substitute (v.plan.literal root) first)).toOption.any Option.isNone)

theorem staysFound_of_looksFound (h : looksFound ns root p v) : StaysFound ns root p v := by
  obtain ⟨rotation, each⟩ := Bool.and_eq_true_iff.mp h
  have parts := fun n hn => Bool.and_eq_true_iff.mp (all_eq_true.mp each n hn)
  have whole : ∀ n ∈ root.walk, isFunctionDeclaration n && calls p.names p.poolBinding n || (invocation? n).isSome →
      Untouched (v.plan.literal root) n := by
    intro n hn seen
    have checked := (Bool.and_eq_true_iff.mp (parts n hn).1).2
    rw [seen] at checked
    exact of_decide_eq_true checked
  refine ⟨of_decide_eq_true rotation, fun n hn _ declared _ k hk before => ?_, fun n hn caller k hk _ op e shifts => ?_,
    fun n hn _ function goal handed => ?_, fun n hn left first rest call => ?_⟩
  · have checked := (Bool.and_eq_true_iff.mp (parts n hn).1).1
    rw [declared] at checked
    have array := all_eq_true.mp checked k hk
    rw [before] at array
    exact Option.isNone_iff_eq_none.mp array
  · have untouched := whole n hn (by rw [caller.declared, caller.calls]; rfl)
    exact congrArg _ (Untouched.substitute_eq fun j hj => untouched j (walk_trans hk (walk_trans shifts.mem_walk hj)))
  · obtain ⟨given, rest, invokes, -⟩ := handed
    have untouched := whole n hn (by rw [invokes]; exact Bool.or_true _)
    refine congrArg _ (Untouched.substitute_eq fun j hj => untouched j ?_)
    obtain ⟨m, c, rfl⟩ := invocation?_eq_some invokes
    exact mem_walk_of_child m (mem_singleton_self _) (mem_walk_of_child c (by simp [Form.children]) hj)
  · have checked := (parts n hn).2
    rw [decide_eq_true left, call] at checked
    change (static? ns (substitute (v.plan.literal root) first)).toOption.any Option.isNone = true at checked
    obtain ⟨index, static, unknown⟩ := exists_ok_of_any checked
    rw [static, Option.isNone_iff_eq_none.mp unknown]

/-- The inner call becomes a string; the index of the outer one is not known before and not after. -/
def nestedIndex : Text :=
  "function(x)\x7bfunction P()\x7bvar s=['a','b'];return s\x7dfunction A(n)\x7bn=n-0;return P()[n]\x7d" ++
    "(function()\x7bvar c=A(0)+''\x7d)(P,'a');return A(A(1)+x)\x7d"

theorem nestedIndex_recovers_once : ∃ shape v, parseFunction nestedIndex = .ok shape ∧ (shape.numberFrom 0).IsFunctionTree ∧
    Node.recoverStrings .standard (shape.numberFrom 0) = .ok (some v) ∧ v.plan.replacements ≠ [] ∧
    (∀ p, find .standard (shape.numberFrom 0) = .ok (some p) → IsSettled .standard (shape.numberFrom 0) p v) ∧
    ∃ w, v.root.recoverStrings .standard = .ok (some w) ∧ w.root = v.root := by
  have evaluated : (parseFunction nestedIndex).toOption.any fun shape =>
      (Node.recoverStrings .standard (shape.numberFrom 0)).toOption.any fun recovered => recovered.any fun v =>
        (!v.plan.replacements.isEmpty && !v.removedPool) &&
        (find .standard (shape.numberFrom 0)).toOption.any fun found => found.any fun p =>
          decide (p.poolFunction.mark ∈ v.root.ids) && looksFound .standard (shape.numberFrom 0) p v := by
    decide +kernel
  obtain ⟨shape, parsed, ran⟩ := exists_ok_of_any evaluated
  obtain ⟨v, succeeds, outcome⟩ := exists_some_of_any ran
  obtain ⟨flags, searched⟩ := Bool.and_eq_true_iff.mp outcome
  obtain ⟨planned, kept⟩ := Bool.and_eq_true_iff.mp flags
  obtain ⟨p, search, checked⟩ := exists_some_of_any searched
  obtain ⟨pool, looks⟩ := Bool.and_eq_true_iff.mp checked
  have tree := (Node.function_of_parsed parsed 0).1
  have settled : ∀ q, find .standard (shape.numberFrom 0) = .ok (some q) → IsSettled .standard (shape.numberFrom 0) q v := by
    intro q search'
    cases search.symm.trans search'
    exact ⟨fun gone => absurd (of_decide_eq_true pool) gone, fun _ => staysFound_of_looksFound looks⟩
  obtain ⟨second, again, same, finds, -⟩ := recovering_again_changes_nothing .standard _ tree (some v) succeeds fun u hu => by
    cases hu
    exact settled
  obtain ⟨w, rfl⟩ := Option.isSome_iff_exists.mp (finds.mpr ⟨v, rfl, by simpa using kept⟩)
  exact ⟨shape, v, parsed, tree, succeeds, by simpa using planned, settled, w, again, same⟩

/-- The pool function is kept for a call of its own, without an accessor. -/
def idlePool : Text :=
  "function(x)\x7bfunction P()\x7bvar s=['a','b'];return s\x7dfunction A(n)\x7bn=n-0;return P()[n]\x7dP();" ++
    "(function()\x7bvar c=A(0)+''\x7d)(P,'a');return A(1)\x7d"

theorem idlePool_fails_again : ∃ shape v, parseFunction idlePool = .ok shape ∧
    Node.recoverStrings .standard (shape.numberFrom 0) = .ok (some v) ∧
    v.root.recoverStrings .standard = .error (.noAccessor "P") := by
  have evaluated : (parseFunction idlePool).toOption.any fun shape =>
      (Node.recoverStrings .standard (shape.numberFrom 0)).toOption.any fun recovered => recovered.any fun v =>
        match v.root.recoverStrings .standard with
        | .error (.noAccessor name) => name == "P"
        | _ => false := by decide +kernel
  obtain ⟨shape, parsed, ran⟩ := exists_ok_of_any evaluated
  obtain ⟨v, succeeds, fails⟩ := exists_some_of_any ran
  refine ⟨shape, v, parsed, succeeds, ?_⟩
  split at fails
  next name error => rw [error, beq_iff_eq.mp fails]
  next => cases fails

end Recovery

end Unravel
