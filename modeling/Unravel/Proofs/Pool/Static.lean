import Unravel.Proofs.Fold.Consulted
import Unravel.Proofs.Pool.Moment
import Unravel.Proofs.Pool.Replaced

/-! What a pool is recovered from has to be known without running anything. Local names are not: where evaluation asks for one,
   no piece is found, and the call of an accessor stays and is counted. The scopes themselves are not looked at, and so
   this holds only of names that the namespace does not have. -/
namespace Unravel

open Outcome Resolution

namespace Pattern

variable {ns : Namespace} {root : Node}

/-- Evaluation asks for a local name that no path of the namespace begins with. -/
def MeetsLocal (ns : Namespace) (root e : Node) : Prop :=
  ∃ n ∈ Folder.consulted ns e, ((of root).bindingOf n.mark).isSome ∧ n.name.firstName ∉ ns.roots

instance (ns : Namespace) (root e : Node) : Decidable (MeetsLocal ns root e) :=
  inferInstanceAs (Decidable (∃ n ∈ Folder.consulted ns e, ((of root).bindingOf n.mark).isSome ∧ n.name.firstName ∉ ns.roots))

theorem MeetsLocal.not_static {e : Node} (h : MeetsLocal ns root e) (v : Value) : static? ns e ≠ .ok (some v) := by
  obtain ⟨n, hn, -, foreign⟩ := h
  exact fun static => foreign (Folder.firstName_of_consulted (static?_eq_some.mp static) hn)

theorem MeetsLocal.not_shift {op : BinaryOp} {operand t : Node} (h : MeetsLocal ns root operand) (shifts : Shifts op operand t)
    (found : BinaryOp × Double) : shift? ns t ≠ .ok (some found) := by
  rw [shift?_of_shifts shifts]
  intro result
  obtain ⟨value, static, result⟩ := bind_eq_ok.mp result
  cases value with
  | none => cases result
  | some v => exact h.not_static v static

theorem MeetsLocal.not_rotation {names : Resolution} {binding : BindingId} {n function goal : Node} (h : MeetsLocal ns root goal)
    (handed : IsHanded names binding n function goal) (check : Node) (target : Value) :
    findRotation ns root names binding ≠ .ok (some (n, check, target)) := by
  intro search
  obtain ⟨-, function', pool, goal', rest, invokes, -, static, -⟩ := findRotation_eq_some search
  obtain ⟨given, others, invokes', -⟩ := handed
  cases invokes'.symm.trans invokes
  exact h.not_static target static

/-- A call of the accessor without a known index. -/
def isDynamicCall (ns : Namespace) (root : Node) (p : Pattern) (n : Node) : Bool :=
  (p.accessorCall? root n).any fun args => args.head?.all fun index => (evaluateStatic ns index).toOption.isNone

section Count

variable {p : Pattern} {before after : Pool}

theorem dynamicCalls_planCall {plan plan' : Plan} {n : Node} {args : List Node} (call : p.accessorCall? root n = some args)
    (h : p.planCall ns root before after plan n args = .ok plan') :
    plan'.dynamicCalls = plan.dynamicCalls + if p.isDynamicCall ns root n then 1 else 0 := by
  rw [isDynamicCall, call]
  cases args with
  | nil =>
    cases h
    rfl
  | cons index rest =>
    obtain ⟨value, static, h⟩ := bind_eq_ok.mp h
    change _ = _ + if (evaluateStatic ns index).toOption.isNone then 1 else 0
    rw [static?] at static
    cases known : evaluateStatic ns index with
    | ok v =>
      rw [known] at static
      cases static
      obtain ⟨text, -, h⟩ := bind_eq_ok.mp h
      cases h
      rfl
    | error f =>
      rw [known] at static
      dsimp only at static
      split at static
      next =>
        cases static
        cases h
        rfl
      next => cases static

theorem dynamicCalls_plan {plan : Plan} (h : p.plan ns root before after = .ok plan) :
    plan.dynamicCalls = root.walk.countP (p.isDynamicCall ns root) := by
  rw [plan_eq] at h
  suffices every : ∀ (l : List Node) (start : Plan), l.foldlM (p.planNode ns root before after) start = .ok plan →
      plan.dynamicCalls = start.dynamicCalls + l.countP (p.isDynamicCall ns root) by
    simpa using every root.walk {} h
  intro l
  induction l with
  | nil =>
    intro start h
    cases h
    rfl
  | cons n l ih =>
    intro start h
    rw [List.foldlM_cons] at h
    obtain ⟨next, step, h⟩ := bind_eq_ok.mp h
    have first : next.dynamicCalls = start.dynamicCalls + if p.isDynamicCall ns root n then 1 else 0 := by
      rw [planNode] at step
      split at step
      next args call => exact dynamicCalls_planCall call step
      next other =>
        cases step
        rw [isDynamicCall, other]
        rfl
    rw [ih next h, first, List.countP_cons]
    omega

theorem literal_of_dynamic (distinct : root.Distinct) {plan : Plan} (planned : p.plan ns root before after = .ok plan) {c : Node}
    (hc : c ∈ root.walk) (dynamic : p.isDynamicCall ns root c) : plan.literal root c = none := by
  rw [← Option.not_isSome_iff_eq_none, Plan.literal_isSome]
  rintro ⟨r, hr, mark⟩
  obtain ⟨n, hn, ⟨index, rest, call, static⟩, mark', -, -⟩ := (mem_plan planned).mp hr
  cases distinct.same_node hn hc (mark'.symm.trans mark)
  rw [isDynamicCall, call] at dynamic
  change (evaluateStatic ns index).toOption.isNone at dynamic
  rw [static?_eq_some.mp static] at dynamic
  cases dynamic

theorem MeetsLocal.dynamic {c index : Node} {rest : List Node} (h : MeetsLocal ns root index)
    (call : p.accessorCall? root c = some (index :: rest)) : p.isDynamicCall ns root c := by
  rw [isDynamicCall, call]
  change (evaluateStatic ns index).toOption.isNone
  cases known : evaluateStatic ns index with
  | ok v => exact absurd (static?_eq_some.mpr known) (h.not_static v)
  | error f => rfl

end Count

/-- Static values are those that evaluation with scopes finds too, unless it meets a local name on the way. A local name that
the namespace does not have makes a value unknown: such an offset or target is no piece of a pool, and a call with such an
index stays and is counted. -/
theorem local_names_are_not_static (ns : Namespace) (root : Node) (tree : root.IsFunctionTree) :
    (∀ e v, (Folder.of ns (of root)).evaluate e = .ok v ↔
      static? ns e = .ok (some v) ∧ ∀ n ∈ Folder.consulted ns e, (of root).bindingOf n.mark = none) ∧
    (∀ op operand t, Shifts op operand t → MeetsLocal ns root operand → ∀ found, shift? ns t ≠ .ok (some found)) ∧
    (∀ binding n function goal, IsHanded (of root) binding n function goal → MeetsLocal ns root goal →
      ∀ check target, findRotation ns root (of root) binding ≠ .ok (some (n, check, target))) ∧
    ∀ v, root.recoverStrings ns = .ok (some v) → ∃ p, find ns root = .ok (some p) ∧
      (v.root, v.removedAccessor, v.removedPool) = Recovery.removePieces p (Node.substitute (v.plan.literal root) root) ∧
      v.plan.dynamicCalls = root.walk.countP (p.isDynamicCall ns root) ∧
      (∀ c ∈ root.walk, p.isDynamicCall ns root c → v.plan.literal root c = none) ∧
      ∀ c index rest, p.accessorCall? root c = some (index :: rest) → MeetsLocal ns root index → p.isDynamicCall ns root c := by
  refine ⟨fun e v => ?_, fun op operand t shifts meets => meets.not_shift shifts,
    fun binding n function goal handed meets => meets.not_rotation handed, fun v recovered => ?_⟩
  · rw [static?_eq_some]
    exact Folder.evaluate_iff_unbound _
  · obtain ⟨p, after, search, -, planned, result⟩ := Recovery.recoverStrings_steps recovered
    refine ⟨p, search, result, dynamicCalls_plan planned, fun c hc => ?_, fun c index rest call meets => meets.dynamic call⟩
    exact literal_of_dynamic tree.distinct planned hc

/-- A pool with two indexes that mention a parameter. Evaluation gets to it in one of them. -/
def lazyIndexes : Text :=
  "function(x)\x7bfunction P()\x7bvar s=['a','b'];return s\x7dfunction A(n)\x7bn=n-0;return P()[n]\x7d" ++
    "(function()\x7bvar c=A(0)+''\x7d)(P,'a');return [A(0||x),A(1||x),0]\x7d"

theorem lazyIndexes_stay : ∃ shape v p c index rest, parseFunction lazyIndexes = .ok shape ∧
    (shape.numberFrom 0).IsFunctionTree ∧ Node.recoverStrings .standard (shape.numberFrom 0) = .ok (some v) ∧
    find .standard (shape.numberFrom 0) = .ok (some p) ∧ c ∈ (shape.numberFrom 0).walk ∧
    p.accessorCall? (shape.numberFrom 0) c = some (index :: rest) ∧ MeetsLocal .standard (shape.numberFrom 0) index ∧
    v.plan.literal (shape.numberFrom 0) c = none ∧ v.plan.dynamicCalls = 1 ∧ v.plan.replacements.length = 1 := by
  have evaluated : (parseFunction lazyIndexes).toOption.any fun shape =>
      (Node.recoverStrings .standard (shape.numberFrom 0)).toOption.any fun recovered => recovered.any fun v =>
        v.plan.dynamicCalls == 1 && v.plan.replacements.length == 1 &&
          (find .standard (shape.numberFrom 0)).toOption.any fun found => found.any fun p => (shape.numberFrom 0).walk.any fun c =>
            (p.accessorCall? (shape.numberFrom 0) c).any fun args => args.head?.any fun index =>
              decide (MeetsLocal .standard (shape.numberFrom 0) index) := by
    decide +kernel
  obtain ⟨shape, parsed, evaluated⟩ := exists_ok_of_any evaluated
  obtain ⟨v, recovers, evaluated⟩ := exists_some_of_any evaluated
  obtain ⟨counts, evaluated⟩ := Bool.and_eq_true_iff.mp evaluated
  obtain ⟨counted, replaced⟩ := Bool.and_eq_true_iff.mp counts
  have tree := (Node.function_of_parsed parsed 0).1
  obtain ⟨p, search, -, -, stays, each⟩ := (local_names_are_not_static .standard _ tree).2.2.2 v recovers
  obtain ⟨found, search', evaluated⟩ := exists_ok_of_any evaluated
  cases search.symm.trans search'
  obtain ⟨c, hc, evaluated⟩ := List.any_eq_true.mp evaluated
  obtain ⟨args, call, evaluated⟩ := (Option.any_eq_true _ _).mp evaluated
  obtain ⟨index, head, meets⟩ := (Option.any_eq_true _ _).mp evaluated
  obtain ⟨rest, rfl⟩ := List.head?_eq_some_iff.mp head
  have meets := of_decide_eq_true meets
  exact ⟨shape, v, p, c, index, rest, parsed, tree, recovers, search, hc, call, meets, stays c hc (each c index rest call meets),
    beq_iff_eq.mp counted, beq_iff_eq.mp replaced⟩

/-- A pool with an index that calls a local variable, which is called like a function of the namespace. -/
def shadowedIndex : Text :=
  "function(x)\x7bfunction P()\x7bvar s=['a','b'];return s\x7dfunction A(n)\x7bn=n-0;return P()[n]\x7d" ++
    "(function()\x7bvar c=A(0)+''\x7d)(P,'a');var parseInt=x;return A(parseInt('1'))\x7d"

/-- The index depends on a local variable, and yet the call becomes a string. -/
theorem shadowedIndex_is_replaced : ∃ shape v p c index rest n, parseFunction shadowedIndex = .ok shape ∧
    Node.recoverStrings .standard (shape.numberFrom 0) = .ok (some v) ∧ find .standard (shape.numberFrom 0) = .ok (some p) ∧
    c ∈ (shape.numberFrom 0).walk ∧ p.accessorCall? (shape.numberFrom 0) c = some (index :: rest) ∧
    n ∈ Folder.consulted .standard index ∧ n.name = "parseInt" ∧ ((of (shape.numberFrom 0)).bindingOf n.mark).isSome ∧
    (∃ id, v.plan.literal (shape.numberFrom 0) c = some (.node id (.string "b"))) ∧ v.plan.dynamicCalls = 0 := by
  have evaluated : (parseFunction shadowedIndex).toOption.any fun shape =>
      (Node.recoverStrings .standard (shape.numberFrom 0)).toOption.any fun recovered => recovered.any fun v =>
        (find .standard (shape.numberFrom 0)).toOption.any fun found => found.any fun p =>
          v.plan.dynamicCalls == 0 && (shape.numberFrom 0).walk.any fun c =>
            ((p.accessorCall? (shape.numberFrom 0) c).any fun args => args.head?.any fun index =>
              (Folder.consulted .standard index).any fun n =>
                decide (n.name = Text.ofString "parseInt") && ((of (shape.numberFrom 0)).bindingOf n.mark).isSome) &&
              (v.plan.literal (shape.numberFrom 0) c).any fun k => decide (stringOf? k = some (Text.ofString "b")) := by
    decide +kernel
  obtain ⟨shape, parsed, evaluated⟩ := exists_ok_of_any evaluated
  obtain ⟨v, recovers, evaluated⟩ := exists_some_of_any evaluated
  obtain ⟨p, search, evaluated⟩ := exists_some_of_any evaluated
  obtain ⟨counted, evaluated⟩ := Bool.and_eq_true_iff.mp evaluated
  obtain ⟨c, hc, evaluated⟩ := List.any_eq_true.mp evaluated
  simp only [Bool.and_eq_true, Option.any_eq_true, List.any_eq_true] at evaluated
  obtain ⟨⟨args, call, index, head, n, hn, name, bound⟩, k, literal, text⟩ := evaluated
  obtain ⟨rest, rfl⟩ := List.head?_eq_some_iff.mp head
  obtain ⟨i, r, -, -, rfl⟩ := Plan.literal_eq_some literal
  rw [show r.text = "b" from Option.some.inj (of_decide_eq_true text)] at literal
  exact ⟨shape, v, p, c, index, rest, n, parsed, recovers, search, hc, call, hn, of_decide_eq_true name, bound, ⟨_, literal⟩,
    beq_iff_eq.mp counted⟩

end Pattern

end Unravel
