import Unravel.Pool.Recover
import Unravel.Proofs.Outcome
import Unravel.Proofs.Scope.Preservation

/-! What is known of the pieces of a pool that were found in a tree, and of the calls that are to be replaced. -/
namespace Unravel

open Resolution List

variable {pool : NodeId} {n t : Node} {args : List Node} {p : Pattern} {after before : Pool} {plan : Plan}

namespace Pattern

/-- The pieces of a pool as they stand in a tree. The rotation is handed the pool function. -/
structure IsFound (root : Node) (p : Pattern) : Prop where
  names : p.names = of root
  pool : p.poolFunction ∈ root.walk ∧ isFunctionDeclaration p.poolFunction
  poolBinding : (of root).bindingFor p.poolFunction.mark = some p.poolBinding
  accessor : p.accessor ∈ root.walk ∧ isFunctionDeclaration p.accessor
  accessorBinding : (of root).bindingFor p.accessor.mark = some p.accessorBinding
  rotation : p.rotation ∈ root.walk
  given : ∃ m c callee pool rest, p.rotation = .node m (.expressionStatement (.node c (.call callee (pool :: rest)))) ∧
    pool.form.isName ∧ (of root).bindingOf pool.mark = some p.poolBinding

section FindFirst

variable {α β γ δ : Type} {f : α → Outcome (Option β)} {g : α → Outcome (Option γ)}

theorem findFirst_eq_some {l : List α} {b : β}
    (h : findFirst f l = .ok (some b)) : ∃ a ∈ l, f a = .ok (some b) := by
  induction l with
  | nil => cases h
  | cons a rest ih =>
    rw [findFirst] at h
    cases first : f a with
    | error e => rw [first] at h; cases h
    | ok found =>
      rw [first] at h
      cases found with
      | none =>
        obtain ⟨c, hc, found⟩ := ih h
        exact ⟨c, .tail a hc, found⟩
      | some c =>
        cases h
        exact ⟨a, .head _, first⟩

theorem findFirst_eq_none_iff {l : List α} : findFirst f l = .ok none ↔ ∀ a ∈ l, f a = .ok none := by
  induction l with
  | nil => exact ⟨fun _ _ => nofun, fun _ => rfl⟩
  | cons a rest ih =>
    rw [forall_mem_cons, ← ih, findFirst]
    cases f a with
    | error e => exact ⟨nofun, nofun⟩
    | ok found =>
      cases found with
      | none => exact ⟨fun h => ⟨rfl, h⟩, fun h => h.2⟩
      | some b => exact ⟨nofun, nofun⟩

theorem findFirst_map (h : δ → α) (l : List δ) : findFirst f (l.map h) = findFirst (fun a => f (h a)) l := by
  induction l with
  | nil => rfl
  | cons a rest ih => rw [map_cons, findFirst, findFirst, ih]

theorem findFirst_pure (f : α → Option β) (l : List α) : findFirst (fun a => .ok (f a)) l = .ok (l.findSome? f) := by
  induction l with
  | nil => rfl
  | cons a rest ih =>
    rw [findFirst, findSome?_cons]
    cases f a with
    | none => exact ih
    | some b => rfl

/-- A search over what is left of a list finds what the search over the list found, if that is left and nothing new comes
before it. -/
theorem findFirst_of_sublist {l l' : List α} (sub : l'.Sublist l) (nodup : l.Nodup) {b : β} {c : γ}
    (found : findFirst f l = .ok (some b)) (hit : ∀ a ∈ l, f a = .ok (some b) → a ∈ l' ∧ g a = .ok (some c))
    (miss : ∀ a ∈ l', f a = .ok none → g a = .ok none) : findFirst g l' = .ok (some c) := by
  induction sub with
  | slnil => cases found
  | cons a sub ih =>
    obtain ⟨fresh, nodup⟩ := nodup_cons.mp nodup
    rw [findFirst] at found
    cases here : f a with
    | error e => rw [here] at found; cases found
    | ok result =>
      rw [here] at found
      cases result with
      | none =>
        refine ih nodup found (fun x hx hits => ?_) miss
        exact hit x (.tail a hx) hits
      | some b' =>
        cases found
        exact absurd (sub.subset (hit a (.head _) here).1) fresh
  | cons_cons a sub ih =>
    obtain ⟨fresh, nodup⟩ := nodup_cons.mp nodup
    rw [findFirst] at found
    cases here : f a with
    | error e => rw [here] at found; cases found
    | ok result =>
      rw [here] at found
      cases result with
      | none =>
        rw [findFirst, miss a (.head _) here]
        refine ih nodup found (fun x hx hits => ?_) fun x hx => miss x (.tail a hx)
        obtain ⟨left, result⟩ := hit x (.tail a hx) hits
        refine ⟨(mem_cons.mp left).resolve_left ?_, result⟩
        rintro rfl
        exact fresh hx
      | some b' =>
        cases found
        rw [findFirst, (hit a (.head _) here).2]
        rfl

end FindFirst

variable {ns : Namespace} {root : Node} {names : Resolution} {binding : BindingId} {n : Node}

/-- A function declaration without parameters that holds an array of strings. -/
structure HoldsStrings (n : Node) (strings : List Text) : Prop where
  declared : isFunctionDeclaration n
  params : n.params = []
  array : (ownNodes n).findSome? stringArray? = some strings

/-- What the search for the pool makes of a node. -/
def poolAt (names : Resolution) (n : Node) : Option (Node × BindingId × List Text) :=
  if isFunctionDeclaration n && n.params.isEmpty then do
    let strings ← (ownNodes n).findSome? stringArray?
    return (n, ← names.bindingFor n.mark, strings)
  else none

theorem findPool?_eq (root : Node) (names : Resolution) : findPool? root names = root.walk.findSome? (poolAt names) := rfl

theorem poolAt_eq_some_iff {pool : Node} {strings : List Text} : poolAt names n = some (pool, binding, strings) ↔
    n = pool ∧ HoldsStrings n strings ∧ names.bindingFor n.mark = some binding := by
  rw [poolAt]
  constructor
  · intro found
    split at found
    next declared =>
      obtain ⟨declared, params⟩ := Bool.and_eq_true_iff.mp declared
      simp only [Option.bind_eq_bind, Option.bind_eq_some_iff] at found
      obtain ⟨strings', array, b, known, same⟩ := found
      cases same
      exact ⟨rfl, ⟨declared, List.isEmpty_iff.mp params, array⟩, known⟩
    next => cases found
  · rintro ⟨rfl, holds, known⟩
    rw [if_pos (Bool.and_eq_true_iff.mpr ⟨holds.declared, List.isEmpty_iff.mpr holds.params⟩), holds.array, known]
    rfl

theorem findPool?_eq_some {pool : Node} {strings : List Text} (h : findPool? root names = some (pool, binding, strings)) :
    pool ∈ root.walk ∧ HoldsStrings pool strings ∧ names.bindingFor pool.mark = some binding := by
  obtain ⟨n, hn, found⟩ := exists_of_findSome?_eq_some h
  obtain ⟨rfl, holds, known⟩ := poolAt_eq_some_iff.mp found
  exact ⟨hn, holds, known⟩

/-- What the search for the accessor makes of a node. -/
def accessorAt (ns : Namespace) (names : Resolution) (pool : NodeId) (binding : BindingId) (n : Node) :
    Outcome (Option (Node × BindingId × BinaryOp × Double)) := do
  if !isFunctionDeclaration n || n.mark == pool || !calls names binding n then return none
  match ← findFirst (shift? ns) n.walk, names.bindingFor n.mark with
  | some (op, offset), some id => return some (n, id, op, offset)
  | _, _ => return none

theorem findAccessor_eq (ns : Namespace) (root : Node) (names : Resolution) (pool : NodeId) (binding : BindingId) :
    findAccessor ns root names pool binding = findFirst (accessorAt ns names pool binding) root.walk := rfl

/-- A function declaration that calls the pool function, which is another one. -/
structure IsCaller (names : Resolution) (pool : NodeId) (binding : BindingId) (n : Node) : Prop where
  declared : isFunctionDeclaration n
  other : n.mark ≠ pool
  calls : calls names binding n

theorem accessorAt_of_caller (h : IsCaller names pool binding n) :
    accessorAt ns names pool binding n = do
      match ← findFirst (shift? ns) n.walk, names.bindingFor n.mark with
      | some (op, offset), some id => return some (n, id, op, offset)
      | _, _ => return none := by
  rw [accessorAt, if_neg]
  simp [h.declared, h.other, h.calls]

theorem accessorAt_of_other (h : ¬IsCaller names pool binding n) : accessorAt ns names pool binding n = .ok none := by
  rw [accessorAt, if_pos]
  · rfl
  · by_contra other
    simp only [Bool.or_eq_true, not_or, Bool.not_eq_true', Bool.not_eq_false, beq_iff_eq] at other
    exact h ⟨other.1.1, other.1.2, other.2⟩

theorem accessorAt_eq_some_iff {accessor : Node} {id : BindingId} {op : BinaryOp} {offset : Double} :
    accessorAt ns names pool binding n = .ok (some (accessor, id, op, offset)) ↔ n = accessor ∧ IsCaller names pool binding n ∧
      findFirst (shift? ns) n.walk = .ok (some (op, offset)) ∧ names.bindingFor n.mark = some id := by
  by_cases caller : IsCaller names pool binding n
  · rw [accessorAt_of_caller caller, Outcome.bind_eq_ok]
    constructor
    · rintro ⟨found, search, result⟩
      split at result
      next op' offset' id' known =>
        cases result
        exact ⟨rfl, caller, search, known⟩
      next => cases result
    · rintro ⟨rfl, -, search, known⟩
      exact ⟨_, search, by rw [known]; rfl⟩
  · rw [accessorAt_of_other caller]
    exact ⟨nofun, fun h => absurd h.2.1 caller⟩

theorem accessorAt_eq_none_iff (known : isFunctionDeclaration n → ∃ id, names.bindingFor n.mark = some id) :
    accessorAt ns names pool binding n = .ok none ↔
      (IsCaller names pool binding n → ∀ k ∈ n.walk, shift? ns k = .ok none) := by
  by_cases caller : IsCaller names pool binding n
  · rw [accessorAt_of_caller caller, Outcome.bind_eq_ok, ← findFirst_eq_none_iff]
    obtain ⟨id, here⟩ := known caller.declared
    constructor
    · rintro ⟨found, search, result⟩ -
      rw [here] at result
      cases found with
      | none => exact search
      | some shift => cases result
    · intro search
      exact ⟨none, search caller, rfl⟩
  · rw [accessorAt_of_other caller]
    exact ⟨fun _ h => absurd h caller, fun _ => rfl⟩

theorem findAccessor_eq_some {accessor : Node} {id : BindingId} {op : BinaryOp} {offset : Double}
    (h : findAccessor ns root names pool binding = .ok (some (accessor, id, op, offset))) :
    accessor ∈ root.walk ∧ isFunctionDeclaration accessor ∧ names.bindingFor accessor.mark = some id := by
  obtain ⟨n, hn, found⟩ := findFirst_eq_some h
  obtain ⟨rfl, caller, -, known⟩ := accessorAt_eq_some_iff.mp found
  exact ⟨hn, caller.declared, known⟩

theorem invocation?_eq_some {callee : Node} (h : invocation? t = some (callee, args)) :
    ∃ m c, t = .node m (.expressionStatement (.node c (.call callee args))) := by
  obtain ⟨m, f⟩ := t
  rw [invocation?] at h
  split at h
  next e form =>
    obtain ⟨c, g⟩ := e
    cases form
    split at h
    next callee' args' form' =>
      cases form'
      split at h
      next => cases h; exact ⟨m, c, rfl⟩
      next => cases h
    next => cases h
  next => cases h

theorem isGiven_iff : isGiven names binding t ↔ t.form.isName ∧ names.bindingOf t.mark = some binding := by
  obtain ⟨m, f⟩ := t
  cases f <;> simp [isGiven, Form.isName]

/-- What the search for the rotation makes of a node. -/
def rotationAt (ns : Namespace) (names : Resolution) (binding : BindingId) (n : Node) : Outcome (Option (Node × Node × Value)) := do
  match invocation? n with
  | some (function, pool :: goal :: _) =>
    if !isGiven names binding pool then return none
    match ← static? ns goal, checkOf? function with
    | some target, some check => return some (n, check, target)
    | _, _ => return none
  | _ => return none

theorem findRotation_eq (ns : Namespace) (root : Node) (names : Resolution) (binding : BindingId) :
    findRotation ns root names binding = findFirst (rotationAt ns names binding) root.walk := rfl

/-- A function that is called where it stands, and handed the pool and a target. -/
def IsHanded (names : Resolution) (binding : BindingId) (n function goal : Node) : Prop :=
  ∃ given rest, invocation? n = some (function, given :: goal :: rest) ∧ isGiven names binding given

theorem rotationAt_of_handed {function goal : Node} (h : IsHanded names binding n function goal) :
    rotationAt ns names binding n = do
      match ← static? ns goal, checkOf? function with
      | some target, some check => return some (n, check, target)
      | _, _ => return none := by
  obtain ⟨given, rest, invokes, isGiven⟩ := h
  rw [rotationAt, invokes]
  simp only [isGiven]
  rfl

theorem rotationAt_of_other (h : ∀ function goal, ¬IsHanded names binding n function goal) :
    rotationAt ns names binding n = .ok none := by
  rw [rotationAt]
  split
  next function pool goal rest invokes =>
    rw [if_pos]
    · rfl
    · by_contra given
      rw [Bool.not_eq_true', Bool.not_eq_false] at given
      exact h function goal ⟨pool, rest, invokes, given⟩
  next => rfl

theorem rotationAt_eq_some_iff {rotation check : Node} {target : Value} :
    rotationAt ns names binding n = .ok (some (rotation, check, target)) ↔ n = rotation ∧
      ∃ function goal, IsHanded names binding n function goal ∧ static? ns goal = .ok (some target) ∧ checkOf? function = some check := by
  constructor
  · intro found
    by_cases handed : ∃ function goal, IsHanded names binding n function goal
    · obtain ⟨function, goal, handed⟩ := handed
      rw [rotationAt_of_handed handed] at found
      obtain ⟨aim, static, found⟩ := Outcome.bind_eq_ok.mp found
      split at found
      next target' check' checks =>
        cases found
        exact ⟨rfl, function, goal, handed, static, checks⟩
      next => cases found
    · rw [rotationAt_of_other fun function goal here => handed ⟨function, goal, here⟩] at found
      cases found
  · rintro ⟨rfl, function, goal, handed, static, checks⟩
    rw [rotationAt_of_handed handed, static, checks]
    rfl

theorem findRotation_eq_some {rotation check : Node} {target : Value}
    (h : findRotation ns root names binding = .ok (some (rotation, check, target))) :
    rotation ∈ root.walk ∧ ∃ function pool goal rest, invocation? rotation = some (function, pool :: goal :: rest) ∧
      isGiven names binding pool ∧ static? ns goal = .ok (some target) ∧ checkOf? function = some check := by
  obtain ⟨n, hn, found⟩ := findFirst_eq_some h
  obtain ⟨rfl, function, goal, ⟨given, rest, invokes, handed⟩, static, checks⟩ := rotationAt_eq_some_iff.mp found
  exact ⟨hn, function, given, goal, rest, invokes, handed, static, checks⟩

/-- The pieces of a pool are found one after the other. -/
theorem find_eq_some_iff : find ns root = .ok (some p) ↔ p.names = of root ∧
    findPool? root p.names = some (p.poolFunction, p.poolBinding, p.strings) ∧
    findAccessor ns root p.names p.poolFunction.mark p.poolBinding = .ok (some (p.accessor, p.accessorBinding, p.op, p.offset)) ∧
    findRotation ns root p.names p.poolBinding = .ok (some (p.rotation, p.check, p.target)) := by
  constructor
  · intro h
    rw [find] at h
    split at h
    next => cases h
    next pool binding strings found =>
      obtain ⟨accessor, found', h⟩ := Outcome.bind_eq_ok.mp h
      split at h
      next => cases h
      next accessor id op offset =>
        obtain ⟨rotation, found'', h⟩ := Outcome.bind_eq_ok.mp h
        split at h
        next => cases h
        next rotation check target =>
          cases h
          exact ⟨rfl, found, found', found''⟩
  · rintro ⟨names, pool, accessor, rotation⟩
    rw [find, ← names]
    rw [pool]
    exact Outcome.bind_eq_ok.mpr ⟨_, accessor, Outcome.bind_eq_ok.mpr ⟨_, rotation, rfl⟩⟩

theorem isFound_of_find (h : find ns root = .ok (some p)) : IsFound root p := by
  obtain ⟨names, pool, accessor, rotation⟩ := find_eq_some_iff.mp h
  rw [names] at pool accessor rotation
  obtain ⟨inside, holds, known⟩ := findPool?_eq_some pool
  obtain ⟨inside', declared', known'⟩ := findAccessor_eq_some accessor
  obtain ⟨inside'', function, handed, goal, rest, invokes, given, -⟩ := findRotation_eq_some rotation
  obtain ⟨m, c, same⟩ := invocation?_eq_some invokes
  exact ⟨names, ⟨inside, holds.declared⟩, known, ⟨inside', declared'⟩, known', inside'',
    m, c, function, handed, goal :: rest, same, isGiven_iff.mp given⟩

theorem calledBinding?_eq_some (h : calledBinding? names t = some binding) :
    ∃ callee args, t.form = .call callee args ∧ callee.form.isName ∧ names.bindingOf callee.mark = some binding := by
  rw [calledBinding?] at h
  split at h
  next callee args form =>
    split at h
    next x name => exact ⟨callee, args, form, by rw [name]; rfl, h⟩
    next => cases h
  next => cases h

/-- A call of the accessor outside the accessor and the rotation. -/
structure IsOutsideCall (root : Node) (p : Pattern) (n : Node) : Prop where
  inside : n ∈ root.walk
  call : ∃ callee args, n.form = .call callee args
  called : calledBinding? p.names n = some p.accessorBinding
  outside : ¬ Node.isWithin root n.mark p.accessor.mark ∧ ¬ Node.isWithin root n.mark p.rotation.mark

theorem accessorCall?_eq_some (hn : n ∈ root.walk)
    (h : p.accessorCall? root n = some args) : IsOutsideCall root p n := by
  rw [accessorCall?] at h
  split at h
  next callee args' form =>
    split at h
    next outside =>
      simp only [Bool.and_eq_true, Bool.not_eq_true', ← Bool.not_eq_true] at outside
      exact ⟨hn, ⟨callee, args', form⟩, beq_iff_eq.mp outside.1.1, outside.1.2, outside.2⟩
    next => cases h
  next => cases h

/-- A call whose index is known is replaced by the string that the pool holds there at that moment. -/
structure Replaces (ns : Namespace) (root : Node) (p : Pattern) (before after : Pool) (n : Node) (r : Replacement) : Prop where
  index : ∃ first rest, p.accessorCall? root n = some (first :: rest) ∧ static? ns first = .ok (some r.index)
  call : r.call = n.mark
  moment : r.isRotated = p.observesRotation root n.mark
  text : (if r.isRotated then after else before).resolve r.index = .ok r.text

theorem mem_planCall {plan' : Plan}
    (call : p.accessorCall? root n = some args) (h : p.planCall ns root before after plan n args = .ok plan') {r : Replacement} :
    r ∈ plan'.replacements ↔ r ∈ plan.replacements ∨ Replaces ns root p before after n r := by
  cases args with
  | nil =>
    cases h
    refine (or_iff_left fun replaces => ?_).symm
    obtain ⟨first, rest, call', -⟩ := replaces.index
    cases call.symm.trans call'
  | cons first rest =>
    obtain ⟨index, known, h⟩ := Outcome.bind_eq_ok.mp h
    cases index with
    | none =>
      cases h
      refine (or_iff_left fun replaces => ?_).symm
      obtain ⟨first', rest', call', known'⟩ := replaces.index
      cases call.symm.trans call'
      cases known.symm.trans known'
    | some index =>
      obtain ⟨text, found, h⟩ := Outcome.bind_eq_ok.mp h
      cases h
      rw [mem_append, mem_singleton]
      refine or_congr_right ⟨?_, fun replaces => ?_⟩
      · rintro rfl
        exact ⟨⟨first, rest, call, known⟩, rfl, rfl, found⟩
      · obtain ⟨⟨first', rest', call', known'⟩, mark, moment, found'⟩ := replaces
        obtain ⟨x, i, rotated, t⟩ := r
        cases call.symm.trans call'
        cases known.symm.trans known'
        cases mark
        cases moment
        cases found.symm.trans found'
        rfl

/-- Plans what becomes of one node. -/
def planNode (ns : Namespace) (root : Node) (p : Pattern) (before after : Pool) (plan : Plan) (n : Node) : Outcome Plan :=
  match p.accessorCall? root n with
  | some args => p.planCall ns root before after plan n args
  | none => pure plan

theorem plan_eq (ns : Namespace) (root : Node) (p : Pattern) (before after : Pool) :
    p.plan ns root before after = root.walk.foldlM (p.planNode ns root before after) {} := rfl

theorem mem_plan (h : p.plan ns root before after = .ok plan) {r : Replacement} :
    r ∈ plan.replacements ↔ ∃ n ∈ root.walk, Replaces ns root p before after n r := by
  suffices every : ∀ (l : List Node) (start : Plan), l.foldlM (p.planNode ns root before after) start = .ok plan →
      (r ∈ plan.replacements ↔ r ∈ start.replacements ∨ ∃ n ∈ l, Replaces ns root p before after n r) by
    rw [plan_eq] at h
    rw [every root.walk {} h]
    simp
  intro l
  induction l with
  | nil =>
    intro start h
    cases h
    simp
  | cons n l ih =>
    intro start h
    rw [foldlM_cons] at h
    obtain ⟨next, step, h⟩ := Outcome.bind_eq_ok.mp h
    have first : r ∈ next.replacements ↔ r ∈ start.replacements ∨ Replaces ns root p before after n r := by
      rw [planNode] at step
      split at step
      next args call => exact mem_planCall call step
      next other =>
        cases step
        refine (or_iff_left fun replaces => ?_).symm
        obtain ⟨first, rest, call, -⟩ := replaces.index
        cases other.symm.trans call
    rw [ih next h, first, or_assoc]
    simp only [mem_cons, exists_eq_or_imp]

theorem exists_replacement (h : p.plan ns root before after = .ok plan)
    (hn : n ∈ root.walk) {first : Node} {rest : List Node} (call : p.accessorCall? root n = some (first :: rest)) {index : Value}
    (known : static? ns first = .ok (some index)) : ∃ r, Replaces ns root p before after n r ∧ r.index = index := by
  obtain ⟨plan, plan', step⟩ := Outcome.exists_step_of_foldlM h hn
  rw [call] at step
  obtain ⟨index', known', step⟩ := Outcome.bind_eq_ok.mp step
  cases known.symm.trans known'
  obtain ⟨text, found, -⟩ := Outcome.bind_eq_ok.mp step
  exact ⟨⟨n.mark, index, _, text⟩, ⟨⟨first, rest, call, known⟩, rfl, rfl, found⟩, rfl⟩

/-- Every replacement of a plan is one of such a call. -/
abbrev RepliesOutside (root : Node) (p : Pattern) (plan : Plan) : Prop :=
  ∀ r ∈ plan.replacements, ∃ n, IsOutsideCall root p n ∧ n.mark = r.call

theorem planned_call (h : p.plan ns root before after = .ok plan) : RepliesOutside root p plan := by
  intro r hr
  obtain ⟨n, hn, ⟨first, rest, call, -⟩, mark, -, -⟩ := (mem_plan h).mp hr
  exact ⟨n, accessorCall?_eq_some hn call, mark.symm⟩

end Pattern

namespace Plan

/-- The string that takes the place of a call. -/
def literal (plan : Plan) (root n : Node) : Option Node :=
  ((plan.replacements.zipIdx root.nextId).find? fun (r, _) => r.call == n.mark).map fun (r, id) => .node id (.string r.text)

variable {plan : Plan} {root : Node}

theorem literal_eq_some {k : Node} (h : plan.literal root n = some k) :
    ∃ i r, plan.replacements[i]? = some r ∧ r.call = n.mark ∧ k = .node (root.nextId + i) (.string r.text) := by
  obtain ⟨⟨r, id⟩, found, rfl⟩ := Option.map_eq_some_iff.mp h
  have listed := mk_mem_zipIdx_iff_le_and_getElem?_sub.mp (mem_of_find?_eq_some found)
  refine ⟨id - root.nextId, r, listed.2, by simpa using find?_some found, ?_⟩
  rw [Nat.add_sub_cancel' listed.1]

theorem literal_isSome : (plan.literal root n).isSome ↔ ∃ r ∈ plan.replacements, r.call = n.mark := by
  rw [literal, Option.isSome_map, find?_isSome]
  constructor
  · rintro ⟨⟨r, id⟩, hr, same⟩
    exact ⟨r, fst_mem_of_mem_zipIdx hr, by simpa using same⟩
  · rintro ⟨r, hr, same⟩
    obtain ⟨i, hi, rfl⟩ := getElem_of_mem hr
    refine ⟨(plan.replacements[i], root.nextId + i), mk_mem_zipIdx_iff_le_and_getElem?_sub.mpr ?_, by simpa using same⟩
    simp

end Plan

end Unravel
