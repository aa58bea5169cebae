import Unravel.Proofs.Fold.Tame
import Unravel.Proofs.Pool.Pieces
import Unravel.Proofs.Syntax.Outline

/-! How the recovery of strings goes wrong: a piece of the pool is missing, the pool does not converge, or the evaluation
   of an offset, a target, a check or an index goes wrong. The pool is never empty, so that each index finds a string. -/
namespace Unravel

open Outcome

attribute [local simp] Form.places Place.free Place.fixed

theorem Tree.Grammatical.operand {α : Type} {t n : Tree α} (h : t.Grammatical) (hn : n ∈ t.walk) {p : Place (Tree α)}
    (hp : p ∈ n.form.places) (role : p.role = .expression) : p.tree.Grammatical ∧ p.tree.form.isExpression := by
  have admitted := h n hn p hp
  rw [role] at admitted
  exact ⟨h.subtree (walk_trans hn (child_mem_walk (place_mem_children hp))), admitted⟩

namespace Pool

theorem ends_indexOf (p : Pool) {index : Value} (modelled : index.isModelled) :
    (p.indexOf index).Ends (fun _ => True) fun f => f.category = .evaluation ∨ f = .moduloByZero ∧ p.strings = [] := by
  refine (Value.succeeds_toNumber modelled).ends.bind fun x _ => ?_
  have shifted := (Value.ends_binary p.op (l := .number x) (r := .number p.offset) rfl rfl)
  refine (shifted.widen fun _ => Or.inl).bind fun v hv => (Value.succeeds_toNumber hv).ends.bind fun y _ => ?_
  refine ends_ite (fun _ => Or.inl rfl) fun _ => ends_ite (fun empty => ?_) fun _ => True.intro
  exact Or.inr ⟨rfl, List.eq_nil_of_length_eq_zero empty⟩

theorem ends_resolve {p : Pool} (filled : p.strings ≠ []) {index : Value} (modelled : index.isModelled) :
    (p.resolve index).Ends (fun _ => True) fun f => f.category = .evaluation := by
  refine Ends.map (P := fun _ => True) ?_ fun _ _ => True.intro
  refine (p.ends_indexOf modelled).widen ?_
  rintro f (evaluation | ⟨-, empty⟩)
  · exact evaluation
  · exact absurd empty filled

end Pool

namespace Pattern

theorem ends_access (pool : Pool) {args : List Value} (modelled : ∀ a ∈ args, a.isModelled) :
    (access pool args).Ends (fun v => v.isModelled) fun f => Folder.isCallFailure f ∨ f.isOfEvaluation := by
  cases args with
  | nil => exact Or.inl rfl
  | cons index rest =>
    refine Ends.map (P := fun _ => True) (Ends.map (P := fun _ => True) ?_ fun _ _ => True.intro) fun _ _ => rfl
    refine (pool.ends_indexOf (modelled index (.head _))).widen ?_
    rintro f (evaluation | ⟨rfl, -⟩)
    · exact Or.inr (Fault.isOfEvaluation_of_category evaluation)
    · exact Or.inl rfl

theorem ends_findFirst {α β : Type} {f : α → Outcome (Option β)} {l : List α} {P : β → Prop} {E : Fault → Prop}
    (each : ∀ a ∈ l, (f a).Ends (fun o => ∀ b ∈ o, P b) E) : (findFirst f l).Ends (fun o => ∀ b ∈ o, P b) E := by
  induction l with
  | nil => exact nofun
  | cons a rest ih =>
    rw [findFirst]
    refine (each a (.head _)).bind fun found hfound => ?_
    cases found with
    | some b => exact hfound
    | none => exact ih fun c hc => each c (.tail a hc)

theorem stringArray?_ne_nil {t : Node} {strings : List Text} (h : stringArray? t = some strings) : strings ≠ [] := by
  rw [stringArray?] at h
  split at h
  next =>
    split at h
    next first rest _ =>
      rw [List.mapM_cons] at h
      simp only [Option.pure_def, Option.bind_eq_bind, Option.bind_eq_some_iff] at h
      obtain ⟨s, -, more, -, same⟩ := h
      cases same
      exact List.cons_ne_nil s more
    next => cases h
  next => cases h

theorem findPool?_ne_nil {root : Node} {names : Resolution} {pool : Node} {binding : BindingId} {strings : List Text}
    (h : findPool? root names = some (pool, binding, strings)) : strings ≠ [] := by
  obtain ⟨-, holds, -⟩ := findPool?_eq_some h
  obtain ⟨k, -, array⟩ := List.exists_of_findSome?_eq_some holds.array
  exact stringArray?_ne_nil array

theorem checkOf?_eq_some {function check : Node} (grammatical : function.Grammatical) (h : checkOf? function = some check) :
    check.Grammatical ∧ check.form.isExpression := by
  obtain ⟨⟨m, f⟩, hn, found⟩ := List.exists_of_findSome?_eq_some h
  have inside := mem_walk_of_ownNodes hn
  split at found
  next name init form =>
    cases form
    split at found
    next =>
      cases found
      exact grammatical.operand inside (p := ⟨.expression, false, false, check⟩) (by simp) rfl
    next => cases found
  next => cases found

section Search

variable {ns : Namespace} (closed : ns.IsClosed) {root : Node} (grammatical : root.Grammatical)

include closed

theorem ends_static {t : Node} (h : t.Grammatical ∧ t.form.isExpression) :
    (static? ns t).Ends (fun o => ∀ v ∈ o, v.isModelled) fun f => f.isOfEvaluation := by
  have value := Folder.ends_evaluate (Folder.tame_static closed) (Folder.shown_of_grammatical h.1 h.2)
  rw [static?, evaluateStatic]
  cases result : Folder.evaluate { ns := ns } t with
  | ok v =>
    intro w same
    cases same
    exact Value.buildable_iff.mp (value.of_ok result)
  | error f => exact ends_ite (fun _ => nofun) fun _ => value.of_error result

theorem ends_shift {t : Node} (h : t.Grammatical) : (shift? ns t).Ends (fun _ => True) fun f => f.isOfEvaluation := by
  obtain ⟨m, f⟩ := t
  rw [shift?]
  split
  next target op value form =>
    cases form
    obtain ⟨k, g⟩ := value
    split
    next name operator left right _ binary =>
      cases binary
      have inner : Tree.Grammatical (.node k (.binary operator left right)) :=
        (h.operand (self_mem_walk _) (p := ⟨.expression, true, false, _⟩) (by simp) rfl).1
      have operand := inner.operand (self_mem_walk _) (p := ⟨.expression, true, false, right⟩)
        (by simp) rfl
      split
      next other _ =>
        refine ends_ite (fun _ => (ends_static closed operand).bind fun found _ => ?_) fun _ => True.intro
        split
        · exact True.intro
        · exact True.intro
      next => exact True.intro
    next => exact True.intro
  next => exact True.intro

include grammatical

theorem ends_findAccessor (names : Resolution) (pool : NodeId) (binding : BindingId) :
    (findAccessor ns root names pool binding).Ends (fun _ => True) fun f => f.isOfEvaluation := by
  have each : ∀ n ∈ root.walk, (findFirst (shift? ns) n.walk).Ends (fun _ => True) fun f => f.isOfEvaluation := by
    intro n hn
    have found := ends_findFirst (P := fun _ => True) fun k hk =>
      (ends_shift closed (grammatical.subtree (walk_trans hn hk))).imp fun o _ b _ => True.intro
    exact found.imp fun _ _ => True.intro
  refine (ends_findFirst (P := fun _ => True) fun n hn => ?_).imp fun _ _ => True.intro
  refine ends_ite (fun _ => nofun) fun _ => (each n hn).bind fun shift _ => ?_
  split
  · exact fun _ _ => True.intro
  · exact nofun

theorem ends_findRotation (names : Resolution) (binding : BindingId) :
    (findRotation ns root names binding).Ends
      (fun o => ∀ r ∈ o, (r.2.1.Grammatical ∧ r.2.1.form.isExpression) ∧ r.2.2.isModelled) fun f => f.isOfEvaluation := by
  refine ends_findFirst fun n hn => ?_
  split
  next function pool goal rest invokes =>
    refine ends_ite (fun _ => nofun) fun _ => ?_
    obtain ⟨m, c, rfl⟩ := invocation?_eq_some invokes
    have call : (.node c (.call function (pool :: goal :: rest)) : Node) ∈ root.walk :=
      walk_trans hn (child_mem_walk (List.mem_singleton_self _))
    have aim := grammatical.operand call (p := ⟨.expression, false, false, goal⟩)
      (by simp) rfl
    have called := grammatical.operand call (p := ⟨.expression, true, false, function⟩)
      (by simp) rfl
    refine (ends_static closed aim).bind fun target modelled => ?_
    split
    next target check found =>
      intro r same
      cases same
      exact ⟨checkOf?_eq_some called.1 found, modelled target rfl⟩
    next => exact nofun
  next => exact nofun

/-- What the rest of the recovery needs of the pieces. -/
structure IsUsable (p : Pattern) : Prop where
  filled : p.strings ≠ []
  check : p.check.Grammatical ∧ p.check.form.isExpression
  target : p.target.isModelled

theorem ends_find :
    (find ns root).Ends (fun o => ∀ p ∈ o, IsUsable p) fun f => f.category = .pool ∨ f.isOfEvaluation := by
  rw [find]
  split
  next => rintro p ⟨⟩
  next pool binding strings found =>
    refine ((ends_findAccessor closed grammatical _ _ _).widen fun _ => Or.inr).bind fun accessor _ => ?_
    split
    next => exact Or.inl rfl
    next accessor id op offset =>
      refine ((ends_findRotation closed grammatical _ _).widen fun _ => Or.inr).bind fun rotation rotates => ?_
      split
      next => exact Or.inl rfl
      next rotation check target =>
        intro p same
        cases same
        obtain ⟨checks, modelled⟩ := rotates _ rfl
        exact ⟨findPool?_ne_nil found, checks, modelled⟩

end Search

section Recovery

variable {ns : Namespace} (closed : ns.IsClosed) {p : Pattern}

include closed

theorem ends_isMatch (usable : p.IsUsable) (pool : Pool) : (p.isMatch ns pool).Ends (fun _ => True) fun f => f.isOfEvaluation := by
  have tame : ({ Folder.of ns p.names with resolvers := [(p.accessorBinding, access pool)] } : Folder).Tame
      fun f => f.isOfEvaluation := by
    refine Folder.tame_of_closed closed nofun fun e he args modelled => ?_
    cases List.mem_singleton.mp he
    exact ends_access pool modelled
  have compared : (do (← Folder.evaluate { Folder.of ns p.names with resolvers := [(p.accessorBinding, access pool)] }
      p.check).strictEquals p.target : Outcome Bool).Ends (fun _ => True) fun f => f.isOfEvaluation := by
    refine (Folder.ends_evaluate tame (Folder.shown_of_grammatical usable.check.1 usable.check.2)).bind fun v hv => ?_
    exact (Value.ends_strictEquals (Value.buildable_iff.mp hv) usable.target).widen
      fun _ => Fault.isOfEvaluation_of_category
  rw [isMatch]
  dsimp only
  split
  next => exact True.intro
  next f failed => exact ends_ite (fun _ => True.intro) fun _ => compared.of_error failed

theorem ends_rotateUntil (usable : p.IsUsable) (left done : Nat) (pool : Pool) (filled : pool.strings ≠ []) :
    (p.rotateUntil ns left done pool).1.strings = pool.strings ∧
      (p.rotateUntil ns left done pool).2.Ends (fun _ => True) fun f => f.category = .pool ∨ f.isOfEvaluation := by
  induction left generalizing done pool with
  | zero => exact ⟨rfl, (usable.check.1.renders usable.check.2).ends.bind fun _ _ => Or.inl rfl⟩
  | succ left ih =>
    have compared := ends_isMatch closed usable pool
    rw [rotateUntil]
    split
    next f failed => exact ⟨rfl, Or.inr (compared.of_error failed)⟩
    next => exact ⟨rfl, True.intro⟩
    next =>
      have turns : pool.rotate = .ok { pool with rotation := (pool.rotation + 1) % pool.length } :=
        if_neg (by simpa [Pool.length] using filled)
      rw [turns]
      exact ih (done + 1) _ filled

theorem ends_planCall {root n : Node} (grammatical : root.Grammatical) (hn : n ∈ root.walk) {args : List Node}
    (call : p.accessorCall? root n = some args) {before after : Pool} (first : before.strings ≠ [])
    (second : after.strings ≠ []) (plan : Plan) :
    (p.planCall ns root before after plan n args).Ends (fun _ => True) fun f => f.isOfEvaluation := by
  have form : ∃ callee, n.form = .call callee args := by
    rw [accessorCall?] at call
    split at call
    next callee args' form =>
      split at call
      next => cases call; exact ⟨callee, form⟩
      next => cases call
    next => cases call
  obtain ⟨callee, form⟩ := form
  unfold planCall
  cases args with
  | nil => exact True.intro
  | cons index rest =>
    have operand := grammatical.operand hn (p := ⟨.expression, false, false, index⟩)
      (by simp [form]) rfl
    refine (ends_static closed operand).bind fun found modelled => ?_
    cases found with
    | none => exact True.intro
    | some index =>
      have resolved : ((if p.observesRotation root n.mark then after else before).resolve index).Ends (fun _ => True)
          fun f => f.isOfEvaluation := by
        refine (Pool.ends_resolve ?_ (modelled index rfl)).widen fun _ => Fault.isOfEvaluation_of_category
        split
        · exact second
        · exact first
      exact resolved.bind fun _ _ => True.intro

end Recovery

end Pattern

theorem Node.ends_recoverStrings {ns : Namespace} (closed : ns.IsClosed) {root : Node} (grammatical : root.Grammatical) :
    (root.recoverStrings ns).Ends (fun _ => True) fun f => f.category = .pool ∨ f.isOfEvaluation := by
  refine (Pattern.ends_find closed grammatical).bind fun found usable => ?_
  cases found with
  | none => exact True.intro
  | some p =>
    have usable := usable p rfl
    obtain ⟨same, rotated⟩ := Pattern.ends_rotateUntil closed usable p.pool.length 0 p.pool usable.filled
    refine rotated.bind fun rotations _ => Ends.bind (P := fun _ => True) ?_ fun _ _ => True.intro
    refine ends_foldlM True.intro fun n hn plan _ => ?_
    split
    next args call =>
      refine (Pattern.ends_planCall closed grammatical hn call usable.filled ?_ plan).widen fun _ => Or.inr
      exact fun empty => usable.filled (same.symm.trans empty)
    next => exact True.intro

end Unravel
