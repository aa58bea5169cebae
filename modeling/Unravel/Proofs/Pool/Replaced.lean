import Unravel.Proofs.Pool.Dangling
import Unravel.Proofs.Syntax.Outline

/-! What the searches for the pieces of a pool see once calls in a tree have become strings. A string is no name, no function
   and no statement, so that whatever is left is found as before; but a string can complete an array, or make an operand known
   that was not. -/
namespace Unravel

open Resolution List

variable {callee n operand : Node} {m : NodeId} {f : Form Node} {strings : List Text} {op : BinaryOp} {ns : Namespace}
  {args : List Node} {binding : BindingId}

namespace Pattern

section Strings

open Node

variable {new : Node → Option Node} {t : Node}

/-- Calls of names are exchanged for strings. -/
def PutsStrings (new : Node → Option Node) (t : Node) : Prop :=
  ∀ n ∈ t.walk, ∀ k, new n = some k →
    (∃ callee args, n.form = .call callee args ∧ callee.form.isName) ∧ ∃ id s, k = .node id (.string s)

theorem PutsStrings.subtree (h : PutsStrings new t) (hn : n ∈ t.walk) : PutsStrings new n :=
  fun k hk => h k (walk_trans hn hk)

theorem PutsStrings.child (h : PutsStrings new (.node m f)) {c : Node} (hc : c ∈ f.children) :
    PutsStrings new c := h.subtree (mem_walk_of_child m hc (self_mem_walk c))

theorem PutsStrings.cases (h : PutsStrings new (.node m f)) :
    (new (.node m f) = none ∧ substitute new (.node m f) = .node m (f.map (substitute new))) ∨
      ∃ callee args id s, f = .call callee args ∧ callee.form.isName ∧ new (.node m f) = some (.node id (.string s)) ∧
        substitute new (.node m f) = .node id (.string s) := by
  cases replaced : new (.node m f) with
  | none => exact .inl ⟨rfl, substitute_of_none replaced⟩
  | some k =>
    obtain ⟨⟨callee, args, call, name⟩, id, s, rfl⟩ := h _ (self_mem_walk _) k replaced
    exact .inr ⟨callee, args, id, s, call, name, rfl, substitute_of_some replaced⟩

theorem PutsStrings.of_eq (h : PutsStrings new t) {g : Form Node} (same : substitute new t = .node m g)
    (other : ∀ s, g ≠ .string s) : ∃ f, t = .node m f ∧ new t = none ∧ f.map (substitute new) = g := by
  obtain ⟨k, f⟩ := t
  rcases h.cases with ⟨kept, here⟩ | ⟨callee, args, id, s, rfl, -, -, here⟩
  · cases here.symm.trans same
    exact ⟨f, rfl, kept, rfl⟩
  · cases here.symm.trans same
    exact absurd rfl (other s)

theorem PutsStrings.of_eq_identifier (h : PutsStrings new t) {x : Text}
    (same : substitute new t = .node m (.identifier x)) : t = .node m (.identifier x) := by
  obtain ⟨f, rfl, -, form⟩ := h.of_eq same nofun
  cases f <;> cases form
  rfl

theorem PutsStrings.kept (h : PutsStrings new t) (other : ∀ callee args, t.form ≠ .call callee args) : new t = none := by
  obtain ⟨m, f⟩ := t
  rcases h.cases with ⟨kept, -⟩ | ⟨callee, args, _, _, call, -⟩
  · exact kept
  · exact absurd call (other callee args)

theorem isName_substitute (h : PutsStrings new t) : (substitute new t).form.isName = t.form.isName := by
  obtain ⟨m, f⟩ := t
  rcases h.cases with ⟨-, same⟩ | ⟨callee, args, id, s, rfl, -, -, same⟩
  · rw [same]
    cases f <;> rfl
  · rw [same]
    rfl

theorem substitute_of_isName (h : PutsStrings new t) (name : t.form.isName) : substitute new t = t := by
  obtain ⟨m, x, rfl⟩ := form_of_isName name
  rcases h.cases with ⟨-, same⟩ | ⟨callee, args, id, s, call, -⟩
  · exact same
  · cases call

theorem isFunctionDeclaration_substitute (h : PutsStrings new t) :
    isFunctionDeclaration (substitute new t) = isFunctionDeclaration t := by
  obtain ⟨m, f⟩ := t
  rcases h.cases with ⟨-, same⟩ | ⟨callee, args, id, s, rfl, -, -, same⟩
  · rw [same]
    cases f <;> rfl
  · rw [same]
    rfl

theorem kept_of_isFunctionDeclaration (h : PutsStrings new t) (declared : isFunctionDeclaration t) : new t = none := by
  refine h.kept fun callee args call => ?_
  rw [isFunctionDeclaration, call] at declared
  cases declared

theorem params_substitute (h : PutsStrings new t) : Tree.params (substitute new t) = t.params.map (substitute new) := by
  obtain ⟨m, f⟩ := t
  rcases h.cases with ⟨-, same⟩ | ⟨callee, args, id, s, rfl, -, -, same⟩
  · rw [same]
    cases f <;> rfl
  · rw [same]
    rfl

theorem mem_ownTree_substitute (h : PutsStrings new t) (hn : n ∈ ownTree (substitute new t)) :
    ∃ k ∈ ownTree t, n = substitute new k := by
  induction t with
  | node m f ih =>
    rcases h.cases with ⟨-, same⟩ | ⟨callee, args, id, s, rfl, -, -, same⟩
    · rw [same] at hn
      rcases mem_ownTree_node.mp hn with rfl | ⟨plain, d, hd, hn⟩
      · exact ⟨_, self_mem_ownTree _, same.symm⟩
      · rw [children_map] at hd
        obtain ⟨c, hc, rfl⟩ := mem_map.mp hd
        obtain ⟨k, hk, origin⟩ := ih c hc (h.child hc) hn
        rw [isFunction_map] at plain
        exact ⟨k, mem_ownTree_node.mpr (.inr ⟨plain, c, hc, hk⟩), origin⟩
    · rw [same] at hn
      rcases mem_ownTree_node.mp hn with rfl | ⟨-, d, hd, -⟩
      · exact ⟨_, self_mem_ownTree _, same.symm⟩
      · cases hd

theorem mem_ownNodes_substitute (h : PutsStrings new t) (kept : new t = none) (hn : n ∈ ownNodes (substitute new t)) :
    ∃ k ∈ ownNodes t, n = substitute new k := by
  obtain ⟨m, f⟩ := t
  rw [substitute_of_none kept] at hn
  obtain ⟨d, hd, hn⟩ := mem_flatMap.mp hn
  rw [Tree.children, form_node, children_map] at hd
  obtain ⟨c, hc, rfl⟩ := mem_map.mp hd
  obtain ⟨k, hk, origin⟩ := mem_ownTree_substitute (h.child hc) hn
  exact ⟨k, mem_flatMap.mpr ⟨c, hc, hk⟩, origin⟩

theorem stringArray?_isSome {t : Node} : (stringArray? t).isSome ↔ ∃ m name k elements,
    t = .node m (.declarator name (some (.node k (.array elements)))) ∧ elements ≠ [] ∧ ∀ e ∈ elements, (stringOf? e).isSome := by
  have all : ∀ es : List Node, (es.mapM stringOf?).isSome ↔ ∀ e ∈ es, (stringOf? e).isSome := by
    intro es
    induction es with
    | nil => simp
    | cons e rest ih =>
      rw [mapM_cons, forall_mem_cons, ← ih]
      cases stringOf? e <;> cases rest.mapM stringOf? <;> simp
  obtain ⟨m, f⟩ := t
  constructor
  · intro h
    rw [stringArray?] at h
    split at h
    next name init form =>
      cases form
      obtain ⟨k, g⟩ := init
      split at h
      next first rest array =>
        cases array
        exact ⟨m, name, k, _, rfl, cons_ne_nil first rest, (all _).mp h⟩
      next => cases h
    next => cases h
  · rintro ⟨_, name, k, elements, same, filled, strings⟩
    cases same
    cases elements with
    | nil => exact absurd rfl filled
    | cons first rest => exact (all _).mpr strings

theorem stringArray?_substitute (h : PutsStrings new t) (array : stringArray? t = some strings) :
    stringArray? (substitute new t) = some strings := by
  obtain ⟨m, name, k, elements, rfl, filled, each⟩ := stringArray?_isSome.mp (by rw [array]; rfl)
  have init : PutsStrings new (.node k (.array elements)) := h.child (by simp [Form.children])
  have still : elements.map (substitute new) = elements := by
    refine map_congr_left (fun e he => ?_) |>.trans (List.map_id _)
    have inner : PutsStrings new e := init.child he
    obtain ⟨j, f⟩ := e
    cases f with
    | string s => exact substitute_of_none (inner.kept (by rintro _ _ ⟨⟩))
    | _ => cases each _ he
  have same : substitute new (.node m (.declarator name (some (.node k (.array elements))))) =
      .node m (.declarator (substitute new name) (some (.node k (.array elements)))) := by
    rw [substitute_of_none (h.kept (by rintro _ _ ⟨⟩)), Form.map, Option.map_some,
      substitute_of_none (init.kept (by rintro _ _ ⟨⟩)), Form.map, still]
  rw [same]
  exact array

theorem quiet_of_operand (plain : ¬f.isRemovable) (outer : isFunction f = false) {p : Place Node} (hp : p ∈ f.places) :
    p.role.hoists = false := by
  cases f with
  | function | functionDeclaration => cases outer
  | declarator | declaration | expressionStatement | returnStatement | ifStatement | forStatement | whileStatement | tryStatement
  | breakStatement | continueStatement | block => exact absurd rfl plain
  | identifier | number | string | boolean | null | undefined => cases hp
  | _ =>
    simp only [Form.places, Place.free, Place.fixed, mem_cons, mem_map, not_mem_nil, or_false] at hp
    grind [Role.hoists]

theorem stringArray?_of_operand (grammatical : t.Grammatical) (plain : ¬t.form.isRemovable) (hn : n ∈ ownTree t) :
    stringArray? n = none := by
  induction t with
  | node m f ih =>
    rcases mem_ownTree_node.mp hn with rfl | ⟨outer, c, hc, hn⟩
    · cases f with
      | declarator name init => exact absurd rfl plain
      | _ => rfl
    · obtain ⟨p, hp, rfl⟩ := Form.mem_children.mp hc
      have admitted := (grammatical_node.mp grammatical).1 p hp
      exact ih p.tree hc (grammatical.child hc) (Role.not_removable_of_quiet (quiet_of_operand plain outer hp) admitted) hn

theorem arrays_substitute (h : PutsStrings new t) (grammatical : t.Grammatical)
    (fixed : ∀ k ∈ ownTree t, stringArray? k = none → stringArray? (substitute new k) = none) :
    (ownTree (substitute new t)).filterMap stringArray? = (ownTree t).filterMap stringArray? := by
  induction t with
  | node m f ih =>
    rcases h.cases with ⟨-, here⟩ | ⟨callee, args, id, s, rfl, -, -, here⟩
    · have top : stringArray? (substitute new (.node m f)) = stringArray? (.node m f) := by
        cases array : stringArray? (.node m f) with
        | none => exact fixed _ (self_mem_ownTree _) array
        | some strings => exact stringArray?_substitute h array
      rw [here] at top ⊢
      rw [ownTree_node, ownTree_node, isFunction_map, filterMap_cons, filterMap_cons, top]
      have below : (if isFunction f then [] else (f.map (substitute new)).children.flatMap ownTree).filterMap stringArray? =
          (if isFunction f then [] else f.children.flatMap ownTree).filterMap stringArray? := by
        split
        next => rfl
        next plain =>
          rw [children_map, flatMap_map, filterMap_flatMap, filterMap_flatMap]
          refine flatMap_congr fun c hc => ih c hc (h.child hc) (grammatical.child hc) fun k hk => ?_
          exact fixed k (mem_ownTree_node.mpr (.inr ⟨Bool.not_eq_true _ ▸ plain, c, hc, hk⟩))
      rw [below]
    · rw [here, ownTree_node]
      refine Eq.symm (filterMap_eq_nil_iff.mpr fun n hn => ?_)
      exact stringArray?_of_operand grammatical (by simp [Form.isRemovable, Form.isStatement]) hn

theorem holdsStrings_substitute (h : PutsStrings new t) (grammatical : t.Grammatical)
    (fixed : ∀ k ∈ ownNodes t, stringArray? k = none → stringArray? (substitute new k) = none) :
    HoldsStrings (substitute new t) strings ↔ HoldsStrings t strings := by
  have declared := isFunctionDeclaration_substitute h
  have params : Tree.params (substitute new t) = [] ↔ t.params = [] := by rw [params_substitute h, map_eq_nil_iff]
  have arrays : isFunctionDeclaration t →
      (ownNodes (substitute new t)).findSome? stringArray? = (ownNodes t).findSome? stringArray? := by
    intro function
    have kept := kept_of_isFunctionDeclaration h function
    obtain ⟨m, f⟩ := t
    rw [← head?_filterMap, ← head?_filterMap, substitute_of_none kept, ownNodes, ownNodes, Tree.children, Tree.children,
      form_node, form_node, children_map, flatMap_map, filterMap_flatMap, filterMap_flatMap]
    refine congrArg _ (flatMap_congr fun c hc => arrays_substitute (h.child hc) (grammatical.child hc) fun k hk => ?_)
    exact fixed k (mem_flatMap.mpr ⟨c, hc, hk⟩)
  constructor
  · rintro ⟨function, noParams, array⟩
    rw [declared] at function
    exact ⟨function, params.mp noParams, arrays function ▸ array⟩
  · rintro ⟨function, noParams, array⟩
    exact ⟨declared.trans function, params.mpr noParams, (arrays function).trans array⟩

/-- An assignment that shifts a variable by an operand. -/
def Shifts (op : BinaryOp) (operand t : Node) : Prop :=
  isArithmetic op ∧ ∃ m target name value left,
    t = .node m (.assign (.node target (.identifier name)) "=" (.node value (.binary op (.node left (.identifier name)) operand)))

theorem Shifts.mem_walk (h : Shifts op operand t) : operand ∈ t.walk := by
  obtain ⟨-, m, target, name, value, left, rfl⟩ := h
  refine walk_trans (child_mem_walk (c := .node value (.binary op (.node left (.identifier name)) operand)) ?_)
    (child_mem_walk ?_)
  · exact .tail _ (.head _)
  · exact .tail _ (.head _)

theorem shift?_of_shifts (h : Shifts op operand t) :
    shift? ns t = do
      match ← static? ns operand with
      | some (.number x) => return some (op, x)
      | _ => return none := by
  obtain ⟨arithmetic, m, target, name, value, left, rfl⟩ := h
  exact if_pos ⟨rfl, arithmetic, rfl⟩

theorem shift?_of_other (h : ∀ op operand, ¬Shifts op operand t) : shift? ns t = .ok none := by
  obtain ⟨m, f⟩ := t
  rw [shift?]
  split
  next target op value form =>
    cases form
    split
    next name operator left right named binary =>
      split
      next other known =>
        split
        next shifts =>
          obtain ⟨rfl, arithmetic, rfl⟩ := shifts
          obtain ⟨a, g⟩ := target
          obtain ⟨b, g'⟩ := value
          obtain ⟨c, g''⟩ := left
          cases named
          cases binary
          cases known
          exact absurd ⟨arithmetic, m, a, _, b, c, rfl⟩ (h operator right)
        next => rfl
      next => rfl
    next => rfl
  next => rfl

theorem shifts_of_substitute (h : PutsStrings new t) (shifts : Shifts op operand (substitute new t)) :
    ∃ e, Shifts op e t ∧ operand = substitute new e := by
  obtain ⟨arithmetic, m, target, name, value, left, same⟩ := shifts
  obtain ⟨f, rfl, -, form⟩ := h.of_eq same (by rintro _ ⟨⟩)
  cases f with
  | assign a o b =>
    obtain ⟨targets, rfl, values⟩ := Form.assign.inj form
    have ha : PutsStrings new a := h.child (by simp [Form.children])
    have hb : PutsStrings new b := h.child (by simp [Form.children])
    obtain rfl := ha.of_eq_identifier targets
    obtain ⟨g, rfl, -, form'⟩ := hb.of_eq values (by rintro _ ⟨⟩)
    cases g with
    | binary o l r =>
      obtain ⟨rfl, lefts, rights⟩ := Form.binary.inj form'
      have hl : PutsStrings new l := hb.child (by simp [Form.children])
      obtain rfl := hl.of_eq_identifier lefts
      exact ⟨r, ⟨arithmetic, m, target, name, value, left, rfl⟩, rights.symm⟩
    | _ => cases form'
  | _ => cases form

theorem shift?_substitute (h : PutsStrings new t) (before : shift? ns t = .ok none)
    (operands : ∀ op e, Shifts op e t → static? ns (substitute new e) = static? ns e) : shift? ns (substitute new t) = .ok none := by
  by_cases shifts : ∃ op operand, Shifts op operand (substitute new t)
  · obtain ⟨op, operand, shifts⟩ := shifts
    obtain ⟨e, was, rfl⟩ := shifts_of_substitute h shifts
    rw [shift?_of_shifts shifts, operands op e was, ← shift?_of_shifts was]
    exact before
  · exact shift?_of_other fun op operand here => shifts ⟨op, operand, here⟩

theorem invocation?_of_substitute (h : PutsStrings new t)
    (invokes : invocation? (substitute new t) = some (callee, args)) :
    ∃ callee' args', invocation? t = some (callee', args') ∧ callee = substitute new callee' ∧ args = args'.map (substitute new) := by
  obtain ⟨m, c, same⟩ := invocation?_eq_some invokes
  obtain ⟨f, rfl, -, form⟩ := h.of_eq same nofun
  cases f with
  | expressionStatement e =>
    have he : PutsStrings new e := h.child (mem_singleton_self e)
    obtain ⟨g, rfl, -, form'⟩ := he.of_eq (Form.expressionStatement.inj form) nofun
    cases g with
    | call callee' args' =>
      obtain ⟨rfl, rfl⟩ := Form.call.inj form'
      have hc : PutsStrings new callee' := he.child (.head _)
      rw [same] at invokes
      refine ⟨callee', args', ?_, rfl, rfl⟩
      obtain ⟨k, g⟩ := callee'
      rcases hc.cases with ⟨-, inner⟩ | ⟨_, _, id, s, -, -, -, inner⟩
      · rw [inner] at invokes
        cases g <;> first | rfl | cases invokes
      · rw [inner] at invokes
        cases invokes
    | _ => cases form'
  | _ => cases form

theorem isFunction_of_invocation? (invokes : invocation? t = some (callee, args)) :
    isFunction callee.form := by
  obtain ⟨m, c, rfl⟩ := invocation?_eq_some invokes
  obtain ⟨k, f⟩ := callee
  cases f <;> first | rfl | cases invokes

/-- The binary expression that a declarator is initialised with. -/
def initialBinary? (t : Node) : Option Node :=
  match t.form with
  | .declarator _ (some init) =>
    match init.form with
    | .binary .. => some init
    | _ => none
  | _ => none

theorem checkOf?_eq (function : Node) : checkOf? function = (ownNodes function).findSome? initialBinary? := rfl

theorem initialBinary?_substitute (h : PutsStrings new t) (before : initialBinary? t = none) : initialBinary? (substitute new t) = none := by
  obtain ⟨m, f⟩ := t
  rcases h.cases with ⟨-, here⟩ | ⟨callee, args, id, s, rfl, -, -, here⟩
  · rw [here]
    cases f with
    | declarator name init =>
      cases init with
      | none => rfl
      | some init =>
        have hi : PutsStrings new init := h.child (by simp [Form.children])
        obtain ⟨k, g⟩ := init
        rcases hi.cases with ⟨-, there⟩ | ⟨callee, args, id, s, rfl, -, -, there⟩
        · change (match (substitute new (.node k g)).form with | .binary .. => some _ | _ => none) = none
          rw [there]
          cases g <;> first | rfl | cases before
        · change (match (substitute new _).form with | .binary .. => some _ | _ => none) = none
          rw [there]
          rfl
    | _ => rfl
  · rw [here]
    rfl

theorem checkOf?_substitute (h : PutsStrings new t) (kept : new t = none) (before : checkOf? t = none) :
    checkOf? (substitute new t) = none := by
  rw [checkOf?_eq, findSome?_eq_none_iff] at before ⊢
  intro n hn
  obtain ⟨k, hk, rfl⟩ := mem_ownNodes_substitute h kept hn
  exact initialBinary?_substitute (h.subtree (mem_walk_of_ownNodes hk)) (before k hk)

end Strings

end Pattern

theorem Form.map_call {ρ σ : Type} (g : ρ → σ) (callee : ρ) (args : List ρ) :
    (Form.call callee args).map g = .call (g callee) (args.map g) := by
  simp [Form.map]

theorem Pattern.calledBinding?_of_not_isName {names : Resolution}
    (h : ¬callee.form.isName) : calledBinding? names (.node m (.call callee args)) = none := by
  obtain ⟨k, f⟩ := callee
  cases f with
  | identifier x => exact absurd rfl h
  | _ => rfl

namespace Plan

section Replacing

open Node Pattern

variable {root : Node} {p : Pattern} {plan : Plan} (tree : root.IsFunctionTree)
  (calls : p.RepliesOutside root plan)

theorem walk_literal {k : Node} (h : plan.literal root n = some k) : k.walk = [k] := by
  obtain ⟨i, r, -, -, rfl⟩ := literal_eq_some h
  exact walk_node _ _

theorem walk_replaced (t : Node) :
    (substitute (plan.literal root) t).walk = (front (plan.literal root) t).map (substitute (plan.literal root)) :=
  walk_substitute (fun _ _ => walk_literal) t

theorem left_of_front (hn : n ∈ front (plan.literal root) root) (kept : plan.literal root n = none) :
    n.mark ∈ (plan.replaced root).ids := by
  refine mem_ids.mpr ⟨substitute (plan.literal root) n, ?_, mark_substitute kept⟩
  rw [walk_replaced]
  exact mem_map_of_mem hn

theorem front_of_left (distinct : root.Distinct) (hn : n ∈ root.walk)
    (left : n.mark ∈ (plan.replaced root).ids) :
    n ∈ front (plan.literal root) root ∧ plan.literal root n = none := by
  obtain ⟨k, hk, mark⟩ := mem_ids.mp left
  rw [walk_replaced] at hk
  obtain ⟨j, hj, rfl⟩ := mem_map.mp hk
  cases replaced : plan.literal root j with
  | none =>
    rw [mark_substitute replaced] at mark
    obtain rfl := distinct.same_node ((front_sublist root).subset hj) hn mark
    exact ⟨hj, replaced⟩
  | some r =>
    rw [substitute_of_some replaced] at mark
    refine absurd (mark_mem_ids hn) (literal_fresh replaced ?_)
    rw [← mark]
    exact mark_mem_ids (self_mem_walk r)

include tree calls

theorem bindingOf_replaced {x : NodeId} (left : x ∈ (plan.replaced root).ids) :
    (of (plan.replaced root)).bindingOf x = (of root).bindingOf x := by
  refine Option.ext fun b => ⟨fun means => ?_, fun means => ?_⟩
  · obtain ⟨r', hr', rfl, binding⟩ := mem_of_bindingOf means
    obtain ⟨r, hr, node, -, -, same, -⟩ := replaced_preserved tree calls r' hr'
    rw [← node, bindingOf_of_mem tree.distinct hr, same, binding]
  · obtain ⟨r, hr, rfl, binding⟩ := reference_left tree calls means left
    rw [bindingOf_of_mem (replaced_tree tree calls).distinct hr, binding]

theorem literal_putsStrings : PutsStrings (plan.literal root) root := by
  intro n hn k replaced
  obtain ⟨callee, args, form, name, -⟩ := calledBinding?_eq_some (literal_call tree calls hn replaced).called
  obtain ⟨i, r, -, -, rfl⟩ := literal_eq_some replaced
  exact ⟨⟨callee, args, form, name⟩, _, _, rfl⟩

theorem bindingFor_left (hn : n ∈ root.walk) (declared : isFunctionDeclaration n)
    (left : n.mark ∈ (plan.replaced root).ids) :
    ∃ b, (of (plan.replaced root)).bindingFor n.mark = some b ∧ (of root).bindingFor n.mark = some b := by
  obtain ⟨front, kept⟩ := front_of_left tree.distinct hn left
  obtain ⟨m, f⟩ := n
  cases f with
  | functionDeclaration name params body =>
    have there : substitute (plan.literal root) (.node m (.functionDeclaration name params body)) ∈
        (plan.replaced root).walk := by
      rw [walk_replaced]
      exact mem_map_of_mem front
    rw [substitute_of_none kept] at there
    obtain ⟨b, known⟩ := exists_bindingFor (replaced_tree tree calls) there (mem_singleton_self _)
    exact ⟨b, known, bindingFor_of_replaced tree calls known⟩
  | _ => cases declared

variable (hn : n ∈ front (plan.literal root) root)

include hn

theorem name_left (name : n.form.isName) :
    substitute (plan.literal root) n = n ∧
      (of (plan.replaced root)).bindingOf n.mark = (of root).bindingOf n.mark := by
  have puts := (literal_putsStrings tree calls).subtree ((front_sublist root).subset hn)
  refine ⟨substitute_of_isName puts name, bindingOf_replaced tree calls (left_of_front hn (puts.kept fun callee args call => ?_))⟩
  rw [call] at name
  cases name

theorem isGiven_left (b : BindingId) :
    isGiven (of (plan.replaced root)) b (substitute (plan.literal root) n) = isGiven (of root) b n := by
  have puts := (literal_putsStrings tree calls).subtree ((front_sublist root).subset hn)
  rw [Bool.eq_iff_iff, isGiven_iff, isGiven_iff, isName_substitute puts]
  refine and_congr_right fun name => ?_
  obtain ⟨same, binding⟩ := name_left tree calls hn name
  rw [same, binding]

theorem calledBinding?_left (kept : plan.literal root n = none) :
    calledBinding? (of (plan.replaced root)) (substitute (plan.literal root) n) = calledBinding? (of root) n := by
  obtain ⟨m, f⟩ := n
  have puts := (literal_putsStrings tree calls).subtree ((front_sublist root).subset hn)
  rw [substitute_of_none kept]
  cases f with
  | call callee args =>
    have inner : callee ∈ front (plan.literal root) root := front_child hn kept (.head _)
    have named := isName_substitute (puts.child (c := callee) (.head _))
    by_cases name : callee.form.isName
    · obtain ⟨same, binding⟩ := name_left tree calls inner name
      rw [Form.map_call, same]
      obtain ⟨k, x, rfl⟩ := form_of_isName name
      exact binding
    · rw [calledBinding?_of_not_isName name, Form.map_call, calledBinding?_of_not_isName (by rwa [named])]
  | _ => rfl

theorem calls_of_left {b : BindingId} (h : Pattern.calls (of (plan.replaced root)) b (substitute (plan.literal root) n)) :
    Pattern.calls (of root) b n := by
  obtain ⟨k, hk, called⟩ := any_eq_true.mp h
  rw [walk_replaced] at hk
  obtain ⟨j, hj, rfl⟩ := mem_map.mp hk
  have front := front_trans hn hj
  cases replaced : plan.literal root j with
  | none =>
    rw [calledBinding?_left tree calls front replaced] at called
    exact any_eq_true.mpr ⟨j, (front_sublist n).subset hj, called⟩
  | some r =>
    obtain ⟨i, s, -, -, rfl⟩ := literal_eq_some replaced
    rw [substitute_of_some replaced] at called
    cases called

end Replacing

end Plan

namespace Pattern

section Searching

open Node

variable {ns : Namespace} {root : Node} {p : Pattern} {plan : Plan} (tree : root.IsFunctionTree)
  (calls : p.RepliesOutside root plan)

include tree calls

theorem front_of_invocation (hn : n ∈ front (plan.literal root) root)
    (invokes : invocation? n = some (callee, args)) : ∀ c ∈ callee :: args, c ∈ front (plan.literal root) root := by
  have puts := (Plan.literal_putsStrings tree calls).subtree ((front_sublist root).subset hn)
  obtain ⟨m, c, rfl⟩ := invocation?_eq_some invokes
  have inner : (.node c (.call callee args) : Node) ∈ front (plan.literal root) root :=
    front_child hn (puts.kept nofun) (mem_singleton_self _)
  have kept' : plan.literal root (.node c (.call callee args)) = none := by
    rcases (puts.child (mem_singleton_self _)).cases with ⟨kept, -⟩ | ⟨_, _, _, _, call, name, -⟩
    · exact kept
    · obtain ⟨rfl, rfl⟩ := Form.call.inj call
      obtain ⟨k, x, rfl⟩ := form_of_isName name
      cases invokes
  exact fun a ha => front_child inner kept' ha

theorem accessorCall?_of_left (names : p.names = of root) (hn : n ∈ front (plan.literal root) root) {args : List Node}
    (h : accessorCall? (plan.replaced root) { p with names := of (plan.replaced root) }
      (substitute (plan.literal root) n) = some args) :
    n.mark ∈ (plan.replaced root).ids ∧
      ∃ args', p.accessorCall? root n = some args' ∧ args = args'.map (substitute (plan.literal root)) := by
  have inside := (front_sublist root).subset hn
  have puts := (Plan.literal_putsStrings tree calls).subtree inside
  have called := Plan.calledBinding?_left tree calls hn
  obtain ⟨m, f⟩ := n
  rcases puts.cases with ⟨kept, here⟩ | ⟨callee, args, id, s, rfl, -, -, here⟩
  · have left := Plan.left_of_front hn kept
    have within : ∀ c, isWithin (plan.replaced root) m c = isWithin root m c := fun c =>
      Bool.eq_iff_iff.mpr
        (Plan.isWithin_replaced tree.distinct (Plan.replaced_tree tree calls).distinct (mark_mem_ids inside) left)
    have binding := called kept
    rw [here] at h binding
    cases f with
    | call callee args' =>
      refine ⟨left, args', ?_⟩
      rw [Form.map_call] at h binding
      rw [accessorCall?, form_node, mark_node] at h ⊢
      simp only [binding, within, names] at h ⊢
      split at h
      next outside =>
        cases h
        exact ⟨if_pos outside, rfl⟩
      next => cases h
    | _ => cases h
  · rw [here] at h
    cases h

/-- The pool is found again if no array is completed. -/
theorem findPool?_left {pool : Node}
    (found : findPool? root (of root) = some (pool, binding, strings))
    (left : pool.mark ∈ (plan.replaced root).ids)
    (fixed : ∀ n ∈ front (plan.literal root) root, isFunctionDeclaration n → n.params = [] → ∀ k ∈ ownNodes n,
      stringArray? k = none → stringArray? (substitute (plan.literal root) k) = none) :
    findPool? (plan.replaced root) (of (plan.replaced root)) =
      some (substitute (plan.literal root) pool, binding, strings) := by
  have puts := Plan.literal_putsStrings tree calls
  have holds : ∀ n ∈ front (plan.literal root) root, isFunctionDeclaration n → n.params = [] → ∀ strings,
      (HoldsStrings (substitute (plan.literal root) n) strings ↔ HoldsStrings n strings) := fun n hn declared params strings =>
    holdsStrings_substitute (puts.subtree ((front_sublist root).subset hn))
      (tree.grammatical.subtree ((front_sublist root).subset hn)) (fixed n hn declared params)
  rw [findPool?_eq] at found ⊢
  rw [Plan.walk_replaced, ← Except.ok.injEq, ← findFirst_pure, findFirst_map]
  refine findFirst_of_sublist (f := fun n => .ok (poolAt (of root) n)) (front_sublist root) (List.Nodup.of_map _ tree.distinct)
    (b := (pool, binding, strings)) ?_ (fun a ha hits => ?_) fun a ha misses => ?_
  · rw [findFirst_pure, found]
  · obtain ⟨rfl, held, known⟩ := poolAt_eq_some_iff.mp (Except.ok.inj hits)
    obtain ⟨front, kept⟩ := Plan.front_of_left tree.distinct ha left
    obtain ⟨b, known', same⟩ := Plan.bindingFor_left tree calls ha held.declared left
    cases known.symm.trans same
    refine ⟨front, congrArg _ (poolAt_eq_some_iff.mpr ⟨rfl, (holds a front held.declared held.params _).mpr held, ?_⟩)⟩
    rw [mark_substitute kept]
    exact known'
  · refine congrArg _ ?_
    cases again : poolAt (of (plan.replaced root)) (substitute (plan.literal root) a) with
    | none => rfl
    | some piece =>
      obtain ⟨q, b, strings'⟩ := piece
      obtain ⟨-, held, -⟩ := poolAt_eq_some_iff.mp again
      have inside := (front_sublist root).subset ha
      have declared := held.declared
      rw [isFunctionDeclaration_substitute (puts.subtree inside)] at declared
      have params := held.params
      rw [params_substitute (puts.subtree inside), map_eq_nil_iff] at params
      have stays := Plan.left_of_front ha (kept_of_isFunctionDeclaration (puts.subtree inside) declared)
      obtain ⟨b', -, known⟩ := Plan.bindingFor_left tree calls inside declared stays
      have before := poolAt_eq_some_iff.mpr ⟨rfl, (holds a ha declared params strings').mp held, known⟩
      cases (Except.ok.inj misses).symm.trans before

/-- The accessor is found again if no operand becomes known in a function that calls the pool. -/
theorem findAccessor_left {pool : NodeId} {accessor : Node} {id : BindingId} {offset : Double}
    (found : findAccessor ns root (of root) pool binding = .ok (some (accessor, id, op, offset)))
    (left : accessor.mark ∈ (plan.replaced root).ids) (whole : Untouched (plan.literal root) accessor)
    (operands : ∀ n ∈ front (plan.literal root) root, IsCaller (of root) pool binding n → ∀ k ∈ front (plan.literal root) n,
      ∀ op e, Shifts op e k → static? ns (substitute (plan.literal root) e) = static? ns e) :
    findAccessor ns (plan.replaced root) (of (plan.replaced root)) pool binding =
      .ok (some (accessor, id, op, offset)) := by
  have puts := Plan.literal_putsStrings tree calls
  rw [findAccessor_eq, Plan.walk_replaced, findFirst_map]
  refine findFirst_of_sublist (front_sublist root) (List.Nodup.of_map _ tree.distinct) found (fun a ha hits => ?_)
    fun a ha misses => ?_
  · obtain ⟨rfl, caller, shift, known⟩ := accessorAt_eq_some_iff.mp hits
    obtain ⟨front, kept⟩ := Plan.front_of_left tree.distinct ha left
    obtain ⟨b, known', same⟩ := Plan.bindingFor_left tree calls ha caller.declared left
    cases known.symm.trans same
    refine ⟨front, ?_⟩
    rw [whole.substitute_eq]
    refine accessorAt_eq_some_iff.mpr ⟨rfl, ⟨caller.declared, caller.other, ?_⟩, shift, known'⟩
    obtain ⟨k, hk, called⟩ := any_eq_true.mp caller.calls
    refine any_eq_true.mpr ⟨k, hk, ?_⟩
    have again := Plan.calledBinding?_left tree calls (Untouched.mem_front front whole hk) (whole k hk)
    rw [Untouched.substitute_eq fun j hj => whole j (walk_trans hk hj)] at again
    rwa [again]
  · have inside := (front_sublist root).subset ha
    have declared := isFunctionDeclaration_substitute (puts.subtree inside)
    by_cases caller : IsCaller (of (plan.replaced root)) pool binding (substitute (plan.literal root) a)
    · have function := caller.declared
      rw [declared] at function
      have kept := kept_of_isFunctionDeclaration (puts.subtree inside) function
      have stays := Plan.left_of_front ha kept
      obtain ⟨b, known', known⟩ := Plan.bindingFor_left tree calls inside function stays
      have other := caller.other
      rw [mark_substitute kept] at other
      have was : IsCaller (of root) pool binding a := ⟨function, other, Plan.calls_of_left tree calls ha caller.calls⟩
      have before := (accessorAt_eq_none_iff fun _ => ⟨b, known⟩).mp misses was
      refine (accessorAt_eq_none_iff fun _ => ⟨b, by rw [mark_substitute kept]; exact known'⟩).mpr fun _ k hk => ?_
      rw [Plan.walk_replaced] at hk
      obtain ⟨j, hj, rfl⟩ := mem_map.mp hk
      have below := (front_sublist a).subset hj
      exact shift?_substitute (puts.subtree (walk_trans inside below)) (before j below) (operands a ha was j hj)
    · exact accessorAt_of_other caller

/-- The rotation is found again if no other target becomes known. -/
theorem findRotation_left {rotation check : Node} {target : Value}
    (found : findRotation ns root (of root) binding = .ok (some (rotation, check, target)))
    (left : rotation.mark ∈ (plan.replaced root).ids) (whole : Untouched (plan.literal root) rotation)
    (targets : ∀ n ∈ front (plan.literal root) root, ∀ function goal, IsHanded (of root) binding n function goal →
      static? ns (substitute (plan.literal root) goal) = static? ns goal) :
    findRotation ns (plan.replaced root) (of (plan.replaced root)) binding =
      .ok (some (rotation, check, target)) := by
  have puts := Plan.literal_putsStrings tree calls
  have was : ∀ a ∈ front (plan.literal root) root, ∀ function goal,
      IsHanded (of (plan.replaced root)) binding (substitute (plan.literal root) a) function goal →
      ∃ function' goal', IsHanded (of root) binding a function' goal' ∧ function' ∈ front (plan.literal root) root ∧
        isFunction function'.form ∧
        function = substitute (plan.literal root) function' ∧ goal = substitute (plan.literal root) goal' := by
    rintro a ha function goal ⟨given, rest, invokes, handed⟩
    obtain ⟨function', args', invokes', rfl, same⟩ :=
      invocation?_of_substitute (puts.subtree ((front_sublist root).subset ha)) invokes
    obtain ⟨given', tail, rfl, rfl, more⟩ := map_eq_cons_iff.mp same.symm
    obtain ⟨goal', rest', rfl, rfl, -⟩ := map_eq_cons_iff.mp more
    have parts := front_of_invocation tree calls ha invokes'
    rw [Plan.isGiven_left tree calls (parts given' (by simp))] at handed
    exact ⟨function', goal', ⟨given', rest', invokes', handed⟩, parts function' (by simp), isFunction_of_invocation? invokes',
      rfl, rfl⟩
  rw [findRotation_eq] at found ⊢
  rw [Plan.walk_replaced, findFirst_map]
  refine findFirst_of_sublist (front_sublist root) (List.Nodup.of_map _ tree.distinct) found (fun a ha hits => ?_)
    fun a ha misses => ?_
  · obtain ⟨rfl, function, goal, ⟨given, rest, invokes, handed⟩, static, checks⟩ := rotationAt_eq_some_iff.mp hits
    obtain ⟨front, kept⟩ := Plan.front_of_left tree.distinct ha left
    refine ⟨front, ?_⟩
    have given_front := front_of_invocation tree calls front invokes given (by simp)
    have again := Plan.isGiven_left tree calls given_front binding
    rw [(Plan.name_left tree calls given_front (isGiven_iff.mp handed).1).1] at again
    rw [whole.substitute_eq]
    exact rotationAt_eq_some_iff.mpr ⟨rfl, function, goal, ⟨given, rest, invokes, by rwa [again]⟩, static, checks⟩
  · by_cases handed : ∃ function goal,
        IsHanded (of (plan.replaced root)) binding (substitute (plan.literal root) a) function goal
    · obtain ⟨function, goal, handed⟩ := handed
      obtain ⟨function', goal', before, front, isFunction, rfl, rfl⟩ := was a ha function goal handed
      rw [rotationAt_of_handed before] at misses
      rw [rotationAt_of_handed handed, targets a ha function' goal' before]
      obtain ⟨aim, static, misses⟩ := Outcome.bind_eq_ok.mp misses
      rw [static]
      cases aim with
      | none => rfl
      | some target' =>
        cases checks : checkOf? function' with
        | some check' =>
          rw [checks] at misses
          cases misses
        | none =>
          have inner := puts.subtree ((front_sublist root).subset front)
          have kept := inner.kept fun callee args call => by
            rw [call] at isFunction
            cases isFunction
          rw [checkOf?_substitute inner kept checks]
          rfl
    · exact rotationAt_of_other fun function goal here => handed ⟨function, goal, here⟩

end Searching

end Pattern

end Unravel
