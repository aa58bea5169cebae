import Mathlib.Algebra.BigOperators.Group.List.Basic
import Unravel.Proofs.Pass.Meaning

/-! Bringing accesses into normal form changes nothing that folding computes: the result of a function folds to the same
   array, or folding it goes wrong in the same way. A tree in normal form stays as it is. -/
namespace Unravel

open Outcome Resolution List

-- sums start from the zero of the core library, whatever else is in scope
attribute [local instance (2000)] Zero.ofOfNat0

variable {m : NodeId} {f : Form Node} {t : Node}

namespace Normalised

/-- No access in a tree has a literal key that can be written as a name. -/
def IsDotted (t : Node) : Prop := ∀ n ∈ t.walk, ∀ object key, n.form = .index object key → name? key = none

theorem isDotted_node :
    IsDotted (.node m f) ↔ (∀ object key, f = .index object key → name? key = none) ∧ ∀ c ∈ f.children, IsDotted c :=
  Tree.forall_walk_node

theorem isDotted_map {g : Node → Node} (each : ∀ c ∈ f.children, IsDotted (g c))
    (here : ∀ object key, f.map g = .index object key → name? key = none) : IsDotted (.node m (f.map g)) := by
  rw [isDotted_node, children_map, forall_mem_map]
  exact ⟨here, each⟩

theorem isDotted_dotted (t : Node) : IsDotted (dotted t) := by
  induction t with
  | node m f ih =>
    rw [dotted_node]
    cases f with
    | index object key =>
      rw [Form.map, spell]
      cases named : name? (dotted key) with
      | none =>
        refine isDotted_map (f := .index object key) ih fun _ _ same => ?_
        cases same
        exact named
      | some name =>
        refine isDotted_node.mpr ⟨(fun _ _ same => by cases same), fun c hc => ?_⟩
        rw [mem_singleton.mp hc]
        exact ih object (.head _)
    | _ => exact isDotted_map ih fun _ _ same => by cases same

theorem changed_layer {f : Form Normalised}
    (plain : ∀ object key, f.map Normalised.node = .index object key → name? key = none) :
    (layer m f).changed = (f.children.map Normalised.changed).sum := by
  cases f with
  | index object key =>
    have unnamed : name? key.node = none := plain _ _ rfl
    simp only [layer, collect, Form.map, form_node, unnamed]
  | _ => rfl

theorem sum_changed {ts : List Node} (h : ∀ c ∈ ts, (c.fold layer).changed = 0) :
    ((ts.map fun t => t.fold layer).map Normalised.changed).sum = 0 := by
  refine sum_eq_zero fun x hx => ?_
  rw [List.map_map] at hx
  obtain ⟨c, hc, rfl⟩ := mem_map.mp hx
  exact h c hc

theorem IsDotted.settled (h : IsDotted t) : dotted t = t ∧ (t.fold layer).changed = 0 := by
  induction t with
  | node m f ih =>
    obtain ⟨here, below⟩ := isDotted_node.mp h
    have same : f.map dotted = f :=
      (Form.map_congr fun c hc => (ih c hc (below c hc)).1).trans (Form.map_id f)
    constructor
    · rw [dotted_node, same]
      rcases spell_cases m f with spelled | ⟨object, key, name, rfl, named, -⟩
      · exact spelled
      · rw [here object key rfl] at named
        cases named
    · rw [Tree.fold_node, changed_layer]
      · rw [children_map]
        exact sum_changed fun c hc => (ih c hc (below c hc)).2
      · rw [Form.map_map]
        exact fun object key index => here object key (same.symm.trans index)

theorem mark_dotted (t : Node) : (dotted t).mark = t.mark := by
  obtain ⟨m, f⟩ := t
  rw [dotted_node]
  rcases spell_cases m (f.map dotted) with same | ⟨_, _, _, -, -, same⟩ <;> rw [same] <;> rfl

theorem name_dotted (t : Node) : (dotted t).name = t.name := by
  obtain ⟨m, f⟩ := t
  rw [dotted_node]
  rcases spell_cases m (f.map dotted) with same | ⟨_, _, _, index, -, same⟩
  · rw [same]
    cases f <;> rfl
  · rw [same]
    cases f <;> cases index
    rfl

theorem hoisted_dotted (t : Node) : (dotted t).hoisted = t.hoisted := by
  induction t with
  | node m f ih =>
    rw [dotted_node]
    rcases spell_cases m (f.map dotted) with same | ⟨_, _, _, index, -, same⟩
    · have own : (f.map dotted).own m = f.own m := by cases f <;> simp [Form.map, Form.own, name_dotted]
      have callable : (f.map dotted).isCallable = f.isCallable := by cases f <;> rfl
      rw [same, Node.hoisted_node, Node.hoisted_node, own, callable, Form.places_map, filter_map, flatMap_map]
      congr 2
      exact flatMap_congr fun p hp => ih p.tree (place_mem_children (mem_of_mem_filter hp))
    · rw [same]
      cases f <;> cases index
      rfl

theorem parameter_dotted (t : Node) : parameter (dotted t) = parameter t := by
  rw [parameter, parameter, mark_dotted, name_dotted]

theorem functionDeclarations_dotted (m : NodeId) (name : Option Node) (params body : List Node) :
    functionDeclarations m (name.map dotted) (params.map dotted) (body.map dotted) =
      functionDeclarations m name params body := by
  simp [functionDeclarations, Form.toList_map, flatMap_map, Function.comp_def, mark_dotted, name_dotted,
    parameter_dotted, hoisted_dotted]

theorem around_dotted (m : NodeId) (f : Form Node) (isInner : Bool) (frames : List Frame) :
    (f.map dotted).around m isInner frames = f.around m isInner frames := by
  have opening : (f.map dotted).opening m = f.opening m := by
    cases f with
    | function params body name isArrow =>
      exact congrArg (fun ds => some (Frame.mk (some m) ds)) (functionDeclarations_dotted m name params body)
    | functionDeclaration name params body =>
      exact congrArg (fun ds => some (Frame.mk (some m) ds)) (functionDeclarations_dotted m none params body)
    | tryStatement block param handler finalizer =>
      cases handler with
      | none => rfl
      | some statements =>
        simp [Form.map, Form.opening, Form.toList_map, Function.comp_def, parameter_dotted]
    | _ => rfl
  rw [Form.around, Form.around, opening]

/-- What was seen is seen, in the same scopes, except for the keys that became names. -/
theorem sight_dotted {isWrite : Bool} {frames : List Frame} {s : Sight} (hs : s ∈ t.sights isWrite frames)
    (other : ∀ x, s.node.form ≠ .string x) :
    ⟨s.isWrite, dotted s.node, s.frames⟩ ∈ (dotted t).sights isWrite frames := by
  induction t generalizing isWrite frames with
  | node m f ih =>
    rcases Node.mem_sights_node.mp hs with rfl | ⟨p, hp, seen, hs⟩
    · have marked := Node.self_mem_sights (dotted (.node m f)) isWrite frames
      exact marked
    · have below := ih p.tree (place_mem_children hp) hs
      have placed : p.map dotted ∈ (f.map dotted).places := by
        rw [Form.places_map]
        exact mem_map_of_mem hp
      rw [dotted_node]
      rcases spell_cases m (f.map dotted) with same | ⟨object, key, name, index, named, same⟩
      · rw [same]
        refine Node.mem_sights_node.mpr (Or.inr ⟨p.map dotted, placed, seen, ?_⟩)
        rw [around_dotted]
        exact below
      · rw [same]
        cases f with
        | index object key =>
          cases index
          rcases mem_pair.mp hp with rfl | rfl
          · exact Node.mem_sights_node.mpr (Or.inr ⟨_, .head _, rfl, below⟩)
          · obtain ⟨k, rfl⟩ := Folder.string_of_name? named
            rcases Node.mem_sights_node.mp hs with rfl | ⟨q, hq, -⟩
            · exact absurd rfl (other name)
            · cases hq
        | _ => cases index

end Normalised

namespace Node

open Normalised Folder Pattern

theorem found_value (other : ∀ callee, f = .call callee [] → ¬ isPlainFunction callee.form) :
    (found (.node m f)).asValue = .ok (.node m f) := by
  have self : Except.ok (Tree.node m ((f.map fun c => (c, c.para foundLayer)).map (·.1))) = (.ok (.node m f) : Outcome Node) := by
    rw [Form.map_fst_pair]
  rw [found, para_node]
  cases f with
  | function params body name isArrow =>
    rw [Form.map, foundLayer]
    split
    · exact self
    · exact self
  | returnStatement x =>
    cases x with
    | none => exact self
    | some x => exact self
  | call callee args =>
    cases args with
    | nil =>
      change (if isPlainFunction callee.form then Found.mk _ _ else _).asValue = _
      rw [if_neg (other callee rfl)]
      exact self
    | cons a rest => exact self
  | _ => exact self

/-- What a tree stands for, and what it gives when it is run, in normal form. -/
theorem found_dotted (t : Node) :
    (dotted t).found.asBody = t.found.asBody.map dotted ∧ (dotted t).found.asValue = t.found.asValue.map dotted := by
  induction t with
  | node m f ih =>
    have plain : ∀ callee : Node, isPlainFunction (dotted callee).form = isPlainFunction callee.form := by
      rintro ⟨k, g⟩
      rw [dotted_node]
      rcases spell_cases k (g.map dotted) with same | ⟨_, _, _, index, -, same⟩
      · rw [same, form_node, form_node, isPlainFunction_map]
      · rw [same]
        cases g <;> cases index
        rfl
    constructor
    · cases f with
      | function params body name isArrow =>
        have whole : dotted (.node m (.function params body name isArrow)) =
            .node m (.function (params.map dotted) (body.map dotted) (name.map dotted) isArrow) := dotted_node ..
        rw [whole, found_function, found_function, find_return_map isReturn_dotted]
        cases first : body.find? fun s => isReturn s.form with
        | none => rfl
        | some s => exact (ih s (by simp [Form.children, mem_of_find?_eq_some first])).1
      | returnStatement x =>
        cases x with
        | none => rfl
        | some x =>
          have whole : dotted (.node m (.returnStatement (some x))) = .node m (.returnStatement (some (dotted x))) := dotted_node ..
          rw [whole, found_return, found_return]
          exact (ih x (.head _)).2
      | index object key =>
        rw [dotted_node]
        rcases spell_cases m (Form.map dotted (.index object key)) with same | ⟨_, _, _, -, -, same⟩
        · rw [same]
          rfl
        · rw [same]
          rfl
      | call callee args =>
        have silent : ∀ args : List Node, ∀ callee : Node, (found (.node m (.call callee args))).asBody = .error .noReturn := by
          intro args callee
          rw [found, para_node]
          cases args with
          | nil =>
            change (if isPlainFunction callee.form then Found.mk _ _ else _).asBody = _
            split
            · rfl
            · rfl
          | cons a rest => rfl
        rw [silent]
        exact silent ..
      | _ => rfl
    · by_cases called : ∃ callee, f = .call callee [] ∧ isPlainFunction callee.form
      · obtain ⟨callee, rfl, function⟩ := called
        have whole : dotted (.node m (.call callee [])) = .node m (.call (dotted callee) []) := dotted_node ..
        rw [whole, found_call m function, found_call m (by rw [plain, function])]
        exact (ih callee (.head _)).1
      · have itself : (found (.node m f)).asValue = .ok (.node m f) :=
          found_value fun callee same function => called ⟨callee, same, function⟩
        rw [itself]
        change _ = Except.ok (dotted (.node m f))
        rw [dotted_node]
        rcases spell_cases m (f.map dotted) with same | ⟨_, _, _, -, -, same⟩
        · rw [same]
          refine found_value fun callee call function => called ?_
          cases f with
          | call callee' args =>
            obtain ⟨rfl, none⟩ := Form.call.inj call
            refine ⟨callee', ?_, by rwa [← plain]⟩
            rw [map_eq_nil_iff.mp none]
          | _ => cases call
        · rw [same]
          exact found_value fun _ call => by cases call

theorem changed_normaliseMembers (h : IsDotted t) : t.normaliseMembers.changed = 0 := by
  obtain ⟨m, f⟩ := t
  rw [normaliseMembers, collect, form_node, children_map]
  exact sum_changed fun c hc => ((isDotted_node.mp h).2 c hc).settled.2

theorem refusal_dotted {γ : Type} (sort : Category → γ) (h : t.Grammatical) :
    refusal sort t = refusal sort (dotted t) := by
  have shown : ∀ {u : Node}, u.Grammatical → u.form.isExpression → refusal sort u = .error (sort .evaluation) := by
    intro u grammatical expression
    obtain ⟨text, renders⟩ := (grammatical.renders expression).exists_ok
    rw [refusal, renders]
    rfl
  by_cases expression : t.form.isExpression
  · rw [shown h expression, shown (grammatical_dotted h) (@admits_dotted .expression t expression)]
  · obtain ⟨m, f⟩ := t
    cases f with
    | declarator | property | declaration | functionDeclaration | expressionStatement | returnStatement | ifStatement
    | forStatement | whileStatement | tryStatement | breakStatement | continueStatement | block => rfl
    | _ => exact absurd rfl expression

theorem SameHead.peers_symbolic {root other : Node} (h : SameHead root other) (distinct : root.Distinct)
    (distinct' : other.Distinct) (ns : Namespace) : Peers (symbolic ns root) (symbolic ns other) := by
  cases h
  refine ⟨rfl, rfl, ?_, rfl, rfl⟩
  rw [symbolic_free ns distinct, symbolic_free ns distinct']

section Function

variable {root e : Node} (tree : root.IsFunctionTree)

include tree

theorem normaliseMembers_eq_dotted : root.normaliseMembers.node = dotted root := by
  obtain ⟨m, params, body, name, isArrow, rfl⟩ := tree.exists_node
  rw [node_normaliseMembers, dotted_node]
  rfl

/-- The returned expression folds in normal form as it did. -/
theorem kept_returned (returned : Returned root e) (ns : Namespace) :
    Kept id (symbolic ns root) (symbolic ns root.normaliseMembers.node) e (dotted e) := by
  obtain ⟨-, s, hs, rfl⟩ := sight_of_returned tree returned
  have after := tree.normaliseMembers
  have peers := (sameHead_normaliseMembers tree).peers_symbolic tree.distinct after.distinct ns
  have refused : ∀ n ∈ s.node.walk, refusal id n = refusal id (dotted n) :=
    fun n hn => refusal_dotted id (tree.grammatical.subtree (walk_trans returned.mem_walk hn))
  have first : (symbolic ns root).Reads (fun x => Scope.lookup x (s.frames.map Frame.scope)) s.node :=
    reads_of_sights tree.distinct rfl fun v hv => sights_trans hs hv
  refine kept_dotted peers refused first ?_
  by_cases literal : ∃ x, s.node.form = .string x
  · -- a string has no names in it
    obtain ⟨x, form⟩ := literal
    obtain ⟨isWrite, ⟨m, f⟩, frames⟩ := s
    cases form
    exact .node nofun nofun
  · have outermost : (dotted root).outermost = root.outermost := by
      rw [← normaliseMembers_eq_dotted tree, Node.outermost, Node.outermost, if_neg after.not_statement,
        if_neg tree.not_statement]
    have seen := sight_dotted hs fun x form => literal ⟨x, form⟩
    rw [← outermost, ← normaliseMembers_eq_dotted tree] at seen
    exact reads_of_sights after.distinct rfl fun v hv => sights_trans seen hv

theorem blur_foldedResult (returned : Returned root e) (ns : Namespace) :
    blur id (foldedResult ns root.normaliseMembers.node (dotted e)) = blur id (foldedResult ns root e) := by
  have elements : arrayElements? (dotted e) = (arrayElements? e).map (List.map dotted) := by
    obtain ⟨m, f⟩ := e
    rw [dotted_node]
    rcases spell_cases m (f.map dotted) with same | ⟨_, _, _, index, -, same⟩
    · rw [same]
      cases f <;> rfl
    · rw [same]
      cases f <;> cases index
      rfl
  have folds := (kept_returned tree returned ns).fold
  rw [foldedResult, foldedResult, elements]
  cases arrayElements? e with
  | none => exact blur_bind_congr folds.symm fun _ => rfl
  | some es =>
    simp only [Option.map_some, length_map]
    split
    · rfl
    · exact blur_bind_congr folds.symm fun _ => rfl

end Function

theorem shape_foldResult (ns : Namespace) (root : Node) :
    (foldResult ns root).map (fun folded => folded.result.shape) = resultExpression root >>= foldedResult ns root := by
  rw [foldResult]
  cases resultExpression root with
  | error f => rfl
  | ok e =>
    change Except.map _ (foldedResult ns root e >>= _) = foldedResult ns root e
    cases foldedResult ns root e with
    | error f => rfl
    | ok r => exact congrArg Except.ok ((Tree.shape_numberFrom r (nextId root)).trans r.shape_self)

/-- Writing accesses by name changes nothing that is computed: the result of a function folds to the same array, or its
folding goes wrong in the same way. All accesses that can be written by name are, and there is nothing left for a second
run. -/
theorem normalisation_keeps_results (ns : Namespace) (root : Node) (tree : root.IsFunctionTree) :
    ((foldResult ns root.normaliseMembers.node).map fun folded => folded.result.shape).mapError Fault.category =
        ((foldResult ns root).map fun folded => folded.result.shape).mapError Fault.category ∧
      (∀ n ∈ root.normaliseMembers.node.walk, ∀ object key, n.form = .index object key →
        ∀ name, key.form = .string name → ¬ name.isAsciiIdentifier) ∧
      root.normaliseMembers.node.normaliseMembers.node = root.normaliseMembers.node ∧
      root.normaliseMembers.node.normaliseMembers.changed = 0 := by
  have dots := isDotted_dotted root
  have after := tree.normaliseMembers
  refine ⟨?_, ?_, ?_, ?_⟩
  · rw [shape_foldResult, shape_foldResult]
    have result : resultExpression root.normaliseMembers.node = (resultExpression root).map dotted := by
      rw [normaliseMembers_eq_dotted tree]
      exact (found_dotted root).1
    rw [result]
    cases returns : resultExpression root with
    | error f => rfl
    | ok e => exact blur_foldedResult tree (returned_of_resultExpression returns) ns
  · rw [normaliseMembers_eq_dotted tree]
    intro n hn object key index name literal identifier
    have unnamed := dots n hn object key index
    rw [name?, literal] at unnamed
    simp [identifier] at unnamed
  · rw [normaliseMembers_eq_dotted after, normaliseMembers_eq_dotted tree]
    exact dots.settled.1
  · rw [normaliseMembers_eq_dotted tree]
    exact changed_normaliseMembers dots

/-- A function that reaches into the namespace by quoted names, one of which is put together first. -/
def quotedPaths : Text :=
  "function(a)\x7breturn [a?Math['max'](a,Math['P'+'I']):Math['E'],Math['PI'],'x'];function f()\x7breturn a['b']['c d']\x7d\x7d"

theorem quotedPaths_keep_results :
    ∃ shape folded after, parseFunction quotedPaths = .ok shape ∧ (shape.numberFrom 0).normaliseMembers.changed = 4 ∧
      foldResult .standard (shape.numberFrom 0) = .ok folded ∧ folded.result.isLiteral = false ∧
      foldResult .standard (shape.numberFrom 0).normaliseMembers.node = .ok after ∧
      after.result.shape = folded.result.shape := by
  have evaluated : (match parseFunction quotedPaths with
      | .ok shape => match foldResult .standard (shape.numberFrom 0) with
        | .ok folded => (shape.numberFrom 0).normaliseMembers.changed == 4 && !folded.result.isLiteral
        | .error _ => false
      | .error _ => false) = true := by decide +kernel
  split at evaluated
  next shape parsed =>
    split at evaluated
    next folded h =>
      rw [Bool.and_eq_true, beq_iff_eq, Bool.not_eq_true'] at evaluated
      have tree := (function_of_parsed parsed 0).1
      have kept := (normalisation_keeps_results .standard _ tree).1
      rw [h] at kept
      cases done : foldResult .standard (shape.numberFrom 0).normaliseMembers.node with
      | ok after =>
        rw [done] at kept
        exact ⟨shape, folded, after, parsed, evaluated.1, h, evaluated.2, done, Except.ok.inj kept⟩
      | error f =>
        rw [done] at kept
        cases kept
    next => cases evaluated
  next => cases evaluated

end Node

end Unravel
