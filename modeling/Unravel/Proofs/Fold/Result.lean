import Unravel.Proofs.Fold.Residual
import Unravel.Proofs.Fold.Returned
import Unravel.Proofs.Grammar.Reading
import Unravel.Proofs.Scope.Lookup

/-! The folded result of a function, evaluated in the rewritten function for any value of its parameter, gives what
   the expression that the function returned gives. The names in it are resolved again, in the scopes that are
   around it now, and these are the scopes that were around the expression. -/
namespace Unravel

open Outcome Resolution List

variable {e fresh root t : Node} {m : NodeId} {body params : List Node} {name : Option Node} {isArrow : Bool}

namespace Folder

/-- Where an expression is seen, every name in it has the binding that the scopes around the expression give it. -/
theorem reads_of_sights (distinct : root.Distinct) {F : Folder}
    (resolved : F.binding? = (Resolution.of root).bindingOf) {isWrite : Bool} {frames : List Frame} (seen : ∀ s ∈ t.sights isWrite frames, s ∈ root.overview) :
    F.Reads (fun x => Scope.lookup x (frames.map Frame.scope)) t := by
  induction t generalizing isWrite with
  | node m f ih =>
    refine Reads.node ?_ fun c hc => ?_
    · rintro x rfl
      have here := seen _ (Node.mem_sights_node.mpr (Or.inl rfl))
      have listed := mem_references.mpr ⟨_, here, rfl⟩
      rw [resolved]
      exact bindingOf_of_mem distinct listed
    · obtain ⟨p, hp, rfl, role, outer⟩ := place_of_operand hc
      have below : ∀ s ∈ p.tree.sights p.role.isTarget frames, s ∈ root.overview := by
        intro s hs
        refine seen s (Node.mem_sights_node.mpr (Or.inr ⟨p, hp, by rw [role]; rfl, ?_⟩))
        rwa [outer]
      exact ih p.tree (place_mem_children hp) below

end Folder

namespace Node

theorem bindingFor_parameter
    (distinct : Distinct (.node m (.function params body name isArrow))) {p : Node} (hp : p ∈ params) :
    (of (.node m (.function params body name isArrow))).bindingFor p.mark = some ⟨some m, p.name⟩ := by
  have opened : (⟨some m, functionDeclarations m name params body⟩ : Frame) ∈
      frames (.node m (.function params body name isArrow)) :=
    .tail _ (mem_filterMap.mpr ⟨_, mem_sights_node.mpr (Or.inl rfl), rfl⟩)
  have declared : parameter p ∈ functionDeclarations m name params body :=
    mem_append_left _ (mem_append_right _ (mem_map_of_mem hp))
  exact (bindingFor_eq_some distinct).mpr ⟨_, opened, _, declared, rfl, rfl⟩

theorem seeded_values (ns : Namespace) (seed : Value)
    (distinct : Distinct (.node m (.function params body name isArrow))) :
    (Folder.seeded ns (.node m (.function params body name isArrow)) seed).values =
      params.head?.toList.map fun (p : Node) => (⟨some m, p.name⟩, seed) := by
  cases params with
  | nil => rfl
  | cons p rest =>
    have bound := bindingFor_parameter distinct (.head _)
    change ((of (.node m (.function (p :: rest) body name isArrow))).bindingFor p.mark).toList.map _ = _
    rw [bound]
    rfl

theorem symbolic_free (ns : Namespace)
    (distinct : Distinct (.node m (.function params body name isArrow))) :
    (Folder.symbolic ns (.node m (.function params body name isArrow))).free =
      params.map fun (p : Node) => ⟨some m, p.name⟩ := by
  rw [← filterMap_eq_map]
  exact filterMap_congr fun p hp => bindingFor_parameter distinct hp

variable {root e : Node} (tree : root.IsFunctionTree)

include tree

theorem sight_of_returned (returned : Returned root e) :
    e.form.isExpression ∧ ∃ s ∈ root.overview, s.node = e := by
  obtain ⟨⟨m, f⟩, hn, form⟩ := returned
  cases form
  have grammatical := tree.grammatical.subtree hn
  have place : (⟨.expression, false, false, e⟩ : Place Node) ∈ (Form.returnStatement (some e)).places := .head _
  -- a statement is in no place of a name
  have undeclared : ∀ q ∈ root.walk, .node m (.returnStatement (some e)) ∉ q.form.declaredNames := by
    intro q hq declared
    obtain ⟨p, hp, role, same⟩ := mem_declaredNames.mp declared
    have admitted := tree.grammatical q hq p hp
    rw [role, same] at admitted
    cases admitted
  refine ⟨(grammatical_node.mp grammatical).1 _ place, ?_⟩
  obtain ⟨s, hs, same⟩ := exists_sight tree.grammatical false [root.outermost] hn undeclared
  refine ⟨⟨false, e, s.frames⟩, sights_trans hs ?_, rfl⟩
  rw [same]
  exact mem_sights_node.mpr (Or.inr ⟨_, place, rfl, self_mem_sights e false s.frames⟩)

section Exchange

variable {fresh : Node} (returned : Returned root e)

include returned

theorem exchange_root : exchange e fresh root = none :=
  exchange_of_returned tree.distinct returned.mem_walk (self_mem_walk root) returned

variable (expression : fresh.form.isExpression)

include expression

theorem exchange_neutral : Neutral (exchange e fresh) root := by
  obtain ⟨replaced, s, hs, rfl⟩ := sight_of_returned tree returned
  constructor
  · intro n hn p hp role
    have other : p.tree ≠ s.node := by
      intro same
      exact not_mem_declaredNames tree.distinct hs hn (mem_declaredNames.mpr ⟨p, hp, role, same⟩)
    have place : p.tree ∈ root.walk := walk_trans hn (child_mem_walk (place_mem_children hp))
    exact exchange_other tree.distinct returned.mem_walk place other
  · intro n hn r exchanged
    obtain ⟨rfl, rfl⟩ := exchange_eq_some tree.distinct returned.mem_walk hn exchanged
    have quiet : Role.expression.hoists = false := rfl
    rw [hoisted_of_not_hoists quiet expression, hoisted_of_not_hoists quiet replaced]

theorem sights_exchange {s : Sight} (hs : s ∈ root.overview) (same : s.node = e) :
    ∀ v ∈ fresh.sights s.isWrite s.frames, v ∈ (substitute (exchange e fresh) root).overview := by
  subst same
  have seen := substitute_still_seen tree.grammatical (exchange_neutral tree returned expression)
    (exchange_root tree returned) tree.not_statement tree.distinct hs
    fun n hn _ other => exchange_other tree.distinct returned.mem_walk hn other
  rwa [substitute_of_some (exchange_self s.node fresh)] at seen

theorem function_exchange : ∃ m params body name isArrow,
    root = .node m (.function params body name isArrow) ∧
      substitute (exchange e fresh) root = .node m (.function params (body.map (substitute (exchange e fresh)))
        (name.map (substitute (exchange e fresh))) isArrow) := by
  have neutral : Neutral (exchange e fresh) root := exchange_neutral tree returned expression
  have kept : exchange e fresh root = none := exchange_root tree returned
  obtain ⟨m, params, body, name, isArrow, rfl⟩ := tree.exists_node
  have names : params.map (substitute (exchange e fresh)) = params := by
    refine (map_congr_left fun p hp => ?_).trans (List.map_id params)
    have place : (⟨.name, false, false, p⟩ : Place Node) ∈ (Form.function params body name isArrow).places :=
      mem_append_left _ (mem_append_left _ (mem_map_of_mem hp))
    exact neutral.name tree.grammatical place rfl
  refine ⟨m, params, body, name, isArrow, rfl, ?_⟩
  rw [substitute_of_none kept, Form.map, names]

theorem parameters_exchange (distinct : (substitute (exchange e fresh) root).Distinct) (ns : Namespace) :
    (∀ seed, (Folder.seeded ns (substitute (exchange e fresh) root) seed).values = (Folder.seeded ns root seed).values) ∧
      (Folder.symbolic ns (substitute (exchange e fresh) root)).free = (Folder.symbolic ns root).free := by
  obtain ⟨m, params, body, name, isArrow, before, after⟩ := function_exchange tree returned expression
  have apart := tree.distinct
  rw [after] at distinct ⊢
  rw [before] at apart ⊢
  refine ⟨fun seed => ?_, ?_⟩
  · rw [seeded_values ns seed distinct, seeded_values ns seed apart]
  · rw [symbolic_free ns distinct, symbolic_free ns apart]

end Exchange

end Node

namespace Folder

theorem array_of_shape {n : Node} {rs : List Shape} (h : n.shape = node (.array rs)) :
    ∃ m es, n = .node m (.array es) ∧ es.map Tree.shape = rs := by
  obtain ⟨m, f⟩ := n
  rw [Tree.shape_node] at h
  cases f with
  | array es =>
    cases h
    exact ⟨m, es, rfl, rfl⟩
  | _ => cases h

theorem evaluate_triple (F : Folder) {n : Node} {a b c : Shape} (shape : n.shape = node (.array [a, b, c])) {v : Value}
    (h : F.evaluate n = .ok v) : ∃ x y z, v = .array [x, y, z] := by
  obtain ⟨m, es, rfl, shapes⟩ := array_of_shape shape
  obtain ⟨r, folds, h⟩ := bind_eq_ok.mp h
  rw [fold_array] at folds
  obtain ⟨rs, all, folds⟩ := bind_eq_ok.mp folds
  cases folds
  split at h
  next =>
    rw [node, Tree.literalValue_array] at h
    obtain ⟨vs, values, h⟩ := bind_eq_ok.mp h
    cases h
    have length : vs.length = 3 := by
      rw [← (forall₂_of_mapM values).length_eq, ← (forall₂_of_mapM all).length_eq, ← length_map, shapes]
      rfl
    obtain ⟨x, y, z, rfl⟩ := length_eq_three.mp length
    exact ⟨x, y, z, rfl⟩
  next =>
    obtain ⟨text, -, h⟩ := bind_eq_ok.mp h
    cases h

end Folder

namespace Node

open Folder

/-- An array of three, as the result of a function has to be. -/
def checkTriple (folded : Shape) : Outcome Shape := do
  match arrayElements? folded with
  | some [_, _, _] => return folded
  | _ => throw (.notTriple (← folded.renderExpression))

theorem foldedResult_cases (ns : Namespace) (function e : Node) :
    (∃ n, foldedResult ns function e = .error (.elementCount n)) ∨
      foldedResult ns function e = (symbolic ns function).fold e >>= checkTriple := by
  rw [foldedResult]
  split
  next es _ =>
    dsimp only
    split
    next => exact .inl ⟨es.length, rfl⟩
    next => exact .inr rfl
  next => exact .inr rfl

theorem foldedResult_eq_ok {ns : Namespace} {function : Node} {r : Shape} (h : foldedResult ns function e = .ok r) :
    (symbolic ns function).fold e = .ok r ∧ ∃ a b c, r = Folder.node (.array [a, b, c]) := by
  rcases foldedResult_cases ns function e with ⟨n, fails⟩ | checked
  · cases fails.symm.trans h
  obtain ⟨⟨m, f⟩, folds, result⟩ := bind_eq_ok.mp (checked.symm.trans h)
  rw [checkTriple] at result
  split at result
  next a b c elements =>
    cases result
    cases f with
    | array es =>
      cases elements
      exact ⟨folds, a, b, c, rfl⟩
    | _ => cases elements
  next =>
    obtain ⟨text, -, result⟩ := bind_eq_ok.mp result
    cases result

/-- What is left of the returned expression, put in its place, folds to what the expression folds to in a second stage.
Another expression that is read in the same way may stand for it. -/
theorem fold_staged (tree : root.IsFunctionTree) (undotted : t.Undotted) (returned : Returned root e)
    (reads : ∀ {F : Folder} {names}, F.Reads names e → F.Reads names t) (expression : fresh.form.isExpression)
    (after : (substitute (exchange e fresh) root).Distinct) {ns : Namespace} {V W : Folder}
    (stages : Stages (symbolic ns root) V W) (direct : V.binding? = (Resolution.of root).bindingOf)
    (later : W.binding? = (Resolution.of (substitute (exchange e fresh) root)).bindingOf)
    (first : (symbolic ns root).fold t = .ok fresh.shape) : W.fold fresh = V.fold t := by
  obtain ⟨-, s, hs, same⟩ := sight_of_returned tree returned
  have before : ∀ v ∈ e.sights s.isWrite s.frames, v ∈ root.overview := fun v hv => sights_trans hs (same ▸ hv)
  have carried := carried stages (reads (reads_of_sights tree.distinct rfl before))
    (reads (reads_of_sights tree.distinct direct before)) undotted
  exact (carried.result _ first).later fresh rfl (reads_of_sights after later (sights_exchange tree returned expression hs same))

theorem fold_exchange_through (tree : root.IsFunctionTree) (undotted : t.Undotted)
    (returned : Returned root e) (reads : ∀ {F : Folder} {names}, F.Reads names e → F.Reads names t)
    (distinct : fresh.Distinct) (apart : ∀ x ∈ fresh.ids, x ∉ root.ids) (expression : fresh.form.isExpression)
    (ns : Namespace) (first : (symbolic ns root).fold t = .ok fresh.shape) (seed : Value) :
    (seeded ns (substitute (exchange e fresh) root) seed).fold fresh = (seeded ns root seed).fold t := by
  have after : (substitute (exchange e fresh) root).Distinct :=
    tree.distinct.substitute (.single tree.distinct distinct apart e.mark)
  exact fold_staged tree undotted returned reads expression after
    ⟨rfl, rfl, rfl, rfl, (parameters_exchange tree returned expression after ns).1 seed, rfl⟩ rfl rfl first

theorem fold_exchange (tree : root.IsFunctionTree) (undotted : root.Undotted)
    (returned : Returned root e) (distinct : fresh.Distinct) (apart : ∀ x ∈ fresh.ids, x ∉ root.ids)
    (expression : fresh.form.isExpression) (ns : Namespace) (first : (symbolic ns root).fold e = .ok fresh.shape)
    (seed : Value) :
    (seeded ns (substitute (exchange e fresh) root) seed).fold fresh = (seeded ns root seed).fold e :=
  fold_exchange_through tree (fun n hn => undotted n (walk_trans returned.mem_walk hn)) returned id distinct apart
    expression ns first seed

theorem function_of_parsed {source : Text} {shape : Shape} (parsed : parseFunction source = .ok shape) (start : NodeId) :
    IsFunctionTree (shape.numberFrom start) ∧ (shape.numberFrom start).Undotted := by
  have fits := (ends_parseFunction source).of_ok parsed
  obtain ⟨parameter, body, name, isArrow, function⟩ := function_of_parseFunction parsed
  have same : (shape.numberFrom start).shape = shape := (Tree.shape_numberFrom shape start).trans shape.shape_self
  have distinct := Tree.distinct_numberFrom shape start
  generalize shape.numberFrom start = root at *
  subst same
  refine ⟨⟨?_, distinct, Tree.grammatical_shape fits.grammatical⟩, fun n hn => ?_⟩
  · rw [Tree.form_shape] at function
    cases form : root.form with
    | function params body name isArrow => exact ⟨params, body, name, isArrow, rfl⟩
    | _ =>
      rw [form] at function
      cases function
  · have plain := fits.undotted n.shape (Tree.walk_shape root ▸ mem_map_of_mem hn)
    rwa [Tree.form_shape, Form.isUndotted_map] at plain

/-- Folding the result of a function in advance changes no answer. -/
theorem residual_equivalence (ns : Namespace) (source : Text) (shape : Shape) (parsed : parseFunction source = .ok shape)
    (start : NodeId) (folded : FoldedFunction) (h : foldResult ns (shape.numberFrom start) = .ok folded) (seed : Value) :
    ∃ e, resultExpression (shape.numberFrom start) = .ok e ∧
      resultExpression folded.function = .ok folded.result ∧
      (seeded ns folded.function seed).evaluate folded.result =
        (seeded ns (shape.numberFrom start) seed).evaluate e ∧
      ∀ v, (seeded ns (shape.numberFrom start) seed).evaluate e = .ok v → ∃ x y z, v = .array [x, y, z] := by
  obtain ⟨e, result, h⟩ := bind_eq_ok.mp h
  obtain ⟨r, folds, h⟩ := bind_eq_ok.mp h
  cases h
  obtain ⟨tree, undotted⟩ := function_of_parsed parsed start
  obtain ⟨first, a, b, c, triple⟩ := foldedResult_eq_ok folds
  generalize shape.numberFrom start = root at *
  have new : (r.numberFrom (nextId root)).shape = r := (Tree.shape_numberFrom r (nextId root)).trans r.shape_self
  have distinct := Tree.distinct_numberFrom r (nextId root)
  have apart : ∀ x ∈ (r.numberFrom (nextId root)).ids, x ∉ root.ids :=
    fun x hx old => absurd (lt_nextId old) (Nat.not_lt.mpr (Tree.le_of_mem_numberFrom hx))
  generalize r.numberFrom (nextId root) = fresh at *
  subst new
  have returned := returned_of_resultExpression result
  have array : ∃ es, fresh.form = .array es := by
    obtain ⟨m, es, same, -⟩ := array_of_shape triple
    exact ⟨es, congrArg Tree.form same⟩
  obtain ⟨es, array⟩ := array
  have expression : fresh.form.isExpression := by
    rw [array]
    rfl
  have same : (seeded ns (substitute (exchange e fresh) root) seed).evaluate fresh = (seeded ns root seed).evaluate e := by
    rw [evaluate, evaluate, fold_exchange tree undotted returned distinct apart expression ns first seed]
  refine ⟨e, result, ?_, same, fun v value => ?_⟩
  · have replaced := isReturn_of_isExpression (sight_of_returned tree returned).1
    exact (found_substitute tree.distinct returned.mem_walk replaced array (Tree.self_mem_walk root)).1 result
  · rw [← same] at value
    exact evaluate_triple _ triple value

/-- A function whose result stands behind another function and depends on its parameter. -/
def nestedResult : Text := "function(a)\x7breturn function()\x7breturn [a?isNaN(a):-a,1+2,typeof 'x']\x7d()\x7d"

theorem nestedResult_equivalence :
    ∃ shape folded, parseFunction nestedResult = .ok shape ∧
      foldResult .standard (shape.numberFrom 0) = .ok folded ∧ folded.result.isLiteral = false ∧
      ∃ e, resultExpression (shape.numberFrom 0) = .ok e ∧
        (seeded .standard folded.function (.number .one)).evaluate folded.result =
          (seeded .standard (shape.numberFrom 0) (.number .one)).evaluate e := by
  have evaluated : (match parseFunction nestedResult with
      | .ok shape => match foldResult .standard (shape.numberFrom 0) with
        | .ok folded => !folded.result.isLiteral
        | .error _ => false
      | .error _ => false) = true := by decide +kernel
  split at evaluated
  next shape parsed =>
    split at evaluated
    next folded h =>
      obtain ⟨e, result, -, same, -⟩ := residual_equivalence .standard nestedResult shape parsed 0 folded h (.number .one)
      exact ⟨shape, folded, parsed, h, by simpa using evaluated, e, result, same⟩
    next => cases evaluated
  next => cases evaluated

end Node

end Unravel
