import Mathlib.Data.List.Induction
import Unravel.Fold
import Unravel.Proofs.Outcome
import Unravel.Proofs.Syntax.Numbering

/-! What folding makes of single parts. A literal folds to itself whatever is known, and the chain of accesses that
   a path is written as spells that path. -/
namespace Unravel

open Outcome List

variable {f : Form Node} {n t : Node} {m : NodeId} {path x : Text} {names : Text → Option BindingId}

namespace Tree

variable {α : Type}

theorem isLiteral_array (m : α) (es : List (Tree α)) : isLiteral (node m (.array es)) = es.all isLiteral := by
  rw [isLiteral, fold_node]
  exact all_map

theorem literalValue_array (m : α) (es : List (Tree α)) :
    literalValue (node m (.array es)) = do return .array (← es.mapM literalValue) := by
  rw [literalValue, fold_node, Form.map]
  change (do return Value.array (← (es.map literalValue).mapM id)) = _
  rw [mapM_map]
  rfl

theorem isLiteral_shape (t : Tree α) : t.shape.isLiteral = t.isLiteral := by
  induction t with
  | node m f ih =>
    cases f with
    | array es =>
      rw [shape_node, Form.map, isLiteral_array, isLiteral_array, all_map, Bool.eq_iff_iff, all_eq_true,
        all_eq_true]
      exact forall₂_congr fun e he => by rw [Function.comp_apply, ih e he]
    | _ => rfl

theorem literalValue_shape (t : Tree α) : t.shape.literalValue = t.literalValue := by
  induction t with
  | node m f ih =>
    cases f with
    | array es =>
      rw [shape_node, Form.map, literalValue_array, literalValue_array, mapM_map]
      have same : es.mapM (literalValue ∘ shape) = es.mapM literalValue := by
        induction es with
        | nil => rfl
        | cons e rest ih' =>
          rw [mapM_cons, mapM_cons, Function.comp_apply, ih e (.head _),
            ih' fun d hd => ih d (.tail e hd)]
      rw [same]
    | _ => rfl
end Tree

namespace Text

variable {c : CodePoint}

theorem exists_splitOn (c : CodePoint) (t : Text) : ∃ piece pieces, splitOn c t = piece :: pieces := by
  cases t with
  | nil => exact ⟨[], [], rfl⟩
  | cons x rest =>
    rw [splitOn]
    split
    · exact ⟨[], splitOn c rest, rfl⟩
    · split
      next => exact ⟨[x], [], rfl⟩
      next piece pieces _ => exact ⟨x :: piece, pieces, rfl⟩

theorem splitOn_append (c : CodePoint) (s t : Text) : splitOn c (s ++ c :: t) = splitOn c s ++ splitOn c t := by
  induction s with
  | nil => simp [splitOn]
  | cons x rest ih =>
    rw [cons_append, splitOn, splitOn, ih]
    split
    · rfl
    · obtain ⟨piece, pieces, split⟩ := exists_splitOn c rest
      rw [split]
      rfl

theorem splitOn_of_not_mem {t : Text} (h : c ∉ t) : splitOn c t = [t] := by
  induction t with
  | nil => rfl
  | cons x rest ih =>
    rw [mem_cons, not_or] at h
    rw [splitOn, if_neg (Ne.symm h.1), ih h.2]

theorem eq_of_splitOn {t piece : Text} {pieces : List Text} (h : splitOn c t = piece :: pieces) :
    t = piece ++ pieces.flatMap fun p => c :: p := by
  induction t generalizing piece pieces with
  | nil =>
    cases h
    rfl
  | cons x rest ih =>
    rw [splitOn] at h
    split at h
    next same =>
      obtain ⟨first, others, split⟩ := exists_splitOn c rest
      cases h
      rw [split, nil_append, flatMap_cons, cons_append, ← ih split, same]
    next =>
      obtain ⟨first, others, split⟩ := exists_splitOn c rest
      rw [split] at h
      cases h
      rw [cons_append, ← ih split]

end Text

namespace Value

mutual

theorem gives_toShape (v : Value) : v.toShape.Gives fun r => r.isLiteral := by
  cases v with
  | array items =>
    rw [toShape]
    refine (gives_toShapes items).bind fun rs hrs => gives_pure ?_
    rw [Tree.isLiteral_array]
    exact hrs
  | null => exact gives_error _
  | _ => exact gives_ok rfl

theorem gives_toShapes (vs : List Value) : (toShapes vs).Gives fun rs => Folder.areLiteral rs := by
  cases vs with
  | nil => exact gives_ok rfl
  | cons v rest =>
    rw [toShapes]
    refine (gives_toShape v).bind fun r hr => (gives_toShapes rest).bind fun rs hrs => gives_pure ?_
    rw [Folder.areLiteral, all_cons, hr, Bool.true_and]
    exact hrs

end

end Value

namespace Folder

variable (F : Folder)

/-- The path that an expression spells. -/
def spelled (t : Node) : Outcome Text := (t.para F.layer).path ()

theorem fold_node (m : NodeId) (f : Form Node) : F.fold (.node m f) = F.result m (f.map fun c => (c, c.para F.layer)) := by
  rw [fold, para_node]
  rfl

theorem spelled_node (m : NodeId) (f : Form Node) :
    F.spelled (.node m f) = F.path m (f.map fun c => (c, c.para F.layer)) := by
  rw [spelled, para_node]
  rfl

theorem results_map (es : List Node) : results (es.map fun c => (c, c.para F.layer)) = es.mapM F.fold := by
  rw [results, mapM_map]
  rfl

section Operations

variable (m : NodeId)

theorem fold_identifier (x : Text) : F.fold (.node m (.identifier x)) = F.identifier m x := by
  rw [fold_node]
  rfl

theorem fold_array (es : List Node) : F.fold (.node m (.array es)) = do return node (.array (← es.mapM F.fold)) := by
  rw [fold_node, ← results_map]
  rfl

theorem fold_sequence (es : List Node) : F.fold (.node m (.sequence es)) = (do
    let folded ← es.mapM F.fold
    match folded.getLast? with
    | some last => if areLiteral folded then return last else return node (.sequence folded)
    | none => throw (.outsideGrammar "Sequence")) := by
  rw [fold_node, ← results_map]
  rfl

theorem fold_unary (op : UnaryOp) (x : Node) : F.fold (.node m (.unary op x)) =
    if op.isFoldable then do
      let v ← F.fold x
      if v.isLiteral then (← Value.unary op (← v.literalValue)).toShape else return node (.unary op v)
    else .error (.unfoldableOperator "unary" op.symbol) := by
  rw [fold_node]
  change unary op _ = _
  rw [unary]
  cases op.isFoldable <;> rfl

theorem fold_strict {op : BinaryOp} (strict : op.isLogical = false) (left right : Node) :
    F.fold (.node m (.binary op left right)) =
      if op.isStrict then do
        let l ← F.fold left
        let r ← F.fold right
        if l.isLiteral && r.isLiteral then
          let x ← l.literalValue
          (← Value.binary op x (← r.literalValue)).toShape
        else return node (.binary op l r)
      else .error (.unfoldableOperator "binary" op.symbol) := by
  rw [fold_node]
  change binary op _ _ = _
  rw [binary, strict]
  rfl

theorem fold_logical {op : BinaryOp} (logical : op.isLogical) (left right : Node) :
    F.fold (.node m (.binary op left right)) = do
      let l ← F.fold left
      if l.isLiteral then
        if goesRight op (← l.literalValue) then F.fold right else return l
      else return node (.binary op l (← F.fold right)) := by
  rw [fold_node]
  change binary op _ _ = _
  rw [binary, if_pos logical]
  refine congrArg (bind (F.fold left)) (funext fun l => ?_)
  cases l.isLiteral <;> rfl

theorem fold_conditional (test consequent alternate : Node) :
    F.fold (.node m (.conditional test consequent alternate)) = do
      let t ← F.fold test
      if t.isLiteral then
        if (← t.literalValue).toBoolean then F.fold consequent else F.fold alternate
      else
        let c ← F.fold consequent
        return node (.conditional t c (← F.fold alternate)) := by
  rw [fold_node]
  rfl

theorem spelled_member (object : Node) (name : Text) :
    F.spelled (.node m (.member object name)) = do return (← F.spelled object) ++ "." ++ name := by
  rw [spelled_node]
  rfl

theorem spelled_index (object key : Node) : F.spelled (.node m (.index object key)) = do
    let name ← staticKey (key, key.para F.layer)
    return (← F.spelled object) ++ "." ++ name := by
  rw [spelled_node]
  rfl

/-- Names and accesses spell paths. -/
def isPath {ρ : Type} : Form ρ → Bool
  | .identifier .. | .member .. | .index .. => true
  | _ => false

theorem spelled_other (other : isPath f = false) :
    F.spelled (.node m f) = (do throw (.notPath (← (Tree.node m f).renderExpression))) := by
  rw [spelled_node, path.eq_def]
  split
  next x same => cases f <;> cases same; cases other
  next same => cases f <;> cases same; cases other
  next same => cases f <;> cases same; cases other
  next => rw [Form.map_fst_pair]

theorem fold_access (access : (∃ object name, f = .member object name) ∨ ∃ object key, f = .index object key) :
    F.fold (.node m f) = F.spelled (.node m f) >>= F.read := by
  rw [fold_node, spelled_node]
  rcases access with ⟨object, name, rfl⟩ | ⟨object, key, rfl⟩
  · rfl
  · rfl

end Operations

theorem fold_of_isLiteral (h : n.isLiteral) : F.fold n = .ok n.shape := by
  induction n with
  | node m f ih =>
    cases f with
    | array es =>
      rw [Tree.isLiteral_array, all_eq_true] at h
      have each : ∀ e ∈ es, F.fold e = .ok e.shape := fun e he => ih e he (h e he)
      rw [fold_array, mapM_eq_ok each, Tree.shape_node]
      rfl
    | number _ | string _ | boolean _ | undefined => rfl
    | _ => cases h

theorem evaluate_eq_ok {v : Value} :
    F.evaluate t = .ok v ↔ ∃ s, F.fold t = .ok s ∧ s.isLiteral ∧ s.literalValue = .ok v := by
  rw [evaluate, bind_eq_ok]
  refine exists_congr fun s => and_congr_right fun _ => ?_
  split
  next literal => exact (and_iff_right literal).symm
  next symbolic =>
    refine iff_of_false ?_ fun h => symbolic h.1
    intro h
    obtain ⟨text, -, h⟩ := bind_eq_ok.mp h
    cases h

theorem evaluate_of_isLiteral (h : n.isLiteral) : F.evaluate n = n.literalValue := by
  have literal : n.shape.isLiteral := by rwa [Tree.isLiteral_shape]
  rw [evaluate, F.fold_of_isLiteral h]
  change (if n.shape.isLiteral then _ else _) = _
  rw [if_pos literal, Tree.literalValue_shape]

theorem mapM_evaluate {es : List Node} {vs : List Value} :
    es.mapM F.evaluate = .ok vs ↔ ∃ ss, es.mapM F.fold = .ok ss ∧ areLiteral ss ∧ ss.mapM Tree.literalValue = .ok vs := by
  induction es generalizing vs with
  | nil =>
    constructor
    · intro h
      exact ⟨[], rfl, rfl, h⟩
    · rintro ⟨ss, folds, -, values⟩
      cases folds
      exact values
  | cons e rest ih =>
    simp only [mapM_cons, bind_eq_ok, evaluate_eq_ok, ih]
    constructor
    · rintro ⟨v, ⟨s, folds, literal, value⟩, ws, ⟨ss, all, literals, values⟩, h⟩
      refine ⟨s :: ss, ⟨s, folds, ss, all, rfl⟩, ?_, ?_⟩
      · simp_all [areLiteral]
      · rw [mapM_cons, value, values]
        exact h
    · rintro ⟨ts, ⟨s, folds, ss, all, h⟩, literals, values⟩
      cases h
      rw [areLiteral, all_cons, Bool.and_eq_true] at literals
      obtain ⟨v, value, values⟩ := bind_eq_ok.mp (mapM_cons.symm.trans values)
      obtain ⟨ws, rest', h⟩ := bind_eq_ok.mp values
      exact ⟨v, ⟨s, folds, literals.1, value⟩, ws, ⟨ss, all, literals.2, rest'⟩, h⟩

theorem evaluate_array {es : List Node} {vs : List Value} :
    F.evaluate (.node m (.array es)) = .ok (.array vs) ↔ es.mapM F.evaluate = .ok vs := by
  rw [evaluate_eq_ok, mapM_evaluate, fold_array]
  constructor
  · rintro ⟨s, folds, literal, value⟩
    obtain ⟨ss, all, h⟩ := bind_eq_ok.mp folds
    cases h
    rw [node, Tree.isLiteral_array] at literal
    rw [node, Tree.literalValue_array] at value
    obtain ⟨ws, values, h⟩ := bind_eq_ok.mp value
    cases h
    exact ⟨ss, all, literal, values⟩
  · rintro ⟨ss, all, literals, values⟩
    refine ⟨node (.array ss), ?_, ?_, ?_⟩
    · rw [all]
      rfl
    · rwa [node, Tree.isLiteral_array]
    · rw [node, Tree.literalValue_array, values]
      rfl
/-- The parts of an expression that folding looks at. No scope opens between an expression and its operands. -/
def operands {ρ : Type} : Form ρ → List ρ
  | .array es | .sequence es => es
  | .call callee args => callee :: args
  | .member object _ => [object]
  | .index object key => [object, key]
  | .binary _ left right => [left, right]
  | .unary _ operand => [operand]
  | .conditional test consequent alternate => [test, consequent, alternate]
  | _ => []

theorem mem_children_of_operands {ρ : Type} {f : Form ρ} {c : ρ} (h : c ∈ operands f) : c ∈ f.children := by
  cases f with
  | array | sequence | call | member | index | binary | unary | conditional => exact h
  | _ => cases h

theorem place_of_operand {ρ : Type} {f : Form ρ} {c : ρ} (h : c ∈ operands f) :
    ∃ p ∈ f.places, p.tree = c ∧ p.role = .expression ∧ p.isInner = false := by
  have outer : ∀ p ∈ f.places, p.role = .expression ∧ p.isInner = false := by
    cases f with
    | array | sequence | call | member | index | binary | unary | conditional => simp [Form.places, Place.free, Place.fixed]
    | _ => cases h
  obtain ⟨p, hp, tree⟩ := Form.mem_children.mp (mem_children_of_operands h)
  exact ⟨p, hp, tree, outer p hp⟩

/-- Every name in an expression has the binding that its text alone determines. -/
inductive Reads (names : Text → Option BindingId) : Node → Prop
  | node {m : NodeId} {f : Form Node} (name : ∀ x, f = .identifier x → F.binding? m = names x)
    (operands : ∀ c ∈ operands f, Reads names c) : Reads names (.node m f)

namespace Reads

variable {F} {names : Text → Option BindingId}

theorem binding (h : F.Reads names (.node m (.identifier x))) : F.binding? m = names x := by
  cases h with
  | node name _ => exact name x rfl

theorem operand (h : F.Reads names (.node m f)) {c : Node} (hc : c ∈ operands f) :
    F.Reads names c := by
  cases h with
  | node _ parts => exact parts c hc

end Reads

/-- The first name of a path is bound by nothing. -/
def IsGlobal (names : Text → Option BindingId) (path : Text) : Prop :=
  ∃ x rest, Text.splitOn '.' path = x :: rest ∧ names x = none

/-- Where no local name is in the way, the chain of accesses of a path spells it. -/
theorem spelled_chain (free : names x = none) (rest : List Text)
    (shape : n.shape = rest.foldl (fun object name => node (.member object name)) (Shape.identifier x))
    (reads : F.Reads names n) : F.spelled n = .ok (x ++ rest.flatMap fun p => ofChar '.' :: p) := by
  induction rest using List.reverseRecOn generalizing n with
  | nil =>
    obtain ⟨m, f⟩ := n
    rw [Tree.shape_node] at shape
    cases f with
    | identifier y =>
      cases shape
      have unbound : F.binding? m = none := reads.binding.trans free
      rw [spelled_node]
      change (if (F.binding? m).isSome then _ else _) = _
      rw [unbound, flatMap_nil, append_nil]
      rfl
    | _ => cases shape
  | append_singleton rest y ih =>
    rw [foldl_concat] at shape
    obtain ⟨m, f⟩ := n
    rw [Tree.shape_node] at shape
    cases f with
    | member object name =>
      simp only [node, Form.map, Tree.node.injEq, Form.member.injEq, true_and] at shape
      obtain ⟨below, rfl⟩ := shape
      rw [spelled_node]
      change (do return (← F.spelled object) ++ "." ++ name) = _
      have point : Text.ofString "." = ['.'] := rfl
      rw [ih below (reads.operand (.head _)), flatMap_append, flatMap_singleton, point,
        ← append_assoc]
      exact congrArg Except.ok (append_assoc _ _ _)
    | _ => cases shape

theorem spelled_pathShape (free : IsGlobal names path)
    (shape : n.shape = pathShape path) (reads : F.Reads names n) : F.spelled n = .ok path := by
  obtain ⟨x, rest, split, free⟩ := free
  rw [pathShape, split] at shape
  rw [F.spelled_chain free rest shape reads, ← Text.eq_of_splitOn split]

theorem isGlobal_extend (h : IsGlobal names path) (name : Text) :
    IsGlobal names (path ++ "." ++ name) := by
  obtain ⟨x, rest, split, free⟩ := h
  have point : path ++ Text.ofString "." ++ name = path ++ ofChar '.' :: name := append_assoc _ _ _
  refine ⟨x, rest ++ Text.splitOn '.' name, ?_, free⟩
  rw [point, Text.splitOn_append, split]
  rfl

theorem spelled_identifier (h : F.spelled (.node m (.identifier x)) = .ok path) :
    F.binding? m = none ∧ path = x := by
  rw [spelled_node] at h
  change (if (F.binding? m).isSome then _ else _) = _ at h
  split at h
  next => cases h
  next unbound =>
    cases h
    exact ⟨Option.not_isSome_iff_eq_none.mp unbound, rfl⟩

section Calls

variable {F} {m : NodeId} {callee : Node} {args : List Node}

theorem fold_call_local {k : NodeId} {b : BindingId} (bound : F.binding? k = some b) (x : Text) :
    F.fold (.node m (.call (.node k (.identifier x)) args)) = F.callLocal b (args.map fun c => (c, c.para F.layer)) := by
  rw [fold_node, Form.map, result, call]
  dsimp only [Tree.form, Tree.mark]
  rw [bound]

theorem fold_call_path (free : ∀ k x, callee = .node k (.identifier x) → F.binding? k = none) :
    F.fold (.node m (.call callee args)) = (do F.callPath (← F.spelled callee) (args.map fun c => (c, c.para F.layer))) := by
  rw [fold_node, Form.map, result, call]
  obtain ⟨k, f⟩ := callee
  cases f with
  | identifier x =>
    dsimp only [Tree.form, Tree.mark]
    rw [free k x rfl]
    rfl
  | _ => rfl

/-- A call is one of the function that its callee is bound to, or of the path that the callee spells. -/
theorem fold_call_cases (F : Folder) (m : NodeId) (callee : Node) (args : List Node) :
    (∃ k x b, callee = .node k (.identifier x) ∧ F.binding? k = some b ∧
      F.fold (.node m (.call callee args)) = F.callLocal b (args.map fun c => (c, c.para F.layer))) ∨
    F.fold (.node m (.call callee args)) = (do F.callPath (← F.spelled callee) (args.map fun c => (c, c.para F.layer))) := by
  by_cases free : ∀ k x, callee = .node k (.identifier x) → F.binding? k = none
  · exact .inr (fold_call_path free)
  · push Not at free
    obtain ⟨k, x, rfl, bound⟩ := free
    obtain ⟨b, bound⟩ := Option.ne_none_iff_exists'.mp bound
    exact .inl ⟨k, x, b, rfl, bound, fold_call_local bound x⟩

theorem fold_call (h : F.spelled callee = .ok path) :
    F.fold (.node m (.call callee args)) = F.callPath path (args.map fun c => (c, c.para F.layer)) := by
  rw [fold_call_path, h]
  · rfl
  · rintro k x rfl
    exact (F.spelled_identifier h).1

theorem spelled_of_fold_call (plain : F.resolvers = []) {r : Shape} (h : F.fold (.node m (.call callee args)) = .ok r) :
    ∃ path, F.spelled callee = .ok path := by
  rcases F.fold_call_cases m callee args with ⟨k, x, b, rfl, bound, same⟩ | same
  · rw [same, callLocal, resolver?, plain] at h
    cases h
  · rw [same] at h
    obtain ⟨path, spelled, -⟩ := bind_eq_ok.mp h
    exact ⟨path, spelled⟩

theorem callPath_congr {G : Folder} (same : F.ns = G.ns) (path : Text) {args others : List Child}
    (length : args.length = others.length) (folds : results args = results others) :
    F.callPath path args = G.callPath path others := by
  rw [callPath, callPath, same, length, folds]

theorem callPath_measured {path : Text} {args : List Child} {entry : Entry} (found : F.ns.lookup path = .ok entry)
    (arity : entry.checkArity args.length = .ok ()) {v : Option Value} (measured : entry.behaviour = .measuredCall v) :
    F.callPath path args = entry.measuredValue >>= Value.toShape := by
  have callable : entry.isCallable = true := by rw [Entry.isCallable, measured]
  simp only [callPath, found, callable, arity, measured, bind, Except.bind, Bool.not_true, Bool.false_eq_true, if_false]

/-- A function of the table takes the number of arguments. -/
def IsTaken (F : Folder) (path : Text) (count : Nat) : Prop :=
  ∃ entry least most apply, F.ns.lookup? path = some entry ∧ entry.behaviour = .function least most apply ∧ entry.accepts count

theorem lookup_eq_ok {ns : Namespace} {entry : Entry} (h : ns.lookup path = .ok entry) : ns.lookup? path = some entry := by
  rw [Namespace.lookup] at h
  split at h
  next found =>
    cases h
    exact found
  next => cases h

theorem callPath_cases {path : Text} {args : List Child} {r : Shape} (h : F.callPath path args = .ok r) :
    (r.isLiteral ∧ ∀ (G : Folder) (others : List Child), F.ns = G.ns → args.length = others.length →
      G.callPath path others = .ok r) ∨
    ∃ rs, results args = .ok rs ∧ (areLiteral rs ∧ r.isLiteral ∨
      r = node (.call (pathShape path) rs) ∧ areLiteral rs = false ∧ F.IsTaken path args.length) := by
  rw [callPath] at h
  obtain ⟨entry, found, h⟩ := bind_eq_ok.mp h
  dsimp only at h
  split at h
  next => cases h
  next callable =>
    obtain ⟨⟨⟩, arity, h⟩ := bind_eq_ok.mp h
    split at h
    next v measured =>
      refine Or.inl ⟨(gives_after Value.gives_toShape) r h, fun G others same length => ?_⟩
      rw [same] at found
      rw [length] at arity
      rw [callPath_measured found arity measured, h]
    next unmeasured =>
      obtain ⟨rs, folded, h⟩ := bind_eq_ok.mp h
      refine Or.inr ⟨rs, folded, ?_⟩
      split at h
      next literal => exact Or.inl ⟨literal, (gives_after fun _ => gives_after Value.gives_toShape) r h⟩
      next symbolic =>
        cases h
        refine Or.inr ⟨rfl, Bool.eq_false_iff.mpr symbolic, ?_⟩
        have accepted : entry.accepts args.length := by
          rw [Entry.checkArity] at arity
          split at arity
          next accepted => exact accepted
          next => cases arity
        obtain ⟨path', behaviour⟩ := entry
        cases behaviour with
        | function least most apply => exact ⟨_, least, most, apply, lookup_eq_ok found, rfl, accepted⟩
        | measuredCall v => exact absurd rfl (unmeasured v)
        | constant | measuredField => exact absurd rfl callable

end Calls

section Names

variable {F : Folder} {other : NodeId → Option BindingId}

theorem layer_identifier_congr (same : other m = F.binding? m) (x : Text) :
    layer { F with binding? := other } m (.identifier x) = F.layer m (.identifier x) := by
  simp only [layer, result, identifier, path, same]
  rfl

theorem layer_call_congr {callee : Node} (same : other callee.mark = F.binding? callee.mark) (m : NodeId) (part : Part)
    (args : List Child) : layer { F with binding? := other } m (.call (callee, part) args) = F.layer m (.call (callee, part) args) := by
  rw [layer, layer, result, result, call, call]
  dsimp only
  rw [same]
  rfl

/-- Only the names in an expression are looked up when it is folded. -/
theorem para_layer_congr (names : ∀ n ∈ t.walk, other n.mark = F.binding? n.mark) :
    t.para (layer { F with binding? := other }) = t.para F.layer := by
  induction t with
  | node m f ih =>
    have parts : f.map (fun c => (c, c.para (layer { F with binding? := other }))) = f.map fun c => (c, c.para F.layer) :=
      Form.map_congr fun c hc => congrArg (Prod.mk c) (ih c hc fun n hn => names n (mem_walk_of_child m hc hn))
    rw [para_node, para_node, parts]
    cases f with
    | identifier x => exact layer_identifier_congr (names _ (self_mem_walk _)) x
    | call callee args =>
      exact layer_call_congr (names callee (mem_walk_of_child m (.head _) (self_mem_walk callee))) m _ _
    | _ => rfl

theorem evaluate_congr (names : ∀ n ∈ t.walk, other n.mark = F.binding? n.mark) :
    evaluate { F with binding? := other } t = F.evaluate t := by
  rw [evaluate, evaluate, fold, fold, para_layer_congr names]

end Names

end Folder

end Unravel
