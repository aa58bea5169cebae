import Unravel.Proofs.Fold.Parts
import Unravel.Proofs.Grammar.Lowering

/-! Folding in two stages. What is left of an expression after folding it with an unknown parameter, folded again
   once the parameter is known, gives what folding the expression at once gives. -/
namespace Unravel.Folder

open Outcome List

variable {a b t : Node} {es : List Node}

/-- The first stage `S` leaves names free whose values are known in the second. There the expression itself is folded
by `V`, and what the first stage left of it, in a tree of its own, by `W`. -/
structure Stages (S V W : Folder) : Prop where
  direct : V.ns = S.ns
  later : W.ns = S.ns
  unknown : S.values = []
  plain : S.resolvers = []
  values : W.values = V.values
  free : W.free = V.free

/-- What the first stage left of an expression stands for the expression. -/
structure Agrees (V W : Folder) (names : Text → Option BindingId) (t : Node) (r : Shape) : Prop where
  literal : r.isLiteral → V.fold t = .ok r
  later : ∀ n : Node, n.shape = r → W.Reads names n → W.fold n = V.fold t

/-- Whatever the first stage leaves of an expression stands for it. -/
def Stands (S V W : Folder) (names : Text → Option BindingId) (t : Node) : Prop := ∀ r, S.fold t = .ok r → Agrees V W names t r

variable {S V W : Folder} {names : Text → Option BindingId}

theorem agrees_of_literal {r : Shape} (literal : r.isLiteral) (h : V.fold t = .ok r) : Agrees V W names t r := by
  refine ⟨fun _ => h, fun n shape _ => ?_⟩
  rw [← shape, Tree.isLiteral_shape] at literal
  rw [W.fold_of_isLiteral literal, shape, h]

theorem agrees_of_form {g : Form Shape} (symbolic : (node g).isLiteral = false)
    (later : ∀ m f, f.map Tree.shape = g → W.Reads names (.node m f) → W.fold (.node m f) = V.fold t) :
    Agrees V W names t (node g) := by
  refine ⟨fun literal => ?_, fun n shape reads => ?_⟩
  · rw [symbolic] at literal
    cases literal
  obtain ⟨m, f⟩ := n
  rw [Tree.shape_node] at shape
  cases shape
  exact later m f rfl reads

theorem Agrees.whole {part : Node} {r : Shape} (h : Agrees V W names part r) (same : V.fold t = V.fold part) :
    Agrees V W names t r :=
  ⟨fun literal => same.trans (h.literal literal), fun n shape reads => (h.later n shape reads).trans same.symm⟩

section Lists

variable {es : List Node} {rs : List Shape} (each : List.Forall₂ (Agrees V W names) es rs)

include each

theorem mapM_of_literal (literal : areLiteral rs) : es.mapM V.fold = .ok rs := by
  induction each with
  | nil => rfl
  | cons here _ ih =>
    rw [areLiteral, all_cons, Bool.and_eq_true] at literal
    rw [mapM_cons, here.literal literal.1, ih literal.2]
    rfl

theorem mapM_later {ns : List Node} (shapes : ns.map Tree.shape = rs) (reads : ∀ n ∈ ns, W.Reads names n) :
    ns.mapM W.fold = es.mapM V.fold := by
  induction each generalizing ns with
  | nil =>
    rw [map_eq_nil_iff.mp shapes]
    rfl
  | cons here _ ih =>
    obtain ⟨n, others, rfl, head, tail⟩ := map_eq_cons_iff.mp shapes
    rw [mapM_cons, mapM_cons, here.later n head (reads n (.head _)),
      ih tail fun k hk => reads k (.tail n hk)]

end Lists

section Cases

variable {m : NodeId} {r : Shape}

theorem agrees_all {rs : List Shape} (hes : ∀ e ∈ es, Stands S V W names e)
    (h : es.mapM S.fold = .ok rs) : List.Forall₂ (Agrees V W names) es rs := by
  have pairs : List.Forall₂ (fun e y => e ∈ es ∧ S.fold e = .ok y) es rs :=
    (forall₂_and_left es rs).mpr ⟨fun e he => he, forall₂_of_mapM h⟩
  exact pairs.imp fun e y both => hes e both.1 y both.2

theorem stands_array (hes : ∀ e ∈ es, Stands S V W names e) : Stands S V W names (.node m (.array es)) := by
  intro r h
  rw [fold_array] at h
  obtain ⟨rs, folded, h⟩ := bind_eq_ok.mp h
  cases h
  have each := agrees_all hes folded
  refine ⟨fun literal => ?_, fun n shape reads => ?_⟩
  · rw [node, Tree.isLiteral_array] at literal
    rw [fold_array, mapM_of_literal each literal]
    rfl
  · obtain ⟨k, f⟩ := n
    rw [Tree.shape_node] at shape
    cases f with
    | array ns =>
      cases shape
      rw [fold_array, fold_array, mapM_later each rfl fun n hn => reads.operand hn]
    | _ => cases shape

theorem stands_unary {op : UnaryOp} {x : Node} (hx : Stands S V W names x) : Stands S V W names (.node m (.unary op x)) := by
  intro r h
  rw [fold_unary] at h
  split at h
  next foldable =>
    obtain ⟨y, hy, h⟩ := bind_eq_ok.mp h
    have agrees := hx y hy
    by_cases literal : y.isLiteral
    · refine agrees_of_literal ?_ ?_
      · rw [if_pos literal] at h
        exact (gives_after fun _ => gives_after Value.gives_toShape) r h
      · rw [fold_unary, if_pos foldable, agrees.literal literal]
        exact h
    · rw [if_neg literal] at h
      cases h
      refine agrees_of_form rfl fun k f shape reads => ?_
      cases f with
      | unary op z =>
        cases shape
        rw [fold_unary, fold_unary, agrees.later z rfl (reads.operand (.head _))]
      | _ => cases shape
  next => cases h

theorem stands_strict {op : BinaryOp} (strict : op.isLogical = false) (ha : Stands S V W names a)
    (hb : Stands S V W names b) : Stands S V W names (.node m (.binary op a b)) := by
  intro r h
  rw [fold_strict _ _ strict] at h
  split at h
  next foldable =>
    obtain ⟨x, hx, h⟩ := bind_eq_ok.mp h
    obtain ⟨y, hy, h⟩ := bind_eq_ok.mp h
    have left := ha x hx
    have right := hb y hy
    by_cases literal : x.isLiteral && y.isLiteral
    · refine agrees_of_literal ?_ ?_
      · rw [if_pos literal] at h
        exact (gives_after fun _ => gives_after fun _ => gives_after Value.gives_toShape) r h
      · rw [Bool.and_eq_true] at literal
        rw [fold_strict _ _ strict, if_pos foldable, left.literal literal.1, right.literal literal.2]
        exact h
    · rw [if_neg literal] at h
      cases h
      refine agrees_of_form rfl fun k f shape reads => ?_
      cases f with
      | binary op c d =>
        cases shape
        rw [fold_strict _ _ strict, fold_strict _ _ strict, left.later c rfl (reads.operand (.head _)),
          right.later d rfl (reads.operand (.tail c (.head _)))]
      | _ => cases shape
  next => cases h

theorem stands_logical {op : BinaryOp} (logical : op.isLogical) (ha : Stands S V W names a)
    (hb : Stands S V W names b) : Stands S V W names (.node m (.binary op a b)) := by
  intro r h
  rw [fold_logical _ _ logical] at h
  obtain ⟨x, hx, h⟩ := bind_eq_ok.mp h
  have left := ha x hx
  by_cases literal : x.isLiteral
  · rw [if_pos literal] at h
    obtain ⟨v, value, h⟩ := bind_eq_ok.mp h
    have direct : V.fold (.node m (.binary op a b)) = if goesRight op v then V.fold b else .ok x := by
      rw [fold_logical _ _ logical, left.literal literal]
      change (if x.isLiteral then _ else _) = _
      rw [if_pos literal, value]
      rfl
    split at h
    next goes =>
      rw [if_pos goes] at direct
      exact (hb r h).whole direct
    next stays =>
      cases h
      rw [if_neg stays] at direct
      exact agrees_of_literal literal direct
  · rw [if_neg literal] at h
    obtain ⟨y, hy, h⟩ := bind_eq_ok.mp h
    cases h
    have right := hb y hy
    refine agrees_of_form rfl fun k f shape reads => ?_
    cases f with
    | binary op c d =>
      cases shape
      rw [fold_logical _ _ logical, fold_logical _ _ logical, left.later c rfl (reads.operand (.head _)),
        right.later d rfl (reads.operand (.tail c (.head _)))]
    | _ => cases shape

theorem stands_conditional (ht : Stands S V W names t) (ha : Stands S V W names a) (hb : Stands S V W names b) :
    Stands S V W names (.node m (.conditional t a b)) := by
  intro r h
  rw [fold_conditional] at h
  obtain ⟨x, hx, h⟩ := bind_eq_ok.mp h
  have test := ht x hx
  by_cases literal : x.isLiteral
  · rw [if_pos literal] at h
    obtain ⟨v, value, h⟩ := bind_eq_ok.mp h
    have direct : V.fold (.node m (.conditional t a b)) = if v.toBoolean then V.fold a else V.fold b := by
      rw [fold_conditional, test.literal literal]
      change (if x.isLiteral then _ else _) = _
      rw [if_pos literal, value]
      rfl
    split at h
    next yes =>
      rw [if_pos yes] at direct
      exact (ha r h).whole direct
    next no =>
      rw [if_neg no] at direct
      exact (hb r h).whole direct
  · rw [if_neg literal] at h
    obtain ⟨y, hy, h⟩ := bind_eq_ok.mp h
    obtain ⟨z, hz, h⟩ := bind_eq_ok.mp h
    cases h
    have consequent := ha y hy
    have alternate := hb z hz
    refine agrees_of_form rfl fun k f shape reads => ?_
    cases f with
    | conditional u c d =>
      cases shape
      rw [fold_conditional, fold_conditional, test.later u rfl (reads.operand (by simp [operands])),
        consequent.later c rfl (reads.operand (by simp [operands])), alternate.later d rfl (reads.operand (by simp [operands]))]
    | _ => cases shape

theorem stands_sequence (hes : ∀ e ∈ es, Stands S V W names e) : Stands S V W names (.node m (.sequence es)) := by
  intro r h
  rw [fold_sequence] at h
  obtain ⟨rs, folded, h⟩ := bind_eq_ok.mp h
  have each := agrees_all hes folded
  have rebuilt : Agrees V W names (.node m (.sequence es)) (node (.sequence rs)) := by
    refine agrees_of_form rfl fun k f shape reads => ?_
    cases f with
    | sequence ns =>
      cases shape
      rw [fold_sequence, fold_sequence, mapM_later each rfl fun n hn => reads.operand hn]
    | _ => cases shape
  split at h
  next last found =>
    by_cases literal : areLiteral rs
    · rw [if_pos literal] at h
      cases h
      have member : r ∈ rs := mem_of_getLast? found
      refine agrees_of_literal (all_eq_true.mp literal r member) ?_
      rw [fold_sequence, mapM_of_literal each literal]
      dsimp only [bind, Except.bind]
      rw [found]
      exact if_pos literal
    · rw [if_neg literal] at h
      cases h
      exact rebuilt
  next => cases h

theorem staticKey_direct {key : Node} {name : Text} (hk : Stands S V W names key)
    (h : staticKey (key, key.para S.layer) = .ok name) : staticKey (key, key.para V.layer) = .ok name := by
  obtain ⟨y, hy, h⟩ := bind_eq_ok.mp h
  have agrees := hk y hy
  obtain ⟨m, f⟩ := y
  cases f with
  | string | number => exact bind_eq_ok.mpr ⟨_, agrees.literal rfl, h⟩
  | _ =>
    obtain ⟨text, -, h⟩ := bind_eq_ok.mp h
    cases h

section Stages

variable (stages : Stages S V W)

include stages

theorem agrees_read {path : Text} (spelled : V.fold t = V.read path) (h : S.read path = .ok r) :
    Agrees V W names t r := by
  refine agrees_of_literal ((gives_after fun _ => gives_after Value.gives_toShape) r h) ?_
  rw [spelled, ← h, read, read, stages.direct]

theorem stands_identifier {x : Text} (first : S.Reads names (.node m (.identifier x)))
    (direct : V.Reads names (.node m (.identifier x))) :
    Stands S V W names (.node m (.identifier x)) := by
  intro r h
  have same : V.binding? m = S.binding? m := direct.binding.trans first.binding.symm
  rw [fold_identifier, identifier] at h
  split at h
  next unbound =>
    refine agrees_read stages ?_ h
    rw [fold_identifier, identifier, same, unbound]
  next b bound =>
    have unknown : S.value? b = none := by
      rw [value?, stages.unknown]
      rfl
    rw [unknown] at h
    dsimp only at h
    split at h
    next =>
      cases h
      refine agrees_of_form rfl fun k f shape reads => ?_
      cases f with
      | identifier y =>
        cases shape
        have later : W.binding? k = some b := by rw [reads.binding, ← first.binding, bound]
        rw [fold_identifier, fold_identifier, identifier, identifier, later, same, bound]
        simp only [value?, stages.values, stages.free]
      | _ => cases shape
    next => cases h

theorem stands_call {callee : Node} {args : List Node}
    (hc : ∀ path, S.spelled callee = .ok path → V.spelled callee = .ok path ∧ IsGlobal names path)
    (ha : ∀ e ∈ args, Stands S V W names e) :
    Stands S V W names (.node m (.call callee args)) := by
  intro r h
  obtain ⟨path, spelled⟩ := spelled_of_fold_call stages.plain h
  obtain ⟨direct, global⟩ := hc path spelled
  rw [fold_call spelled] at h
  have called : V.fold (.node m (.call callee args)) = V.callPath path (args.map fun c => (c, c.para V.layer)) :=
    fold_call direct
  rcases callPath_cases h with ⟨literal, measured⟩ | ⟨rs, folded, result⟩
  · refine agrees_of_literal literal (called.trans (measured V _ stages.direct.symm ?_))
    rw [length_map, length_map]
  · rw [results_map] at folded
    have each := agrees_all ha folded
    rcases result with ⟨literals, literal⟩ | ⟨rfl, -, -⟩
    · refine agrees_of_literal literal ?_
      rw [called, ← h]
      refine callPath_congr stages.direct path ?_ ?_
      · rw [length_map, length_map]
      · rw [results_map, results_map, mapM_of_literal each literals, folded]
    · refine agrees_of_form rfl fun k f shape reads => ?_
      cases f with
      | call other others =>
        simp only [Form.map, Form.call.injEq] at shape
        obtain ⟨chain, shapes⟩ := shape
        have later := W.spelled_pathShape global chain (reads.operand (.head _))
        rw [fold_call later, called]
        refine callPath_congr (stages.later.trans stages.direct.symm) path ?_ ?_
        · rw [length_map, length_map, each.length_eq, ← shapes, length_map]
        · rw [results_map, results_map, mapM_later each shapes fun n hn => reads.operand (.tail other hn)]
      | _ => cases shape

theorem stands_access {f : Form Node} (access : (∃ object name, f = .member object name) ∨ ∃ object key, f = .index object key)
    (path : ∀ path, S.spelled (.node m f) = .ok path → V.spelled (.node m f) = .ok path ∧ IsGlobal names path) :
    Stands S V W names (.node m f) := by
  intro r h
  rw [fold_access _ _ access] at h
  obtain ⟨text, spelled, h⟩ := bind_eq_ok.mp h
  refine agrees_read stages ?_ h
  rw [fold_access _ _ access, (path text spelled).1]
  rfl

end Stages

/-- What the first stage leaves of an expression stands for it, and a path that the first stage reads off it is one
in the second stage too. -/
structure Carried (S V W : Folder) (names : Text → Option BindingId) (t : Node) : Prop where
  result : Stands S V W names t
  path : ∀ path, S.spelled t = .ok path → V.spelled t = .ok path ∧ IsGlobal names path

section Node

variable {f : Form Node} (first : S.Reads names (.node m f)) (direct : V.Reads names (.node m f))
  (part : ∀ c ∈ operands f, Carried S V W names c)

include first direct part

theorem spelled_direct (undotted : f.isUndotted) {path : Text} (h : S.spelled (.node m f) = .ok path) :
    V.spelled (.node m f) = .ok path ∧ IsGlobal names path := by
  cases f with
  | identifier x =>
    obtain ⟨unbound, rfl⟩ := S.spelled_identifier h
    have free : names path = none := first.binding.symm.trans unbound
    have plain : ofChar '.' ∉ path := by
      rw [Form.isUndotted, Bool.not_eq_true', contains_eq_mem, decide_eq_false_iff_not] at undotted
      exact undotted
    refine ⟨?_, path, [], Text.splitOn_of_not_mem plain, free⟩
    rw [spelled_node]
    change (if (V.binding? m).isSome then _ else _) = _
    rw [direct.binding, free]
    rfl
  | member object name =>
    rw [spelled_member] at h
    obtain ⟨start, spelled, h⟩ := bind_eq_ok.mp h
    cases h
    obtain ⟨same, global⟩ := (part object (.head _)).path start spelled
    refine ⟨?_, isGlobal_extend global name⟩
    rw [spelled_member, same]
    rfl
  | index object key =>
    rw [spelled_index] at h
    obtain ⟨name, static, h⟩ := bind_eq_ok.mp h
    obtain ⟨start, spelled, h⟩ := bind_eq_ok.mp h
    cases h
    obtain ⟨same, global⟩ := (part object (.head _)).path start spelled
    have key := staticKey_direct (part key (.tail object (.head _))).result static
    refine ⟨?_, isGlobal_extend global name⟩
    rw [spelled_index, key, same]
    rfl
  | _ =>
    rw [spelled_node] at h
    obtain ⟨text, -, h⟩ := bind_eq_ok.mp h
    cases h

theorem stands_node (stages : Stages S V W) (undotted : f.isUndotted) : Stands S V W names (.node m f) := by
  have path : ∀ path, S.spelled (.node m f) = .ok path → V.spelled (.node m f) = .ok path ∧ IsGlobal names path :=
    fun _ spelled => spelled_direct first direct part undotted spelled
  cases f with
  | identifier x => exact stands_identifier stages first direct
  | member object name => exact stands_access stages (Or.inl ⟨object, name, rfl⟩) path
  | index object key => exact stands_access stages (Or.inr ⟨object, key, rfl⟩) path
  | number | string | boolean | undefined =>
    rintro r ⟨⟩
    exact agrees_of_literal rfl rfl
  | array es => exact stands_array (fun e he => (part e he).result)
  | sequence es => exact stands_sequence (fun e he => (part e he).result)
  | unary op x => exact stands_unary (part x (by simp [operands])).result
  | binary op a b =>
    have left := (part a (by simp [operands])).result
    have right := (part b (by simp [operands])).result
    cases logical : op.isLogical with
    | true => exact stands_logical logical left right
    | false => exact stands_strict logical left right
  | conditional t a b =>
    exact stands_conditional (part t (by simp [operands])).result (part a (by simp [operands])).result
      (part b (by simp [operands])).result
  | call callee args =>
    exact stands_call stages (part callee (by simp [operands])).path
      (fun e he => (part e (.tail callee he)).result)
  | _ => rintro r ⟨⟩

end Node

end Cases

/-- By induction on the expression, results and paths at once: a key in brackets is part of a path. -/
theorem carried (stages : Stages S V W) (first : S.Reads names t) (direct : V.Reads names t)
    (undotted : t.Undotted) : Carried S V W names t := by
  induction t with
  | node m f ih =>
    have here : f.isUndotted := undotted _ (self_mem_walk _)
    have part : ∀ c ∈ operands f, Carried S V W names c := by
      intro c hc
      have child := mem_children_of_operands hc
      exact ih c child (first.operand hc) (direct.operand hc) fun n hn => undotted n (mem_walk_of_child m child hn)
    exact ⟨stands_node first direct part stages here, fun path h => spelled_direct first direct part here h⟩

end Unravel.Folder
