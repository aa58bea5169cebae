import Unravel.Proofs.Fold.Parts
import Unravel.Proofs.Syntax.Rendering

/-! How folding ends. Whatever it gives is an expression whose places hold expressions, so that it can be printed; and it
   goes wrong only in ways that the values and functions at hand allow. -/
namespace Unravel

open Outcome List

variable {s : Shape} {E : Fault → Prop} {t : Node}

attribute [local simp] Form.places Place.free Place.fixed Folder.operands

namespace Folder

/-- An expression with expressions in all its places. -/
structure IsTerm (s : Shape) : Prop where
  expression : s.form.isExpression
  grammatical : s.Grammatical

theorem IsTerm.renders (h : IsTerm s) : s.renderExpression.Succeeds := h.grammatical.renders h.expression

theorem isTerm_node {f : Form Shape} (kind : f.isExpression) (roles : ∀ p ∈ f.places, p.role = .expression)
    (parts : ∀ c ∈ f.children, IsTerm c) : IsTerm (node f) := by
  refine ⟨kind, grammatical_node.mpr ⟨fun p hp => ?_, fun c hc => (parts c hc).grammatical⟩⟩
  rw [roles p hp]
  exact (parts p.tree (place_mem_children hp)).expression

theorem isTerm_leaf {f : Form Shape} (kind : f.isExpression) (leaf : f.places = []) : IsTerm (node f) := by
  refine isTerm_node kind (leaf ▸ forall_mem_nil _) fun c hc => ?_
  rw [← Form.tree_places, leaf] at hc
  cases hc

theorem isTerm_array {es : List Shape} (h : ∀ e ∈ es, IsTerm e) : IsTerm (node (.array es)) :=
  isTerm_node rfl (by simp) h

theorem isTerm_of_isLiteral (h : s.isLiteral) : IsTerm s := by
  induction s using Tree.layers with
  | node m f ih =>
    cases f with
    | array es =>
      rw [Tree.isLiteral_array, all_eq_true] at h
      exact isTerm_array fun e he => ih e he (h e he)
    | number | string | boolean | undefined => exact isTerm_leaf rfl rfl
    | _ => cases h

theorem isTerm_chain (h : IsTerm s) (names : List Text) :
    IsTerm (names.foldl (fun object name => node (.member object name)) s) := by
  induction names generalizing s with
  | nil => exact h
  | cons name rest ih =>
    refine ih (isTerm_node rfl (by simp) fun c hc => ?_)
    cases mem_singleton.mp hc
    exact h

theorem isTerm_pathShape (path : Text) : IsTerm (pathShape path) := by
  obtain ⟨x, rest, split⟩ := Text.exists_splitOn '.' path
  rw [pathShape, split]
  exact isTerm_chain (isTerm_leaf rfl rfl) rest

/-- A value that can be written as a literal, unless it is allowed to go wrong. -/
def Buildable (E : Fault → Prop) (v : Value) : Prop := v.toShape.Ends (fun _ => True) E

theorem Buildable.ends {v : Value} (h : Buildable E v) : v.toShape.Ends IsTerm E := by
  have literal := Value.gives_toShape v
  unfold Buildable at h
  cases made : v.toShape with
  | ok s => exact isTerm_of_isLiteral (literal s made)
  | error f =>
    rw [made] at h
    exact h

theorem toShapes_eq (vs : List Value) : Value.toShapes vs = vs.mapM Value.toShape := by
  induction vs with
  | nil => rfl
  | cons v rest ih =>
    rw [Value.toShapes, mapM_cons, ih]

theorem exists_literalValue (h : s.isLiteral) : ∃ v, s.literalValue = .ok v ∧ v.toShape = .ok s := by
  induction s using Tree.layers with
  | node m f ih =>
    cases f with
    | array es =>
      rw [Tree.isLiteral_array, all_eq_true] at h
      have values : ∃ vs, es.mapM Tree.literalValue = .ok vs ∧ vs.mapM Value.toShape = .ok es := by
        have each : ∀ e ∈ es, ∃ v, e.literalValue = .ok v ∧ v.toShape = .ok e := fun e he => ih e he (h e he)
        clear ih h
        induction es with
        | nil => exact ⟨[], rfl, rfl⟩
        | cons e rest ih =>
          obtain ⟨v, value, shape⟩ := each e (.head _)
          obtain ⟨vs, values, shapes⟩ := ih fun e he => each e (.tail _ he)
          refine ⟨v :: vs, ?_, ?_⟩
          · rw [mapM_cons, value, values]
            rfl
          · rw [mapM_cons, shape, shapes]
            rfl
      obtain ⟨vs, values, shapes⟩ := values
      refine ⟨.array vs, ?_, ?_⟩
      · rw [Tree.literalValue_array, values]
        rfl
      · rw [Value.toShape, toShapes_eq, shapes]
        rfl
    | number x => exact ⟨.number x, rfl, rfl⟩
    | string t => exact ⟨.string t, rfl, rfl⟩
    | boolean b => exact ⟨.boolean b, rfl, rfl⟩
    | undefined => exact ⟨.undefined, rfl, rfl⟩
    | _ => cases h

theorem ends_literalValue (h : s.isLiteral) : s.literalValue.Ends (Buildable E) E := by
  obtain ⟨v, value, shape⟩ := exists_literalValue h
  rw [value]
  change v.toShape.Ends _ E
  rw [shape]
  trivial

theorem ends_literalValues {ss : List Shape} (h : areLiteral ss) :
    (ss.mapM Tree.literalValue).Ends (fun vs => ∀ v ∈ vs, Buildable E v) E :=
  ends_mapM fun s hs => ends_literalValue (all_eq_true.mp h s hs)

end Folder

open Folder

/-- What a behaviour holds and gives can be written as literals, and it fails only as allowed. -/
def Behaviour.Tame (E : Fault → Prop) : Behaviour → Prop
  | .constant v => Buildable E v
  | .function least _ apply =>
    ∀ args : List Value, least ≤ args.length → (∀ a ∈ args, Buildable E a) → (apply args).Ends (Buildable E) E
  | .measuredField v | .measuredCall v => ∀ x ∈ v, Buildable E x

namespace Entry

variable {E : Fault → Prop} (own : ∀ f : Fault, f.category = .evaluation → E f) {e : Entry} (tame : e.behaviour.Tame E)

include own

theorem ends_checkArity (e : Entry) (count : Int) : (e.checkArity count).Ends (fun _ => e.accepts count) E :=
  ends_ite (fun h => h) fun _ => own _ rfl

include tame

theorem ends_measuredValue : e.measuredValue.Ends (Buildable E) E := by
  refine ends_ite (fun measured => ?_) fun _ => own _ rfl
  obtain ⟨path, behaviour⟩ := e
  cases behaviour with
  | measuredField v | measuredCall v =>
    cases v with
    | none => cases measured
    | some x => exact tame x rfl
  | _ => cases measured

theorem ends_read : e.read.Ends (Buildable E) E := by
  have measured := ends_measuredValue own tame
  obtain ⟨path, behaviour⟩ := e
  cases behaviour with
  | constant v => exact tame
  | measuredField v => exact measured
  | function | measuredCall => exact own _ rfl

theorem ends_call {args : List Value} (hargs : ∀ a ∈ args, Buildable E a) : (e.call args).Ends (Buildable E) E := by
  have measured := ends_measuredValue own tame
  refine (ends_checkArity own e _).bind fun _ accepted => ?_
  obtain ⟨path, behaviour⟩ := e
  cases behaviour with
  | measuredCall v => exact measured
  | function least most apply =>
    refine tame args ?_ hargs
    rw [accepts, Bool.and_eq_true, decide_eq_true_eq] at accepted
    exact Int.ofNat_le.mp accepted.1
  | constant | measuredField => exact own _ rfl

end Entry

namespace Folder

/-- Everything that a folder can meet can be written as literals, and fails only as allowed. -/
structure Tame (F : Folder) (E : Fault → Prop) : Prop where
  own : ∀ f : Fault, f.category = .evaluation → E f
  unary : ∀ op v, Buildable E v → (Value.unary op v).Ends (Buildable E) E
  binary : ∀ op l r, Buildable E l → Buildable E r → (Value.binary op l r).Ends (Buildable E) E
  entry : ∀ e ∈ F.ns.entries, e.behaviour.Tame E
  value : ∀ b v, F.value? b = some v → Buildable E v
  resolver : ∀ b resolve, F.resolver? b = some resolve → ∀ args : List Value, (∀ a ∈ args, Buildable E a) →
    (resolve args).Ends (Buildable E) fun f => isCallFailure f ∨ E f

/-- An expression that can be shown in messages, with the parts that folding looks at. -/
inductive Shown (E : Fault → Prop) : Node → Prop
  | node {m : NodeId} {f : Form Node} (here : (Tree.node m f).renderExpression.Ends (fun _ => True) E)
    (operands : ∀ c ∈ operands f, Shown E c) : Shown E (.node m f)

theorem Shown.renders (h : Shown E t) : t.renderExpression.Ends (fun _ => True) E := by
  cases h with
  | node here _ => exact here

theorem Shown.operand {m : NodeId} {f : Form Node} (h : Shown E (.node m f)) {c : Node}
    (hc : c ∈ Folder.operands f) : Shown E c := by
  cases h with
  | node _ parts => exact parts c hc

theorem shown_of_grammatical (h : t.Grammatical) (expression : t.form.isExpression) :
    Shown E t := by
  induction t with
  | node m f ih =>
    refine .node (h.renders expression).ends fun c hc => ?_
    obtain ⟨p, hp, rfl, role, -⟩ := place_of_operand hc
    have admitted := (grammatical_node.mp h).1 p hp
    rw [role] at admitted
    have held := place_mem_children hp
    exact ih p.tree held (h.child held) admitted

theorem shown_anyway (t : Node) : Shown (fun _ => True) t := by
  induction t with
  | node m f ih =>
    refine .node ?_ fun c hc => ih c (mem_children_of_operands hc)
    cases (Tree.node m f).renderExpression <;> trivial

section Parts

variable {F : Folder} {E : Fault → Prop} {m : NodeId}

theorem isTerm_binary {op : BinaryOp} {l r : Shape} (left : IsTerm l) (right : IsTerm r) : IsTerm (node (.binary op l r)) := by
  refine isTerm_node rfl (by simp) fun c hc => ?_
  rcases mem_cons.mp hc with rfl | hc
  · exact left
  · cases mem_singleton.mp hc
    exact right

theorem ends_conditional {test consequent alternate : Node} (ht : (F.fold test).Ends IsTerm E)
    (hc : (F.fold consequent).Ends IsTerm E) (ha : (F.fold alternate).Ends IsTerm E) :
    (F.fold (.node m (.conditional test consequent alternate))).Ends IsTerm E := by
  rw [fold_conditional]
  refine ht.bind fun t tt => ends_ite (fun literal => ?_) fun _ => hc.bind fun c ct => ha.bind fun a at_ => ?_
  · exact (ends_literalValue literal).bind fun x hx => ends_ite (fun _ => hc) fun _ => ha
  · refine isTerm_node rfl (by simp) fun x hx => ?_
    simp only [Form.children, mem_cons, not_mem_nil, or_false] at hx
    rcases hx with rfl | rfl | rfl
    · exact tt
    · exact ct
    · exact at_

end Parts

section Ends

variable {F : Folder} {E : Fault → Prop} (tame : F.Tame E)

include tame

theorem ends_sequence {es : List Node} (h : (es.mapM F.fold).Ends (fun ss => ∀ s ∈ ss, IsTerm s) E) :
    (F.fold (.node m (.sequence es))).Ends IsTerm E := by
  rw [fold_sequence]
  refine h.bind fun ss terms => ?_
  have whole : IsTerm (node (.sequence ss)) := isTerm_node rfl (by simp) terms
  cases last : ss.getLast? with
  | none => exact tame.own _ rfl
  | some s => exact ends_ite (fun _ => terms s (mem_of_getLast? last)) fun _ => whole

theorem ends_lookup (path : Text) : (F.ns.lookup path).Ends (fun e => e.behaviour.Tame E) E := by
  rw [Namespace.lookup]
  split
  next e found => exact tame.entry e (mem_of_find?_eq_some found)
  next => exact tame.own _ rfl

theorem ends_readPath (path : Text) : (F.read path).Ends IsTerm E := by
  refine (ends_lookup tame path).bind fun e entry => ?_
  exact (Entry.ends_read tame.own entry).bind fun v hv => hv.ends

theorem ends_identifier (m : NodeId) (x : Text) : (F.identifier m x).Ends IsTerm E := by
  rw [identifier]
  split
  next => exact ends_readPath tame x
  next b _ =>
    split
    next v known => exact (tame.value b v known).ends
    next => exact ends_ite (fun _ => isTerm_leaf rfl rfl) fun _ => tame.own _ rfl

theorem ends_callPath (path : Text) {args : List Child} (folds : (results args).Ends (fun ss => ∀ s ∈ ss, IsTerm s) E) :
    (F.callPath path args).Ends IsTerm E := by
  refine (ends_lookup tame path).bind fun e entry => ?_
  refine ends_ite (fun _ => tame.own _ rfl) fun _ => ?_
  refine (Entry.ends_checkArity tame.own e _).bind fun _ _ => ?_
  have plain : (do
      let folded ← results args
      if areLiteral folded then (← e.call (← folded.mapM Tree.literalValue)).toShape
      else return node (.call (pathShape path) folded) : Outcome Shape).Ends IsTerm E := by
    refine folds.bind fun ss terms => ends_ite (fun literal => ?_) fun _ => ?_
    · refine (ends_literalValues literal).bind fun vs hvs => ?_
      exact (Entry.ends_call tame.own entry hvs).bind fun v hv => hv.ends
    · refine isTerm_node rfl (by simp) fun c hc => ?_
      rcases mem_cons.mp hc with rfl | hc
      · exact isTerm_pathShape path
      · exact terms c hc
  split
  next => exact (Entry.ends_measuredValue tame.own entry).bind fun v hv => hv.ends
  next => exact plain

theorem ends_callLocal (b : BindingId) {args : List Child} (folds : (results args).Ends (fun ss => ∀ s ∈ ss, IsTerm s) E) :
    (F.callLocal b args).Ends IsTerm E := by
  rw [callLocal]
  cases known : F.resolver? b with
  | none => exact tame.own _ rfl
  | some resolve =>
    refine folds.bind fun ss terms => ends_ite (fun _ => tame.own _ rfl) fun literal => ?_
    rw [Bool.not_eq_true', Bool.not_eq_false] at literal
    refine (ends_literalValues literal).bind fun vs hvs => ?_
    have resolved := tame.resolver b resolve known vs hvs
    cases result : resolve vs with
    | ok v =>
      rw [result] at resolved
      exact Buildable.ends resolved
    | error f =>
      rw [result] at resolved
      change E (if isCallFailure f then .callFailed b.name f else f)
      split
      next => exact tame.own _ rfl
      next own => exact resolved.resolve_left own

/-- What is asked of the parts of an expression. -/
abbrev Part.Ends (F : Folder) (E : Fault → Prop) (t : Node) : Prop :=
  (F.fold t).Ends IsTerm E ∧ (F.spelled t).Ends (fun _ => True) E

variable {m : NodeId} {f : Form Node}

theorem ends_staticKey {key : Node} (folds : (F.fold key).Ends IsTerm E) (shown : Shown E key) :
    (staticKey (key, key.para F.layer)).Ends (fun _ => True) E := by
  refine folds.bind fun s _ => ?_
  dsimp only
  split
  next => trivial
  next => trivial
  next => exact shown.renders.bind fun _ _ => ends_throw (tame.own _ rfl)

theorem ends_spelled (shown : Shown E (.node m f)) (part : ∀ c ∈ operands f, Part.Ends F E c) :
    (F.spelled (.node m f)).Ends (fun _ => True) E := by
  cases f with
  | identifier x =>
    rw [spelled_node]
    exact ends_ite (fun _ => tame.own _ rfl) fun _ => trivial
  | member object name =>
    rw [spelled_member]
    exact (part object (.head _)).2.map fun _ _ => trivial
  | index object key =>
    have hkey : key ∈ operands (.index object key) := by simp
    rw [spelled_index]
    refine (ends_staticKey tame (part key hkey).1 (shown.operand hkey)).bind fun _ _ => ?_
    exact (part object (.head _)).2.map fun _ _ => trivial
  | _ =>
    rw [spelled_other F m rfl]
    exact shown.renders.bind fun _ _ => ends_throw (tame.own _ rfl)

theorem ends_unary (op : UnaryOp) {x : Node} (part : (F.fold x).Ends IsTerm E) :
    (F.fold (.node m (.unary op x))).Ends IsTerm E := by
  rw [fold_unary]
  refine ends_ite (fun _ => part.bind fun v term => ends_ite (fun literal => ?_) fun _ => ?_) fun _ => tame.own _ rfl
  · refine (ends_literalValue literal).bind fun x hx => (tame.unary op x hx).bind fun y hy => hy.ends
  · refine isTerm_node rfl (by simp) fun c hc => ?_
    cases mem_singleton.mp hc
    exact term

theorem ends_binary (op : BinaryOp) {left right : Node} (hl : (F.fold left).Ends IsTerm E)
    (hr : (F.fold right).Ends IsTerm E) : (F.fold (.node m (.binary op left right))).Ends IsTerm E := by
  cases logical : op.isLogical with
  | true =>
    rw [fold_logical F m logical]
    refine hl.bind fun l lt => ends_ite (fun literal => ?_) fun _ => hr.bind fun r rt => isTerm_binary lt rt
    exact (ends_literalValue literal).bind fun x hx => ends_ite (fun _ => hr) fun _ => lt
  | false =>
    rw [fold_strict F m logical]
    refine ends_ite (fun _ => hl.bind fun l lt => hr.bind fun r rt => ?_) fun _ => tame.own _ rfl
    refine ends_ite (fun literal => ?_) fun _ => isTerm_binary lt rt
    obtain ⟨ll, rl⟩ := Bool.and_eq_true_iff.mp literal
    refine (ends_literalValue ll).bind fun x hx => (ends_literalValue rl).bind fun y hy => ?_
    exact (tame.binary op x y hx hy).bind fun z hz => hz.ends

theorem ends_fold_call {callee : Node} {args : List Node} (hc : (F.spelled callee).Ends (fun _ => True) E)
    (ha : (args.mapM F.fold).Ends (fun ss => ∀ s ∈ ss, IsTerm s) E) :
    (F.fold (.node m (.call callee args))).Ends IsTerm E := by
  rw [← results_map] at ha
  rcases F.fold_call_cases m callee args with ⟨k, x, b, -, -, same⟩ | same
  · rw [same]
    exact ends_callLocal tame b ha
  · rw [same]
    exact hc.bind fun path _ => ends_callPath tame path ha

/-- Folding ends in a term, or goes wrong as allowed; and so does reading an expression as a path. -/
theorem ends_fold (shown : Shown E t) : Part.Ends F E t := by
  induction t with
  | node m f ih =>
    have part : ∀ c ∈ operands f, Part.Ends F E c := fun c hc => ih c (mem_children_of_operands hc) (shown.operand hc)
    have list : ∀ es : List Node, (∀ e ∈ es, e ∈ operands f) → (es.mapM F.fold).Ends (fun ss => ∀ s ∈ ss, IsTerm s) E :=
      fun es inside => ends_mapM fun e he => (part e (inside e he)).1
    have spelled := ends_spelled tame shown part
    refine ⟨?_, spelled⟩
    cases f with
    | identifier x =>
      rw [fold_identifier]
      exact ends_identifier tame m x
    | number | string | boolean | undefined =>
      rw [fold_node]
      exact isTerm_leaf rfl rfl
    | member object name =>
      rw [fold_access F m (Or.inl ⟨object, name, rfl⟩)]
      exact spelled.bind fun path _ => ends_readPath tame path
    | index object key =>
      rw [fold_access F m (Or.inr ⟨object, key, rfl⟩)]
      exact spelled.bind fun path _ => ends_readPath tame path
    | array es =>
      rw [fold_array]
      exact (list es fun e he => he).map fun ss terms => isTerm_array terms
    | unary op x => exact ends_unary tame op (part x (.head _)).1
    | binary op l r =>
      exact ends_binary tame op (part l (.head _)).1 (part r (.tail l (.head _))).1
    | conditional t c a =>
      exact ends_conditional (part t (by simp)).1 (part c (by simp)).1
        (part a (by simp)).1
    | sequence es => exact ends_sequence tame (list es fun e he => he)
    | call callee args =>
      exact ends_fold_call tame (part callee (.head _)).2 (list args fun e he => .tail callee he)
    | _ =>
      rw [fold_node]
      exact tame.own _ rfl

theorem ends_evaluate (shown : Shown E t) : (F.evaluate t).Ends (Buildable E) E := by
  refine (ends_fold tame shown).1.bind fun s term => ends_ite (fun literal => ends_literalValue literal) fun _ => ?_
  exact term.renders.ends.bind fun _ _ => ends_throw (tame.own _ rfl)

end Ends

theorem tame_anyway (F : Folder) : F.Tame fun _ => True := by
  have ends : ∀ {α : Type} (x : Outcome α) {P : α → Prop}, (∀ a, P a) → x.Ends P fun _ => True := by
    intro α x P all
    cases x with
    | ok a => exact all a
    | error f => trivial
  have buildable : ∀ v, Buildable (fun _ => True) v := fun v => ends _ fun _ => trivial
  refine ⟨fun _ _ => trivial, fun op v _ => ends _ buildable, fun op l r _ _ => ends _ buildable, fun e _ => ?_,
    fun _ v _ => buildable v, fun _ resolve _ args _ => ?_⟩
  · cases e.behaviour with
    | constant v => exact buildable v
    | function least most apply => exact fun args _ _ => ends _ buildable
    | measuredField v | measuredCall v => exact fun x _ => buildable x
  · exact (ends (resolve args) buildable).widen fun _ _ => Or.inr trivial

theorem isTerm_of_fold {F : Folder} (h : F.fold t = .ok s) : IsTerm s :=
  (ends_fold F.tame_anyway (shown_anyway t)).1.of_ok h

end Folder

end Unravel
