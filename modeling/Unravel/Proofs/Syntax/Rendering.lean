import Unravel.Syntax.Render
import Unravel.Proofs.Outcome
import Unravel.Proofs.Syntax.Places

/-! A tree whose places hold what they are made for can always be printed. -/
namespace Unravel

open Outcome Render List

variable {α : Type}

/-- The text that is asked of what stands in a place. Names are read off the tree. -/
def Role.Printed : Role → Rendered → Prop
  | .name, _ => True
  | .target, r | .expression, r => r.expression.Succeeds
  | .property, r => r.property.Succeeds
  | .declarator, r => r.declarator.Succeeds
  | .statement, r => ∀ depth, (r.statement depth).Succeeds
  | .start, r => r.initialiser.Succeeds

namespace Render

/-- What stands in a place fits there and has the text that is asked of it. -/
structure Stands (role : Role) (p : Part α) : Prop where
  admitted : role.admits p.1.form
  printed : role.Printed p.2

/-- All that stands in the places of a layer. -/
def Settled (f : Form (Part α)) : Prop := ∀ p ∈ f.places, Stands p.role p.tree

theorem stands_free {role : Role} {ps : List (Part α)} :
    (∀ p ∈ Place.free role ps, Stands p.role p.tree) ↔ ∀ p ∈ ps, Stands role p := by
  rw [Place.free, forall_mem_map]

theorem stands_inner {ps : List (Part α)} :
    (∀ p ∈ Place.inner ps, Stands p.role p.tree) ↔ ∀ p ∈ ps, Stands .statement p := by
  rw [Place.inner, forall_mem_map]

theorem stands_fixed {role : Role} {p : Part α} :
    Stands (Place.fixed role p).role (Place.fixed role p).tree ↔ Stands role p := Iff.rfl

section Pieces

variable {p : Part α} {ps : List (Part α)}

theorem succeeds_within (h : Stands .expression p) (least : Nat) : (within least p).Succeeds :=
  h.printed.map fun _ _ => trivial

theorem succeeds_listed (h : ∀ p ∈ ps, Stands .expression p) : (listed ps).Succeeds :=
  (succeeds_mapM fun p hp => succeeds_within (h p hp) _).map fun _ _ => trivial

theorem succeeds_callee (h : Stands .expression p) : (callee p).Succeeds := by
  rw [callee]
  split
  · exact h.printed.map fun _ _ => trivial
  · exact h.printed.map fun _ _ => trivial
  · exact succeeds_within h _

theorem succeeds_operand (h : Stands .expression p) (op : BinaryOp) (least : Nat) : (operand op least p).Succeeds :=
  (succeeds_within h least).map fun _ _ => trivial

theorem succeeds_unary (h : Stands .expression p) (op : UnaryOp) : (unary op p).Succeeds := by
  refine (succeeds_within h _).bind fun text _ => ends_ite (fun _ => trivial) fun _ => ?_
  exact ends_ite (fun _ => trivial) fun _ => trivial

theorem succeeds_shownName (h : Stands .name p) : p.1.form.shownName.Succeeds := by
  obtain ⟨m, x, same⟩ := form_of_isName h.admitted
  rw [same]
  trivial

theorem succeeds_names (h : ∀ p ∈ ps, Stands .name p) : (names ps).Succeeds :=
  (succeeds_mapM fun p hp => succeeds_shownName (h p hp)).map fun _ _ => trivial

theorem succeeds_body (h : ∀ p ∈ ps, Stands .statement p) (depth : Nat) : (body depth ps).Succeeds := by
  refine ends_ite (fun _ => trivial) fun _ => ?_
  exact (succeeds_mapM fun p hp => (h p hp).printed (depth + 1)).map fun _ _ => trivial

theorem succeeds_function {params statements : List (Part α)} {name : Option (Part α)} (isArrow : Bool)
    (hp : ∀ p ∈ params, Stands .name p) (hs : ∀ p ∈ statements, Stands .statement p)
    (hn : ∀ p ∈ name.toList, Stands .name p) : (function params statements name isArrow).Succeeds := by
  refine ends_ite (fun _ => ?_) fun _ => ?_
  · exact (succeeds_names hp).bind fun _ _ => (succeeds_body hs 0).map fun _ _ => trivial
  · have rest : ∀ title : Text,
        (do return "function" ++ title ++ "(" ++ (← names params) ++ ") " ++ (← body 0 statements) : Outcome Text).Succeeds :=
      fun _ => (succeeds_names hp).bind fun _ _ => (succeeds_body hs 0).map fun _ _ => trivial
    cases name with
    | none => exact rest []
    | some p => exact (succeeds_shownName (hn p (by simp))).bind fun x _ => rest (" " ++ x)

theorem succeeds_optional {p : Option (Part α)} (h : ∀ q ∈ p.toList, Stands .expression q) : (optional p).Succeeds := by
  cases p with
  | none => trivial
  | some q => exact (h q (by simp)).printed

theorem succeeds_declaration (kind : Text) (h : ∀ p ∈ ps, Stands .declarator p) : (declaration kind ps).Succeeds :=
  (succeeds_mapM fun p hp => (h p hp).printed).map fun _ _ => trivial

end Pieces

section Layers

variable {f : Form (Part α)} (settled : Settled f)

include settled

theorem succeeds_expression (kind : f.isExpression) : (expression f).Succeeds := by
  cases f with
  | identifier | number | string | boolean | null | undefined => trivial
  | array es => exact (succeeds_listed (stands_free.mp settled)).map fun _ _ => trivial
  | object ps =>
    exact (succeeds_mapM fun p hp => (stands_free.mp settled p hp).printed).map fun _ _ => trivial
  | function params body name isArrow =>
    obtain ⟨inner, names⟩ := forall_mem_append.mp settled
    obtain ⟨params, inner⟩ := forall_mem_append.mp inner
    exact succeeds_function isArrow (stands_free.mp params) (stands_inner.mp inner) (stands_free.mp names)
  | call c args =>
    obtain ⟨callee, args⟩ := forall_mem_cons.mp settled
    refine (succeeds_listed (stands_free.mp args)).bind fun _ _ => ?_
    exact (succeeds_callee (stands_fixed.mp callee)).map fun _ _ => trivial
  | member o name =>
    obtain ⟨object, -⟩ := forall_mem_cons.mp settled
    exact (succeeds_callee (stands_fixed.mp object)).map fun _ _ => trivial
  | index o k =>
    obtain ⟨object, key, -⟩ := (forall_mem_cons.mp settled).imp_right forall_mem_cons.mp
    refine (succeeds_callee (stands_fixed.mp object)).bind fun _ _ => ?_
    exact (stands_fixed.mp key).printed.map fun _ _ => trivial
  | binary op l r =>
    obtain ⟨left, right, -⟩ := (forall_mem_cons.mp settled).imp_right forall_mem_cons.mp
    refine (succeeds_operand (stands_fixed.mp left) op _).bind fun _ _ => ?_
    exact (succeeds_operand (stands_fixed.mp right) op _).map fun _ _ => trivial
  | unary op x =>
    obtain ⟨operand, -⟩ := forall_mem_cons.mp settled
    exact succeeds_unary (stands_fixed.mp operand) op
  | conditional t c a =>
    obtain ⟨test, rest⟩ := forall_mem_cons.mp settled
    obtain ⟨consequent, alternate, -⟩ := (forall_mem_cons.mp rest).imp_right forall_mem_cons.mp
    refine (succeeds_within (stands_fixed.mp test) _).bind fun _ _ => ?_
    refine (succeeds_within (stands_fixed.mp consequent) _).bind fun _ _ => ?_
    exact (succeeds_within (stands_fixed.mp alternate) _).map fun _ _ => trivial
  | assign t op v =>
    obtain ⟨target, value, -⟩ := (forall_mem_cons.mp settled).imp_right forall_mem_cons.mp
    refine (succeeds_within ⟨target.admitted, target.printed⟩ _).bind fun _ _ => ?_
    exact (succeeds_within (stands_fixed.mp value) _).map fun _ _ => trivial
  | sequence es => exact succeeds_listed (stands_free.mp settled)
  | _ => cases kind

theorem succeeds_property (kind : f.isProperty) : (property f).Succeeds := by
  cases f with
  | property name v =>
    obtain ⟨value, -⟩ := forall_mem_cons.mp settled
    exact (succeeds_within (stands_fixed.mp value) _).map fun _ _ => trivial
  | _ => cases kind

theorem succeeds_declarator (kind : f.isDeclarator) : (declarator f).Succeeds := by
  cases f with
  | declarator id init =>
    obtain ⟨name, value⟩ := forall_mem_cons.mp settled
    refine (succeeds_shownName (stands_fixed.mp name)).bind fun _ _ => ?_
    cases init with
    | none => trivial
    | some v => exact (succeeds_within (stands_free.mp value v (by simp)) _).map fun _ _ => trivial
  | _ => cases kind

theorem succeeds_initialiser (kind : f.isDeclaration || f.isExpression) : (initialiser f).Succeeds := by
  cases f with
  | declaration k ds => exact succeeds_declaration k (stands_free.mp settled)
  | _ => exact succeeds_expression settled kind

theorem succeeds_statement (kind : f.isStatement) (depth : Nat) : (statement f depth).Succeeds := by
  cases f with
  | expressionStatement e =>
    obtain ⟨value, -⟩ := forall_mem_cons.mp settled
    exact (stands_fixed.mp value).printed.map fun _ _ => trivial
  | declaration k ds => exact (succeeds_declaration k (stands_free.mp settled)).map fun _ _ => trivial
  | functionDeclaration n ps body =>
    obtain ⟨name, rest⟩ := forall_mem_cons.mp settled
    obtain ⟨params, inner⟩ := forall_mem_append.mp rest
    refine (succeeds_shownName (stands_fixed.mp name)).bind fun _ _ => ?_
    refine (succeeds_names (stands_free.mp params)).bind fun _ _ => ?_
    exact (succeeds_body (stands_inner.mp inner) depth).map fun _ _ => trivial
  | returnStatement e =>
    cases e with
    | none => trivial
    | some v => exact (stands_free.mp settled v (by simp)).printed.map fun _ _ => trivial
  | ifStatement t c a =>
    obtain ⟨test, rest⟩ := forall_mem_cons.mp settled
    obtain ⟨consequent, alternate⟩ := forall_mem_append.mp rest
    refine (stands_fixed.mp test).printed.bind fun _ _ => ?_
    refine (succeeds_body (stands_free.mp consequent) depth).bind fun _ _ => ?_
    cases a with
    | none => trivial
    | some a => exact (succeeds_body (stands_free.mp alternate) depth).map fun _ _ => trivial
  | forStatement i t u b =>
    obtain ⟨rest, statements⟩ := forall_mem_append.mp settled
    obtain ⟨rest, update⟩ := forall_mem_append.mp rest
    obtain ⟨start, test⟩ := forall_mem_append.mp rest
    have parts : ∀ shown : Text → Text → Text → Text,
        (do let x ← optional t; let y ← optional u; return shown x y (← body depth b) : Outcome Text).Succeeds := by
      intro shown
      refine (succeeds_optional (stands_free.mp test)).bind fun _ _ => ?_
      refine (succeeds_optional (stands_free.mp update)).bind fun _ _ => ?_
      exact (succeeds_body (stands_free.mp statements) depth).map fun _ _ => trivial
    cases i with
    | none => exact parts _
    | some p => exact (stands_free.mp start p (by simp)).printed.bind fun _ _ => parts _
  | whileStatement t b =>
    obtain ⟨test, body⟩ := forall_mem_cons.mp settled
    refine (stands_fixed.mp test).printed.bind fun _ _ => ?_
    exact (succeeds_body (stands_free.mp body) depth).map fun _ _ => trivial
  | tryStatement b p h y =>
    obtain ⟨rest, last⟩ := forall_mem_append.mp settled
    obtain ⟨rest, handler⟩ := forall_mem_append.mp rest
    obtain ⟨block, param⟩ := forall_mem_append.mp rest
    have ending : ∀ shown : Text,
        (y.elim (pure shown) fun s => do return shown ++ " finally " ++ (← body depth s) : Outcome Text).Succeeds := by
      intro shown
      cases y with
      | none => trivial
      | some s => exact (succeeds_body (stands_free.mp last) depth).map fun _ _ => trivial
    refine (succeeds_body (stands_free.mp block) depth).bind fun _ _ => ?_
    cases h with
    | none => cases y <;> exact ending _
    | some statements =>
      have caught := succeeds_body (stands_inner.mp handler) depth
      cases p with
      | none => exact caught.bind fun _ _ => by cases y <;> exact ending _
      | some p =>
        refine (succeeds_shownName (stands_free.mp param p (by simp))).bind fun _ _ => caught.bind fun _ _ => ?_
        cases y <;> exact ending _
  | breakStatement | continueStatement => trivial
  | block b => exact (succeeds_body (stands_free.mp settled) depth).map fun _ _ => trivial
  | _ => cases kind

theorem printed_layer {role : Role} (admitted : role.admits f) : role.Printed (layer f) := by
  cases role with
  | name => trivial
  | target | expression => exact succeeds_expression settled admitted
  | property => exact succeeds_property settled admitted
  | declarator => exact succeeds_declarator settled admitted
  | statement => exact succeeds_statement settled admitted
  | start => exact succeeds_initialiser settled admitted

end Layers

end Render

namespace Tree

theorem Grammatical.printed {t : Tree α} (h : t.Grammatical) (role : Role) (admitted : role.admits t.form) :
    role.Printed t.rendered := by
  induction t generalizing role with
  | node m f ih =>
    obtain ⟨here, below⟩ := grammatical_node.mp h
    rw [rendered, para_node]
    refine printed_layer (fun p hp => ?_) (by rwa [Role.admits_map])
    rw [Form.places_map] at hp
    obtain ⟨q, hq, rfl⟩ := mem_map.mp hp
    have held := place_mem_children hq
    exact ⟨here q hq, ih q.tree held (below q.tree held) q.role (here q hq)⟩

theorem Grammatical.renders {t : Tree α} (h : t.Grammatical) (expression : t.form.isExpression) :
    t.renderExpression.Succeeds := h.printed .expression expression

theorem Grammatical.toSource {t : Tree α} (h : t.Grammatical) (expression : t.form.isExpression) : t.toSource.Succeeds := by
  have renders := h.renders expression
  obtain ⟨m, f⟩ := t
  cases f <;> first | exact renders | cases expression

end Tree

end Unravel
