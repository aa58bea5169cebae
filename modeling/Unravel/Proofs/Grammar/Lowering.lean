import Unravel.Grammar.Phrase
import Unravel.Proofs.Outcome
import Unravel.Proofs.Syntax.Places

/-! The trees that constructs of the source stand for are grammatical, and no name in them has a point in it. Where there
   is no tree, the source is not in the language or names a character that does not exist. Each construct keeps this if
   its parts have it. -/
namespace Unravel

open List

/-- What a construct of the source can lack a tree for. -/
def Fault.isOfReading : Fault → Bool
  | codePointRange | codePointOverflow => true
  | f => f.category == .parse || f.category == .unsupported

namespace Outcome

variable {α : Type} {P : α → Prop}

/-- A tree, or part of one, that a construct of the source stands for. -/
abbrev Lowers (x : Outcome α) (P : α → Prop) : Prop := x.Ends P fun f => f.isOfReading

theorem lowers_ok {a : α} (h : P a) : Lowers (.ok a) P := h

theorem lowers_pure {a : α} (h : P a) : Lowers (pure a) P := h

theorem lowers_error {f : Fault} (h : f.isOfReading) : Lowers (.error f) P := h

theorem lowers_throw {f : Fault} (h : f.isOfReading) : Lowers (throw f) P := h

end Outcome

namespace Literal

open Outcome

theorem lowers_number (t : Text) : (number t).Lowers fun _ => True := by
  refine ends_ite (fun _ => lowers_error rfl) fun _ => ?_
  split
  next => trivial
  next => exact lowers_error rfl

theorem lowers_codePoint (n : Nat) : (codePoint n).Lowers fun _ => True := by
  rw [codePoint]
  split
  next => trivial
  next =>
    split
    next => exact lowers_error rfl
    next => exact lowers_error rfl

theorem lowers_escape (c : CodePoint) (more : Text) : (escape c more).Lowers fun _ => True := by
  have code : ∀ n k, (do return ([← codePoint n], k) : Outcome (Text × Nat)).Lowers fun _ => True :=
    fun n k => (lowers_codePoint n).map fun _ _ => trivial
  refine ends_ite (fun _ => ?_) fun _ => ends_ite (fun _ => ?_) fun _ => ends_ite (fun _ => code _ _) fun _ => ?_
  · split
    next => exact code _ _
    next => exact code _ _
    next => trivial
  · split
    next => exact code _ _
    next => trivial
  · exact ends_ite (fun _ => trivial) fun _ => trivial

theorem lowers_unescape (n : Nat) (t : Text) : (unescape n t).Lowers fun _ => True := by
  induction n generalizing t with
  | zero => trivial
  | succ n ih =>
    cases t with
    | nil => trivial
    | cons c more =>
      refine ends_ite (fun _ => ?_) fun _ => (ih more).map fun _ _ => trivial
      cases more with
      | nil => trivial
      | cons mark rest => exact (lowers_escape mark rest).bind fun _ _ => (ih _).map fun _ _ => trivial

theorem lowers_string (t : Text) : (string t).Lowers fun _ => True := by
  cases t with
  | nil => exact lowers_throw rfl
  | cons quote body =>
    refine ends_ite (fun _ => ?_) fun _ => lowers_throw rfl
    exact (lowers_unescape _ _).map fun _ _ => trivial

end Literal

/-- Names are words of the source, in which there are no points. -/
def Form.isUndotted {ρ : Type} : Form ρ → Bool
  | identifier name => !name.contains (ofChar '.')
  | _ => true

theorem Form.isUndotted_map {ρ σ : Type} (g : ρ → σ) (f : Form ρ) : (f.map g).isUndotted = f.isUndotted := by
  cases f <;> rfl

def Form.isFunction {ρ : Type} : Form ρ → Bool
  | function .. => true
  | _ => false

namespace Tree

variable {α : Type}

def Undotted (t : Tree α) : Prop := ∀ n ∈ t.walk, n.form.isUndotted

/-- A tree that may stand in a place. -/
structure Fits (role : Role) (t : Tree α) : Prop where
  admits : role.admits t.form
  grammatical : t.Grammatical
  undotted : t.Undotted

theorem fits_node {role : Role} {m : α} {f : Form (Tree α)} (admits : role.admits f) (undotted : f.isUndotted)
    (places : ∀ p ∈ f.places, Fits p.role p.tree) : Fits role (node m f) := by
  have below : ∀ c ∈ f.children, ∃ role, Fits role c := by
    intro c hc
    obtain ⟨p, hp, rfl⟩ := Form.mem_children.mp hc
    exact ⟨p.role, places p hp⟩
  refine ⟨admits, grammatical_node.mpr ⟨fun p hp => (places p hp).admits, fun c hc => ?_⟩, fun n hn => ?_⟩
  · obtain ⟨role, fits⟩ := below c hc
    exact fits.grammatical
  · rcases mem_walk_node.mp hn with rfl | ⟨c, hc, hn⟩
    · exact undotted
    · obtain ⟨role, fits⟩ := below c hc
      exact fits.undotted n hn

theorem Fits.expression {t : Tree α} (h : Fits .name t) : Fits .expression t := by
  obtain ⟨m, x, rfl⟩ := form_of_isName h.admits
  exact ⟨rfl, h.grammatical, h.undotted⟩

theorem Fits.target {t : Tree α} (h : Fits .expression t) : Fits .target t := ⟨h.admits, h.grammatical, h.undotted⟩

theorem fits_start_of_expression {t : Tree α} (h : Fits .expression t) : Fits .start t := by
  refine ⟨?_, h.grammatical, h.undotted⟩
  have expression : t.form.isExpression := h.admits
  rw [Role.admits, expression, Bool.or_true]

end Tree

namespace Grammar

open Unravel.Tree Outcome

attribute [local simp] Form.places Place.fixed Place.free

/-- What an expression reads as. A phrase that serves as a name is one, and so is one that is called a function. -/
structure Phrase.Sound (p : Phrase) : Prop where
  expression : p.lowered.Lowers (Fits .expression)
  name : p.role = .name → p.lowered.Lowers (Fits .name)
  function : p.core = "function_expression" → p.lowered.Gives fun t => t.form.isFunction

/-- The phrases in a list in brackets. -/
def Element.phrase? : Element → Option Phrase
  | item p | spread _ p => some p
  | comma => none

def Member.Sound (m : Member) : Prop := m.lowered.Lowers (Fits .property)

def Parameter.Sound (p : Parameter) : Prop := p.lowered.Lowers (Fits .name)

def AreStatements (ts : List Shape) : Prop := ∀ t ∈ ts, Fits .statement t

structure Clause.Sound (c : Clause) : Prop where
  lowered : c.lowered.Lowers AreStatements
  body : c.body.Lowers AreStatements
  expression : ∀ e, c.expression = some e → e.Sound

/-- A name that a declaration introduces has no point in it. -/
def IsUndotted (name : Text) : Prop := ofChar '.' ∉ name

structure Declarator.Sound (d : Declarator) : Prop where
  name : ∀ n, d.name = some n → IsUndotted n
  value : ∀ v, d.value = some v → v.Sound

theorem fits_identifier {name : Text} (h : IsUndotted name) : Fits .name (Shape.identifier name) := by
  refine fits_node rfl ?_ nofun
  rw [Form.isUndotted, Bool.not_eq_true', contains_eq_mem, decide_eq_false_iff_not]
  exact h

namespace Phrase

/-- A phrase that serves neither as a name nor as a function only has to read as an expression. -/
theorem sound_of_expression {p : Phrase} (other : p.role ≠ .name) (plain : (p.core == ("function_expression" : Text)) = false)
    (h : p.lowered.Lowers (Fits .expression)) : p.Sound :=
  ⟨h, fun same => absurd same other, fun same => absurd same (ne_of_beq_false plain)⟩

theorem sound_leaf {kind : Text} {start : Position} {f : Form Shape} (admits : Role.expression.admits f)
    (undotted : f.isUndotted) (bare : f.places = []) (plain : (kind == ("function_expression" : Text)) = false) :
    (leaf kind start f).Sound := by
  refine sound_of_expression nofun plain (lowers_ok (fits_node admits undotted ?_))
  rw [bare]
  nofun

theorem sound_foreign (kind : Text) (start : Position) : (foreign kind start).Sound :=
  ⟨lowers_error rfl, nofun, fun _ => gives_error _⟩

theorem sound_name {t : Text} (h : IsUndotted t) (start : Position) : (name t start).Sound := by
  refine ⟨lowers_ok (fits_identifier h).expression, fun _ => lowers_ok (fits_identifier h), fun same => ?_⟩
  have plain : (if t = "undefined" then "undefined" else "identifier" : Text) ≠ "function_expression" := by
    split <;> decide
  exact absurd same plain

theorem sound_number (t : Text) (start : Position) : (number t start).Sound :=
  sound_of_expression nofun rfl ((Literal.lowers_number t).map fun _ _ => fits_node rfl rfl nofun)

theorem sound_string (t : Text) (start : Position) : (string t start).Sound :=
  sound_of_expression nofun rfl ((Literal.lowers_string t).map fun _ _ => fits_node rfl rfl nofun)

theorem sound_parenthesised (start : Position) {inner : Phrase} (h : inner.Sound) : (parenthesised start inner).Sound :=
  ⟨h.expression, nofun, h.function⟩

theorem sound_member {object : Phrase} (h : object.Sound) (isOptional : Bool) (property : Token) (place : Position) :
    (member object isOptional property place).Sound := by
  refine sound_of_expression nofun rfl ?_
  unfold member
  dsimp only
  split
  · exact lowers_throw rfl
  · cases property with
    | word name =>
      refine h.expression.bind fun o ho => lowers_pure (fits_node rfl rfl ?_)
      simpa using ho
    | _ => exact lowers_throw rfl

theorem sound_index {object key : Phrase} (h : object.Sound) (isOptional : Bool) (hk : key.Sound) :
    (index object isOptional key).Sound := by
  refine sound_of_expression nofun rfl ?_
  rw [index]
  dsimp only
  split
  · exact lowers_throw rfl
  · refine h.expression.bind fun o ho => hk.expression.bind fun k hk => lowers_pure (fits_node rfl rfl ?_)
    simpa using ⟨ho, hk⟩

theorem sound_unary (op : UnaryOp) (start : Position) {operand : Phrase} (h : operand.Sound) :
    (unary op start operand).Sound := by
  refine sound_of_expression nofun rfl (h.expression.bind fun x hx => lowers_pure (fits_node rfl rfl ?_))
  simpa using hx

theorem sound_binary {left right : Phrase} (hl : left.Sound) (op : BinaryOp) (hr : right.Sound) :
    (binary left op right).Sound := by
  refine sound_of_expression nofun rfl (hl.expression.bind fun l hl => hr.expression.bind fun r hr => ?_)
  refine lowers_pure (fits_node rfl rfl ?_)
  simpa using ⟨hl, hr⟩

theorem sound_conditional {test consequent alternate : Phrase} (ht : test.Sound) (hc : consequent.Sound)
    (ha : alternate.Sound) : (conditional test consequent alternate).Sound := by
  refine sound_of_expression nofun rfl (ht.expression.bind fun t ht => hc.expression.bind fun c hc => ?_)
  refine ha.expression.bind fun a ha => lowers_pure (fits_node rfl rfl ?_)
  simpa using ⟨ht, hc, ha⟩

theorem sound_assign {target value : Phrase} (ht : target.Sound) (op : Text) (hv : value.Sound) :
    (assign target op value).Sound := by
  have plain : (if op = "=" then "assignment_expression" else "augmented_assignment_expression" : Text) ≠
      "function_expression" := by
    split <;> decide
  refine sound_of_expression nofun (beq_false_of_ne plain) ?_
  have built : Lowers (do
      let t ← target.lowered
      return Tree.node () (.assign t op (← value.lowered))) (Fits .expression) := by
    refine ht.expression.bind fun t ht => hv.expression.bind fun v hv => lowers_pure (fits_node rfl rfl ?_)
    simpa using ⟨ht.target, hv⟩
  rw [assign]
  dsimp only
  split
  · exact built
  · exact built
  · exact lowers_throw rfl

theorem sound_sequence {first : Phrase} (h : first.Sound) {others : List Phrase} (all : ∀ p ∈ others, p.Sound) :
    (sequence first others).Sound := by
  rw [sequence]
  split
  · exact h
  · have each : ∀ p ∈ first :: others, p.lowered.Lowers (Fits .expression) := by
      intro p hp
      rcases mem_cons.mp hp with rfl | hp
      · exact h.expression
      · exact (all p hp).expression
    refine sound_of_expression nofun rfl ((ends_mapM each).bind fun es hes => lowers_pure (fits_node rfl rfl ?_))
    simpa using hes

end Phrase

theorem lowers_elements (what : Text) {elements : List Element} (all : ∀ p ∈ elements.filterMap Element.phrase?, p.Sound) :
    (Element.lowered what elements).Lowers fun ts => ∀ t ∈ ts, Fits .expression t := by
  induction elements with
  | nil => exact lowers_ok nofun
  | cons e rest ih =>
    cases e with
    | comma => exact ih all
    | spread start p => exact lowers_error rfl
    | item p =>
      obtain ⟨here, others⟩ := forall_mem_cons.mp all
      refine here.expression.bind fun t ht => (ih others).bind fun ts hts => lowers_pure ?_
      simpa using ⟨ht, hts⟩

namespace Phrase

theorem sound_array (start : Position) {elements : List Element} (all : ∀ p ∈ elements.filterMap Element.phrase?, p.Sound) (commented : Bool) :
    (array start elements commented).Sound := by
  refine sound_of_expression nofun rfl ?_
  rw [array]
  dsimp only
  split
  · exact lowers_throw rfl
  · refine (lowers_elements _ all).bind fun es hes => lowers_pure (fits_node rfl rfl ?_)
    simpa using hes

theorem sound_call {f : Phrase} (h : f.Sound) (isOptional : Bool) {args : List Element} (all : ∀ p ∈ args.filterMap Element.phrase?, p.Sound) :
    (call f isOptional args).Sound := by
  refine sound_of_expression nofun rfl ?_
  rw [call]
  dsimp only
  split
  · exact lowers_throw rfl
  · refine (lowers_elements _ all).bind fun es hes => h.expression.bind fun c hc => lowers_pure (fits_node rfl rfl ?_)
    simpa using ⟨hc, hes⟩

theorem sound_tagged (f : Phrase) (template : Position) : (tagged f template).Sound :=
  sound_of_expression nofun rfl (lowers_error rfl)

end Phrase

namespace Member

theorem lowers_keyText (key : Token) (start : Position) : (keyText key start).Lowers fun _ => True := by
  cases key with
  | word | number => trivial
  | string t => exact Literal.lowers_string t
  | _ => exact lowers_error rfl

theorem sound_pair (key : Token) (start : Position) {value : Phrase} (h : value.Sound) : (pair key start value).Sound := by
  refine (lowers_keyText key start).bind fun k _ => h.expression.bind fun v hv => ?_
  refine lowers_pure (fits_node rfl rfl ?_)
  simpa using hv

theorem sound_spread (start : Position) (value : Phrase) : (spread start value).Sound := by
  unfold Sound
  exact lowers_error rfl

theorem sound_method (start : Position) : (method start).Sound := by
  unfold Sound
  exact lowers_error rfl

theorem sound_named {name : Text} (h : IsUndotted name) : (shorthand name).Sound ∧ (defaulted name).Sound := by
  have fits : Fits .property (.node () (.property name (Shape.identifier name))) := by
    refine fits_node rfl rfl ?_
    simpa using (fits_identifier h).expression
  exact ⟨lowers_ok fits, lowers_ok fits⟩

end Member

theorem sound_object (start : Position) {members : List Member} (all : ∀ m ∈ members, m.Sound) :
    (Phrase.object start members).Sound := by
  refine Phrase.sound_of_expression nofun rfl ((ends_mapM all).bind fun ms hms => lowers_pure (fits_node rfl rfl ?_))
  simpa using hms

theorem Parameter.sound_foreign (kind : Text) (start : Position) : (foreign kind start).Sound := by
  unfold Sound
  exact lowers_error rfl

theorem sound_parameter {p : Phrase} (h : p.Sound) : (Parameter.ofPhrase p).Sound := by
  rw [Parameter.ofPhrase]
  split
  next same => exact h.name same
  next => exact Parameter.sound_foreign _ _

namespace Clause

theorem sound_single {kind : Text} {start : Position} {form : Outcome (Form Shape)}
    (h : form.Lowers fun f => Fits .statement (.node () f)) : (single kind start form).Sound := by
  have one : Lowers (do return [Tree.node () (← form)]) AreStatements := by
    refine h.bind fun f hf => lowers_pure fun t ht => ?_
    rw [mem_singleton.mp ht]
    exact hf
  exact ⟨one, one, nofun⟩

theorem sound_foreign (kind : Text) (start : Position) : (foreign kind start).Sound :=
  ⟨lowers_error rfl, lowers_error rfl, nofun⟩

theorem sound_ofExpression (start : Position) {e : Phrase} (h : e.Sound) : (ofExpression start e).Sound := by
  have one : Lowers (do return [Tree.node () (.expressionStatement (← e.lowered))]) AreStatements := by
    refine h.expression.bind fun x hx => lowers_pure fun t ht => ?_
    rw [mem_singleton.mp ht]
    refine fits_node rfl rfl ?_
    simpa using hx
  refine ⟨one, one, fun p same => ?_⟩
  cases same
  exact h

theorem sound_empty (start : Position) : (empty start).Sound := ⟨lowers_ok nofun, lowers_ok nofun, nofun⟩

theorem lowers_all {clauses : List Clause} (each : ∀ c ∈ clauses, c.Sound) : (all clauses).Lowers AreStatements := by
  refine (ends_mapM fun c hc => (each c hc).lowered).bind fun tss htss => lowers_pure fun t ht => ?_
  obtain ⟨ts, hts, ht⟩ := mem_flatten.mp ht
  exact htss ts hts t ht

theorem sound_block (start : Position) {clauses : List Clause} (each : ∀ c ∈ clauses, c.Sound) :
    (block start clauses).Sound := by
  refine ⟨(lowers_all each).bind fun ts hts => lowers_pure fun t ht => ?_, lowers_all each, nofun⟩
  rw [mem_singleton.mp ht]
  refine fits_node rfl rfl ?_
  simpa using show ∀ t ∈ ts, Fits .statement t from hts

end Clause

section Functions

variable {params : List Parameter} {body : Outcome (List Shape)} (names : ∀ p ∈ params, p.Sound)
  (statements : body.Lowers AreStatements)

include names statements

theorem lowers_function {name : Option Shape} (named : ∀ t ∈ name, Fits .name t) (isArrow : Bool) : Lowers (do
      let ps ← params.mapM Parameter.lowered
      return Tree.node () (.function ps (← body) name isArrow)) (Fits .expression) := by
  refine (ends_mapM names).bind fun ps hps => statements.bind fun b hb => lowers_pure (fits_node rfl rfl ?_)
  simp only [Form.places, Place.free, Place.inner, mem_append, mem_map]
  rintro p ((⟨t, ht, rfl⟩ | ⟨t, ht, rfl⟩) | ⟨t, ht, rfl⟩)
  · exact hps t ht
  · exact hb t ht
  · exact named t (Option.mem_toList.mp ht)

theorem sound_function (kind : Text) (start : Position) (isAsync : Bool) {name : Option Text}
    (named : ∀ n, name = some n → IsUndotted n) : (Phrase.function kind start isAsync name params body).Sound := by
  refine ⟨?_, nofun, fun _ => ?_⟩
  all_goals
    rw [Phrase.function]
    dsimp only
    split
  · exact lowers_throw rfl
  · split
    · exact lowers_throw rfl
    · refine lowers_function names statements (fun t ht => ?_) false
      obtain ⟨n, same, rfl⟩ := Option.map_eq_some_iff.mp ht
      exact fits_identifier (named n same)
  · exact gives_throw _
  · split
    · exact gives_throw _
    · exact gives_after fun ps => gives_after fun b => gives_pure rfl

theorem sound_arrow (start : Position) (isAsync : Bool) : (Phrase.arrow start isAsync params body).Sound := by
  refine Phrase.sound_of_expression nofun rfl ?_
  rw [Phrase.arrow]
  dsimp only
  split
  · exact lowers_throw rfl
  · exact lowers_function names statements (fun t none => by cases none) true

theorem sound_functionDeclaration (kind : Text) (start : Position) (isAsync : Bool) {name : Text} (named : IsUndotted name) :
    (Clause.function kind start isAsync name params body).Sound := by
  refine Clause.sound_single ?_
  dsimp only
  split
  · exact lowers_throw rfl
  · split
    · exact lowers_throw rfl
    · refine (ends_mapM names).bind fun ps hps => statements.bind fun b hb => lowers_pure (fits_node rfl rfl ?_)
      simp only [Form.places, Place.free, Place.inner, Place.fixed, mem_cons, mem_append, mem_map]
      rintro p (rfl | ⟨t, ht, rfl⟩ | ⟨t, ht, rfl⟩)
      · exact fits_identifier named
      · exact hps t ht
      · exact hb t ht

end Functions

section Statements

variable {role : Unravel.Role} {ts body : List Shape} {test : Shape}

theorem fits_free (h : ∀ t ∈ ts, Fits role t) : ∀ p ∈ Place.free role ts, Fits p.role p.tree := by
  intro p hp
  obtain ⟨t, ht, rfl⟩ := mem_map.mp hp
  exact h t ht

theorem fits_inner (h : AreStatements ts) : ∀ p ∈ Place.inner ts, Fits p.role p.tree := by
  intro p hp
  obtain ⟨t, ht, rfl⟩ := mem_map.mp hp
  exact h t ht

theorem fits_option {o : Option Shape} (h : ∀ t ∈ o, Fits role t) : ∀ p ∈ Place.free role o.toList, Fits p.role p.tree :=
  fits_free fun t ht => h t (Option.mem_toList.mp ht)

theorem fits_ifStatement {alternate : Option (List Shape)} (ht : Fits .expression test) (hb : AreStatements body)
    (ha : AreStatements (alternate.getD [])) : Fits .statement (.node () (.ifStatement test body alternate)) :=
  fits_node rfl rfl (forall_mem_cons.mpr ⟨ht, forall_mem_append.mpr ⟨fits_free hb, fits_free ha⟩⟩)

theorem fits_whileStatement (ht : Fits .expression test) (hb : AreStatements body) :
    Fits .statement (.node () (.whileStatement test body)) :=
  fits_node rfl rfl (forall_mem_cons.mpr ⟨ht, fits_free hb⟩)

theorem fits_forStatement {init check update : Option Shape} (hi : ∀ t ∈ init, Fits .start t)
    (hc : ∀ t ∈ check, Fits .expression t) (hu : ∀ t ∈ update, Fits .expression t) (hb : AreStatements body) :
    Fits .statement (.node () (.forStatement init check update body)) := by
  refine fits_node rfl rfl ?_
  simp only [Form.places, forall_mem_append]
  exact ⟨⟨⟨fits_option hi, fits_option hc⟩, fits_option hu⟩, fits_free hb⟩

theorem fits_tryStatement {param : Option Shape} {handler final : Option (List Shape)} (hb : AreStatements body)
    (hp : ∀ t ∈ param, Fits .name t) (hh : AreStatements (handler.getD [])) (hf : AreStatements (final.getD [])) :
    Fits .statement (.node () (.tryStatement body param handler final)) := by
  refine fits_node rfl rfl ?_
  simp only [Form.places, forall_mem_append]
  exact ⟨⟨⟨fits_free hb, fits_option hp⟩, fits_inner hh⟩, fits_free hf⟩

theorem sound_tryStatement (start : Position) {block : Clause} (hb : block.Sound)
    {caught : Option (Outcome (Option Shape) × Clause)} {final : Option Clause}
    (hc : ∀ c ∈ caught, (c.1.Lowers fun o => ∀ t ∈ o, Fits .name t) ∧ c.2.Sound) (hf : ∀ f ∈ final, f.Sound) :
    (Clause.single "try_statement" start do
      let b ← block.body
      let (param, handled) ← match caught with
        | none => pure (none, none)
        | some (param, body) => do
          let p ← param
          pure (p, some (← body.body))
      match final with
      | none => return .tryStatement b param handled none
      | some f => return .tryStatement b param handled (some (← f.body))).Sound := by
  refine Clause.sound_single (hb.body.bind fun b hb => ?_)
  have finish : ∀ {param handled}, (∀ t ∈ param, Fits .name t) → AreStatements (handled.getD []) →
      Lowers (match final with
        | none => pure (.tryStatement b param handled none)
        | some f => do return .tryStatement b param handled (some (← f.body))) fun f => Fits .statement (.node () f) := by
    intro param handled hp hh
    cases final with
    | none => exact lowers_pure (fits_tryStatement hb hp hh nofun)
    | some f => exact (hf f rfl).body.bind fun ts hts => lowers_pure (fits_tryStatement hb hp hh hts)
  cases caught with
  | none => exact finish (fun t none => by cases none) nofun
  | some c =>
    obtain ⟨named, handles⟩ := hc c rfl
    exact named.bind fun p hp => handles.body.bind fun ts hts => finish hp hts

theorem fits_returnStatement {value : Option Shape} (h : ∀ t ∈ value, Fits .expression t) :
    Fits .statement (.node () (.returnStatement value)) := fits_node rfl rfl (fits_option h)

end Statements

theorem lowers_declarator {d : Declarator} (h : d.Sound) : d.lowered.Lowers (Fits .declarator) := by
  obtain ⟨start, name, value⟩ := d
  unfold Declarator.lowered
  cases name with
  | none => exact lowers_throw rfl
  | some name =>
    have named : Fits .name (Shape.identifier name) := fits_identifier (h.name name rfl)
    cases value with
    | none =>
      refine lowers_pure (fits_node rfl rfl ?_)
      simpa using named
    | some v =>
      refine (h.value v rfl).expression.bind fun t ht => lowers_pure (fits_node rfl rfl ?_)
      simpa using ⟨named, ht⟩

theorem lowers_declaration (kind : Text) {ds : List Declarator} (all : ∀ d ∈ ds, d.Sound) :
    (Declarator.declaration kind ds).Lowers fun f => Fits .statement (.node () f) ∧ Fits .start (.node () f) := by
  refine (ends_mapM fun d hd => lowers_declarator (all d hd)).bind fun ts hts => lowers_pure ?_
  have places : ∀ p ∈ (Form.declaration kind ts).places, Fits p.role p.tree := by
    simpa using hts
  exact ⟨fits_node rfl rfl places, fits_node rfl rfl places⟩

end Grammar

end Unravel
