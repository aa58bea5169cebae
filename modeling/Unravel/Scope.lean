import Unravel.Syntax.Tree

/-! Which declaration each identifier of a tree refers to. Declarations are hoisted to the function around them
   before its body is looked at, so a reference finds the innermost scope that declares its name, wherever the
   declaration stands. A name that no scope declares refers to nothing here. -/
namespace Unravel

inductive BindingKind where
  | function
  | var
  | parameter
deriving DecidableEq

def BindingKind.text : BindingKind → Text
  | function => "function-declaration"
  | var => "variable-declaration"
  | parameter => "parameter"

/-- One place that declares a name: the node to be looked up, and the node that gives the value. -/
structure Declaration where
  key : NodeId
  name : Text
  kind : BindingKind
  node : NodeId

/-- A declared name of one scope, with all nodes that declare it. -/
structure Binding where
  name : Text
  kind : BindingKind
  node : NodeId
  declarations : List NodeId

/-- A scope belongs to a function or to a `try` with a handler; the outermost one to nothing. -/
structure Scope where
  owner : Option NodeId
  bindings : List Binding := []

/-- A binding is known by its scope and its name. -/
structure BindingId where
  scope : Option NodeId
  name : Text
deriving DecidableEq

namespace Scope

/-- A function declaration takes the name over unless a parameter has it. -/
def redeclare (b : Binding) (d : Declaration) : Binding :=
  let known := b.declarations ++ [d.node]
  if d.kind = .function ∧ b.kind ≠ .parameter then { b with kind := d.kind, node := d.node, declarations := known }
  else { b with declarations := known }

def enterName (d : Declaration) : List Binding → List Binding
  | [] => [⟨d.name, d.kind, d.node, [d.node]⟩]
  | b :: rest => if b.name = d.name then redeclare b d :: rest else b :: enterName d rest

def declare (s : Scope) (d : Declaration) : Scope := { s with bindings := enterName d s.bindings }

def ofDeclarations (owner : Option NodeId) (ds : List Declaration) : Scope := ds.foldl declare { owner := owner }

def find? (s : Scope) (name : Text) : Option Binding := s.bindings.find? fun b => b.name == name

def declares (s : Scope) (name : Text) : Bool := s.bindings.any fun b => b.name == name

/-- The binding of a name in the innermost scope that declares it; innermost scopes come first. -/
def lookup (name : Text) : List Scope → Option BindingId
  | [] => none
  | s :: outer => if s.declares name then some ⟨s.owner, name⟩ else lookup name outer

end Scope

/-- The name of an identifier. -/
def Tree.name {α : Type} (t : Tree α) : Text :=
  match t.form with
  | .identifier n => n
  | _ => []

namespace Node

/-- The declarations that a statement adds to the function around it. -/
def hoisted (t : Node) : List Declaration :=
  t.para fun id f =>
    let all (ts : List (Node × List Declaration)) : List Declaration := ts.flatMap (·.2)
    match f with
    | .functionDeclaration name _ _ => [⟨id, name.1.name, .function, id⟩]
    | .declaration _ declarators => all declarators
    | .declarator name _ => [⟨id, name.1.name, .var, id⟩]
    | .ifStatement _ consequent alternate => all consequent ++ all (alternate.getD [])
    | .forStatement init _ _ body => all init.toList ++ all body
    | .whileStatement _ body => all body
    | .tryStatement block _ handler finalizer => all block ++ all (handler.getD []) ++ all (finalizer.getD [])
    | .block body => all body
    | _ => []

end Node

structure Reference where
  node : NodeId
  name : Text
  isWrite : Bool
  /-- The scopes around the reference, innermost first. -/
  chain : List Scope

def Reference.binding (r : Reference) : Option BindingId := Scope.lookup r.name r.chain

/-- What is known about the names of a tree. Everything is in the order in which the tree is visited. -/
structure Resolution where
  global : Scope := { owner := none }
  /-- Every other scope with the owner of the scope around it. -/
  scopes : List (Scope × Option NodeId) := []
  references : List Reference := []
  declared : List (NodeId × BindingId) := []

namespace Resolution

instance : Append Resolution where
  append a b := ⟨a.global, a.scopes ++ b.scopes, a.references ++ b.references, a.declared ++ b.declared⟩

/-- What a subtree contributes, given the scopes around it. -/
abbrev Visit := List Scope → Resolution

def visitAll (visits : List Visit) (chain : List Scope) : Resolution :=
  visits.foldl (fun known visit => known ++ visit chain) {}

/-- A parameter or the name of a function expression. -/
def parameter (t : Node) : Declaration := ⟨t.mark, t.name, .parameter, t.mark⟩

def declaredIn (owner : Option NodeId) (ds : List Declaration) : List (NodeId × BindingId) :=
  ds.map fun d => (d.key, ⟨owner, d.name⟩)

/-- Opens a scope and visits what is inside. -/
def enter (owner : NodeId) (ds : List Declaration) (inside : List Visit) : Visit := fun chain =>
  let scope := Scope.ofDeclarations (some owner) ds
  let opened : Resolution :=
    { scopes := [(scope, chain.head?.bind Scope.owner)], declared := declaredIn (some owner) ds }
  opened ++ visitAll inside (scope :: chain)

def refer (t : Node) (isWrite : Bool) : Visit := fun chain =>
  { references := [⟨t.mark, t.name, isWrite, chain⟩] }

/-- The declarations of a function: its own name, its parameters, and what its body hoists. -/
def functionDeclarations (id : NodeId) (name : Option Node) (params body : List Node) : List Declaration :=
  name.toList.map (fun n => ⟨n.mark, n.name, .function, id⟩) ++ params.map parameter ++ body.flatMap Node.hoisted

def layer (id : NodeId) (f : Form (Node × Visit)) : Visit :=
  match f with
  | .identifier name => refer (.node id (.identifier name)) false
  | .function params body name _ =>
    enter id (functionDeclarations id (name.map (·.1)) (params.map (·.1)) (body.map (·.1))) (body.map (·.2))
  | .functionDeclaration _ params body =>
    enter id (functionDeclarations id none (params.map (·.1)) (body.map (·.1))) (body.map (·.2))
  | .declarator _ init => visitAll (init.toList.map (·.2))
  | .assign target _ value =>
    let written : Visit := match target.1.form with
      | .identifier _ => refer target.1 true
      | _ => target.2
    visitAll [written, value.2]
  | .tryStatement block param handler finalizer =>
    let handled : List Visit := match handler with
      | none => []
      | some statements => [enter id (param.toList.map fun p => parameter p.1) (statements.map (·.2))]
    visitAll (block.map (·.2) ++ handled ++ (finalizer.getD []).map (·.2))
  | f => visitAll (f.children.map (·.2))

/-- Resolves every identifier of a tree. A statement at the root declares its names in the outermost scope. -/
def of (root : Node) : Resolution :=
  let ds := if root.form.isStatement then root.hoisted else []
  let global := Scope.ofDeclarations none ds
  let start : Resolution := { global := global, declared := declaredIn none ds }
  start ++ root.para layer [global]

def scope? (r : Resolution) (owner : Option NodeId) : Option Scope :=
  if owner = none then some r.global else (r.scopes.find? fun s => s.1.owner == owner).map (·.1)

def binding? (r : Resolution) (id : BindingId) : Option Binding := (r.scope? id.scope).bind (·.find? id.name)

/-- The binding that a referring identifier means. -/
def bindingOf (r : Resolution) (node : NodeId) : Option BindingId :=
  (r.references.find? fun ref => ref.node == node).bind Reference.binding

/-- The binding that a declarator, declaration or parameter introduces. -/
def bindingFor (r : Resolution) (node : NodeId) : Option BindingId :=
  (r.declared.find? fun d => d.1 == node).map (·.2)

def referencesTo (r : Resolution) (id : BindingId) : List Reference :=
  r.references.filter fun ref => ref.binding == some id

def writesTo (r : Resolution) (id : BindingId) : List Reference := (r.referencesTo id).filter (·.isWrite)

/-- Every binding once, in the order in which they were first declared. -/
def bindings (r : Resolution) : List BindingId := (r.declared.map (·.2)).eraseDups

end Resolution

end Unravel
