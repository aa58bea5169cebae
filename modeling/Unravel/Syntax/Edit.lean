import Unravel.Syntax.Tree
import Unravel.Fault

/-! Edits: putting a tree in the place of a node, deleting statements, and changing a tree by a rule that is offered
   every node. A revision that fails midway leaves the edits made so far, except that a list whose members could
   not all be settled keeps its old members. -/
namespace Unravel

namespace Node

/-- Puts a fresh tree in the place of a node below the root. -/
def replace (root : Node) (old : NodeId) (new : Shape) : Outcome Node :=
  match root.ancestors? old with
  | none | some [] => .error (.detached "replace")
  | some _ =>
    let fresh := new.numberFrom root.nextId
    .ok (substitute (fun n => if n.mark = old then some fresh else none) root)

/-- Deletes a statement or declarator below the root. -/
def remove (root old : Node) : Outcome Node :=
  if !old.form.isRemovable then .error (.cannotDelete old.kind "its parent")
  else match root.ancestors? old.mark with
    | none | some [] => .error (.detached "remove")
    | some _ => .ok (root.delete fun id => id == old.mark)

end Node

namespace Revision

inductive Order where
  /-- Subtrees before the tree around them. -/
  | post
  /-- A tree before its subtrees; a replacement is entered. -/
  | pre

def Order.ofName (name : Text) : Outcome Order :=
  if name = "post" then .ok .post else if name = "pre" then .ok .pre else .error (.unknownOrder name)

/-- What a rule wants done with a node. -/
inductive Wish where
  | keep
  | replace (new : Shape)
  | remove
  | fail (fault : Fault)

/-- What becomes of the place where a node stood. -/
inductive Verdict where
  | keep
  | replace (new : Node)
  | remove

structure Progress where
  next : NodeId
  /-- The nodes offered to the rule, last first, each as it was then. -/
  offered : List Node := []
  fault : Option Fault := none

abbrev Action (α : Type) := StateM Progress α

/-- A settled node: what stands in its place if the list around it fails, and what should stand there. -/
abbrev Settled := Node × Verdict

def fail (fault : Fault) : Action Unit := modify fun p => { p with fault := p.fault.or (some fault) }

def hasFailed : Action Bool := do return (← get).fault.isSome

def offer (rule : Node → Wish) (n : Node) : Action Wish := do
  modify fun p => { p with offered := n :: p.offered }
  return rule n

def fresh (new : Shape) : Action Node :=
  modifyGet fun p => let (n, next) := new.number p.next; (n, { p with next := next })

section

variable {ρ : Type} (settle : ρ → Action Settled) (before : ρ → Node) (parent : Text)

/-- Settles one subtree; only statements and declarators can disappear. -/
def settleOne (x : ρ) : Action Settled := do
  if ← hasFailed then return (before x, .keep)
  let (old, verdict) ← settle x
  match verdict with
  | .remove =>
    if (before x).form.isRemovable then return (old, .remove)
    fail (.cannotDelete (before x).kind parent)
    return (old, .keep)
  | verdict => return (old, verdict)

def inList : Settled → Option Node
  | (old, .keep) => some old
  | (_, .replace new) => some new
  | (_, .remove) => none

def required (x : ρ) : Action Node := do
  let settled ← settleOne settle before parent x
  return (inList settled).getD settled.1

def optional (x : ρ) : Action (Option Node) := do return inList (← settleOne settle before parent x)

def many (xs : List ρ) : Action (List Node) := do
  let settled ← xs.mapM (settleOne settle before parent)
  if ← hasFailed then return settled.map (·.1) else return settled.filterMap inList

/-- Settles all subtrees of one layer. -/
def layer (f : Form ρ) : Action (Form Node) :=
  f.visit (required settle before parent) (optional settle before parent) (many settle before parent)

end

/-- A node after its subtrees were settled. -/
def verdictOf (rule : Node → Wish) (n : Node) : Action Settled := do
  if ← hasFailed then return (n, .keep)
  if Node.isEmptyDeclaration n.form then return (n, .remove)
  match ← offer rule n with
  | .keep => return (n, .keep)
  | .replace new => return (n, .replace (← fresh new))
  | .remove => return (n, .remove)
  | .fail fault => fail fault; return (n, .keep)

/-- Settles the subtrees of a node, and then the node itself. -/
structure Visit where
  below : Action Node
  whole : Action Settled

def visitLayer (rule : Node → Wish) (id : NodeId) (f : Form (Node × Visit)) : Visit :=
  let below : Action Node := do return .node id (← layer (·.2.whole) (·.1) f.kind f)
  ⟨below, do verdictOf rule (← below)⟩

def postOrder (rule : Node → Wish) (root : Node) : Action Node := (root.para (visitLayer rule)).below

/-- Visits a node below the root and, through replacements, at most `depth` layers below it. -/
def enter (rule : Node → Wish) : Nat → Node → Action Settled
  | 0, n => return (n, .keep)
  | depth + 1, n => do
    match ← offer rule n with
    | .remove => return (n, .remove)
    | .fail fault => fail fault; return (n, .keep)
    | .keep =>
      let form ← layer (enter rule depth) id n.kind n.form
      let settled : Node := .node n.mark form
      if Node.isEmptyDeclaration form && !(← hasFailed) then return (settled, .remove) else return (settled, .keep)
    | .replace new =>
      let new ← fresh new
      let form ← layer (enter rule depth) id new.kind new.form
      if ← hasFailed then return (n, .keep) else return (n, .replace (.node new.mark form))

/-- No chain of replacements is followed deeper than this. -/
def depthLimit : Nat := 100000

def preOrder (rule : Node → Wish) (root : Node) : Action Node := do
  return .node root.mark (← layer (enter rule depthLimit) id root.kind root.form)

/-- The tree after the revision, the nodes offered to the rule, and what went wrong. -/
structure Result where
  root : Node
  seen : List Node
  fault : Option Fault

/-- The kinds of the nodes offered. -/
def Result.offered (r : Result) : List Text := r.seen.map Tree.kind

/-- Offers every node below the root to a rule and does what it wishes. -/
def run (order : Order) (rule : Node → Wish) (root : Node) : Result :=
  let action := match order with
    | .post => postOrder rule root
    | .pre => preOrder rule root
  let (root, p) := action { next := root.nextId }
  ⟨root, p.offered.reverse, p.fault⟩

end Revision

end Unravel
