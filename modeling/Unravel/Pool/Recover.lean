import Unravel.Pool.Pattern

/-! Putting the strings of a pool back where they are used, and deleting the pieces of the pool that nothing refers
   to any more. -/
namespace Unravel

/-- A call of the accessor that is to be replaced. -/
structure Replacement where
  call : NodeId
  index : Value
  /-- Whether the call sees the pool after its rotation. -/
  isRotated : Bool
  text : Text

/-- Accessor calls to be replaced, and the number of those whose index is not known. -/
structure Plan where
  replacements : List Replacement := []
  dynamicCalls : Nat := 0

/-- Where a recovered string came from. -/
structure Slot where
  node : NodeId
  index : Value
  isRotated : Bool

namespace Pattern

/-- The statements of a construct that has a body. -/
def bodyOf? (t : Node) : Option (List Node) :=
  match t.form with
  | .function _ body _ _ | .functionDeclaration _ _ body | .forStatement _ _ _ body | .whileStatement _ body
  | .block body => some body
  | _ => none

/-- Whether a function is called where it stands; `parent` is the node around it. -/
def isInvoked (function : Node) : Option Node → Bool
  | none => false
  | some parent =>
    match parent.form with
    | .call callee _ => callee.mark == function.mark
    | _ => false

/-- Whether a function that is stored for later lies on the way from a node to the container. -/
def isStored (container : NodeId) : List Node → Bool
  | [] => false
  | n :: outer =>
    if n.mark = container then false
    else match n.form with
      | .functionDeclaration .. => true
      | .function .. => !isInvoked n outer.head? || isStored container outer
      | _ => isStored container outer

/-- The node just below the container on the way up from a node. -/
def childOn? (container : NodeId) (below : NodeId) : List Node → Option NodeId
  | [] => none
  | n :: outer => if n.mark = container then some below else childOn? container n.mark outer

def positionOf? (body : List Node) (id : NodeId) : Option Nat := body.findIdx? fun s => s.mark == id

/-- Whether a call runs after the rotation. Functions that are stored are only called from later code. -/
def observesRotation (root : Node) (p : Pattern) (call : NodeId) : Bool :=
  let around := (Node.ancestors? root call).getD []
  match (Node.ancestors? root p.rotation.mark).bind List.head? with
  | none => true
  | some container =>
    match bodyOf? container with
    | none => true
    | some body =>
      if isStored container.mark around then true
      else match positionOf? body p.rotation.mark, (childOn? container.mark call around).bind (positionOf? body) with
        | some rotated, some called => rotated < called
        | _, _ => true

/-- The arguments of a call of the accessor that stands outside the accessor and the rotation. -/
def accessorCall? (root : Node) (p : Pattern) (n : Node) : Option (List Node) :=
  match n.form with
  | .call _ args =>
    if calledBinding? p.names n == some p.accessorBinding && !Node.isWithin root n.mark p.accessor.mark
        && !Node.isWithin root n.mark p.rotation.mark then some args
    else none
  | _ => none

/-- Plans one call; the index has to be known. -/
def planCall (ns : Namespace) (root : Node) (p : Pattern) (before after : Pool) (plan : Plan) (n : Node)
    (args : List Node) : Outcome Plan := do
  let index ← match args with
    | [] => pure none
    | first :: _ => static? ns first
  match index with
  | none => return { plan with dynamicCalls := plan.dynamicCalls + 1 }
  | some index =>
    let rotated := p.observesRotation root n.mark
    let text ← (if rotated then after else before).resolve index
    return { plan with replacements := plan.replacements ++ [⟨n.mark, index, rotated, text⟩] }

def plan (ns : Namespace) (root : Node) (p : Pattern) (before after : Pool) : Outcome Plan :=
  root.walk.foldlM (fun plan n =>
    match p.accessorCall? root n with
    | some args => p.planCall ns root before after plan n args
    | none => pure plan) {}

end Pattern

namespace Plan

/-- The planned calls replaced by their strings, each at its own new identity. -/
def apply (p : Plan) (root : Node) : Node × List Slot :=
  let first := root.nextId
  let numbered := p.replacements.zipIdx first
  let literal? (n : Node) : Option Node :=
    (numbered.find? fun (r, _) => r.call == n.mark).map fun (r, id) => .node id (.string r.text)
  (Node.substitute literal? root, numbered.map fun (r, id) => ⟨id, r.index, r.isRotated⟩)

end Plan

/-- What became of a pool. -/
structure Recovery where
  root : Node
  slots : List Slot
  pool : Pool
  rotations : Nat
  plan : Plan
  removedAccessor : Bool
  removedPool : Bool

namespace Recovery

/-- References to a declared function outside itself and some other subtrees. -/
def outsideReferences (root : Node) (function : NodeId) (ignored : List NodeId) : Nat :=
  let names := Resolution.of root
  match names.bindingFor function with
  | none => 0
  | some binding =>
    ((names.referencesTo binding).filter fun r =>
      !((function :: ignored).any fun container => Node.isWithin root r.node container)).length

/-- Deletes the pieces that nothing needs: the rotation goes with the accessor. -/
def removePieces (p : Pattern) (root : Node) : Node × Bool × Bool :=
  let accessorGoes := outsideReferences root p.accessor.mark [p.rotation.mark] == 0
  let root := if accessorGoes then
      Node.delete (fun id => id == p.rotation.mark || id == p.accessor.mark) root
    else root
  let poolGoes := outsideReferences root p.poolFunction.mark [] == 0
  let root := if poolGoes then Node.delete (fun id => id == p.poolFunction.mark) root else root
  (root, accessorGoes, poolGoes)

end Recovery

/-- Recovers the strings of the pool in a tree; nothing if there is no pool. The tree changes only if everything
succeeds. -/
def Node.recoverStrings (ns : Namespace) (root : Node) : Outcome (Option Recovery) := do
  match ← Pattern.find ns root with
  | none => return none
  | some p =>
    let (after, rotations) := p.simulate ns p.pool
    let rotations ← rotations
    let plan ← p.plan ns root p.pool after
    let (replaced, slots) := plan.apply root
    let (root, removedAccessor, removedPool) := Recovery.removePieces p replaced
    return some ⟨root, slots, after, rotations, plan, removedAccessor, removedPool⟩

end Unravel
