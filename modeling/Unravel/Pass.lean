import Unravel.Alias
import Unravel.Context
import Unravel.Grammar.Parse
import Unravel.Members

/-! The passes: each changes the tree of the context and reports what it did. Without a tree there is nothing to
   do, which is reported too. -/
namespace Unravel.Pass

def skipped : Datum := .object [("skipped", .boolean true)]

/-- Runs on the tree, if there is one. -/
def onTree (run : Context → Node → Step Datum) : Step Datum := do
  let c ← get
  match c.tree with
  | none => return skipped
  | some tree => run c tree

/-- Reads the source; the function becomes the tree. -/
def parse : Step Datum := do
  let source := (← get).source
  let tree := (← Context.lift (parseFunction source)).numberFrom 0
  modify fun c => { c with tree := some tree, result := none, slots := [] }
  return .object [("source_length", .count source.length),
    ("parameter", .text ((tree.params.head?.map Tree.name).getD [])), ("statements", .count tree.statements.length)]

def eliminateAliases : Step Datum := onTree fun _ tree => do
  let u := Node.eliminateAliases tree
  modify fun c => { c with tree := some u.root }
  return .object [("aliases_removed", .count u.removed), ("references_rewritten", .count u.renamed),
    ("shadowed", .texts u.shadowed), ("rounds", .count u.rounds)]

def recoverStrings : Step Datum := onTree fun c tree => do
  match ← Context.lift (Node.recoverStrings c.ns tree) with
  | none => return skipped
  | some r =>
    let rotated := (r.plan.replacements.filter Replacement.isRotated).length
    let replaced := r.plan.replacements.length
    modify fun c => { c with tree := some r.root, slots := c.slots ++ r.slots }
    return .object [("pool_size", .count r.pool.length), ("operator", .text r.pool.op.symbol),
      ("offset", .number r.pool.offset), ("rotations", .count r.rotations), ("replaced", .count replaced),
      ("before_rotation", .count (replaced - rotated)), ("after_rotation", .count rotated),
      ("dynamic_calls", .count r.plan.dynamicCalls), ("removed_accessor", .boolean r.removedAccessor),
      ("removed_pool", .boolean r.removedPool), ("strings", .texts r.pool.current)]

def normaliseMembers : Step Datum := onTree fun _ tree => do
  let n := Node.normaliseMembers tree
  modify fun c => { c with tree := some n.node }
  return .object [("rewritten", .count n.changed), ("computed_kept", .count n.kept)]

def foldResult : Step Datum := onTree fun c tree => do
  let folded ← Context.lift (Node.foldResult c.ns tree)
  modify fun c => { c with tree := some folded.function, result := some folded.result }
  let elements := folded.result.children
  return .object [("elements", .count elements.length),
    ("residual", .list (elements.map fun e => .boolean !e.isLiteral)),
    ("result", .text (← Context.lift folded.result.renderExpression))]

/-- A pass with the report and the snapshot that follow it. -/
def reported (name : Text) (pass : Step Datum) : Step Unit := do
  Context.record name (← pass)
  Context.checkpoint name

end Unravel.Pass
