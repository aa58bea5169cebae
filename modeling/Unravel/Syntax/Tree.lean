import Unravel.Syntax.Form

/-! Syntax trees whose nodes carry marks. A `Shape` has no marks; a `Node` has node identities, by which edits
   and scopes refer to places in a tree. Every function on trees is a `Tree.para` of a function on one layer. -/
namespace Unravel

inductive Tree (α : Type) where
  | node (mark : α) (form : Form (Tree α))

instance {α : Type} [Inhabited α] : Inhabited (Tree α) := ⟨.node default .undefined⟩

abbrev NodeId := Nat

abbrev Node := Tree NodeId

abbrev Shape := Tree Unit

namespace Tree

variable {α β γ : Type}

def mark : Tree α → α
  | node m _ => m

def form : Tree α → Form (Tree α)
  | node _ f => f

def kind (t : Tree α) : Text := t.form.kind

def children (t : Tree α) : List (Tree α) := t.form.children

mutual
/-- Recursion over a tree: `step` sees one layer, every subtree together with its result. -/
def para (step : α → Form (Tree α × β) → β) : Tree α → β
  | node m f => step m (paraForm step f)
termination_by structural t => t

def paraForm (step : α → Form (Tree α × β) → β) : Form (Tree α) → Form (Tree α × β)
  | .identifier n => .identifier n
  | .number v => .number v
  | .string v => .string v
  | .boolean v => .boolean v
  | .null => .null
  | .undefined => .undefined
  | .array e => .array (paraList step e)
  | .property k v => .property k (v, para step v)
  | .object p => .object (paraList step p)
  | .function p b n i => .function (paraList step p) (paraList step b) (paraOption step n) i
  | .call c a => .call (c, para step c) (paraList step a)
  | .member o n => .member (o, para step o) n
  | .index o k => .index (o, para step o) (k, para step k)
  | .binary o l r => .binary o (l, para step l) (r, para step r)
  | .unary o o2 => .unary o (o2, para step o2)
  | .conditional t c a => .conditional (t, para step t) (c, para step c) (a, para step a)
  | .assign t o v => .assign (t, para step t) o (v, para step v)
  | .sequence e => .sequence (paraList step e)
  | .declarator i i2 => .declarator (i, para step i) (paraOption step i2)
  | .declaration k d => .declaration k (paraList step d)
  | .functionDeclaration n p b => .functionDeclaration (n, para step n) (paraList step p) (paraList step b)
  | .expressionStatement e => .expressionStatement (e, para step e)
  | .returnStatement a => .returnStatement (paraOption step a)
  | .ifStatement t c a => .ifStatement (t, para step t) (paraList step c) (paraOptionList step a)
  | .forStatement i t u b => .forStatement (paraOption step i) (paraOption step t) (paraOption step u) (paraList step b)
  | .whileStatement t b => .whileStatement (t, para step t) (paraList step b)
  | .tryStatement b p h f => .tryStatement (paraList step b) (paraOption step p) (paraOptionList step h) (paraOptionList step f)
  | .breakStatement => .breakStatement
  | .continueStatement => .continueStatement
  | .block b => .block (paraList step b)
termination_by structural f => f

def paraList (step : α → Form (Tree α × β) → β) : List (Tree α) → List (Tree α × β)
  | [] => []
  | t :: rest => (t, para step t) :: paraList step rest
termination_by structural ts => ts

def paraOption (step : α → Form (Tree α × β) → β) : Option (Tree α) → Option (Tree α × β)
  | none => none
  | some t => some (t, para step t)
termination_by structural t => t

def paraOptionList (step : α → Form (Tree α × β) → β) : Option (List (Tree α)) → Option (List (Tree α × β))
  | none => none
  | some ts => some (paraList step ts)
termination_by structural ts => ts
end

theorem paraList_eq_map (step : α → Form (Tree α × β) → β) (ts : List (Tree α)) :
    paraList step ts = ts.map fun t => (t, para step t) := by
  induction ts with
  | nil => rfl
  | cons t rest ih => simp [paraList, ih]

theorem paraOption_eq_map (step : α → Form (Tree α × β) → β) (t : Option (Tree α)) :
    paraOption step t = t.map fun t => (t, para step t) := by cases t <;> rfl

theorem paraOptionList_eq_map (step : α → Form (Tree α × β) → β) (ts : Option (List (Tree α))) :
    paraOptionList step ts = ts.map (·.map fun t => (t, para step t)) := by
  cases ts <;> simp [paraOptionList, paraList_eq_map]

theorem paraForm_eq_map (step : α → Form (Tree α × β) → β) (f : Form (Tree α)) :
    paraForm step f = f.map fun t => (t, para step t) := by
  cases f <;> simp [paraForm, Form.map, paraList_eq_map, paraOption_eq_map, paraOptionList_eq_map]

theorem para_node (step : α → Form (Tree α × β) → β) (m : α) (f : Form (Tree α)) :
    para step (node m f) = step m (f.map fun t => (t, para step t)) := by rw [para, paraForm_eq_map]

/-- Recursion that does not look at the subtrees themselves. -/
def fold (step : α → Form β → β) (t : Tree α) : β := t.para fun m f => step m (f.map (·.2))

def mapMark (g : α → γ) (t : Tree α) : Tree γ := t.fold fun m f => node (g m) f

/-- The tree without its marks; trees of one shape are structurally equal. -/
def shape (t : Tree α) : Shape := t.mapMark fun _ => ()

/-- The tree and all its subtrees, each before its own subtrees. -/
def walk (t : Tree α) : List (Tree α) :=
  t.para fun m f => node m (f.map (·.1)) :: f.children.flatMap (·.2)

/-- Marks the nodes with consecutive numbers, each node before its subtrees. -/
def number (t : Tree α) : StateM Nat Node :=
  t.fold fun _ f => do
    let id ← modifyGet fun next => (next, next + 1)
    return node id (← f.traverse fun (numbered : StateM Nat Node) => numbered)

def numberFrom (next : NodeId) (t : Tree α) : Node := (t.number next).1

end Tree

namespace Node

/-- A number above every identity in a tree. -/
def nextId (t : Node) : NodeId := t.fold fun id f => f.children.foldl max (id + 1)

def ids (t : Node) : List NodeId := t.walk.map Tree.mark

def find? (t : Node) (id : NodeId) : Option Node := t.walk.find? fun n => n.mark == id

/-- The nodes around the node with an identity, innermost first; `none` if it does not occur. -/
def ancestors? (t : Node) (id : NodeId) : Option (List Node) :=
  t.para fun m f =>
    if m = id then some []
    else (f.children.findSome? (·.2)).map (· ++ [.node m (f.map (·.1))])

/-- Whether a node is another one or stands somewhere below it. -/
def isWithin (t : Node) (id container : NodeId) : Bool :=
  id == container || ((ancestors? t id).getD []).any fun n => n.mark == container

/-- Whether looking up a child's identity leads back to its parent, for every child in the tree. -/
def isLinked (t : Node) : Bool :=
  t.walk.all fun n => n.children.all fun c => ((ancestors? t c.mark).bind List.head?).map Tree.mark == some n.mark

/-- Puts `new t` in the place of every outermost subtree for which it gives something. -/
def substitute (new : Node → Option Node) (t : Node) : Node :=
  t.para fun m f => (new (.node m (f.map (·.1)))).getD (.node m (f.map (·.2)))

/-- A declaration without declarators says nothing. -/
def isEmptyDeclaration {ρ : Type} : Form ρ → Bool
  | .declaration _ [] => true
  | _ => false

/-- Whether a declaration has lost its last declarator. -/
def isEmptied {ρ σ : Type} (before : Form ρ) (after : Form σ) : Bool :=
  isEmptyDeclaration after && !isEmptyDeclaration before

/-- Deletes statements and declarators; a declaration that this leaves without declarators goes too. -/
def delete (doomed : NodeId → Bool) (t : Node) : Node :=
  (t.fold fun (m : NodeId) (f : Form (Option Node × Node)) =>
    let kept : Node := .node m (f.prune (·.1) (·.2))
    (if doomed m ∨ isEmptied f kept.form then none else some kept, kept)).2

end Node

end Unravel
