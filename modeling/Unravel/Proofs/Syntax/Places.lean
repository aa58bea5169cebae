import Unravel.Proofs.Syntax.Walk

/-! The places of a construct and what may stand in them. A tree is grammatical when every place holds what it is
   made for; a deletion leaves places empty, but only those that need not be filled. -/
namespace Unravel

open List

/-- What a place is made for. The first place of a loop takes a declaration or an expression. -/
inductive Role where
  | name
  | target
  | expression
  | property
  | declarator
  | statement
  | start
deriving DecidableEq

/-- A subtree with the place where it stands. -/
structure Place (ρ : Type) where
  role : Role
  /-- Whether the place has to be filled. -/
  isRequired : Bool
  /-- Whether the place is in the scope that the construct opens. -/
  isInner : Bool
  tree : ρ

namespace Place

variable {ρ σ : Type}

def map (g : ρ → σ) (p : Place ρ) : Place σ := ⟨p.role, p.isRequired, p.isInner, g p.tree⟩

/-- The place after an edit that may empty it. -/
def prune (a : ρ → Option σ) (g : ρ → σ) (p : Place ρ) : Option (Place σ) :=
  if p.isRequired then some (p.map g) else (a p.tree).map fun t => ⟨p.role, p.isRequired, p.isInner, t⟩

def fixed (role : Role) (t : ρ) : Place ρ := ⟨role, true, false, t⟩

/-- Members of a list, and what may be missing. -/
def free (role : Role) (ts : List ρ) : List (Place ρ) := ts.map fun t => ⟨role, false, false, t⟩

/-- Statements in the scope that a construct opens. -/
def inner (ts : List ρ) : List (Place ρ) := ts.map fun t => ⟨.statement, false, true, t⟩

@[simp]
theorem map_tree_free (role : Role) (ts : List ρ) : (free role ts).map (·.tree) = ts := by
  simp [free, Function.comp_def]

@[simp]
theorem map_tree_inner (ts : List ρ) : (inner ts).map (·.tree) = ts := by
  simp [inner, Function.comp_def]

@[simp]
theorem map_free (role : Role) (g : ρ → σ) (ts : List ρ) : (free role ts).map (map g) = free role (ts.map g) := by
  simp [free, map, Function.comp_def]

@[simp]
theorem map_inner (g : ρ → σ) (ts : List ρ) : (inner ts).map (map g) = inner (ts.map g) := by
  simp [inner, map, Function.comp_def]

@[simp]
theorem filter_role_free (keep : Role → Bool) (role : Role) (ts : List ρ) :
    (free role ts).filter (fun p => keep p.role) = if keep role then free role ts else [] := by
  cases kept : keep role <;> simp [free, filter_map, Function.comp_def, kept]

@[simp]
theorem filter_role_inner (keep : Role → Bool) (ts : List ρ) :
    (inner ts).filter (fun p => keep p.role) = if keep .statement then inner ts else [] := by
  cases kept : keep .statement <;> simp [inner, filter_map, Function.comp_def, kept]

theorem flatMap_free (role : Role) (g : Place ρ → List σ) (ts : List ρ) :
    (free role ts).flatMap g = ts.flatMap fun t => g ⟨role, false, false, t⟩ := by
  rw [free, flatMap_map]

theorem flatMap_inner (g : Place ρ → List σ) (ts : List ρ) :
    (inner ts).flatMap g = ts.flatMap fun t => g ⟨.statement, false, true, t⟩ := by
  rw [inner, flatMap_map]

theorem flatMap_tree_free (role : Role) (g : ρ → List σ) (ts : List ρ) :
    (free role ts).flatMap (fun p => g p.tree) = ts.flatMap g := flatMap_free role _ ts

theorem flatMap_tree_inner (g : ρ → List σ) (ts : List ρ) : (inner ts).flatMap (fun p => g p.tree) = ts.flatMap g :=
  flatMap_inner _ ts

@[simp]
theorem prune_free (role : Role) (a : ρ → Option σ) (g : ρ → σ) (ts : List ρ) :
    (free role ts).filterMap (prune a g) = free role (ts.filterMap a) := by
  simp only [free, filterMap_map, map_filterMap]
  rfl

@[simp]
theorem prune_inner (a : ρ → Option σ) (g : ρ → σ) (ts : List ρ) :
    (inner ts).filterMap (prune a g) = inner (ts.filterMap a) := by
  simp only [inner, filterMap_map, map_filterMap]
  rfl

@[simp]
theorem prune_fixed (role : Role) (a : ρ → Option σ) (g : ρ → σ) (t : ρ) :
    prune a g (fixed role t) = some (fixed role (g t)) := rfl

end Place

namespace Form

variable {ρ σ : Type}

def isName : Form ρ → Bool
  | identifier _ => true
  | _ => false

def isProperty : Form ρ → Bool
  | property .. => true
  | _ => false

def isDeclarator : Form ρ → Bool
  | declarator .. => true
  | _ => false

def isDeclaration : Form ρ → Bool
  | declaration .. => true
  | _ => false

/-- Functions keep the declarations inside them to themselves. -/
def isCallable : Form ρ → Bool
  | function .. | functionDeclaration .. => true
  | _ => false

open Place in
/-- The subtrees with their places, in the order of the children. -/
def places : Form ρ → List (Place ρ)
  | identifier _ | number _ | string _ | boolean _ | null | undefined | breakStatement | continueStatement => []
  | array e => free .expression e
  | property _ v => [fixed .expression v]
  | object p => free .property p
  | function p b n _ => free .name p ++ inner b ++ free .name n.toList
  | call c a => fixed .expression c :: free .expression a
  | member o _ => [fixed .expression o]
  | index o k => [fixed .expression o, fixed .expression k]
  | binary _ l r => [fixed .expression l, fixed .expression r]
  | unary _ x => [fixed .expression x]
  | conditional t c a => [fixed .expression t, fixed .expression c, fixed .expression a]
  | assign t _ v => [fixed .target t, fixed .expression v]
  | sequence e => free .expression e
  | declarator i x => fixed .name i :: free .expression x.toList
  | declaration _ d => free .declarator d
  | functionDeclaration n p b => fixed .name n :: (free .name p ++ inner b)
  | expressionStatement e => [fixed .expression e]
  | returnStatement a => free .expression a.toList
  | ifStatement t c a => fixed .expression t :: (free .statement c ++ free .statement (a.getD []))
  | forStatement i t u b =>
    free .start i.toList ++ free .expression t.toList ++ free .expression u.toList ++ free .statement b
  | whileStatement t b => fixed .expression t :: free .statement b
  | tryStatement b p h y =>
    free .statement b ++ free .name p.toList ++ inner (h.getD []) ++ free .statement (y.getD [])
  | block b => free .statement b

theorem toList_map (g : ρ → σ) (o : Option ρ) : (o.map g).toList = o.toList.map g := by cases o <;> rfl

theorem toList_bind (a : ρ → Option σ) (o : Option ρ) : (o.bind a).toList = o.toList.filterMap a := by
  cases o with
  | none => rfl
  | some x => cases h : a x <;> simp [h]

theorem getD_map_list (g : ρ → σ) (o : Option (List ρ)) :
    (o.map (List.map g)).getD [] = (o.getD []).map g := by cases o <;> rfl

theorem getD_filterMap_list (a : ρ → Option σ) (o : Option (List ρ)) :
    (o.map (List.filterMap a)).getD [] = (o.getD []).filterMap a := by cases o <;> rfl

theorem tree_places (f : Form ρ) : f.places.map (·.tree) = f.children := by
  cases f <;> simp [places, children, Place.fixed]

theorem mem_children {f : Form ρ} {c : ρ} : c ∈ f.children ↔ ∃ p ∈ f.places, p.tree = c := by
  rw [← tree_places, mem_map]

theorem place_mem_children {f : Form ρ} {p : Place ρ} (h : p ∈ f.places) : p.tree ∈ f.children :=
  mem_children.mpr ⟨p, h, rfl⟩

theorem places_map (g : ρ → σ) (f : Form ρ) : (f.map g).places = f.places.map (Place.map g) := by
  cases f <;> simp [places, map, toList_map, getD_map_list, Place.fixed, Place.map]

theorem visitOption_id (a : ρ → Option σ) (o : Option ρ) :
    visit.visitOption (m := Id) (fun x => pure (a x)) o = pure (o.bind a) := by cases o <;> rfl

theorem mapM_id (a : List ρ → List σ) (o : Option (List ρ)) :
    o.mapM (m := Id) (fun x => pure (a x)) = pure (o.map a) := by cases o <;> rfl

theorem places_prune (a : ρ → Option σ) (g : ρ → σ) (f : Form ρ) :
    (f.prune a g).places = f.places.filterMap (Place.prune a g) := by
  cases f <;> simp [places, prune, visit, visitOption_id, mapM_id, toList_bind, getD_filterMap_list,
    filterMap_append]

end Form

export Form (place_mem_children)

namespace Role

variable {ρ : Type}

def admits : Role → Form ρ → Bool
  | name, f => f.isName
  | target, f | expression, f => f.isExpression
  | property, f => f.isProperty
  | declarator, f => f.isDeclarator
  | statement, f => f.isStatement
  | start, f => f.isDeclaration || f.isExpression

/-- Whether declarations in such a place are declarations of the function around it. -/
def hoists : Role → Bool
  | declarator | statement | start => true
  | _ => false

/-- The names that are declared are no references. -/
def isSeen : Role → Bool
  | name => false
  | _ => true

/-- What stands in such a place is written to. -/
def isTarget : Role → Bool
  | target => true
  | _ => false

theorem admits_map {σ : Type} (role : Role) (g : ρ → σ) (f : Form ρ) : role.admits (f.map g) = role.admits f := by
  cases role <;> cases f <;> rfl

theorem admits_prune {σ : Type} (role : Role) (a : ρ → Option σ) (g : ρ → σ) (f : Form ρ) :
    role.admits (f.prune a g) = role.admits f := by
  cases role <;> cases f <;> rfl

theorem not_required_of_hoists {f : Form ρ} {p : Place ρ} (h : p ∈ f.places) (hoists : p.role.hoists) :
    p.isRequired = false := by
  cases f <;> simp [Form.places, Place.free, Place.inner, Place.fixed] at h <;> grind [Role.hoists]

theorem not_removable_of_quiet {role : Role} {g : Form ρ} (quiet : role.hoists = false) (admitted : role.admits g) :
    ¬g.isRemovable := by
  cases role with
  | declarator | statement | start => cases quiet
  | _ => cases g <;> simp_all [admits, Form.isName, Form.isProperty, Form.isExpression, Form.isStatement, Form.isRemovable]

theorem not_removable_of_required {f g : Form ρ} {p : Place ρ} (h : p ∈ f.places) (required : p.isRequired)
    (admitted : p.role.admits g) : ¬ g.isRemovable := by
  refine not_removable_of_quiet ?_ admitted
  by_contra hoists
  rw [not_required_of_hoists h (Bool.not_eq_false _ ▸ hoists)] at required
  cases required

end Role

namespace Tree

variable {α : Type}

/-- Every place holds what it is made for. -/
def Grammatical (t : Tree α) : Prop := ∀ n ∈ t.walk, ∀ p ∈ n.form.places, p.role.admits p.tree.form

instance (t : Tree α) : Decidable t.Grammatical :=
  inferInstanceAs (Decidable (∀ n ∈ t.walk, ∀ p ∈ n.form.places, p.role.admits p.tree.form))

theorem grammatical_node {m : α} {f : Form (Tree α)} :
    Grammatical (node m f) ↔
      (∀ p ∈ f.places, p.role.admits p.tree.form) ∧ ∀ c ∈ f.children, c.Grammatical := forall_walk_node

theorem Grammatical.child {m : α} {f : Form (Tree α)} (h : Grammatical (node m f)) {c : Tree α}
    (hc : c ∈ f.children) : c.Grammatical := (grammatical_node.mp h).2 c hc

theorem Grammatical.subtree {t n : Tree α} (h : t.Grammatical) (hn : n ∈ t.walk) : n.Grammatical := by
  intro k hk
  exact h k (walk_trans hn hk)

theorem form_of_isName {t : Tree α} (h : t.form.isName) : ∃ m name, t = .node m (.identifier name) := by
  cases t with
  | node m f =>
    cases f with
    | identifier name => exact ⟨m, name, rfl⟩
    | _ => simp [form, Form.isName] at h

end Tree

export Tree (grammatical_node form_of_isName)

namespace Node

theorem Distinct.same_place {m x : NodeId} {f : Form Node} (h : Distinct (.node m f)) {p q : Place Node}
    (hp : p ∈ f.places) (hq : q ∈ f.places) (xp : x ∈ ids p.tree) (xq : x ∈ ids q.tree) : p = q := by
  by_contra differ
  have apart := (distinct_node h).2.2
  rw [← Form.tree_places, pairwise_map] at apart
  have symmetric : Std.Symm fun p q : Place Node => List.Disjoint (ids p.tree) (ids q.tree) :=
    ⟨fun _ _ h _ xq xp => h xp xq⟩
  exact apart.forall hp hq differ xp xq

/-- A function with all that is in it. -/
structure IsFunctionTree (root : Node) : Prop where
  function : ∃ params body name isArrow, root.form = .function params body name isArrow
  distinct : Distinct root
  grammatical : root.Grammatical

theorem IsFunctionTree.exists_node {root : Node} (h : root.IsFunctionTree) :
    ∃ m params body name isArrow, root = .node m (.function params body name isArrow) := by
  obtain ⟨params, body, name, isArrow, function⟩ := h.function
  obtain ⟨m, f⟩ := root
  exact ⟨m, params, body, name, isArrow, congrArg _ function⟩

theorem IsFunctionTree.not_statement {root : Node} (h : root.IsFunctionTree) : ¬ root.form.isStatement := by
  obtain ⟨m, params, body, name, isArrow, rfl⟩ := h.exists_node
  exact Bool.false_ne_true

end Node

end Unravel
