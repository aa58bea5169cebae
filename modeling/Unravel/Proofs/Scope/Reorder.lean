import Unravel.Proofs.Scope.Simulation

/-! Statements in another order. Whatever order the statements of all bodies are put in, hoisting collects the same
   declarations, so every reference finds the binding that it found before. -/
namespace Unravel

namespace Form

variable {ρ : Type}

/-- Changes the lists of statements of a construct. -/
def reorder (order : List ρ → List ρ) : Form ρ → Form ρ
  | function p b n i => .function p (order b) n i
  | functionDeclaration n p b => .functionDeclaration n p (order b)
  | ifStatement t c a => .ifStatement t (order c) (a.map order)
  | forStatement i t u b => .forStatement i t u (order b)
  | whileStatement t b => .whileStatement t (order b)
  | tryStatement b p h y => .tryStatement (order b) p (h.map order) (y.map order)
  | block b => .block (order b)
  | f => f

theorem places_reorder {order : List ρ → List ρ} (permutes : ∀ l, (order l).Perm l) (f : Form ρ) :
    (f.reorder order).places.Perm f.places := by
  have free : ∀ role l, (Place.free role (order l)).Perm (Place.free role l) := fun role l => (permutes l).map _
  have inner : ∀ l, (Place.inner (order l)).Perm (Place.inner l) := fun l => (permutes l).map _
  cases f with
  | function p b n i => exact ((inner b).append_left _).append_right _
  | functionDeclaration n p b => exact ((inner b).append_left _).cons _
  | ifStatement t c a =>
    cases a with
    | none => exact ((free _ c).append_right _).cons _
    | some a => exact ((free _ c).append (free _ a)).cons _
  | forStatement i t u b => exact (free _ b).append_left _
  | whileStatement t b => exact (free _ b).cons _
  | tryStatement b p h y =>
    refine List.Perm.append (List.Perm.append (List.Perm.append (free _ b) (List.Perm.refl _)) ?_) ?_
    · cases h with
      | none => exact List.Perm.refl _
      | some h => exact inner h
    · cases y with
      | none => exact List.Perm.refl _
      | some y => exact free _ y
  | block b => exact free _ b
  | _ => exact List.Perm.refl _

end Form

namespace Node

variable {order : NodeId → List Node → List Node}

/-- Puts the statements of every body in an order that may depend on the construct. -/
def reorder (order : NodeId → List Node → List Node) (t : Node) : Node :=
  t.fold fun m f => .node m (f.reorder (order m))

theorem reorder_node (m : NodeId) (f : Form Node) :
    reorder order (.node m f) = .node m ((f.map (reorder order)).reorder (order m)) := Tree.fold_node _ m f

theorem mark_reorder (t : Node) : (reorder order t).mark = t.mark := by
  cases t with
  | node m f =>
    rw [reorder_node]
    rfl

theorem name_reorder (t : Node) : (reorder order t).name = t.name := by
  cases t with
  | node m f =>
    rw [reorder_node]
    cases f <;> rfl

/-- Scopes that differ only in the order of their declarations. -/
def SameDeclarations (f g : Frame) : Prop := f.owner = g.owner ∧ f.declarations.Perm g.declarations

theorem lookup_sameDeclarations {fs gs : List Frame} (same : List.Forall₂ SameDeclarations fs gs) (name : Text) :
    Scope.lookup name (gs.map Frame.scope) = Scope.lookup name (fs.map Frame.scope) := by
  induction same with
  | nil => rfl
  | @cons f g fs gs here rest ih =>
    obtain ⟨owner, declarations⟩ := here
    have declares : (∃ d ∈ g.declarations, d.name = name) ↔ ∃ d ∈ f.declarations, d.name = name := by
      simp only [declarations.mem_iff]
    by_cases found : ∃ d ∈ f.declarations, d.name = name
    · rw [Frame.lookup_here found, Frame.lookup_here (declares.mpr found), owner]
    · rw [Frame.lookup_outer found, Frame.lookup_outer (mt declares.mp found), ih]

theorem reorder_eq_identifier {t : Node} {m : NodeId} {x : Text} (h : reorder order t = .node m (.identifier x)) :
    t = .node m (.identifier x) := by
  cases t with
  | node k f =>
    rw [reorder_node] at h
    cases f <;> cases h
    rfl

variable (permutes : ∀ m l, (order m l).Perm l)

include permutes

theorem hoisted_reorder (t : Node) : (reorder order t).hoisted.Perm t.hoisted := by
  induction t with
  | node m f ih =>
    have own : ((f.map (reorder order)).reorder (order m)).own m = f.own m := by
      cases f <;> simp [Form.map, Form.reorder, Form.own, name_reorder]
    have callable : ((f.map (reorder order)).reorder (order m)).isCallable = f.isCallable := by cases f <;> rfl
    rw [reorder_node, hoisted_node, hoisted_node, own, callable]
    refine List.Perm.append_left _ ?_
    split
    · exact List.Perm.refl _
    · have places := (Form.places_reorder (permutes m) (f.map (reorder order))).filter (·.role.hoists)
      refine (places.flatMap_right _).trans ?_
      rw [Form.places_map, List.filter_map, List.flatMap_map]
      refine List.Perm.flatMap_left _ fun p hp => ?_
      exact ih p.tree (place_mem_children (List.mem_of_mem_filter hp))

theorem functionDeclarations_reorder (id : NodeId) (name : Option Node) (params body : List Node) :
    (Resolution.functionDeclarations id name params body).Perm
      (Resolution.functionDeclarations id (name.map (reorder order)) (params.map (reorder order))
        (order id (body.map (reorder order)))) := by
  have own : (name.map (reorder order)).toList.map (fun n => (⟨n.mark, n.name, .function, id⟩ : Declaration)) =
      name.toList.map fun n => ⟨n.mark, n.name, .function, id⟩ := by
    cases name <;> simp [name_reorder, mark_reorder]
  have parameters : (params.map (reorder order)).map Resolution.parameter = params.map Resolution.parameter := by
    rw [List.map_map]
    refine List.map_congr_left fun p _ => ?_
    simp [Resolution.parameter, name_reorder, mark_reorder]
  rw [Resolution.functionDeclarations, Resolution.functionDeclarations, own, parameters]
  refine List.Perm.append_left _ ?_
  refine List.Perm.trans ?_ ((permutes id (body.map (reorder order))).flatMap_right hoisted).symm
  rw [List.flatMap_map]
  exact List.Perm.flatMap_left _ fun s _ => (hoisted_reorder permutes s).symm

theorem opening_reorder (n : Node) : Option.Rel SameDeclarations n.opening (reorder order n).opening := by
  cases n with
  | node m f =>
    rw [reorder_node, opening, opening]
    cases f with
    | function p b n i => exact Option.Rel.some ⟨rfl, functionDeclarations_reorder permutes m n p b⟩
    | functionDeclaration n p b => exact Option.Rel.some ⟨rfl, functionDeclarations_reorder permutes m none p b⟩
    | tryStatement b p h y =>
      cases h with
      | none => exact Option.Rel.none
      | some h =>
        refine Option.Rel.some ⟨rfl, List.Perm.of_eq ?_⟩
        cases p <;> simp [Resolution.parameter, name_reorder, mark_reorder]
    | _ => exact Option.Rel.none

theorem reorder_follows (t : Node) : Follows (reorder order) (fun _ => True) SameDeclarations t where
  places n _ _ q hq _ := by
    cases n with
    | node m f =>
      rw [reorder_node, form_node, (Form.places_reorder (permutes m) _).mem_iff, Form.places_map] at hq
      obtain ⟨p, hp, rfl⟩ := List.mem_map.mp hq
      exact ⟨p, hp, rfl, rfl, rfl⟩
  opening n _ _ := opening_reorder permutes n

theorem outermost_reorder (root : Node) : SameDeclarations root.outermost (reorder order root).outermost := by
  have statement : (reorder order root).form.isStatement = root.form.isStatement := by
    cases root with
    | node m f =>
      rw [reorder_node]
      cases f <;> rfl
  refine ⟨rfl, ?_⟩
  simp only [outermost, statement]
  split
  · exact (hoisted_reorder permutes root).symm
  · exact List.Perm.refl _

/-- Every reference has the binding that it had before its surroundings were put in order. -/
theorem references_reorder (root : Node) {r' : Reference} (hr' : r' ∈ (Resolution.of (reorder order root)).references) :
    ∃ r ∈ (Resolution.of root).references,
      r.node = r'.node ∧ r.name = r'.name ∧ r.isWrite = r'.isWrite ∧ r.binding = r'.binding := by
  obtain ⟨s', hs', found⟩ := Resolution.mem_references.mp hr'
  have start : List.Forall₂ SameDeclarations [root.outermost] [(reorder order root).outermost] :=
    List.Forall₂.cons (outermost_reorder permutes root) List.Forall₂.nil
  obtain ⟨s, hs, around, same, ⟨-, rfl⟩ | ⟨gone, -⟩⟩ := (reorder_follows permutes root).sight start hs'
  · obtain ⟨leaf, write, binding⟩ := Resolution.reference_of_sight found
    have origin := reorder_eq_identifier leaf
    refine ⟨⟨r'.node, r'.name, s.isWrite, s.frames.map Frame.scope⟩, ?_, rfl, rfl, write, ?_⟩
    · refine Resolution.mem_references.mpr ⟨s, hs, ?_⟩
      rw [Sight.reference?, origin]
      rfl
    · rw [binding, lookup_sameDeclarations same]
      rfl
  · exact absurd trivial gone

end Node

end Unravel
