import Mathlib.Data.List.Perm.Subperm
import Unravel.Proofs.Scope.Merging
import Unravel.Proofs.Syntax.Places

/-! Resolution as a list of sights: every node that is looked at, with the scopes around it. All that resolution
   records can be read off the sights, so that statements about it are statements about places in a tree. -/
namespace Unravel

open List

variable {f : Frame} {name : Text} {b : BindingId} {t : Node} {isWrite : Bool} {s : Sight} {r : Reference}

/-- The declarations of one scope, before they are merged by name. -/
structure Frame where
  owner : Option NodeId
  declarations : List Declaration

namespace Frame

def scope (f : Frame) : Scope := Scope.ofDeclarations f.owner f.declarations

theorem lookup_here (h : ∃ d ∈ f.declarations, d.name = name) (outer : List Frame) :
    Scope.lookup name ((f :: outer).map scope) = some ⟨f.owner, name⟩ := by
  have declares : f.scope.declares name := Scope.declares_ofDeclarations.mpr h
  rw [map_cons, Scope.lookup, if_pos declares, scope, Scope.owner_ofDeclarations]

theorem lookup_outer (h : ¬ ∃ d ∈ f.declarations, d.name = name) (outer : List Frame) :
    Scope.lookup name ((f :: outer).map scope) = Scope.lookup name (outer.map scope) := by
  have declares : ¬ f.scope.declares name := fun declares => h (Scope.declares_ofDeclarations.mp declares)
  rw [map_cons, Scope.lookup, if_neg declares]

theorem lookup_eq_some {fs : List Frame}
    (h : Scope.lookup name (fs.map scope) = some b) :
    ∃ f ∈ fs, (∃ d ∈ f.declarations, d.name = name) ∧ b = ⟨f.owner, name⟩ := by
  induction fs with
  | nil => cases h
  | cons f outer ih =>
    by_cases found : ∃ d ∈ f.declarations, d.name = name
    · rw [lookup_here found, Option.some.injEq] at h
      exact ⟨f, .head _, found, h.symm⟩
    · rw [lookup_outer found] at h
      obtain ⟨g, hg, result⟩ := ih h
      exact ⟨g, .tail f hg, result⟩

end Frame

/-- A node that is looked at, and the scopes around it, innermost first. -/
structure Sight where
  isWrite : Bool
  node : Node
  frames : List Frame

namespace Form

/-- The declaration that a construct is by itself. -/
def own (id : NodeId) : Form Node → List Declaration
  | functionDeclaration name _ _ => [⟨id, name.name, .function, id⟩]
  | declarator name _ => [⟨id, name.name, .var, id⟩]
  | _ => []

/-- The scope that a construct opens. -/
def opening (id : NodeId) : Form Node → Option Frame
  | function params body name _ => some ⟨some id, Resolution.functionDeclarations id name params body⟩
  | functionDeclaration _ params body => some ⟨some id, Resolution.functionDeclarations id none params body⟩
  | tryStatement _ param (some _) _ => some ⟨some id, param.toList.map Resolution.parameter⟩
  | _ => none

/-- The scopes around what stands in a place. -/
def around (id : NodeId) (f : Form Node) (isInner : Bool) (frames : List Frame) : List Frame :=
  if isInner then (f.opening id).toList ++ frames else frames

end Form

namespace Node

/-- The nodes of a tree outside the places of declared names, each before those inside it. -/
def sights (t : Node) : Bool → List Frame → List Sight :=
  t.para fun id f isWrite frames =>
    ⟨isWrite, .node id (f.map (·.1)), frames⟩ ::
      (f.places.filter (·.role.isSeen)).flatMap fun p =>
        p.tree.2 p.role.isTarget ((f.map (·.1)).around id p.isInner frames)

theorem sights_node (id : NodeId) (f : Form Node) (isWrite : Bool) (frames : List Frame) :
    sights (.node id f) isWrite frames =
      ⟨isWrite, .node id f, frames⟩ ::
        (f.places.filter (·.role.isSeen)).flatMap fun p =>
          sights p.tree p.role.isTarget (f.around id p.isInner frames) := by
  simp only [sights, para_node, Form.map_fst_pair, Form.places_map, filter_map, flatMap_map]
  rfl

theorem hoisted_node (id : NodeId) (f : Form Node) :
    hoisted (.node id f) =
      f.own id ++ if f.isCallable then [] else (f.places.filter (·.role.hoists)).flatMap fun p => hoisted p.tree := by
  cases f <;>
    simp only [Form.own, Form.isCallable, Form.places, Place.fixed, filter_append, filter_cons,
      filter_nil, Place.filter_role_free, Place.filter_role_inner]
  all_goals simp [hoisted, para_node, Form.map, Role.hoists, Place.flatMap_free, Place.flatMap_inner,
    flatMap_map, Form.getD_map_list, Form.toList_map]

theorem hoisted_of_not_hoists {role : Role} (quiet : role.hoists = false) (h : role.admits t.form) :
    t.hoisted = [] := by
  cases t with
  | node m f =>
    rw [hoisted_node]
    cases role <;> cases f <;> simp_all [Role.hoists, Role.admits, Form.own, Form.isCallable, Form.places, Place.free,
      Place.fixed, Form.isName, Form.isExpression, Form.isProperty, Form.isStatement]

end Node

namespace Resolution

section Projection

variable {β : Type} (get : Resolution → List β) (empty : get {} = []) (append : ∀ a b, get (a ++ b) = get a ++ get b)

include empty append

theorem visitAll_eq (visits : List Visit) (chain : List Scope) :
    get (visitAll visits chain) = visits.flatMap fun v => get (v chain) := by
  have from_any : ∀ known : Resolution, get (visits.foldl (fun known visit => known ++ visit chain) known) =
      get known ++ visits.flatMap fun v => get (v chain) := by
    induction visits with
    | nil => simp
    | cons v rest ih =>
      intro known
      rw [foldl_cons, ih, append, flatMap_cons, append_assoc]
  rw [visitAll, from_any, empty, nil_append]

/-- What is recorded when a scope is opened. -/
def opened (f : Frame) (frames : List Frame) : Resolution :=
  { scopes := [(f.scope, (frames.map Frame.scope).head?.bind Scope.owner)], declared := declaredIn f.owner f.declarations }

theorem enter_eq (id : NodeId) (ds : List Declaration) (inside : List Visit) (frames : List Frame) :
    get (enter id ds inside (frames.map Frame.scope)) =
      get (opened ⟨some id, ds⟩ frames) ++
        inside.flatMap fun v => get (v ((⟨some id, ds⟩ :: frames : List Frame).map Frame.scope)) := by
  simp only [enter, append, visitAll_eq get empty append]
  rfl

end Projection

/-- The visit of a subtree that is written to if it is a name. -/
def visitAs (isWrite : Bool) (t : Node) : Visit :=
  match t.form with
  | .identifier _ => refer t isWrite
  | _ => t.para layer

theorem visitAs_false (t : Node) : visitAs false t = t.para layer := by
  cases t with
  | node m f => cases f <;> simp [visitAs, Tree.form, para_node, layer, Form.map]

attribute [local simp] layer Form.map Form.children Form.around Form.opening Form.getD_map_list Form.toList_map Role.isSeen
  Role.isTarget Place.flatMap_free Place.flatMap_inner visitAs_false flatMap_map Function.comp_def

/-- One layer of resolution: what is opened here, and what is visited below, place by place. Only the parts of a
`try` are visited in another order. -/
theorem layer_node {β : Type} (get : Resolution → List β) (empty : get {} = [])
    (append : ∀ a b, get (a ++ b) = get a ++ get b) (id : NodeId) (f : Form Node) (frames : List Frame)
    (compound : ¬ f.isName) :
    (get (Tree.para layer (.node id f) (frames.map Frame.scope))).Perm
      (((f.opening id).toList.flatMap fun fr => get (opened fr frames)) ++
        (f.places.filter (·.role.isSeen)).flatMap fun p =>
          get (visitAs p.role.isTarget p.tree ((f.around id p.isInner frames).map Frame.scope))) := by
  rw [para_node]
  cases f with
  | identifier name => exact absurd rfl compound
  | tryStatement b p h y =>
    simp only [Form.places, filter_append, Place.filter_role_free, Place.filter_role_inner]
    cases h with
    | none =>
      apply List.Perm.of_eq
      simp [visitAll_eq get empty append]
    | some h =>
      simp [visitAll_eq get empty append, enter_eq get empty append]
      exact perm_append_comm_assoc _ _ _
  | assign t o v =>
    apply List.Perm.of_eq
    have visits : layer id (Form.map (fun t => (t, t.para layer)) (.assign t o v)) =
        visitAll [visitAs true t, visitAs false v] := by
      rw [visitAs_false]
      rfl
    rw [visits, visitAll_eq get empty append]
    simp [Form.places, Place.fixed]
  | _ =>
    apply List.Perm.of_eq
    simp only [Form.places, Place.fixed, filter_append, filter_cons, filter_nil,
      Place.filter_role_free, Place.filter_role_inner]
    simp [visitAll_eq get empty append, enter_eq get empty append]

end Resolution

/-- What is recorded at a sight. -/
def Sight.record (s : Sight) : Resolution :=
  match s.node.form with
  | .identifier _ => Resolution.refer s.node s.isWrite (s.frames.map Frame.scope)
  | f => ((f.opening s.node.mark).map (Resolution.opened · s.frames)).getD {}

namespace Resolution

theorem visit_perm {β : Type} (get : Resolution → List β) (empty : get {} = [])
    (append : ∀ a b, get (a ++ b) = get a ++ get b) (t : Node) (isWrite : Bool) (frames : List Frame) :
    (get (visitAs isWrite t (frames.map Frame.scope))).Perm
      ((t.sights isWrite frames).flatMap fun s => get s.record) := by
  induction t generalizing isWrite frames with
  | node m f ih =>
    by_cases name : f.isName
    · obtain ⟨_, x, same⟩ := form_of_isName (t := .node m f) name
      cases same
      simp [Node.sights_node, Form.places, visitAs, Sight.record, Tree.form]
    · have here : get (Sight.record ⟨isWrite, .node m f, frames⟩) =
          (f.opening m).toList.flatMap fun fr => get (opened fr frames) := by
        cases f with
        | identifier x => exact absurd rfl name
        | tryStatement b p h y => cases h <;> simp [Sight.record, Tree.form, Tree.mark, Form.opening, empty]
        | _ => simp [Sight.record, Tree.form, Tree.mark, Form.opening, empty]
      have plain : visitAs isWrite (.node m f) = Tree.para layer (.node m f) := by
        cases f with
        | identifier x => exact absurd rfl name
        | _ => rfl
      rw [plain, Node.sights_node, flatMap_cons, here, flatMap_assoc]
      refine (layer_node get empty append m f frames name).trans (List.Perm.append_left _ ?_)
      refine List.Perm.flatMap_left _ fun p hp => ?_
      exact ih p.tree (place_mem_children (mem_of_mem_filter hp)) _ _

end Resolution

namespace Node

theorem sights_sublist (t : Node) (isWrite : Bool) (frames : List Frame) :
    ((t.sights isWrite frames).map (·.node)).Sublist t.walk := by
  induction t generalizing isWrite frames with
  | node m f ih =>
    rw [sights_node, walk_node, map_cons, map_flatMap, ← Form.tree_places, flatMap_map]
    refine List.Sublist.cons_cons _ ?_
    have each : ∀ p ∈ f.places, ∀ isWrite frames, ((sights p.tree isWrite frames).map (·.node)).Sublist p.tree.walk :=
      fun p hp => ih p.tree (place_mem_children hp)
    generalize f.places = places at each
    induction places with
    | nil => exact List.Sublist.refl _
    | cons p rest below =>
      have rest_below := below fun q hq => each q (.tail p hq)
      rw [filter_cons, flatMap_cons]
      split
      · rw [flatMap_cons]
        exact (each p (.head _) _ _).append rest_below
      · exact rest_below.trans (sublist_append_right _ _)

theorem mem_sights_node {id : NodeId} {f : Form Node} {frames : List Frame} :
    s ∈ sights (.node id f) isWrite frames ↔ s = ⟨isWrite, .node id f, frames⟩ ∨
      ∃ p ∈ f.places, p.role.isSeen ∧ s ∈ sights p.tree p.role.isTarget (f.around id p.isInner frames) := by
  rw [sights_node, mem_cons, mem_flatMap]
  simp only [mem_filter, and_assoc]

theorem self_mem_sights (t : Node) (isWrite : Bool) (frames : List Frame) : ⟨isWrite, t, frames⟩ ∈ t.sights isWrite frames := by
  cases t with
  | node m f => exact mem_sights_node.mpr (Or.inl rfl)

theorem sights_trans {frames : List Frame} {v : Sight} (hs : s ∈ t.sights isWrite frames)
    (hv : v ∈ s.node.sights s.isWrite s.frames) : v ∈ t.sights isWrite frames := by
  induction t generalizing isWrite frames with
  | node m f ih =>
    rcases mem_sights_node.mp hs with rfl | ⟨p, hp, seen, hs⟩
    · exact hv
    · exact mem_sights_node.mpr (Or.inr ⟨p, hp, seen, ih p.tree (place_mem_children hp) hs⟩)

/-- The scope that a node opens. -/
def opening (n : Node) : Option Frame := n.form.opening n.mark

theorem owner_of_opening {n : Node} (h : n.opening = some f) : f.owner = some n.mark := by
  cases n with
  | node m g =>
    cases g with
    | tryStatement b p h' y => cases h' <;> simp_all [opening, Tree.form, Tree.mark, Form.opening, eq_comm]
    | _ => simp_all [opening, Tree.form, Tree.mark, Form.opening, eq_comm]

/-- The names that a statement declares when it stands alone. -/
def outermost (root : Node) : Frame := ⟨none, if root.form.isStatement then root.hoisted else []⟩

/-- All sights of a tree. -/
def overview (root : Node) : List Sight := root.sights false [root.outermost]

/-- All scopes of a tree. -/
def frames (root : Node) : List Frame := root.outermost :: root.overview.filterMap fun s => opening s.node

end Node

attribute [local simp] Form.opening Resolution.opened Resolution.refer

def Sight.reference? (s : Sight) : Option Reference :=
  match s.node.form with
  | .identifier name => some ⟨s.node.mark, name, s.isWrite, s.frames.map Frame.scope⟩
  | _ => none

theorem Sight.record_references (s : Sight) : s.record.references = s.reference?.toList := by
  rw [record, reference?]
  cases form : s.node.form with
  | identifier x => simp [Tree.name, form]
  | tryStatement b p h y => cases h <;> simp
  | _ => simp

theorem Sight.record_scopes (s : Sight) :
    s.record.scopes.map (·.1) = (Node.opening s.node).toList.map Frame.scope := by
  rw [record, Node.opening]
  cases form : s.node.form with
  | tryStatement b p h y => cases h <;> simp
  | _ => simp

theorem Sight.record_declared (s : Sight) :
    s.record.declared =
      (Node.opening s.node).toList.flatMap fun f => Resolution.declaredIn f.owner f.declarations := by
  rw [record, Node.opening]
  cases form : s.node.form with
  | tryStatement b p h y => cases h <;> simp
  | _ => simp

namespace Resolution

variable {root : Node}

theorem references_perm : ((of root).references).Perm (root.overview.filterMap Sight.reference?) := by
  have visits := visit_perm (·.references) rfl (fun _ _ => rfl) root false [root.outermost]
  simp only [visitAs_false, Sight.record_references] at visits
  rw [filterMap_eq_flatMap_toList]
  exact visits

theorem mem_references : r ∈ (of root).references ↔ ∃ s ∈ root.overview, s.reference? = some r := by
  rw [references_perm.mem_iff, mem_filterMap]

theorem reference_of_sight (h : s.reference? = some r) :
    s.node = .node r.node (.identifier r.name) ∧ s.isWrite = r.isWrite ∧
      r.binding = Scope.lookup r.name (s.frames.map Frame.scope) := by
  obtain ⟨isWrite, ⟨m, f⟩, frames⟩ := s
  cases f with
  | identifier x =>
    cases h
    exact ⟨rfl, rfl, rfl⟩
  | _ => cases h

theorem chain_of_sight (h : s.reference? = some r) : r.chain = s.frames.map Frame.scope := by
  obtain ⟨isWrite, ⟨m, f⟩, frames⟩ := s
  cases f with
  | identifier x =>
    cases h
    rfl
  | _ => cases h

theorem references_nodup (distinct : root.Distinct) : ((of root).references.map (·.node)).Nodup := by
  have nodes : (root.overview.filterMap Sight.reference?).map (·.node) =
      (root.overview.filter fun s => s.node.form.isName).map fun s => Tree.mark s.node := by
    generalize root.overview = sights
    induction sights with
    | nil => rfl
    | cons s rest ih =>
      rw [filterMap_cons, filter_cons, Sight.reference?]
      cases form : s.node.form <;> simp [Form.isName, ih]
  rw [(references_perm.map _).nodup_iff, nodes]
  refine List.Nodup.sublist (filter_sublist.map _) ?_
  have all := (root.sights_sublist false [root.outermost]).map Tree.mark
  rw [List.map_map] at all
  exact List.Nodup.sublist all distinct

theorem mem_scopes {s : Scope} :
    s ∈ (of root).scopes.map (·.1) ↔ ∃ v ∈ root.overview, ∃ f, Node.opening v.node = some f ∧ s = f.scope := by
  have visits := visit_perm (fun r => r.scopes.map (·.1)) rfl (fun _ _ => map_append) root false [root.outermost]
  simp only [visitAs_false, Sight.record_scopes] at visits
  refine visits.mem_iff.trans ?_
  rw [mem_flatMap]
  refine exists_congr fun v => and_congr_right fun _ => ?_
  simp [eq_comm]

theorem mem_declaredIn {owner : Option NodeId} {ds : List Declaration} {k : NodeId} :
    (k, b) ∈ declaredIn owner ds ↔ ∃ d ∈ ds, d.key = k ∧ b = ⟨owner, d.name⟩ := by
  rw [declaredIn, mem_map]
  refine exists_congr fun d => and_congr_right fun _ => ?_
  rw [Prod.mk.injEq, eq_comm (a := b)]

theorem mem_declared {k : NodeId} :
    (k, b) ∈ (of root).declared ↔ ∃ f ∈ root.frames, ∃ d ∈ f.declarations, d.key = k ∧ b = ⟨f.owner, d.name⟩ := by
  have visits := visit_perm (·.declared) rfl (fun _ _ => rfl) root false [root.outermost]
  simp only [visitAs_false, Sight.record_declared] at visits
  have whole : (of root).declared = declaredIn none root.outermost.declarations ++
      (root.para layer ([root.outermost].map Frame.scope)).declared := rfl
  rw [whole, mem_append, visits.mem_iff, mem_declaredIn, Node.frames, exists_mem_cons_iff, mem_flatMap]
  refine or_congr Iff.rfl ?_
  simp only [mem_flatMap, Option.mem_toList, mem_declaredIn, mem_filterMap]
  constructor
  · rintro ⟨s, hs, f, hf, d⟩
    exact ⟨f, ⟨s, hs, hf⟩, d⟩
  · rintro ⟨f, ⟨s, hs, hf⟩, d⟩
    exact ⟨s, hs, f, hf, d⟩

end Resolution

namespace Node

variable {root : Node}

theorem node_mem_walk (h : s ∈ root.overview) : s.node ∈ root.walk :=
  (sights_sublist root false [root.outermost]).subset (mem_map_of_mem h)

theorem frame_eq (distinct : root.Distinct) {g : Frame} (hf : f ∈ root.frames) (hg : g ∈ root.frames)
    (same : f.owner = g.owner) : f = g := by
  rw [frames, mem_cons, mem_filterMap] at hf hg
  rcases hf with rfl | ⟨s, hs, opens⟩
  · rcases hg with rfl | ⟨v, hv, opens⟩
    · rfl
    · rw [owner_of_opening opens] at same
      cases same
  · rcases hg with rfl | ⟨v, hv, opens'⟩
    · rw [owner_of_opening opens] at same
      cases same
    · rw [owner_of_opening opens, owner_of_opening opens', Option.some.injEq] at same
      rw [distinct.same_node (node_mem_walk hs) (node_mem_walk hv) same, opens', Option.some.injEq] at opens
      exact opens.symm

/-- What is true of the sights of all children, in the scopes around them, and of the tree itself is true of all
sights. -/
theorem frames_of_sight {around : List Frame}
    (h : s ∈ t.sights isWrite around) :
    ∀ f ∈ s.frames, f ∈ around ∨ ∃ v ∈ t.sights isWrite around, opening v.node = some f := by
  induction t generalizing isWrite around with
  | node m g ih =>
    intro f hf
    rcases mem_sights_node.mp h with rfl | ⟨p, hp, seen, hs⟩
    · exact Or.inl hf
    · rcases ih p.tree (place_mem_children hp) hs f hf with outside | ⟨v, hv, opens⟩
      · rw [Form.around] at outside
        split at outside
        · rcases mem_append.mp outside with opened | outside
          · exact Or.inr ⟨_, mem_sights_node.mpr (Or.inl rfl), Option.mem_toList.mp opened⟩
          · exact Or.inl outside
        · exact Or.inl outside
      · exact Or.inr ⟨v, mem_sights_node.mpr (Or.inr ⟨p, hp, seen, hv⟩), opens⟩

theorem frame_mem_frames (h : s ∈ root.overview) (hf : f ∈ s.frames) : f ∈ root.frames := by
  rw [frames, mem_cons, mem_filterMap]
  rcases frames_of_sight h f hf with outside | ⟨v, hv, opens⟩
  · exact Or.inl (mem_singleton.mp outside)
  · exact Or.inr ⟨v, hv, opens⟩

end Node

namespace Resolution

variable {root : Node}

theorem scope?_eq_some {owner : Option NodeId} {s : Scope} (h : (of root).scope? owner = some s) :
    ∃ f ∈ root.frames, f.owner = owner ∧ s = f.scope := by
  rw [scope?] at h
  split at h
  next outer =>
    cases h
    exact ⟨root.outermost, .head _, outer.symm, rfl⟩
  next inner =>
    obtain ⟨e, found, rfl⟩ := Option.map_eq_some_iff.mp h
    have owned : e.1.owner = owner := by simpa using find?_some found
    obtain ⟨v, hv, f, opens, same⟩ := mem_scopes.mp (mem_map_of_mem (mem_of_find?_eq_some found))
    refine ⟨f, .tail _ (mem_filterMap.mpr ⟨v, hv, opens⟩), ?_, same⟩
    rw [← owned, same, Frame.scope, Scope.owner_ofDeclarations]

theorem scope?_of_mem (distinct : root.Distinct) (hf : f ∈ root.frames) :
    (of root).scope? f.owner = some f.scope := by
  cases known : (of root).scope? f.owner with
  | some s =>
    obtain ⟨g, hg, owner, rfl⟩ := scope?_eq_some known
    rw [Node.frame_eq distinct hg hf owner]
  | none =>
    rw [scope?] at known
    split at known
    next outer => cases known
    next inner =>
      rcases mem_cons.mp hf with rfl | hf
      · exact absurd rfl inner
      obtain ⟨v, hv, opens⟩ := mem_filterMap.mp hf
      have listed := mem_scopes.mpr ⟨v, hv, f, opens, rfl⟩
      obtain ⟨e, he, same⟩ := mem_map.mp listed
      rw [Option.map_eq_none_iff, find?_eq_none] at known
      refine absurd ?_ (known e he)
      rw [same, Frame.scope, Scope.owner_ofDeclarations, beq_self_eq_true]

theorem binding?_of_mem (distinct : root.Distinct) (hf : f ∈ root.frames)
    (declares : ∃ d ∈ f.declarations, d.name = name) :
    ∃ record, (of root).binding? ⟨f.owner, name⟩ = some record ∧ record.name = name ∧
      record.declarations = (f.declarations.filter fun d => d.name = name).map (·.node) := by
  rw [binding?, scope?_of_mem distinct hf, Option.bind_some, Frame.scope, Scope.find?_ofDeclarations]
  cases named : f.declarations.filter fun d => d.name = name with
  | nil =>
    obtain ⟨d, hd, same⟩ := declares
    rw [filter_eq_nil_iff] at named
    exact absurd (decide_eq_true same) (named d hd)
  | cons d rest =>
    obtain ⟨record, found, same, declarations⟩ := Scope.merge_all d rest
    have hd : d ∈ f.declarations.filter fun d => d.name = name := named ▸ (.head _)
    exact ⟨record, found, same.trans (of_decide_eq_true (mem_filter.mp hd).2), declarations⟩

theorem binding?_eq_some (distinct : root.Distinct) {record : Binding} :
    (of root).binding? b = some record ↔ ∃ f ∈ root.frames, f.owner = b.scope ∧ f.scope.find? b.name = some record := by
  rw [binding?, Option.bind_eq_some_iff]
  constructor
  · rintro ⟨s, known, found⟩
    obtain ⟨f, hf, owner, rfl⟩ := scope?_eq_some known
    exact ⟨f, hf, owner, found⟩
  · rintro ⟨f, hf, owner, found⟩
    exact ⟨f.scope, owner ▸ scope?_of_mem distinct hf, found⟩

end Resolution

end Unravel
