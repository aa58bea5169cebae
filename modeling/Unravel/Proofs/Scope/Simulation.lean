import Unravel.Proofs.Scope.Sights
import Unravel.Proofs.Syntax.Edits

/-! What edits do to resolution. A node that is left is seen from where its original was seen, in scopes that
   correspond one to one; a deletion takes declarations out of these scopes, a substitution leaves them as they are. -/
namespace Unravel

open List

variable {frames frames' : List Frame} {s s' : Sight} {root : Node}

theorem eq_map_of_forall₂ {α β : Type} {g : α → β} {xs : List α} {ys : List β}
    (h : List.Forall₂ (fun x y => y = g x) xs ys) : ys = xs.map g := by
  induction h with
  | nil => rfl
  | cons here _ ih => rw [map_cons, here, ih]

namespace Node

attribute [local simp] Form.children Form.places Form.opening Form.map Form.prune Form.visit Place.free Place.fixed

/-- An edit changes the nodes of a tree where they stand: every place of an edited node that is looked at was there
before, with what was in it edited too, and scopes stay related. -/
structure Follows (edit : Node → Node) (kept : Node → Prop) (related : Frame → Frame → Prop) (t : Node) : Prop where
  places : ∀ n ∈ t.walk, kept n → ∀ q ∈ (edit n).form.places, q.role.isSeen →
    ∃ p ∈ n.form.places, p.role = q.role ∧ p.isInner = q.isInner ∧ q.tree = edit p.tree
  opening : ∀ n ∈ t.walk, kept n → Option.Rel related (opening n) (opening (edit n))

section

variable {edit : Node → Node} {kept : Node → Prop} {related : Frame → Frame → Prop}

theorem Follows.child {m : NodeId} {f : Form Node} (h : Follows edit kept related (.node m f)) {c : Node}
    (hc : c ∈ f.children) : Follows edit kept related c where
  places n hn := h.places n (mem_walk_of_child m hc hn)
  opening n hn := h.opening n (mem_walk_of_child m hc hn)

theorem Follows.around {n : Node} (h : Option.Rel related n.opening (edit n).opening) (isInner : Bool)
    (same : List.Forall₂ related frames frames') :
    List.Forall₂ related (n.form.around n.mark isInner frames)
      ((edit n).form.around (edit n).mark isInner frames') := by
  cases isInner with
  | false => exact same
  | true =>
    change List.Forall₂ related (n.opening.toList ++ frames) ((edit n).opening.toList ++ frames')
    generalize n.opening = before, (edit n).opening = after at h
    cases h with
    | none => exact same
    | some corresponds => exact List.Forall₂.cons corresponds same

/-- Every sight of the edited tree is the sight of an edited node, or one inside a node that was not kept. -/
theorem Follows.sight {t : Node} (h : Follows edit kept related t) {isWrite : Bool}
    (same : List.Forall₂ related frames frames') (hs : s' ∈ sights (edit t) isWrite frames') :
    ∃ s ∈ sights t isWrite frames, ∃ around, List.Forall₂ related s.frames around ∧
      ((kept s.node ∧ s' = ⟨s.isWrite, edit s.node, around⟩) ∨
        (¬ kept s.node ∧ s' ∈ sights (edit s.node) s.isWrite around)) := by
  induction t generalizing isWrite frames frames' with
  | node m f ih =>
    by_cases here : kept (.node m f)
    · cases edited : edit (.node m f) with
      | node k g =>
        rw [edited] at hs
        rcases mem_sights_node.mp hs with rfl | ⟨q, hq, seen, hs⟩
        · exact ⟨⟨isWrite, .node m f, frames⟩, mem_sights_node.mpr (Or.inl rfl), frames', same, Or.inl ⟨here, by rw [edited]⟩⟩
        · obtain ⟨p, hp, role, inner, tree⟩ :=
            h.places _ (self_mem_walk _) here q (by rw [edited]; exact hq) seen
          have around := Follows.around (h.opening _ (self_mem_walk _) here) q.isInner same
          rw [edited] at around
          have below := place_mem_children hp
          rw [tree] at hs
          obtain ⟨s, hs, result⟩ := ih p.tree below (h.child below) around hs
          refine ⟨s, mem_sights_node.mpr (Or.inr ⟨p, hp, role ▸ seen, ?_⟩), result⟩
          rw [role, inner]
          exact hs
    · exact ⟨⟨isWrite, .node m f, frames⟩, mem_sights_node.mpr (Or.inl rfl), frames', same, Or.inr ⟨here, hs⟩⟩

theorem Follows.still_seen {t : Node} (h : Follows edit kept related t) (distinct : Distinct t) {isWrite : Bool}
    (same : List.Forall₂ related frames frames')
    (hs : s ∈ sights t isWrite frames)
    (way : ∀ n ∈ t.walk, s.node ∈ n.walk → n ≠ s.node → kept n ∧ ∀ p ∈ n.form.places, s.node ∈ p.tree.walk →
      ∃ q ∈ (edit n).form.places, q.role = p.role ∧ q.isInner = p.isInner ∧ q.tree = edit p.tree) :
    ∃ around, List.Forall₂ related s.frames around ∧
      ∀ v ∈ sights (edit s.node) s.isWrite around, v ∈ sights (edit t) isWrite frames' := by
  induction t generalizing isWrite frames frames' with
  | node m f ih =>
    rcases mem_sights_node.mp hs with rfl | ⟨p, hp, seen, hs⟩
    · exact ⟨frames', same, fun v hv => hv⟩
    · have below := place_mem_children hp
      have inside : s.node ∈ p.tree.walk := (sights_sublist _ _ _).subset (mem_map_of_mem hs)
      have above : (.node m f : Node) ≠ s.node := by
        intro top
        rw [← top] at inside
        exact (distinct_node distinct).1 p.tree below (mark_mem_ids inside)
      have self := self_mem_walk (.node m f)
      obtain ⟨here, stays⟩ := way _ self (mem_walk_of_child m below inside) above
      obtain ⟨q, hq, role, inner, tree⟩ := stays p hp inside
      have around := Follows.around (h.opening _ self here) p.isInner same
      obtain ⟨around', related', found⟩ := ih p.tree below (h.child below) (distinct.child below) around hs
        fun n hn => way n (mem_walk_of_child m below hn)
      refine ⟨around', related', fun v hv => ?_⟩
      have deeper := found v hv
      cases edited : edit (.node m f) with
      | node k g =>
        rw [edited] at hq deeper
        refine mem_sights_node.mpr (Or.inr ⟨q, hq, role ▸ seen, ?_⟩)
        rw [role, inner, tree]
        exact deeper

end

section Deletion

variable {doomed : NodeId → Bool}

/-- Only statements and declarators are deleted, and with each of them no declaration but its own. -/
def Detachable (doomed : NodeId → Bool) (t : Node) : Prop :=
  ∀ n ∈ t.walk, doomed n.mark → n.form.isRemovable ∧ ∀ d ∈ hoisted n, d.key = n.mark

theorem Detachable.child {m : NodeId} {f : Form Node} (h : Detachable doomed (.node m f)) {c : Node}
    (hc : c ∈ f.children) : Detachable doomed c := fun n hn => h n (mem_walk_of_child m hc hn)

theorem delete_name {t : Node} (h : t.form.isName) : delete doomed t = t := by
  obtain ⟨m, name, rfl⟩ := form_of_isName h
  exact delete_node doomed m _

/-- The declarations that a deletion leaves. -/
def spared (doomed : NodeId → Bool) (ds : List Declaration) : List Declaration := ds.filter fun d => !doomed d.key

theorem hoisted_of_isEmptied {before : Form Node} {t : Node} (h : isEmptied before t.form) : t.hoisted = [] := by
  cases t with
  | node m f =>
    obtain ⟨declaration, bare⟩ := of_isEmptied h
    cases f with
    | declaration k d =>
      cases bare
      rfl
    | _ => cases declaration

theorem hoisted_delete? {t : Node} (detachable : Detachable doomed t)
    (kept : ¬ doomed t.mark → hoisted (delete doomed t) = spared doomed t.hoisted) :
    (delete? doomed t).toList.flatMap hoisted = spared doomed t.hoisted := by
  by_cases condemned : doomed t.mark
  · have gone : delete? doomed t = none := by simp [delete?, condemned]
    have own := (detachable t (self_mem_walk t) condemned).2
    have nothing : spared doomed t.hoisted = [] := by
      rw [spared, filter_eq_nil_iff]
      intro d hd
      simp [own d hd, condemned]
    rw [gone, nothing]
    rfl
  · rw [← kept condemned, delete?]
    split
    next empty =>
      rcases empty with doomed | empty
      · exact absurd doomed condemned
      · rw [hoisted_of_isEmptied empty]
        rfl
    next => simp

theorem own_delete {m : NodeId} {f : Form Node} (grammatical : Tree.Grammatical (.node m f)) :
    (f.prune (delete? doomed) (delete doomed)).own m = f.own m := by
  have here := (grammatical_node.mp grammatical).1
  cases f with
  | functionDeclaration n p b =>
    have name : n.form.isName := here (.fixed .name n) (by simp)
    change [(⟨m, (delete doomed n).name, .function, m⟩ : Declaration)] = _
    rw [delete_name name]
    rfl
  | declarator n x =>
    have name : n.form.isName := here (.fixed .name n) (by simp)
    change [(⟨m, (delete doomed n).name, .var, m⟩ : Declaration)] = _
    rw [delete_name name]
    rfl
  | _ => rfl

theorem hoisted_places {places : List (Place Node)}
    (below : ∀ p ∈ places, (delete? doomed p.tree).toList.flatMap hoisted = spared doomed (hoisted p.tree))
    (free : ∀ p ∈ places, p.role.hoists → p.isRequired = false) :
    ((places.filterMap (Place.prune (delete? doomed) (delete doomed))).filter (·.role.hoists)).flatMap
        (fun p => hoisted p.tree) =
      spared doomed ((places.filter (·.role.hoists)).flatMap fun p => hoisted p.tree) := by
  induction places with
  | nil => rfl
  | cons p rest ih =>
    have tail := ih (fun q hq => below q (.tail p hq)) fun q hq => free q (.tail p hq)
    have here := below p (.head _)
    rw [filterMap_cons, filter_cons (x := p)]
    by_cases hoists : p.role.hoists
    · have required := free p (.head _) hoists
      rw [if_pos hoists, flatMap_cons, spared, filter_append, ← spared, ← spared, ← tail, ← here, Place.prune,
        required]
      cases delete? doomed p.tree with
      | none => rfl
      | some k => simp [hoists]
    · rw [if_neg hoists, ← tail]
      cases pruned : Place.prune (delete? doomed) (delete doomed) p with
      | none => rfl
      | some q =>
        have role : q.role = p.role := by
          rw [Place.prune] at pruned
          split at pruned
          · cases pruned
            rfl
          · obtain ⟨k, -, rfl⟩ := Option.map_eq_some_iff.mp pruned
            rfl
        simp [role, hoists]

theorem hoisted_delete {t : Node} (grammatical : t.Grammatical) (detachable : Detachable doomed t)
    (spare : ¬ doomed t.mark) : hoisted (delete doomed t) = spared doomed t.hoisted := by
  induction t with
  | node m f ih =>
    have own : spared doomed (f.own m) = f.own m := by
      rw [spared, filter_eq_self]
      intro d hd
      have key : d.key = m := by cases f <;> simp_all [Form.own]
      simpa [key] using spare
    have below : ∀ p ∈ f.places, (delete? doomed p.tree).toList.flatMap hoisted = spared doomed (hoisted p.tree) := by
      intro p hp
      have hc := place_mem_children hp
      exact hoisted_delete? (detachable.child hc) (ih p.tree hc (grammatical.child hc) (detachable.child hc))
    have callable : (f.prune (delete? doomed) (delete doomed)).isCallable = f.isCallable := by cases f <;> rfl
    rw [delete_node, hoisted_node, hoisted_node, own_delete grammatical, callable]
    cases f.isCallable with
    | true => simpa using own.symm
    | false =>
      rw [spared, filter_append, ← spared, own, Form.places_prune]
      exact congrArg _ (hoisted_places below fun p => Role.not_required_of_hoists)

/-- A scope after a deletion. -/
def strip (doomed : NodeId → Bool) (f : Frame) : Frame := ⟨f.owner, spared doomed f.declarations⟩

theorem Detachable.name {t n : Node} (h : Detachable doomed t) (hn : n ∈ t.walk) (name : n.form.isName) :
    ¬ doomed n.mark ∧ delete? doomed n = some n := by
  have spare : ¬ doomed n.mark := by
    intro condemned
    have removable := (h n hn condemned).1
    obtain ⟨m, x, rfl⟩ := form_of_isName name
    cases removable
  refine ⟨spare, delete?_eq_some.mpr ⟨spare, ?_, (delete_name name).symm⟩⟩
  rw [delete_name name]
  obtain ⟨m, x, rfl⟩ := form_of_isName name
  simp [isEmptied, isEmptyDeclaration]

theorem hoisted_body {body : List Node} (grammatical : ∀ c ∈ body, c.Grammatical)
    (detachable : ∀ c ∈ body, Detachable doomed c) :
    (body.filterMap (delete? doomed)).flatMap hoisted = spared doomed (body.flatMap hoisted) := by
  rw [filterMap_eq_flatMap_toList, flatMap_assoc, spared, filter_flatMap]
  exact flatMap_congr fun c hc => hoisted_delete? (detachable c hc) (hoisted_delete (grammatical c hc) (detachable c hc))

theorem spared_eq_self {ds : List Declaration} (h : ∀ d ∈ ds, ¬ doomed d.key) : spared doomed ds = ds := by
  rw [spared, filter_eq_self]
  intro d hd
  simpa using h d hd

theorem functionDeclarations_delete (id : NodeId) (name : Option Node) (params body : List Node)
    (steady : ∀ c ∈ name.toList ++ params, ¬ doomed c.mark ∧ delete? doomed c = some c)
    (grammatical : ∀ c ∈ body, c.Grammatical) (detachable : ∀ c ∈ body, Detachable doomed c) :
    Resolution.functionDeclarations id (name.bind (delete? doomed)) (params.filterMap (delete? doomed))
        (body.filterMap (delete? doomed)) =
      spared doomed (Resolution.functionDeclarations id name params body) := by
  have own : name.bind (delete? doomed) = name := by
    cases name with
    | none => rfl
    | some c => exact (steady c (by simp)).2
  have parameters : params.filterMap (delete? doomed) = params :=
    (filterMap_congr fun c hc => (steady c (mem_append_right _ hc)).2).trans filterMap_some
  have outer : ∀ d ∈ name.toList.map (fun n => (⟨n.mark, n.name, .function, id⟩ : Declaration)) ++
      params.map Resolution.parameter, ¬ doomed d.key := by
    intro d hd
    rw [mem_append, mem_map, mem_map] at hd
    rcases hd with ⟨c, hc, rfl⟩ | ⟨c, hc, rfl⟩
    · exact (steady c (mem_append_left _ hc)).1
    · exact (steady c (mem_append_right _ hc)).1
  rw [own, parameters]
  simp only [Resolution.functionDeclarations]
  rw [hoisted_body grammatical detachable, spared, spared, filter_append, ← spared, ← spared, spared_eq_self outer]

theorem opening_delete {n : Node} (grammatical : n.Grammatical) (detachable : Detachable doomed n) :
    (delete doomed n).opening = n.opening.map (strip doomed) := by
  cases n with
  | node m f =>
    have names : ∀ p ∈ f.places, p.role = .name → ¬ doomed p.tree.mark ∧ delete? doomed p.tree = some p.tree := by
      intro p hp role
      have admitted := (grammatical_node.mp grammatical).1 p hp
      rw [role] at admitted
      exact detachable.name (mem_walk_of_child m (place_mem_children hp) (self_mem_walk _)) admitted
    rw [delete_node, opening, opening]
    cases f with
    | function p b n i =>
      have whole := functionDeclarations_delete m n p b
        (fun c hc => names ⟨.name, false, false, c⟩ (by simp; grind) rfl)
        (fun c hc => grammatical.child (by simp [hc]))
        (fun c hc => detachable.child (by simp [hc]))
      cases n <;> simpa [strip, Form.visitOption_id] using whole
    | functionDeclaration n p b =>
      have whole := functionDeclarations_delete m none p b
        (fun c hc => names ⟨.name, false, false, c⟩ (by simp; grind) rfl)
        (fun c hc => grammatical.child (by simp [hc]))
        (fun c hc => detachable.child (by simp [hc]))
      simpa [strip] using whole
    | tryStatement b p h y =>
      cases h with
      | none => rfl
      | some h =>
        cases p with
        | none => rfl
        | some c =>
          obtain ⟨spare, steady⟩ := names ⟨.name, false, false, c⟩ (by simp) rfl
          have kept : spared doomed [Resolution.parameter c] = [Resolution.parameter c] :=
            spared_eq_self fun d hd => by rwa [mem_singleton.mp hd]
          simp [strip, kept, Form.visit.visitOption, steady]
    | _ => rfl

/-- A deletion leaves the sights of what is left, in scopes that lost the deleted declarations. -/
theorem delete_follows {t : Node} (grammatical : t.Grammatical) (detachable : Detachable doomed t) :
    Follows (delete doomed) (fun _ => True) (fun f g => g = strip doomed f) t where
  places n hn _ q hq seen := by
    cases n with
    | node m f =>
      rw [delete_node] at hq
      obtain ⟨p, hp, rfl, -⟩ := mem_places_delete.mp hq
      exact ⟨p, hp, rfl, rfl, rfl⟩
  opening n hn _ := by
    rw [opening_delete (grammatical.subtree hn) fun k hk => detachable k (walk_trans hn hk)]
    cases opening n with
    | none => exact Option.Rel.none
    | some f => exact Option.Rel.some rfl

variable (grammatical : root.Grammatical) (detachable : Detachable doomed root) (plain : ¬ root.form.isStatement)

include plain in
theorem outermost_delete :
    (delete doomed root).outermost = strip doomed root.outermost := by
  have plain' : ¬ (delete doomed root).form.isStatement := by
    cases root with
    | node m f =>
      rw [delete_node]
      cases f <;> exact plain
  rw [outermost, outermost, if_neg plain, if_neg plain']
  rfl

include grammatical detachable plain

theorem delete_overview (hs' : s' ∈ (delete doomed root).overview) :
    ∃ s ∈ root.overview, s' = ⟨s.isWrite, delete doomed s.node, s.frames.map (strip doomed)⟩ := by
  have start : List.Forall₂ (fun f g => g = strip doomed f) [root.outermost] [(delete doomed root).outermost] :=
    List.Forall₂.cons (outermost_delete plain) List.Forall₂.nil
  obtain ⟨s, hs, around, same, ⟨-, rfl⟩ | ⟨gone, -⟩⟩ := (delete_follows grammatical detachable).sight start hs'
  · rw [eq_map_of_forall₂ same]
    exact ⟨s, hs, rfl⟩
  · exact absurd trivial gone

theorem frames_delete {f' : Frame} (hf : f' ∈ (delete doomed root).frames) : ∃ f ∈ root.frames, f' = strip doomed f := by
  rcases mem_cons.mp hf with rfl | hf
  · exact ⟨_, .head _, outermost_delete plain⟩
  · obtain ⟨s', hs', opens⟩ := mem_filterMap.mp hf
    obtain ⟨s, hs, rfl⟩ := delete_overview grammatical detachable plain hs'
    have inside := node_mem_walk hs
    rw [opening_delete (grammatical.subtree inside) fun k hk => detachable k (walk_trans inside hk)] at opens
    obtain ⟨f, before, rfl⟩ := Option.map_eq_some_iff.mp opens
    exact ⟨f, .tail _ (mem_filterMap.mpr ⟨s, hs, before⟩), rfl⟩

theorem delete_still_seen (distinct : Distinct root) (hs : s ∈ root.overview)
    (single : ¬ s.node.form.isDeclaration) (safe : ∀ n ∈ root.walk, s.node ∈ n.walk → ¬ doomed n.mark) :
    ⟨s.isWrite, delete doomed s.node, s.frames.map (strip doomed)⟩ ∈ (delete doomed root).overview := by
  have start : List.Forall₂ (fun f g => g = strip doomed f) [root.outermost] [(delete doomed root).outermost] :=
    List.Forall₂.cons (outermost_delete plain) List.Forall₂.nil
  obtain ⟨around, same, found⟩ := (delete_follows grammatical detachable).still_seen distinct start hs (by
    intro n hn _ _
    refine ⟨trivial, fun p hp inside => ?_⟩
    have hc : p.tree ∈ root.walk := walk_trans hn (child_mem_walk (place_mem_children hp))
    have kept := (mem_ids_delete (distinct.subtree hc) inside single fun k hk _ through =>
      safe k (walk_trans hc hk) through).2 (safe p.tree hc inside)
    cases n with
    | node m f =>
      rw [delete_node]
      exact ⟨p.map (delete doomed), mem_places_delete.mpr ⟨p, hp, rfl, Or.inr kept⟩, rfl, rfl, rfl⟩)
  rw [eq_map_of_forall₂ same] at found
  refine found _ ?_
  cases s.node with
  | node m f =>
    rw [delete_node]
    exact mem_sights_node.mpr (Or.inl rfl)

omit grammatical detachable plain

theorem lookup_strip {fs : List Frame} {name : Text} {b : BindingId}
    (h : Scope.lookup name (fs.map Frame.scope) = some b)
    (kept : ∀ f ∈ fs, f.owner = b.scope → (∃ d ∈ f.declarations, d.name = name) →
      ∃ d ∈ f.declarations, d.name = name ∧ ¬ doomed d.key) :
    Scope.lookup name ((fs.map (strip doomed)).map Frame.scope) = some b := by
  induction fs with
  | nil => cases h
  | cons f outer ih =>
    rw [map_cons]
    by_cases found : ∃ d ∈ f.declarations, d.name = name
    · rw [Frame.lookup_here found, Option.some.injEq] at h
      subst h
      obtain ⟨d, hd, named, spare⟩ := kept f (.head _) rfl found
      exact Frame.lookup_here (f := strip doomed f) ⟨d, mem_filter.mpr ⟨hd, by simpa using spare⟩, named⟩ _
    · rw [Frame.lookup_outer found] at h
      have lost : ¬ ∃ d ∈ (strip doomed f).declarations, d.name = name :=
        fun ⟨d, hd, named⟩ => found ⟨d, mem_of_mem_filter hd, named⟩
      rw [Frame.lookup_outer lost]
      exact ih h fun g hg => kept g (.tail f hg)

theorem lookup_strip_none {fs : List Frame} {name : Text} (h : Scope.lookup name (fs.map Frame.scope) = none) :
    Scope.lookup name ((fs.map (strip doomed)).map Frame.scope) = none := by
  induction fs with
  | nil => rfl
  | cons f outer ih =>
    by_cases found : ∃ d ∈ f.declarations, d.name = name
    · rw [Frame.lookup_here found] at h
      cases h
    · rw [Frame.lookup_outer found] at h
      have lost : ¬ ∃ d ∈ (strip doomed f).declarations, d.name = name :=
        fun ⟨d, hd, named⟩ => found ⟨d, mem_of_mem_filter hd, named⟩
      rw [map_cons, Frame.lookup_outer lost]
      exact ih h

theorem find?_strip {f : Frame} {name : Text} (kept : ∀ d ∈ f.declarations, d.name = name → ¬ doomed d.key) :
    (strip doomed f).scope.find? name = f.scope.find? name := by
  rw [Frame.scope, Frame.scope, Scope.find?_ofDeclarations, Scope.find?_ofDeclarations, strip, spared, filter_filter]
  congr 1
  refine filter_congr fun d hd => ?_
  by_cases named : d.name = name
  · simpa [named] using kept d hd named
  · simp [named]

end Deletion

section Substitution

variable {new : Node → Option Node}

/-- No declared name is replaced, and what is put in has the declarations of what it replaces. -/
structure Neutral (new : Node → Option Node) (t : Node) : Prop where
  names : ∀ n ∈ t.walk, ∀ p ∈ n.form.places, p.role = .name → new p.tree = none
  hoisted : ∀ n ∈ t.walk, ∀ r, new n = some r → hoisted r = hoisted n

theorem Neutral.child {m : NodeId} {f : Form Node} (h : Neutral new (.node m f)) {c : Node} (hc : c ∈ f.children) :
    Neutral new c where
  names n hn := h.names n (mem_walk_of_child m hc hn)
  hoisted n hn := h.hoisted n (mem_walk_of_child m hc hn)

theorem Neutral.subtree {t n : Node} (h : Neutral new t) (hn : n ∈ t.walk) : Neutral new n where
  names k hk := h.names k (walk_trans hn hk)
  hoisted k hk := h.hoisted k (walk_trans hn hk)

theorem Neutral.name {m : NodeId} {f : Form Node} (h : Neutral new (.node m f)) (grammatical : Tree.Grammatical (.node m f))
    {p : Place Node} (hp : p ∈ f.places) (role : p.role = .name) : substitute new p.tree = p.tree := by
  have kept := h.names _ (self_mem_walk _) p hp role
  have admitted := (grammatical_node.mp grammatical).1 p hp
  rw [role] at admitted
  obtain ⟨k, x, same⟩ := form_of_isName admitted
  rw [same] at kept ⊢
  exact substitute_of_none kept

theorem own_substitute {m : NodeId} {f : Form Node} (neutral : Neutral new (.node m f))
    (grammatical : Tree.Grammatical (.node m f)) : (f.map (substitute new)).own m = f.own m := by
  have names : ∀ p ∈ f.places, p.role = .name → substitute new p.tree = p.tree := fun p => neutral.name grammatical
  cases f with
  | functionDeclaration n p b =>
    have kept := names (.fixed .name n) (by simp) rfl
    change [(⟨m, (substitute new n).name, .function, m⟩ : Declaration)] = _
    rw [show substitute new n = n from kept]
    rfl
  | declarator n x =>
    have kept := names (.fixed .name n) (by simp) rfl
    change [(⟨m, (substitute new n).name, .var, m⟩ : Declaration)] = _
    rw [show substitute new n = n from kept]
    rfl
  | _ => rfl

theorem hoisted_substitute {t : Node} (grammatical : t.Grammatical) (neutral : Neutral new t) :
    hoisted (substitute new t) = hoisted t := by
  induction t with
  | node m f ih =>
    cases replaced : new (.node m f) with
    | some r =>
      rw [substitute_of_some replaced]
      exact neutral.hoisted _ (self_mem_walk _) r replaced
    | none =>
      have callable : (f.map (substitute new)).isCallable = f.isCallable := by cases f <;> rfl
      rw [substitute_of_none replaced, hoisted_node, hoisted_node, own_substitute neutral grammatical, callable,
        Form.places_map, filter_map, flatMap_map]
      congr 2
      refine flatMap_congr fun p hp => ?_
      have hc := place_mem_children (mem_of_mem_filter hp)
      exact ih p.tree hc (grammatical.child hc) (neutral.child hc)

theorem functionDeclarations_substitute (id : NodeId) (name : Option Node) (params body : List Node)
    (steady : ∀ c ∈ name.toList ++ params, substitute new c = c)
    (hoists : ∀ c ∈ body, hoisted (substitute new c) = hoisted c) :
    Resolution.functionDeclarations id (name.map (substitute new)) (params.map (substitute new))
        (body.map (substitute new)) =
      Resolution.functionDeclarations id name params body := by
  have own : name.map (substitute new) = name := by
    cases name with
    | none => rfl
    | some c => rw [Option.map_some, steady c (by simp)]
  have parameters : params.map (substitute new) = params := by
    rw [map_congr_left fun c hc => steady c (mem_append_right _ hc), map_id']
  have inside : (body.map (substitute new)).flatMap hoisted = body.flatMap hoisted := by
    rw [flatMap_map]
    exact flatMap_congr hoists
  rw [own, parameters, Resolution.functionDeclarations, inside, Resolution.functionDeclarations]

theorem opening_substitute {n : Node} (grammatical : n.Grammatical) (neutral : Neutral new n) (kept : new n = none) :
    (substitute new n).opening = n.opening := by
  cases n with
  | node m f =>
    have names : ∀ p ∈ f.places, p.role = .name → substitute new p.tree = p.tree := fun p => neutral.name grammatical
    have hoists : ∀ c ∈ f.children, hoisted (substitute new c) = hoisted c :=
      fun c hc => hoisted_substitute (grammatical.child hc) (neutral.child hc)
    rw [substitute_of_none kept, opening, opening]
    cases f with
    | function p b n i =>
      have whole := functionDeclarations_substitute m n p b
        (fun c hc => names ⟨.name, false, false, c⟩ (by simp; grind) rfl)
        (fun c hc => hoists c (by simp [hc]))
      simpa using whole
    | functionDeclaration n p b =>
      have whole := functionDeclarations_substitute m none p b
        (fun c hc => names ⟨.name, false, false, c⟩ (by simp; grind) rfl)
        (fun c hc => hoists c (by simp [hc]))
      simpa using whole
    | tryStatement b p h y =>
      cases h with
      | none => rfl
      | some h =>
        cases p with
        | none => rfl
        | some c =>
          have steady := names ⟨.name, false, false, c⟩ (by simp) rfl
          simp only [Form.map, Form.opening, form_node, Option.map_some, mark_node]
          rw [show substitute new c = c from steady]
    | _ => rfl

/-- A substitution leaves every scope as it is. -/
theorem substitute_follows {t : Node} (grammatical : t.Grammatical) (neutral : Neutral new t) :
    Follows (substitute new) (fun n => new n = none) Eq t where
  places n hn kept q hq seen := by
    cases n with
    | node m f =>
      rw [substitute_of_none kept, form_node, Form.places_map] at hq
      obtain ⟨p, hp, rfl⟩ := mem_map.mp hq
      exact ⟨p, hp, rfl, rfl, rfl⟩
  opening n hn kept := by
    rw [opening_substitute (grammatical.subtree hn) (neutral.subtree hn) kept]
    cases opening n with
    | none => exact Option.Rel.none
    | some f => exact Option.Rel.some rfl

variable (grammatical : root.Grammatical) (neutral : Neutral new root) (kept : new root = none) (plain : ¬ root.form.isStatement)

include kept plain

theorem outermost_substitute :
    (substitute new root).outermost = root.outermost := by
  have plain' : ¬ (substitute new root).form.isStatement := by
    cases root with
    | node m f =>
      rw [substitute_of_none kept]
      cases f <;> exact plain
  rw [outermost, outermost, if_neg plain, if_neg plain']

include grammatical neutral

theorem substitute_overview (hs' : s' ∈ (substitute new root).overview) :
    ∃ s ∈ root.overview, (new s.node = none ∧ s' = ⟨s.isWrite, substitute new s.node, s.frames⟩) ∨
      ∃ r, new s.node = some r ∧ s' ∈ r.sights s.isWrite s.frames := by
  have start : List.Forall₂ Eq [root.outermost] [(substitute new root).outermost] :=
    List.Forall₂.cons (outermost_substitute kept plain).symm List.Forall₂.nil
  obtain ⟨s, hs, around, same, found⟩ := (substitute_follows grammatical neutral).sight start hs'
  rw [forall₂_eq_eq_eq] at same
  subst same
  refine ⟨s, hs, ?_⟩
  rcases found with kept | ⟨gone, inside⟩
  · exact Or.inl kept
  · obtain ⟨r, replaced⟩ := Option.ne_none_iff_exists'.mp gone
    rw [substitute_of_some replaced] at inside
    exact Or.inr ⟨r, replaced, inside⟩

theorem substitute_still_seen (distinct : Distinct root) (hs : s ∈ root.overview)
    (safe : ∀ n ∈ root.walk, s.node ∈ n.walk → n ≠ s.node → new n = none) :
    ∀ v ∈ sights (substitute new s.node) s.isWrite s.frames, v ∈ (substitute new root).overview := by
  have start : List.Forall₂ Eq [root.outermost] [(substitute new root).outermost] :=
    List.Forall₂.cons (outermost_substitute kept plain).symm List.Forall₂.nil
  obtain ⟨around, same, found⟩ := (substitute_follows grammatical neutral).still_seen distinct start hs (by
    intro n hn through above
    have spare := safe n hn through above
    refine ⟨spare, fun p hp inside => ?_⟩
    cases n with
    | node m f =>
      rw [substitute_of_none spare, form_node, Form.places_map]
      exact ⟨p.map (substitute new), mem_map_of_mem hp, rfl, rfl, rfl⟩)
  rw [forall₂_eq_eq_eq] at same
  exact same ▸ found

theorem frames_substitute
    (closed : ∀ n ∈ root.walk, ∀ r, new n = some r → ∀ k ∈ r.walk, opening k = none) {f : Frame}
    (hf : f ∈ (substitute new root).frames) : f ∈ root.frames := by
  rcases mem_cons.mp hf with rfl | hf
  · rw [outermost_substitute kept plain]
    exact .head _
  · obtain ⟨s', hs', opens⟩ := mem_filterMap.mp hf
    obtain ⟨s, hs, ⟨spare, rfl⟩ | ⟨r, replaced, inside⟩⟩ := substitute_overview grammatical neutral kept plain hs'
    · have inside := node_mem_walk hs
      rw [opening_substitute (grammatical.subtree inside) (neutral.subtree inside) spare] at opens
      exact .tail _ (mem_filterMap.mpr ⟨s, hs, opens⟩)
    · have bare := closed s.node (node_mem_walk hs) r replaced s'.node
        ((sights_sublist _ _ _).subset (mem_map_of_mem inside))
      rw [bare] at opens
      cases opens

end Substitution

end Node

end Unravel
