import Unravel.Proofs.Syntax.Edits

/-! Edits made one after the other. Deletions add up, and so do renamings of identifiers, and it does not matter whether a
   tree is renamed or deleted from first. -/
namespace Unravel

variable {t : Node} {m : NodeId}

theorem Form.prune_prune {ρ σ τ : Type} (a : ρ → Option σ) (g : ρ → σ) (b : σ → Option τ) (h : σ → τ) (f : Form ρ) :
    (f.prune a g).prune b h = f.prune (fun x => (a x).bind b) (h ∘ g) := by
  cases f <;> simp [prune, visit, visitOption_id, mapM_id, List.filterMap_filterMap, Function.comp_def, Option.bind_assoc]

theorem Form.map_prune {ρ σ τ : Type} (a : ρ → Option σ) (g : ρ → σ) (h : σ → τ) (f : Form ρ) :
    (f.prune a g).map h = f.prune (fun x => (a x).map h) (h ∘ g) := by
  rw [← Form.prune_eq_map fun _ _ => rfl, Form.prune_prune]
  exact Form.prune_congr (fun c _ => Option.map_eq_bind.symm) fun _ _ => rfl

namespace Node

variable {p q : NodeId → Bool}

theorem isEmptyDeclaration_delete (h : isEmptyDeclaration t.form) : isEmptyDeclaration (delete q t).form := by
  obtain ⟨m, f⟩ := t
  cases f with
  | declaration kind declarators =>
    cases declarators with
    | nil => rw [delete_node]; rfl
    | cons => cases h
  | _ => cases h

theorem delete?_delete (twice : delete p (delete q t) = delete (fun id => q id || p id) t) :
    (delete? q t).bind (delete? p) = delete? (fun id => q id || p id) t := by
  apply Option.ext
  intro k
  rw [Option.bind_eq_some_iff]
  constructor
  · rintro ⟨c, first, second⟩
    obtain ⟨spared, full, rfl⟩ := delete?_eq_some.mp first
    obtain ⟨spared', full', rfl⟩ := delete?_eq_some.mp second
    rw [mark_delete] at spared'
    refine delete?_eq_some.mpr ⟨by simp [spared, spared'], ?_, twice⟩
    rw [← twice]
    grind [isEmptied]
  · intro both
    obtain ⟨spared, full, rfl⟩ := delete?_eq_some.mp both
    rw [← twice] at full
    -- a declaration that is empty once stays empty
    have empties : isEmptyDeclaration t.form → isEmptyDeclaration (delete q t).form := isEmptyDeclaration_delete
    have stays : isEmptyDeclaration (delete q t).form → isEmptyDeclaration (delete p (delete q t)).form :=
      isEmptyDeclaration_delete
    refine ⟨_, delete?_eq_some.mpr ⟨?_, ?_, rfl⟩, delete?_eq_some.mpr ⟨?_, ?_, twice.symm⟩⟩
    · exact fun doomed => spared (by simp [doomed])
    · grind [isEmptied]
    · rw [mark_delete]
      exact fun doomed => spared (by simp [doomed])
    · grind [isEmptied]

theorem delete_delete (p q : NodeId → Bool) (t : Node) : delete p (delete q t) = delete (fun id => q id || p id) t := by
  induction t with
  | node m f ih =>
    rw [delete_node, delete_node, delete_node, Form.prune_prune]
    exact congrArg _ (Form.prune_congr (fun c hc => delete?_delete (ih c hc)) fun c hc => ih c hc)

theorem delete_nothing (t : Node) : delete (fun _ => false) t = t := by
  induction t with
  | node m f ih =>
    have kept : ∀ c ∈ f.children, delete? (fun _ => false) c = some c := by
      intro c hc
      rw [delete?_eq_some, ih c hc, isEmptied]
      simp
    rw [delete_node, Form.prune_congr kept ih, Form.prune_eq_map fun _ _ => rfl, Form.map_id]

/-- The identifier that takes the place of a node, under the same identity. -/
def relabel (names : NodeId → Option Text) (n : Node) : Option Node :=
  (names n.mark).map fun name => .node n.mark (.identifier name)

/-- Only identifiers of a tree get other names. -/
def OnNames (names : NodeId → Option Text) (t : Node) : Prop := ∀ n ∈ t.walk, (names n.mark).isSome → n.form.isName

section Renaming

variable {names later : NodeId → Option Text}

theorem OnNames.child {f : Form Node} (h : OnNames names (.node m f)) {c : Node} (hc : c ∈ f.children) :
    OnNames names c := fun n hn => h n (mem_walk_of_child m hc hn)

theorem OnNames.leaf {f : Form Node} (h : OnNames names (.node m f)) {name : Text} (named : names m = some name) :
    ∃ x, f = .identifier x := by
  obtain ⟨_, x, same⟩ := form_of_isName (h _ (self_mem_walk _) (by rw [mark_node, named]; rfl))
  cases same
  exact ⟨x, rfl⟩

theorem OnNames.delete (h : OnNames names t) : OnNames names (delete q t) := by
  intro n hn named
  obtain ⟨k, hk, rfl⟩ := mem_walk_delete hn
  rw [mark_delete] at named
  obtain ⟨m, x, leaf⟩ := form_of_isName (h k hk named)
  rw [leaf, delete_node]
  rfl

theorem substitute_relabel_some (names : NodeId → Option Text) {name : Text} (h : names m = some name) (f : Form Node) :
    substitute (relabel names) (.node m f) = .node m (.identifier name) :=
  substitute_of_some (by rw [relabel, mark_node, h]; rfl)

theorem substitute_relabel_none (names : NodeId → Option Text) (h : names m = none) (f : Form Node) :
    substitute (relabel names) (.node m f) = .node m (f.map (substitute (relabel names))) :=
  substitute_of_none (by rw [relabel, mark_node, h]; rfl)

theorem mark_relabelled (t : Node) : (substitute (relabel names) t).mark = t.mark := by
  obtain ⟨m, f⟩ := t
  cases named : names m with
  | some name => rw [substitute_relabel_some _ named]; rfl
  | none => rw [substitute_relabel_none _ named]; rfl

theorem relabel_relabel (agree : ∀ m x y, names m = some x → later m = some y → x = y) (t : Node) :
    substitute (relabel later) (substitute (relabel names) t) = substitute (relabel fun m => (names m).or (later m)) t := by
  induction t with
  | node m f ih =>
    cases named : names m with
    | some x =>
      have both : (names m).or (later m) = some x := by rw [named]; rfl
      rw [substitute_relabel_some _ named, substitute_relabel_some (fun m => (names m).or (later m)) both]
      cases again : later m with
      | some y => rw [substitute_relabel_some _ again, agree m x y named again]
      | none => rw [substitute_relabel_none _ again]; rfl
    | none =>
      have both : (names m).or (later m) = later m := by rw [named]; rfl
      rw [substitute_relabel_none _ named]
      cases again : later m with
      | some y => rw [substitute_relabel_some _ again, substitute_relabel_some (fun m => (names m).or (later m)) (both.trans again)]
      | none =>
        rw [substitute_relabel_none _ again, substitute_relabel_none (fun m => (names m).or (later m)) (both.trans again), Form.map_map]
        exact congrArg _ (Form.map_congr ih)

theorem isEmptyDeclaration_relabelled (h : OnNames names t) :
    isEmptyDeclaration (substitute (relabel names) t).form = isEmptyDeclaration t.form := by
  obtain ⟨m, f⟩ := t
  cases named : names m with
  | some x =>
    obtain ⟨_, rfl⟩ := h.leaf named
    rw [substitute_relabel_some _ named]
    rfl
  | none =>
    rw [substitute_relabel_none _ named]
    exact isEmptyDeclaration_map _ f

theorem relabel_delete? (h : OnNames names t)
    (either : substitute (relabel names) (delete q t) = delete q (substitute (relabel names) t)) :
    (delete? q t).map (substitute (relabel names)) = delete? q (substitute (relabel names) t) := by
  have emptied : isEmptied (substitute (relabel names) t).form (delete q (substitute (relabel names) t)).form =
      isEmptied t.form (delete q t).form := by
    rw [← either, isEmptied, isEmptied, isEmptyDeclaration_relabelled h, isEmptyDeclaration_relabelled h.delete]
  rw [delete?, delete?, mark_relabelled, emptied, ← either]
  split <;> rfl

theorem relabel_delete (h : OnNames names t) :
    substitute (relabel names) (delete q t) = delete q (substitute (relabel names) t) := by
  induction t with
  | node m f ih =>
    cases named : names m with
    | some x =>
      obtain ⟨_, rfl⟩ := h.leaf named
      rw [substitute_relabel_some _ named, delete_node, substitute_relabel_some _ named, delete_node]
      rfl
    | none =>
      rw [delete_node, substitute_relabel_none _ named, substitute_relabel_none _ named, delete_node, Form.map_prune,
        Form.prune_map]
      exact congrArg _ (Form.prune_congr (fun c hc => relabel_delete? (h.child hc) (ih c hc (h.child hc)))
        fun c hc => ih c hc (h.child hc))

theorem walk_relabelled (h : OnNames names t) :
    (substitute (relabel names) t).walk = t.walk.map (substitute (relabel names)) := by
  induction t with
  | node m f ih =>
    cases named : names m with
    | some x =>
      obtain ⟨_, rfl⟩ := h.leaf named
      rw [walk_node, List.map_cons, substitute_relabel_some _ named, walk_node]
      rfl
    | none =>
      rw [walk_node, List.map_cons, substitute_relabel_none _ named, walk_node, children_map, List.flatMap_map,
        List.map_flatMap]
      exact congrArg _ (List.flatMap_congr fun c hc => ih c hc (h.child hc))

theorem ids_relabelled (h : OnNames names t) : (substitute (relabel names) t).ids = t.ids := by
  rw [ids, ids, walk_relabelled h, List.map_map]
  exact List.map_congr_left fun n _ => mark_relabelled n

end Renaming

end Node

end Unravel
