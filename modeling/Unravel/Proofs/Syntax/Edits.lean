import Unravel.Proofs.Syntax.Places

/-! What substitution and deletion do to a tree: which nodes are left, under which identities, and that the tree stays
   grammatical. -/
namespace Unravel

open List

variable {ρ σ : Type} {c k n t : Node} {m x : NodeId} {f : Form Node}

theorem Form.prune_map {τ : Type} (a : σ → Option τ) (g : σ → τ) (h : ρ → σ) (f : Form ρ) :
    (f.map h).prune a g = f.prune (a ∘ h) (g ∘ h) := by
  cases f <;> simp [prune, map, visit, visitOption_id, mapM_id, filterMap_map, Function.comp_def,
    Option.bind_map]

theorem Form.prune_congr {a b : ρ → Option σ} {g h : ρ → σ} {f : Form ρ} (maybe : ∀ c ∈ f.children, a c = b c)
    (always : ∀ c ∈ f.children, g c = h c) : f.prune a g = f.prune b h := by
  have all : ∀ ts : List ρ, (∀ c ∈ ts, a c = b c) → ts.filterMap a = ts.filterMap b := fun _ => filterMap_congr
  cases f <;> simp_all [prune, visit, visitOption_id, mapM_id, children]
  case function p b n i => cases n <;> simp_all
  case declarator i x => cases x <;> simp_all
  case returnStatement x => cases x <;> simp_all
  case ifStatement t c a => cases a <;> simp_all
  case forStatement i t u b => cases i <;> cases t <;> cases u <;> simp_all
  case tryStatement b p h y => cases h <;> cases y <;> cases p <;> simp_all

theorem Form.prune_eq_map {a : ρ → Option σ} {g : ρ → σ} {f : Form ρ}
    (kept : ∀ c ∈ f.children, a c = some (g c)) : f.prune a g = f.map g := by
  rw [Form.prune_congr kept fun _ _ => rfl]
  cases f <;> simp [prune, map, visit, visitOption_id, mapM_id, filterMap_eq_map', Option.map_eq_bind,
    Function.comp_def]

theorem Form.prune_declarator (a : ρ → Option σ) (g : ρ → σ) (n : ρ) (x : Option ρ) :
    (Form.declarator n x).prune a g = .declarator (g n) (x.bind a) := by cases x <;> rfl

namespace Node

section Deletion

variable {doomed : NodeId → Bool}

/-- What deletion leaves in a place that may become empty. -/
def delete? (doomed : NodeId → Bool) (t : Node) : Option Node :=
  if doomed t.mark ∨ isEmptied t.form (delete doomed t).form then none else some (delete doomed t)

theorem isEmptyDeclaration_map (g : ρ → σ) (f : Form ρ) :
    isEmptyDeclaration (f.map g) = isEmptyDeclaration f := by
  cases f with
  | declaration kind declarators => cases declarators <;> rfl
  | _ => rfl

theorem delete_node (doomed : NodeId → Bool) (m : NodeId) (f : Form Node) :
    delete doomed (.node m f) = .node m (f.prune (delete? doomed) (delete doomed)) := by
  unfold delete
  rw [Tree.fold_node]
  simp only [Form.prune_map]
  congr 2
  funext t
  cases t with
  | node k g =>
    simp only [Function.comp, delete?, delete, Tree.fold_node, isEmptied, isEmptyDeclaration_map]
    rfl

theorem mark_delete (t : Node) : (delete doomed t).mark = t.mark := by
  cases t with
  | node m f =>
    rw [delete_node]
    rfl

theorem delete_eq_identifier {x : Text} (h : delete doomed t = .node m (.identifier x)) :
    t = .node m (.identifier x) := by
  cases t with
  | node k f =>
    rw [delete_node] at h
    cases f <;> cases h
    rfl

theorem delete?_eq_some :
    delete? doomed t = some k ↔ ¬ doomed t.mark ∧ ¬ isEmptied t.form (delete doomed t).form ∧ k = delete doomed t := by
  rw [delete?]
  split
  · grind
  · grind

/-- The places after a deletion are those that had to stay filled and those whose content was kept. -/
theorem mem_places_delete {q : Place Node} :
    q ∈ (f.prune (delete? doomed) (delete doomed)).places ↔
      ∃ p ∈ f.places, q = p.map (delete doomed) ∧ (p.isRequired ∨ (delete? doomed p.tree).isSome) := by
  rw [Form.places_prune, mem_filterMap]
  refine exists_congr fun p => and_congr_right fun _ => ?_
  rw [Place.prune]
  by_cases required : p.isRequired
  · simp only [required, ↓reduceIte, Option.some.injEq, true_or, and_true]
    exact eq_comm
  · cases kept : delete? doomed p.tree with
    | none => simp [required]
    | some k =>
      obtain ⟨-, -, rfl⟩ := delete?_eq_some.mp kept
      rw [if_neg required, Option.map_some, Option.some.injEq]
      simp only [Option.isSome_some, or_true, and_true]
      exact eq_comm

theorem mem_children_delete
    (h : c ∈ (f.prune (delete? doomed) (delete doomed)).children) : ∃ d ∈ f.children, c = delete doomed d := by
  obtain ⟨q, hq, rfl⟩ := Form.mem_children.mp h
  obtain ⟨p, hp, rfl, -⟩ := mem_places_delete.mp hq
  exact ⟨p.tree, place_mem_children hp, rfl⟩

theorem mem_walk_delete (h : n ∈ (delete doomed t).walk) : ∃ k ∈ t.walk, n = delete doomed k := by
  induction t with
  | node m f ih =>
    rw [delete_node] at h
    rcases mem_walk_node.mp h with rfl | ⟨c, hc, hn⟩
    · exact ⟨.node m f, self_mem_walk _, (delete_node doomed m f).symm⟩
    · obtain ⟨d, hd, rfl⟩ := mem_children_delete hc
      obtain ⟨k, hk, same⟩ := ih d hd hn
      exact ⟨k, mem_walk_of_child m hd hk, same⟩

theorem ids_delete_sublist (t : Node) : (delete doomed t).ids.Sublist t.ids := by
  induction t with
  | node m f ih =>
    rw [delete_node, ids_node, ids_node, ← Form.tree_places, ← Form.tree_places, Form.places_prune]
    have each : ∀ p ∈ f.places, (delete doomed p.tree).ids.Sublist (ids p.tree) :=
      fun p hp => ih p.tree (place_mem_children hp)
    refine List.Sublist.cons_cons m ?_
    generalize f.places = places at each
    induction places with
    | nil => exact List.Sublist.refl _
    | cons p rest keeps =>
      have rest_kept := keeps fun q hq => each q (.tail p hq)
      have here := each p (.head _)
      simp only [filterMap_cons, map_cons, flatMap_cons]
      cases kept : Place.prune (delete? doomed) (delete doomed) p with
      | none => exact rest_kept.trans (sublist_append_right _ _)
      | some q =>
        have content : q.tree = delete doomed p.tree := by
          rw [Place.prune] at kept
          split at kept
          · cases kept
            rfl
          · obtain ⟨k, hk, rfl⟩ := Option.map_eq_some_iff.mp kept
            exact (delete?_eq_some.mp hk).2.2
        simp only [map_cons, flatMap_cons, content]
        exact here.append rest_kept

theorem Distinct.delete (h : Distinct t) : Distinct (delete doomed t) :=
  List.Nodup.sublist (ids_delete_sublist t) h

theorem grammatical_delete (h : t.Grammatical) : (delete doomed t).Grammatical := by
  intro n hn q hq
  obtain ⟨k, hk, rfl⟩ := mem_walk_delete hn
  cases k with
  | node m f =>
    rw [delete_node] at hq
    obtain ⟨p, hp, rfl, -⟩ := mem_places_delete.mp hq
    have admitted := h _ hk p hp
    cases tree : p.tree with
    | node x g =>
      simp only [Place.map, tree, delete_node, Tree.form, Role.admits_prune] at admitted ⊢
      exact admitted

theorem not_mem_ids_delete (distinct : Distinct t) (grammatical : t.Grammatical)
    (hn : n ∈ t.walk) (below : n ≠ t) (condemned : doomed n.mark) (removable : n.form.isRemovable) (hx : x ∈ n.ids) :
    x ∉ (delete doomed t).ids := by
  induction t with
  | node m f ih =>
    rcases mem_walk_node.mp hn with rfl | ⟨c, hc, hn⟩
    · exact absurd rfl below
    intro left
    rw [delete_node] at left
    have xc : x ∈ ids c := ids_subset hn hx
    rcases mem_ids_node.mp left with rfl | ⟨d, hd, xd⟩
    · exact (distinct_node distinct).1 c hc xc
    obtain ⟨q, hq, rfl⟩ := Form.mem_children.mp hd
    obtain ⟨p, hp, rfl, kept⟩ := mem_places_delete.mp hq
    have same : p.tree = c :=
      distinct.same_child (place_mem_children hp) hc ((ids_delete_sublist p.tree).subset xd) xc
    by_cases top : n = c
    · -- the place of a removable node is never required
      have admitted := (grammatical_node.mp grammatical).1 p hp
      rcases kept with required | kept
      · rw [same, ← top] at admitted
        exact Role.not_removable_of_required hp required admitted removable
      · obtain ⟨k, hk⟩ := Option.isSome_iff_exists.mp kept
        rw [same, ← top] at hk
        exact (delete?_eq_some.mp hk).1 condemned
    · exact ih c hc (distinct.child hc) (grammatical.child hc) hn top (same ▸ xd)

theorem of_isEmptyDeclaration (h : isEmptyDeclaration f) : f.isDeclaration ∧ f.children = [] := by
  cases f with
  | declaration k d =>
    cases d with
    | nil => exact ⟨rfl, rfl⟩
    | cons x xs => cases h
  | _ => cases h

theorem of_isEmptied {before : Form ρ} {after : Form Node} (h : isEmptied before after) :
    after.isDeclaration ∧ after.children = [] := by
  rw [isEmptied, Bool.and_eq_true] at h
  exact of_isEmptyDeclaration h.1

theorem mem_ids_delete (distinct : Distinct t) (hk : k ∈ t.walk) (plain : ¬ k.form.isDeclaration)
    (safe : ∀ n ∈ t.walk, n ≠ t → k ∈ n.walk → ¬ doomed n.mark) :
    k.mark ∈ (delete doomed t).ids ∧ (¬ doomed t.mark → (delete? doomed t).isSome) := by
  induction t with
  | node m f ih =>
    have kept_unless : (¬ isEmptied f (delete doomed (.node m f)).form) →
        ¬ doomed m → (delete? doomed (.node m f)).isSome :=
      fun full spared => Option.isSome_iff_exists.mpr ⟨_, delete?_eq_some.mpr ⟨spared, full, rfl⟩⟩
    rcases mem_walk_node.mp hk with rfl | ⟨c, hc, hk⟩
    · refine ⟨by rw [delete_node]; exact mem_ids_node.mpr (Or.inl rfl), kept_unless ?_⟩
      intro empty
      rw [delete_node] at empty
      have declaration := (of_isEmptied empty).1
      exact plain (by cases f <;> exact declaration)
    · have apart : ∀ n ∈ c.walk, n ≠ .node m f := by
        rintro n hn rfl
        exact (distinct_node distinct).1 c hc (mark_mem_ids hn)
      have inside : ∀ n ∈ c.walk, n ∈ Tree.walk (.node m f) := fun n => mem_walk_of_child m hc
      have spared : ¬ doomed c.mark :=
        safe c (inside c (self_mem_walk c)) (apart c (self_mem_walk c)) hk
      obtain ⟨left, kept⟩ := ih c hc (distinct.child hc) hk fun n hn _ => safe n (inside n hn) (apart n hn)
      obtain ⟨p, hp, rfl⟩ := Form.mem_children.mp hc
      have stays : delete doomed p.tree ∈ (f.prune (delete? doomed) (delete doomed)).children :=
        Form.mem_children.mpr ⟨_, mem_places_delete.mpr ⟨p, hp, rfl, Or.inr (kept spared)⟩, rfl⟩
      refine ⟨?_, kept_unless ?_⟩
      · rw [delete_node]
        exact mem_ids_of_child m stays left
      · intro empty
        rw [delete_node] at empty
        have bare : (f.prune (delete? doomed) (delete doomed)).children = [] := (of_isEmptied empty).2
        rw [bare] at stays
        cases stays

theorem IsFunctionTree.delete {root : Node} (h : root.IsFunctionTree) : (delete doomed root).IsFunctionTree where
  function := by
    obtain ⟨m, params, body, name, isArrow, rfl⟩ := h.exists_node
    rw [delete_node]
    cases name <;> exact ⟨_, _, _, _, rfl⟩
  distinct := h.distinct.delete
  grammatical := grammatical_delete h.grammatical

end Deletion

section Substitution

variable {new : Node → Option Node}

theorem substitute_node (new : Node → Option Node) (m : NodeId) (f : Form Node) :
    substitute new (.node m f) = (new (.node m f)).getD (.node m (f.map (substitute new))) := by
  simp only [substitute, para_node, Form.map_fst_pair, Form.map_snd_pair]
  rfl

theorem substitute_of_none (h : new (.node m f) = none) :
    substitute new (.node m f) = .node m (f.map (substitute new)) := by
  rw [substitute_node, h]
  rfl

theorem substitute_of_some {r : Node} (h : new t = some r) : substitute new t = r := by
  cases t with
  | node m f =>
    rw [substitute_node, h]
    rfl

theorem substitute_eq_identifier {x : Text} (kept : new t = none)
    (h : substitute new t = .node m (.identifier x)) : t = .node m (.identifier x) := by
  cases t with
  | node k f =>
    rw [substitute_of_none kept] at h
    cases f <;> cases h
    rfl

theorem mem_walk_substitute (h : n ∈ (substitute new t).walk) :
    (∃ k ∈ t.walk, new k = none ∧ n = substitute new k) ∨ ∃ k ∈ t.walk, ∃ r, new k = some r ∧ n ∈ r.walk := by
  induction t with
  | node m f ih =>
    cases replaced : new (.node m f) with
    | some r =>
      rw [substitute_of_some replaced] at h
      exact Or.inr ⟨_, self_mem_walk _, r, replaced, h⟩
    | none =>
      rw [substitute_of_none replaced] at h
      rcases mem_walk_node.mp h with rfl | ⟨d, hd, hn⟩
      · exact Or.inl ⟨_, self_mem_walk _, replaced, (substitute_of_none replaced).symm⟩
      · rw [children_map] at hd
        obtain ⟨c, hc, rfl⟩ := mem_map.mp hd
        rcases ih c hc hn with ⟨k, hk, kept⟩ | ⟨k, hk, gone⟩
        · exact Or.inl ⟨k, mem_walk_of_child m hc hk, kept⟩
        · exact Or.inr ⟨k, mem_walk_of_child m hc hk, gone⟩

theorem mark_substitute (h : new t = none) : (substitute new t).mark = t.mark := by
  cases t with
  | node m f =>
    rw [substitute_of_none h]
    rfl

/-- A tree stays grammatical if its replacements are, and each fits the places of what it replaces. -/
theorem grammatical_substitute (h : t.Grammatical)
    (grammatical : ∀ k ∈ t.walk, ∀ r, new k = some r → r.Grammatical)
    (fits : ∀ n ∈ t.walk, ∀ p ∈ n.form.places, ∀ r, new p.tree = some r → p.role.admits r.form) :
    (substitute new t).Grammatical := by
  intro n hn q hq
  rcases mem_walk_substitute hn with ⟨k, hk, kept, rfl⟩ | ⟨k, hk, r, replaced, hr⟩
  · cases k with
    | node m f =>
      rw [substitute_of_none kept] at hq
      simp only [Tree.form, Form.places_map, mem_map] at hq
      obtain ⟨p, hp, rfl⟩ := hq
      cases replaced : new p.tree with
      | some r =>
        have content : (p.map (substitute new)).tree = r := substitute_of_some replaced
        rw [content]
        exact fits _ hk p hp r replaced
      | none =>
        have admitted := h _ hk p hp
        cases tree : p.tree with
        | node x g =>
          rw [tree] at replaced admitted
          simp only [Place.map, tree, substitute_of_none replaced, Tree.form, Role.admits_map] at admitted ⊢
          exact admitted
  · exact grammatical k hk r replaced n hr q hq

theorem mem_ids_substitute (h : x ∈ (substitute new t).ids) :
    x ∈ t.ids ∨ ∃ k ∈ t.walk, ∃ r, new k = some r ∧ x ∈ r.ids := by
  obtain ⟨n, hn, rfl⟩ := mem_ids.mp h
  rcases mem_walk_substitute hn with ⟨k, hk, kept, rfl⟩ | ⟨k, hk, r, replaced, hr⟩
  · rw [mark_substitute kept]
    exact Or.inl (mark_mem_ids hk)
  · exact Or.inr ⟨k, hk, r, replaced, mark_mem_ids hr⟩

/-- Replacements bring identities of their own: none from elsewhere in the tree, and no two the same. -/
structure Separate (new : Node → Option Node) (t : Node) : Prop where
  distinct : ∀ k ∈ t.walk, ∀ r, new k = some r → Distinct r
  fresh : ∀ k ∈ t.walk, ∀ r, new k = some r → ∀ x ∈ ids r, x ∈ t.ids → x ∈ ids k
  apart : ∀ k ∈ t.walk, ∀ r, new k = some r → ∀ l ∈ t.walk, ∀ s, new l = some s →
    ∀ x ∈ ids r, x ∈ ids s → k = l

theorem Separate.child (h : Separate new (.node m f)) (hc : c ∈ f.children) :
    Separate new c := by
  have inside : ∀ k ∈ c.walk, k ∈ Tree.walk (.node m f) := fun k => mem_walk_of_child m hc
  constructor
  · exact fun k hk => h.distinct k (inside k hk)
  · exact fun k hk r replaced x hx xc => h.fresh k (inside k hk) r replaced x hx (mem_ids_of_child m hc xc)
  · exact fun k hk r replaced l hl => h.apart k (inside k hk) r replaced l (inside l hl)

theorem Separate.single {fresh : Node} (distinct : Distinct t) (new_distinct : Distinct fresh)
    (apart : ∀ x ∈ fresh.ids, x ∉ t.ids) (old : NodeId) :
    Separate (fun n => if n.mark = old then some fresh else none) t := by
  have only : ∀ k r : Node, (if k.mark = old then some fresh else none) = some r → k.mark = old ∧ r = fresh := by
    intro k r replaced
    split at replaced
    · next same => exact ⟨same, (Option.some.inj replaced).symm⟩
    · cases replaced
  constructor
  · intro k _ r replaced
    rw [(only k r replaced).2]
    exact new_distinct
  · intro k _ r replaced x hx known
    rw [(only k r replaced).2] at hx
    exact absurd known (apart x hx)
  · intro k hk r replaced l hl s replaced' x _ _
    exact distinct.same_node hk hl ((only k r replaced).1.trans (only l s replaced').1.symm)

theorem Separate.same_child (h : Separate new (.node m f)) (distinct : Distinct (.node m f))
    {d : Node} (hc : c ∈ f.children) (hd : d ∈ f.children) (xc : x ∈ (substitute new c).ids)
    (xd : x ∈ (substitute new d).ids) : c = d := by
  have inside : ∀ e ∈ f.children, ∀ k ∈ e.walk, k ∈ Tree.walk (.node m f) := fun e he k => mem_walk_of_child m he
  rcases mem_ids_substitute xc with old | ⟨k, hk, r, replaced, hr⟩
  · rcases mem_ids_substitute xd with old' | ⟨l, hl, s, replaced', hs⟩
    · exact distinct.same_child hc hd old old'
    · have xl := h.fresh l (inside d hd l hl) s replaced' x hs (mem_ids_of_child m hc old)
      exact distinct.same_child hc hd old (ids_subset hl xl)
  · rcases mem_ids_substitute xd with old' | ⟨l, hl, s, replaced', hs⟩
    · have xk := h.fresh k (inside c hc k hk) r replaced x hr (mem_ids_of_child m hd old')
      exact distinct.same_child hc hd (ids_subset hk xk) old'
    · have same := h.apart k (inside c hc k hk) r replaced l (inside d hd l hl) s replaced' x hr hs
      subst same
      exact distinct.same_child hc hd (mark_mem_ids hk) (mark_mem_ids hl)

theorem Distinct.substitute (distinct : Distinct t) (h : Separate new t) : Distinct (substitute new t) := by
  induction t with
  | node m f ih =>
    cases replaced : new (.node m f) with
    | some r =>
      rw [substitute_of_some replaced]
      exact h.distinct _ (self_mem_walk _) r replaced
    | none =>
      obtain ⟨fresh, each, apart⟩ := distinct_node distinct
      rw [substitute_of_none replaced, Distinct, ids_node, nodup_cons, children_map, flatMap_map,
        nodup_flatMap]
      refine ⟨?_, fun c hc => ih c hc (each c hc) (h.child hc), ?_⟩
      · intro hm
        obtain ⟨c, hc, hm⟩ := mem_flatMap.mp hm
        rcases mem_ids_substitute hm with old | ⟨k, hk, r, replaced, hr⟩
        · exact fresh c hc old
        · have xk := h.fresh k (mem_walk_of_child m hc hk) r replaced m hr (mem_ids_node.mpr (Or.inl rfl))
          exact fresh c hc (ids_subset hk xk)
      · refine List.Pairwise.imp_of_mem ?_ apart
        intro c d hc hd disjoint x xc xd
        have same := h.same_child distinct hc hd xc xd
        subst same
        exact disjoint (mark_mem_ids (self_mem_walk c)) (mark_mem_ids (self_mem_walk c))

theorem mem_ids_substitute_iff (distinct : Distinct t) (hx : x ∈ t.ids)
    (fresh : ∀ k ∈ t.walk, ∀ r, new k = some r → x ∉ ids r) :
    x ∈ (substitute new t).ids ↔ ∀ k ∈ t.walk, (new k).isSome → x ∉ ids k := by
  induction t with
  | node m f ih =>
    cases replaced : new (.node m f) with
    | some r =>
      rw [substitute_of_some replaced]
      constructor
      · intro left
        exact absurd left (fresh _ (self_mem_walk _) r replaced)
      · intro outside
        exact absurd hx (outside _ (self_mem_walk _) (by rw [replaced]; rfl))
    | none =>
      rw [substitute_of_none replaced, mem_ids_node, children_map]
      have inside : ∀ c ∈ f.children, ∀ k ∈ c.walk, k ∈ Tree.walk (.node m f) := fun c hc k => mem_walk_of_child m hc
      constructor
      · intro left k hk gone xk
        rcases mem_walk_node.mp hk with rfl | ⟨c, hc, hk⟩
        · rw [replaced] at gone
          cases gone
        have xc : x ∈ ids c := ids_subset hk xk
        rcases left with rfl | ⟨d, hd, left⟩
        · exact (distinct_node distinct).1 c hc xc
        obtain ⟨e, he, rfl⟩ := mem_map.mp hd
        have same : e = c := by
          rcases mem_ids_substitute left with old | ⟨l, hl, s, replaced', hs⟩
          · exact distinct.same_child he hc old xc
          · exact absurd hs (fresh l (inside e he l hl) s replaced')
        subst same
        rw [ih e hc (distinct.child hc) xc fun k hk => fresh k (inside e hc k hk)] at left
        exact left k hk gone xk
      · intro outside
        rcases mem_ids_node.mp hx with rfl | ⟨c, hc, xc⟩
        · exact Or.inl rfl
        · refine Or.inr ⟨_, mem_map_of_mem hc, ?_⟩
          rw [ih c hc (distinct.child hc) xc fun k hk => fresh k (inside c hc k hk)]
          exact fun k hk => outside k (inside c hc k hk)

theorem IsFunctionTree.substitute {root : Node} (h : root.IsFunctionTree) (kept : new root = none)
    (separate : Separate new root) (grammatical : ∀ k ∈ root.walk, ∀ r, new k = some r → r.Grammatical)
    (fits : ∀ n ∈ root.walk, ∀ p ∈ n.form.places, ∀ r, new p.tree = some r → p.role.admits r.form) :
    (substitute new root).IsFunctionTree where
  function := by
    obtain ⟨m, params, body, name, isArrow, rfl⟩ := h.exists_node
    rw [substitute_of_none kept]
    exact ⟨_, _, _, _, rfl⟩
  distinct := h.distinct.substitute separate
  grammatical := grammatical_substitute h.grammatical grammatical fits

/-- The nodes of a tree that are in no replaced subtree, or are one. -/
def front (new : Node → Option Node) (t : Node) : List Node :=
  t.para fun m f => .node m (f.map (·.1)) :: if (new (.node m (f.map (·.1)))).isSome then [] else f.children.flatMap (·.2)

theorem front_node (m : NodeId) (f : Form Node) :
    front new (.node m f) = .node m f :: if (new (.node m f)).isSome then [] else f.children.flatMap (front new) := by
  rw [front, para_node, Form.map_fst_pair, children_map, flatMap_map]
  rfl

theorem front_sublist (t : Node) : (front new t).Sublist t.walk := by
  induction t with
  | node m f ih =>
    rw [front_node, walk_node]
    refine List.Sublist.cons_cons _ ?_
    split
    · exact nil_sublist _
    · exact List.Sublist.flatMap_right _ ih

theorem mem_front_node :
    n ∈ front new (.node m f) ↔ n = .node m f ∨ new (.node m f) = none ∧ ∃ c ∈ f.children, n ∈ front new c := by
  rw [front_node, mem_cons]
  cases new (.node m f) <;> simp

theorem walk_substitute (leaves : ∀ n k, new n = some k → k.walk = [k]) (t : Node) :
    (substitute new t).walk = (front new t).map (substitute new) := by
  induction t with
  | node m f ih =>
    rw [front_node]
    cases replaced : new (.node m f) with
    | some k =>
      rw [substitute_of_some replaced, leaves _ k replaced, Option.isSome_some, if_pos rfl, map_singleton,
        substitute_of_some replaced]
    | none =>
      rw [substitute_of_none replaced, walk_node, children_map, flatMap_map, Option.isSome_none,
        if_neg Bool.false_ne_true, map_cons, substitute_of_none replaced, map_flatMap]
      congr 1
      exact flatMap_congr ih

theorem self_mem_front (t : Node) : t ∈ front new t := by
  obtain ⟨m, f⟩ := t
  exact mem_front_node.mpr (.inl rfl)

theorem front_trans (hn : n ∈ front new t) (hk : k ∈ front new n) : k ∈ front new t := by
  induction t with
  | node m f ih =>
    rcases mem_front_node.mp hn with rfl | ⟨outer, d, hd, hn⟩
    · exact hk
    · exact mem_front_node.mpr (.inr ⟨outer, d, hd, ih d hd hn⟩)

theorem front_child (hn : n ∈ front new t) (kept : new n = none) (hc : c ∈ n.children) : c ∈ front new t := by
  obtain ⟨m, f⟩ := n
  exact front_trans hn (mem_front_node.mpr (.inr ⟨kept, c, hc, self_mem_front c⟩))

/-- No replaced subtree stands in a tree. -/
def Untouched (new : Node → Option Node) (t : Node) : Prop := ∀ n ∈ t.walk, new n = none

instance (new : Node → Option Node) (t : Node) : Decidable (Untouched new t) :=
  inferInstanceAs (Decidable (∀ n ∈ t.walk, new n = none))

theorem Untouched.child (h : Untouched new (.node m f)) (hc : c ∈ f.children) :
    Untouched new c := fun n hn => h n (mem_walk_of_child m hc hn)

theorem Untouched.substitute_eq (h : Untouched new t) : substitute new t = t := by
  induction t with
  | node m f ih =>
    rw [substitute_of_none (h _ (self_mem_walk _)), Form.map_congr fun c hc => ih c hc (h.child hc), Form.map_id]

theorem Untouched.mem_front (hn : n ∈ front new t) (h : Untouched new n) (hk : k ∈ n.walk) : k ∈ front new t := by
  induction n with
  | node m f ih =>
    rcases mem_walk_node.mp hk with rfl | ⟨c, hc, hk⟩
    · exact hn
    · exact ih c hc (front_child hn (h _ (self_mem_walk _)) hc) (h.child hc) hk

end Substitution

end Node

end Unravel
