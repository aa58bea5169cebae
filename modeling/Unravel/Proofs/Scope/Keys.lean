import Unravel.Proofs.Scope.Sights

/-! Where declarations come from. Every declaration of a scope is kept under the identity of a node, and no two
   declarations of a tree are kept under the same one. -/
namespace Unravel

open List

variable {d : Declaration} {n root : Node} {f : Frame} {b : BindingId} {r : Reference} {record : Binding}

namespace Node

theorem mem_hoisted {t : Node} (h : d ∈ t.hoisted) : ∃ n ∈ t.walk, d ∈ n.form.own n.mark := by
  induction t with
  | node m f ih =>
    rw [hoisted_node, mem_append] at h
    rcases h with own | below
    · exact ⟨_, self_mem_walk _, own⟩
    · split at below
      next => cases below
      next =>
        obtain ⟨p, hp, hd⟩ := mem_flatMap.mp below
        have hc := place_mem_children (mem_of_mem_filter hp)
        obtain ⟨n, hn, own⟩ := ih p.tree hc hd
        exact ⟨n, mem_walk_of_child m hc hn, own⟩

/-- The identities under which a node keeps the declarations of its scope. -/
def openKeys (n : Node) : List NodeId := (n.opening.toList.flatMap (·.declarations)).map (·.key)

/-- What a place contributes to the declarations of the construct around it. -/
def placeKeys (p : Place Node) : List NodeId :=
  if p.role.isSeen then if p.role.hoists then (hoisted p.tree).map (·.key) else [] else [p.tree.mark]

theorem hoisted_keys_sublist (places : List (Place Node)) :
    (((places.filter (·.role.hoists)).flatMap fun p => hoisted p.tree).map (·.key)).Sublist (places.flatMap placeKeys) := by
  induction places with
  | nil => exact List.Sublist.refl _
  | cons p rest ih =>
    rw [filter_cons, flatMap_cons]
    cases hoists : p.role.hoists with
    | false => exact ih.trans (sublist_append_right _ _)
    | true =>
      have seen : p.role.isSeen := by cases role : p.role <;> simp_all [Role.hoists, Role.isSeen]
      rw [if_pos rfl, flatMap_cons, map_append, placeKeys, if_pos seen, if_pos hoists]
      exact (List.Sublist.refl _).append ih

theorem placeKeys_names (ts : List Node) : (Place.free .name ts).flatMap placeKeys = ts.map Tree.mark := by
  rw [Place.flatMap_free, map_eq_flatMap]
  rfl

theorem placeKeys_statements (ts : List Node) :
    (Place.free .statement ts).flatMap placeKeys = (ts.flatMap hoisted).map (·.key) := by
  rw [Place.flatMap_free, map_flatMap]
  rfl

theorem placeKeys_inner (ts : List Node) : (Place.inner ts).flatMap placeKeys = (ts.flatMap hoisted).map (·.key) := by
  rw [Place.flatMap_inner, map_flatMap]
  rfl

theorem functionDeclarations_keys (id : NodeId) (name : Option Node) (params body : List Node) :
    (Resolution.functionDeclarations id name params body).map (·.key) =
      name.toList.map Tree.mark ++ params.map Tree.mark ++ (body.flatMap hoisted).map (·.key) := by
  simp only [Resolution.functionDeclarations, map_append, List.map_map]
  rfl

/-- A construct keeps declarations under its own identity, those of its declared names, and what its places hoist. -/
theorem count_declared (x m : NodeId) (f : Form Node) :
    ((hoisted (.node m f)).map (·.key)).count x + (openKeys (.node m f)).count x ≤
      [m].count x + (f.places.flatMap placeKeys).count x := by
  have hoists := (hoisted_keys_sublist f.places).count_le x
  rw [hoisted_node, map_append, count_append]
  cases f with
  | function p b n i =>
    have opens : openKeys (.node m (.function p b n i)) = _ :=
      (congrArg _ (flatMap_singleton _ _)).trans (functionDeclarations_keys m n p b)
    simp only [opens, Form.own, Form.isCallable, Form.places, flatMap_append, placeKeys_names, placeKeys_inner,
      count_append, map_nil, count_nil, if_true]
    omega
  | functionDeclaration n p b =>
    have opens : openKeys (.node m (.functionDeclaration n p b)) = _ :=
      (congrArg _ (flatMap_singleton _ _)).trans (functionDeclarations_keys m none p b)
    simp only [opens, Form.own, Form.isCallable, Form.places, flatMap_append, flatMap_cons, placeKeys_names,
      placeKeys_inner, count_append, map_nil, map_cons, count_nil, if_true, Option.toList_none]
    omega
  | tryStatement b p h y =>
    have opens : (openKeys (.node m (.tryStatement b p h y))).count x ≤ (p.toList.map Tree.mark).count x := by
      cases h <;> cases p <;> simp [openKeys, opening, Form.opening, Resolution.parameter]
    simp only [Form.own, Form.isCallable, Form.places, filter_append, Place.filter_role_free,
      Place.filter_role_inner, flatMap_append, placeKeys_names, placeKeys_inner, placeKeys_statements,
      count_append]
    simp only [Role.hoists, Place.flatMap_tree_free, Place.flatMap_tree_inner, if_true, Bool.false_eq_true, if_false,
      flatMap_nil, map_nil, count_nil, map_append, count_append]
    omega
  | declarator n i =>
    simp only [Form.own, Form.isCallable, openKeys, opening, Form.opening, form_node,
      Option.toList_none, flatMap_nil, map_nil, count_nil, Bool.false_eq_true, if_false, map_cons]
    omega
  | _ => simpa [Form.own, Form.isCallable, openKeys, opening, Form.opening] using Nat.le_add_left_of_le hoists

/-- All identities under which declarations of a tree are kept, those that it hoists first. -/
def keys (t : Node) (isWrite : Bool) (around : List Frame) : List NodeId :=
  t.hoisted.map (·.key) ++ (t.sights isWrite around).flatMap fun s => openKeys s.node

theorem count_below (x m : NodeId) (f : Form Node) (around : List Frame)
    (each : ∀ p ∈ f.places, ∀ isWrite around, (keys p.tree isWrite around).count x ≤ (ids p.tree).count x) :
    (f.places.flatMap placeKeys).count x +
        (((f.places.filter (·.role.isSeen)).flatMap fun p =>
          sights p.tree p.role.isTarget (f.around m p.isInner around)).flatMap fun s => openKeys s.node).count x ≤
      (f.children.flatMap ids).count x := by
  rw [← Form.tree_places, flatMap_map]
  generalize f.places = places at each
  induction places with
  | nil => simp
  | cons p rest ih =>
    have tail := ih fun q hq => each q (.tail p hq)
    have head := each p (.head _) p.role.isTarget (f.around m p.isInner around)
    rw [keys, count_append] at head
    rw [flatMap_cons, flatMap_cons, filter_cons, count_append, count_append, placeKeys]
    cases seen : p.role.isSeen with
    | true =>
      simp only [if_true, flatMap_cons, flatMap_append, count_append]
      split
      · omega
      · simp only [count_nil]
        omega
    | false =>
      have mark : [p.tree.mark].count x ≤ (ids p.tree).count x :=
        (singleton_sublist.mpr (mark_mem_ids (self_mem_walk _))).count_le x
      simp only [Bool.false_eq_true, if_false]
      omega

theorem count_keys (t : Node) (isWrite : Bool) (around : List Frame) (x : NodeId) :
    (t.keys isWrite around).count x ≤ t.ids.count x := by
  induction t generalizing isWrite around with
  | node m f ih =>
    have here := count_declared x m f
    have below := count_below x m f around fun p hp => ih p.tree (place_mem_children hp)
    simp only [keys, sights_node, flatMap_cons, count_append, ids_node, count_cons]
    simp only [count_cons, count_nil] at here
    omega

/-- No two declarations of a tree are kept under one identity. -/
theorem keys_nodup (distinct : root.Distinct) :
    ((root.frames.flatMap (·.declarations)).map (·.key)).Nodup := by
  have whole : (root.keys false [root.outermost]).Nodup := by
    rw [nodup_iff_count_le_one]
    intro x
    exact Nat.le_trans (count_keys root false [root.outermost] x) (nodup_iff_count_le_one.mp distinct x)
  refine List.Nodup.sublist ?_ whole
  rw [frames, flatMap_cons, map_append, keys]
  refine List.Sublist.append ?_ ?_
  · rw [outermost]
    split
    · exact List.Sublist.refl _
    · exact nil_sublist _
  · rw [filterMap_eq_flatMap_toList, flatMap_assoc, map_flatMap]
    exact List.Sublist.refl _

theorem declaration_unique (distinct : root.Distinct) {g : Frame} (hf : f ∈ root.frames)
    (hg : g ∈ root.frames) {e : Declaration} (hd : d ∈ f.declarations) (he : e ∈ g.declarations)
    (same : d.key = e.key) : f = g ∧ d = e := by
  have nodup := keys_nodup distinct
  have equal : d = e := inj_on_of_nodup_map nodup (mem_flatMap.mpr ⟨f, hf, hd⟩)
    (mem_flatMap.mpr ⟨g, hg, he⟩) same
  refine ⟨?_, equal⟩
  by_contra differ
  have apart := (nodup_flatMap.mp nodup.of_map).2
  have symmetric : Std.Symm fun f g : Frame => List.Disjoint f.declarations g.declarations := ⟨fun _ _ h _ hg hf => h hf hg⟩
  exact apart.forall hf hg differ hd (equal ▸ he)

attribute [local simp] Form.children Form.places Form.own Place.free

theorem declaration_origin (hf : f ∈ root.frames) (hd : d ∈ f.declarations) :
    (∃ n ∈ root.walk, d ∈ n.form.own n.mark) ∨
      (d.kind ≠ .var ∧ ∃ n ∈ root.walk, (d.node = n.mark ∨ d.node = d.key) ∧
        ∃ p ∈ n.form.places, p.role = .name ∧ d.key = p.tree.mark) := by
  have body : ∀ n ∈ root.walk, ∀ own params body, (∀ c ∈ body, c ∈ n.children) →
      (∀ c ∈ own.toList ++ params, ∃ p ∈ n.form.places, p.role = .name ∧ p.tree = c) →
      d ∈ Resolution.functionDeclarations n.mark own params body →
      (∃ n ∈ root.walk, d ∈ n.form.own n.mark) ∨
        (d.kind ≠ .var ∧ ∃ n ∈ root.walk, (d.node = n.mark ∨ d.node = d.key) ∧
          ∃ p ∈ n.form.places, p.role = .name ∧ d.key = p.tree.mark) := by
    intro n hn own params body inside names hd
    simp only [Resolution.functionDeclarations, mem_append, mem_map, mem_flatMap] at hd
    rcases hd with (⟨c, hc, rfl⟩ | ⟨c, hc, rfl⟩) | ⟨c, hc, hd⟩
    · obtain ⟨p, hp, role, rfl⟩ := names c (mem_append_left _ hc)
      exact Or.inr ⟨by rintro ⟨⟩, n, hn, Or.inl rfl, p, hp, role, rfl⟩
    · obtain ⟨p, hp, role, rfl⟩ := names c (mem_append_right _ hc)
      exact Or.inr ⟨by rintro ⟨⟩, n, hn, Or.inr rfl, p, hp, role, rfl⟩
    · obtain ⟨k, hk, own⟩ := mem_hoisted hd
      exact Or.inl ⟨k, walk_trans hn (walk_trans (child_mem_walk (inside c hc)) hk), own⟩
  rcases mem_cons.mp hf with rfl | hf
  · rw [outermost] at hd
    split at hd
    · exact Or.inl (mem_hoisted hd)
    · cases hd
  · obtain ⟨s, hs, opens⟩ := mem_filterMap.mp hf
    have inside := node_mem_walk hs
    cases node : s.node with
    | node m g =>
      rw [node] at opens inside
      cases g with
      | function p b n i =>
        cases opens
        exact body _ inside n p b (fun c hc => by simp [Tree.children, hc])
          (fun c hc => ⟨⟨.name, false, false, c⟩, by simp; grind, rfl, rfl⟩) hd
      | functionDeclaration n p b =>
        cases opens
        exact body _ inside none p b (fun c hc => by simp [Tree.children, hc])
          (fun c hc => ⟨⟨.name, false, false, c⟩, by simp; grind, rfl, rfl⟩) hd
      | tryStatement b p h y =>
        cases h with
        | none => cases opens
        | some h =>
          cases opens
          obtain ⟨c, hc, rfl⟩ := mem_map.mp hd
          refine Or.inr ⟨by rintro ⟨⟩, _, inside, Or.inr rfl, ⟨.name, false, false, c⟩, ?_, rfl, rfl⟩
          simp [Option.mem_toList.mp hc]
      | _ => cases opens

theorem declaration_key (hf : f ∈ root.frames) (hd : d ∈ f.declarations) :
    d.key ∈ root.ids := by
  rcases declaration_origin hf hd with ⟨n, hn, own⟩ | ⟨-, n, hn, -, p, hp, -, key⟩
  · have same : d.key = n.mark := by cases form : n.form <;> simp_all
    exact same ▸ mark_mem_ids hn
  · rw [key]
    exact mark_mem_ids (walk_trans hn (child_mem_walk (place_mem_children hp)))

theorem declaration_node (hf : f ∈ root.frames) (hd : d ∈ f.declarations) :
    d.node ∈ root.ids := by
  rcases declaration_origin hf hd with ⟨n, hn, own⟩ | ⟨-, n, hn, same | same, -⟩
  · have same : d.node = n.mark := by cases form : n.form <;> simp_all
    exact same ▸ mark_mem_ids hn
  · exact same ▸ mark_mem_ids hn
  · exact same ▸ declaration_key hf hd

theorem function_declaration (distinct : root.Distinct) (grammatical : root.Grammatical)
    (hf : f ∈ root.frames) (hd : d ∈ f.declarations) (hn : n ∈ root.walk)
    (compound : ¬ n.form.isName) (key : d.key = n.mark) : d.node = d.key ∧ d ∈ n.form.own n.mark := by
  rcases declaration_origin hf hd with ⟨k, hk, own⟩ | ⟨-, k, hk, -, p, hp, role, name⟩
  · have same : d.key = k.mark ∧ d.node = d.key := by cases form : k.form <;> simp_all
    obtain rfl := distinct.same_node hk hn (same.1.symm.trans key)
    exact ⟨same.2, own⟩
  · have inside := walk_trans hk (child_mem_walk (place_mem_children hp))
    obtain rfl := distinct.same_node inside hn (name.symm.trans key)
    have admitted := grammatical k hk p hp
    rw [role] at admitted
    exact absurd admitted compound

theorem var_declaration (hf : f ∈ root.frames) (hd : d ∈ f.declarations)
    (kind : d.kind = .var) : d.node = d.key ∧ ∃ n ∈ root.walk, n.mark = d.key ∧ n.form.isDeclarator := by
  rcases declaration_origin hf hd with ⟨n, hn, own⟩ | ⟨other, -⟩
  · refine ⟨?_, n, hn, ?_⟩
    · cases form : n.form <;> simp_all
    · cases form : n.form <;> simp_all [Form.isDeclarator]
  · exact absurd kind other

/-- A declaration is hoisted, or it is kept by a scope inside the tree. -/
theorem hoisted_or_kept {t : Node} (grammatical : t.Grammatical) (hn : n ∈ t.walk)
    (own : d ∈ n.form.own n.mark) (isWrite : Bool) (around : List Frame) :
    d ∈ t.hoisted ∨ ∃ s ∈ t.sights isWrite around, ∃ f, s.node.opening = some f ∧ d ∈ f.declarations := by
  induction t generalizing isWrite around with
  | node m f ih =>
    rcases mem_walk_node.mp hn with rfl | ⟨c, hc, hn⟩
    · rw [hoisted_node]
      exact .inl (mem_append_left _ own)
    obtain ⟨p, hp, rfl⟩ := Form.mem_children.mp hc
    have admitted := (grammatical_node.mp grammatical).1 p hp
    have seen : p.role.isSeen := by
      cases role : p.role with
      | name =>
        rw [role] at admitted
        obtain ⟨k, x, leaf⟩ := form_of_isName admitted
        rw [leaf] at hn
        rcases mem_walk_node.mp hn with rfl | ⟨e, he, -⟩
        · cases own
        · cases he
      | _ => rfl
    rcases ih p.tree hc (grammatical.child hc) hn p.role.isTarget (f.around m p.isInner around) with up | ⟨s, hs, kept⟩
    · cases hoists : p.role.hoists with
      | false =>
        rw [hoisted_of_not_hoists hoists admitted] at up
        cases up
      | true =>
        cases callable : f.isCallable with
        | false =>
          rw [hoisted_node, callable]
          exact .inl (mem_append_right _ (mem_flatMap.mpr ⟨p, mem_filter.mpr ⟨hp, hoists⟩, up⟩))
        | true =>
          refine .inr ⟨_, self_mem_sights _ isWrite around, ?_⟩
          -- of the places of a function only its body hoists
          cases f with
          | function ps body name isArrow =>
            have inside : p.tree ∈ body := by
              simp only [Form.places, Place.free, Place.inner, mem_append, mem_map] at hp
              rcases hp with (⟨x, -, rfl⟩ | ⟨x, hx, rfl⟩) | ⟨x, -, rfl⟩
              · cases hoists
              · exact hx
              · cases hoists
            exact ⟨_, rfl, mem_append_right _ (mem_flatMap.mpr ⟨_, inside, up⟩)⟩
          | functionDeclaration name ps body =>
            have inside : p.tree ∈ body := by
              simp only [Form.places, Place.fixed, Place.free, Place.inner, mem_cons, mem_append, mem_map] at hp
              rcases hp with rfl | ⟨x, -, rfl⟩ | ⟨x, hx, rfl⟩
              · cases hoists
              · cases hoists
              · exact hx
            exact ⟨_, rfl, mem_append_right _ (mem_flatMap.mpr ⟨_, inside, up⟩)⟩
          | _ => cases callable
    · exact .inr ⟨s, mem_sights_node.mpr (Or.inr ⟨p, hp, seen, hs⟩), kept⟩

end Node

namespace Resolution

variable {root : Node}

theorem reference_mem_ids (hr : r ∈ (of root).references) : r.node ∈ root.ids := by
  obtain ⟨s, hs, found⟩ := mem_references.mp hr
  have inside := Node.mark_mem_ids (Node.node_mem_walk hs)
  rw [(reference_of_sight found).1] at inside
  exact inside

theorem mem_of_bindingOf {x : NodeId} (h : (of root).bindingOf x = some b) :
    ∃ r ∈ (of root).references, r.node = x ∧ r.binding = some b := by
  rw [bindingOf, Option.bind_eq_some_iff] at h
  obtain ⟨r, found, binding⟩ := h
  exact ⟨r, mem_of_find?_eq_some found, by simpa using find?_some found, binding⟩

theorem mem_referencesTo :
    r ∈ (of root).referencesTo b ↔ r ∈ (of root).references ∧ r.binding = some b := by
  rw [referencesTo, mem_filter, beq_iff_eq]

variable (distinct : root.Distinct)

include distinct

theorem bindingFor_eq_some {k : NodeId} :
    (of root).bindingFor k = some b ↔ ∃ f ∈ root.frames, ∃ d ∈ f.declarations, d.key = k ∧ b = ⟨f.owner, d.name⟩ := by
  have known : ∀ b, (of root).bindingFor k = some b → ∃ f ∈ root.frames, ∃ d ∈ f.declarations,
      d.key = k ∧ b = ⟨f.owner, d.name⟩ := by
    intro b found
    rw [bindingFor, Option.map_eq_some_iff] at found
    obtain ⟨⟨k', b'⟩, first, rfl⟩ := found
    have key : k' = k := by simpa using find?_some first
    exact mem_declared.mp (key ▸ mem_of_find?_eq_some first)
  refine ⟨known b, ?_⟩
  rintro ⟨f, hf, d, hd, key, rfl⟩
  cases found : (of root).bindingFor k with
  | none =>
    rw [bindingFor, Option.map_eq_none_iff, find?_eq_none] at found
    exact absurd (beq_self_eq_true k) (found (k, ⟨f.owner, d.name⟩) (mem_declared.mpr ⟨f, hf, d, hd, key, rfl⟩))
  | some c =>
    obtain ⟨g, hg, e, he, key', rfl⟩ := known c found
    obtain ⟨rfl, rfl⟩ := Node.declaration_unique distinct hg hf he hd (key'.trans key.symm)
    rfl

theorem reference_unique {r' : Reference} (hr : r ∈ (of root).references)
    (hr' : r' ∈ (of root).references) (same : r.node = r'.node) : r = r' :=
  inj_on_of_nodup_map (references_nodup distinct) hr hr' same

theorem binding?_of_reference (hr : r ∈ (of root).references)
    (hb : r.binding = some b) : ∃ record, (of root).binding? b = some record ∧ record.name = r.name := by
  obtain ⟨s, hs, found⟩ := mem_references.mp hr
  rw [(reference_of_sight found).2.2] at hb
  obtain ⟨f, hf, declares, rfl⟩ := Frame.lookup_eq_some hb
  obtain ⟨record, known, name, -⟩ := binding?_of_mem distinct (Node.frame_mem_frames hs hf) declares
  exact ⟨record, known, name⟩

theorem bindingOf_of_mem (hr : r ∈ (of root).references) : (of root).bindingOf r.node = r.binding := by
  rw [bindingOf]
  cases found : (of root).references.find? fun ref => ref.node == r.node with
  | none =>
    rw [find?_eq_none] at found
    exact absurd (beq_self_eq_true r.node) (found r hr)
  | some r' =>
    have same : r'.node = r.node := by simpa using find?_some found
    rw [reference_unique distinct (mem_of_find?_eq_some found) hr same]
    rfl

theorem mem_bindings (known : (of root).binding? b = some record) : b ∈ (of root).bindings := by
  obtain ⟨f, hf, owner, found⟩ := (binding?_eq_some distinct).mp known
  have declares : f.scope.declares b.name := Scope.declares_iff.mpr (by rw [found]; rfl)
  obtain ⟨d, hd, named⟩ := Scope.declares_ofDeclarations.mp declares
  have listed : (d.key, b) ∈ (of root).declared := mem_declared.mpr ⟨f, hf, d, hd, rfl, by rw [owner, named]⟩
  rw [bindings, mem_eraseDups]
  exact mem_map_of_mem listed

theorem declarations_of_binding? (known : (of root).binding? b = some record) :
    ∃ f ∈ root.frames, f.owner = b.scope ∧
      record.declarations = (f.declarations.filter fun d => d.name = b.name).map (·.node) := by
  obtain ⟨f, hf, owner, found⟩ := (binding?_eq_some distinct).mp known
  have declares : f.scope.declares b.name := Scope.declares_iff.mpr (by rw [found]; rfl)
  obtain ⟨record', known', -, nodes⟩ := binding?_of_mem distinct hf (Scope.declares_ofDeclarations.mp declares)
  have same : (⟨f.owner, b.name⟩ : BindingId) = b := by rw [owner]
  rw [same, known, Option.some.injEq] at known'
  exact ⟨f, hf, owner, known' ▸ nodes⟩

theorem single_declaration (known : (of root).binding? b = some record) (single : record.declarations.length = 1) :
    ∃ f ∈ root.frames, f.owner = b.scope ∧ ∃ d, f.declarations.filter (fun d => d.name = b.name) = [d] ∧
      record = ⟨d.name, d.kind, d.node, [d.node]⟩ := by
  obtain ⟨f, hf, owner, found⟩ := (binding?_eq_some distinct).mp known
  refine ⟨f, hf, owner, ?_⟩
  rw [Frame.scope, Scope.find?_ofDeclarations] at found
  cases named : f.declarations.filter fun d => d.name = b.name with
  | nil =>
    rw [named] at found
    cases found
  | cons d rest =>
    rw [named] at found
    obtain ⟨record', found', -, declarations⟩ := Scope.merge_all d rest
    rw [found', Option.some.injEq] at found
    subst found
    rw [declarations] at single
    cases rest with
    | nil =>
      refine ⟨d, rfl, ?_⟩
      cases found'
      rfl
    | cons e rest => simp at single

omit distinct in
theorem exists_bindingFor (tree : root.IsFunctionTree) (hn : n ∈ root.walk)
    (own : d ∈ n.form.own n.mark) : ∃ b, (of root).bindingFor d.key = some b := by
  rcases Node.hoisted_or_kept tree.grammatical hn own false [root.outermost] with up | ⟨s, hs, f, opens, kept⟩
  · obtain ⟨m, params, body, name, isArrow, rfl⟩ := tree.exists_node
    rw [Node.hoisted_node] at up
    cases up
  · exact ⟨_, (bindingFor_eq_some tree.distinct).mpr
      ⟨f, .tail _ (mem_filterMap.mpr ⟨s, hs, opens⟩), d, kept, rfl, rfl⟩⟩

end Resolution

end Unravel
