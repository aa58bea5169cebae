import Unravel.Proofs.Alias.Rounds

/-! The names that alias elimination reports as shadowed. A verdict of an early round can be overtaken by a later one: what
   hid the function may be an alias too, and once that is removed the reported alias goes as well. The report is what
   was found on the way, and every alias that is left in the end is in it. -/
namespace Unravel

open Resolution List

variable {r : Reference} {origin : Node} {u : Unaliased}

namespace Alias

variable {root : Node} {a : Alias} {aliases : List Alias}

/-- Just the aliases that are never assigned to are found. -/
theorem mem_find_iff (distinct : root.Distinct) :
    a ∈ find root (of root) ↔ IsAlias root a ∧ (of root).writesTo a.binding = [] := by
  constructor
  · intro h
    refine ⟨isAlias_of_mem distinct h, ?_⟩
    rw [find, mem_filterMap] at h
    obtain ⟨id, -, found⟩ := h
    obtain ⟨-, -, -, -, -, -, -, -, rfl, -, -⟩ := ofBinding?_eq_some found
    unfold ofBinding? at found
    simp only [Option.bind_eq_bind, Option.bind_eq_some_iff] at found
    obtain ⟨record, -, found⟩ := found
    split at found
    next => cases found
    next =>
      obtain ⟨init, -, found⟩ := Option.bind_eq_some_iff.mp found
      obtain ⟨target, -, found⟩ := Option.bind_eq_some_iff.mp found
      split at found
      next => cases found
      next eligible => simpa using (not_or.mp (not_or.mp eligible).2).2
  · rintro ⟨one, unwritten⟩
    obtain ⟨record, known, kind, declared⟩ := one.record
    obtain ⟨n, hn, mark, id, init, form, name, means⟩ := one.declarator
    obtain ⟨target, known', function⟩ := one.target
    obtain ⟨f, hf, owner, d, -, rfl⟩ := single_declaration distinct known (by rw [declared]; rfl)
    obtain ⟨m, x, rfl⟩ := form_of_isName name
    have node : d.node = a.declarator := by simpa using declared
    have initialised : initialiser? root d.node = some (.node m (.identifier x)) := by
      rw [initialiser?, node, ← mark, Node.find?_of_mem distinct hn, Option.map_some, form]
      rfl
    have other : a.target ≠ a.binding := (one.binding_ne_target one).symm
    have kind : d.kind = .var := kind
    have function : isFunction (of root) a.target := by simp [isFunction, known', function]
    refine mem_filterMap.mpr ⟨a.binding, mem_bindings distinct known, ?_⟩
    unfold ofBinding?
    simp only [known, Option.bind_eq_bind, Option.bind_some]
    rw [if_neg (by simp [kind]), initialised, Option.bind_some, means, Option.bind_some,
      if_neg (by simp [other, function, unwritten]), node, ← one.references]
    rfl

section Round

variable (tree : root.IsFunctionTree) (all : ∀ b ∈ aliases, IsAlias root b)

include tree all

/-- In a scope chain a round uncovers a name only where an alias is removed. -/
theorem round_chain {r' : Reference} (hr : r ∈ (of root).references) (hr' : r' ∈ (of (apply aliases root)).references)
    (same : r'.node = r.node) (name : Text) :
    (∃ b ∈ aliases, Scope.lookup name r.chain = some b.binding) ∨
      Scope.lookup name r'.chain = Scope.lookup name r.chain := by
  obtain ⟨s', hs', refers'⟩ := mem_references.mp hr'
  obtain ⟨s, hs, -, frames, x, origin, -⟩ := round_sight tree all hs' (reference_of_sight refers').1
  have found : s.reference? = some ⟨r'.node, x, s.isWrite, s.frames.map Frame.scope⟩ := by
    rw [Sight.reference?, origin]
    rfl
  obtain rfl := reference_unique tree.distinct (mem_references.mpr ⟨s, hs, found⟩) hr same
  rw [chain_of_sight refers', frames]
  change (∃ b ∈ aliases, Scope.lookup name (s.frames.map Frame.scope) = _) ∨ _ = Scope.lookup name (s.frames.map Frame.scope)
  cases means : Scope.lookup name (s.frames.map Frame.scope) with
  | none => exact Or.inr (Node.lookup_strip_none means)
  | some c =>
    by_cases gone : ∃ b ∈ aliases, b.binding = c
    · obtain ⟨b, hb, rfl⟩ := gone
      exact Or.inl ⟨b, hb, rfl⟩
    · push Not at gone
      exact Or.inr (lookup_round tree.distinct all hs means gone)

theorem round_keeps (unshadowed : ∀ b ∈ aliases, b.isUnshadowed) (hr : r ∈ (of root).references) {c : BindingId} (means : r.binding = some c)
    (other : ∀ b ∈ aliases, b.binding ≠ c)
    (outside : ∀ b ∈ aliases, ∀ n ∈ root.walk, n.mark = b.declarator → ∀ id init, n.form = .declarator id (some init) →
      init.mark ≠ r.node) :
    ∃ r' ∈ (of (apply aliases root)).references, r'.node = r.node ∧ r'.binding = some c := by
  rcases round_survivor tree all hr with ⟨r', hr', node⟩ | ⟨b, hb, n, hn, mark, id, init, form, -, same⟩
  · obtain ⟨r₀, hr₀, node₀, -, meant⟩ := round_reference tree all unshadowed hr'
    obtain rfl := reference_unique tree.distinct hr₀ hr (node₀.trans node)
    rcases meant with ⟨-, same, -⟩ | ⟨b, hb, was, -⟩
    · exact ⟨r', hr', node, same.trans means⟩
    · rw [means, Option.some.injEq] at was
      exact absurd was.symm (other b hb)
  · exact absurd same (outside b hb n hn mark id init form)

section Bystander

variable (one : IsAlias root a) (other : ∀ b ∈ aliases, b.binding ≠ a.binding)

include one other

theorem round_declarator_left {n id init : Node} (hn : n ∈ root.walk) (mark : n.mark = a.declarator)
    (form : n.form = .declarator id (some init)) (name : init.form.isName) :
    ∃ n' ∈ (apply aliases root).walk, n'.mark = a.declarator ∧ ∃ id' init', n'.form = .declarator id' (some init') ∧
      init'.form.isName ∧ init'.mark = init.mark := by
  have on := newName?_onNames tree all
  have kept := (isEliminable_next tree all one other).kept
  rw [← ids_apply tree all] at kept
  obtain ⟨n', hn', mark'⟩ := Node.mem_ids.mp kept
  refine ⟨n', hn', mark', ?_⟩
  obtain ⟨k, hk, rfl⟩ := Node.mem_walk_edited on hn'
  rw [Node.mark_edited] at mark'
  obtain rfl := tree.distinct.same_node hk hn (mark'.trans mark.symm)
  obtain ⟨m, f⟩ := k
  cases form
  have below : init ∈ root.walk := walk_trans hn (child_mem_walk (by simp [Tree.children, Form.children]))
  obtain ⟨y, renamed⟩ := renamed_name tree all below name
  -- an identifier is not deleted
  have spared : Node.delete? (condemned aliases) (Node.substitute (rename aliases) init) =
      some (.node init.mark (.identifier y)) := by
    have inside : Node.substitute (rename aliases) init ∈ (Node.substitute (rename aliases) root).walk := by
      rw [show rename aliases = Node.relabel (newName? aliases) from rfl, Node.walk_relabelled on]
      exact mem_map_of_mem below
    rw [renamed] at inside ⊢
    exact ((condemned_detachable tree all).name inside rfl).2
  have plain : rename aliases (.node m (.declarator id (some init))) = none := by
    cases changed : rename aliases (.node m (.declarator id (some init))) with
    | none => rfl
    | some k =>
      obtain ⟨-, _, _, _, leaf, -⟩ := rename_eq_some tree.distinct all hn changed
      cases leaf
  refine ⟨Node.delete (condemned aliases) (Node.substitute (rename aliases) id), .node init.mark (.identifier y), ?_, rfl, rfl⟩
  change (Node.delete (condemned aliases) (Node.substitute (rename aliases) _)).form = _
  rw [Node.substitute_of_none plain, Node.delete_node, form_node, Form.map, Form.prune_declarator, Option.map_some,
    Option.bind_some, spared]

variable (unshadowed : ∀ b ∈ aliases, b.isUnshadowed)

include unshadowed

theorem round_use (hr : r ∈ a.references) :
    ∃ r' ∈ (of (apply aliases root)).referencesTo a.binding, r'.node = r.node := by
  rw [one.references, mem_referencesTo] at hr
  obtain ⟨r', hr', node, means⟩ := round_keeps tree all unshadowed hr.1 hr.2 other
    fun b hb n hn mark id init form => one.use_ne_initialiser tree.distinct hr.1 hr.2 (all b hb) hn mark form
  exact ⟨r', mem_referencesTo.mpr ⟨hr', means⟩, node⟩

theorem round_initialiser {n id init : Node} (hn : n ∈ root.walk) (mark : n.mark = a.declarator)
    (form : n.form = .declarator id (some init)) (means : (of root).bindingOf init.mark = some a.target) :
    ∃ r' ∈ (of (apply aliases root)).references, r'.node = init.mark ∧ r'.binding = some a.target := by
  obtain ⟨r, hr, node, binding⟩ := mem_of_bindingOf means
  rw [← node]
  refine round_keeps tree all unshadowed hr binding (fun b hb => one.binding_ne_target (all b hb)) ?_
  intro b hb k hk mark' id' init' form' same
  have child : ∀ {t i j : Node}, t.form = .declarator i (some j) → j ∈ t.children := fun h => by
    simp [Tree.children, h, Form.children]
  have inside : ∀ {t i j : Node}, t ∈ root.walk → t.form = .declarator i (some j) → j ∈ root.walk :=
    fun ht h => walk_trans ht (child_mem_walk (child h))
  obtain rfl := tree.distinct.same_node (inside hk form') (inside hn form) (same.trans node)
  obtain rfl := tree.distinct.same_holder hk hn (child form') (child form)
  exact other b hb ((all b hb).binding_of_declarator tree.distinct one (mark'.symm.trans mark))

theorem round_alias (used : a.references ≠ []) (unwritten : (of root).writesTo a.binding = []) :
    { a with references := (of (apply aliases root)).referencesTo a.binding } ∈
      find (apply aliases root) (of (apply aliases root)) := by
  have after := round_tree tree all
  obtain ⟨n, hn, mark, id, init, form, name, means⟩ := one.declarator
  obtain ⟨n', hn', mark', id', init', form', name', same⟩ :=
    round_declarator_left tree all one other hn mark form name
  obtain ⟨r₀, hr₀, node₀, means₀⟩ := round_initialiser tree all one other unshadowed hn mark form means
  refine (mem_find_iff after.distinct).mpr ⟨⟨⟨n', hn', mark', id', init', form', name', ?_⟩, ?_, ?_, rfl⟩, ?_⟩
  · rw [same, ← node₀, bindingOf_of_mem after.distinct hr₀, means₀]
  · -- it is still recorded, since it is still used
    obtain ⟨r, hr⟩ := exists_mem_of_ne_nil _ used
    obtain ⟨r', hr', -⟩ := round_use tree all one other unshadowed hr
    obtain ⟨hr', means'⟩ := mem_referencesTo.mp hr'
    obtain ⟨record', left, -⟩ := binding?_of_reference after.distinct hr' means'
    obtain ⟨record, known, kind, declared⟩ := one.record
    obtain rfl := Option.some.inj (known.symm.trans (round_record tree all left).1)
    exact ⟨record, left, kind, declared⟩
  · obtain ⟨record', left, -⟩ := binding?_of_reference after.distinct hr₀ means₀
    obtain ⟨record, known, function⟩ := one.target
    obtain rfl := Option.some.inj (known.symm.trans (round_record tree all left).1)
    exact ⟨record, left, function⟩
  · refine filter_eq_nil_iff.mpr fun r' hr' write => ?_
    obtain ⟨hr', means'⟩ := mem_referencesTo.mp hr'
    obtain ⟨r, hr, -, writes, ⟨-, kept, -⟩ | ⟨b, hb, -, -, target⟩⟩ := round_reference tree all unshadowed hr'
    · exact filter_eq_nil_iff.mp unwritten r (mem_referencesTo.mpr ⟨hr, kept.symm.trans means'⟩) (writes.trans write)
    · rw [target, Option.some.injEq] at means'
      exact (all b hb).binding_ne_target one means'.symm

end Bystander

end Round

/-- An alias that cannot be eliminated yet: where it is used, the name of its function means something else. -/
structure IsShadowed (root : Node) (a : Alias) : Prop where
  found : a ∈ find root (of root)
  hidden : ∃ r ∈ a.references, Scope.lookup a.target.name r.chain ≠ some a.target

theorem isShadowed_iff : IsShadowed root a ↔ a ∈ find root (of root) ∧ ¬ a.isUnshadowed := by
  have hidden : (∃ r ∈ a.references, Scope.lookup a.target.name r.chain ≠ some a.target) ↔ ¬ a.isUnshadowed := by
    simp [isUnshadowed]
  rw [← hidden]
  exact ⟨fun h => ⟨h.found, h.hidden⟩, fun h => ⟨h.1, h.2⟩⟩

/-- An alias of an earlier tree that is still one, of the same function, and still shadowed. -/
def IsKept (result : Node) (a : Alias) : Prop :=
  ∃ a', IsShadowed result a' ∧ a'.binding = a.binding ∧ a'.target = a.target ∧ a'.declarator = a.declarator

/-- An alias that was removed after all that hid its function had been: variables that led to functions themselves. -/
def IsUncovered (root result : Node) (a : Alias) : Prop :=
  IsRemoved root result a.binding ∧ ∀ r ∈ a.references, Scope.lookup a.target.name r.chain ≠ some a.target →
    ∃ b f, Scope.lookup a.target.name r.chain = some b ∧ Leads root b f ∧ IsRemoved root result b

end Alias

namespace Unaliased

/-- The trees that the rounds go through. -/
inductive Reaches : Node → Node → Prop
  | here {root : Node} : Reaches root root
  | later {root now : Node} : visible root ≠ [] → Reaches (Alias.apply (visible root) root) now → Reaches root now

namespace Reaches

variable {root now result : Node}

theorem keeps {P : Node → Prop} (step : ∀ t, P t → P (Alias.apply (visible t) t)) (h : Reaches root now) (start : P root) :
    P now := by
  induction h with
  | here => exact start
  | later _ _ ih => exact ih (step _ start)

theorem onward (h : Reaches root now) (last : Reaches root result) (done : visible result = []) : Reaches now result := by
  induction h with
  | here => exact last
  | later more _ ih =>
    cases last with
    | here => exact absurd done more
    | later _ rest => exact ih rest

theorem reduced (h : Reaches root now) (start : Alias.Reduced origin root) : Alias.Reduced origin now := by
  refine h.keeps (P := Alias.Reduced origin) (fun t reduced => ?_) start
  exact reduced.round (fun a ha => isAlias_of_visible reduced.tree ha) fun a ha => (mem_filter.mp ha).2

theorem absent (h : Reaches now result) (tree : now.IsFunctionTree) {b : BindingId} (gone : (of now).binding? b = none) :
    (of result).binding? b = none := by
  refine (h.keeps (P := fun t => t.IsFunctionTree ∧ (of t).binding? b = none) (fun t ⟨tree, gone⟩ => ?_) ⟨tree, gone⟩).2
  have all : ∀ a ∈ visible t, Alias.IsAlias t a := fun a ha => isAlias_of_visible tree ha
  exact ⟨Alias.round_tree tree all, Alias.round_absent tree all gone⟩

theorem removed (h : Reaches (Alias.apply (visible now) now) result) (reduced : Alias.Reduced origin now)
    {a : Alias} (ha : a ∈ visible now) : Alias.IsRemoved origin result a.binding := by
  have all : ∀ b ∈ visible now, Alias.IsAlias now b := fun b hb => isAlias_of_visible reduced.tree hb
  obtain ⟨record, known, -⟩ := (all a ha).record
  exact ⟨by rw [reduced.records _ _ known]; rfl,
    h.absent (Alias.round_tree reduced.tree all) (Alias.round_removed reduced.tree all ha)⟩

/-- An alias found on the way is shadowed to the end, or it is removed, and then after what hid its function. -/
theorem fate (h : Reaches now result) (reduced : Alias.Reduced origin now) (done : visible result = [])
    {a : Alias} (ha : a ∈ Alias.find now (of now)) : Alias.IsKept result a ∨ Alias.IsUncovered origin result a := by
  induction h generalizing a with
  | here =>
    refine Or.inl ⟨a, Alias.isShadowed_iff.mpr ⟨ha, fun unshadowed => ?_⟩, rfl, rfl, rfl⟩
    exact not_mem_nil (done ▸ mem_filter.mpr ⟨ha, unshadowed⟩ : a ∈ [])
  | @later t _ _ rest ih =>
    have tree := reduced.tree
    have all : ∀ b ∈ visible t, Alias.IsAlias t b := fun b hb => isAlias_of_visible tree hb
    have clear : ∀ b ∈ visible t, b.isUnshadowed := fun b hb => (mem_filter.mp hb).2
    by_cases unshadowed : a.isUnshadowed
    · refine Or.inr ⟨rest.removed reduced (mem_filter.mpr ⟨ha, unshadowed⟩), fun r hr hidden => absurd ?_ hidden⟩
      simpa using all_eq_true.mp unshadowed r hr
    · obtain ⟨one, unwritten⟩ := (Alias.mem_find_iff tree.distinct).mp ha
      have other : ∀ b ∈ visible t, b.binding ≠ a.binding := by
        intro b hb same
        obtain rfl := inj_on_of_nodup_map (Alias.find_nodup t (of t)) (mem_of_mem_filter hb) ha same
        exact unshadowed (clear b hb)
      have used : a.references ≠ [] := by
        intro none
        rw [Alias.isUnshadowed, none] at unshadowed
        exact unshadowed rfl
      rcases ih (reduced.round all clear) done (Alias.round_alias tree all one other clear used unwritten) with
        kept | ⟨removed, uncovered⟩
      · exact Or.inl kept
      · refine Or.inr ⟨removed, fun r hr hidden => ?_⟩
        -- a use hidden before the round is hidden after it, or what hid it was an alias of the round
        obtain ⟨r', hr', node⟩ := Alias.round_use tree all one other clear hr
        have before := (mem_referencesTo.mp (one.references ▸ hr)).1
        rcases Alias.round_chain tree all before (mem_referencesTo.mp hr').1 node a.target.name with ⟨b, hb, means⟩ | same
        · exact ⟨b.binding, b.target, means, reduced.leads (all b hb), rest.removed reduced hb⟩
        · rw [← same] at hidden ⊢
          exact uncovered r' hr' hidden

end Reaches

theorem mem_addNames {known names : List Text} {name : Text} : name ∈ addNames known names ↔ name ∈ known ∨ name ∈ names := by
  induction names generalizing known with
  | nil => simp [addNames]
  | cons first rest ih =>
    change name ∈ addNames (if known.contains first then known else known ++ [first]) rest ↔ _
    rw [ih]
    by_cases old : known.contains first
    · have old : first ∈ known := by simpa using old
      grind
    · grind

theorem nodup_addNames {known : List Text} (names : List Text) (nodup : known.Nodup) : (addNames known names).Nodup := by
  induction names generalizing known with
  | nil => exact nodup
  | cons first rest ih =>
    change (addNames (if known.contains first then known else known ++ [first]) rest).Nodup
    refine ih ?_
    split
    next => exact nodup
    next new => exact nodup.append (nodup_singleton first) (by simpa using new)

theorem mem_round_shadowed {name : Text} :
    name ∈ u.round.1.shadowed ↔ name ∈ u.shadowed ∨ ∃ a, Alias.IsShadowed u.root a ∧ a.binding.name = name := by
  rw [round, partition_eq_filter_filter]
  dsimp only
  rw [mem_addNames, mem_map]
  refine or_congr_right (exists_congr fun a => and_congr_left fun _ => ?_)
  rw [Alias.isShadowed_iff, mem_filter]
  simp

theorem round_shadowed_nodup (nodup : u.shadowed.Nodup) : u.round.1.shadowed.Nodup := by
  rw [round, partition_eq_filter_filter]
  exact nodup_addNames _ nodup

theorem Reaches.only {root now : Node} (h : Reaches root now) (done : visible root = []) : now = root := by
  cases h with
  | here => rfl
  | later more => exact absurd done more

/-- All rounds together report, each name once, what is shadowed in some tree on the way. -/
theorem Ends.report {w : Unaliased} (h : Ends u w) (tree : u.root.IsFunctionTree) :
    Reaches u.root w.root ∧ visible w.root = [] ∧ (u.shadowed.Nodup → w.shadowed.Nodup) ∧
      ∀ name, name ∈ w.shadowed ↔
        name ∈ u.shadowed ∨ ∃ now a, Reaches u.root now ∧ Alias.IsShadowed now a ∧ a.binding.name = name := by
  induction h with
  | @stop u v turn =>
    have round := Except.ok.inj ((editRound_eq u tree).symm.trans turn)
    have done : visible u.root = [] := by simpa [round] using round_again u
    obtain rfl : u.round.1 = v := by rw [round]
    have root : u.round.1.root = u.root := by rw [round_root, done, Alias.apply_nil]
    refine ⟨root ▸ .here, root ▸ done, round_shadowed_nodup, fun name => mem_round_shadowed.trans (or_congr_right ?_)⟩
    constructor
    · rintro ⟨a, shadowed, named⟩
      exact ⟨u.root, a, .here, shadowed, named⟩
    · rintro ⟨now, a, reached, shadowed, named⟩
      exact ⟨a, reached.only done ▸ shadowed, named⟩
  | @again u v w turn _ ih =>
    have round := Except.ok.inj ((editRound_eq u tree).symm.trans turn)
    have more : visible u.root ≠ [] := by simpa [round] using round_again u
    obtain rfl : u.round.1 = v := by rw [round]
    have root := round_root u
    obtain ⟨reached, done, nodup, names⟩ :=
      ih (root ▸ Alias.round_tree tree fun a ha => isAlias_of_visible tree ha)
    rw [root] at reached names
    refine ⟨.later more reached, done, fun distinct => nodup (round_shadowed_nodup distinct), fun name => ?_⟩
    rw [names, mem_round_shadowed, or_assoc]
    refine or_congr_right ⟨?_, ?_⟩
    · rintro (⟨a, shadowed, named⟩ | ⟨now, a, reached, shadowed, named⟩)
      · exact ⟨u.root, a, .here, shadowed, named⟩
      · exact ⟨now, a, .later more reached, shadowed, named⟩
    · rintro ⟨now, a, reached, shadowed, named⟩
      cases reached with
      | here => exact Or.inl ⟨a, shadowed, named⟩
      | later _ rest => exact Or.inr ⟨now, a, rest, shadowed, named⟩

end Unaliased

namespace Alias

/-- What the report of shadowed aliases says: the names of those that were shadowed in a tree on the way, each once. Every
one of them is shadowed in the end, or it was removed once the aliases that hid its function had been. What is left of
aliases is shadowed and reported. -/
structure IsReport (root result : Node) (names : List Text) : Prop where
  nodup : names.Nodup
  reported : ∀ name, name ∈ names ↔ ∃ now a, Unaliased.Reaches root now ∧ IsShadowed now a ∧ a.binding.name = name
  reached : Unaliased.Reaches root result
  fate : ∀ now a, Unaliased.Reaches root now → IsShadowed now a → IsKept result a ∨ IsUncovered root result a
  left : ∀ a ∈ find result (of result), IsShadowed result a ∧ a.binding.name ∈ names

theorem shadowed_aliases_are_reported (root : Node) (tree : root.IsFunctionTree) :
    IsReport root root.eliminateAliases.root root.eliminateAliases.shadowed := by
  obtain ⟨ends, -, -⟩ := Unaliased.run_ends ((root.walk.filter Node.isDeclarator).length + 1) { root := root } tree
    (Nat.lt_succ_self _)
  obtain ⟨reached, done, nodup, names⟩ := ends.report tree
  have reported : ∀ name, name ∈ root.eliminateAliases.shadowed ↔
      ∃ now a, Unaliased.Reaches root now ∧ IsShadowed now a ∧ a.binding.name = name := by
    intro name
    have reports := names name
    rwa [List.mem_nil_iff, false_or] at reports
  refine ⟨nodup List.nodup_nil, reported, reached, fun now a on shadowed => ?_, fun a ha => ?_⟩
  · exact (on.onward reached done).fate (on.reduced (.refl tree)) done shadowed.found
  · have shadowed : IsShadowed root.eliminateAliases.root a := by
      refine isShadowed_iff.mpr ⟨ha, fun unshadowed => ?_⟩
      exact List.not_mem_nil (done ▸ List.mem_filter.mpr ⟨ha, unshadowed⟩ : a ∈ [])
    exact ⟨shadowed, (reported _).mpr ⟨_, a, reached, shadowed, rfl⟩⟩

/-- An alias of `f` that is used where `f` is an alias of `q`. -/
def twiceNamed : Node :=
  .node 0 (.function [.node 1 (.identifier "x")]
    [.node 2 (.functionDeclaration (.node 3 (.identifier "f")) [] []),
      .node 4 (.declaration "var" [.node 5 (.declarator (.node 6 (.identifier "g")) (some (.node 7 (.identifier "f"))))]),
      .node 8 (.functionDeclaration (.node 9 (.identifier "q")) [] []),
      .node 10 (.functionDeclaration (.node 11 (.identifier "inner")) []
        [.node 12 (.declaration "var" [.node 13 (.declarator (.node 14 (.identifier "f")) (some (.node 15 (.identifier "q"))))]),
          .node 16 (.expressionStatement (.node 17 (.call (.node 18 (.identifier "f")) []))),
          .node 19 (.returnStatement (some (.node 20 (.call (.node 21 (.identifier "g")) []))))]),
      .node 22 (.returnStatement (some (.node 23 (.call (.node 24 (.identifier "inner")) []))))] none false)

theorem twiceNamed_is_reported :
    twiceNamed.IsFunctionTree ∧
      IsReport twiceNamed twiceNamed.eliminateAliases.root twiceNamed.eliminateAliases.shadowed ∧
      (find twiceNamed (of twiceNamed)).map (fun a => (a.binding, a.isUnshadowed)) =
        [(⟨some 0, "g"⟩, false), (⟨some 10, "f"⟩, true)] := by
  have tree : twiceNamed.IsFunctionTree := ⟨⟨_, _, _, _, rfl⟩, by decide, by decide⟩
  exact ⟨tree, shadowed_aliases_are_reported twiceNamed tree, by decide +kernel⟩

/-- A reported alias can be gone. -/
theorem twiceNamed_is_gone :
    twiceNamed.IsFunctionTree ∧ twiceNamed.eliminateAliases.shadowed = ["g"] ∧
      IsRemoved twiceNamed twiceNamed.eliminateAliases.root ⟨some 0, "g"⟩ ∧
      find twiceNamed.eliminateAliases.root (of twiceNamed.eliminateAliases.root) = [] :=
  ⟨⟨⟨_, _, _, _, rfl⟩, by decide, by decide⟩, by decide +kernel, ⟨by decide +kernel, by decide +kernel⟩,
    List.eq_nil_of_length_eq_zero (by decide +kernel)⟩

end Alias

end Unravel
