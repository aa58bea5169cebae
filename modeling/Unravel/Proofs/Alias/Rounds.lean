import Unravel.Proofs.Alias.Capture
import Unravel.Proofs.Syntax.Successive
import Unravel.Syntax.Edit

/-! Alias elimination comes to an end. A round can be done edit by edit, one reference and one declarator after the other: every
   edit finds what it changes, and together they do what the round does at once. Each round but the last one deletes a
   declarator, so there is at most one round more than there are declarators. -/
namespace Unravel

open Resolution List

namespace Node

/-- Gives the identifier under an identity below the root another name. -/
def renameAt (root : Node) (old : NodeId) (name : Text) : Outcome Node :=
  match root.ancestors? old with
  | none | some [] => .error (.detached "replace")
  | some _ => .ok (substitute (relabel fun m => if m = old then some name else none) root)

/-- Deletes the declarator under an identity. -/
def removeAt (root : Node) (old : NodeId) : Outcome Node :=
  match root.find? old with
  | none => .error (.detached "remove")
  | some d => root.remove d

/-- A tree with some identifiers renamed and some statements and declarators deleted. -/
def edited (names : NodeId → Option Text) (gone : NodeId → Bool) (root : Node) : Node :=
  delete gone (substitute (relabel names) root)

section Edits

variable {root : Node} {names : NodeId → Option Text} {gone : NodeId → Bool}

theorem ids_edited (on : OnNames names root) : (edited names gone root).ids = (delete gone root).ids := by
  rw [edited, ← relabel_delete on, ids_relabelled on.delete]

theorem distinct_edited (distinct : root.Distinct) (on : OnNames names root) : (edited names gone root).Distinct := by
  rw [Distinct, ids_edited on]
  exact distinct.delete

theorem mark_edited : (edited names gone root).mark = root.mark := by rw [edited, mark_delete, mark_relabelled]

theorem mem_walk_edited (on : OnNames names root) {n : Node} (hn : n ∈ (edited names gone root).walk) :
    ∃ k ∈ root.walk, n = edited names gone k := by
  obtain ⟨k, hk, rfl⟩ := mem_walk_delete hn
  rw [walk_relabelled on] at hk
  obtain ⟨l, hl, rfl⟩ := mem_map.mp hk
  exact ⟨l, hl, rfl⟩

theorem isDeclarator_edited {n : Node} (on : OnNames names n) : isDeclarator (edited names gone n) = isDeclarator n := by
  obtain ⟨m, f⟩ := n
  rw [edited]
  cases named : names m with
  | some x =>
    obtain ⟨_, rfl⟩ := on.leaf named
    rw [substitute_relabel_some _ named, delete_node]
    rfl
  | none =>
    rw [substitute_relabel_none _ named, delete_node]
    cases f <;> rfl

theorem OnNames.subtree (on : OnNames names root) {n : Node} (hn : n ∈ root.walk) : OnNames names n :=
  fun k hk => on k (walk_trans hn hk)

theorem exists_around {t : Node} (distinct : t.Distinct) {x : NodeId} (hx : x ∈ t.ids) (below : x ≠ t.mark) :
    ∃ holder around, t.ancestors? x = some (holder :: around) := by
  obtain ⟨around, found, members⟩ := mem_ancestors distinct hx
  cases around with
  | nil => cases (members t).mpr ⟨self_mem_walk t, hx, below.symm⟩
  | cons holder around => exact ⟨holder, around, found⟩

section Steps

variable (distinct : root.Distinct) {name : Text}

include distinct

theorem renameAt_edited (on : OnNames names root) {x : NodeId} (named : ∀ n ∈ root.walk, n.mark = x → n.form.isName)
    (agree : ∀ y, names x = some y → y = name) (hx : x ∈ (delete gone root).ids) (below : x ≠ root.mark) :
    (edited names gone root).renameAt x name =
      .ok (edited (fun m => (names m).or (if m = x then some name else none)) gone root) := by
  obtain ⟨holder, around, found⟩ := exists_around (distinct_edited distinct on) (x := x)
    (by rwa [ids_edited on]) (by rwa [mark_edited])
  have one : OnNames (fun m => if m = x then some name else none) (substitute (relabel names) root) := by
    intro n hn chosen
    rw [walk_relabelled on] at hn
    obtain ⟨k, hk, rfl⟩ := mem_map.mp hn
    have mark : k.mark = x := by
      by_contra other
      simp [mark_relabelled, other] at chosen
    obtain ⟨m, y, leaf⟩ := form_of_isName (named k hk mark)
    rw [leaf]
    cases new : names m with
    | some z => rw [substitute_relabel_some _ new]; rfl
    | none => rw [substitute_relabel_none _ new]; rfl
  rw [renameAt, found, edited, relabel_delete one, relabel_relabel, edited]
  intro m y z first second
  split at second
  next same =>
    cases second
    exact agree y (same ▸ first)
  next => cases second

theorem foldlM_renameAt (xs : List NodeId) (on : OnNames names root)
    (named : ∀ x ∈ xs, ∀ n ∈ root.walk, n.mark = x → n.form.isName) (agree : ∀ x ∈ xs, ∀ y, names x = some y → y = name)
    (inside : ∀ x ∈ xs, x ∈ (delete gone root).ids ∧ x ≠ root.mark) :
    xs.foldlM (fun t x => renameAt t x name) (edited names gone root) =
      .ok (edited (fun m => (names m).or (if m ∈ xs then some name else none)) gone root) := by
  induction xs generalizing names with
  | nil =>
    simp only [not_mem_nil, if_false, Option.or_none]
    rfl
  | cons x rest ih =>
    have first : x ∈ x :: rest := .head _
    rw [foldlM_cons, renameAt_edited distinct on (named x first) (agree x first) (inside x first).1 (inside x first).2]
    refine (ih ?_ (fun z hz => named z (.tail x hz)) ?_
      fun z hz => inside z (.tail x hz)).trans ?_
    · intro n hn chosen
      by_cases same : n.mark = x
      · exact named x first n hn same
      · exact on n hn (by simpa [same] using chosen)
    · intro z hz y chosen
      cases old : names z with
      | some w =>
        rw [old] at chosen
        cases chosen
        exact agree z (.tail x hz) y old
      | none =>
        rw [old] at chosen
        simp only [Option.none_or] at chosen
        split at chosen
        · exact (Option.some.inj chosen).symm
        · cases chosen
    · congr 2
      funext m
      by_cases same : m = x <;> by_cases later : m ∈ rest <;> cases names m <;> simp [same, later]

theorem removeAt_edited (on : OnNames names root) {d : Node} (hd : d ∈ root.walk) (declarator : isDeclarator d)
    (kept : d.mark ∈ (delete gone root).ids) (below : d ≠ root) :
    (edited names gone root).removeAt d.mark = .ok (edited names (fun id => gone id || id == d.mark) root) := by
  have listed : d.mark ∈ (edited names gone root).ids := by rwa [ids_edited on]
  rw [removeAt]
  cases found : (edited names gone root).find? d.mark with
  | none =>
    obtain ⟨n, hn, same⟩ := mem_ids.mp listed
    rw [find?, find?_eq_none] at found
    exact absurd (beq_iff_eq.mpr same) (found n hn)
  | some e =>
    obtain ⟨he, same⟩ := mem_of_find? found
    obtain ⟨k, hk, rfl⟩ := mem_walk_edited on he
    rw [mark_edited] at same
    obtain rfl := distinct.same_node hk hd same
    have removable : (edited names gone k).form.isRemovable := by
      have still : isDeclarator (edited names gone k) := (isDeclarator_edited (on.subtree hk)).trans declarator
      rw [isDeclarator] at still
      split at still
      next form => rw [form]; rfl
      next => cases still
    have inner : k.mark ≠ (edited names gone root).mark := by
      rw [mark_edited]
      exact fun top => below (distinct.same_node hk (self_mem_walk root) top)
    obtain ⟨holder, around, way⟩ := exists_around (distinct_edited distinct on) listed inner
    change remove (edited names gone root) _ = _
    rw [remove, removable, mark_edited, way]
    exact congrArg Except.ok (delete_delete _ _ _)

end Steps

end Edits

end Node

namespace Alias

/-- Eliminates an alias edit by edit. -/
def eliminate (root : Node) (a : Alias) : Outcome Node := do
  let renamed ← (a.references.map (·.node)).foldlM (fun t x => Node.renameAt t x a.target.name) root
  renamed.removeAt a.declarator

variable {root : Node} {a : Alias} {aliases : List Alias}

/-- What it takes that every edit for an alias finds what it changes. -/
structure IsEliminable (names : NodeId → Option Text) (gone : NodeId → Bool) (root : Node) (a : Alias) : Prop where
  named : Node.OnNames names root
  references : ∀ r ∈ a.references, ∃ n ∈ root.walk, n.mark = r.node ∧ n.form.isName
  agree : ∀ r ∈ a.references, ∀ y, names r.node = some y → y = a.target.name
  left : ∀ r ∈ a.references, r.node ∈ (Node.delete gone root).ids
  declarator : ∃ n ∈ root.walk, n.mark = a.declarator ∧ Node.isDeclarator n
  kept : a.declarator ∈ (Node.delete gone root).ids

theorem eliminate_edited (tree : root.IsFunctionTree) {names : NodeId → Option Text} {gone : NodeId → Bool}
    (h : IsEliminable names gone root a) :
    eliminate (Node.edited names gone root) a =
      .ok (Node.edited (fun m => (names m).or (if m ∈ a.references.map (·.node) then some a.target.name else none))
        (fun id => gone id || id == a.declarator) root) := by
  obtain ⟨params, body, own, isArrow, function⟩ := tree.function
  have only : ∀ x ∈ a.references.map (·.node), ∀ n ∈ root.walk, n.mark = x → n.form.isName := by
    intro x hx n hn mark
    obtain ⟨r, hr, rfl⟩ := mem_map.mp hx
    obtain ⟨k, hk, same, name⟩ := h.references r hr
    rwa [tree.distinct.same_node hn hk (mark.trans same.symm)]
  have inside : ∀ x ∈ a.references.map (·.node), x ∈ (Node.delete gone root).ids ∧ x ≠ root.mark := by
    intro x hx
    refine ⟨?_, fun same => ?_⟩
    · obtain ⟨r, hr, rfl⟩ := mem_map.mp hx
      exact h.left r hr
    · have name := only x hx root (self_mem_walk root) same.symm
      rw [function] at name
      cases name
  have agree : ∀ x ∈ a.references.map (·.node), ∀ y, names x = some y → y = a.target.name := by
    intro x hx
    obtain ⟨r, hr, rfl⟩ := mem_map.mp hx
    exact h.agree r hr
  have renamed := Node.foldlM_renameAt tree.distinct (a.references.map (·.node)) h.named only agree inside
  rw [eliminate, renamed]
  have on : Node.OnNames (fun m => (names m).or (if m ∈ a.references.map (·.node) then some a.target.name else none)) root := by
    intro n hn chosen
    by_cases listed : n.mark ∈ a.references.map (·.node)
    · exact only _ listed n hn rfl
    · exact h.named n hn (by simpa [listed] using chosen)
  obtain ⟨k, hk, mark, declarator⟩ := h.declarator
  rw [← mark]
  refine Node.removeAt_edited tree.distinct on hk declarator (mark ▸ h.kept) ?_
  rintro rfl
  rw [Node.isDeclarator, function] at declarator
  cases declarator

theorem newName?_append (aliases : List Alias) (a : Alias) :
    newName? (aliases ++ [a]) =
      fun m => (newName? aliases m).or (if m ∈ a.references.map (·.node) then some a.target.name else none) := by
  funext m
  have one : newName? [a] m = if m ∈ a.references.map (·.node) then some a.target.name else none := by
    rw [newName?, find?_singleton]
    by_cases refers : m ∈ a.references.map (·.node)
    · have found : a.references.any fun r => r.node == m := by simpa using refers
      rw [if_pos refers, if_pos found]
      rfl
    · have missing : ¬a.references.any fun r => r.node == m := by simpa using refers
      rw [if_neg refers, if_neg missing]
      rfl
  rw [← one, newName?, newName?, newName?, find?_append]
  cases aliases.find? _ <;> rfl

theorem condemned_append (aliases : List Alias) (a : Alias) :
    condemned (aliases ++ [a]) = fun id => condemned aliases id || id == a.declarator := by
  funext id
  rw [condemned, condemned, any_append, any_cons, any_nil, Bool.or_false, Bool.beq_comm]

theorem IsAlias.binding_of_declarator (distinct : root.Distinct) {b : Alias} (ha : IsAlias root a) (hb : IsAlias root b)
    (same : a.declarator = b.declarator) : a.binding = b.binding := by
  obtain ⟨f, hf, owner, d, declared, key⟩ := ha.declaration distinct
  have hd : d ∈ f.declarations.filter fun d => d.name = a.binding.name := declared ▸ mem_singleton_self d
  obtain ⟨hd, named⟩ := mem_filter.mp hd
  have doomed : condemned [b] d.key := condemned_iff.mpr ⟨b, mem_singleton_self b, same.symm.trans key.symm⟩
  obtain ⟨c, hc, isOne⟩ := (condemned_key_iff distinct (fun c hc => mem_singleton.mp hc ▸ hb) hf hd).mp doomed
  rw [← mem_singleton.mp hc, isOne, owner, of_decide_eq_true named]

theorem IsAlias.use_ne_initialiser (distinct : root.Distinct) (one : IsAlias root a) {r : Reference}
    (hr : r ∈ (of root).references) (means : r.binding = some a.binding) {b : Alias} (hb : IsAlias root b) {n id init : Node}
    (hn : n ∈ root.walk) (mark : n.mark = b.declarator) (form : n.form = .declarator id (some init)) : init.mark ≠ r.node := by
  intro same
  obtain ⟨n', hn', mark', id', init', form', -, target⟩ := hb.declarator
  obtain rfl := distinct.same_node hn hn' (mark.trans mark'.symm)
  rw [form, Form.declarator.injEq, Option.some.injEq] at form'
  rw [← form'.2, same, bindingOf_of_mem distinct hr, means, Option.some.injEq] at target
  exact hb.binding_ne_target one target

section OneByOne

variable (tree : root.IsFunctionTree) (all : ∀ b ∈ aliases, IsAlias root b)

include tree all

theorem newName?_onNames : Node.OnNames (newName? aliases) root := by
  intro n hn chosen
  obtain ⟨name, found⟩ := Option.isSome_iff_exists.mp chosen
  obtain ⟨-, m, x, y, rfl, -⟩ := rename_eq_some tree.distinct all hn (by rw [rename, found]; rfl)
  rfl

theorem ids_apply : (apply aliases root).ids = (Node.delete (condemned aliases) root).ids :=
  Node.ids_edited (newName?_onNames tree all)

/-- While some aliases are being eliminated, an alias that is none of them can be eliminated next. -/
theorem isEliminable_next (one : IsAlias root a) (other : ∀ b ∈ aliases, b.binding ≠ a.binding) :
    IsEliminable (newName? aliases) (condemned aliases) root a := by
  obtain ⟨d, hd, mark, id, init, form, name, -⟩ := one.declarator
  have listed : ∀ r ∈ a.references, r ∈ (of root).references ∧ r.binding = some a.binding := by
    intro r hr
    rwa [one.references, mem_referencesTo] at hr
  refine ⟨newName?_onNames tree all, fun r hr => ?_, fun r hr y named => ?_, fun r hr => ?_,
    ⟨d, hd, mark, by rw [Node.isDeclarator, form]⟩, ?_⟩
  · obtain ⟨s, hs, refers⟩ := mem_references.mp (listed r hr).1
    obtain ⟨leaf, -, -⟩ := reference_of_sight refers
    exact ⟨s.node, Node.node_mem_walk hs, by rw [leaf]; rfl, by rw [leaf]; rfl⟩
  · -- a reference of two aliases would have two bindings
    obtain ⟨b, hb, r', -, hr', node, means, -⟩ := newName?_eq_some all named
    obtain rfl := reference_unique tree.distinct hr' (listed r hr).1 node
    rw [(listed r' hr).2, Option.some.injEq] at means
    exact absurd means.symm (other b hb)
  · rw [← ids_apply tree all]
    rcases round_survivor tree all (listed r hr).1 with ⟨r', hr', node⟩ | ⟨b, hb, n, hn, mark, id, init, form, -, same⟩
    · exact node ▸ reference_mem_ids hr'
    · exact absurd same (one.use_ne_initialiser tree.distinct (listed r hr).1 (listed r hr).2 (all b hb) hn mark form)
  · rw [← mark]
    refine (Node.mem_ids_delete tree.distinct hd (by rw [form]; exact Bool.false_ne_true) fun n hn _ inside doomed => ?_).1
    obtain ⟨b, hb, same⟩ := condemned_iff.mp doomed
    obtain ⟨k, hk, mark', id', init', form', name', -⟩ := (all b hb).declarator
    obtain rfl := tree.distinct.same_node hk hn (mark'.trans same)
    obtain ⟨m, f⟩ := k
    cases form'
    -- a declarator with an identifier for its initialiser holds no other declarator
    rcases mem_walk_node.mp inside with rfl | ⟨c, hc, inside⟩
    · exact other b hb ((all b hb).binding_of_declarator tree.distinct one (same.trans mark))
    · have admitted : c.form.isName := by
        have places := tree.grammatical _ hk
        have hc : c ∈ [id', init'] := hc
        simp only [mem_cons, not_mem_nil, or_false] at hc
        rcases hc with rfl | rfl
        · exact places ⟨.name, true, false, c⟩ (by simp [Form.places, Place.fixed])
        · exact name'
      obtain ⟨_, _, rfl⟩ := form_of_isName admitted
      rcases mem_walk_node.mp inside with rfl | ⟨e, he, -⟩
      · cases form
      · cases he

theorem eliminate_apply (one : IsAlias root a) (other : ∀ b ∈ aliases, b.binding ≠ a.binding) :
    eliminate (apply aliases root) a = .ok (apply (aliases ++ [a]) root) := by
  rw [apply_eq, apply_eq, condemned_append]
  have next := eliminate_edited tree (isEliminable_next tree all one other)
  rw [← newName?_append] at next
  exact next

end OneByOne

theorem apply_nil (root : Node) : apply [] root = root := by
  have untouched : Node.substitute (rename []) root = root := Node.Untouched.substitute_eq fun _ _ => rfl
  rw [apply_eq, untouched]
  exact Node.delete_nothing root

/-- A round does what its edits do one after the other, and none of them fails. -/
theorem foldlM_eliminate (tree : root.IsFunctionTree) (all : ∀ b ∈ aliases, IsAlias root b)
    (nodup : (aliases.map (·.binding)).Nodup) : aliases.foldlM eliminate root = .ok (apply aliases root) := by
  have from_any : ∀ rest done : List Alias, (∀ b ∈ done ++ rest, IsAlias root b) → ((done ++ rest).map (·.binding)).Nodup →
      rest.foldlM eliminate (apply done root) = .ok (apply (done ++ rest) root) := by
    intro rest
    induction rest with
    | nil => exact fun done _ _ => by rw [append_nil]; rfl
    | cons a rest ih =>
      intro done both apart
      have other : ∀ b ∈ done, b.binding ≠ a.binding := by
        intro b hb same
        rw [map_append, nodup_append] at apart
        exact apart.2.2 _ (mem_map_of_mem hb) _ (.head _) same
      rw [foldlM_cons,
        eliminate_apply tree (fun b hb => both b (mem_append_left _ hb)) (both a (by simp)) other]
      have split : done ++ a :: rest = (done ++ [a]) ++ rest := by simp
      rw [split] at both apart ⊢
      exact ih (done ++ [a]) both apart
  have start := from_any aliases [] all nodup
  rwa [apply_nil] at start

theorem nodup_eraseDups : (bs : List BindingId) → bs.eraseDups.Nodup
  | [] => nodup_nil
  | b :: rest => by
    rw [eraseDups_cons, nodup_cons, mem_eraseDups]
    exact ⟨by simp, nodup_eraseDups _⟩
termination_by bs => bs.length
decreasing_by exact Nat.lt_succ_of_le (length_filter_le _ _)

theorem find_nodup (root : Node) (names : Resolution) : ((find root names).map (·.binding)).Nodup := by
  have same : (find root names).map (·.binding) =
      names.bindings.filterMap fun id => (ofBinding? root names id).map (·.binding) := by
    rw [find, map_filterMap]
  rw [same]
  refine (nodup_eraseDups _).filterMap fun b c x hb hc => ?_
  obtain ⟨a, found, rfl⟩ := Option.map_eq_some_iff.mp hb
  obtain ⟨a', found', eq⟩ := Option.map_eq_some_iff.mp hc
  obtain ⟨-, -, -, -, -, -, -, -, rfl, -, -⟩ := ofBinding?_eq_some found
  obtain ⟨-, -, -, -, -, -, -, -, rfl, -, -⟩ := ofBinding?_eq_some found'
  exact eq.symm

theorem declarators_apply (tree : root.IsFunctionTree) (all : ∀ b ∈ aliases, IsAlias root b) (ha : a ∈ aliases) :
    ((apply aliases root).walk.filter Node.isDeclarator).length < (root.walk.filter Node.isDeclarator).length := by
  have on := newName?_onNames tree all
  obtain ⟨d, hd, mark, id, init, form, -, -⟩ := (all a ha).declarator
  have declarator : Node.isDeclarator d := by rw [Node.isDeclarator, form]
  -- compare the identities of the declarators, of which none occurs twice
  have gone : d.mark ∉ (apply aliases root).ids := by
    rw [ids_apply tree all]
    refine Node.not_mem_ids_delete tree.distinct tree.grammatical hd ?_ ?_ (by rw [form]; rfl) (Node.mark_mem_ids (self_mem_walk d))
    · rintro rfl
      obtain ⟨params, body, own, isArrow, function⟩ := tree.function
      rw [function] at form
      cases form
    · exact condemned_iff.mpr ⟨a, ha, mark.symm⟩
  have left : ∀ x ∈ ((apply aliases root).walk.filter Node.isDeclarator).map Tree.mark,
      x ∈ (root.walk.filter Node.isDeclarator).map Tree.mark := by
    intro x hx
    obtain ⟨n, hn, rfl⟩ := mem_map.mp hx
    obtain ⟨hn, still⟩ := mem_filter.mp hn
    obtain ⟨k, hk, rfl⟩ := Node.mem_walk_edited on hn
    rw [Node.isDeclarator_edited (on.subtree hk)] at still
    rw [Node.mark_edited]
    exact mem_map_of_mem (mem_filter.mpr ⟨hk, still⟩)
  have nodup : (d.mark :: ((apply aliases root).walk.filter Node.isDeclarator).map Tree.mark).Nodup := by
    refine nodup_cons.mpr ⟨fun listed => gone ?_, ?_⟩
    · exact (filter_sublist.map Tree.mark).subset listed
    · exact (round_tree tree all).distinct.sublist (filter_sublist.map Tree.mark)
  have fewer := nodup.length_le_of_subset (cons_subset.mpr ⟨mem_map_of_mem (mem_filter.mpr ⟨hd, declarator⟩), left⟩)
  rwa [length_cons, length_map, length_map] at fewer

end Alias

namespace Unaliased

/-- The aliases that a round replaces. -/
def visible (root : Node) : List Alias := (Alias.find root (of root)).filter Alias.isUnshadowed

/-- A round that edits the tree step by step. -/
def editRound (u : Unaliased) : Outcome (Unaliased × Bool) := do
  let root ← (visible u.root).foldlM Alias.eliminate u.root
  return ({ u.round.1 with root := root }, u.round.2)

/-- The loop of rounds: another one follows every round that has found something to replace. -/
inductive Ends : Unaliased → Unaliased → Prop
  | stop {u v : Unaliased} : u.editRound = .ok (v, false) → Ends u v
  | again {u v w : Unaliased} : u.editRound = .ok (v, true) → Ends v w → Ends u w

theorem Ends.unique {u v w : Unaliased} (hv : Ends u v) (hw : Ends u w) : v = w := by
  induction hv with
  | stop done =>
    cases hw with
    | stop done' => cases done.symm.trans done'; rfl
    | again more => cases done.symm.trans more
  | again more _ ih =>
    cases hw with
    | stop done => cases more.symm.trans done
    | again more' rest => cases more.symm.trans more'; exact ih rest

theorem isAlias_of_visible {root : Node} (tree : root.IsFunctionTree) {a : Alias} (ha : a ∈ visible root) :
    Alias.IsAlias root a := Alias.isAlias_of_mem tree.distinct (mem_of_mem_filter ha)

theorem round_root (u : Unaliased) : u.round.1.root = Alias.apply (visible u.root) u.root := by
  rw [round, partition_eq_filter_filter]
  change (if (visible u.root).isEmpty then u.root else Alias.apply (visible u.root) u.root) = _
  split
  next none =>
    rw [List.isEmpty_iff.mp none, Alias.apply_nil]
  next => rfl

theorem round_rounds (u : Unaliased) : u.round.1.rounds = u.rounds + 1 := rfl

theorem round_again (u : Unaliased) : u.round.2 = !(visible u.root).isEmpty := by
  rw [round, partition_eq_filter_filter]
  rfl

theorem editRound_eq (u : Unaliased) (tree : u.root.IsFunctionTree) : u.editRound = .ok u.round := by
  have nodup : ((visible u.root).map (·.binding)).Nodup :=
    (Alias.find_nodup u.root (of u.root)).sublist (filter_sublist.map _)
  rw [editRound, Alias.foldlM_eliminate tree (fun a ha => isAlias_of_visible tree ha) nodup, ← round_root]
  rfl

/-- With rounds enough for all declarators, the loop comes to its end. -/
theorem run_ends (bound : Nat) (u : Unaliased) (tree : u.root.IsFunctionTree)
    (enough : (u.root.walk.filter Node.isDeclarator).length < bound) :
    Ends u (run bound u) ∧ (run bound u).rounds ≤ u.rounds + (u.root.walk.filter Node.isDeclarator).length + 1 ∧
      visible (run bound u).root = [] := by
  induction bound generalizing u with
  | zero => cases enough
  | succ bound ih =>
    have edits := editRound_eq u tree
    have root := round_root u
    have again := round_again u
    rw [run]
    cases turn : u.round with
    | mk next goesOn =>
    have rounds : next.rounds = u.rounds + 1 := by rw [← round_rounds u, turn]
    rw [turn] at edits root again
    cases none : visible u.root with
    | nil =>
      rw [none, Alias.apply_nil] at root
      obtain rfl : goesOn = false := by rw [none] at again; exact again
      refine ⟨.stop edits, ?_, by rw [root, none]⟩
      change next.rounds ≤ _
      omega
    | cons a rest =>
      have all : ∀ b ∈ visible u.root, Alias.IsAlias u.root b := fun b hb => isAlias_of_visible tree hb
      have fewer := Alias.declarators_apply tree all (none ▸ (.head _) : a ∈ visible u.root)
      obtain rfl : goesOn = true := by rw [none] at again; exact again
      rw [← show next.root = _ from root] at fewer
      obtain ⟨ends, few, left⟩ := ih next (root ▸ Alias.round_tree tree all) (by omega)
      refine ⟨.again edits ends, ?_, left⟩
      change (run bound next).rounds ≤ _
      omega

end Unaliased

namespace Node

/-- Alias elimination comes to an end after one round more than there are declarators at most, and no edit fails on the way.
What is left has no alias whose function is visible at all its uses, so that a second run has one round and changes nothing. -/
theorem elimination_ends (root : Node) (tree : root.IsFunctionTree) :
    (∀ u, Unaliased.Ends { root := root } u ↔ u = root.eliminateAliases) ∧
      root.eliminateAliases.rounds ≤ (root.walk.filter isDeclarator).length + 1 ∧
      (∀ a ∈ Alias.find root.eliminateAliases.root (of root.eliminateAliases.root), ¬a.isUnshadowed) ∧
      root.eliminateAliases.root.eliminateAliases.removed = 0 ∧
      root.eliminateAliases.root.eliminateAliases.rounds = 1 ∧
      root.eliminateAliases.root.eliminateAliases.root = root.eliminateAliases.root := by
  obtain ⟨ends, rounds, left⟩ := Unaliased.run_ends ((root.walk.filter isDeclarator).length + 1) { root := root } tree
    (Nat.lt_succ_self _)
  change Unaliased.visible root.eliminateAliases.root = [] at left
  have again : ∀ u : Unaliased, Unaliased.visible u.root = [] → ∀ bound, Unaliased.run (bound + 1) u = u.round.1 := by
    intro u none bound
    have stops := Unaliased.round_again u
    rw [Unaliased.run]
    cases turn : u.round with
    | mk next goesOn =>
    obtain rfl : goesOn = false := by rw [none, turn] at stops; exact stops
    rfl
  have second := again { root := root.eliminateAliases.root } left
    (root.eliminateAliases.root.walk.filter isDeclarator).length
  refine ⟨fun u => ⟨fun h => h.unique ends, fun h => h ▸ ends⟩, by simpa [eliminateAliases] using rounds, ?_, ?_, ?_, ?_⟩
  · intro a ha unshadowed
    have listed : a ∈ Unaliased.visible root.eliminateAliases.root := List.mem_filter.mpr ⟨ha, unshadowed⟩
    rw [left] at listed
    cases listed
  · rw [eliminateAliases, second, Unaliased.round, List.partition_eq_filter_filter]
    change 0 + (Unaliased.visible root.eliminateAliases.root).length = 0
    rw [left]
    rfl
  · rw [eliminateAliases, second]
    rfl
  · rw [eliminateAliases, second, Unaliased.round_root, left, Alias.apply_nil]

theorem chained_elimination_ends :
    Alias.chained.IsFunctionTree ∧ Unaliased.Ends { root := Alias.chained } Alias.chained.eliminateAliases ∧
      Alias.chained.eliminateAliases.removed = 2 ∧ Alias.chained.eliminateAliases.rounds = 3 ∧
      (Alias.chained.walk.filter isDeclarator).length = 2 ∧
      Alias.chained.eliminateAliases.root.eliminateAliases.rounds = 1 := by
  have tree : Alias.chained.IsFunctionTree := ⟨⟨_, _, _, _, rfl⟩, by decide, by decide⟩
  obtain ⟨ends, -, -, -, rounds, -⟩ := elimination_ends Alias.chained tree
  exact ⟨tree, (ends _).mpr rfl, by decide +kernel, by decide +kernel, by decide, rounds⟩

end Node

end Unravel
