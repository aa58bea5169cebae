import Unravel.Alias
import Unravel.Proofs.Scope.Lookup

/-! One round of alias elimination. All aliases are found in one resolution; their references are renamed and their
   declarators deleted together. A declaration is deleted exactly if its binding is one of the aliases, so no other
   name can come to mean something else. -/
namespace Unravel

open Resolution List

namespace Alias

variable {root : Node} {a : Alias} {aliases : List Alias}

/-- What makes a variable an alias: its only declaration is initialised with a name that means a function. -/
structure IsAlias (root : Node) (a : Alias) : Prop where
  declarator : ∃ n ∈ root.walk, n.mark = a.declarator ∧ ∃ id init, n.form = .declarator id (some init) ∧
    init.form.isName ∧ (of root).bindingOf init.mark = some a.target
  record : ∃ record, (of root).binding? a.binding = some record ∧ record.kind = .var ∧
    record.declarations = [a.declarator]
  target : ∃ record, (of root).binding? a.target = some record ∧ record.kind = .function
  references : a.references = (of root).referencesTo a.binding

theorem initialiser?_eq_some {d : NodeId} {init : Node} (h : initialiser? root d = some init) :
    ∃ n ∈ root.walk, n.mark = d ∧ (∃ id, n.form = .declarator id (some init)) ∧ init.form.isName := by
  rw [initialiser?] at h
  split at h
  next id init' form =>
    obtain ⟨n, found, form⟩ := Option.map_eq_some_iff.mp form
    obtain ⟨inside, mark⟩ := Node.mem_of_find? found
    split at h
    next x name =>
      cases h
      exact ⟨n, inside, mark, ⟨id, form⟩, by rw [name]; rfl⟩
    next => cases h
  next => cases h

theorem ofBinding?_eq_some {names : Resolution} {id : BindingId} (h : ofBinding? root names id = some a) :
    ∃ record init, names.binding? id = some record ∧ record.kind = .var ∧ record.declarations.length = 1 ∧
      initialiser? root record.node = some init ∧ names.bindingOf init.mark = some a.target ∧
      isFunction names a.target ∧ a.binding = id ∧ a.declarator = record.node ∧ a.references = names.referencesTo id := by
  unfold ofBinding? at h
  simp only [Option.bind_eq_bind, Option.bind_eq_some_iff] at h
  obtain ⟨record, known, h⟩ := h
  split at h
  next => cases h
  next variable_ =>
    simp only [not_or, ne_eq, not_not] at variable_
    simp only [Option.bind_eq_some_iff] at h
    obtain ⟨init, found, target, means, h⟩ := h
    split at h
    next => cases h
    next eligible =>
      cases h
      simp only [not_or] at eligible
      refine ⟨record, init, known, variable_.1, variable_.2, found, means, ?_, rfl, rfl, rfl⟩
      simpa using eligible.2.1

theorem isAlias_of_mem (distinct : root.Distinct) (h : a ∈ find root (of root)) : IsAlias root a := by
  rw [find, mem_filterMap] at h
  obtain ⟨id, -, found⟩ := h
  obtain ⟨record, init, known, kind, single, initialised, means, function, rfl, declarator, references⟩ :=
    ofBinding?_eq_some found
  obtain ⟨n, hn, mark, ⟨x, form⟩, name⟩ := initialiser?_eq_some initialised
  obtain ⟨f, hf, owner, d, declared, rfl⟩ := single_declaration distinct known single
  rw [isFunction, Option.any_eq_true] at function
  obtain ⟨target, known', function⟩ := function
  exact ⟨⟨n, hn, mark.trans declarator.symm, x, init, form, name, means⟩, ⟨_, known, kind, by rw [declarator]⟩,
    ⟨target, known', by simpa using function⟩, references⟩

theorem IsAlias.declaration (h : IsAlias root a) (distinct : root.Distinct) :
    ∃ f ∈ root.frames, f.owner = a.binding.scope ∧
      ∃ d, f.declarations.filter (fun d => d.name = a.binding.name) = [d] ∧ d.key = a.declarator := by
  obtain ⟨record, known, kind, declarations⟩ := h.record
  obtain ⟨f, hf, owner, d, declared, rfl⟩ := single_declaration distinct known (by rw [declarations]; rfl)
  have hd : d ∈ f.declarations.filter fun d => d.name = a.binding.name := declared ▸ mem_singleton_self d
  have key := (Node.var_declaration hf (mem_of_mem_filter hd) kind).1
  refine ⟨f, hf, owner, d, declared, ?_⟩
  rw [← key]
  simpa using declarations

/-- The declarators that go. -/
def condemned (aliases : List Alias) (id : NodeId) : Bool := aliases.any fun a => a.declarator == id

theorem condemned_iff {id : NodeId} : condemned aliases id ↔ ∃ a ∈ aliases, a.declarator = id := by
  simp [condemned]

theorem condemned_key_iff (distinct : root.Distinct) (all : ∀ a ∈ aliases, IsAlias root a) {f : Frame}
    (hf : f ∈ root.frames) {d : Declaration} (hd : d ∈ f.declarations) :
    condemned aliases d.key ↔ ∃ a ∈ aliases, a.binding = ⟨f.owner, d.name⟩ := by
  rw [condemned_iff]
  refine exists_congr fun a => and_congr_right fun ha => ?_
  obtain ⟨g, hg, owner, e, declared, key⟩ := (all a ha).declaration distinct
  have he : e ∈ g.declarations.filter fun d => d.name = a.binding.name := declared ▸ mem_singleton_self e
  obtain ⟨he, named⟩ := mem_filter.mp he
  constructor
  · intro same
    obtain ⟨rfl, rfl⟩ := Node.declaration_unique distinct hg hf he hd (key.trans same)
    rw [owner, of_decide_eq_true named]
  · intro same
    rw [same] at owner declared
    have frame := Node.frame_eq distinct hg hf owner
    subst frame
    have listed : d ∈ g.declarations.filter fun e => e.name = d.name := mem_filter.mpr ⟨hd, by simp⟩
    rw [show (g.declarations.filter fun e => e.name = d.name) = [e] from declared, mem_singleton] at listed
    rw [listed, key]

/-- The identifier that takes the place of a reference to an alias. -/
def rename (aliases : List Alias) (n : Node) : Option Node :=
  (newName? aliases n.mark).map fun name => .node n.mark (.identifier name)

theorem apply_eq (aliases : List Alias) (root : Node) :
    apply aliases root = Node.delete (condemned aliases) (Node.substitute (rename aliases) root) := rfl

theorem rename_separate (distinct : root.Distinct) (aliases : List Alias) : Node.Separate (rename aliases) root := by
  have only : ∀ n k, rename aliases n = some k → Node.ids k = [n.mark] := by
    intro n k renamed
    obtain ⟨name, -, rfl⟩ := Option.map_eq_some_iff.mp renamed
    rfl
  constructor
  · intro n _ k renamed
    rw [Node.Distinct, only n k renamed]
    exact nodup_singleton _
  · intro n _ k renamed x hx _
    rw [only n k renamed, mem_singleton] at hx
    exact hx ▸ Node.mark_mem_ids (self_mem_walk n)
  · intro n hn k renamed l hl j renamed' x hx hx'
    rw [only n k renamed, mem_singleton] at hx
    rw [only l j renamed', mem_singleton] at hx'
    exact distinct.same_node hn hl (hx.symm.trans hx')

theorem newName?_eq_some (all : ∀ a ∈ aliases, IsAlias root a) {x : NodeId} {name : Text}
    (h : newName? aliases x = some name) :
    ∃ a ∈ aliases, ∃ r ∈ a.references, r ∈ (of root).references ∧ r.node = x ∧ r.binding = some a.binding ∧
      name = a.target.name := by
  rw [newName?, Option.map_eq_some_iff] at h
  obtain ⟨a, found, rfl⟩ := h
  have ha := mem_of_find?_eq_some found
  have refers := find?_some found
  obtain ⟨r, hr, node⟩ := any_eq_true.mp refers
  have listed := hr
  rw [(all a ha).references, mem_referencesTo] at listed
  exact ⟨a, ha, r, hr, listed.1, by simpa using node, listed.2, rfl⟩

theorem newName?_eq_none (all : ∀ a ∈ aliases, IsAlias root a) {r : Reference} (hr : r ∈ (of root).references)
    (h : newName? aliases r.node = none) : ∀ a ∈ aliases, r.binding ≠ some a.binding := by
  intro a ha means
  rw [newName?, Option.map_eq_none_iff, find?_eq_none] at h
  refine h a ha (any_eq_true.mpr ⟨r, ?_, by simp⟩)
  rw [(all a ha).references, mem_referencesTo]
  exact ⟨hr, means⟩

theorem rename_eq_some (distinct : root.Distinct) (all : ∀ a ∈ aliases, IsAlias root a) {n k : Node} (hn : n ∈ root.walk)
    (h : rename aliases n = some k) :
    (∃ s ∈ root.overview, s.node = n) ∧ ∃ m x y, n = .node m (.identifier x) ∧ k = .node m (.identifier y) := by
  rw [rename, Option.map_eq_some_iff] at h
  obtain ⟨name, found, rfl⟩ := h
  obtain ⟨a, -, r, -, hr, node, -, -⟩ := newName?_eq_some all found
  obtain ⟨s, hs, refers⟩ := mem_references.mp hr
  obtain ⟨leaf, -, -⟩ := reference_of_sight refers
  have same : s.node = n := by
    refine distinct.same_node (Node.node_mem_walk hs) hn ?_
    rw [leaf, ← node]
    rfl
  refine ⟨⟨s, hs, same⟩, r.node, r.name, name, same ▸ leaf, ?_⟩
  rw [← node]

theorem lookup_round (distinct : root.Distinct) (all : ∀ a ∈ aliases, IsAlias root a) {s : Sight}
    (hs : s ∈ root.overview) {name : Text} {b : BindingId}
    (means : Scope.lookup name (s.frames.map Frame.scope) = some b) (other : ∀ a ∈ aliases, a.binding ≠ b) :
    Scope.lookup name ((s.frames.map (Node.strip (condemned aliases))).map Frame.scope) = some b := by
  refine Node.lookup_strip means fun f hf owner declares => ?_
  obtain ⟨d, hd, rfl⟩ := declares
  refine ⟨d, hd, rfl, fun doomed => ?_⟩
  obtain ⟨a, ha, same⟩ := (condemned_key_iff distinct all (Node.frame_mem_frames hs hf) hd).mp doomed
  obtain ⟨g, -, -, rfl⟩ := Frame.lookup_eq_some means
  refine other a ha (same.trans ?_)
  rw [owner]

theorem IsAlias.binding_ne_target {a' : Alias} (h : IsAlias root a) (h' : IsAlias root a') : a'.binding ≠ a.target := by
  intro same
  obtain ⟨record, known, function⟩ := h.target
  obtain ⟨record', known', variable_, -⟩ := h'.record
  rw [same, known] at known'
  cases known'
  rw [function] at variable_
  cases variable_

section Renaming

variable (tree : root.IsFunctionTree) (all : ∀ a ∈ aliases, IsAlias root a)

include tree all

theorem rename_neutral : Node.Neutral (rename aliases) root where
  names n hn p hp role := by
    cases renamed : rename aliases p.tree with
    | none => rfl
    | some k =>
      have inside := walk_trans hn (child_mem_walk (place_mem_children hp))
      obtain ⟨⟨s, hs, same⟩, -⟩ := rename_eq_some tree.distinct all inside renamed
      exact absurd (Node.mem_declaredNames.mpr ⟨p, hp, role, same.symm⟩) (Node.not_mem_declaredNames tree.distinct hs hn)
  hoisted n hn k renamed := by
    obtain ⟨-, m, x, y, rfl, rfl⟩ := rename_eq_some tree.distinct all hn renamed
    rfl

theorem rename_root : rename aliases root = none := by
  cases renamed : rename aliases root with
  | none => rfl
  | some k =>
    obtain ⟨-, m, x, y, leaf, -⟩ := rename_eq_some tree.distinct all (self_mem_walk root) renamed
    obtain ⟨params, body, name, isArrow, function⟩ := tree.function
    rw [leaf] at function
    cases function

theorem renamed_tree : (Node.substitute (rename aliases) root).IsFunctionTree := by
  refine tree.substitute (rename_root tree all) (rename_separate tree.distinct aliases) (fun n hn k renamed => ?_)
    fun n hn p hp k renamed => ?_
  · obtain ⟨-, m, x, y, rfl, rfl⟩ := rename_eq_some tree.distinct all hn renamed
    exact grammatical_node.mpr ⟨nofun, nofun⟩
  · have admitted := tree.grammatical n hn p hp
    have inside := walk_trans hn (child_mem_walk (place_mem_children hp))
    obtain ⟨-, m, x, y, same, rfl⟩ := rename_eq_some tree.distinct all inside renamed
    rw [same] at admitted
    cases role : p.role <;> (rw [role] at admitted; exact admitted)

theorem renamed_frames {f : Frame} (hf : f ∈ (Node.substitute (rename aliases) root).frames) : f ∈ root.frames := by
  refine Node.frames_substitute tree.grammatical (rename_neutral tree all) (rename_root tree all) tree.not_statement ?_ hf
  intro n hn k renamed j hj
  obtain ⟨-, m, x, y, -, rfl⟩ := rename_eq_some tree.distinct all hn renamed
  rcases mem_walk_node.mp hj with rfl | ⟨c, hc, -⟩
  · rfl
  · cases hc

theorem renamed_name {n : Node} (hn : n ∈ root.walk) (name : n.form.isName) :
    ∃ y, Node.substitute (rename aliases) n = .node n.mark (.identifier y) := by
  cases renamed : rename aliases n with
  | none =>
    obtain ⟨m, x, rfl⟩ := form_of_isName name
    exact ⟨x, Node.substitute_of_none renamed⟩
  | some k =>
    obtain ⟨-, m, x, y, rfl, rfl⟩ := rename_eq_some tree.distinct all hn renamed
    exact ⟨y, Node.substitute_of_some renamed⟩

theorem condemned_origin {n : Node} (hn : n ∈ (Node.substitute (rename aliases) root).walk) (doomed : condemned aliases n.mark) :
    ∃ a ∈ aliases, ∃ m id init, (.node m (.declarator id (some init)) : Node) ∈ root.walk ∧ m = a.declarator ∧
      init.form.isName ∧ n = .node m (.declarator (Node.substitute (rename aliases) id)
        (some (Node.substitute (rename aliases) init))) := by
  obtain ⟨a, ha, mark⟩ := condemned_iff.mp doomed
  obtain ⟨⟨m, f⟩, hd, same, id, init, form, name, -⟩ := (all a ha).declarator
  cases form
  refine ⟨a, ha, m, id, init, hd, same, name, ?_⟩
  rcases Node.mem_walk_substitute hn with ⟨k, hk, kept, rfl⟩ | ⟨k, hk, r, renamed, hr⟩
  · rw [Node.mark_substitute kept] at mark
    have origin := tree.distinct.same_node hk hd (mark.symm.trans same.symm)
    subst origin
    exact Node.substitute_of_none kept
  · obtain ⟨-, m', x, y, rfl, rfl⟩ := rename_eq_some tree.distinct all hk renamed
    rcases mem_walk_node.mp hr with rfl | ⟨c, hc, -⟩
    · cases tree.distinct.same_node hd hk (same.trans mark)
    · cases hc

theorem condemned_detachable : Node.Detachable (condemned aliases) (Node.substitute (rename aliases) root) := by
  intro n hn doomed
  obtain ⟨a, ha, m, id, init, -, -, -, rfl⟩ := condemned_origin tree all hn doomed
  exact ⟨rfl, fun e he => congrArg _ (mem_singleton.mp he)⟩

theorem round_tree : (apply aliases root).IsFunctionTree := (renamed_tree tree all).delete

/-- A sight after the round is that of a node before it, renamed if it refers to an alias. -/
theorem round_sight {s' : Sight} (hs' : s' ∈ (apply aliases root).overview) {m : NodeId} {y : Text}
    (leaf : s'.node = .node m (.identifier y)) :
    ∃ s ∈ root.overview, s'.isWrite = s.isWrite ∧ s'.frames = s.frames.map (Node.strip (condemned aliases)) ∧
      ∃ x, s.node = .node m (.identifier x) ∧ y = (newName? aliases m).getD x := by
  have after := renamed_tree tree all
  obtain ⟨s₁, hs₁, rfl⟩ := Node.delete_overview after.grammatical (condemned_detachable tree all) after.not_statement hs'
  have leaf₁ := Node.delete_eq_identifier leaf
  obtain ⟨s, hs, ⟨kept, rfl⟩ | ⟨k, renamed, hs₁⟩⟩ := Node.substitute_overview tree.grammatical (rename_neutral tree all)
    (rename_root tree all) tree.not_statement hs₁
  · have origin := Node.substitute_eq_identifier kept leaf₁
    refine ⟨s, hs, rfl, rfl, y, origin, ?_⟩
    rw [rename, origin, Option.map_eq_none_iff, mark_node] at kept
    rw [kept]
    rfl
  · obtain ⟨-, j, x, z, origin, rfl⟩ := rename_eq_some tree.distinct all (Node.node_mem_walk hs) renamed
    rcases Node.mem_sights_node.mp hs₁ with rfl | ⟨p, hp, -⟩
    · cases leaf₁
      refine ⟨s, hs, rfl, rfl, x, origin, ?_⟩
      rw [rename, origin, Option.map_eq_some_iff, mark_node] at renamed
      obtain ⟨name, found, same⟩ := renamed
      cases same
      rw [found]
      rfl
    · cases hp

/-- After a round a reference means what it meant before, unless that was an alias: then it means the function. -/
theorem round_reference (unshadowed : ∀ a ∈ aliases, a.isUnshadowed) {r' : Reference} (hr' : r' ∈ (of (apply aliases root)).references) :
    ∃ r ∈ (of root).references, r.node = r'.node ∧ r.isWrite = r'.isWrite ∧
      ((r'.name = r.name ∧ r'.binding = r.binding ∧ ∀ a ∈ aliases, r.binding ≠ some a.binding) ∨
        ∃ a ∈ aliases, r.binding = some a.binding ∧ r'.name = a.target.name ∧ r'.binding = some a.target) := by
  obtain ⟨s', hs', refers⟩ := mem_references.mp hr'
  obtain ⟨leaf, write, binding⟩ := reference_of_sight refers
  obtain ⟨s, hs, write', frames, x, origin, name⟩ := round_sight tree all hs' leaf
  have found : s.reference? = some ⟨r'.node, x, s.isWrite, s.frames.map Frame.scope⟩ := by
    rw [Sight.reference?, origin]
    rfl
  have hr := mem_references.mpr ⟨s, hs, found⟩
  rw [frames] at binding
  refine ⟨_, hr, rfl, write'.symm.trans write, ?_⟩
  cases renamed : newName? aliases r'.node with
  | none =>
    rw [renamed, Option.getD_none] at name
    have other := newName?_eq_none all hr renamed
    refine Or.inl ⟨name, ?_, other⟩
    rw [binding, name]
    cases means : Scope.lookup x (s.frames.map Frame.scope) with
    | none => exact (Node.lookup_strip_none means).trans means.symm
    | some b =>
      have distinct_binding : ∀ a ∈ aliases, a.binding ≠ b := by
        rintro a ha rfl
        exact other a ha means
      exact (lookup_round tree.distinct all hs means distinct_binding).trans means.symm
  | some y =>
    rw [renamed, Option.getD_some] at name
    obtain ⟨a, ha, r, hr', listed, node, means, rfl⟩ := newName?_eq_some all renamed
    have same := reference_unique tree.distinct listed hr node
    subst same
    have visible : Scope.lookup a.target.name (s.frames.map Frame.scope) = some a.target := by
      simpa using all_eq_true.mp (unshadowed a ha) _ hr'
    refine Or.inr ⟨a, ha, means, name, ?_⟩
    rw [binding, name]
    exact lookup_round tree.distinct all hs visible fun a' ha' => (all a ha).binding_ne_target (all a' ha')

theorem round_record {b : BindingId} {record : Binding} (h : (of (apply aliases root)).binding? b = some record) :
    (of root).binding? b = some record ∧ ∀ a ∈ aliases, a.binding ≠ b := by
  have after := renamed_tree tree all
  obtain ⟨f', hf', owner, found⟩ := (binding?_eq_some (round_tree tree all).distinct).mp h
  obtain ⟨f, hf, rfl⟩ := Node.frames_delete after.grammatical (condemned_detachable tree all) after.not_statement hf'
  have known := renamed_frames tree all hf
  have declares : (Node.strip (condemned aliases) f).scope.declares b.name := Scope.declares_iff.mpr (by rw [found]; rfl)
  obtain ⟨d, hd, named⟩ := Scope.declares_ofDeclarations.mp declares
  have owner : f.owner = b.scope := owner
  have same : b = ⟨f.owner, d.name⟩ := by rw [owner, named]
  have other : ∀ a ∈ aliases, a.binding ≠ b := by
    intro a ha isOne
    have spare := (mem_filter.mp hd).2
    have doomed := (condemned_key_iff tree.distinct all known (mem_of_mem_filter hd)).mpr ⟨a, ha, isOne.trans same⟩
    rw [doomed] at spare
    cases spare
  refine ⟨(binding?_eq_some tree.distinct).mpr ⟨f, known, owner, ?_⟩, other⟩
  rw [← found]
  refine (Node.find?_strip fun e he named' doomed => ?_).symm
  obtain ⟨a, ha, isOne⟩ := (condemned_key_iff tree.distinct all known he).mp doomed
  refine other a ha (isOne.trans ?_)
  rw [owner, named']

theorem round_absent {b : BindingId} (absent : (of root).binding? b = none) : (of (apply aliases root)).binding? b = none := by
  cases left : (of (apply aliases root)).binding? b with
  | none => rfl
  | some record => cases absent.symm.trans (round_record tree all left).1

theorem round_removed (ha : a ∈ aliases) : (of (apply aliases root)).binding? a.binding = none := by
  cases left : (of (apply aliases root)).binding? a.binding with
  | none => rfl
  | some record => exact absurd rfl ((round_record tree all left).2 a ha)

theorem round_declarator {n' id' init' : Node} (hn' : n' ∈ (apply aliases root).walk)
    (form' : n'.form = .declarator id' (some init')) (name' : init'.form.isName) :
    ∃ n ∈ root.walk, n.mark = n'.mark ∧ ∃ id init, n.form = .declarator id (some init) ∧ init.form.isName ∧
      init.mark = init'.mark := by
  rw [apply_eq] at hn'
  obtain ⟨n₁, hn₁, rfl⟩ := Node.mem_walk_delete hn'
  rcases Node.mem_walk_substitute hn₁ with ⟨⟨m, f⟩, hk, kept, rfl⟩ | ⟨k, hk, r, renamed, hr⟩
  · rw [Node.substitute_of_none kept, Node.delete_node, form_node] at form'
    rw [Node.mark_delete, Node.mark_substitute kept]
    refine ⟨_, hk, rfl, ?_⟩
    cases f with
    | declarator id x =>
      cases x with
      | none => cases form'
      | some init =>
        rw [Form.map, Form.prune_declarator, Option.map_some, Option.bind_some, Form.declarator.injEq] at form'
        obtain ⟨-, -, rfl⟩ := Node.delete?_eq_some.mp form'.2
        have below : init ∈ root.walk := walk_trans hk (child_mem_walk (by simp [Tree.children, Form.children]))
        rw [Node.mark_delete]
        obtain ⟨m', x, named⟩ := form_of_isName name'
        have leaf := Node.delete_eq_identifier named
        cases renamed : rename aliases init with
        | none =>
          obtain rfl := Node.substitute_eq_identifier renamed leaf
          exact ⟨id, _, rfl, rfl, by rw [Node.mark_substitute renamed]⟩
        | some k =>
          obtain ⟨-, m'', x', y, rfl, rfl⟩ := rename_eq_some tree.distinct all below renamed
          exact ⟨id, _, rfl, rfl, by rw [Node.substitute_of_some renamed]; rfl⟩
    | _ => cases form'
  · obtain ⟨-, m, x, y, rfl, rfl⟩ := rename_eq_some tree.distinct all hk renamed
    rcases mem_walk_node.mp hr with rfl | ⟨c, hc, -⟩
    · cases form'
    · cases hc

/-- Only what a deleted declarator was initialised with is no longer looked at. -/
theorem round_survivor {r : Reference} (hr : r ∈ (of root).references) :
    (∃ r' ∈ (of (apply aliases root)).references, r'.node = r.node) ∨
      ∃ a ∈ aliases, ∃ n ∈ root.walk, n.mark = a.declarator ∧ ∃ id init, n.form = .declarator id (some init) ∧
        init.form.isName ∧ init.mark = r.node := by
  have after := renamed_tree tree all
  obtain ⟨s, hs, refers⟩ := mem_references.mp hr
  obtain ⟨leaf, -, -⟩ := reference_of_sight refers
  have inside := Node.node_mem_walk hs
  obtain ⟨y, renamed⟩ := renamed_name tree all inside (by rw [leaf]; rfl)
  rw [leaf, mark_node] at renamed
  have hs₁ : ⟨s.isWrite, .node r.node (.identifier y), s.frames⟩ ∈ (Node.substitute (rename aliases) root).overview := by
    refine Node.substitute_still_seen tree.grammatical (rename_neutral tree all) (rename_root tree all) tree.not_statement
      tree.distinct hs ?_ _ ?_
    · intro n hn through above
      cases renamed : rename aliases n with
      | none => rfl
      | some k =>
        -- a renamed node is an identifier, and nothing is below it
        obtain ⟨-, m, x, y, rfl, -⟩ := rename_eq_some tree.distinct all hn renamed
        rcases mem_walk_node.mp through with same | ⟨c, hc, -⟩
        · exact absurd same.symm above
        · cases hc
    · rw [leaf, renamed]
      exact Node.mem_sights_node.mpr (Or.inl rfl)
  by_cases safe : ∀ n ∈ (Node.substitute (rename aliases) root).walk, (.node r.node (.identifier y) : Node) ∈ n.walk →
      ¬ condemned aliases n.mark
  · have seen := Node.delete_still_seen after.grammatical (condemned_detachable tree all) after.not_statement
      after.distinct hs₁ Bool.false_ne_true safe
    exact Or.inl ⟨_, mem_references.mpr ⟨_, seen, rfl⟩, rfl⟩
  · right
    push Not at safe
    obtain ⟨n, hn, through, doomed⟩ := safe
    obtain ⟨a, ha, m, id, init, hd, same, name, rfl⟩ := condemned_origin tree all hn doomed
    have below : ∀ c, c = id ∨ c = init → c ∈ root.walk := fun c hc =>
      walk_trans hd (child_mem_walk (by simpa [Tree.children, Form.children] using hc))
    refine ⟨a, ha, _, hd, same, id, init, rfl, name, ?_⟩
    rcases mem_walk_node.mp through with leaf' | ⟨c, hc, through⟩
    · cases leaf'
    · have hc : c ∈ [Node.substitute (rename aliases) id, Node.substitute (rename aliases) init] := hc
      simp only [mem_cons, not_mem_nil, or_false] at hc
      rcases hc with rfl | rfl
      · -- the declared name is no reference
        have declared : id ∈ (Form.declarator id (some init)).declaredNames := mem_singleton_self id
        obtain ⟨p, hp, role, rfl⟩ := Node.mem_declaredNames.mp declared
        rw [((rename_neutral tree all).subtree hd).name (tree.grammatical.subtree hd) hp role] at through
        have admitted := (grammatical_node.mp (tree.grammatical.subtree hd)).1 p hp
        rw [role] at admitted
        obtain ⟨k, x, named⟩ := form_of_isName admitted
        rw [named] at through
        have same_mark : s.node.mark = p.tree.mark := by
          rcases mem_walk_node.mp through with leaf' | ⟨c, hc, -⟩
          · cases leaf'
            rw [leaf, named]
            rfl
          · cases hc
        have same_node := tree.distinct.same_node inside (below p.tree (Or.inl rfl)) same_mark
        exact absurd (same_node ▸ declared) (Node.not_mem_declaredNames tree.distinct hs hd)
      · obtain ⟨z, renamed'⟩ := renamed_name tree all (below init (Or.inr rfl)) name
        rw [renamed'] at through
        rcases mem_walk_node.mp through with leaf' | ⟨c, hc, -⟩
        · exact (congrArg Tree.mark leaf').symm
        · cases hc

end Renaming

end Alias

/-- What each round keeps holds after all of them. -/
theorem Unaliased.run_keeps {P : Node → Prop} (step : ∀ now aliases, P now →
      (∀ a ∈ aliases, a ∈ Alias.find now (of now) ∧ a.isUnshadowed) → P (Alias.apply aliases now))
    (bound : Nat) (u : Unaliased) (start : P u.root) : P (run bound u).root := by
  induction bound generalizing u with
  | zero => exact start
  | succ bound ih =>
    have next : P u.round.1.root := by
      rw [round, partition_eq_filter_filter]
      dsimp only
      split
      · exact start
      · exact step _ _ start fun a ha => ⟨mem_of_mem_filter ha, (mem_filter.mp ha).2⟩
    rw [run]
    split
    next later again => exact ih _ (by rwa [again] at next)
    next later done => rwa [done] at next

end Unravel
