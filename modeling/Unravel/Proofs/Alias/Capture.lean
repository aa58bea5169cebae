import Unravel.Proofs.Alias.Round

/-! Alias elimination captures no name. The tree is resolved again after every round; what its references mean is
   compared with what they meant in the tree that the first round started from. -/
namespace Unravel

open Resolution

variable {b f : BindingId}

namespace Alias

/-- A variable with one declaration, initialised with a name at a node. -/
structure IsInitialiser (root : Node) (b : BindingId) (x : NodeId) : Prop where
  named : ∃ n ∈ root.walk, ∃ id init, n.form = .declarator id (some init) ∧ init.form.isName ∧ init.mark = x ∧
    ∃ record, (of root).binding? b = some record ∧ record.kind = .var ∧ record.declarations = [n.mark]

/-- The function that initialisers lead to from a variable. -/
inductive Leads (root : Node) : BindingId → BindingId → Prop
  | last {b f : BindingId} {x : NodeId} {record : Binding} : IsInitialiser root b x → (of root).bindingOf x = some f →
      (of root).binding? f = some record → record.kind = .function → Leads root b f
  | step {b c f : BindingId} {x : NodeId} : IsInitialiser root b x → (of root).bindingOf x = some c →
      Leads root c f → Leads root b f

/-- A binding of the first tree that the second one has no more. -/
def IsRemoved (root result : Node) (b : BindingId) : Prop :=
  ((of root).binding? b).isSome ∧ (of result).binding? b = none

variable {root : Node}

theorem IsInitialiser.unique (distinct : root.Distinct) {x y : NodeId} (hx : IsInitialiser root b x)
    (hy : IsInitialiser root b y) : x = y := by
  obtain ⟨n, hn, id, init, form, -, rfl, record, known, -, declared⟩ := hx
  obtain ⟨n', hn', id', init', form', -, rfl, record', known', -, declared'⟩ := hy
  rw [known, Option.some.injEq] at known'
  subst known'
  rw [declared, List.cons.injEq] at declared'
  have same := distinct.same_node hn hn' declared'.1
  subst same
  rw [form, Form.declarator.injEq, Option.some.injEq] at form'
  rw [form'.2]

theorem IsInitialiser.record {x : NodeId} (h : IsInitialiser root b x) :
    ∃ record, (of root).binding? b = some record ∧ record.kind = .var := by
  obtain ⟨-, -, -, -, -, -, -, record, known, kind, -⟩ := h
  exact ⟨record, known, kind⟩

theorem Leads.started (h : Leads root b f) :
    ∃ record, (of root).binding? b = some record ∧ record.kind = .var := by
  cases h with
  | last initialised => exact initialised.record
  | step initialised => exact initialised.record

theorem Leads.reached (h : Leads root b f) :
    ∃ record, (of root).binding? f = some record ∧ record.kind = .function := by
  induction h with
  | last _ _ known kind => exact ⟨_, known, kind⟩
  | step _ _ _ ih => exact ih

theorem not_var_and_function (v : ∃ record, (of root).binding? b = some record ∧ record.kind = .var)
    (f : ∃ record, (of root).binding? b = some record ∧ record.kind = .function) : False := by
  obtain ⟨record, known, kind⟩ := v
  obtain ⟨record', known', kind'⟩ := f
  rw [known, Option.some.injEq] at known'
  rw [← known', kind] at kind'
  cases kind'

theorem Leads.unique (distinct : root.Distinct) {g : BindingId} (hf : Leads root b f) (hg : Leads root b g) : f = g := by
  induction hf generalizing g with
  | last initialised means known kind =>
    cases hg with
    | last initialised' means' =>
      rw [initialised.unique distinct initialised', means', Option.some.injEq] at means
      exact means.symm
    | step initialised' means' further =>
      rw [initialised.unique distinct initialised', means', Option.some.injEq] at means
      exact (not_var_and_function (means ▸ further.started) ⟨_, known, kind⟩).elim
  | step initialised means further ih =>
    cases hg with
    | last initialised' means' known kind =>
      rw [initialised.unique distinct initialised', means', Option.some.injEq] at means
      exact (not_var_and_function further.started ⟨_, means ▸ known, kind⟩).elim
    | step initialised' means' further' =>
      rw [initialised.unique distinct initialised', means', Option.some.injEq] at means
      exact ih (means ▸ further')

/-- What is true of the tree after any number of rounds. -/
structure Reduced (root now : Node) : Prop where
  origin : root.IsFunctionTree
  tree : now.IsFunctionTree
  references : ∀ r' ∈ (of now).references, ∃ r ∈ (of root).references, r.node = r'.node ∧ r.isWrite = r'.isWrite ∧
    ((r'.name = r.name ∧ r'.binding = r.binding) ∨
      ∃ b f, r.binding = some b ∧ (of now).binding? b = none ∧ Leads root b f ∧ r'.name = f.name ∧ r'.binding = some f)
  records : ∀ b record, (of now).binding? b = some record → (of root).binding? b = some record
  declarators : ∀ n' ∈ now.walk, ∀ id' init', n'.form = .declarator id' (some init') → init'.form.isName →
    ∃ n ∈ root.walk, n.mark = n'.mark ∧ ∃ id init, n.form = .declarator id (some init) ∧ init.form.isName ∧
      init.mark = init'.mark
  survivors : ∀ r ∈ (of root).references, (∃ r' ∈ (of now).references, r'.node = r.node) ∨
    ∃ b, (of now).binding? b = none ∧ IsInitialiser root b r.node

theorem Reduced.refl (tree : root.IsFunctionTree) : Reduced root root where
  origin := tree
  tree := tree
  references r hr := ⟨r, hr, rfl, rfl, Or.inl ⟨rfl, rfl⟩⟩
  records _ _ known := known
  declarators n hn id init form name := ⟨n, hn, rfl, id, init, form, name, rfl⟩
  survivors r hr := Or.inl ⟨r, hr, rfl⟩

section Step

variable {now : Node} {a : Alias} {aliases : List Alias}

theorem Reduced.initialiser (h : Reduced root now) (one : IsAlias now a) {n id init : Node} (hn : n ∈ now.walk)
    (mark : n.mark = a.declarator) (form : n.form = .declarator id (some init)) (name : init.form.isName) :
    IsInitialiser root a.binding init.mark := by
  obtain ⟨record, known, kind, declared⟩ := one.record
  obtain ⟨n₀, hn₀, mark₀, id₀, init₀, form₀, name₀, same⟩ := h.declarators n hn id init form name
  refine ⟨n₀, hn₀, id₀, init₀, form₀, name₀, same, record, h.records _ _ known, kind, ?_⟩
  rw [declared, mark₀, mark]

theorem Reduced.leads (h : Reduced root now) (one : IsAlias now a) : Leads root a.binding a.target := by
  obtain ⟨n, hn, mark, id, init, form, name, means⟩ := one.declarator
  have initialised := h.initialiser one hn mark form name
  obtain ⟨record, known, kind⟩ := one.target
  obtain ⟨r', hr', node', means'⟩ := mem_of_bindingOf means
  obtain ⟨r, hr, node, -, meant⟩ := h.references r' hr'
  have original := bindingOf_of_mem h.origin.distinct hr
  rw [node, node'] at original
  rcases meant with ⟨-, same⟩ | ⟨b, f, was, -, leads, -, is⟩
  · exact .last initialised (original.trans (same.symm.trans means')) (h.records _ _ known) kind
  · rw [means', Option.some.injEq] at is
    exact .step initialised (original.trans was) (is ▸ leads)

/-- One round keeps the invariant, although all its aliases come from one resolution. -/
theorem Reduced.round (h : Reduced root now) (all : ∀ a ∈ aliases, IsAlias now a)
    (unshadowed : ∀ a ∈ aliases, a.isUnshadowed) : Reduced root (apply aliases now) := by
  refine ⟨h.origin, round_tree h.tree all, fun r'' hr'' => ?_, fun b record left => ?_,
    fun n'' hn'' id'' init'' form'' name'' => ?_, fun r hr => ?_⟩
  · obtain ⟨r', hr', node', write', step⟩ := round_reference h.tree all unshadowed hr''
    obtain ⟨r, hr, node, write, before⟩ := h.references r' hr'
    refine ⟨r, hr, node.trans node', write.trans write', ?_⟩
    rcases before with ⟨name, same⟩ | ⟨b, f, was, absent, leads, name, is⟩
    · rcases step with ⟨name', same', -⟩ | ⟨a, ha, was, name', is⟩
      · exact Or.inl ⟨name'.trans name, same'.trans same⟩
      · exact Or.inr ⟨_, _, same.symm.trans was, round_removed h.tree all ha, h.leads (all a ha), name', is⟩
    · rcases step with ⟨name', same', -⟩ | ⟨a, ha, was', -, -⟩
      · exact Or.inr ⟨b, f, was, round_absent h.tree all absent, leads, name'.trans name, same'.trans is⟩
      · -- a function is no alias
        rw [is, Option.some.injEq] at was'
        exact (not_var_and_function (was' ▸ (h.leads (all a ha)).started) leads.reached).elim
  · exact h.records b record (round_record h.tree all left).1
  · obtain ⟨n', hn', mark', id', init', form', name', same'⟩ := round_declarator h.tree all hn'' form'' name''
    obtain ⟨n, hn, mark, id, init, form, name, same⟩ := h.declarators n' hn' id' init' form' name'
    exact ⟨n, hn, mark.trans mark', id, init, form, name, same.trans same'⟩
  · rcases h.survivors r hr with ⟨r', hr', node'⟩ | ⟨b, absent, initialised⟩
    · rcases round_survivor h.tree all hr' with ⟨r'', hr'', node''⟩ | ⟨a, ha, n, hn, mark, id, init, form, name, same⟩
      · exact Or.inl ⟨r'', hr'', node''.trans node'⟩
      · have initialised := h.initialiser (all a ha) hn mark form name
        rw [same, node'] at initialised
        exact Or.inr ⟨_, round_removed h.tree all ha, initialised⟩
    · exact Or.inr ⟨b, round_absent h.tree all absent, initialised⟩

end Step

/-- All rounds keep the invariant. -/
theorem Reduced.run (bound : Nat) (u : Unaliased) (h : Reduced root u.root) : Reduced root (Unaliased.run bound u).root := by
  refine Unaliased.run_keeps (fun now aliases reduced found => ?_) bound u h
  exact reduced.round (fun a ha => isAlias_of_mem reduced.tree.distinct (found a ha).1) fun a ha => (found a ha).2

/-- No name of a tree is captured on the way to another one: a reference means what it meant, or the function that a
removed variable led to. Only the initialisers of removed variables are gone. -/
structure IsCaptureFree (root result : Node) : Prop where
  tree : result.IsFunctionTree
  origin : ∀ r' ∈ (of result).references, ∃ r ∈ (of root).references, r.node = r'.node ∧ r.isWrite = r'.isWrite
  kept : ∀ r ∈ (of root).references, ∀ r' ∈ (of result).references, r.node = r'.node →
    (∀ b, r.binding = some b → ¬ IsRemoved root result b) →
      r'.name = r.name ∧ r'.binding = r.binding ∧ ∀ b, r.binding = some b → (of result).binding? b = (of root).binding? b
  followed : ∀ r ∈ (of root).references, ∀ r' ∈ (of result).references, r.node = r'.node →
    ∀ b, r.binding = some b → IsRemoved root result b →
      ∃ f, Leads root b f ∧ (∀ g, Leads root b g → g = f) ∧ r'.name = f.name ∧ r'.binding = some f ∧
        (of result).binding? f = (of root).binding? f
  survivors : ∀ r ∈ (of root).references, (∃ r' ∈ (of result).references, r.node = r'.node) ∨
    ∃ b, IsRemoved root result b ∧ IsInitialiser root b r.node

theorem Reduced.not_removed {now : Node} (h : Reduced root now) {r' : Reference} (hr' : r' ∈ (of now).references)
    (means : r'.binding = some b) :
    (of now).binding? b = (of root).binding? b ∧ ¬ IsRemoved root now b := by
  obtain ⟨record, known, -⟩ := binding?_of_reference h.tree.distinct hr' means
  refine ⟨known.trans (h.records b record known).symm, fun removed => ?_⟩
  rw [removed.2] at known
  cases known

theorem Reduced.isCaptureFree {now : Node} (h : Reduced root now) : IsCaptureFree root now where
  tree := h.tree
  origin r' hr' := by
    obtain ⟨r, hr, node, write, -⟩ := h.references r' hr'
    exact ⟨r, hr, node, write⟩
  kept r hr r' hr' node kept := by
    obtain ⟨r₀, hr₀, node₀, -, meant⟩ := h.references r' hr'
    obtain rfl := reference_unique h.origin.distinct hr hr₀ (node.trans node₀.symm)
    rcases meant with ⟨name, same⟩ | ⟨b, f, was, absent, leads, -, -⟩
    · exact ⟨name, same, fun b means => (h.not_removed hr' (same.trans means)).1⟩
    · obtain ⟨record, known, -⟩ := leads.started
      exact absurd ⟨by rw [known]; rfl, absent⟩ (kept b was)
  followed r hr r' hr' node b means removed := by
    obtain ⟨r₀, hr₀, node₀, -, meant⟩ := h.references r' hr'
    obtain rfl := reference_unique h.origin.distinct hr hr₀ (node.trans node₀.symm)
    rcases meant with ⟨-, same⟩ | ⟨c, f, was, -, leads, name, is⟩
    · exact absurd removed (h.not_removed hr' (same.trans means)).2
    · rw [means, Option.some.injEq] at was
      subst was
      exact ⟨f, leads, fun g other => other.unique h.origin.distinct leads, name, is, (h.not_removed hr' is).1⟩
  survivors r hr := by
    rcases h.survivors r hr with ⟨r', hr', node⟩ | ⟨b, absent, initialised⟩
    · exact Or.inl ⟨r', hr', node.symm⟩
    · obtain ⟨record, known, -⟩ := initialised.record
      exact Or.inr ⟨b, ⟨by rw [known]; rfl, absent⟩, initialised⟩

theorem elimination_is_capture_free (root : Node) (h : root.IsFunctionTree) :
    IsCaptureFree root root.eliminateAliases.root :=
  ((Reduced.refl h).run _ _).isCaptureFree

/-- Two aliases of a function, one of the other, and a use of the second. -/
def chained : Node :=
  .node 0 (.function []
    [.node 1 (.declaration "var"
        [.node 2 (.declarator (.node 3 (.identifier "h")) (some (.node 4 (.identifier "g")))),
          .node 5 (.declarator (.node 6 (.identifier "g")) (some (.node 7 (.identifier "f"))))]),
      .node 8 (.functionDeclaration (.node 9 (.identifier "f")) [] []),
      .node 10 (.returnStatement (some (.node 11 (.call (.node 12 (.identifier "h")) []))))] none false)

theorem chained_capture_free :
    chained.IsFunctionTree ∧ IsCaptureFree chained chained.eliminateAliases.root ∧
      IsRemoved chained chained.eliminateAliases.root ⟨some 0, "h"⟩ ∧
      (of chained).bindingOf 12 = some ⟨some 0, "h"⟩ ∧
      (of chained.eliminateAliases.root).bindingOf 12 = some ⟨some 0, "f"⟩ := by
  have tree : chained.IsFunctionTree := ⟨⟨_, _, _, _, rfl⟩, by decide, by decide⟩
  exact ⟨tree, elimination_is_capture_free chained tree, ⟨by decide +kernel, by decide +kernel⟩, by decide +kernel,
    by decide +kernel⟩

end Alias

end Unravel
