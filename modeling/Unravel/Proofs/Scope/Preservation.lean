import Unravel.Proofs.Scope.Keys
import Unravel.Proofs.Scope.Simulation
import Unravel.Proofs.Syntax.Ancestors

/-! Edits that change the meaning of no name: what is left of the references of a tree means what it meant. Expressions
   can be replaced by literals, and functions deleted that only what goes with them refers to. -/
namespace Unravel

open Resolution

namespace Resolution

/-- Every reference of the second tree is one of the first, and means the same there, with the same declarations. -/
def Preserved (root result : Node) : Prop :=
  ∀ r' ∈ (of result).references, ∃ r ∈ (of root).references, r.node = r'.node ∧ r.name = r'.name ∧
    r.isWrite = r'.isWrite ∧ r.binding = r'.binding ∧
    ∀ b, r'.binding = some b → (of result).binding? b = (of root).binding? b

theorem Preserved.refl (root : Node) : Preserved root root :=
  fun r hr => ⟨r, hr, rfl, rfl, rfl, rfl, fun _ _ => rfl⟩

theorem Preserved.trans {root middle result : Node} (h : Preserved root middle) (h' : Preserved middle result) :
    Preserved root result := by
  intro r'' hr''
  obtain ⟨r', hr', node', name', write', same', record'⟩ := h' r'' hr''
  obtain ⟨r, hr, node, name, write, same, record⟩ := h r' hr'
  refine ⟨r, hr, node.trans node', name.trans name', write.trans write', same.trans same', fun b means => ?_⟩
  rw [record' b means, record b (same'.trans means)]

theorem Preserved.declared {root result : Node} (h : Preserved root result) (before : root.IsFunctionTree)
    (after : result.Distinct) {n : Node} (hn : n ∈ root.walk) (compound : ¬ n.form.isName) {b : BindingId}
    (declares : (of root).bindingFor n.mark = some b) {r' : Reference} (hr' : r' ∈ (of result).references)
    (means : r'.binding = some b) : n.mark ∈ result.ids := by
  obtain ⟨f, hf, d, hd, key, rfl⟩ := (bindingFor_eq_some before.distinct).mp declares
  have node := (Node.function_declaration before.distinct before.grammatical hf hd hn compound key).1
  obtain ⟨record, known, -, nodes⟩ := binding?_of_mem before.distinct hf ⟨d, hd, rfl⟩
  obtain ⟨r, -, -, -, -, -, same⟩ := h r' hr'
  rw [← same _ means] at known
  obtain ⟨f', hf', owner, nodes'⟩ := declarations_of_binding? after known
  have listed : d.node ∈ record.declarations := by
    rw [nodes]
    exact List.mem_map_of_mem (List.mem_filter.mpr ⟨hd, decide_eq_true rfl⟩)
  rw [nodes'] at listed
  obtain ⟨d', hd', same_node⟩ := List.mem_map.mp listed
  have inside := Node.declaration_node hf' (List.mem_of_mem_filter hd')
  rwa [same_node, node, key] at inside

end Resolution

namespace Node

section Deletion

variable {doomed : NodeId → Bool} {root : Node}

theorem preserved_delete (h : root.IsFunctionTree) (detachable : Detachable doomed root)
    (unused : ∀ f ∈ root.frames, ∀ d ∈ f.declarations, doomed d.key → ∀ r ∈ (of root).references,
      r.binding = some ⟨f.owner, d.name⟩ → r.node ∉ (delete doomed root).ids) :
    Preserved root (delete doomed root) := by
  intro r' hr'
  obtain ⟨s', hs', refers⟩ := mem_references.mp hr'
  obtain ⟨leaf, write, binding⟩ := reference_of_sight refers
  obtain ⟨s, hs, rfl⟩ := delete_overview h.grammatical detachable h.not_statement hs'
  have left : r'.node ∈ (delete doomed root).ids := reference_mem_ids hr'
  have origin := delete_eq_identifier leaf
  have found : s.reference? = some ⟨r'.node, r'.name, s.isWrite, s.frames.map Frame.scope⟩ := by
    rw [Sight.reference?, origin]
    rfl
  have hr := mem_references.mpr ⟨s, hs, found⟩
  have spare : ∀ b, Scope.lookup r'.name (s.frames.map Frame.scope) = some b → ∀ f ∈ root.frames, f.owner = b.scope →
      ∀ d ∈ f.declarations, d.name = r'.name → ¬ doomed d.key := by
    intro b means f hf owner d hd named condemned
    refine unused f hf d hd condemned _ hr (means.trans ?_) left
    obtain ⟨g, -, -, rfl⟩ := Frame.lookup_eq_some means
    rw [owner, named]
  have same : Scope.lookup r'.name (s.frames.map Frame.scope) = r'.binding := by
    rw [binding]
    cases means : Scope.lookup r'.name (s.frames.map Frame.scope) with
    | none => exact (lookup_strip_none means).symm
    | some b =>
      refine (lookup_strip means fun f hf owner declared => ?_).symm
      obtain ⟨d, hd, named⟩ := declared
      exact ⟨d, hd, named, spare b means f (frame_mem_frames hs hf) owner d hd named⟩
  refine ⟨_, hr, rfl, rfl, write, same, fun b means => ?_⟩
  obtain ⟨record, known, -⟩ := binding?_of_reference h.distinct.delete hr' means
  obtain ⟨f', hf', owner, found'⟩ := (binding?_eq_some h.distinct.delete).mp known
  obtain ⟨f, hf, rfl⟩ := frames_delete h.grammatical detachable h.not_statement hf'
  have meant := same.trans means
  have named : b.name = r'.name := by
    obtain ⟨g, -, -, rfl⟩ := Frame.lookup_eq_some meant
    rfl
  rw [known, eq_comm, binding?_eq_some h.distinct]
  refine ⟨f, hf, owner, ?_⟩
  rw [← found', named]
  exact (find?_strip fun d hd named' => spare b meant f hf owner d hd named').symm

end Deletion

section Substitution

variable {new : Node → Option Node} {root : Node}

theorem preserved_substitute (h : root.IsFunctionTree) (after : (substitute new root).Distinct)
    (neutral : Neutral new root) (kept : new root = none)
    (closed : ∀ n ∈ root.walk, ∀ r, new n = some r → ∀ k ∈ r.walk, ¬ k.form.isName ∧ opening k = none) :
    Preserved root (substitute new root) := by
  intro r' hr'
  obtain ⟨s', hs', refers⟩ := mem_references.mp hr'
  obtain ⟨leaf, write, binding⟩ := reference_of_sight refers
  obtain ⟨s, hs, ⟨here, rfl⟩ | ⟨k, replaced, hs'⟩⟩ := substitute_overview h.grammatical neutral kept h.not_statement hs'
  · have origin := substitute_eq_identifier here leaf
    have found : s.reference? = some ⟨r'.node, r'.name, s.isWrite, s.frames.map Frame.scope⟩ := by
      rw [Sight.reference?, origin]
      rfl
    refine ⟨_, mem_references.mpr ⟨s, hs, found⟩, rfl, rfl, write, binding.symm, fun b means => ?_⟩
    obtain ⟨record, known, -⟩ := binding?_of_reference after hr' means
    obtain ⟨f, hf, owner, found'⟩ := (binding?_eq_some after).mp known
    have hf' := frames_substitute h.grammatical neutral kept h.not_statement
      (fun n hn r replaced j hj => (closed n hn r replaced j hj).2) hf
    rw [known, (binding?_eq_some h.distinct).mpr ⟨f, hf', owner, found'⟩]
  · have inside : s'.node ∈ k.walk := (sights_sublist k _ _).subset (List.mem_map_of_mem hs')
    refine absurd ?_ (closed _ (node_mem_walk hs) k replaced _ inside).1
    rw [leaf]
    rfl

end Substitution

end Node

end Unravel
