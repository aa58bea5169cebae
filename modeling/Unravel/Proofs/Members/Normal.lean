import Unravel.Members
import Unravel.Proofs.Syntax.Edits

/-! Accesses in normal form. A subtree keeps its place and its identity; only a key that becomes a name is gone. -/
namespace Unravel

namespace Normalised

/-- The node over a layer of subtrees in normal form. -/
def spell (m : NodeId) : Form Node → Node
  | .index object key =>
    match name? key with
    | some name => .node m (.member object name)
    | none => .node m (.index object key)
  | f => .node m f

/-- A subtree in normal form. -/
def dotted (t : Node) : Node := (t.fold layer).node

theorem node_layer (m : NodeId) (f : Form Normalised) : (layer m f).node = spell m (f.map Normalised.node) := by
  cases f with
  | index o k =>
    simp only [layer, collect, Form.map, form_node, spell]
    cases name? k.node <;> rfl
  | _ => rfl

theorem dotted_node (m : NodeId) (f : Form Node) : dotted (.node m f) = spell m (f.map dotted) := by
  rw [dotted, Tree.fold_node, node_layer, Form.map_map]
  rfl

theorem spell_cases (m : NodeId) (f : Form Node) :
    spell m f = .node m f ∨
      ∃ object key name, f = .index object key ∧ name? key = some name ∧ spell m f = .node m (.member object name) := by
  cases f with
  | index object key =>
    rw [spell]
    cases h : name? key with
    | none => exact Or.inl rfl
    | some name => exact Or.inr ⟨object, key, name, rfl, h, rfl⟩
  | _ => exact Or.inl rfl

theorem ids_spell_sublist (m : NodeId) (f : Form Node) : (spell m f).ids.Sublist (Node.ids (.node m f)) := by
  rcases spell_cases m f with same | ⟨object, key, name, rfl, -, same⟩
  · rw [same]
  · rw [same, Node.ids_node, Node.ids_node]
    simp only [Form.children, List.flatMap_cons, List.flatMap_nil]
    exact List.Sublist.cons_cons m ((List.Sublist.refl _).append (List.nil_sublist _))

theorem ids_map_sublist {g : Node → Node} {f : Form Node} (each : ∀ c ∈ f.children, (g c).ids.Sublist c.ids) (m : NodeId) :
    (Node.ids (.node m (f.map g))).Sublist (Node.ids (.node m f)) := by
  rw [Node.ids_node, Node.ids_node, children_map, List.flatMap_map]
  refine List.Sublist.cons_cons m ?_
  generalize f.children = children at each
  induction children with
  | nil => exact List.Sublist.refl _
  | cons c rest ih =>
    have rest_kept := ih fun d hd => each d (.tail c hd)
    simpa only [List.flatMap_cons] using (each c (.head _)).append rest_kept

theorem ids_dotted_sublist (t : Node) : (dotted t).ids.Sublist t.ids := by
  induction t with
  | node m f ih =>
    rw [dotted_node]
    exact (ids_spell_sublist m _).trans (ids_map_sublist ih m)

end Normalised

namespace Node

open Normalised

theorem node_normaliseMembers (m : NodeId) (f : Form Node) :
    (normaliseMembers (.node m f)).node = .node m (f.map dotted) := by
  rw [normaliseMembers, collect, Form.map_map]
  rfl

theorem Distinct.normaliseMembers {t : Node} (h : t.Distinct) : t.normaliseMembers.node.Distinct := by
  obtain ⟨m, f⟩ := t
  rw [node_normaliseMembers]
  exact List.Nodup.sublist (ids_map_sublist (fun c _ => ids_dotted_sublist c) m) h

end Node

end Unravel
