import Unravel.Pool.Pattern
import Unravel.Proofs.Members.Normal

/-! What a tree looks like from outside the functions in it. An edit inside such a function does not show. -/
namespace Unravel

open List

variable {m : NodeId} {f : Form Node} {n root t : Node}

namespace Pattern

theorem isFunction_map {ρ σ : Type} (g : ρ → σ) (f : Form ρ) : isFunction (f.map g) = isFunction f := by cases f <;> rfl

theorem isFunction_prune {ρ σ : Type} (a : ρ → Option σ) (g : ρ → σ) (f : Form ρ) :
    isFunction (f.prune a g) = isFunction f := by cases f <;> rfl

theorem ownTree_node (m : NodeId) (f : Form Node) :
    ownTree (.node m f) = .node m f :: if isFunction f then [] else f.children.flatMap ownTree := by
  rw [ownTree, para_node, Form.map_fst_pair, isFunction_map, children_map, flatMap_map]
  rfl

theorem mem_ownTree_node :
    n ∈ ownTree (.node m f) ↔ n = .node m f ∨ isFunction f = false ∧ ∃ c ∈ f.children, n ∈ ownTree c := by
  rw [ownTree_node, mem_cons]
  cases isFunction f <;> simp

theorem self_mem_ownTree (t : Node) : t ∈ ownTree t := by
  cases t with
  | node m f => exact mem_ownTree_node.mpr (Or.inl rfl)

theorem mem_walk_of_ownTree (h : n ∈ ownTree t) : n ∈ t.walk := by
  induction t with
  | node m f ih =>
    rcases mem_ownTree_node.mp h with rfl | ⟨-, c, hc, h⟩
    · exact self_mem_walk _
    · exact mem_walk_of_child m hc (ih c hc h)

theorem ownTree_child {c : Node} (hn : n ∈ ownTree t) (plain : isFunction n.form = false) (hc : c ∈ n.children) :
    c ∈ ownTree t := by
  induction t with
  | node m f ih =>
    rcases mem_ownTree_node.mp hn with rfl | ⟨outer, d, hd, hn⟩
    · exact mem_ownTree_node.mpr (Or.inr ⟨plain, c, hc, self_mem_ownTree c⟩)
    · exact mem_ownTree_node.mpr (Or.inr ⟨outer, d, hd, ih d hd hn⟩)

theorem ownNodes_child {c : Node} (hn : n ∈ ownNodes t) (plain : isFunction n.form = false) (hc : c ∈ n.children) :
    c ∈ ownNodes t := by
  obtain ⟨d, hd, hn⟩ := mem_flatMap.mp hn
  exact mem_flatMap.mpr ⟨d, hd, ownTree_child hn plain hc⟩

theorem mem_walk_of_ownNodes (h : n ∈ ownNodes t) : n ∈ t.walk := by
  obtain ⟨c, hc, h⟩ := mem_flatMap.mp h
  exact walk_trans (child_mem_walk hc) (mem_walk_of_ownTree h)

end Pattern

namespace Node

open Pattern

/-- A tree with the functions in it emptied. -/
def outline (t : Node) : Node := t.fold fun m f => .node m (if isFunction f then .function [] [] none false else f)

theorem outline_of_function (h : isFunction f) :
    outline (.node m f) = .node m (.function [] [] none false) := by
  rw [outline, Tree.fold_node, isFunction_map, if_pos h]

theorem outline_of_plain (h : isFunction f = false) :
    outline (.node m f) = .node m (f.map outline) := by
  rw [outline, Tree.fold_node, isFunction_map, h]
  rfl

theorem eq_of_outline {g : Form Node} (plain : isFunction g = false) (h : outline t = .node m g) :
    ∃ f, t = .node m f ∧ f.map outline = g := by
  obtain ⟨k, f⟩ := t
  cases kind : isFunction f with
  | true =>
    rw [outline_of_function kind] at h
    cases h
    cases plain
  | false =>
    rw [outline_of_plain kind] at h
    cases h
    exact ⟨f, rfl, rfl⟩

theorem mem_ids_outline {x : NodeId} : x ∈ (outline t).ids ↔ ∃ n ∈ ownTree t, n.mark = x := by
  induction t with
  | node m f ih =>
    cases kind : isFunction f with
    | true =>
      rw [outline_of_function kind, mem_ids_node]
      simp [mem_ownTree_node, kind, Form.children, eq_comm]
    | false =>
      rw [outline_of_plain kind, mem_ids_node, children_map]
      simp only [mem_ownTree_node, kind, mem_map]
      constructor
      · rintro (rfl | ⟨d, ⟨c, hc, rfl⟩, hx⟩)
        · exact ⟨_, Or.inl rfl, rfl⟩
        · obtain ⟨n, hn, mark⟩ := (ih c hc).mp hx
          exact ⟨n, Or.inr ⟨trivial, c, hc, hn⟩, mark⟩
      · rintro ⟨n, rfl | ⟨-, c, hc, hn⟩, rfl⟩
        · exact Or.inl rfl
        · exact Or.inr ⟨_, ⟨c, hc, rfl⟩, (ih c hc).mpr ⟨n, hn, rfl⟩⟩

theorem outline_substitute {new : Node → Option Node} (kept : ∀ n ∈ ownTree t, new n = none) :
    outline (substitute new t) = outline t := by
  induction t with
  | node m f ih =>
    rw [substitute_of_none (kept _ (self_mem_ownTree _))]
    cases kind : isFunction f with
    | true => rw [outline_of_function kind, outline_of_function (by rw [isFunction_map, kind])]
    | false =>
      rw [outline_of_plain kind, outline_of_plain (by rw [isFunction_map, kind]), Form.map_map]
      congr 1
      refine Form.map_congr fun c hc => ih c hc fun n hn => ?_
      exact kept n (mem_ownTree_node.mpr (Or.inr ⟨kind, c, hc, hn⟩))

theorem outline_delete {doomed : NodeId → Bool} (spared : ∀ n ∈ ownTree t, ¬ doomed n.mark) :
    delete? doomed t = some (delete doomed t) ∧ outline (delete doomed t) = outline t := by
  induction t with
  | node m f ih =>
    have here : ¬ doomed m := spared _ (self_mem_ownTree _)
    rw [delete?_eq_some, delete_node]
    cases kind : isFunction f with
    | true =>
      have still : isFunction (f.prune (delete? doomed) (delete doomed)) := by rw [isFunction_prune, kind]
      refine ⟨⟨here, fun emptied => ?_, rfl⟩, ?_⟩
      · have declaration := (of_isEmptied emptied).1
        cases f with
        | function | functionDeclaration => cases declaration
        | _ => cases kind
      · rw [outline_of_function kind, outline_of_function still]
    | false =>
      have below : ∀ c ∈ f.children, delete? doomed c = some (delete doomed c) ∧ outline (delete doomed c) = outline c :=
        fun c hc => ih c hc fun n hn => spared n (mem_ownTree_node.mpr (Or.inr ⟨kind, c, hc, hn⟩))
      rw [Form.prune_eq_map fun c hc => (below c hc).1]
      refine ⟨⟨here, ?_, rfl⟩, ?_⟩
      · rw [form_node, form_node, isEmptied, isEmptyDeclaration_map]
        simp
      · rw [outline_of_plain kind, outline_of_plain (by rw [isFunction_map, kind]), Form.map_map]
        congr 1
        exact Form.map_congr fun c hc => (below c hc).2

theorem outline_of_isName (h : t.form.isName) : outline t = t := by
  obtain ⟨m, x, rfl⟩ := form_of_isName h
  exact outline_of_plain rfl

/-- A tree with the functions below its root emptied. -/
def surface (root : Node) : Node := .node root.mark (root.form.map outline)

/-- The nodes that are in no function below the root are known by their surface. -/
theorem own_of_surface {root' : Node} (same : surface root' = surface root) (hn : n ∈ ownNodes root') :
    ∃ k ∈ ownNodes root, k.mark = n.mark := by
  obtain ⟨c, hc, hn⟩ := mem_flatMap.mp hn
  have shown : outline c ∈ (surface root').children := by
    rw [surface, Tree.children, form_node, children_map]
    exact mem_map_of_mem hc
  rw [same, surface, Tree.children, form_node, children_map] at shown
  obtain ⟨d, hd, outlines⟩ := mem_map.mp shown
  have listed := mem_ids_outline.mpr ⟨n, hn, rfl⟩
  rw [← outlines] at listed
  obtain ⟨k, hk, mark⟩ := mem_ids_outline.mp listed
  exact ⟨k, mem_flatMap.mpr ⟨d, hd, hk⟩, mark⟩

theorem surface_substitute {new : Node → Option Node} (top : new root = none)
    (kept : ∀ n ∈ ownNodes root, new n = none) : surface (substitute new root) = surface root := by
  obtain ⟨m, f⟩ := root
  rw [substitute_of_none top, surface, surface, form_node, form_node, Form.map_map]
  congr 1
  exact Form.map_congr fun c hc => outline_substitute fun n hn => kept n (mem_flatMap.mpr ⟨c, hc, hn⟩)

theorem surface_delete {doomed : NodeId → Bool} (spared : ∀ n ∈ ownNodes root, ¬ doomed n.mark) :
    surface (delete doomed root) = surface root := by
  obtain ⟨m, f⟩ := root
  have below : ∀ c ∈ f.children, delete? doomed c = some (delete doomed c) ∧ outline (delete doomed c) = outline c :=
    fun c hc => outline_delete fun n hn => spared n (mem_flatMap.mpr ⟨c, hc, hn⟩)
  rw [delete_node, Form.prune_eq_map fun c hc => (below c hc).1, surface, surface, form_node, form_node,
    Form.map_map]
  congr 1
  exact Form.map_congr fun c hc => (below c hc).2

section Members

open Normalised

theorem name?_outline (key : Node) : name? (outline key) = name? key := by
  obtain ⟨m, f⟩ := key
  cases f <;> rfl

theorem outline_spell (plain : isFunction f = false) :
    outline (spell m f) = spell m (f.map outline) := by
  cases f with
  | index object key =>
    rw [Form.map, spell, spell, name?_outline]
    cases name? key with
    | none => exact outline_of_plain rfl
    | some name => exact outline_of_plain rfl
  | function | functionDeclaration => cases plain
  | _ => exact outline_of_plain rfl

theorem outline_dotted (t : Node) : outline (dotted t) = dotted (outline t) := by
  induction t with
  | node m f ih =>
    rw [dotted_node]
    cases kind : isFunction f with
    | true =>
      have whole : spell m (f.map dotted) = .node m (f.map dotted) := by
        cases f with
        | function | functionDeclaration => rfl
        | _ => cases kind
      rw [whole, outline_of_function (by rw [isFunction_map, kind]), outline_of_function kind, dotted_node]
      rfl
    | false =>
      rw [outline_spell (by rw [isFunction_map, kind]), outline_of_plain kind, dotted_node, Form.map_map, Form.map_map]
      congr 1
      exact Form.map_congr ih

end Members

end Node

end Unravel
