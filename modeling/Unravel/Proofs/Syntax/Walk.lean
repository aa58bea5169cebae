import Mathlib.Data.List.Nodup
import Mathlib.Data.List.Flatten
import Mathlib.Data.List.Pairwise
import Unravel.Syntax.Tree

/-! Induction over syntax trees and the list of all subtrees. Identities are distinct in every tree that was
   numbered, and then an identity stands for one subtree: no two children have one in common. -/
namespace Unravel

open List

variable {c k n t : Node} {m x : NodeId} {f : Form Node}

namespace Form

variable {ρ σ τ : Type}

theorem children_map (g : ρ → σ) (f : Form ρ) : (f.map g).children = f.children.map g := by
  cases f with
  | ifStatement t c a => cases a <;> simp [map, children]
  | tryStatement b p h y => cases h <;> cases y <;> cases p <;> simp [map, children]
  | forStatement i t u b => cases i <;> cases t <;> cases u <;> simp [map, children]
  | function p b n i => cases n <;> simp [map, children]
  | declarator i x => cases x <;> simp [map, children]
  | returnStatement x => cases x <;> simp [map, children]
  | _ => simp [map, children]

theorem map_map (g : σ → τ) (h : ρ → σ) (f : Form ρ) : (f.map h).map g = f.map (g ∘ h) := by
  cases f <;> simp [map]

theorem map_congr {g h : ρ → σ} {f : Form ρ} (same : ∀ c ∈ f.children, g c = h c) : f.map g = f.map h := by
  cases f <;> simp_all [map, children]
  case function p b n i => cases n <;> simp_all
  case declarator i x => cases x <;> simp_all
  case returnStatement x => cases x <;> simp_all
  case ifStatement t c a => cases a <;> simp_all
  case forStatement i t u b => cases i <;> cases t <;> cases u <;> simp_all
  case tryStatement b p h y => cases h <;> cases y <;> cases p <;> simp_all

theorem map_id (f : Form ρ) : f.map (fun x => x) = f := by
  cases f <;> simp [map]

theorem map_fst_pair (g : ρ → σ) (f : Form ρ) : (f.map fun x => (x, g x)).map (·.1) = f := by
  rw [map_map]
  exact map_id f

theorem map_snd_pair (g : ρ → σ) (f : Form ρ) : (f.map fun x => (x, g x)).map (·.2) = f.map g := by
  rw [map_map]
  rfl

end Form

export Form (children_map)

namespace Tree

variable {α β : Type}

@[simp]
theorem mark_node (m : α) (f : Form (Tree α)) : mark (node m f) = m := rfl

@[simp]
theorem form_node (m : α) (f : Form (Tree α)) : form (node m f) = f := rfl

/-- What holds of a node whenever it holds of its children holds of every tree. -/
@[induction_eliminator]
theorem layers {P : Tree α → Prop}
    (node : ∀ m f, (∀ c ∈ f.children, P c) → P (node m f)) (t : Tree α) : P t := by
  apply @Tree.rec α P (fun f => ∀ c ∈ f.children, P c) (fun ts => ∀ c ∈ ts, P c)
    (fun o => ∀ c ∈ o.toList, P c) (fun o => ∀ c ∈ o.getD [], P c)
  case node => exact node
  all_goals simp only [Form.children, mem_append, mem_cons, not_mem_nil, Option.toList_none,
    Option.toList_some, Option.getD_none, Option.getD_some]
  all_goals grind

theorem fold_node (step : α → Form β → β) (m : α) (f : Form (Tree α)) :
    fold step (node m f) = step m (f.map (fold step)) := by
  simp only [fold, para_node, Form.map_snd_pair]
  rfl

theorem walk_node (m : α) (f : Form (Tree α)) : walk (node m f) = node m f :: f.children.flatMap walk := by
  simp only [walk, para_node, Form.map_fst_pair, children_map, flatMap_map]
  rfl

theorem mem_walk_node {m : α} {f : Form (Tree α)} {n : Tree α} :
    n ∈ walk (node m f) ↔ n = node m f ∨ ∃ c ∈ f.children, n ∈ c.walk := by
  rw [walk_node, mem_cons, mem_flatMap]

theorem mem_walk_of_child (m : α) {f : Form (Tree α)} {c n : Tree α} (hc : c ∈ f.children) (hn : n ∈ c.walk) :
    n ∈ walk (node m f) := mem_walk_node.mpr (Or.inr ⟨c, hc, hn⟩)

theorem self_mem_walk (t : Tree α) : t ∈ t.walk := by
  cases t with
  | node m f => simp [walk_node]

theorem forall_walk_node {m : α} {f : Form (Tree α)} {p : Tree α → Prop} :
    (∀ n ∈ walk (node m f), p n) ↔ p (node m f) ∧ ∀ c ∈ f.children, ∀ n ∈ c.walk, p n := by
  constructor
  · exact fun h => ⟨h _ (self_mem_walk _), fun c hc n hn => h n (mem_walk_of_child m hc hn)⟩
  · rintro ⟨here, below⟩ n hn
    rcases mem_walk_node.mp hn with rfl | ⟨c, hc, hn⟩
    · exact here
    · exact below c hc n hn

theorem walk_trans {t n k : Tree α} (outer : n ∈ t.walk) (inner : k ∈ n.walk) : k ∈ t.walk := by
  induction t with
  | node m f ih =>
    rcases mem_walk_node.mp outer with rfl | ⟨c, hc, hn⟩
    · exact inner
    · exact mem_walk_of_child m hc (ih c hc hn)

theorem child_mem_walk {t c : Tree α} (h : c ∈ t.children) : c ∈ t.walk := by
  cases t with
  | node m f => exact mem_walk_of_child m h (self_mem_walk c)

end Tree

export Tree (form_node mark_node walk_node para_node mem_walk_node mem_walk_of_child self_mem_walk walk_trans child_mem_walk)

namespace Node

@[induction_eliminator]
theorem layers {P : Node → Prop} (node : ∀ m f, (∀ c ∈ f.children, P c) → P (.node m f)) (t : Node) : P t :=
  Tree.layers node t

theorem ids_node (m : NodeId) (f : Form Node) : ids (.node m f) = m :: f.children.flatMap ids := by
  rw [ids, walk_node, map_cons, map_flatMap]
  rfl

theorem mem_ids : x ∈ t.ids ↔ ∃ n ∈ t.walk, n.mark = x := by
  rw [ids, mem_map]

theorem mem_ids_node :
    x ∈ ids (.node m f) ↔ x = m ∨ ∃ c ∈ f.children, x ∈ c.ids := by
  rw [ids_node, mem_cons, mem_flatMap]

theorem mem_ids_of_child (m : NodeId) (hc : c ∈ f.children) (hx : x ∈ c.ids) :
    x ∈ ids (.node m f) := mem_ids_node.mpr (Or.inr ⟨c, hc, hx⟩)

theorem mark_mem_ids (h : n ∈ t.walk) : n.mark ∈ t.ids := mem_ids.mpr ⟨n, h, rfl⟩

theorem ids_subset (h : n ∈ t.walk) : n.ids ⊆ t.ids := by
  intro x hx
  obtain ⟨k, hk, rfl⟩ := mem_ids.mp hx
  exact mark_mem_ids (walk_trans h hk)

/-- No identity occurs twice. -/
def Distinct (t : Node) : Prop := t.ids.Nodup

instance (t : Node) : Decidable t.Distinct := inferInstanceAs (Decidable t.ids.Nodup)

theorem distinct_node (h : Distinct (.node m f)) :
    (∀ c ∈ f.children, m ∉ c.ids) ∧ (∀ c ∈ f.children, Distinct c) ∧
      f.children.Pairwise fun c d => List.Disjoint c.ids d.ids := by
  rw [Distinct, ids_node, nodup_cons, nodup_flatMap] at h
  obtain ⟨fresh, each, apart⟩ := h
  refine ⟨?_, each, apart⟩
  intro c hc hm
  exact fresh (mem_flatMap.mpr ⟨c, hc, hm⟩)

theorem Distinct.child (h : Distinct (.node m f))
    (hc : c ∈ f.children) : Distinct c := (distinct_node h).2.1 c hc

theorem Distinct.subtree (h : Distinct t) (hn : n ∈ t.walk) : Distinct n := by
  induction t with
  | node m f ih =>
    rcases mem_walk_node.mp hn with rfl | ⟨c, hc, hn⟩
    · exact h
    · exact ih c hc (h.child hc) hn

theorem Distinct.same_child (h : Distinct (.node m f)) {d : Node}
    (hc : c ∈ f.children) (hd : d ∈ f.children) (xc : x ∈ c.ids) (xd : x ∈ d.ids) : c = d := by
  by_contra differ
  have apart := (distinct_node h).2.2
  have symmetric : Std.Symm fun c d : Node => List.Disjoint c.ids d.ids := ⟨fun _ _ h _ xd xc => h xc xd⟩
  exact apart.forall hc hd differ xc xd

theorem Distinct.same_node (h : Distinct t) (hn : n ∈ t.walk) (hk : k ∈ t.walk)
    (same : n.mark = k.mark) : n = k := by
  induction t with
  | node m f ih =>
    have fresh := (distinct_node h).1
    rcases mem_walk_node.mp hn with rfl | ⟨c, hc, hn⟩
    · rcases mem_walk_node.mp hk with rfl | ⟨d, hd, hk⟩
      · rfl
      · exact False.elim (fresh d hd (mem_ids.mpr ⟨k, hk, same.symm⟩))
    · rcases mem_walk_node.mp hk with rfl | ⟨d, hd, hk⟩
      · exact False.elim (fresh c hc (mem_ids.mpr ⟨n, hn, same⟩))
      · have cd := h.same_child hc hd (mark_mem_ids hn) (same ▸ mark_mem_ids hk)
        subst cd
        exact ih c hc (h.child hc) hn hk

theorem Distinct.mem_walk_of_mark (h : Distinct t) (hn : n ∈ t.walk) (hk : k ∈ t.walk)
    (inside : k.mark ∈ n.ids) : k ∈ n.walk := by
  obtain ⟨j, hj, same⟩ := mem_ids.mp inside
  rw [← h.same_node (walk_trans hn hj) hk same]
  exact hj

theorem Distinct.nested (h : Distinct t) (hn : n ∈ t.walk) (hk : k ∈ t.walk) (cn : c ∈ n.walk)
    (ck : c ∈ k.walk) : n ∈ k.walk ∨ k ∈ n.walk := by
  induction t with
  | node m f ih =>
    rcases mem_walk_node.mp hn with rfl | ⟨d, hd, hn⟩
    · exact Or.inr hk
    · rcases mem_walk_node.mp hk with rfl | ⟨e, he, hk⟩
      · exact Or.inl (mem_walk_of_child m hd hn)
      · have same := h.same_child hd he (ids_subset hn (mark_mem_ids cn)) (ids_subset hk (mark_mem_ids ck))
        subst same
        exact ih d hd (h.child hd) hn hk

theorem find?_of_mem (h : Distinct t) (hn : n ∈ t.walk) : t.find? n.mark = some n := by
  rw [find?]
  cases found : t.walk.find? fun k => k.mark == n.mark with
  | none =>
    have none_has := find?_eq_none.mp found n hn
    simp at none_has
  | some k =>
    have mark : k.mark = n.mark := by simpa using find?_some found
    rw [h.same_node (mem_of_find?_eq_some found) hn mark]

theorem mem_of_find? (h : t.find? x = some n) : n ∈ t.walk ∧ n.mark = x := by
  rw [find?] at h
  exact ⟨mem_of_find?_eq_some h, by simpa using find?_some h⟩

theorem nextId_node (m : NodeId) (f : Form Node) :
    nextId (.node m f) = (f.children.map nextId).foldl max (m + 1) := by
  rw [nextId, Tree.fold_node, children_map]
  rfl

theorem le_foldl_max (xs : List Nat) (start : Nat) : start ≤ xs.foldl max start ∧ ∀ x ∈ xs, x ≤ xs.foldl max start := by
  induction xs generalizing start with
  | nil => simp
  | cons y ys ih =>
    obtain ⟨low, each⟩ := ih (max start y)
    refine ⟨Nat.le_trans (Nat.le_max_left _ _) low, ?_⟩
    intro x hx
    rcases mem_cons.mp hx with rfl | hx
    · exact Nat.le_trans (Nat.le_max_right _ _) low
    · exact each x hx

theorem lt_nextId (h : x ∈ t.ids) : x < t.nextId := by
  induction t with
  | node m f ih =>
    rw [nextId_node]
    obtain ⟨low, each⟩ := le_foldl_max (f.children.map nextId) (m + 1)
    rcases mem_ids_node.mp h with rfl | ⟨c, hc, hx⟩
    · exact low
    · exact Nat.lt_of_lt_of_le (ih c hc hx) (each _ (mem_map_of_mem hc))

end Node

end Unravel
