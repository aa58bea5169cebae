import Unravel.Proofs.Syntax.Places

/-! Numbering a tree keeps its shape and gives consecutive identities. -/
namespace Unravel

open List

section Counter

variable {α β σ : Type}

theorem bind_run (x : StateM σ α) (f : α → StateM σ β) (k : σ) : (x >>= f) k = f (x k).1 (x k).2 := rfl

theorem pure_run (x : α) (k : σ) : (pure x : StateM σ α) k = (x, k) := rfl

theorem map_run (x : StateM σ α) (f : α → β) (k : σ) : (f <$> x) k = (f (x k).1, (x k).2) := rfl

theorem map_mapM_run {γ : Type} {g : α → StateM Nat β} {h : β → γ} {h' : α → γ} {l : List α}
    (same : ∀ a ∈ l, ∀ k, h (g a k).1 = h' a) (k : Nat) : (l.mapM g k).1.map h = l.map h' := by
  induction l generalizing k with
  | nil => rfl
  | cons a rest ih =>
    have head := same a (.head _) k
    have tail := ih (fun b hb => same b (.tail a hb)) (g a k).2
    simp only [mapM_cons, bind_run, pure_run, map_cons, head, tail]

end Counter

namespace Form

variable {ρ σ τ : Type}

attribute [local simp] traverse visit visit.visitOption children map bind_run pure_run map_run

theorem traverse_children (g : ρ → StateM Nat σ) (f : Form ρ) (k : Nat) :
    (f.traverse g k).1.children = (f.children.mapM g k).1 ∧ (f.traverse g k).2 = (f.children.mapM g k).2 := by
  cases f with
  | function p b n i => cases n <;> simp
  | declarator i x => cases x <;> simp
  | returnStatement x => cases x <;> simp
  | ifStatement t c a => cases a <;> simp
  | forStatement i t u b => cases i <;> cases t <;> cases u <;> simp
  | tryStatement b p h y => cases h <;> cases y <;> cases p <;> simp
  | _ => simp

theorem traverse_map {h : σ → τ} {h' : ρ → τ} (g : ρ → StateM Nat σ) (f : Form ρ)
    (same : ∀ c ∈ f.children, ∀ k, h (g c k).1 = h' c) (k : Nat) : (f.traverse g k).1.map h = f.map h' := by
  have many : ∀ l : List ρ, (∀ c ∈ l, c ∈ f.children) → ∀ k, (l.mapM g k).1.map h = l.map h' :=
    fun l inside k => map_mapM_run (fun c hc => same c (inside c hc)) k
  cases f with
  | function p b n i => cases n <;> simp_all
  | declarator i x => cases x <;> simp_all
  | returnStatement x => cases x <;> simp_all
  | ifStatement t c a => cases a <;> simp_all
  | forStatement i t u b => cases i <;> cases t <;> cases u <;> simp_all
  | tryStatement b p h y => cases h <;> cases y <;> cases p <;> simp_all
  | _ => simp_all

end Form

namespace Tree

variable {α : Type}

theorem shape_node (m : α) (f : Form (Tree α)) : shape (node m f) = node () (f.map shape) := by
  rw [shape, mapMark, fold_node]
  rfl

theorem shape_self (t : Shape) : t.shape = t := by
  induction t using layers with
  | node m f ih =>
    rw [shape_node, Form.map_congr ih, Form.map_id]

theorem form_shape (t : Tree α) : t.shape.form = t.form.map shape := by
  cases t with
  | node m f => rw [shape_node, form_node, form_node]

theorem walk_shape (t : Tree α) : t.shape.walk = t.walk.map shape := by
  induction t with
  | node m f ih =>
    rw [shape_node, walk_node, walk_node, map_cons, shape_node, children_map, flatMap_map, map_flatMap]
    exact congrArg _ (flatMap_congr ih)

theorem grammatical_shape {t : Tree α} (h : t.shape.Grammatical) : t.Grammatical := by
  intro n hn p hp
  have inside : n.shape ∈ t.shape.walk := walk_shape t ▸ mem_map_of_mem hn
  have admitted := h n.shape inside (p.map shape) (by rw [form_shape, Form.places_map]; exact mem_map_of_mem hp)
  rwa [Place.map, form_shape, Role.admits_map] at admitted

theorem number_run (m : α) (f : Form (Tree α)) (k : Nat) :
    number (node m f) k =
      (node k ((f.map number).traverse (fun a => a) (k + 1)).1, ((f.map number).traverse (fun a => a) (k + 1)).2) := by
  rw [number, fold_node]
  rfl

theorem shape_number (t : Tree α) (k : Nat) : (t.number k).1.shape = t.shape := by
  induction t generalizing k with
  | node m f ih =>
    rw [number_run, shape_node, shape_node]
    have steady : ∀ a ∈ (f.map number).children, ∀ k, (a k).1.shape = (a 0).1.shape := by
      intro a ha k
      rw [children_map] at ha
      obtain ⟨c, hc, rfl⟩ := mem_map.mp ha
      rw [ih c hc k, ih c hc 0]
    rw [Form.traverse_map (fun a => a) (f.map number) steady (k + 1), Form.map_map]
    exact congrArg _ (Form.map_congr fun c hc => ih c hc 0)

theorem shape_numberFrom (t : Tree α) (k : Nat) : (t.numberFrom k).shape = t.shape := shape_number t k

theorem ids_mapM {l : List (StateM Nat Node)}
    (each : ∀ a ∈ l, ∀ k, k ≤ (a k).2 ∧ Node.ids (a k).1 = List.range' k ((a k).2 - k)) (k : Nat) :
    k ≤ (l.mapM (fun a => a) k).2 ∧
      (l.mapM (fun a => a) k).1.flatMap Node.ids = List.range' k ((l.mapM (fun a => a) k).2 - k) := by
  induction l generalizing k with
  | nil => simp [pure_run]
  | cons a rest ih =>
    obtain ⟨low, here⟩ := each a (.head _) k
    obtain ⟨low', there⟩ := ih (fun b hb => each b (.tail a hb)) (a k).2
    simp only [mapM_cons, bind_run, pure_run, flatMap_cons]
    refine ⟨Nat.le_trans low low', ?_⟩
    have first : (a k).2 = k + 1 * ((a k).2 - k) := by omega
    rw [here, there]
    nth_rewrite 2 [first]
    rw [range'_append]
    congr 1
    omega

theorem ids_number (t : Tree α) (k : Nat) :
    k ≤ (t.number k).2 ∧ Node.ids (t.number k).1 = List.range' k ((t.number k).2 - k) := by
  induction t generalizing k with
  | node m f ih =>
    have each : ∀ a ∈ (f.map number).children, ∀ k, k ≤ (a k).2 ∧ Node.ids (a k).1 = List.range' k ((a k).2 - k) := by
      intro a ha k
      rw [children_map] at ha
      obtain ⟨c, hc, rfl⟩ := mem_map.mp ha
      exact ih c hc k
    obtain ⟨children, last⟩ := Form.traverse_children (fun a => a) (f.map number) (k + 1)
    obtain ⟨low, below⟩ := ids_mapM each (k + 1)
    rw [number_run, Node.ids_node, children, last, below]
    refine ⟨by omega, ?_⟩
    rw [← range'_succ]
    congr 1
    omega

theorem distinct_numberFrom (t : Tree α) (k : Nat) : (t.numberFrom k).Distinct := by
  rw [Node.Distinct, numberFrom, (ids_number t k).2]
  exact nodup_range'

theorem le_of_mem_numberFrom {t : Tree α} {k : Nat} {x : NodeId} (h : x ∈ (t.numberFrom k).ids) : k ≤ x := by
  rw [numberFrom, (ids_number t k).2] at h
  exact (mem_range'_1.mp h).1

end Tree

end Unravel
