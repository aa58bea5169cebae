import Unravel.Proofs.Syntax.Walk

/-! The nodes around a node. In a tree with distinct identities they are found by identity, and a node is within
   another one exactly if its identity is in that subtree. -/
namespace Unravel

open List

variable {c holder t : Node} {x : NodeId}

theorem Tree.descend {α : Type} {t : Tree α} {P : Tree α → Prop} (top : P t)
    (step : ∀ holder ∈ t.walk, P holder → ∀ c ∈ holder.children, P c) : ∀ n ∈ t.walk, P n := by
  induction t with
  | node m f ih =>
    intro n hn
    rcases mem_walk_node.mp hn with rfl | ⟨c, hc, hn⟩
    · exact top
    · have at_child : P c := step _ (self_mem_walk _) top c hc
      exact ih c hc at_child (fun holder inside => step holder (mem_walk_of_child m hc inside)) n hn

namespace Node

theorem ancestors?_node (m x : NodeId) (f : Form Node) :
    ancestors? (.node m f) x =
      if m = x then some [] else (f.children.findSome? fun c => ancestors? c x).map (· ++ [.node m f]) := by
  simp only [ancestors?, para_node, Form.map_fst_pair, children_map, findSome?_map]
  rfl

theorem ancestors?_eq_none (h : x ∉ t.ids) : ancestors? t x = none := by
  induction t with
  | node m f ih =>
    have other : m ≠ x := fun same => h (mem_ids_node.mpr (Or.inl same.symm))
    have below : (f.children.findSome? fun c => ancestors? c x) = none := by
      rw [findSome?_eq_none_iff]
      exact fun c hc => ih c hc fun hx => h (mem_ids_of_child m hc hx)
    rw [ancestors?_node, if_neg other, below]
    rfl

theorem ancestors?_self (m : NodeId) (f : Form Node) : ancestors? (.node m f) m = some [] := by
  rw [ancestors?_node, if_pos rfl]

theorem ancestors?_child {m : NodeId} {f : Form Node} (distinct : Distinct (.node m f))
    (hc : c ∈ f.children) (hx : x ∈ c.ids) : ancestors? (.node m f) x = (ancestors? c x).map (· ++ [.node m f]) := by
  have other : m ≠ x := by
    rintro rfl
    exact (distinct_node distinct).1 c hc hx
  have only : ∀ d ∈ f.children, ancestors? d x ≠ none → d = c := by
    intro d hd found
    by_contra differ
    have outside : x ∉ ids d := fun xd => differ (distinct.same_child hd hc xd hx)
    exact found (ancestors?_eq_none outside)
  have first : (f.children.findSome? fun d => ancestors? d x) = ancestors? c x := by
    generalize f.children = children at hc only
    induction children with
    | nil => cases hc
    | cons d rest ih =>
      rw [findSome?_cons]
      cases found : ancestors? d x with
      | some around =>
        rw [only d (.head _) (by rw [found]; exact Option.some_ne_none _)] at found
        exact found.symm
      | none =>
        rcases mem_cons.mp hc with rfl | hc
        · rw [found]
          rw [findSome?_eq_none_iff]
          intro e he
          by_contra more
          rw [only e (.tail c he) more] at more
          exact more found
        · exact ih hc fun e he => only e (.tail d he)
  rw [ancestors?_node, if_neg other, first]

theorem mem_ancestors (distinct : Distinct t) (hx : x ∈ t.ids) :
    ∃ around, ancestors? t x = some around ∧
      ∀ n, n ∈ around ↔ n ∈ t.walk ∧ x ∈ ids n ∧ n.mark ≠ x := by
  induction t with
  | node m f ih =>
    rcases mem_ids_node.mp hx with rfl | ⟨c, hc, xc⟩
    · refine ⟨[], ancestors?_self x f, fun n => ⟨fun h => absurd h not_mem_nil, ?_⟩⟩
      rintro ⟨hn, xn, differ⟩
      rcases mem_walk_node.mp hn with rfl | ⟨c, hc, hn⟩
      · exact absurd rfl differ
      · exact absurd (ids_subset hn xn) ((distinct_node distinct).1 c hc)
    · obtain ⟨around, found, members⟩ := ih c hc (distinct.child hc) xc
      refine ⟨around ++ [.node m f], by rw [ancestors?_child distinct hc xc, found]; rfl, fun n => ?_⟩
      rw [mem_append, members, mem_singleton]
      constructor
      · rintro (⟨hn, xn, differ⟩ | rfl)
        · exact ⟨mem_walk_of_child m hc hn, xn, differ⟩
        · refine ⟨self_mem_walk _, hx, ?_⟩
          rintro rfl
          exact (distinct_node distinct).1 c hc xc
      · rintro ⟨hn, xn, differ⟩
        rcases mem_walk_node.mp hn with rfl | ⟨d, hd, hn⟩
        · exact Or.inr rfl
        · have same := distinct.same_child hd hc (ids_subset hn xn) xc
          exact Or.inl ⟨same ▸ hn, xn, differ⟩

theorem isWithin_iff (distinct : Distinct t) {container : NodeId} (hx : x ∈ t.ids) :
    isWithin t x container ↔ ∃ n ∈ t.walk, n.mark = container ∧ x ∈ ids n := by
  obtain ⟨around, found, members⟩ := mem_ancestors distinct hx
  rw [isWithin, found, Option.getD_some, Bool.or_eq_true, beq_iff_eq, any_eq_true]
  constructor
  · rintro (rfl | ⟨n, hn, same⟩)
    · obtain ⟨n, hn, mark⟩ := mem_ids.mp hx
      exact ⟨n, hn, mark, mark ▸ mark_mem_ids (self_mem_walk n)⟩
    · obtain ⟨inside, xn, -⟩ := (members n).mp hn
      exact ⟨n, inside, by simpa using same, xn⟩
  · rintro ⟨n, hn, mark, xn⟩
    by_cases same : n.mark = x
    · exact Or.inl (same.symm.trans mark)
    · exact Or.inr ⟨n, (members n).mpr ⟨hn, xn, same⟩, by simpa using mark⟩

section Holders

variable {t : Node}

theorem ancestors?_of_child (distinct : t.Distinct) (hn : holder ∈ t.walk) (hc : c ∈ holder.children) :
    ∃ around, t.ancestors? holder.mark = some around ∧ t.ancestors? c.mark = some (holder :: around) := by
  induction t with
  | node m f ih =>
    rcases mem_walk_node.mp hn with rfl | ⟨d, hd, hn⟩
    · obtain ⟨x, g⟩ := c
      refine ⟨[], ancestors?_self m f, ?_⟩
      rw [ancestors?_child distinct hc (mark_mem_ids (self_mem_walk _)), mark_node, ancestors?_self]
      rfl
    · obtain ⟨around, outer, inner⟩ := ih d hd (distinct.child hd) hn
      have inside := walk_trans hn (child_mem_walk hc)
      refine ⟨around ++ [.node m f], ?_, ?_⟩
      · rw [ancestors?_child distinct hd (mark_mem_ids hn), outer]
        rfl
      · rw [ancestors?_child distinct hd (mark_mem_ids inside), inner]
        rfl

theorem Distinct.same_holder (distinct : t.Distinct) {a b : Node} (ha : a ∈ t.walk) (hb : b ∈ t.walk) (ca : c ∈ a.children)
    (cb : c ∈ b.children) : a = b := by
  obtain ⟨_, -, left⟩ := ancestors?_of_child distinct ha ca
  obtain ⟨_, -, right⟩ := ancestors?_of_child distinct hb cb
  rw [left] at right
  exact (List.cons.inj (Option.some.inj right)).1

theorem exists_holder {n : Node} (hn : n ∈ t.walk) : n = t ∨ ∃ holder ∈ t.walk, n ∈ holder.children :=
  Tree.descend (P := fun n => n = t ∨ ∃ holder ∈ t.walk, n ∈ holder.children) (Or.inl rfl)
    (fun holder inside _ _ held => Or.inr ⟨holder, inside, held⟩) n hn

theorem Distinct.nodup_children (distinct : holder.Distinct) : holder.children.Nodup := by
  obtain ⟨m, f⟩ := holder
  refine (distinct_node distinct).2.2.imp ?_
  rintro c _ apart rfl
  exact apart (mark_mem_ids (self_mem_walk c)) (mark_mem_ids (self_mem_walk c))

theorem Distinct.not_mem_walk_child (distinct : holder.Distinct) (hc : c ∈ holder.children) : holder ∉ c.walk := by
  obtain ⟨m, f⟩ := holder
  exact fun inside => (distinct_node distinct).1 c hc (mark_mem_ids inside)

theorem Distinct.same_part {a b : Node} (distinct : holder.Distinct) (ha : a ∈ holder.children) (hb : b ∈ holder.children)
    (ca : c ∈ a.walk) (cb : c ∈ b.walk) : a = b := by
  obtain ⟨m, f⟩ := holder
  exact distinct.same_child ha hb (mark_mem_ids ca) (mark_mem_ids cb)

end Holders

end Node

end Unravel
