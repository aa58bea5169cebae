import Mathlib.Data.List.Chain
import Unravel.Proofs.Alias.Capture
import Unravel.Proofs.Fold.Result
import Unravel.Proofs.Members.Normal
import Unravel.Proofs.Pass.Runs
import Unravel.Proofs.Pool.Dangling
import Unravel.Proofs.Syntax.Revision

/-! However a tree is edited, and wherever an edit fails, it stays a tree: each node stands in one place, and from its
   identity the way up leads through the nodes that hold it to the root. All of this rests on one invariant, that no
   identity occurs twice; each edit and each pass keeps it. -/
namespace Unravel

open List

namespace Node

variable {t : Node}

/-- The node that holds the node with an identity. -/
def parent? (root : Node) (x : NodeId) : Option Node := (root.ancestors? x).bind List.head?

/-- The nodes that can be reached from the root, one child after another. -/
inductive Reachable (root : Node) : Node → Prop where
  | root : Reachable root root
  | child {holder c : Node} : Reachable root holder → c ∈ holder.children → Reachable root c

theorem reachable_iff {n : Node} : Reachable t n ↔ n ∈ t.walk := by
  constructor
  · intro h
    induction h with
    | root => exact self_mem_walk t
    | child _ held ih => exact walk_trans ih (child_mem_walk held)
  · exact Tree.descend .root (fun holder _ reached c held => .child reached held) n

/-- A way up from a node: each node is held by the next one, and the last one is the root. -/
def IsWayUp (root n : Node) (around : List Node) : Prop :=
  (n :: around).IsChain (fun c holder => c ∈ holder.children) ∧ (n :: around).getLast (cons_ne_nil n around) = root

theorem ancestors?_isWayUp (distinct : t.Distinct) {n : Node} (hn : n ∈ t.walk) :
    ∃ around, t.ancestors? n.mark = some around ∧ IsWayUp t n around := by
  induction t with
  | node m f ih =>
    rcases mem_walk_node.mp hn with rfl | ⟨c, hc, hn⟩
    · exact ⟨[], ancestors?_self m f, isChain_singleton _, rfl⟩
    · obtain ⟨around, found, chain, last⟩ := ih c hc (distinct.child hc) hn
      refine ⟨around ++ [.node m f], ?_, ?_, ?_⟩
      · rw [ancestors?_child distinct hc (mark_mem_ids hn), found]
        rfl
      · rw [← cons_append]
        refine chain.append (isChain_singleton _) ?_
        intro x hx y hy
        rw [getLast?_eq_some_getLast (cons_ne_nil n around), last, Option.mem_some_iff] at hx
        cases mem_singleton.mp (mem_of_mem_head? hy)
        exact hx ▸ hc
      · rw [getLast_cons (by simp), getLast_append_singleton]

theorem parent?_child (distinct : t.Distinct) {holder c : Node} (hn : holder ∈ t.walk) (hc : c ∈ holder.children) :
    t.parent? c.mark = some holder := by
  obtain ⟨around, -, found⟩ := ancestors?_of_child distinct hn hc
  rw [parent?, found]
  rfl

/-- A tree whose links are those of its structure. -/
structure IsLinkedTree (root : Node) : Prop where
  once : ∀ n, Reachable root n → root.ids.count n.mark = 1
  parent : ∀ holder, Reachable root holder → ∀ c ∈ holder.children, root.parent? c.mark = some holder
  top : root.ancestors? root.mark = some []
  ancestors : ∀ n, Reachable root n → ∃ around, root.ancestors? n.mark = some around ∧ IsWayUp root n around
  within : ∀ n, Reachable root n → ∀ container, Reachable root container →
    (root.isWithin n.mark container.mark ↔ Reachable container n)
  linked : root.isLinked

theorem Distinct.isLinkedTree (distinct : t.Distinct) : IsLinkedTree t where
  once n reached := count_eq_one_of_mem distinct (mark_mem_ids (reachable_iff.mp reached))
  parent holder reached c hc := parent?_child distinct (reachable_iff.mp reached) hc
  top := by
    obtain ⟨m, f⟩ := t
    exact ancestors?_self m f
  ancestors n reached := ancestors?_isWayUp distinct (reachable_iff.mp reached)
  within n reached container reached' := by
    have hn := reachable_iff.mp reached
    have hc := reachable_iff.mp reached'
    rw [isWithin_iff distinct (mark_mem_ids hn), reachable_iff]
    constructor
    · rintro ⟨k, hk, same, inside⟩
      rw [← distinct.same_node hk hc same]
      exact distinct.mem_walk_of_mark hk hn inside
    · intro inside
      exact ⟨container, hc, rfl, mark_mem_ids inside⟩
  linked := by
    simp only [isLinked, all_eq_true]
    intro n hn c hc
    have up := parent?_child distinct hn hc
    rw [parent?] at up
    simp [up]

theorem Distinct.exchange {α : Type} (distinct : t.Distinct) (new : Tree α) (old : NodeId) :
    (Node.substitute (fun n => if n.mark = old then some (new.numberFrom t.nextId) else none) t).Distinct := by
  refine distinct.substitute (.single distinct (Tree.distinct_numberFrom new t.nextId) (fun x hx known => ?_) old)
  exact Nat.not_lt.mpr (Tree.le_of_mem_numberFrom hx) (lt_nextId known)

theorem Distinct.replace (distinct : t.Distinct) {old : NodeId} {new : Shape} {t' : Node} (h : t.replace old new = .ok t') :
    t'.Distinct := by
  rw [Node.replace] at h
  split at h
  · cases h
  · cases h
  · cases h
    exact distinct.exchange new old

theorem Distinct.remove (distinct : t.Distinct) {old t' : Node} (h : t.remove old = .ok t') : t'.Distinct := by
  rw [Node.remove] at h
  split at h
  · cases h
  · split at h
    · cases h
    · cases h
    · cases h
      exact distinct.delete

theorem Distinct.aliasesApplied (distinct : t.Distinct) (aliases : List Alias) : (Alias.apply aliases t).Distinct := by
  rw [Alias.apply_eq]
  exact (distinct.substitute (Alias.rename_separate distinct aliases)).delete

theorem distinct_unaliased {u : Unaliased} (distinct : u.root.Distinct) (bound : Nat) : (Unaliased.run bound u).root.Distinct :=
  Unaliased.run_keeps (fun _ aliases kept _ => kept.aliasesApplied aliases) bound u distinct

theorem Distinct.recoverStrings (distinct : t.Distinct) {ns : Namespace} {r : Recovery}
    (h : t.recoverStrings ns = .ok (some r)) : r.root.Distinct := by
  obtain ⟨p, -, -, removed⟩ := Recovery.recoverStrings_eq_some h
  have replaced : (Node.substitute (r.plan.literal t) t).Distinct := distinct.substitute (Plan.literal_separate distinct)
  have same : r.root = Recovery.withoutPool p (Recovery.withoutAccessor p (Node.substitute (r.plan.literal t) t)) :=
    congrArg Prod.fst (removed.trans (Recovery.removePieces_eq p _))
  have less : (Recovery.withoutAccessor p (Node.substitute (r.plan.literal t) t)).Distinct := by
    rw [Recovery.withoutAccessor]
    split
    · exact replaced.delete
    · exact replaced
  rw [same, Recovery.withoutPool]
  split
  · exact less.delete
  · exact less

theorem Distinct.foldResult (distinct : t.Distinct) {ns : Namespace} {folded : FoldedFunction}
    (h : t.foldResult ns = .ok folded) : folded.function.Distinct := by
  obtain ⟨e, -, h⟩ := Outcome.bind_eq_ok.mp h
  obtain ⟨new, -, h⟩ := Outcome.bind_eq_ok.mp h
  cases h
  exact distinct.exchange new e.mark

end Node

theorem Pass.distinct_after {step : Step Datum} (listed : step ∈ rewriting) {c : Context} {t t' : Node}
    (tree : c.tree = some t) (distinct : t.Distinct) (after : (step c).2.tree = some t') : t'.Distinct := by
  simp only [rewriting, mem_cons, not_mem_nil, or_false] at listed
  rcases listed with rfl | rfl | rfl | rfl
  · obtain ⟨report, run⟩ := eliminateAliases_run tree
    rw [run] at after
    cases after
    exact Node.distinct_unaliased distinct _
  · rcases recoverStrings_run tree with ⟨fault, -, run⟩ | ⟨-, run⟩ | ⟨r, report, recovered, run⟩
    · rw [run, tree] at after
      cases after
      exact distinct
    · rw [run, tree] at after
      cases after
      exact distinct
    · rw [run] at after
      cases after
      exact distinct.recoverStrings recovered
  · obtain ⟨report, run⟩ := normaliseMembers_run tree
    rw [run] at after
    cases after
    exact distinct.normaliseMembers
  · rcases foldResult_run tree with ⟨fault, -, run⟩ | ⟨folded, done, ⟨text, report, -, run⟩ | ⟨fault, -, run⟩⟩
    · rw [run, tree] at after
      cases after
      exact distinct
    · rw [run] at after
      cases after
      exact distinct.foldResult done
    · rw [run] at after
      cases after
      exact distinct.foldResult done

/-- One edit of a tree: a replacement, a deletion, a revision by a rule, or a pass in some context. -/
inductive Edit where
  | replace (old : NodeId) (new : Shape)
  | remove (old : Node)
  | revise (order : Revision.Order) (rule : Node → Revision.Wish)
  | pass (step : Step Datum) (listed : step ∈ Pass.rewriting) (c : Context)

namespace Edit

/-- The tree that an edit leaves, also if it fails. -/
def apply : Node → Edit → Node
  | t, .replace old new => (t.replace old new).toOption.getD t
  | t, .remove old => (t.remove old).toOption.getD t
  | t, .revise order rule => (Revision.run order rule t).root
  | t, .pass step _ c => (step { c with tree := some t }).2.tree.getD t

theorem apply_distinct {t : Node} (distinct : t.Distinct) (edit : Edit) : (apply t edit).Distinct := by
  cases edit with
  | replace old new =>
    rw [apply]
    cases h : t.replace old new with
    | error fault => exact distinct
    | ok t' => exact distinct.replace h
  | remove old =>
    rw [apply]
    cases h : t.remove old with
    | error fault => exact distinct
    | ok t' => exact distinct.remove h
  | revise order rule => exact Revision.run_distinct order rule distinct
  | pass step listed c =>
    rw [apply]
    cases h : (step { c with tree := some t }).2.tree with
    | none => exact distinct
    | some t' => exact Pass.distinct_after listed rfl distinct h

theorem foldl_distinct {t : Node} (distinct : t.Distinct) (edits : List Edit) : (edits.foldl apply t).Distinct := by
  induction edits generalizing t with
  | nil => exact distinct
  | cons edit rest ih => exact ih (apply_distinct distinct edit)

end Edit

end Unravel
