import Mathlib.Data.List.Perm.Basic
import Unravel.Proofs.Syntax.Revision
import Unravel.Proofs.Syntax.Edits

/-! A revision in post order is a rewriting from the leaves up. The rewriting is defined here without a counter, a log
   of offers or a fault: the layers of a tree from the innermost on, each with what the rule makes of its subtrees. The
   numbers that replacements start from are a parameter of it, and a run determines them. A run that fails stops at the
   first node the rule wants removed and that cannot be. -/
namespace Unravel

open List

-- sums start from the zero of the core library, whatever else is in scope
attribute [local instance (2000)] Zero.ofOfNat0

namespace Tree

variable {α : Type}

/-- The tree and all its subtrees, each after its own subtrees. -/
def climb (t : Tree α) : List (Tree α) :=
  t.para fun m f => f.children.flatMap (·.2) ++ [node m (f.map (·.1))]

theorem climb_eq (t : Tree α) : t.climb = t.children.flatMap climb ++ [t] := by
  cases t with
  | node m f =>
    simp only [climb, para_node, Form.map_fst_pair, children_map, flatMap_map]
    rfl

theorem climb_perm_walk (t : Tree α) : t.climb.Perm t.walk := by
  induction t with
  | node m f ih =>
    rw [climb_eq, walk_node]
    exact (perm_append_singleton _ _).trans ((List.Perm.flatMap_left _ ih).cons _)

theorem number_next (t : Tree α) (k : Nat) : (t.number k).2 = k + t.walk.length := by
  obtain ⟨le, ids⟩ := ids_number t k
  have taken : (t.number k).1.walk.length = (t.number k).2 - k := by
    simpa [Node.ids] using congrArg List.length ids
  have same : (t.number k).1.walk.length = t.walk.length := by
    simpa [walk_shape] using congrArg (fun s => s.walk.length) (shape_number t k)
  omega

end Tree

namespace Form

variable {ρ σ : Type} {pick : ρ → Option σ} {fill : ρ → σ}

@[simp]
theorem kind_prune (f : Form ρ) : (f.prune pick fill).kind = f.kind := by cases f <;> rfl

@[simp]
theorem isRemovable_prune (f : Form ρ) : (f.prune pick fill).isRemovable = f.isRemovable := by cases f <;> rfl

end Form

namespace Revision

section Rewriting

variable (rule : Node → Wish) (start : NodeId → NodeId)

/-- What stands in the place of a node whose subtrees are rewritten. A declaration that lost its declarators goes
without a word of the rule; a replacement is numbered from a number of its own. -/
def answer (n : Node) : Option Node :=
  if Node.isEmptyDeclaration n.form then none
  else match rule n with
    | .replace new => some (new.numberFrom (start n.mark))
    | .remove => none
    | .keep | .fail _ => some n

/-- The tree with all its subtrees rewritten, from the leaves up, and its root kept. Only a place that may be empty
loses what was removed. -/
def rewrite (t : Node) : Node :=
  t.fold fun id f => .node id (f.prune (answer rule start) fun n => (answer rule start n).getD n)

/-- Whether a node is a declaration all of whose declarators were removed. -/
def isBare (t : Node) : Bool :=
  match t.form with
  | .declaration _ declarators => declarators.all fun d => (answer rule start (rewrite rule start d)).isNone
  | _ => false

/-- The nodes of some trees that are offered to the rule, subtrees first, each with its own subtrees rewritten. -/
def offers (ts : List Node) : List Node :=
  ((ts.flatMap Tree.climb).filter fun t => !isBare rule start t).map (rewrite rule start)

theorem rewrite_node (m : NodeId) (f : Form Node) :
    rewrite rule start (.node m f) = .node m (f.prune (fun c => answer rule start (rewrite rule start c))
      fun c => (answer rule start (rewrite rule start c)).getD (rewrite rule start c)) := by
  rw [rewrite, Tree.fold_node, Form.prune_map]
  rfl

@[simp]
theorem mark_rewrite (t : Node) : (rewrite rule start t).mark = t.mark := by
  cases t with
  | node m f => rw [rewrite_node, mark_node, mark_node]

@[simp]
theorem kind_rewrite (t : Node) : (rewrite rule start t).kind = t.kind := by
  cases t with
  | node m f => rw [rewrite_node, Tree.kind, form_node, Form.kind_prune, Tree.kind, form_node]

@[simp]
theorem isRemovable_rewrite (t : Node) : (rewrite rule start t).form.isRemovable = t.form.isRemovable := by
  cases t with
  | node m f => rw [rewrite_node, form_node, Form.isRemovable_prune, form_node]

theorem isRemovable_of_isBare {t : Node} (bare : isBare rule start t) : t.form.isRemovable := by
  rw [isBare] at bare
  split at bare
  · rename_i form
    rw [form]
    rfl
  · contradiction

theorem isEmptyDeclaration_rewrite (t : Node) :
    Node.isEmptyDeclaration (rewrite rule start t).form = isBare rule start t := by
  cases t with
  | node m f =>
    rw [rewrite_node, form_node, isBare, form_node]
    cases f with
    | declaration kind ds =>
      change Node.isEmptyDeclaration (Form.declaration kind (ds.filterMap _)) = _
      cases kept : ds.filterMap fun c => answer rule start (rewrite rule start c) with
      | nil =>
        rw [filterMap_eq_nil_iff] at kept
        simpa [Node.isEmptyDeclaration] using kept
      | cons n rest =>
        have some_kept : n ∈ ds.filterMap fun c => answer rule start (rewrite rule start c) := by simp [kept]
        obtain ⟨d, hd, answered⟩ := mem_filterMap.mp some_kept
        simpa [Node.isEmptyDeclaration] using ⟨d, hd, by simp [answered]⟩
    | _ => rfl

@[simp]
theorem offers_nil : offers rule start [] = [] := rfl

theorem offers_append (ts us : List Node) :
    offers rule start (ts ++ us) = offers rule start ts ++ offers rule start us := by
  simp [offers]

theorem offers_single (t : Node) :
    offers rule start [t] =
      offers rule start t.children ++ if isBare rule start t then [] else [rewrite rule start t] := by
  rw [offers, flatMap_singleton, Tree.climb_eq, filter_append, map_append, filter_singleton]
  cases isBare rule start t <;> rfl

theorem offers_of_isBare {t : Node} (bare : isBare rule start t) :
    offers rule start [t] = offers rule start t.children := by
  rw [offers_single, if_pos bare, append_nil]

theorem offers_of_not_isBare {t : Node} (full : ¬ isBare rule start t) :
    offers rule start [t] = offers rule start t.children ++ [rewrite rule start t] := by
  rw [offers_single, if_neg full]

end Rewriting

/-- The offers made so far, in order. -/
def Progress.log (p : Progress) : List Node := p.offered.reverse

section Runs

variable (rule : Node → Wish) (base : NodeId)

/-- How many numbers the replacement of a node takes. -/
def taken (n : Node) : Nat :=
  match rule n with
  | .replace new => new.walk.length
  | _ => 0

def numbersTaken (log : List Node) : Nat := (log.map (taken rule)).sum

/-- Every replacement starts where the replacements of the nodes offered before ended. -/
def Fits (start : NodeId → NodeId) (log : List Node) : Prop :=
  ∀ before n after, log = before ++ n :: after → start n.mark = base + numbersTaken rule before

/-- No fault so far, and the next number is the one after the replacements. -/
def Ready (p : Progress) : Prop := p.fault = none ∧ p.next = base + numbersTaken rule p.log

/-- The rule wants a node removed that cannot be. -/
def Refused (n : Node) : Prop := rule n = .remove ∧ ¬ n.form.isRemovable

/-- Where a revision stands after some trees: it has offered them all, or it stopped at the first node that could not
be removed. -/
inductive Advance (start : NodeId → NodeId) (ts : List Node) (p p' : Progress) : Prop where
  | done (ready : Ready rule base p') (log : p'.log = p.log ++ offers rule start ts)
      (granted : ∀ n ∈ offers rule start ts, ¬ Refused rule n)
  | stopped (before : List Node) (n : Node) (parent : Text) (fault : p'.fault = some (.cannotDelete n.kind parent))
      (log : p'.log = p.log ++ (before ++ [n])) (early : before ++ [n] <+: offers rule start ts)
      (granted : ∀ k ∈ before, ¬ Refused rule k) (refused : Refused rule n)

/-- An action works through some trees: it offers none of them twice, does nothing after a fault, and with any numbering
that fits its offers it advances over the trees and returns what they are rewritten to. -/
structure Runs {α : Type} (ts : List Node) (action : Action α) (value : (NodeId → NodeId) → α) : Prop where
  stuck : ∀ p, p.fault ≠ none → (action p).2 = p
  logged : ∀ p, ∃ new, (action p).2.log = p.log ++ new ∧
    (new.map Tree.mark).Sublist ((ts.flatMap Tree.climb).map Tree.mark)
  advances : ∀ p start, Ready rule base p → Fits rule base start (action p).2.log →
    Advance rule base start ts p (action p).2 ∧ ((action p).2.fault = none → (action p).1 = value start)

variable {rule base}

theorem Fits.earlier {start : NodeId → NodeId} {log new : List Node} (h : Fits rule base start (log ++ new)) :
    Fits rule base start log := by
  rintro before n after rfl
  exact h before n (after ++ new) (by simp)

theorem Fits.last {start : NodeId → NodeId} {log : List Node} {n : Node} (h : Fits rule base start (log ++ [n])) :
    start n.mark = base + numbersTaken rule log := h log n [] rfl

namespace Advance

variable {start : NodeId → NodeId} {ts us : List Node} {p p' p'' : Progress}

theorem clean (h : Advance rule base start ts p p') (clean : p'.fault = none) :
    Ready rule base p' ∧ p'.log = p.log ++ offers rule start ts ∧ ∀ n ∈ offers rule start ts, ¬ Refused rule n := by
  cases h with
  | done ready log granted => exact ⟨ready, log, granted⟩
  | stopped _ _ _ fault => simp [clean] at fault

theorem trans (first : Advance rule base start ts p p') (clean : p'.fault = none)
    (second : Advance rule base start us p' p'') : Advance rule base start (ts ++ us) p p'' := by
  obtain ⟨-, log, granted⟩ := first.clean clean
  cases second with
  | done ready' log' granted' =>
    refine .done ready' (by rw [log', log, offers_append, append_assoc]) fun n hn => ?_
    rw [offers_append, mem_append] at hn
    exact hn.elim (granted n) (granted' n)
  | stopped before n parent fault log' early granted' refused =>
    refine .stopped (offers rule start ts ++ before) n parent fault (by rw [log', log]; simp) ?_ (fun k hk => ?_) refused
    · rw [offers_append, append_assoc]
      exact (prefix_append_right_inj _).mpr early
    · exact (mem_append.mp hk).elim (granted k) (granted' k)

theorem halted (first : Advance rule base start ts p p') (fault : p'.fault ≠ none)
    (more : offers rule start ts <+: offers rule start us) : Advance rule base start us p p' := by
  cases first with
  | done ready => exact absurd ready.1 fault
  | stopped before n parent fault log early granted refused =>
    exact .stopped before n parent fault log (early.trans more) granted refused

section Tree

variable {t : Node} (below : Advance rule base start t.children p p') (clean : p'.fault = none)

include below clean

theorem bare (bare : isBare rule start t) : Advance rule base start [t] p p' := by
  obtain ⟨ready, log, granted⟩ := below.clean clean
  rw [← offers_of_isBare rule start bare] at log granted
  exact .done ready log granted

theorem asked (full : ¬ isBare rule start t) (granted : ¬ Refused rule (rewrite rule start t)) :
    Advance rule base start [t] p { p' with
      next := p'.next + taken rule (rewrite rule start t), offered := rewrite rule start t :: p'.offered } := by
  obtain ⟨ready, log, granted'⟩ := below.clean clean
  have more := offers_of_not_isBare rule start full
  rw [Progress.log] at log
  refine .done ⟨clean, ?_⟩ (by simp [Progress.log, more, log]) fun n hn => ?_
  · simp [ready.2, Progress.log, numbersTaken, Nat.add_assoc]
  · rw [more, mem_append, mem_singleton] at hn
    rcases hn with hn | rfl
    · exact granted' n hn
    · exact granted

theorem refused (parent : Text) (full : ¬ isBare rule start t) (refused : Refused rule (rewrite rule start t)) (k : NodeId) :
    Advance rule base start [t] p { p' with
      next := k, offered := rewrite rule start t :: p'.offered, fault := some (.cannotDelete t.kind parent) } := by
  obtain ⟨-, log, granted⟩ := below.clean clean
  rw [Progress.log] at log
  refine .stopped (offers rule start t.children) (rewrite rule start t) parent (by rw [kind_rewrite])
    (by simp [Progress.log, log]) ?_ granted refused
  exact ⟨[], by rw [append_nil, offers_of_not_isBare rule start full]⟩

end Tree

end Advance

namespace Runs

variable {α β : Type} {ts us : List Node} {x : Action α} {v : (NodeId → NodeId) → α}

theorem idle (still : ∀ p, (x p).2 = p) (value : ∀ p, p.fault = none → ∀ start, (x p).1 = v start) :
    Runs rule base [] x v where
  stuck p _ := still p
  logged p := ⟨[], by simp [still]⟩
  advances p start ready _ := by
    rw [still]
    exact ⟨.done ready (by simp) (by simp), fun _ => value p ready.1 start⟩

theorem pure (a : α) : Runs rule base [] (Pure.pure a) fun _ => a := idle (fun _ => rfl) fun _ _ _ => rfl

theorem bind {f : α → Action β} {w : α → (NodeId → NodeId) → β} (first : Runs rule base ts x v)
    (next : ∀ a, Runs rule base us (f a) (w a)) : Runs rule base (ts ++ us) (x >>= f) fun start => w (v start) start where
  stuck p fault := by
    rw [bind_run, first.stuck p fault]
    exact (next _).stuck p fault
  logged p := by
    rw [bind_run]
    obtain ⟨new, log, sub⟩ := first.logged p
    obtain ⟨new', log', sub'⟩ := (next (x p).1).logged (x p).2
    refine ⟨new ++ new', by rw [log', log, append_assoc], ?_⟩
    simpa using sub.append sub'
  advances p start ready fits := by
    rw [bind_run] at fits ⊢
    obtain ⟨_, log, -⟩ := (next (x p).1).logged (x p).2
    obtain ⟨here, value⟩ := first.advances p start ready (log ▸ fits).earlier
    by_cases clean : (x p).2.fault = none
    · obtain ⟨there, value'⟩ := (next (x p).1).advances _ start (here.clean clean).1 fits
      rw [value clean] at value' ⊢
      exact ⟨here.trans clean (value clean ▸ there), value'⟩
    · -- after a fault the second action does nothing
      rw [(next (x p).1).stuck _ clean]
      have more : offers rule start ts <+: offers rule start (ts ++ us) := ⟨_, (offers_append rule start ts us).symm⟩
      exact ⟨here.halted clean more, fun h => absurd h clean⟩

theorem cast {w : (NodeId → NodeId) → α} (h : Runs rule base ts x v) (trees : ts = us) (values : ∀ start, v start = w start) :
    Runs rule base us x w := by
  obtain rfl : v = w := funext values
  exact trees ▸ h

end Runs

section Answers

variable (rule : Node → Wish)

/-- What becomes of an offered node if its replacement is numbered from `k` on. -/
def verdict (k : NodeId) (n : Node) : Verdict :=
  match rule n with
  | .replace new => .replace (new.numberFrom k)
  | .remove => .remove
  | .keep | .fail _ => .keep

/-- A tree that was settled: its own root with rewritten subtrees, and what should stand in its place. -/
def settled (start : NodeId → NodeId) (t : Node) : Settled :=
  (rewrite rule start t, if isBare rule start t then .remove else verdict rule (start t.mark) (rewrite rule start t))

theorem inList_settled (start : NodeId → NodeId) (t : Node) :
    inList (settled rule start t) = answer rule start (rewrite rule start t) := by
  rw [settled, answer, isEmptyDeclaration_rewrite, mark_rewrite]
  split
  · rfl
  · rw [verdict]
    cases rule (rewrite rule start t) <;> rfl

variable {rule} {p : Progress} {n : Node}

theorem eq_remove_of_verdict {k : NodeId} (h : verdict rule k n = .remove) : rule n = .remove := by
  rw [verdict] at h
  split at h
  · cases h
  · assumption
  · cases h
  · cases h

theorem hasFailed_bind {α : Type} (f : Bool → Action α) (p : Progress) : (hasFailed >>= f) p = f p.fault.isSome p := rfl

theorem offer_bind {α : Type} (f : Wish → Action α) (n : Node) (p : Progress) :
    (offer rule n >>= f) p = f (rule n) { p with offered := n :: p.offered } := rfl

theorem verdictOf_stuck (fault : p.fault ≠ none) : verdictOf rule n p = ((n, .keep), p) := by
  rw [verdictOf, hasFailed_bind, if_pos (Option.isSome_iff_ne_none.mpr fault), pure_run]

theorem verdictOf_bare (clean : p.fault = none) (bare : Node.isEmptyDeclaration n.form) :
    verdictOf rule n p = ((n, .remove), p) := by
  rw [verdictOf, hasFailed_bind, if_neg (by simp [clean]), if_pos bare, pure_run]

theorem verdictOf_asked (answers : ∀ n fault, rule n ≠ .fail fault) (clean : p.fault = none)
    (full : ¬ Node.isEmptyDeclaration n.form) :
    verdictOf rule n p =
      ((n, verdict rule p.next n), { p with next := p.next + taken rule n, offered := n :: p.offered }) := by
  rw [verdictOf, hasFailed_bind, if_neg (by simp [clean]), if_neg full, offer_bind, verdict, taken]
  cases asked : rule n with
  | keep | remove => rfl
  | replace new =>
    rw [← Tree.number_next]
    rfl
  | fail fault => exact absurd asked (answers n fault)

theorem verdictOf_logged (answers : ∀ n fault, rule n ≠ .fail fault) (n : Node) (p : Progress) :
    ∃ new, (verdictOf rule n p).2.log = p.log ++ new ∧ new.Sublist [n] := by
  by_cases clean : p.fault = none
  · by_cases bare : Node.isEmptyDeclaration n.form
    · exact ⟨[], by simp [verdictOf_bare clean bare], nil_sublist _⟩
    · exact ⟨[n], by simp [verdictOf_asked answers clean bare, Progress.log], List.Sublist.refl _⟩
  · exact ⟨[], by simp [verdictOf_stuck clean], nil_sublist _⟩

end Answers

section Layer

variable {ρ : Type} {settle : ρ → Action Settled} {before : ρ → Node} {parent : Text}

theorem settleOne_stuck {x : ρ} {p : Progress} (fault : p.fault ≠ none) :
    settleOne settle before parent x p = ((before x, .keep), p) := by
  rw [settleOne, hasFailed_bind, if_pos (Option.isSome_iff_ne_none.mpr fault), pure_run]

theorem settleOne_refused {x : ρ} {p p' : Progress} {old : Node} (clean : p.fault = none)
    (settles : settle x p = ((old, .remove), p')) (needed : ¬ (before x).form.isRemovable) :
    settleOne settle before parent x p =
      ((old, .keep), { p' with fault := p'.fault.or (some (.cannotDelete (before x).kind parent)) }) := by
  rw [settleOne, hasFailed_bind, if_neg (by simp [clean]), bind_run, settles]
  simp only [needed]
  rfl

theorem settleOne_granted {x : ρ} {p p' : Progress} {s : Settled} (clean : p.fault = none)
    (settles : settle x p = (s, p')) (granted : s.2 = .remove → (before x).form.isRemovable) :
    settleOne settle before parent x p = (s, p') := by
  rw [settleOne, hasFailed_bind, if_neg (by simp [clean]), bind_run, settles]
  obtain ⟨old, verdict⟩ := s
  cases verdict with
  | keep | replace new => rfl
  | remove =>
    simp only [granted rfl]
    rfl

theorem settleOne_log {x : ρ} {p : Progress} (clean : p.fault = none) :
    (settleOne settle before parent x p).2.log = (settle x p).2.log := by
  rcases settles : settle x p with ⟨⟨old, verdict⟩, p'⟩
  by_cases granted : verdict = .remove → (before x).form.isRemovable
  · rw [settleOne_granted clean settles granted]
  · obtain ⟨rfl, needed⟩ := Classical.not_imp.mp granted
    rw [settleOne_refused clean settles needed, Progress.log, Progress.log]

theorem settleOne_advances {x : ρ} {p p' : Progress} {start : NodeId → NodeId} (answers : ∀ n fault, rule n ≠ .fail fault)
    (clean : p.fault = none) (below : Advance rule base start (before x).children p p') (ready : Ready rule base p')
    (settles : settle x p = verdictOf rule (rewrite rule start (before x)) p')
    (fits : Fits rule base start (settle x p).2.log) :
    Advance rule base start [before x] p (settleOne settle before parent x p).2 ∧
      ((settleOne settle before parent x p).2.fault = none →
        (settleOne settle before parent x p).1 = settled rule start (before x)) := by
  by_cases bare : isBare rule start (before x)
  · rw [verdictOf_bare ready.1 (isEmptyDeclaration_rewrite rule start _ ▸ bare)] at settles
    rw [settleOne_granted clean settles fun _ => isRemovable_of_isBare rule start bare]
    exact ⟨below.bare ready.1 bare, fun _ => by rw [settled, if_pos bare]⟩
  · rw [verdictOf_asked answers ready.1 (isEmptyDeclaration_rewrite rule start _ ▸ bare)] at settles
    rw [settles, Progress.log, reverse_cons] at fits
    have number : start (before x).mark = p'.next := by
      rw [ready.2, ← mark_rewrite rule start]
      exact fits.last
    by_cases refused : Refused rule (rewrite rule start (before x))
    · rw [verdict, refused.1] at settles
      rw [settleOne_refused clean settles (by simpa using refused.2), ready.1]
      exact ⟨below.refused ready.1 parent bare refused _, by simp⟩
    · have granted : verdict rule p'.next (rewrite rule start (before x)) = .remove → (before x).form.isRemovable := by
        intro removed
        by_contra needed
        exact refused ⟨eq_remove_of_verdict removed, by simpa using needed⟩
      rw [settleOne_granted clean settles granted]
      exact ⟨below.asked ready.1 bare refused, fun _ => by rw [settled, if_neg bare, number]⟩

theorem settleOne_runs {x : ρ} {below : Action Node} (answers : ∀ n fault, rule n ≠ .fail fault)
    (whole : settle x = below >>= verdictOf rule) (named : ∀ p, (below p).1.mark = (before x).mark)
    (runs : Runs rule base (before x).children below fun start => rewrite rule start (before x)) :
    Runs rule base [before x] (settleOne settle before parent x) fun start => settled rule start (before x) where
  stuck p fault := by rw [settleOne_stuck fault]
  logged p := by
    by_cases clean : p.fault = none
    · obtain ⟨new, log, sub⟩ := runs.logged p
      obtain ⟨new', log', sub'⟩ := verdictOf_logged answers (below p).1 (below p).2
      refine ⟨new ++ new', by rw [settleOne_log clean, whole, bind_run, log', log, append_assoc], ?_⟩
      have marks := sub.append (sub'.map Tree.mark)
      rw [map_singleton, named] at marks
      rwa [flatMap_singleton, Tree.climb_eq, map_append, map_append]
    · exact ⟨[], by simp [settleOne_stuck clean]⟩
  advances p start ready fits := by
    rw [settleOne_log ready.1, whole, bind_run] at fits
    obtain ⟨_, log, -⟩ := verdictOf_logged answers (below p).1 (below p).2
    obtain ⟨advance, value⟩ := runs.advances p start ready (log ▸ fits).earlier
    by_cases clean : (below p).2.fault = none
    · have settles : settle x p = verdictOf rule (rewrite rule start (before x)) (below p).2 := by
        rw [whole, bind_run, value clean]
      refine settleOne_advances answers ready.1 advance (advance.clean clean).1 settles ?_
      rwa [settles, ← value clean]
    · have settles : settle x p = (((below p).1, .keep), (below p).2) := by rw [whole, bind_run, verdictOf_stuck clean]
      rw [settleOne_granted ready.1 settles (by simp)]
      exact ⟨advance.halted clean ⟨_, (offers_single rule start _).symm⟩, fun h => absurd h clean⟩

section Places

variable (rule) in
/-- What is left of a tree in a place that must be filled. -/
def filled (start : NodeId → NodeId) (t : Node) : Node :=
  (answer rule start (rewrite rule start t)).getD (rewrite rule start t)

/-- An action settles the tree that stands before it. -/
def Settling (rule : Node → Wish) (base : NodeId) (t : Node) (action : Action Settled) : Prop :=
  Runs rule base [t] action fun start => settled rule start t

theorem required_runs {x : ρ} (h : Settling rule base (before x) (settleOne settle before parent x)) :
    Runs rule base [before x] (required settle before parent x) fun start => filled rule start (before x) :=
  (h.bind fun _ => .pure _).cast (by simp) fun start => by rw [inList_settled]; rfl

theorem optional_runs {x : ρ} (h : Settling rule base (before x) (settleOne settle before parent x)) :
    Runs rule base [before x] (optional settle before parent x) fun start =>
      answer rule start (rewrite rule start (before x)) :=
  (h.bind fun _ => .pure _).cast (by simp) fun start => inList_settled rule start (before x)

theorem settled_runs {xs : List ρ} (h : ∀ x ∈ xs, Settling rule base (before x) (settleOne settle before parent x)) :
    Runs rule base (xs.map before) (xs.mapM (settleOne settle before parent)) fun start =>
      xs.map fun x => settled rule start (before x) := by
  induction xs with
  | nil => exact .pure []
  | cons x rest ih =>
    rw [mapM_cons]
    refine ((h x (.head _)).bind fun first =>
      (ih fun y hy => h y (.tail x hy)).bind fun others => .pure (first :: others)).cast ?_ fun _ => rfl
    simp

theorem many_runs {xs : List ρ} (h : ∀ x ∈ xs, Settling rule base (before x) (settleOne settle before parent x)) :
    Runs rule base (xs.map before) (many settle before parent xs) fun start =>
      xs.filterMap fun x => answer rule start (rewrite rule start (before x)) := by
  have chosen : ∀ all : List Settled, Runs rule base []
      (do if ← hasFailed then return all.map (·.1) else return all.filterMap inList) fun _ => all.filterMap inList := by
    intro all
    refine .idle (fun p => ?_) fun p clean _ => ?_
    · rw [hasFailed_bind]
      split <;> rfl
    · rw [hasFailed_bind, if_neg (by simp [clean]), pure_run]
  refine ((settled_runs h).bind chosen).cast (by simp) fun start => ?_
  rw [filterMap_map]
  exact filterMap_congr fun x _ => inList_settled rule start (before x)

attribute [local simp] Form.children Form.prune Form.visit Form.visitOption_id Form.mapM_id

/-- The subtrees of one layer are worked through in their order. -/
theorem layer_runs {f : Form ρ} (settling : ∀ x ∈ f.children, Settling rule base (before x) (settleOne settle before parent x)) :
    Runs rule base (f.children.map before) (layer settle before parent f) fun start =>
      f.prune (fun x => answer rule start (rewrite rule start (before x))) fun x => filled rule start (before x) := by
  have one : ∀ x ∈ f.children, _ := fun x hx => required_runs (settling x hx)
  have option : ∀ o : Option ρ, (∀ x ∈ o.toList, x ∈ f.children) →
      Runs rule base (o.toList.map before) (Form.visit.visitOption (optional settle before parent) o) fun start =>
        o.bind fun x => answer rule start (rewrite rule start (before x)) := by
    intro o inside
    cases o with
    | none => exact .pure none
    | some x => exact optional_runs (settling x (inside x (by simp)))
  have list : ∀ xs : List ρ, (∀ x ∈ xs, x ∈ f.children) → _ := fun xs inside => many_runs fun x hx => settling x (inside x hx)
  have lists : ∀ o : Option (List ρ), (∀ x ∈ o.getD [], x ∈ f.children) →
      Runs rule base ((o.getD []).map before) (o.mapM (many settle before parent)) fun start =>
        o.map fun xs => xs.filterMap fun x => answer rule start (rewrite rule start (before x)) := by
    intro o inside
    cases o with
    | none => exact .pure none
    | some xs => exact ((list xs inside).bind fun ys => .pure (some ys)).cast (by simp) fun _ => rfl
  cases f with
  | array e | object e | sequence e | declaration k e | block e =>
    exact ((list e fun x hx => hx).bind fun _ => .pure _).cast (by simp) fun _ => rfl
  | property k x | member x k | unary k x | expressionStatement x =>
    exact ((one x (by simp)).bind fun _ => .pure _).cast (by simp) fun _ => rfl
  | index x y | binary k x y | assign x k y =>
    exact ((one x (by simp)).bind fun _ => (one y (by simp)).bind fun _ => .pure _).cast
      (by simp) fun _ => rfl
  | conditional t x y =>
    exact ((one t (by simp)).bind fun _ => (one x (by simp)).bind fun _ =>
      (one y (by simp)).bind fun _ => .pure _).cast (by simp) fun _ => rfl
  | call c a | whileStatement c a =>
    exact ((one c (by simp)).bind fun _ => (list a (by simp +contextual)).bind fun _ =>
      .pure _).cast (by simp) fun _ => rfl
  | function p b n i =>
    exact ((list p (by simp +contextual)).bind fun _ =>
      (list b (by simp +contextual)).bind fun _ =>
      (option n (by simp +contextual)).bind fun _ => .pure _).cast (by simp)
      fun _ => by simp
  | functionDeclaration n p b =>
    exact ((one n (by simp)).bind fun _ => (list p (by simp +contextual)).bind fun _ =>
      (list b (by simp +contextual)).bind fun _ => .pure _).cast (by simp) fun _ => rfl
  | declarator i x =>
    exact ((one i (by simp)).bind fun _ => (option x (by simp +contextual)).bind fun _ =>
      .pure _).cast (by simp) fun _ => by simp
  | returnStatement x =>
    exact ((option x fun x hx => hx).bind fun _ => .pure _).cast (by simp)
      fun _ => by simp
  | ifStatement t c a =>
    exact ((one t (by simp)).bind fun _ => (list c (by simp +contextual)).bind fun _ =>
      (lists a (by simp +contextual)).bind fun _ => .pure _).cast (by simp)
      fun _ => by simp
  | forStatement i t u b =>
    exact ((option i (by simp +contextual)).bind fun _ =>
      (option t (by simp +contextual)).bind fun _ =>
      (option u (by simp +contextual)).bind fun _ =>
      (list b (by simp +contextual)).bind fun _ => .pure _).cast (by simp)
      fun _ => by simp
  | tryStatement b p h y =>
    exact ((list b (by simp +contextual)).bind fun _ =>
      (option p (by simp +contextual)).bind fun _ =>
      (lists h (by simp +contextual)).bind fun _ =>
      (lists y (by simp +contextual)).bind fun _ => .pure _).cast (by simp)
      fun _ => by simp
  | _ => exact .pure _

end Places

end Layer

/-- A tree is worked through below its root. -/
theorem below_runs (answers : ∀ n fault, rule n ≠ .fail fault) (t : Node) :
    Runs rule base t.children (t.para (visitLayer rule)).below fun start => rewrite rule start t := by
  induction t with
  | node m f ih =>
    have settling : ∀ parent, ∀ x ∈ (f.map fun c => (c, c.para (visitLayer rule))).children,
        Settling rule base x.1 (settleOne (·.2.whole) (·.1) parent x) := by
      intro parent x hx
      rw [children_map] at hx
      obtain ⟨c, hc, rfl⟩ := mem_map.mp hx
      refine settleOne_runs answers ?_ ?_ (ih c hc)
      · cases c with
        | node k g => simp only [para_node, visitLayer]
      · cases c with
        | node k g => exact fun p => by simp only [para_node, visitLayer, bind_run, pure_run, mark_node]
    rw [para_node]
    refine ((layer_runs (settling _)).bind fun g => .pure (Tree.node m g)).cast ?_ fun start => ?_
    · simp [Tree.children, children_map, Function.comp_def]
    · rw [rewrite_node, Form.prune_map]
      rfl

/-- The numbers that replacements start from in a run with these offers. -/
def startOf (rule : Node → Wish) (base : NodeId) (log : List Node) (id : NodeId) : NodeId :=
  base + numbersTaken rule (log.takeWhile fun n => n.mark != id)

theorem fits_startOf {log : List Node} (distinct : (log.map Tree.mark).Nodup) :
    Fits rule base (startOf rule base log) log := by
  rintro before n after rfl
  have other : ∀ k ∈ before, (k.mark != n.mark) = true := by
    intro k hk
    rw [map_append, map_cons, nodup_append] at distinct
    exact bne_iff_ne.mpr (distinct.2.2 _ (mem_map_of_mem hk) _ (.head _))
  rw [startOf, takeWhile_append_of_pos other, takeWhile_cons_of_neg (by simp), append_nil]

end Runs

/-- What a bottom-up rewriting leaves: up to a fault the nodes below the root were offered, once each, subtrees first and
in their order, but for the declarations that lost all their declarators. Without a fault all of them were, and the tree
is the rewritten one. There is a fault exactly if the rule wants an offered node removed that is neither a statement nor a
declarator, and the first such node is the last one offered. -/
structure IsRewriting (rule : Node → Wish) (start : NodeId → NodeId) (root : Node) (result : Result) : Prop where
  numbered : Fits rule root.nextId start result.seen
  once : (result.seen.map Tree.mark).Nodup
  offered : result.seen <+: offers rule start root.children
  completed : result.fault = none →
    result.seen = offers rule start root.children ∧ result.root = rewrite rule start root
  faulty : result.fault ≠ none ↔ ∃ n ∈ offers rule start root.children, rule n = .remove ∧ ¬ n.form.isRemovable
  stops : ∀ fault, result.fault = some fault → fault.category = .unsupported ∧ ∃ before n parent,
    fault = .cannotDelete n.kind parent ∧ result.seen = before ++ [n] ∧ (rule n = .remove ∧ ¬ n.form.isRemovable) ∧
      ∀ k ∈ before, ¬ (rule k = .remove ∧ ¬ k.form.isRemovable)

/-- A run in post order by a rule that has an answer for every node is a rewriting from the leaves up. -/
theorem postOrder_rewrites_bottom_up (rule : Node → Wish) (answers : ∀ n fault, rule n ≠ .fail fault) (root : Node)
    (distinct : root.Distinct) : ∃ start, IsRewriting rule start root (run .post rule root) := by
  have runs : Runs rule root.nextId root.children (postOrder rule root) _ := below_runs answers root
  obtain ⟨new, log, sub⟩ := runs.logged { next := root.nextId }
  have marks : ((run .post rule root).seen.map Tree.mark).Nodup := by
    have seen : (run .post rule root).seen = new := log
    have below : ((root.children.flatMap Tree.climb).map Tree.mark).Nodup := by
      have all : (root.climb.map Tree.mark).Nodup := ((root.climb_perm_walk.map Tree.mark).nodup_iff).mpr distinct
      rw [Tree.climb_eq, List.map_append] at all
      exact (List.nodup_append'.mp all).1
    exact seen ▸ below.sublist sub
  -- the offers say where the replacements start
  have fits : Fits rule root.nextId (startOf rule root.nextId (run .post rule root).seen) (run .post rule root).seen :=
    fits_startOf marks
  generalize startOf rule root.nextId (run .post rule root).seen = start at fits
  obtain ⟨advance, value⟩ := runs.advances { next := root.nextId } start ⟨rfl, rfl⟩ fits
  cases advance with
  | done ready log granted =>
    have seen : (run .post rule root).seen = offers rule start root.children := log
    have clean : (run .post rule root).fault = none := ready.1
    refine ⟨start, fits, marks, seen ▸ List.prefix_rfl, fun _ => ⟨seen, value ready.1⟩, ?_, by simp [clean]⟩
    exact ⟨fun fault => absurd clean fault, fun ⟨n, hn, refused⟩ => absurd refused (granted n hn)⟩
  | stopped before n parent fault log early granted refused =>
    have seen : (run .post rule root).seen = before ++ [n] := log
    have failed : (run .post rule root).fault = some (.cannotDelete n.kind parent) := fault
    refine ⟨start, fits, marks, seen ▸ early, by simp [failed], ?_, ?_⟩
    · exact ⟨fun _ => ⟨n, early.subset (by simp), refused⟩, by simp [failed]⟩
    · intro fault same
      obtain rfl := Option.some.inj (same.symm.trans failed)
      exact ⟨rfl, before, n, parent, rfl, seen, refused, granted⟩

section Sample

/-- Declarators go, and texts become undefined. -/
def strip : Node → Wish
  | .node _ (.declarator ..) => .remove
  | .node _ (.string _) => .replace (.node () .undefined)
  | _ => .keep

/-- A loop whose initialiser is a declaration, and a result. -/
def looping : Node :=
  .node 0 (.function []
    [.node 1 (.forStatement
      (some (.node 2 (.declaration "var" [.node 3 (.declarator (.node 4 (.identifier "i")) (some (.node 5 (.string "a"))))])))
      none none [.node 6 (.expressionStatement (.node 7 (.identifier "i")))]),
      .node 8 (.returnStatement (some (.node 9 (.string "b"))))] none false)

theorem strip_answers (n : Node) (fault : Fault) : strip n ≠ .fail fault := by
  unfold strip
  split <;> nofun

/-- The initialiser goes without being offered. -/
theorem looping_rewrites_bottom_up :
    looping.Distinct ∧ (run .post strip looping).fault = none ∧
      (run .post strip looping).offered = ["Identifier", "StringLiteral", "VarDeclarator", "Identifier",
        "ExpressionStatement", "For", "StringLiteral", "Return"] ∧
      ∃ start, IsRewriting strip start looping (run .post strip looping) :=
  ⟨by decide, by decide, by decide +kernel,
    postOrder_rewrites_bottom_up strip strip_answers looping (by decide)⟩

end Sample

end Revision

end Unravel
