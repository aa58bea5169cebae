import Mathlib.Data.List.Forall2
import Unravel.Grammar.Expression

/-! Operands and operators in a row are grouped into the operation that they were written from, if every operator in
   it leaves its operands whole: the one applied last on the left binds before it, and it does not bind before the one
   applied last on the right. -/
namespace Unravel.Grammar

open List

theorem takesBefore_iff {earlier later : BinaryOp} :
    takesBefore earlier later ↔ level later < level earlier ∨ level later = level earlier ∧ earlier ≠ .pow := by
  simp [takesBefore]

theorem not_takesBefore_inner {outer op inner : BinaryOp} (waits : ¬takesBefore outer op) (left : takesBefore inner op) :
    ¬takesBefore outer inner := by
  rw [takesBefore_iff] at *
  grind

theorem takesBefore_of_right {op inner later : BinaryOp} (ends : takesBefore op later) (right : ¬takesBefore op inner) :
    takesBefore inner later := by
  rw [takesBefore_iff] at *
  grind

/-- Operands with the operators that join them. -/
inductive Operation (α : Type) where
  | operand (a : α)
  | apply (left : Operation α) (op : BinaryOp) (right : Operation α)

namespace Operation

variable {α : Type}

def first : Operation α → α
  | operand a => a
  | apply left _ _ => left.first

def tail : Operation α → List (BinaryOp × α)
  | operand _ => []
  | apply left op right => left.tail ++ (op, right.first) :: right.tail

def fold (join : α → BinaryOp → α → α) : Operation α → α
  | operand a => a
  | apply left op right => join (left.fold join) op (right.fold join)

/-- The operator that is applied last. -/
def root : Operation α → Option BinaryOp
  | operand _ => none
  | apply _ op _ => some op

/-- Every operator leaves its operands whole. -/
def IsLevelled : Operation α → Prop
  | operand _ => True
  | apply left op right => left.IsLevelled ∧ right.IsLevelled ∧
      (∀ inner ∈ left.root, takesBefore inner op) ∧ ∀ inner ∈ right.root, ¬takesBefore op inner

end Operation

namespace Chain

variable {α β : Type} (join : α → BinaryOp → α → α)

/-- One operator and its right operand more. -/
def advance (state : List (α × BinaryOp) × α) (next : BinaryOp × α) : List (α × BinaryOp) × α :=
  let (waiting, left) := settle join next.1 state.1 state.2
  ((left, next.1) :: waiting, next.2)

/-- Joins all that waits, the last operand being complete. -/
def close (state : List (α × BinaryOp) × α) : α := state.1.foldl (fun right left => join left.1 left.2 right) state.2

theorem group_eq (first : α) (tail : List (BinaryOp × α)) :
    group join first tail = close join (tail.foldl (advance join) ([], first)) := rfl

theorem settle_all (op : BinaryOp) {spine : List (α × BinaryOp)} (waiting : List (α × BinaryOp)) (last : α)
    (ends : ∀ w ∈ spine, takesBefore w.2 op) :
    settle join op (spine ++ waiting) last = settle join op waiting (close join (spine, last)) := by
  induction spine generalizing last with
  | nil => rfl
  | cons w spine ih =>
    rw [cons_append, settle, if_pos (ends w (.head _))]
    exact ih _ fun v hv => ends v (.tail w hv)

theorem settle_none {op : BinaryOp} {waiting : List (α × BinaryOp)} (last : α)
    (waits : ∀ w ∈ waiting.head?, ¬takesBefore w.2 op) : settle join op waiting last = (waiting, last) := by
  cases waiting with
  | nil => rfl
  | cons w waiting => rw [settle, if_neg (waits w rfl)]

/-- After the operands of an operation, what waits on top of the operators outside closes to it. -/
theorem foldl_tail {t : Operation α} (levelled : t.IsLevelled) (waiting : List (α × BinaryOp))
    (outside : ∀ w ∈ waiting.head?, ∀ inner ∈ t.root, ¬takesBefore w.2 inner) :
    ∃ spine last, t.tail.foldl (advance join) (waiting, t.first) = (spine ++ waiting, last) ∧
      close join (spine, last) = t.fold join ∧
      ∀ op, (∀ inner ∈ t.root, takesBefore inner op) → ∀ w ∈ spine, takesBefore w.2 op := by
  induction t generalizing waiting with
  | operand a => exact ⟨[], a, rfl, rfl, fun _ _ => nofun⟩
  | apply left op right ihl ihr =>
    obtain ⟨leftLevelled, rightLevelled, before, after⟩ := levelled
    have outsideLeft : ∀ w ∈ waiting.head?, ∀ inner ∈ left.root, ¬takesBefore w.2 inner :=
      fun w hw inner hi => not_takesBefore_inner (outside w hw op rfl) (before inner hi)
    obtain ⟨leftSpine, leftLast, leftRun, leftClosed, leftEnds⟩ := ihl leftLevelled waiting outsideLeft
    have step : advance join (leftSpine ++ waiting, leftLast) (op, right.first) =
        ((left.fold join, op) :: waiting, right.first) := by
      rw [advance, settle_all join op waiting leftLast (leftEnds op before), leftClosed]
      rw [settle_none join _ fun w hw => outside w hw op rfl]
    have outsideRight : ∀ w ∈ ((left.fold join, op) :: waiting).head?, ∀ inner ∈ right.root, ¬takesBefore w.2 inner := by
      rintro w ⟨⟩
      exact after
    obtain ⟨spine, last, run, closed, ends⟩ := ihr rightLevelled _ outsideRight
    refine ⟨spine ++ [(left.fold join, op)], last, ?_, ?_, fun later endsAll w hw => ?_⟩
    · rw [Operation.tail, Operation.first, foldl_append, leftRun, foldl_cons, step, run]
      simp
    · rw [close] at closed ⊢
      rw [foldl_append, closed]
      rfl
    · have here : takesBefore op later := endsAll op rfl
      rcases mem_append.mp hw with hw | hw
      · exact ends later (fun inner hi => takesBefore_of_right here (after inner hi)) w hw
      · rw [mem_singleton.mp hw]
        exact here

/-- Grouping gives the operation back. -/
theorem group_levelled {t : Operation α} (levelled : t.IsLevelled) : group join t.first t.tail = t.fold join := by
  obtain ⟨spine, last, run, closed, -⟩ := foldl_tail join levelled [] nofun
  rw [group_eq, run, append_nil, closed]

variable {join} {joinAs : β → BinaryOp → β → β} {R : α → β → Prop}
  (joins : ∀ {a b c d} (op : BinaryOp), R a b → R c d → R (join a op c) (joinAs b op d))

include joins

theorem settle_related (op : BinaryOp) {ws : List (α × BinaryOp)} {vs : List (β × BinaryOp)} {a : α} {b : β}
    (waiting : List.Forall₂ (fun w v => R w.1 v.1 ∧ w.2 = v.2) ws vs) (last : R a b) :
    List.Forall₂ (fun w v => R w.1 v.1 ∧ w.2 = v.2) (settle join op ws a).1 (settle joinAs op vs b).1 ∧
      R (settle join op ws a).2 (settle joinAs op vs b).2 := by
  induction waiting generalizing a b with
  | nil => exact ⟨.nil, last⟩
  | @cons w v ws vs both rest ih =>
    obtain ⟨left, inner⟩ := w
    obtain ⟨here, rfl⟩ := both
    rw [settle, settle]
    split
    · exact ih (joins v.2 here last)
    · exact ⟨.cons ⟨here, rfl⟩ rest, last⟩

theorem group_related {a : α} {b : β} {as : List (BinaryOp × α)} {bs : List (BinaryOp × β)} (first : R a b)
    (tail : List.Forall₂ (fun x y => x.1 = y.1 ∧ R x.2 y.2) as bs) : R (group join a as) (group joinAs b bs) := by
  have closes : ∀ {ws : List (α × BinaryOp)} {vs : List (β × BinaryOp)} {a b},
      List.Forall₂ (fun w v => R w.1 v.1 ∧ w.2 = v.2) ws vs → R a b → R (close join (ws, a)) (close joinAs (vs, b)) := by
    intro ws vs a b waiting
    induction waiting generalizing a b with
    | nil => exact id
    | @cons w v ws vs both rest ih =>
      intro last
      obtain ⟨left, op⟩ := w
      obtain ⟨here, rfl⟩ := both
      exact ih (joins v.2 here last)
  have runs : ∀ {ws : List (α × BinaryOp)} {vs : List (β × BinaryOp)} {a b},
      List.Forall₂ (fun w v => R w.1 v.1 ∧ w.2 = v.2) ws vs → R a b →
      R (close join (as.foldl (advance join) (ws, a))) (close joinAs (bs.foldl (advance joinAs) (vs, b))) := by
    induction tail with
    | nil => exact closes
    | @cons x y as bs both rest ih =>
      intro ws vs a b waiting last
      obtain ⟨same, here⟩ := both
      obtain ⟨settled, left⟩ := settle_related joins y.1 waiting last
      rw [foldl_cons, foldl_cons, advance, advance, same]
      exact ih (.cons ⟨left, rfl⟩ settled) here
  exact runs .nil first

omit joins

end Chain

end Unravel.Grammar
