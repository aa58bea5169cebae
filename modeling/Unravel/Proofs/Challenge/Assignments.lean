import Unravel.Proofs.Challenge.Answer

/-! Functions that assign to their parameter before they return an array. To execute one is to execute its assignments,
   each for the value that the one before it left, and then to evaluate the array for the last value. The answer to a
   challenge is another one: it is the array for the seed, whatever is assigned. -/
namespace Unravel

open Outcome

/-- Whether a value is a given number. -/
def Value.isNumber (y : Double) : Value → Bool
  | .number x => x = y
  | _ => false

theorem Value.eq_number {v : Value} {y : Double} (h : v.isNumber y) : v = .number y := by
  cases v with
  | number x => rw [of_decide_eq_true h]
  | _ => cases h

/-- What a function does that assigns to its parameter: expressions whose values it stores one after another, and the
members of the array that it then returns. -/
structure Assigner where
  stored : List Node
  first : Node
  second : Node
  third : Node

namespace Assigner

/-- The expression whose value a statement stores under a name. A compound assignment stores what its operator makes of
the name and the right side. -/
def stored? (x : Text) : Node → Option Node
  | .node _ (.expressionStatement (.node m (.assign (.node k (.identifier y)) op value))) =>
    if y = x then
      some (if op = "=" then value else .node m (.binary (.ofSymbol op.dropLast) (.node k (.identifier y)) value))
    else none
  | _ => none

def ofBody? (x : Text) : List Node → Option Assigner
  | [] => none
  | [.node _ (.returnStatement (some (.node _ (.array [first, second, third]))))] => some ⟨[], first, second, third⟩
  | s :: rest => do
    let e ← stored? x s
    let a ← ofBody? x rest
    return { a with stored := e :: a.stored }

/-- Reads a function of one parameter as a row of assignments to it with the return of an array of three at the end. -/
def of? (root : Node) : Option Assigner :=
  match root.form with
  | .function [p] body _ _ => ofBody? p.name body
  | _ => none

/-- The value of the parameter after all assignments. -/
def last (a : Assigner) (ns : Namespace) (root : Node) (seed : Value) : Outcome Value :=
  a.stored.foldlM (fun v e => (Folder.seeded ns root v).evaluate e) seed

/-- The first value that the function returns when it is executed. -/
def execute (a : Assigner) (ns : Namespace) (root : Node) (seed : Value) : Outcome Value := do
  (Folder.seeded ns root (← a.last ns root seed)).evaluate a.first

variable {a : Assigner} {root : Node}

theorem isStep_of_stored {x : Text} {s e : Node} (h : stored? x s = some e) :
    s.form.isStep ∧ Node.isReturn s.form = false := by
  unfold stored? at h
  split at h
  · exact ⟨rfl, rfl⟩
  · cases h

theorem ofBody?_eq_some {x : Text} {body : List Node} (h : ofBody? x body = some a) :
    (∀ s ∈ body, s.form.isStep) ∧ ∃ s e, body.find? (fun s => Node.isReturn s.form) = some s ∧
      s.form = .returnStatement (some e) ∧ e.form = .array [a.first, a.second, a.third] := by
  fun_induction ofBody? x body generalizing a with
  | case1 => cases h
  | case2 m k first second third =>
    cases h
    exact ⟨by simp [Form.isStep], _, _, rfl, rfl, rfl⟩
  | case3 s rest _ ih =>
    obtain ⟨e, assigned, h⟩ := Option.bind_eq_some_iff.mp h
    obtain ⟨b, others, h⟩ := Option.bind_eq_some_iff.mp h
    cases h
    obtain ⟨step, other⟩ := isStep_of_stored assigned
    obtain ⟨steps, found⟩ := ih others
    refine ⟨List.forall_mem_cons.mpr ⟨step, steps⟩, ?_⟩
    rwa [List.find?_cons_of_neg (by simp [other])]

theorem straight_of_of? (h : of? root = some a) :
    root.IsStraight ∧ ∃ e, Node.GivesArray root e ∧ e.form = .array [a.first, a.second, a.third] := by
  obtain ⟨m, f⟩ := root
  unfold of? at h
  split at h
  next p body name isArrow function =>
    cases function
    obtain ⟨steps, s, e, found, form, array⟩ := ofBody?_eq_some h
    exact ⟨steps, e, ⟨s, found, form, _, array⟩, array⟩
  next => cases h

end Assigner

namespace Challenge

/-- The answer is what a function returns for the seed, as if it had assigned nothing to its parameter. So it is what
the function returns when it is executed just if the first member does not tell the last value of the parameter from
the seed. -/
theorem solve_ignores_assignments (c : Challenge) (environment : Environment) (selection : Selection) (output : Output)
    (shape : Shape) (parsed : parseFunction c.code = .ok shape) (a : Assigner)
    (assigner : Assigner.of? (shape.numberFrom 0) = some a) (solution : Solution)
    (solved : (c.solve environment selection output).outcome = .ok solution) :
    ∃ ns x y z, Namespace.standard.withMeasurements environment.measurements = .ok ns ∧ solution.answer = [x, y, z] ∧
      (Folder.seeded ns (shape.numberFrom 0) (.number c.seed)).evaluate a.first = .ok x ∧
      (Folder.seeded ns (shape.numberFrom 0) (.number c.seed)).evaluate a.second = .ok y ∧
      (Folder.seeded ns (shape.numberFrom 0) (.number c.seed)).evaluate a.third = .ok z ∧
      (a.execute ns (shape.numberFrom 0) (.number c.seed) = .ok x ↔
        ∃ v, a.last ns (shape.numberFrom 0) (.number c.seed) = .ok v ∧
          (Folder.seeded ns (shape.numberFrom 0) v).evaluate a.first =
            (Folder.seeded ns (shape.numberFrom 0) (.number c.seed)).evaluate a.first) := by
  obtain ⟨straight, ⟨m, f⟩, gives, array⟩ := Assigner.straight_of_of? assigner
  cases array
  obtain ⟨ns, measured, value⟩ := solve_straight parsed straight gives solved
  have members := forall₂_of_mapM ((Folder.evaluate_array _).mp value)
  simp only [List.forall₂_cons_left_iff, List.forall₂_nil_left_iff] at members
  obtain ⟨x, _, first, ⟨y, _, second, ⟨z, _, third, rfl, rfl⟩, rfl⟩, answer⟩ := members
  refine ⟨ns, x, y, z, measured, answer, first, second, third, ?_⟩
  rw [Assigner.execute, bind_eq_ok, first]

/-- One more than the seed is stored before it is returned. -/
def incremented : Challenge := ⟨.one, "function(a)\x7ba=a+1;return [a,0,0]\x7d", "x"⟩

theorem incremented_solved : ∃ shape a ns solution, parseFunction incremented.code = .ok shape ∧
    Assigner.of? (shape.numberFrom 0) = some a ∧
    Namespace.standard.withMeasurements ({} : Environment).measurements = .ok ns ∧
    a.execute ns (shape.numberFrom 0) (.number .one) = .ok (.number (.ofNat 2)) ∧
    (incremented.solve {} {} {}).outcome = .ok solution ∧ solution.answer.head? = some (.number .one) := by
  have executed : (parseFunction incremented.code).toOption.any fun shape =>
      (Assigner.of? (shape.numberFrom 0)).any fun a =>
        (Namespace.standard.withMeasurements ({} : Environment).measurements).toOption.any fun ns =>
          (a.execute ns (shape.numberFrom 0) (.number .one)).toOption.any fun v => v.isNumber (.ofNat 2) := by
    decide +kernel
  have solved : (incremented.solve {} {} {}).outcome.toOption.any fun solution =>
      solution.answer.head?.any fun v => v.isNumber .one := by
    simp only [solve, Registry.run_standard]
    decide +kernel
  obtain ⟨shape, parsed, executed⟩ := exists_ok_of_any executed
  obtain ⟨a, assigner, executed⟩ := (Option.any_eq_true _ _).mp executed
  obtain ⟨ns, measured, executed⟩ := exists_ok_of_any executed
  obtain ⟨v, value, two⟩ := exists_ok_of_any executed
  obtain ⟨solution, outcome, solved⟩ := exists_ok_of_any solved
  obtain ⟨w, answer, one⟩ := (Option.any_eq_true _ _).mp solved
  rw [Value.eq_number two] at value
  rw [Value.eq_number one] at answer
  exact ⟨shape, a, ns, solution, parsed, assigner, measured, value, outcome, answer⟩

/-- The answer to this challenge is not what its function returns when it is executed. -/
theorem incremented_answer_not_executed : ∃ shape a ns solution v, parseFunction incremented.code = .ok shape ∧
    Assigner.of? (shape.numberFrom 0) = some a ∧
    Namespace.standard.withMeasurements ({} : Environment).measurements = .ok ns ∧
    a.execute ns (shape.numberFrom 0) (.number incremented.seed) = .ok v ∧
    (incremented.solve {} {} {}).outcome = .ok solution ∧ solution.answer.head? ≠ some v := by
  obtain ⟨shape, a, ns, solution, parsed, assigner, measured, value, outcome, answer⟩ := incremented_solved
  refine ⟨shape, a, ns, solution, _, parsed, assigner, measured, value, outcome, ?_⟩
  rw [answer]
  simp only [ne_eq, Option.some.injEq, Value.number.injEq]
  decide +kernel

theorem incremented_ignores_assignment : ∃ shape a solution, parseFunction incremented.code = .ok shape ∧
    Assigner.of? (shape.numberFrom 0) = some a ∧ (incremented.solve {} {} {}).outcome = .ok solution ∧
    ∃ ns y z, Namespace.standard.withMeasurements ({} : Environment).measurements = .ok ns ∧
      solution.answer = [.number .one, y, z] ∧
      (Folder.seeded ns (shape.numberFrom 0) (.number .one)).evaluate a.first = .ok (.number .one) ∧
      ¬∃ v, a.last ns (shape.numberFrom 0) (.number .one) = .ok v ∧
        (Folder.seeded ns (shape.numberFrom 0) v).evaluate a.first =
          (Folder.seeded ns (shape.numberFrom 0) (.number .one)).evaluate a.first := by
  obtain ⟨shape, a, ns, solution, parsed, assigner, measured, value, outcome, answer⟩ := incremented_solved
  refine ⟨shape, a, solution, parsed, assigner, outcome, ?_⟩
  obtain ⟨ns', x, y, z, measured', same, first, -, -, executed⟩ :=
    solve_ignores_assignments incremented {} {} {} shape parsed a assigner solution outcome
  cases measured.symm.trans measured'
  rw [same] at answer
  cases answer
  refine ⟨ns, y, z, measured, same, first, fun unchanged => ?_⟩
  have both := (executed.mpr unchanged).symm.trans value
  simp only [Except.ok.injEq, Value.number.injEq] at both
  exact absurd both (by decide +kernel)

end Challenge

end Unravel
