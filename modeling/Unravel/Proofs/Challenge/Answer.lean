import Unravel.Challenge
import Unravel.Proofs.Pass.Meaning
import Unravel.Proofs.Pass.Runs

/-! The answer to a challenge whose function only evaluates expressions before it returns an array: the passes keep what
   the array stands for, the last of them folds it, and so the answer is the value of the array for the seed. -/
namespace Unravel

open Outcome List

namespace Context

/-- Until the result is folded, the tree returns what the function that was read returned. -/
structure Follows (source : Text) (ns : Namespace) (root e : Node) (c : Context) : Prop where
  text : c.source = source
  table : c.ns = ns
  result : c.result = none
  tree : ∀ now, c.tree = some now → ∃ e', Node.Mirrors ns root e now e'

/-- Once it is folded, it has the value of what the function that was read returned. -/
structure Settled (ns : Namespace) (root e : Node) (c : Context) : Prop where
  table : c.ns = ns
  result : ∀ r, c.result = some r → ∃ tree, c.tree = some tree ∧
    ∀ v, ((Folder.seeded ns root v).evaluate e).Alike ((Folder.seeded ns tree v).evaluate r)

variable {source : Text} {ns : Namespace} {root e : Node} {c next : Context}

theorem Follows.of_core (h : Follows source ns root e c) (same : next.core = c.core) : Follows source ns root e next := by
  simp only [core, Prod.mk.injEq] at same
  obtain ⟨s, n, t, r⟩ := same
  exact ⟨s.trans h.text, n.trans h.table, r.trans h.result, fun now held => h.tree now (t.symm.trans held)⟩

theorem Settled.of_core (h : Settled ns root e c) (same : next.core = c.core) : Settled ns root e next := by
  simp only [core, Prod.mk.injEq] at same
  obtain ⟨-, n, t, r⟩ := same
  refine ⟨n.trans h.table, fun x held => ?_⟩
  rw [t]
  exact h.result x (r.symm.trans held)

theorem Follows.settled (h : Follows source ns root e c) : Settled ns root e c := by
  refine ⟨h.table, fun r held => ?_⟩
  rw [h.result] at held
  cases held

theorem Follows.newTree (h : Follows source ns root e c) {t e' : Node} (mirrors : Node.Mirrors ns root e t e') (slots : List Slot) :
    Follows source ns root e { c with tree := some t, slots := slots } := by
  refine ⟨h.text, h.table, h.result, fun now held => ?_⟩
  cases held
  exact ⟨e', mirrors⟩

end Context

namespace Pass

open Context

variable {source : Text} {ns : Namespace} {root e : Node} {c next : Context} {report : Datum}

theorem follows_parse {shape : Shape} (parsed : parseFunction source = .ok shape)
    (mirrors : Node.Mirrors ns (shape.numberFrom 0) e (shape.numberFrom 0) e)
    (h : Follows source ns (shape.numberFrom 0) e c) (run : parse c = (.ok report, next)) :
    Follows source ns (shape.numberFrom 0) e next := by
  obtain ⟨s, read, rfl⟩ := parse_eq_ok run
  rw [h.text, parsed] at read
  cases read
  refine ⟨h.text, h.table, rfl, fun now held => ?_⟩
  cases held
  exact ⟨e, mirrors⟩

theorem follows_rewriting {step : Step Datum} (listed : step ∈ [eliminateAliases, recoverStrings, normaliseMembers])
    (h : Follows source ns root e c) (run : step c = (.ok report, next)) : Follows source ns root e next := by
  simp only [mem_cons, not_mem_nil, or_false] at listed
  cases tree : c.tree with
  | none =>
    have same : next = c := by
      rcases listed with rfl | rfl | rfl <;> exact congrArg Prod.snd (run.symm.trans (onTree_of_none _ tree))
    exact same ▸ h
  | some t =>
    obtain ⟨e', mirrors⟩ := h.tree t tree
    rcases listed with rfl | rfl | rfl
    · obtain ⟨report', done⟩ := eliminateAliases_run tree
      cases run.symm.trans done
      obtain ⟨e₁, mirrors⟩ := mirrors.eliminateAliases
      exact h.newTree mirrors c.slots
    · rcases recoverStrings_run tree with ⟨fault, -, failed⟩ | ⟨-, done⟩ | ⟨r, report', recovered, done⟩
      · cases run.symm.trans failed
      · cases run.symm.trans done
        exact h
      · cases run.symm.trans done
        rw [h.table] at recovered
        obtain ⟨e₁, mirrors⟩ := mirrors.recoverStrings recovered
        exact h.newTree mirrors (c.slots ++ r.slots)
    · obtain ⟨report', done⟩ := normaliseMembers_run tree
      cases run.symm.trans done
      exact h.newTree mirrors.normaliseMembers c.slots

theorem settled_foldResult (h : Follows source ns root e c) (run : foldResult c = (.ok report, next)) :
    Settled ns root e next := by
  cases tree : c.tree with
  | none =>
    cases run.symm.trans (onTree_of_none _ tree)
    exact h.settled
  | some t =>
    obtain ⟨e', mirrors⟩ := h.tree t tree
    rcases foldResult_run tree with ⟨fault, -, failed⟩ | ⟨folded, done, ⟨text, report', -, after⟩ | ⟨fault, -, failed⟩⟩
    · cases run.symm.trans failed
    · cases run.symm.trans after
      rw [h.table] at done
      refine ⟨h.table, fun r held => ?_⟩
      cases held
      exact ⟨folded.function, rfl, mirrors.evaluate done⟩
    · cases run.symm.trans failed

end Pass

namespace Registry

open Context

/-- The passes that come before the result is folded. -/
def front : List RegisteredPass := standard.passes.dropLast

variable {shape : Shape} {source : Text} (parsed : parseFunction source = .ok shape) {ns : Namespace} {e : Node}
  (mirrors : Node.Mirrors ns (shape.numberFrom 0) e (shape.numberFrom 0) e)

include parsed mirrors

theorem follows_front {p : RegisteredPass} (listed : p ∈ front) {c next : Context} {u : Unit}
    (h : Follows source ns (shape.numberFrom 0) e c) (run : p.run c = (.ok u, next)) :
    Follows source ns (shape.numberFrom 0) e next := by
  have step : ∃ name pass, p.run = Pass.reported name pass ∧
      (pass = Pass.parse ∨ pass ∈ [Pass.eliminateAliases, Pass.recoverStrings, Pass.normaliseMembers]) := by
    simp only [front, standard, List.dropLast, mem_cons, not_mem_nil, or_false] at listed
    rcases listed with rfl | rfl | rfl | rfl <;> exact ⟨_, _, rfl, by simp⟩
  obtain ⟨name, pass, same, kind⟩ := step
  rw [same] at run
  obtain ⟨report, after, run, aside⟩ := Pass.reported_eq_ok run
  rcases kind with rfl | kind
  · exact (Pass.follows_parse parsed mirrors h run).of_core aside
  · exact (Pass.follows_rewriting kind h run).of_core aside

theorem settled_run (selection : Selection) {c : Context} (h : Follows source ns (shape.numberFrom 0) e c)
    (success : (standard.run selection c).1.failure = none) :
    Settled ns (shape.numberFrom 0) e (standard.run selection c).2 := by
  have parts : standard.passes = front ++ [⟨"constant_fold", 50, Pass.reported "constant_fold" Pass.foldResult⟩] := rfl
  rw [run_standard, parts, filter_append] at success ⊢
  obtain ⟨early, whole⟩ := runAll_append success rfl
  rw [whole] at success ⊢
  have before := runAll_keeps (fun p hp _ _ _ kept run => follows_front parsed mirrors (mem_of_mem_filter hp) kept run)
    h early
  -- the last pass is the one that folds the result
  rcases runAll_single success with same | ⟨u, run⟩
  · rw [same]
    exact before.settled
  · obtain ⟨report, after, run, aside⟩ := Pass.reported_eq_ok run
    exact (Pass.settled_foldResult before run).of_core aside

end Registry

namespace Context

theorem residualValue_eq_ok {ns : Namespace} {function residual : Node} {seed x : Double}
    (h : residualValue ns function residual seed = .ok x) :
    (Folder.seeded ns function (.number seed)).evaluate residual = .ok (.number x) := by
  obtain ⟨v, value, h⟩ := Outcome.bind_eq_ok.mp h
  cases v with
  | number y =>
    cases h
    exact value
  | _ => cases h

theorem requireConstant_eq_ok {t : Node} {u : Unit} (h : requireConstant t = .ok u) : t.isLiteral := by
  rw [requireConstant] at h
  split at h
  next literal => exact literal
  next =>
    obtain ⟨text, -, h⟩ := Outcome.bind_eq_ok.mp h
    cases h

theorem evaluateResult_eq_ok {seed : Double} {c next : Context} {answer : List Value}
    (h : evaluateResult seed c = (.ok answer, next)) :
    ∃ tree r, c.tree = some tree ∧ c.result = some r ∧
      (Folder.seeded c.ns tree (.number seed)).evaluate r = .ok (.array answer) := by
  rw [evaluateResult, get_bind] at h
  cases held : c.tree with
  | none =>
    rw [held] at h
    cases h
  | some tree =>
    cases elements : c.result.bind Node.arrayElements? with
    | none =>
      rw [held, elements] at h
      cases h
    | some es =>
      rw [held, elements] at h
      obtain ⟨⟨m, f⟩, result, array⟩ := Option.bind_eq_some_iff.mp elements
      cases f with
      | array es' =>
        cases array
        -- with any other number of members there is no answer
        match es, h with
        | [residual, keys, marker], h =>
          obtain ⟨_, first, h⟩ := lift_bind_eq_ok h
          obtain ⟨_, second, h⟩ := lift_bind_eq_ok h
          obtain ⟨x, value, h⟩ := lift_bind_eq_ok h
          obtain ⟨text, -, h⟩ := lift_bind_eq_ok h
          obtain ⟨_, after, -, h⟩ := bind_eq_ok h
          obtain ⟨a, known, h⟩ := lift_bind_eq_ok h
          obtain ⟨b, known', h⟩ := lift_bind_eq_ok h
          cases h
          refine ⟨tree, _, rfl, result, (Folder.evaluate_array _).mpr ?_⟩
          simp only [mapM_cons, mapM_nil, residualValue_eq_ok value,
            Folder.evaluate_of_isLiteral _ (requireConstant_eq_ok first),
            Folder.evaluate_of_isLiteral _ (requireConstant_eq_ok second), known, known']
          rfl
      | _ => cases array

end Context

namespace Challenge

theorem solve_eq_ok {c : Challenge} {environment : Environment} {selection : Selection} {output : Output} {solution : Solution}
    (h : (c.solve environment selection output).outcome = .ok solution) :
    ∃ ns next, Namespace.standard.withMeasurements environment.measurements = .ok ns ∧
      (Registry.standard.run selection (c.context ns output)).1.failure = none ∧
      Context.evaluateResult c.seed (Registry.standard.run selection (c.context ns output)).2 = (.ok solution.answer, next) := by
  rw [solve] at h
  split at h
  next => cases h
  next ns measured =>
    dsimp only at h
    split at h
    next => cases h
    next success =>
      split at h
      next answer next run =>
        cases h
        exact ⟨ns, next, measured, success, run⟩
      next => cases h

/-- Whatever a function evaluates before it returns an array, the answer is the array for the seed. -/
theorem solve_straight {c : Challenge} {environment : Environment} {selection : Selection} {output : Output} {solution : Solution}
    {shape : Shape} (parsed : parseFunction c.code = .ok shape) {e : Node} (straight : (shape.numberFrom 0).IsStraight)
    (gives : Node.GivesArray (shape.numberFrom 0) e)
    (solved : (c.solve environment selection output).outcome = .ok solution) :
    ∃ ns, Namespace.standard.withMeasurements environment.measurements = .ok ns ∧
      (Folder.seeded ns (shape.numberFrom 0) (.number c.seed)).evaluate e = .ok (.array solution.answer) := by
  obtain ⟨ns, next, measured, success, run⟩ := solve_eq_ok solved
  obtain ⟨tree, undotted⟩ := Node.function_of_parsed parsed 0
  have start : Context.Follows c.code ns (shape.numberFrom 0) e (c.context ns output) := ⟨rfl, rfl, rfl, nofun⟩
  have settled := Registry.settled_run parsed (.refl tree undotted straight gives) selection start success
  obtain ⟨now, r, held, result, value⟩ := Context.evaluateResult_eq_ok run
  obtain ⟨now', held', alike⟩ := settled.result r result
  cases held.symm.trans held'
  rw [settled.table] at value
  exact ⟨ns, measured, (alike _ _).mpr value⟩

end Challenge

end Unravel
