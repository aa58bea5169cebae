import Unravel.Challenge
import Unravel.Proofs.Pass.Faults

/-! Every way in which solving a challenge can end. Beside the documented faults there are a few others, each with its own
   cause in the challenge. -/
namespace Unravel

open Outcome

theorem Tree.succeeds_literalValue {α : Type} {t : Tree α} (h : t.isLiteral) : t.literalValue.Succeeds := by
  induction t with
  | node m f ih =>
    cases f with
    | array es =>
      rw [isLiteral_array, List.all_eq_true] at h
      rw [literalValue_array]
      exact (succeeds_mapM fun e he => ih e he (h e he)).map fun _ _ => True.intro
    | number | string | boolean | undefined => exact True.intro
    | _ => cases h

section Passes

variable {source : Text} {artifacts : Option Text}

theorem keeps_standard : ∀ p ∈ Registry.standard.passes, Keeps source artifacts p.run fun _ => True := by
  simp only [Registry.standard, List.forall_mem_cons, List.not_mem_nil, false_implies, implies_true, and_true]
  exact ⟨Pass.keeps_reported _ Pass.keeps_parse, Pass.keeps_reported _ Pass.keeps_eliminateAliases,
    Pass.keeps_reported _ Pass.keeps_recoverStrings, Pass.keeps_reported _ Pass.keeps_normaliseMembers,
    Pass.keeps_reported _ Pass.keeps_foldResult⟩

theorem Registry.runAll_allowed {passes : List RegisteredPass} (each : ∀ p ∈ passes, Keeps source artifacts p.run fun _ => True)
    {report : RunReport} (fresh : report.failure = none) {c : Context} (sound : c.IsSound source artifacts) :
    (∀ failure ∈ (runAll passes report c).1.failure, failure.1.IsAllowed source artifacts) ∧
      (runAll passes report c).2.IsSound source artifacts := by
  induction passes generalizing report c with
  | nil =>
    refine ⟨?_, sound⟩
    rw [runAll, fresh]
    rintro failure ⟨⟩
  | cons p rest ih =>
    obtain ⟨ends, after⟩ := each p (.head _) c sound
    rw [runAll]
    cases run : p.run c with
    | mk result next =>
      rw [run] at ends after
      cases result with
      | ok _ => exact ih (fun q hq => each q (.tail p hq)) rfl after
      | error f =>
        refine ⟨?_, after⟩
        intro failure same
        cases same
        exact ends

theorem Registry.run_allowed (selection : Selection) {c : Context} (sound : c.IsSound source artifacts) :
    (∀ failure ∈ (standard.run selection c).1.failure, failure.1.IsAllowed source artifacts) ∧
      (standard.run selection c).2.IsSound source artifacts := by
  rw [run_standard]
  exact runAll_allowed (fun p hp => keeps_standard p (List.mem_of_mem_filter hp)) rfl sound

end Passes

namespace Context

variable {source : Text} {artifacts : Option Text}

theorem ends_requireConstant {t : Node} (h : t.Grammatical ∧ t.form.isExpression) :
    (requireConstant t).Ends (fun _ => t.isLiteral) (Fault.IsAllowed source artifacts) := by
  rw [requireConstant]
  split
  next literal => exact literal
  next => exact (h.1.renders h.2).ends.bind fun _ _ => Or.inl rfl

theorem ends_residualValue {ns : Namespace} (closed : ns.IsClosed) (function : Node) {residual : Node}
    (h : residual.Grammatical ∧ residual.form.isExpression) (seed : Double) :
    (residualValue ns function residual seed).Ends (fun _ => True) (Fault.IsAllowed source artifacts) := by
  have evaluates := Folder.ends_evaluate (Folder.tame_seeded closed function seed) (Folder.shown_of_grammatical h.1 h.2)
  refine (evaluates.widen fun _ => .ofEvaluation).bind fun v _ => ?_
  cases v with
  | number x => exact True.intro
  | _ => exact Or.inl rfl

theorem keeps_evaluateResult (seed : Double) : Keeps source artifacts (evaluateResult seed) fun _ => True := by
  refine keeps_get.bind fun c sound => ?_
  dsimp only
  split
  next tree residual keys marker held elements =>
    obtain ⟨⟨m, f⟩, held', array⟩ := Option.bind_eq_some_iff.mp elements
    have whole := sound.result _ held'
    cases f with
    | array es =>
      cases array
      have operand : ∀ e ∈ [residual, keys, marker], e.Grammatical ∧ e.form.isExpression := by
        intro e he
        exact whole.1.operand (self_mem_walk _) (p := ⟨.expression, false, false, e⟩) (List.mem_map_of_mem he) rfl
      have first := operand residual (by simp)
      refine (keeps_lift (ends_requireConstant (operand keys (by simp)))).bind fun _ fixed => ?_
      refine (keeps_lift (ends_requireConstant (operand marker (by simp)))).bind fun _ fixed' => ?_
      refine (keeps_lift (ends_residualValue sound.closed tree first seed)).bind fun value _ => ?_
      refine (keeps_lift (first.1.renders first.2).ends).bind fun text _ => (keeps_traceEntry _).bind fun _ _ => ?_
      refine (keeps_lift (Tree.succeeds_literalValue fixed).ends).bind fun _ _ => ?_
      exact (keeps_lift (Tree.succeeds_literalValue fixed').ends).bind fun _ _ => keeps_pure True.intro
    | _ => cases array
  next => exact keeps_throw (Or.inl rfl)

end Context

namespace Challenge

theorem context_sound (c : Challenge) {ns : Namespace} (closed : ns.IsClosed) (output : Output) :
    (c.context ns output).IsSound c.code output.artifacts := ⟨rfl, rfl, closed, nofun, nofun⟩

/-- A Kelvin sign is the only digit of a number in base 36. -/
def kelvinDigit : Challenge := ⟨.one, "function(a)\x7breturn [parseInt('\\u212a',36),0,0]\x7d", "x"⟩

/-- An escape for the first number that is no code point. -/
def beyondRange : Challenge := ⟨.one, "function(a)\x7breturn ['\\u\x7b110000\x7d',0,0]\x7d", "x"⟩

def marked : Datum := .mapping [(.text "marker", .text "m")]

theorem fails_of_eval {c : Challenge} {k : Category} (h : (match (c.solve {} {} {}).outcome with
    | .ok _ => false
    | .error (f, _) => decide (f.category = k)) = true) :
    ∃ fault pass, (c.solve {} {} {}).outcome = .error (fault, pass) ∧ fault.category = k := by
  cases result : (c.solve {} {} {}).outcome with
  | ok solution =>
    rw [result] at h
    cases h
  | error failure =>
    rw [result] at h
    exact ⟨failure.1, failure.2, rfl, of_decide_eq_true h⟩

end Challenge

end Unravel
