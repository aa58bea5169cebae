import Unravel.Environment
import Unravel.Proofs.Fold.Faults
import Unravel.Proofs.Value.Conversion
import Unravel.Result

/-! The values of the algebra are those that can be written as literals. The functions of the table stay among them, and so
   does everything that can be measured, so that folding goes wrong only where evaluation does. -/
namespace Unravel

open Outcome Folder List

namespace Value

mutual
theorem succeeds_toShape : ∀ v : Value, v.isModelled → v.toShape.Succeeds
  | .undefined, _ => trivial
  | .boolean _, _ => trivial
  | .number _, _ => trivial
  | .string _, _ => trivial
  | .array items, h => (succeeds_toShapes items h).map fun _ _ => trivial
  | .null, h => by cases h

theorem succeeds_toShapes : ∀ vs : List Value, areModelled vs → (toShapes vs).Succeeds
  | [], _ => trivial
  | v :: rest, h => by
    rw [areModelled, Bool.and_eq_true] at h
    exact (succeeds_toShape v h.1).bind fun _ _ => (succeeds_toShapes rest h.2).map fun _ _ => trivial
end

mutual
theorem toShape_unmodelled : ∀ v : Value, v.isModelled = false → v.toShape = .error (.notBuildable .null)
  | .null, _ => rfl
  | .array items, h => by
    rw [toShape, toShapes_unmodelled items h]
    rfl

theorem toShapes_unmodelled : ∀ vs : List Value, areModelled vs = false → toShapes vs = .error (.notBuildable .null)
  | v :: rest, h => by
    rw [areModelled, Bool.and_eq_false_iff] at h
    rw [toShapes]
    cases modelled : v.isModelled with
    | false =>
      rw [toShape_unmodelled v modelled]
      rfl
    | true =>
      obtain ⟨s, shape⟩ := (succeeds_toShape v modelled).exists_ok
      rw [shape, toShapes_unmodelled rest (h.resolve_left (by simp [modelled]))]
      rfl
end

theorem areModelled_iff {vs : List Value} : areModelled vs ↔ ∀ v ∈ vs, v.isModelled := by
  induction vs with
  | nil => exact ⟨nofun, fun _ => rfl⟩
  | cons v rest ih => rw [areModelled, Bool.and_eq_true, ih, forall_mem_cons]

theorem buildable_iff {v : Value} : Buildable (fun f => f.isOfEvaluation) v ↔ v.isModelled := by
  refine ⟨fun h => ?_, fun h => (succeeds_toShape v h).ends⟩
  cases modelled : v.isModelled with
  | true => rfl
  | false =>
    rw [Buildable, toShape_unmodelled v modelled] at h
    cases h

end Value

/-- A function that takes values of the algebra to values of the algebra, or goes wrong where evaluation does. -/
def Behaviour.IsClosed : Behaviour → Prop
  | .constant v => v.isModelled
  | .function least _ apply => ∀ args : List Value, least ≤ args.length → (∀ a ∈ args, a.isModelled) →
    (apply args).Ends (fun v => v.isModelled) fun f => f.isOfEvaluation
  | .measuredField v | .measuredCall v => ∀ x ∈ v, x.isModelled

theorem Behaviour.IsClosed.tame {b : Behaviour} (h : b.IsClosed) : b.Tame fun f => f.isOfEvaluation := by
  cases b with
  | constant v => exact Value.buildable_iff.mpr h
  | function least most apply =>
    intro args enough modelled
    refine (h args enough fun a ha => Value.buildable_iff.mp (modelled a ha)).imp fun v => Value.buildable_iff.mpr
  | measuredField v | measuredCall v => exact fun x hx => Value.buildable_iff.mpr (h x hx)

namespace Builtin

theorem isClosed_numeric (least : Nat) (most : Option Nat) (f : List Double → Double) :
    (Behaviour.function least most (numeric f)).IsClosed := by
  intro args _ modelled
  exact (succeeds_mapM fun a ha => Value.succeeds_toNumber (modelled a ha)).ends.map fun _ _ => rfl

theorem isClosed_single {most : Option Nat} {f : Value → Outcome Value}
    (h : ∀ v : Value, v.isModelled → (f v).Ends (fun v => v.isModelled) fun f => f.isOfEvaluation) :
    (Behaviour.function 1 most (single f)).IsClosed := by
  intro args enough modelled
  cases args with
  | nil => cases enough
  | cons v rest => exact h v (modelled v (.head _))

theorem isClosed_parseInt (most : Option Nat) : (Behaviour.function 1 most parseIntCall).IsClosed := by
  have number : ∀ {v radix : Value}, v.isModelled → radix.isModelled →
      (do return .number (← parseInt v radix) : Outcome Value).Ends (fun v => v.isModelled) fun f => f.isOfEvaluation :=
    fun hv hr => (((ends_parseInt hv hr).widen fun f => Fault.isOfEvaluation_of_kelvin).map fun _ _ => rfl)
  intro args enough modelled
  match args with
  | [] => cases enough
  | [v] => exact number (modelled v (.head _)) rfl
  | v :: radix :: rest =>
    exact number (modelled v (.head _)) (modelled radix (.tail v (.head _)))

theorem isNumeric_functions : ∀ row ∈ functions, ∃ f, row.2.2.2 = numeric f := by
  have last : ∀ row ∈ ([] : List (String × Nat × Option Nat × (List Value → Outcome Value))), ∃ f, row.2.2.2 = numeric f :=
    nofun
  simp only [functions, forall_mem_cons]
  and_intros
  all_goals first | exact ⟨_, rfl⟩ | exact last

end Builtin

namespace Namespace

def IsClosed (ns : Namespace) : Prop := ∀ e ∈ ns.entries, e.behaviour.IsClosed

theorem isClosed_standard : standard.IsClosed := by
  intro e he
  simp only [standard, mem_append, mem_cons, not_mem_nil, or_false, mem_map] at he
  rcases he with ((he | ⟨row, -, rfl⟩) | ⟨row, hrow, rfl⟩) | he
  · rcases he with rfl | rfl | rfl <;> rfl
  · rfl
  · obtain ⟨f, numeric⟩ := Builtin.isNumeric_functions row hrow
    change (Behaviour.function row.2.1 row.2.2.1 row.2.2.2).IsClosed
    rw [numeric]
    exact Builtin.isClosed_numeric _ _ f
  · rcases he with rfl | rfl | rfl | rfl | rfl | rfl
    · exact Builtin.isClosed_parseInt _
    · exact Builtin.isClosed_single fun v hv => (succeeds_parseFloat hv).ends.map fun _ _ => rfl
    · exact Builtin.isClosed_single fun v hv => (Value.succeeds_toNumber hv).ends.map fun _ _ => rfl
    · exact Builtin.isClosed_single fun v hv => (Value.succeeds_toNumber hv).ends.map fun _ _ => rfl
    · nofun
    · nofun

theorem isClosed_measure {e : Entry} {v : Value} (h : e.behaviour.IsClosed) (hv : v.isModelled) :
    (e.measure v).behaviour.IsClosed := by
  obtain ⟨path, behaviour⟩ := e
  cases behaviour with
  | measuredField | measuredCall =>
    intro x hx
    cases hx
    exact hv
  | _ => exact h

theorem isClosed_measureOne {ns next : Namespace} {path : Text} {v : Value} (h : ns.IsClosed)
    (done : ns.measureOne path v = .ok next) : next.IsClosed := by
  rw [measureOne] at done
  split at done
  next => cases done
  next found _ =>
    split at done
    next => cases done
    next =>
      split at done
      next => cases done
      next modelled =>
        rw [Bool.not_eq_true', Bool.not_eq_false] at modelled
        cases done
        intro e he
        obtain ⟨old, hold, rfl⟩ := mem_map.mp he
        split
        next => exact isClosed_measure (h old hold) modelled
        next => exact h old hold

theorem measureOne_eq {ns : Namespace} {path : Text} {e : Entry} {v : Value} (found : ns.lookup? path = some e)
    (measurable : e.isMeasurable) (modelled : v.isModelled) :
    ns.measureOne path v = .ok ⟨ns.entries.map fun e => if e.path == path then e.measure v else e⟩ := by
  simp only [measureOne, found, measurable, modelled, Bool.not_true, Bool.false_eq_true, if_false]

theorem isClosed_withMeasurements {ns next : Namespace} {values : List (Text × Value)} (h : ns.IsClosed)
    (done : ns.withMeasurements values = .ok next) : next.IsClosed :=
  foldlM_keeps done IsClosed h fun _ _ _ _ => isClosed_measureOne

end Namespace

namespace Environment

theorem isModelled_marker {d : Datum} {e : Environment} (h : ofDatum d = .ok e) : e.marker.isModelled := by
  have marker : ∀ m, (readMarker m).Gives fun v => v.isModelled := by
    intro m v read
    rw [readMarker.eq_def] at read
    split at read
    case h_6 =>
      obtain ⟨x, -, read⟩ := bind_eq_ok.mp read
      cases read
      rfl
    all_goals
      cases read
      try rfl
  rw [ofDatum.eq_def] at h
  split at h
  next entries =>
    dsimp only at h
    split at h
    next => cases h
    next =>
      obtain ⟨keys, -, h⟩ := bind_eq_ok.mp h
      obtain ⟨v, read, h⟩ := bind_eq_ok.mp h
      cases h
      exact marker _ v read
  next =>
    cases h
    rfl

theorem succeeds_withMeasurements {e : Environment} (h : e.marker.isModelled) :
    (Namespace.standard.withMeasurements e.measurements).Succeeds := by
  have keys : (Value.array (e.processKeys.map .string)).isModelled := by
    refine Value.areModelled_iff.mpr fun v hv => ?_
    obtain ⟨t, -, rfl⟩ := mem_map.mp hv
    rfl
  obtain ⟨measured, first, found⟩ : ∃ ns : Namespace, Namespace.standard.measureOne processKeysPath _ = .ok ns ∧
      ns.lookup? markerPath = some ⟨markerPath, .measuredField none⟩ :=
    ⟨_, Namespace.measureOne_eq (e := ⟨processKeysPath, .measuredCall none⟩) rfl rfl keys, rfl⟩
  have second := Namespace.measureOne_eq found rfl h
  have both : Namespace.standard.withMeasurements e.measurements = .ok _ :=
    bind_eq_ok.mpr ⟨_, first, bind_eq_ok.mpr ⟨_, second, rfl⟩⟩
  rw [both]
  trivial

end Environment

namespace Folder

/-- A folder goes wrong only where evaluation does, if all that it knows belongs to the algebra. -/
theorem tame_of_closed {F : Folder} (ns : F.ns.IsClosed) (values : ∀ e ∈ F.values, e.2.isModelled)
    (resolvers : ∀ e ∈ F.resolvers, ∀ args : List Value, (∀ a ∈ args, a.isModelled) →
      (e.2 args).Ends (fun v => v.isModelled) fun f => isCallFailure f ∨ f.isOfEvaluation) :
    F.Tame fun f => f.isOfEvaluation where
  own _ := Fault.isOfEvaluation_of_category
  unary op v hv := (Value.ends_unary op (Value.buildable_iff.mp hv)).mono (fun _ => Value.buildable_iff.mpr)
    fun _ => Fault.isOfEvaluation_of_category
  binary op l r hl hr :=
    (Value.ends_binary op (Value.buildable_iff.mp hl) (Value.buildable_iff.mp hr)).mono (fun _ => Value.buildable_iff.mpr)
      fun _ => Fault.isOfEvaluation_of_category
  entry e he := (ns e he).tame
  value b v known := by
    obtain ⟨e, found, rfl⟩ := Option.map_eq_some_iff.mp known
    exact Value.buildable_iff.mpr (values e (mem_of_find?_eq_some found))
  resolver b resolve known args modelled := by
    obtain ⟨e, found, rfl⟩ := Option.map_eq_some_iff.mp known
    refine (resolvers e (mem_of_find?_eq_some found) args fun a ha => Value.buildable_iff.mp (modelled a ha)).imp ?_
    exact fun v => Value.buildable_iff.mpr

variable {ns : Namespace} (closed : ns.IsClosed)

include closed

theorem tame_static : ({ ns := ns } : Folder).Tame fun f => f.isOfEvaluation := tame_of_closed closed nofun nofun

theorem tame_symbolic (function : Node) : (symbolic ns function).Tame fun f => f.isOfEvaluation :=
  tame_of_closed closed nofun nofun

theorem tame_seeded (function : Node) (seed : Double) :
    (seeded ns function (.number seed)).Tame fun f => f.isOfEvaluation := by
  refine tame_of_closed closed (fun e he => ?_) nofun
  obtain ⟨b, -, rfl⟩ := mem_map.mp he
  rfl

end Folder

end Unravel
