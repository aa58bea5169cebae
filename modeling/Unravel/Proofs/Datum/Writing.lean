import Unravel.Datum.Write
import Unravel.Proofs.Outcome

/-! Data that was brought into a form for JSON can be written: nothing in it is undefined, and its keys can be ordered,
   since all of them are text. -/
namespace Unravel.Datum

open Outcome

mutual
/-- Whether JSON can carry a datum as it is. -/
def isPlain : Datum → Bool
  | .undefined => false
  | .list items => arePlain items
  | .mapping entries => arePlainEntries entries
  | .null | .boolean _ | .integer _ | .number _ | .text _ => true

def arePlain : List Datum → Bool
  | [] => true
  | d :: rest => isPlain d && arePlain rest

def arePlainEntries : List (Key × Datum) → Bool
  | [] => true
  | (.text _, d) :: rest => isPlain d && arePlainEntries rest
  | _ :: _ => false
end

theorem arePlainEntries_cons {k : Key} {d : Datum} {rest : List (Key × Datum)} :
    arePlainEntries ((k, d) :: rest) ↔ (∃ t, k = .text t) ∧ isPlain d ∧ arePlainEntries rest := by
  cases k <;> simp [arePlainEntries]

theorem arePlainEntries_put {t : Text} {d : Datum} (hd : d.isPlain) {entries : List (Key × Datum)}
    (h : arePlainEntries entries) : arePlainEntries (put (.text t) d entries) := by
  induction entries with
  | nil => exact arePlainEntries_cons.mpr ⟨⟨t, rfl⟩, hd, rfl⟩
  | cons e rest ih =>
    obtain ⟨k, v⟩ := e
    obtain ⟨key, hv, hrest⟩ := arePlainEntries_cons.mp h
    rw [put]
    split
    · exact arePlainEntries_cons.mpr ⟨key, hd, hrest⟩
    · exact arePlainEntries_cons.mpr ⟨key, hv, ih hrest⟩

theorem arePlainEntries_foldl {pairs entries : List (Key × Datum)} (hp : arePlainEntries pairs)
    (h : arePlainEntries entries) : arePlainEntries (pairs.foldl (fun entries pair => put pair.1 pair.2 entries) entries) := by
  induction pairs generalizing entries with
  | nil => exact h
  | cons e rest ih =>
    obtain ⟨k, v⟩ := e
    obtain ⟨⟨t, rfl⟩, hv, hrest⟩ := arePlainEntries_cons.mp hp
    exact ih hrest (arePlainEntries_put hv h)

mutual
theorem isPlain_serialise : ∀ d : Datum, d.serialise.isPlain
  | .null => rfl
  | .undefined => rfl
  | .boolean _ => rfl
  | .integer _ => rfl
  | .number x => by
    rw [serialise]
    split
    · rfl
    · rfl
  | .text _ => rfl
  | .list items => arePlain_serialiseItems items
  | .mapping entries => arePlainEntries_foldl (arePlainEntries_serialiseEntries entries) rfl

theorem arePlain_serialiseItems : ∀ items : List Datum, arePlain (serialiseItems items)
  | [] => rfl
  | d :: rest => by
    rw [serialiseItems, arePlain, isPlain_serialise d, arePlain_serialiseItems rest]
    rfl

theorem arePlainEntries_serialiseEntries : ∀ entries : List (Key × Datum), arePlainEntries (serialiseEntries entries)
  | [] => rfl
  | (_, d) :: rest => arePlainEntries_cons.mpr ⟨⟨_, rfl⟩, isPlain_serialise d, arePlainEntries_serialiseEntries rest⟩
end

/-- Entries under text keys. -/
def HaveTextKeys (entries : List (Key × Text)) : Prop := ∀ e ∈ entries, ∃ t, e.1 = .text t

variable {E : Fault → Prop}

theorem ends_insertSorted {e : Key × Text} (he : ∃ t, e.1 = .text t) {sorted : List (Key × Text)} (h : HaveTextKeys sorted) :
    (insertSorted e sorted).Ends HaveTextKeys E := by
  induction sorted with
  | nil => simpa [insertSorted, Ends, HaveTextKeys] using he
  | cons d rest ih =>
    obtain ⟨s, hs⟩ := he
    obtain ⟨t, ht⟩ := h d (.head _)
    have less : HaveTextKeys rest := fun x hx => h x (.tail d hx)
    rw [insertSorted, hs, ht]
    refine ends_ite (fun _ => ?_) fun _ => (ih less).map fun more hmore => ?_
    · intro x hx
      rcases List.mem_cons.mp hx with rfl | hx
      · exact ⟨s, hs⟩
      · exact h x hx
    · intro x hx
      rcases List.mem_cons.mp hx with rfl | hx
      · exact ⟨t, ht⟩
      · exact hmore x hx

theorem ends_sortEntries {entries : List (Key × Text)} (h : HaveTextKeys entries) :
    (sortEntries entries).Ends HaveTextKeys E :=
  ends_foldlM nofun fun e he _ sorted => ends_insertSorted (h e he) sorted

mutual
theorem succeeds_pretty (sorted : Bool) : ∀ (depth : Nat) (d : Datum), d.isPlain → (pretty sorted depth d).Succeeds
  | _, .null, _ => True.intro
  | _, .undefined, h => by cases h
  | _, .boolean _, _ => True.intro
  | _, .integer _, _ => True.intro
  | _, .number _, _ => True.intro
  | _, .text _, _ => True.intro
  | depth, .list items, h => (succeeds_prettyItems sorted (depth + 1) items h).map fun _ _ => True.intro
  | depth, .mapping entries, h => by
    refine (ends_prettyEntries sorted (depth + 1) entries h).bind fun written keys => ?_
    cases sorted with
    | true => exact (ends_sortEntries keys).bind fun _ _ => True.intro
    | false => exact True.intro

theorem succeeds_prettyItems (sorted : Bool) :
    ∀ (depth : Nat) (items : List Datum), arePlain items → (prettyItems sorted depth items).Succeeds
  | _, [], _ => True.intro
  | depth, d :: rest, h => by
    rw [arePlain, Bool.and_eq_true] at h
    refine (succeeds_pretty sorted depth d h.1).bind fun _ _ => ?_
    exact (succeeds_prettyItems sorted depth rest h.2).map fun _ _ => True.intro

theorem ends_prettyEntries (sorted : Bool) : ∀ (depth : Nat) (entries : List (Key × Datum)), arePlainEntries entries →
    (prettyEntries sorted depth entries).Ends HaveTextKeys fun _ => False
  | _, [], _ => nofun
  | depth, (k, d) :: rest, h => by
    obtain ⟨key, hd, hrest⟩ := arePlainEntries_cons.mp h
    refine (succeeds_pretty sorted depth d hd).bind fun text _ => ?_
    refine (ends_prettyEntries sorted depth rest hrest).map fun more hmore x hx => ?_
    rcases List.mem_cons.mp hx with rfl | hx
    · exact key
    · exact hmore x hx
end

theorem succeeds_fileText (sorted : Bool) (d : Datum) : (d.serialise.fileText sorted).Succeeds :=
  (succeeds_pretty sorted 0 _ (isPlain_serialise d)).map fun _ _ => True.intro

end Unravel.Datum
