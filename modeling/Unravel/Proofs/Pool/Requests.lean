import Unravel.Proofs.Pool.Rotation

/-! Pools under requests. The counter of a pool stands for strings that are really moved. Requests to one pool, a snapshot of another
   or not, leave the others as they are. -/
namespace Unravel.Pool

open Outcome List

/-- The first entry is moved to the end. -/
def moveFirst : List Text → List Text
  | [] => []
  | first :: rest => rest ++ [first]

/-- Objects of which one is moved where a pool is rotated, and copied where a snapshot is taken. -/
def change {α : Type} (move : α → α) (objects : List α) (request : Nat × Request) : List α :=
  match objects[request.1]?, request.2 with
  | some object, .rotate => objects.set request.1 (move object)
  | some object, .snapshot => objects ++ [object]
  | _, _ => objects

/-- One of the pools made from a pool shows its strings in that order. -/
structure Shows (pool p : Pool) (row : List Text) : Prop where
  strings : p.strings = pool.strings
  rotation : p.rotation < p.length
  current : p.current = row
  indexOf : p.indexOf = pool.indexOf
  inside : ∀ index i, p.indexOf index = .ok i → i < p.length
  whole : ∀ index x v raw, index.toNumber = .ok x → Value.binary p.op (.number x) (.number p.offset) = .ok v → v.toNumber = .ok raw →
    raw.isFinite → ∃ i, p.indexOf index = .ok i ∧ (i : Int) = raw.truncate % p.length
  found : ∀ index i, p.indexOf index = .ok i → ∃ text, row[i]? = some text ∧ p.resolve index = .ok text
  lost : ∀ index f, p.indexOf index = .error f → p.resolve index = .error f

theorem change_map {α β : Type} {f : α → α} {g : β → β} {image : α → β} (same : ∀ a, image (f a) = g (image a)) (objects : List α)
    (request : Nat × Request) : (change f objects request).map image = change g (objects.map image) request := by
  obtain ⟨k, request⟩ := request
  cases here : objects[k]? with
  | none => simp [change, here]
  | some object => cases request <;> simp [change, here, same, map_set]

theorem moveFirst_rotate (l : List Text) (t : Nat) : l.rotate (t + 1) = moveFirst (l.rotate t) := by
  rw [← rotate_rotate]
  cases l.rotate t with
  | nil => rfl
  | cons first rest => rw [rotate_cons_succ, rotate_zero, moveFirst]

section Requests

variable {pool : Pool} (filled : pool.strings ≠ [])

include filled

theorem shows_turned (t : Nat) : Shows pool (pool.turned t) (pool.strings.rotate t) where
  strings := rfl
  rotation := Nat.mod_lt t (length_pos_iff.mpr filled)
  current := current_turned filled t
  indexOf := rfl
  inside := gives_indexOf pool
  whole index x v raw number applied shifted finite := by
    have some_left : pool.length ≠ 0 := mt eq_nil_of_length_eq_zero filled
    refine ⟨(raw.truncate % pool.length).toNat, ?_, Int.toNat_of_nonneg (Int.emod_nonneg _ (Int.natCast_ne_zero.mpr some_left))⟩
    refine bind_eq_ok.mpr ⟨x, number, bind_eq_ok.mpr ⟨v, applied, bind_eq_ok.mpr ⟨raw, shifted, ?_⟩⟩⟩
    rw [finite, if_neg (by decide)]
    exact if_neg some_left
  found index i known := by
    have bound : i < (pool.strings.rotate t).length := (length_rotate ..).symm ▸ gives_indexOf pool index i known
    refine ⟨_, getElem?_eq_getElem bound, ?_⟩
    rw [resolve_turned]
    exact bind_eq_ok.mpr ⟨i, known, by rw [getElem?_eq_getElem bound]; rfl⟩
  lost index f known := by
    rw [resolve_turned, show pool.indexOf index = .error f from known]
    rfl

theorem step_turned (turns : List Nat) (request : Nat × Request) :
    step (turns.map pool.turned) request = (change (· + 1) turns request).map pool.turned := by
  obtain ⟨k, request⟩ := request
  cases here : turns[k]? with
  | none => simp [step, change, here]
  | some t =>
    cases request with
    | rotate => simp [step, change, serve, here, rotate_turned filled, map_set]
    | resolve index =>
      cases found : (pool.turned t).resolve index <;> simp [step, change, serve, here, found]
    | snapshot => simp [step, change, serve, here]

/-- Pools, and rows of strings that are really moved, go through a run with the same numbers of rotations. -/
theorem run_turned (requests : List (Nat × Request)) (turns : List Nat) :
    requests.foldl step (turns.map pool.turned) = (requests.foldl (change (· + 1)) turns).map pool.turned ∧
    requests.foldl (change moveFirst) (turns.map pool.strings.rotate) = (requests.foldl (change (· + 1)) turns).map pool.strings.rotate := by
  induction requests generalizing turns with
  | nil => exact ⟨rfl, rfl⟩
  | cons request rest ih =>
    rw [foldl_cons, foldl_cons, foldl_cons, step_turned filled, ← change_map (moveFirst_rotate pool.strings)]
    exact ih _

end Requests

/-- Only a request to rotate it changes a pool. -/
theorem step_frame {pools : List Pool} {k : Nat} {request : Nat × Request} (inside : k < pools.length) (other : request ≠ (k, .rotate)) :
    (step pools request)[k]? = pools[k]? ∧ k < (step pools request).length := by
  obtain ⟨j, request⟩ := request
  cases here : pools[j]? with
  | none => simp [step, here, inside]
  | some p =>
    cases request with
    | rotate =>
      cases found : p.rotate with
      | error f => simp [step, serve, here, found, inside]
      | ok next =>
        have apart : j ≠ k := fun same => other (by rw [same])
        simp [step, serve, here, found, inside, apart]
    | resolve index =>
      cases found : p.resolve index <;> simp [step, serve, here, found, inside]
    | snapshot =>
      simp only [step, here, serve, length_append]
      exact ⟨getElem?_append_left inside, Nat.lt_add_right _ inside⟩

theorem foldl_step_frame {pools : List Pool} {k : Nat} {requests : List (Nat × Request)} (inside : k < pools.length)
    (others : (k, .rotate) ∉ requests) : (requests.foldl step pools)[k]? = pools[k]? := by
  induction requests generalizing pools with
  | nil => rfl
  | cons request rest ih =>
    obtain ⟨same, further⟩ := step_frame inside fun same => others (same ▸ .head _)
    exact (ih further fun later => others (.tail _ later)).trans same

/-- After any requests each pool shows the strings as they are then in the row that is kept beside it, and stays as it is until it is
itself rotated. -/
theorem run_shows (pool : Pool) (filled : pool.strings ≠ []) (fresh : pool.rotation = 0) (requests : List (Nat × Request)) :
    List.Forall₂ (Shows pool) (run pool requests) (requests.foldl (change moveFirst) [pool.strings]) ∧
    ∀ k < (run pool requests).length, ∀ later, (k, .rotate) ∉ later → (run pool (requests ++ later))[k]? = (run pool requests)[k]? := by
  have unturned : pool.turned 0 = pool := by
    rw [turned, Nat.zero_mod, ← fresh]
  refine ⟨?_, ?_⟩
  · obtain ⟨pools, rows⟩ := run_turned filled requests [0]
    rw [List.map_singleton, unturned] at pools
    rw [List.map_singleton, List.rotate_zero] at rows
    rw [run, pools, rows, List.forall₂_map_left_iff, List.forall₂_map_right_iff, List.forall₂_same]
    exact fun t _ => shows_turned filled t
  · intro k inside later others
    rw [run, List.foldl_append]
    exact foldl_step_frame inside others

theorem run_shows_abc :
    List.Forall₂ (Shows { strings := ["a", "b", "c"], offset := .ofNat 10 })
      (run { strings := ["a", "b", "c"], offset := .ofNat 10 } [(0, .rotate), (0, .snapshot), (1, .rotate)])
      [["b", "c", "a"], ["c", "a", "b"]] ∧
    (run { strings := ["a", "b", "c"], offset := .ofNat 10 } ([(0, .rotate), (0, .snapshot)] ++ [(1, .rotate), (0, .resolve .null)]))[0]? =
      (run { strings := ["a", "b", "c"], offset := .ofNat 10 } [(0, .rotate), (0, .snapshot)])[0]? :=
  ⟨(run_shows { strings := ["a", "b", "c"], offset := .ofNat 10 } (by decide) rfl _).1,
    (run_shows { strings := ["a", "b", "c"], offset := .ofNat 10 } (by decide) rfl _).2 0 (by decide) _ (by simp)⟩

end Unravel.Pool
