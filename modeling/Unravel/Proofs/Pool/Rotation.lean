import Mathlib.Data.List.Rotate
import Mathlib.Data.Nat.Find
import Unravel.Grammar.Parse
import Unravel.Proofs.Pool.Faults

/-! The search for the rotation of a pool: the states of the pool are tried one after the other, each once, and the first one is
   taken in which the check comes out at the target. -/
namespace Unravel

open Outcome List

namespace Pool

/-- The pool after some rotations. -/
def turned (pool : Pool) (k : Nat) : Pool := { pool with rotation := k % pool.length }

variable {pool : Pool}

theorem rotate_turned (filled : pool.strings ≠ []) (k : Nat) : (pool.turned k).rotate = .ok (pool.turned (k + 1)) := by
  have some_left : (pool.turned k).length ≠ 0 := fun none_left => filled (eq_nil_of_length_eq_zero none_left)
  rw [rotate, if_neg some_left]
  have same : (k % pool.length + 1) % pool.length = (k + 1) % pool.length := Nat.mod_add_mod k pool.length 1
  exact congrArg (fun r => Except.ok { pool with rotation := r }) same

theorem current_turned (filled : pool.strings ≠ []) (k : Nat) : (pool.turned k).current = pool.strings.rotate k := by
  have inside : k % pool.strings.length ≤ pool.strings.length := (Nat.mod_lt k (length_pos_iff.mpr filled)).le
  rw [← rotate_mod, rotate_eq_drop_append_take inside]
  rfl

theorem gives_indexOf (pool : Pool) (index : Value) : (pool.indexOf index).Gives (· < pool.length) := by
  refine gives_after fun x => gives_after fun v => gives_after fun raw => ?_
  refine gives_ite (fun _ => gives_throw _) fun _ => gives_ite (fun _ => gives_throw _) fun some_left => gives_pure ?_
  have positive : (0 : Int) < pool.length := by omega
  have below := Int.emod_lt_of_pos raw.truncate positive
  have least := Int.emod_nonneg raw.truncate (show (pool.length : Int) ≠ 0 by omega)
  omega

theorem resolve_turned (k : Nat) (index : Value) :
    (pool.turned k).resolve index = do return ((pool.strings.rotate k)[← pool.indexOf index]?).getD [] := by
  change (do
    let i ← pool.indexOf index
    return (pool.strings[(k % pool.length + i) % pool.length]?).getD [] : Outcome Text) = _
  cases found : pool.indexOf index with
  | error f => rfl
  | ok i =>
    have same : (k % pool.length + i) % pool.length = (i + k) % pool.strings.length := by
      rw [Nat.mod_add_mod, Nat.add_comm]
      rfl
    change Except.ok ((pool.strings[(k % pool.length + i) % pool.length]?).getD []) = Except.ok (((pool.strings.rotate k)[i]?).getD [])
    rw [same, getElem?_rotate (gives_indexOf pool index i found)]

end Pool

namespace Pattern

/-- Calls of the accessor answered from strings that stand in a row. -/
def answerFrom (pool : Pool) (strings : List Text) : Resolver
  | [] => .error .missingArgument
  | index :: _ => do return .string ((strings[← pool.indexOf index]?).getD [])

/-- The folder that evaluates the check while the strings of the pool stand in that row. -/
def observer (p : Pattern) (ns : Namespace) (pool : Pool) (strings : List Text) : Folder :=
  { Folder.of ns p.names with resolvers := [(p.accessorBinding, answerFrom pool strings)] }

/-- The check comes out at the target with the strings rotated some times. -/
def Hits (p : Pattern) (ns : Namespace) (pool : Pool) (k : Nat) : Prop :=
  ∃ v, (p.observer ns pool (pool.strings.rotate k)).evaluate p.check = .ok v ∧ v.strictEquals p.target = .ok true

/-- The search together with the states of the pool in which the check was tried. -/
def search (p : Pattern) (ns : Namespace) : Nat → Nat → Pool → List Pool × Pool × Outcome Nat
  | 0, done, pool => ([], p.rotateUntil ns 0 done pool)
  | left + 1, done, pool =>
    match p.isMatch ns pool with
    | .error f => ([pool], pool, .error f)
    | .ok true => ([pool], pool, .ok done)
    | .ok false =>
      match pool.rotate with
      | .ok next => (pool :: (search p ns left (done + 1) next).1, (search p ns left (done + 1) next).2)
      | .error f => ([pool], pool, .error f)

theorem search_snd (p : Pattern) (ns : Namespace) (left done : Nat) (pool : Pool) :
    (p.search ns left done pool).2 = p.rotateUntil ns left done pool := by
  induction left generalizing done pool with
  | zero => rfl
  | succ left ih =>
    rw [search, rotateUntil]
    cases p.isMatch ns pool with
    | error f => rfl
    | ok hit =>
      cases hit with
      | true => rfl
      | false =>
        cases pool.rotate with
        | error f => rfl
        | ok next => exact ih (done + 1) next

theorem access_turned (pool : Pool) (k : Nat) : access (pool.turned k) = answerFrom pool (pool.strings.rotate k) := by
  funext args
  cases args with
  | nil => rfl
  | cons index rest =>
    rw [access, answerFrom, Pool.resolve_turned]
    cases pool.indexOf index <;> rfl

section Located

variable {ns ns₀ : Namespace} {root : Node} {p : Pattern}

theorem isModelled_of_evaluate {F : Folder} {t : Node} {v : Value} (h : F.evaluate t = .ok v) : v.isModelled := by
  obtain ⟨s, -, literal, value⟩ := (F.evaluate_eq_ok).mp h
  obtain ⟨w, same, built⟩ := Folder.exists_literalValue literal
  cases value.symm.trans same
  by_contra unmodelled
  rw [Value.toShape_unmodelled v (Bool.eq_false_iff.mpr unmodelled)] at built
  cases built

theorem isModelled_target (located : find ns₀ root = .ok (some p)) : p.target.isModelled := by
  obtain ⟨-, -, -, rotation⟩ := find_eq_some_iff.mp located
  obtain ⟨-, function, pool, goal, rest, -, -, static, -⟩ := findRotation_eq_some rotation
  rw [static?] at static
  split at static
  next v value =>
    cases static
    exact isModelled_of_evaluate value
  next => split at static <;> cases static

theorem check_of_find (grammatical : root.Grammatical) (located : find ns₀ root = .ok (some p)) :
    p.check.Grammatical ∧ p.check.form.isExpression := by
  obtain ⟨-, -, -, rotation⟩ := find_eq_some_iff.mp located
  obtain ⟨inside, function, pool, goal, rest, invokes, -, -, check⟩ := findRotation_eq_some rotation
  obtain ⟨m, c, same⟩ := invocation?_eq_some invokes
  rw [same] at inside
  have call : (.node c (.call function (pool :: goal :: rest)) : Node) ∈ root.walk :=
    walk_trans inside (child_mem_walk (mem_singleton_self _))
  have called := grammatical.operand call (p := ⟨.expression, true, false, function⟩) (by simp [Form.places, Place.fixed]) rfl
  exact checkOf?_eq_some called.1 check

theorem isMatch_of_ok {pool : Pool} {hit : Bool} (h : (do (← Folder.evaluate { Folder.of ns p.names with
      resolvers := [(p.accessorBinding, access pool)] } p.check).strictEquals p.target) = Except.ok hit) :
    p.isMatch ns pool = .ok hit := by
  rw [isMatch]
  dsimp only
  rw [h]

theorem isMatch_of_error {pool : Pool} {f : Fault} (h : (do (← Folder.evaluate { Folder.of ns p.names with
      resolvers := [(p.accessorBinding, access pool)] } p.check).strictEquals p.target) = Except.error f)
    (raises : f.category = .evaluation) : p.isMatch ns pool = .ok false := by
  rw [isMatch]
  dsimp only
  rw [h]
  exact if_pos raises

theorem isMatch_turned (located : find ns₀ root = .ok (some p)) {pool : Pool} {k : Nat}
    (raises : ∀ f, (p.observer ns pool (pool.strings.rotate k)).evaluate p.check = .error f → f.category = .evaluation) :
    ∃ hit, p.isMatch ns (pool.turned k) = .ok hit ∧ (hit = true ↔ p.Hits ns pool k) := by
  have observes : { Folder.of ns p.names with resolvers := [(p.accessorBinding, access (pool.turned k))] } =
      p.observer ns pool (pool.strings.rotate k) := by
    rw [access_turned]
    rfl
  cases value : (p.observer ns pool (pool.strings.rotate k)).evaluate p.check with
  | error f =>
    refine ⟨false, isMatch_of_error (by rw [observes, value]; rfl) (raises f value), by rintro ⟨⟩, ?_⟩
    rintro ⟨v, same, -⟩
    cases value.symm.trans same
  | ok v =>
    have hits : p.Hits ns pool k ↔ v.strictEquals p.target = .ok true := by
      refine ⟨?_, fun equal => ⟨v, value, equal⟩⟩
      rintro ⟨w, same, equal⟩
      cases value.symm.trans same
      exact equal
    rw [hits]
    cases equal : v.strictEquals p.target with
    | error f =>
      have evaluation := (Value.ends_strictEquals (isModelled_of_evaluate value) (isModelled_target located)).of_error equal
      exact ⟨false, isMatch_of_error (by rw [observes, value]; exact equal) evaluation, by rintro ⟨⟩, by rintro ⟨⟩⟩
    | ok hit =>
      refine ⟨hit, isMatch_of_ok (by rw [observes, value]; exact equal), fun same => congrArg _ same, fun same => Except.ok.inj same⟩

end Located

section Run

variable {p : Pattern} {ns : Namespace} {pool : Pool} {j k left : Nat}

theorem search_hit (match_ : p.isMatch ns (pool.turned j) = .ok true) :
    p.search ns (left + 1) j (pool.turned j) = ([pool.turned j], pool.turned j, .ok j) := by
  rw [search, match_]

theorem search_miss (filled : pool.strings ≠ []) (match_ : p.isMatch ns (pool.turned j) = .ok false) :
    p.search ns (left + 1) j (pool.turned j) = (pool.turned j :: (p.search ns left (j + 1) (pool.turned (j + 1))).1,
      (p.search ns left (j + 1) (pool.turned (j + 1))).2) := by
  rw [search, match_]
  dsimp only
  rw [Pool.rotate_turned filled]

/-- The first state that matches ends the search. -/
theorem search_found (filled : pool.strings ≠ []) (miss : ∀ i, j ≤ i → i < k → p.isMatch ns (pool.turned i) = .ok false)
    (hit : p.isMatch ns (pool.turned k) = .ok true) (least : j ≤ k) (room : k < j + left) :
    p.search ns left j (pool.turned j) = ((List.range' j (k + 1 - j)).map pool.turned, pool.turned k, .ok k) := by
  induction left generalizing j with
  | zero => omega
  | succ left ih =>
    rcases Nat.eq_or_lt_of_le least with rfl | later
    · rw [search_hit hit, Nat.add_sub_cancel_left]
      rfl
    · rw [search_miss filled (miss j le_rfl later), ih (fun i hi => miss i (Nat.le_of_succ_le hi)) later (by omega)]
      rw [show k + 1 - j = (k + 1 - (j + 1)) + 1 by omega, range'_succ]
      rfl

/-- Without a match every state is tried, and the pool ends where the last rotation brings it. -/
theorem search_exhausted (filled : pool.strings ≠ []) (miss : ∀ i, j ≤ i → i < j + left → p.isMatch ns (pool.turned i) = .ok false)
    {text : Text} (shown : p.check.renderExpression = .ok text) :
    p.search ns left j (pool.turned j) =
      ((List.range' j left).map pool.turned, pool.turned (j + left), .error (.notConverging pool.length text p.target)) := by
  induction left generalizing j with
  | zero =>
    rw [search, rotateUntil, shown]
    rfl
  | succ left ih =>
    rw [search_miss filled (miss j le_rfl (by omega)), ih fun i hi hle => miss i (by omega) (by omega)]
    rw [range'_succ, Nat.add_right_comm]
    rfl

end Run

section Exact

variable {ns₀ ns : Namespace} {root : Node} {p : Pattern} {pool : Pool}

/-- Evaluation of the check goes wrong in no other way than by its own kind of fault, whatever the state of the pool. -/
def IsCareful (p : Pattern) (ns : Namespace) (pool : Pool) : Prop :=
  ∀ k < pool.length, ∀ f, (p.observer ns pool (pool.strings.rotate k)).evaluate p.check = .error f → f.category = .evaluation

theorem turned_zero (unturned : pool.rotation = 0) : pool.turned 0 = pool := by
  rw [Pool.turned, Nat.zero_mod, ← unturned]

theorem isMatch_of_not_hits (located : find ns₀ root = .ok (some p)) (careful : p.IsCareful ns pool) {k : Nat} (inside : k < pool.length)
    (fails : ¬p.Hits ns pool k) : p.isMatch ns (pool.turned k) = .ok false := by
  obtain ⟨hit, result, hits⟩ := isMatch_turned located (careful k inside)
  rwa [Bool.eq_false_iff.mpr fun holds => fails (hits.mp holds)] at result

variable (located : find ns₀ root = .ok (some p)) (filled : pool.strings ≠ []) (unturned : pool.rotation = 0)
  (careful : p.IsCareful ns pool)

include located filled unturned careful

theorem search_first {k : Nat} (inside : k < pool.length) (holds : p.Hits ns pool k) (first : ∀ j < k, ¬p.Hits ns pool j) :
    p.search ns pool.length 0 pool = ((List.range (k + 1)).map pool.turned, pool.turned k, .ok k) := by
  obtain ⟨hit, result, hits⟩ := isMatch_turned located (careful k inside)
  rw [hits.mpr holds] at result
  have miss : ∀ i, 0 ≤ i → i < k → p.isMatch ns (pool.turned i) = .ok false := fun i _ before =>
    isMatch_of_not_hits located careful (before.trans inside) (first i before)
  have room : k < 0 + pool.length := by omega
  have run := search_found filled miss result (Nat.zero_le k) room
  rwa [turned_zero unturned, ← range_eq_range'] at run

theorem search_none (grammatical : root.Grammatical) (none_hits : ∀ k < pool.length, ¬p.Hits ns pool k) :
    ∃ text, p.search ns pool.length 0 pool =
      ((List.range pool.length).map pool.turned, pool.turned pool.length, .error (.notConverging pool.length text p.target)) := by
  obtain ⟨check, expression⟩ := check_of_find grammatical located
  obtain ⟨text, shown⟩ := (check.renders expression).exists_ok
  have miss : ∀ i, 0 ≤ i → i < 0 + pool.length → p.isMatch ns (pool.turned i) = .ok false := fun i _ inside =>
    isMatch_of_not_hits located careful (by omega) (none_hits i (by omega))
  have run := search_exhausted filled miss shown
  rw [turned_zero unturned, ← range_eq_range', Nat.zero_add] at run
  exact ⟨text, run⟩

end Exact

/-- The search gives a number of rotations just if it is the first one after which the check comes out at the target; the pool then
stands rotated so often, and that state and those before it were tried. If there is no such number, every state was tried once and
the pool is reported as unresolved. -/
theorem rotation_search_is_exact {ns₀ : Namespace} {root : Node} (grammatical : root.Grammatical) {p : Pattern}
    (located : find ns₀ root = .ok (some p)) (ns : Namespace) (pool : Pool) (filled : pool.strings ≠ []) (unturned : pool.rotation = 0)
    (careful : p.IsCareful ns pool) :
    (p.search ns pool.length 0 pool).2 = p.simulate ns pool ∧
    (∀ k, (p.simulate ns pool).2 = .ok k ↔ k < pool.length ∧ p.Hits ns pool k ∧ ∀ j < k, ¬p.Hits ns pool j) ∧
    (∀ k, (p.simulate ns pool).2 = .ok k → (p.simulate ns pool).1 = { pool with rotation := k } ∧
      (p.simulate ns pool).1.current = pool.strings.rotate k ∧
      (p.search ns pool.length 0 pool).1.map Pool.current = (List.range (k + 1)).map pool.strings.rotate) ∧
    ((∃ f, (p.simulate ns pool).2 = .error f ∧ f.category = .pool) ↔ ∀ k < pool.length, ¬p.Hits ns pool k) ∧
    (∀ f, (p.simulate ns pool).2 = .error f → f.category = .pool ∧
      (p.search ns pool.length 0 pool).1.map Pool.current = (List.range pool.length).map pool.strings.rotate) := by
  have same : (p.search ns pool.length 0 pool).2 = p.simulate ns pool := p.search_snd ns pool.length 0 pool
  have rows (l : List Nat) : (l.map pool.turned).map Pool.current = l.map pool.strings.rotate := by
    rw [List.map_map]
    exact List.map_congr_left fun k _ => Pool.current_turned filled k
  rw [← same]
  refine ⟨rfl, ?_⟩
  by_cases any : ∃ k, k < pool.length ∧ p.Hits ns pool k
  · classical
    obtain ⟨inside, holds⟩ := Nat.find_spec any
    have first : ∀ j < Nat.find any, ¬p.Hits ns pool j := fun j before hits => Nat.find_min any before ⟨before.trans inside, hits⟩
    rw [search_first located filled unturned careful inside holds first]
    generalize Nat.find any = k at *
    refine ⟨fun i => ⟨?_, ?_⟩, ?_, ⟨nofun, fun none_hits => absurd holds (none_hits k inside)⟩, nofun⟩
    · rintro ⟨⟩
      exact ⟨inside, holds, first⟩
    · rintro ⟨-, hits, before⟩
      rcases Nat.lt_trichotomy i k with earlier | rfl | later
      · exact absurd hits (first i earlier)
      · rfl
      · exact absurd holds (before k later)
    · rintro i ⟨⟩
      refine ⟨?_, Pool.current_turned filled k, rows _⟩
      rw [Pool.turned, Nat.mod_eq_of_lt inside]
  · have none_hits : ∀ k < pool.length, ¬p.Hits ns pool k := fun k inside hits => any ⟨k, inside, hits⟩
    obtain ⟨text, run⟩ := search_none located filled unturned careful grammatical none_hits
    rw [run]
    refine ⟨fun i => ⟨nofun, fun hit => absurd hit.2.1 (none_hits i hit.1)⟩, nofun, ⟨fun _ => none_hits, fun _ => ⟨_, rfl, rfl⟩⟩, ?_⟩
    rintro f ⟨⟩
    exact ⟨rfl, rows _⟩

/-- A pool that has to be rotated once. -/
def turnedOnce : Text :=
  "function(x) \x7b function P() \x7b var s = ['b', 'a']; return s; \x7d function A(n) \x7b n = n - 0; return P()[n]; \x7d " ++
    "(function(f, t) \x7b var c = A(0) + ''; \x7d)(P, 'a'); return [A(x), 0, 0]; \x7d"

theorem turnedOnce_search : ∃ shape p, parseFunction turnedOnce = .ok shape ∧ (shape.numberFrom 0).Grammatical ∧
    find .standard (shape.numberFrom 0) = .ok (some p) ∧ p.pool.strings ≠ [] ∧ p.pool.rotation = 0 ∧ p.IsCareful .standard p.pool ∧
    p.Hits .standard p.pool 1 ∧ ¬p.Hits .standard p.pool 0 ∧ (p.simulate .standard p.pool).1.current = ["a", "b"] := by
  have evaluated : (parseFunction turnedOnce).toOption.any fun shape => decide (shape.numberFrom 0).Grammatical &&
      (find .standard (shape.numberFrom 0)).toOption.any fun found => found.any fun p =>
        decide (p.strings = [Text.ofString "b", Text.ofString "a"] ∧ (p.simulate .standard p.pool).2.toOption.any (· == 1) ∧
          ∀ k < p.pool.length, ((p.observer .standard p.pool (p.pool.strings.rotate k)).evaluate p.check).toOption.isSome) := by
    decide +kernel
  obtain ⟨shape, parsed, evaluated⟩ := exists_ok_of_any evaluated
  obtain ⟨grammatical, evaluated⟩ := Bool.and_eq_true_iff.mp evaluated
  obtain ⟨found, located, evaluated⟩ := exists_ok_of_any evaluated
  cases found with
  | none => cases evaluated
  | some p =>
    obtain ⟨strings, rotations, values⟩ := of_decide_eq_true evaluated
    obtain ⟨k, rotated, once⟩ := exists_ok_of_any rotations
    cases eq_of_beq once
    have filled : p.pool.strings ≠ [] := fun empty => List.cons_ne_nil _ _ (strings.symm.trans empty)
    have careful : p.IsCareful .standard p.pool := by
      intro k inside f failed
      have value := values k inside
      rw [failed] at value
      cases value
    obtain ⟨-, exact_, turned, -⟩ :=
      rotation_search_is_exact (of_decide_eq_true grammatical) located .standard p.pool filled rfl careful
    obtain ⟨-, hits, first⟩ := (exact_ 1).mp rotated
    refine ⟨shape, p, parsed, of_decide_eq_true grammatical, located, filled, rfl, careful, hits, first 0 Nat.one_pos, ?_⟩
    rw [(turned 1 rotated).2.1, show p.pool.strings = _ from strings]
    rfl

end Pattern

end Unravel
