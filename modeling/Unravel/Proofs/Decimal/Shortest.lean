import Mathlib.Tactic.FieldSimp
import Mathlib.Tactic.NormNum
import Unravel.Decimal.Shortest
import Unravel.Proofs.Double.Rounding

/-! The shortest decimal of a rank rounds to that rank: the search always ends on a grid of at most seventeen
   digits. A whole number below ten to the seventeenth is found on the grid of whole numbers at the latest. -/
namespace Unravel.Decimal

open Double (rankUnits Near Binade divRound)

variable {den n num rank : Nat} {e : Int}

/-- The number that a decimal denotes. -/
def value (d : Decimal) : ℚ := d.coefficient * 10 ^ d.exponent

/-- The decimal is nearer to this rank than to any other. -/
def RoundsTo (d : Decimal) (rank : Nat) : Prop := Near (d.value * 2 ^ 1074) rank

theorem pow_toNat_div (e : Int) : (10 ^ e.toNat / 10 ^ (-e).toNat : ℚ) = 10 ^ e := by
  rcases Int.le_total 0 e with nonneg | nonpos
  · obtain ⟨n, rfl⟩ := Int.eq_ofNat_of_zero_le nonneg
    simp
  · obtain ⟨n, hn⟩ := Int.eq_ofNat_of_zero_le (Int.neg_nonneg_of_nonpos nonpos)
    obtain rfl : e = -(n : Int) := by omega
    simp

namespace Basin

theorem holds_iff {up down c : Nat} (positive : 0 < down) :
    (ofRank rank).holds up down c = true ↔ Near (c * (up / down) * 2 ^ 1074) rank := by
  have downQ : (0 : ℚ) < down := by exact_mod_cast positive
  have scaled : 2 * ((c : ℚ) * (up / down) * 2 ^ 1074) * down = ((c * up * 2 ^ 1075 : Nat) : ℚ) := by
    rw [Nat.cast_mul, Nat.cast_mul, Nat.cast_pow, Nat.cast_ofNat, pow_succ]
    field_simp
  simp only [holds, ofRank, Bool.or_eq_true, Bool.and_eq_true, beq_iff_eq]
  generalize (c : ℚ) * (up / down) * 2 ^ 1074 = v at *
  generalize c * up * 2 ^ 1075 = x at *
  -- The integer comparisons are those of the rational point with the two ends.
  have above : ∀ n : Nat, n * down < x ↔ (n : ℚ) < 2 * v := fun n => by
    rw [← mul_lt_mul_iff_of_pos_right downQ, scaled]
    exact_mod_cast Iff.rfl
  have below : ∀ n : Nat, x < n * down ↔ 2 * v < (n : ℚ) := fun n => by
    rw [← mul_lt_mul_iff_of_pos_right downQ, scaled]
    exact_mod_cast Iff.rfl
  have level : ∀ n : Nat, x = n * down ↔ 2 * v = (n : ℚ) := fun n => by
    rw [← mul_left_inj' (ne_of_gt downQ), scaled]
    exact_mod_cast Iff.rfl
  have ends : (rankUnits (rank - 1) : ℚ) ≤ rankUnits rank ∧ (rankUnits rank : ℚ) < rankUnits (rank + 1) := by
    constructor
    · exact_mod_cast Double.rankUnits_strictMono.monotone (Nat.sub_le rank 1)
    · exact_mod_cast Double.rankUnits_strictMono (Nat.lt_succ_self rank)
  simp only [decide_eq_true_eq, above, below, level, Nat.cast_add]
  constructor
  · rintro (⟨low, high⟩ | ⟨even, low | high⟩)
    · exact ⟨le_of_lt low, le_of_lt high, fun _ => ⟨low, high⟩⟩
    · exact ⟨by linarith, by linarith, by omega⟩
    · exact ⟨by linarith, by linarith, by omega⟩
  · rintro ⟨low, high, inner⟩
    rcases Nat.mod_two_eq_zero_or_one rank with even | odd
    · rcases lt_or_eq_of_le low with low | low
      · rcases lt_or_eq_of_le high with high | high
        · exact .inl ⟨low, high⟩
        · exact .inr ⟨even, .inr high⟩
      · exact .inr ⟨even, .inl low.symm⟩
    · exact .inl (inner odd)

/-- The neighbour of the rank on the grid of an exponent that is tried first. -/
def nearest (rank : Nat) (exponent : Int) : Nat :=
  divRound (2 * rankUnits rank * 10 ^ (-exponent).toNat) (10 ^ exponent.toNat * 2 ^ 1075)

theorem holds_iff_roundsTo {c : Nat} :
    (ofRank rank).holds (10 ^ e.toNat) (10 ^ (-e).toNat) c = true ↔ RoundsTo ⟨c, e⟩ rank := by
  rw [holds_iff (Nat.pow_pos (by decide))]
  push_cast
  rw [pow_toNat_div]
  rfl

theorem onGrid?_eq_some {d : Decimal} (h : (ofRank rank).onGrid? e = some d) :
    d.exponent = e ∧ d.RoundsTo rank := by
  unfold onGrid? at h
  extract_lets up down scaled step floor rest nearer other at h
  by_cases first : (ofRank rank).holds up down nearer = true
  · rw [if_pos first] at h
    obtain rfl := Option.some.inj h
    exact ⟨rfl, holds_iff_roundsTo.1 first⟩
  · rw [if_neg first] at h
    by_cases second : (ofRank rank).holds up down other = true
    · rw [if_pos second] at h
      obtain rfl := Option.some.inj h
      exact ⟨rfl, holds_iff_roundsTo.1 second⟩
    · rw [if_neg second] at h
      exact nomatch h

theorem onGrid?_nearest (h : RoundsTo ⟨nearest rank e, e⟩ rank) :
    (ofRank rank).onGrid? e = some ⟨nearest rank e, e⟩ := by
  have rounding : ∀ n d : Nat, (if d < 2 * (n % d) ∨ (d = 2 * (n % d) ∧ n / d % 2 = 1) then n / d + 1 else n / d)
      = divRound n d := fun n d => by simp only [divRound, eq_comm]
  unfold onGrid?
  extract_lets up down scaled step floor rest nearer other
  have same : nearer = nearest rank e := rounding scaled step
  rw [same]
  exact if_pos (holds_iff_roundsTo.2 h)

theorem nearest_bounds (rank : Nat) (e : Int) :
    2 * nearest rank e * ((10 : ℚ) ^ e * 2 ^ 1074) ≤ 2 * rankUnits rank + 10 ^ e * 2 ^ 1074
      ∧ (2 * rankUnits rank : ℚ) ≤ (2 * nearest rank e + 1) * (10 ^ e * 2 ^ 1074) := by
  have downQ : (0 : ℚ) < 2 * 10 ^ (-e).toNat := by positivity
  have spacing : (10 : ℚ) ^ e * 2 ^ 1074 * (2 * 10 ^ (-e).toNat) = 10 ^ e.toNat * 2 ^ 1075 := by
    rw [← pow_toNat_div, pow_succ]
    field_simp
  obtain ⟨high, low, -⟩ := Double.divRound_bounds (2 * rankUnits rank * 10 ^ (-e).toNat)
    (show 0 < 10 ^ e.toNat * 2 ^ 1075 from Nat.mul_pos (Nat.pow_pos (by decide)) (Nat.two_pow_pos 1075))
  have highQ : (2 * (2 * rankUnits rank * 10 ^ (-e).toNat) : ℚ)
      ≤ (2 * nearest rank e + 1) * (10 ^ e.toNat * 2 ^ 1075) := by exact_mod_cast high
  have lowQ : 2 * nearest rank e * ((10 : ℚ) ^ e.toNat * 2 ^ 1075)
      ≤ 2 * (2 * rankUnits rank * 10 ^ (-e).toNat) + 10 ^ e.toNat * 2 ^ 1075 := by exact_mod_cast low
  rw [← spacing] at highQ lowQ
  generalize (10 : ℚ) ^ e * 2 ^ 1074 = g at *
  constructor
  · refine le_of_mul_le_mul_right ?_ downQ
    linarith
  · refine le_of_mul_le_mul_right ?_ downQ
    linarith

/-- A grid is fine enough when its spacing is below one part in ten to the sixteenth. -/
theorem roundsTo_nearest (positive : 0 < rank)
    (fine : (10 : ℚ) ^ e * 2 ^ 1074 * 10 ^ 16 ≤ rankUnits rank) : RoundsTo ⟨nearest rank e, e⟩ rank := by
  have spacing := Double.rankUnits_spacing positive
  have lower : (rankUnits rank + 2 ^ 53 * rankUnits (rank - 1) : ℚ) ≤ 2 ^ 53 * rankUnits rank := by
    exact_mod_cast spacing.1
  have upper : (rankUnits rank + 2 ^ 53 * rankUnits rank : ℚ) ≤ 2 ^ 53 * rankUnits (rank + 1) := by
    exact_mod_cast spacing.2
  have unitsQ : (0 : ℚ) < rankUnits rank := by exact_mod_cast Double.rankUnits_pos positive
  obtain ⟨low, high⟩ := nearest_bounds rank e
  have units : (⟨nearest rank e, e⟩ : Decimal).value * 2 ^ 1074 = nearest rank e * (10 ^ e * 2 ^ 1074) :=
    mul_assoc ..
  unfold RoundsTo
  rw [units]
  generalize (10 : ℚ) ^ e * 2 ^ 1074 = g at *
  have inside : (rankUnits (rank - 1) + rankUnits rank : ℚ) < 2 * (nearest rank e * g)
      ∧ 2 * (nearest rank e * g) < rankUnits rank + rankUnits (rank + 1) := by
    constructor <;> linarith
  exact ⟨le_of_lt inside.1, le_of_lt inside.2, fun _ => inside⟩

/-- The search ends on the first grid that has the rank, if one of those it tries has it. -/
theorem search_first (b : Basin) (magnitude : Int) (fuel tried : Nat) {i : Nat} (later : tried < i)
    (within : i ≤ tried + fuel) (hit : (b.onGrid? (magnitude - i)).isSome) :
    ∃ k, tried < k ∧ k ≤ i ∧ b.onGrid? (magnitude - k) = some (b.search magnitude fuel tried) := by
  induction fuel generalizing tried with
  | zero => omega
  | succ fuel ih =>
    have next : ((tried + 1 : Nat) : Int) = tried + 1 := by omega
    rw [search]
    by_cases found : (b.onGrid? (magnitude - (tried + 1))).isSome
    · obtain ⟨d, hd⟩ := Option.isSome_iff_exists.1 found
      exact ⟨tried + 1, by omega, by omega, by rw [next, hd, Option.getD_some]⟩
    · have none : b.onGrid? (magnitude - (tried + 1)) = none := Option.not_isSome_iff_eq_none.1 found
      have other : i ≠ tried + 1 := by
        rintro rfl
        rw [next] at hit
        exact found hit
      obtain ⟨k, after, before, result⟩ := @ih (tried + 1) (by omega) (by omega)
      exact ⟨k, by omega, before, by rw [none, Option.getD_none]; exact result⟩

end Basin

theorem value_strip (fuel : Nat) (d : Decimal) : (strip fuel d).value = d.value := by
  induction fuel generalizing d with
  | zero => rfl
  | succ fuel ih =>
    rw [strip]
    split
    · rename_i trailing
      have ten : ((d.coefficient / 10 : Nat) : ℚ) * 10 = d.coefficient := by
        exact_mod_cast Nat.div_mul_cancel (Nat.dvd_of_mod_eq_zero trailing.1)
      rw [ih, value, value, zpow_add₀ (by norm_num), zpow_one, ← ten]
      ring
    · rfl

theorem exponent_le_strip (fuel : Nat) (d : Decimal) : d.exponent ≤ (strip fuel d).exponent := by
  induction fuel generalizing d with
  | zero => exact Int.le_refl _
  | succ fuel ih =>
    rw [strip]
    split
    · have := ih ⟨d.coefficient / 10, d.exponent + 1⟩
      dsimp only at this
      omega
    · exact Int.le_refl _

theorem le_pow_leadingZeros {fuel : Nat} (enough : den ≤ num * 10 ^ fuel) :
    den ≤ num * 10 ^ (leadingZeros fuel num den + 1) := by
  induction fuel generalizing num with
  | zero =>
    rw [leadingZeros]
    omega
  | succ fuel ih =>
    rw [leadingZeros]
    split
    · rename_i first
      simpa using first
    · have := @ih (num * 10) (by rw [Nat.mul_assoc, ← Nat.pow_succ']; exact enough)
      rwa [Nat.mul_assoc, ← Nat.pow_succ'] at this

theorem exists_length_toDigits (positive : 0 < n) : ∃ l, (Nat.toDigits 10 n).length = l + 1 ∧ 10 ^ l ≤ n := by
  obtain ⟨l, hl⟩ := Nat.exists_eq_add_one.mpr (Nat.length_toDigits_pos (b := 10) (n := n))
  refine ⟨l, hl, ?_⟩
  by_contra small
  have zero : l ≠ 0 := by rintro rfl; omega
  have := (Nat.length_toDigits_le_iff (b := 10) (by decide) (Nat.pos_of_ne_zero zero)).2 (Nat.lt_of_not_le small)
  omega

theorem pow_magnitude_le (positive : 0 < den) (enough : den ≤ num * 10 ^ 400) :
    (10 : ℚ) ^ (magnitude num den - 1) * den ≤ num := by
  unfold magnitude
  split
  · rename_i large
    obtain ⟨l, hl, first⟩ := exists_length_toDigits (Nat.div_pos large positive)
    have : 10 ^ l * den ≤ num := (Nat.le_div_iff_mul_le positive).1 first
    rw [hl, Nat.cast_add, Nat.cast_one, add_sub_cancel_right, zpow_natCast]
    exact_mod_cast this
  · have zeros := le_pow_leadingZeros enough
    have zerosQ : (den : ℚ) ≤ num * 10 ^ (leadingZeros 400 num den + 1) := by exact_mod_cast zeros
    have ten : (0 : ℚ) < 10 ^ (leadingZeros 400 num den + 1) := by positivity
    rw [← neg_add', zpow_neg, ← Nat.cast_succ, zpow_natCast, inv_mul_le_iff₀ ten]
    linarith

theorem middle_large (positive : 0 < rank) : 2 ^ 1075 ≤ 2 * rankUnits rank * 10 ^ 400 := by
  have units := Double.rankUnits_pos positive
  have large : 2 ^ 1074 ≤ 10 ^ 400 := by decide +kernel
  calc 2 ^ 1075 = 2 * 2 ^ 1074 := Nat.pow_succ'
    _ ≤ 2 * (rankUnits rank * 10 ^ 400) := by
      apply Nat.mul_le_mul_left
      exact Nat.le_trans large (Nat.le_mul_of_pos_left _ units)
    _ = 2 * rankUnits rank * 10 ^ 400 := (Nat.mul_assoc ..).symm

theorem onGrid?_seventeen (positive : 0 < rank) :
    ((Basin.ofRank rank).onGrid? (magnitude (2 * rankUnits rank) (2 ^ 1075) - (17 : Nat))).isSome := by
  have below := pow_magnitude_le (Nat.two_pow_pos 1075) (middle_large positive)
  generalize magnitude (2 * rankUnits rank) (2 ^ 1075) = m at *
  rw [Basin.onGrid?_nearest]
  · rfl
  · apply Basin.roundsTo_nearest positive
    have shift : (10 : ℚ) ^ (m - (17 : Nat)) * 10 ^ 16 = 10 ^ (m - 1) := by
      rw [← zpow_natCast, ← zpow_add₀ (by norm_num)]
      congr 1
      omega
    have double : (10 : ℚ) ^ (m - 1) * 2 ^ 1074 * 2 ≤ 2 * rankUnits rank := by
      rw [mul_assoc, ← pow_succ]
      exact_mod_cast below
    rw [mul_right_comm, shift]
    linarith

/-- The decimal that the search finds, before its trailing zeros move into the exponent. -/
def sought (rank : Nat) : Decimal :=
  (Basin.ofRank rank).search (magnitude (2 * rankUnits rank) (2 ^ 1075)) 17 0

theorem shortest_eq (rank : Nat) : shortest rank = strip 20 (sought rank) := rfl

/-- The shortest decimal of a rank rounds to the rank. -/
theorem shortest_roundsTo (positive : 0 < rank) : (shortest rank).RoundsTo rank := by
  obtain ⟨k, -, -, found⟩ := Basin.search_first (Basin.ofRank rank) _ 17 0 (Nat.succ_pos 16) (by decide)
    (onGrid?_seventeen positive)
  unfold RoundsTo
  rw [shortest_eq, value_strip]
  exact (Basin.onGrid?_eq_some found).2

theorem nearest_whole (whole : rankUnits rank = n * 2 ^ 1074) : Basin.nearest rank 0 = n := by
  have exact : 2 * rankUnits rank * 10 ^ (-(0 : Int)).toNat = n * (10 ^ (0 : Int).toNat * 2 ^ 1075) := by
    rw [whole, Nat.pow_succ' (n := 1074)]
    simp only [Int.neg_zero, Int.toNat_zero, Nat.pow_zero]
    ring
  rw [Basin.nearest, exact]
  exact Double.divRound_mul n (Nat.mul_pos (Nat.pow_pos (by decide)) (Nat.two_pow_pos 1075))

theorem onGrid?_whole (whole : rankUnits rank = n * 2 ^ 1074) :
    (Basin.ofRank rank).onGrid? 0 = some ⟨n, 0⟩ := by
  have found := @Basin.onGrid?_nearest rank 0
  rw [nearest_whole whole] at found
  apply found
  have same : (⟨n, 0⟩ : Decimal).value * 2 ^ 1074 = rankUnits rank := by
    rw [whole, value, zpow_zero, mul_one]
    push_cast
    rfl
  unfold RoundsTo
  rw [same]
  exact Near.rankUnits_self rank

theorem magnitude_pos (large : den ≤ num) : 0 < magnitude num den := by
  unfold magnitude
  rw [if_pos large]
  exact_mod_cast Nat.length_toDigits_pos

theorem Basin.search_whole {b : Basin} {m : Int} (positive : 0 < m) (whole : b.onGrid? 0 = some ⟨n, 0⟩)
    (seventeen : (b.onGrid? (m - (17 : Nat))).isSome)
    (exponent : ∀ e d, b.onGrid? e = some d → d.exponent = e) :
    b.search m 17 0 = ⟨n, 0⟩ ∨ 0 < (b.search m 17 0).exponent := by
  by_cases small : m ≤ 17
  · obtain ⟨i, rfl⟩ := Int.eq_ofNat_of_zero_le (Int.le_of_lt positive)
    have hit : (b.onGrid? ((i : Int) - (i : Nat))).isSome := by
      rw [Int.sub_self, whole]
      rfl
    obtain ⟨k, -, within, found⟩ := b.search_first i 17 0 (by omega) (by omega) hit
    by_cases last : k = i
    · left
      rw [last, Int.sub_self, whole] at found
      exact (Option.some.inj found).symm
    · right
      rw [exponent _ _ found]
      omega
  · obtain ⟨k, -, within, found⟩ := b.search_first m 17 0 (Nat.succ_pos 16) (by decide) seventeen
    right
    rw [exponent _ _ found]
    omega

/-- The shortest decimal of a whole number is whole, and has a trailing zero if it is another number. -/
theorem shortest_whole (whole : rankUnits rank = n * 2 ^ 1074) (positive : 0 < n) :
    0 ≤ (shortest rank).exponent ∧ ((shortest rank).value = n ∨ ∃ m : Nat, (shortest rank).value = 10 * m) := by
  have rankPositive : 0 < rank := by
    rw [← Double.rankUnits_strictMono.lt_iff_lt, whole]
    exact Nat.mul_pos positive (Nat.two_pow_pos 1074)
  have large : 2 ^ 1075 ≤ 2 * rankUnits rank := by
    rw [whole, Nat.pow_succ' (n := 1074)]
    exact Nat.mul_le_mul_left 2 (Nat.le_mul_of_pos_left _ positive)
  have found : sought rank = ⟨n, 0⟩ ∨ 0 < (sought rank).exponent :=
    Basin.search_whole (magnitude_pos large) (onGrid?_whole whole) (onGrid?_seventeen rankPositive)
      fun e d h => (Basin.onGrid?_eq_some h).1
  have kept := exponent_le_strip 20 (sought rank)
  rw [shortest_eq, value_strip]
  generalize sought rank = d at *
  rcases found with rfl | above
  · refine ⟨kept, .inl ?_⟩
    rw [value, zpow_zero, mul_one]
  · refine ⟨by omega, .inr ?_⟩
    obtain ⟨e, he⟩ : ∃ e : Nat, d.exponent = e + 1 := ⟨(d.exponent - 1).toNat, by omega⟩
    refine ⟨d.coefficient * 10 ^ e, ?_⟩
    rw [value, he, zpow_add₀ (by norm_num), zpow_natCast, zpow_one]
    push_cast
    ring

end Unravel.Decimal
