import Mathlib.Algebra.Order.Field.Power
import Unravel.Decimal.Numeral
import Unravel.Proofs.Decimal.Shortest
import Unravel.Proofs.Double.Nearest

/-! Where the point of a decimal stands, and what follows for decimals that round to a given rank: reading
   them gives the rank back, whole numbers are told apart from fractions, and below ten to the twenty-first the
   point stands at most twenty-one places to the right. -/
namespace Unravel

variable {d : Decimal} {n rank : Nat}

theorem Double.ofRank_val (negative : Bool) (rank : Fin (0x7ff0000000000000 + 1)) :
    ofRank negative rank.val = .signed negative rank := by
  have within : min rank.val 0x7ff0000000000000 = rank.val := Nat.min_eq_left (Nat.le_of_lt_succ rank.isLt)
  rw [ofRank]
  congr 1
  exact Fin.ext within

namespace Decimal

open Double (rankUnits Near Binade nearestRank)

theorem pow_point_le (positive : 0 < d.coefficient) : (10 : ℚ) ^ (d.point - 1) ≤ d.value := by
  obtain ⟨l, hl, first⟩ := exists_length_toDigits positive
  have firstQ : (10 : ℚ) ^ l ≤ d.coefficient := by exact_mod_cast first
  have exponent : d.point - 1 = l + d.exponent := by
    unfold point digits
    omega
  rw [exponent, value, zpow_add₀ (by norm_num), zpow_natCast]
  gcongr

theorem lt_pow_point (d : Decimal) : d.value < (10 : ℚ) ^ d.point := by
  have last : d.coefficient < 10 ^ (Nat.toDigits 10 d.coefficient).length :=
    (Nat.length_toDigits_le_iff (by decide) Nat.length_toDigits_pos).1 (Nat.le_refl _)
  have lastQ : (d.coefficient : ℚ) < 10 ^ (Nat.toDigits 10 d.coefficient).length := by exact_mod_cast last
  rw [value, point, digits, zpow_add₀ (by norm_num), zpow_natCast]
  gcongr

theorem point_le_iff (positive : 0 < d.coefficient) {n : Int} :
    d.point ≤ n ↔ d.value < (10 : ℚ) ^ n := by
  constructor
  · intro within
    exact lt_of_lt_of_le (lt_pow_point d) (zpow_le_zpow_right₀ (by norm_num) within)
  · intro small
    have := lt_of_le_of_lt (pow_point_le positive) small
    have := (zpow_lt_zpow_iff_right₀ (by norm_num : (1 : ℚ) < 10)).1 this
    omega

theorem overflow_le_value (positive : 0 < d.coefficient) (far : 400 < d.point) : Double.overflow ≤ d.value := by
  have bound : (2 : ℚ) ^ 1024 ≤ 10 ^ 400 := by
    have : 2 ^ 1024 ≤ 10 ^ 400 := by decide +kernel
    exact_mod_cast this
  calc Double.overflow ≤ 2 ^ 1024 := sub_le_self _ (by positivity)
    _ ≤ (10 : ℚ) ^ (400 : Int) := by exact_mod_cast bound
    _ ≤ 10 ^ (d.point - 1) := zpow_le_zpow_right₀ (by norm_num) (by omega)
    _ ≤ d.value := pow_point_le positive

theorem near_zero (far : d.point < -400) : Near (d.value * 2 ^ 1074) 0 := by
  have bound : (2 : ℚ) ^ 1075 ≤ 10 ^ 400 := by
    have : 2 ^ 1075 ≤ 10 ^ 400 := by decide +kernel
    exact_mod_cast this
  have nonneg : 0 ≤ d.value := by
    unfold value
    positivity
  have small : d.value * 2 ^ 1075 ≤ 1 := by
    have tiny : d.value ≤ (10 : ℚ) ^ (-400 : Int) :=
      le_trans (le_of_lt (lt_pow_point d)) (zpow_le_zpow_right₀ (by norm_num) (le_of_lt far))
    calc d.value * 2 ^ 1075 ≤ (10 : ℚ) ^ (-400 : Int) * 10 ^ 400 := by gcongr
      _ = 1 := by rw [zpow_neg, zpow_ofNat, inv_mul_cancel₀ (by positivity)]
  have none : (rankUnits 0 : ℚ) = 0 := by
    have : rankUnits 0 = 0 := by decide
    exact_mod_cast this
  have one : (rankUnits (0 + 1) : ℚ) = 1 := by
    have : rankUnits (0 + 1) = 1 := by decide
    exact_mod_cast this
  have units : 0 ≤ d.value * 2 ^ 1074 := mul_nonneg nonneg (by positivity)
  rw [pow_succ, ← mul_assoc] at small
  generalize d.value * 2 ^ 1074 = v at *
  refine ⟨?_, ?_, fun odd => absurd odd (by decide)⟩
  · rw [none]
    linarith
  · rw [none, one]
    linarith

/-- Reading a decimal rounds it correctly. -/
theorem rounds (d : Decimal) (negative : Bool) :
    Double.Rounds negative d.value (.ofDecimal negative d.coefficient d.exponent) := by
  have digits : d.exponent + ((Nat.toDigits 10 d.coefficient).length : Int) = d.point := Int.add_comm ..
  unfold Double.ofDecimal
  dsimp only
  rw [digits]
  split
  · rename_i zero
    rw [value, zero, Nat.cast_zero, zero_mul]
    exact Double.rounds_zero negative
  rename_i nonzero
  split
  · exact .infinite (overflow_le_value (Nat.pos_of_ne_zero nonzero) ‹_›)
  split
  · exact (near_zero ‹_›).rounds negative
  · have same : ((d.coefficient * 10 ^ d.exponent.toNat : Nat) / (10 ^ (-d.exponent).toNat : Nat) : ℚ) = d.value := by
      rw [value, ← pow_toNat_div]
      push_cast
      ring
    rw [← same]
    exact Double.rounds_ofRatio negative _ (Nat.pow_pos (by decide))

namespace RoundsTo

variable {d : Decimal} {rank : Nat}

theorem unit_le_value (h : d.RoundsTo rank) (positive : 0 < rank) : 1 ≤ d.value * 2 ^ 1075 := by
  have low := Near.low h
  have units : (1 : ℚ) ≤ rankUnits rank := by exact_mod_cast Double.rankUnits_pos positive
  have pred : (0 : ℚ) ≤ rankUnits (rank - 1) := by positivity
  rw [pow_succ, ← mul_assoc]
  generalize d.value * 2 ^ 1074 = v at *
  linarith

theorem value_pos (h : d.RoundsTo rank) (positive : 0 < rank) : 0 < d.value := by
  have scale : (0 : ℚ) < 2 ^ 1075 := by positivity
  by_contra nonpos
  have := mul_nonpos_of_nonpos_of_nonneg (le_of_not_gt nonpos) (le_of_lt scale)
  exact absurd (h.unit_le_value positive) (not_le_of_gt (lt_of_le_of_lt this one_pos))

theorem coefficient_pos (h : d.RoundsTo rank) (positive : 0 < rank) : 0 < d.coefficient := by
  have := h.value_pos positive
  by_contra zero
  rw [value, Nat.eq_zero_of_not_pos zero, Nat.cast_zero, zero_mul] at this
  exact lt_irrefl _ this

theorem value_lt (h : d.RoundsTo rank) {limit : Nat} {n : ℚ} (exact : (rankUnits limit : ℚ) = n * 2 ^ 1074)
    (below : rank < limit) : d.value < n := by
  have high := Near.high h
  have less : (rankUnits rank : ℚ) < rankUnits limit := by exact_mod_cast Double.rankUnits_strictMono below
  have most : (rankUnits (rank + 1) : ℚ) ≤ rankUnits limit := by
    exact_mod_cast Double.rankUnits_strictMono.monotone below
  refine lt_of_mul_lt_mul_right (a := (2 : ℚ) ^ 1074) ?_ (by positivity)
  rw [← exact]
  linarith

theorem lt_value (h : d.RoundsTo rank) {limit : Nat} {n : ℚ} (exact : (rankUnits limit : ℚ) = n * 2 ^ 1074)
    (above : limit < rank) : n < d.value := by
  have low := Near.low h
  have less : (rankUnits limit : ℚ) < rankUnits rank := by exact_mod_cast Double.rankUnits_strictMono above
  have most : (rankUnits limit : ℚ) ≤ rankUnits (rank - 1) := by
    exact_mod_cast Double.rankUnits_strictMono.monotone (by omega)
  refine lt_of_mul_lt_mul_right (a := (2 : ℚ) ^ 1074) ?_ (by positivity)
  rw [← exact]
  linarith

theorem point_bounds (h : d.RoundsTo rank) (positive : 0 < rank) (finite : rank < Double.infinityRank) :
    -400 ≤ d.point ∧ d.point ≤ 400 := by
  constructor
  · by_contra far
    exact absurd (Near.unique h (near_zero (by omega))) (Nat.ne_of_gt positive)
  · by_contra far
    have large := overflow_le_value (h.coefficient_pos positive) (by omega)
    exact absurd (Near.infinityRank_le_iff h |>.2 large) (Nat.not_le_of_lt finite)

theorem ofDecimal_eq (h : d.RoundsTo rank) (negative : Bool) :
    Double.ofDecimal negative d.coefficient d.exponent = Double.ofRank negative rank :=
  (d.rounds negative).unique (Near.rounds h negative)

theorem eq_units (h : d.RoundsTo rank) (whole : d.value = n) {k j : Nat} (binade : Binade rank k j)
    (steps : 2 ^ k ∣ n * 2 ^ 1074) : n * 2 ^ 1074 = rankUnits rank := by
  refine Near.eq_of_dvd ?_ binade steps
  unfold RoundsTo at h
  rw [whole] at h
  exact_mod_cast h

theorem units_dvd_of_whole (h : d.RoundsTo rank) (whole : d.value = n) :
    2 ^ 1074 ∣ rankUnits rank := by
  obtain ⟨k, j, binade⟩ := Double.exists_binade rank
  rcases Nat.le_total k 1074 with fine | coarse
  · have steps : 2 ^ k ∣ n * 2 ^ 1074 := Nat.dvd_mul_left_of_dvd (Nat.pow_dvd_pow 2 fine) n
    exact ⟨n, by rw [← h.eq_units whole binade steps, Nat.mul_comm]⟩
  · rw [binade.units]
    exact Nat.dvd_mul_left_of_dvd (Nat.pow_dvd_pow 2 coarse) j

theorem eq_of_even {m : Nat} (h : d.RoundsTo rank) (whole : d.value = (2 * m : Nat))
    (units : rankUnits rank = n * 2 ^ 1074) (small : n < 2 ^ 54) : 2 * m = n := by
  obtain ⟨k, j, binade⟩ := Double.exists_binade rank
  have fine : k ≤ 1075 := by
    by_contra coarse
    have normal : 2 ^ 52 ≤ j := binade.normal.resolve_left (by omega)
    have : 2 ^ 54 * 2 ^ 1074 ≤ n * 2 ^ 1074 := by
      rw [← units, binade.units]
      calc 2 ^ 54 * 2 ^ 1074 = 2 ^ 52 * 2 ^ 1076 := by rw [← Nat.pow_add, ← Nat.pow_add]
        _ ≤ j * 2 ^ k := Nat.mul_le_mul normal (Nat.pow_le_pow_right (by decide) (by omega))
    exact absurd (Nat.le_of_mul_le_mul_right this (Nat.two_pow_pos 1074)) (Nat.not_le_of_lt small)
  have steps : 2 ^ k ∣ 2 * m * 2 ^ 1074 := by
    refine Nat.dvd_trans (Nat.pow_dvd_pow 2 fine) ⟨m, ?_⟩
    rw [Nat.mul_right_comm, ← Nat.pow_succ']
  have exact := h.eq_units whole binade steps
  rw [units] at exact
  exact Nat.eq_of_mul_eq_mul_right (Nat.two_pow_pos 1074) exact

end RoundsTo

/-- The number written by a decimal without fraction. -/
def wholeNumber (d : Decimal) : Nat := d.coefficient * 10 ^ d.exponent.toNat

theorem value_eq_wholeNumber (whole : 0 ≤ d.exponent) : d.value = d.wholeNumber := by
  obtain ⟨e, he⟩ := Int.eq_ofNat_of_zero_le whole
  rw [value, wholeNumber, he, zpow_natCast, Int.toNat_natCast]
  push_cast
  rfl

theorem exponent_neg_of_fraction (positive : 0 < rank) (fraction : ¬ 2 ^ 1074 ∣ rankUnits rank) :
    (shortest rank).exponent < 0 := by
  by_contra whole
  exact fraction ((shortest_roundsTo positive).units_dvd_of_whole (value_eq_wholeNumber (by omega)))

/-- Below `2 ^ 54` the shortest decimal of a whole number is the number. -/
theorem wholeNumber_shortest (units : rankUnits rank = n * 2 ^ 1074) (positive : 0 < n)
    (small : n < 2 ^ 54) : (shortest rank).wholeNumber = n := by
  have rankPositive : 0 < rank := by
    rw [← Double.rankUnits_strictMono.lt_iff_lt, units]
    exact Nat.mul_pos positive (Nat.two_pow_pos 1074)
  obtain ⟨whole, same | ⟨m, tens⟩⟩ := shortest_whole units positive
  · rw [value_eq_wholeNumber whole] at same
    exact_mod_cast same
  · have even : (shortest rank).value = (2 * (5 * m) : Nat) := by
      rw [tens]
      push_cast
      ring
    have exact := (shortest_roundsTo rankPositive).eq_of_even even units small
    rw [value_eq_wholeNumber whole, exact] at even
    exact_mod_cast even

/-- The rank of ten to the twenty-first, from which on numbers are written with an exponent. -/
def wholeLimit : Nat := nearestRank (10 ^ 21 * 2 ^ 1074) 1

theorem rankUnits_wholeLimit : rankUnits wholeLimit = 10 ^ 21 * 2 ^ 1074 := by decide +kernel

theorem shortest_wholeLimit : shortest wholeLimit = ⟨1, 21⟩ := by decide +kernel

theorem point_shortest_le_iff (positive : 0 < rank) :
    (shortest rank).point ≤ 21 ↔ rank < wholeLimit := by
  have rounds := shortest_roundsTo positive
  have limit : (rankUnits wholeLimit : ℚ) = 10 ^ (21 : Int) * 2 ^ 1074 := by
    rw [rankUnits_wholeLimit, zpow_ofNat]
    push_cast
    rfl
  rw [point_le_iff (rounds.coefficient_pos positive)]
  constructor
  · intro small
    by_contra above
    rcases Nat.lt_or_eq_of_le (Nat.le_of_not_lt above) with above | rfl
    · exact absurd (rounds.lt_value limit above) (not_lt_of_gt small)
    · rw [shortest_wholeLimit, value, Nat.cast_one, one_mul] at small
      exact lt_irrefl _ small
  · exact rounds.value_lt limit

/-- The script writes whole numbers below ten to the twenty-first without point and exponent, and no others. -/
theorem shortest_written_out_iff (positive : 0 < rank) :
    0 ≤ (shortest rank).exponent ∧ (shortest rank).point ≤ 21 ↔ ∃ n < 10 ^ 21, rankUnits rank = n * 2 ^ 1074 := by
  have below : ∀ n, rankUnits rank = n * 2 ^ 1074 → (rank < wholeLimit ↔ n < 10 ^ 21) := by
    intro n units
    rw [← Double.rankUnits_strictMono.lt_iff_lt, units, rankUnits_wholeLimit, Nat.mul_lt_mul_right (Nat.two_pow_pos 1074)]
  rw [point_shortest_le_iff positive]
  constructor
  · rintro ⟨whole, small⟩
    have divides : 2 ^ 1074 ∣ rankUnits rank := by
      by_contra fraction
      exact absurd (exponent_neg_of_fraction positive fraction) (not_lt.mpr whole)
    obtain ⟨n, units⟩ := divides
    rw [Nat.mul_comm] at units
    exact ⟨n, (below n units).mp small, units⟩
  · rintro ⟨n, small, units⟩
    have some : 0 < n := by
      rw [← Double.rankUnits_strictMono.lt_iff_lt, units] at positive
      exact Nat.pos_of_mul_pos_right positive
    exact ⟨(shortest_whole units some).1, (below n units).mpr small⟩

end Decimal

end Unravel
