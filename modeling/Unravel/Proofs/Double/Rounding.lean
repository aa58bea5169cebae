import Mathlib.Algebra.Order.Field.Rat
import Mathlib.Tactic.Linarith
import Mathlib.Tactic.Positivity
import Mathlib.Tactic.Ring
import Mathlib.Order.Monotone.Basic
import Unravel.Double

/-! Rounding to the nearest rank. A number of units is near one rank only: it lies between the midpoints to
   the two neighbours, and a midpoint belongs to the even one. `nearestRank` finds that rank. -/
namespace Unravel.Double

variable {d den j k n rank : Nat}

/-- The rank stands `j` steps of `2 ^ k` units above zero, and so does its successor, one step further. -/
structure Binade (rank k j : Nat) : Prop where
  rank_eq : rank = k * 2 ^ 52 + j
  below : j < 2 ^ 53
  normal : k = 0 ∨ 2 ^ 52 ≤ j

theorem exists_binade (rank : Nat) : ∃ k j, Binade rank k j := by
  by_cases small : rank < 2 ^ 53
  · exact ⟨0, rank, by omega, small, .inl rfl⟩
  · refine ⟨rank / 2 ^ 52 - 1, 2 ^ 52 + rank % 2 ^ 52, ?_, ?_, .inr (by omega)⟩ <;> omega

theorem rankUnits_step (bound : j ≤ 2 ^ 53) (normal : k = 0 ∨ 2 ^ 52 ≤ j) :
    rankUnits (k * 2 ^ 52 + j) = j * 2 ^ k := by
  unfold rankUnits
  by_cases small : k * 2 ^ 52 + j < 2 ^ 52
  · have hk : k = 0 := by omega
    subst hk
    rw [if_pos small]
    omega
  · rw [if_neg small]
    by_cases top : j = 2 ^ 53
    · have quotient : (k * 2 ^ 52 + j) / 2 ^ 52 - 1 = k + 1 := by omega
      have remainder : (k * 2 ^ 52 + j) % 2 ^ 52 = 0 := by omega
      rw [quotient, remainder, top, Nat.pow_succ]
      ring
    · have quotient : (k * 2 ^ 52 + j) / 2 ^ 52 - 1 = k := by omega
      have remainder : 2 ^ 52 + (k * 2 ^ 52 + j) % 2 ^ 52 = j := by omega
      rw [quotient, remainder]

namespace Binade

variable {rank k j : Nat}

theorem units (h : Binade rank k j) : rankUnits rank = j * 2 ^ k := by
  rw [h.rank_eq, rankUnits_step (by have := h.below; omega) h.normal]

theorem units_succ (h : Binade rank k j) : rankUnits (rank + 1) = (j + 1) * 2 ^ k := by
  have below := h.below
  have normal := h.normal
  rw [h.rank_eq, Nat.add_assoc, rankUnits_step (by omega) (by omega)]

theorem units_pred (h : Binade rank k j) (positive : 0 < rank) :
    (0 < j ∧ rankUnits (rank - 1) = (j - 1) * 2 ^ k)
      ∨ (j = 2 ^ 52 ∧ 2 * rankUnits (rank - 1) = (2 * j - 1) * 2 ^ k) := by
  have below := h.below
  have normal := h.normal
  have rank_eq := h.rank_eq
  by_cases inside : k = 0 ∨ 2 ^ 52 < j
  · have hj : 0 < j := by omega
    refine .inl ⟨hj, ?_⟩
    have shifted : rank - 1 = k * 2 ^ 52 + (j - 1) := by omega
    rw [shifted, rankUnits_step (by omega) (by omega)]
  · have hj : j = 2 ^ 52 := by omega
    obtain ⟨i, rfl⟩ : ∃ i, k = i + 1 := ⟨k - 1, by omega⟩
    have shifted : rank - 1 = i * 2 ^ 52 + (2 ^ 53 - 1) := by omega
    refine .inr ⟨hj, ?_⟩
    rw [shifted, rankUnits_step (by omega) (by omega), hj, Nat.pow_succ]
    ring

end Binade

theorem rankUnits_strictMono : StrictMono rankUnits := by
  apply strictMono_nat_of_lt_succ
  intro rank
  obtain ⟨k, j, h⟩ := exists_binade rank
  rw [h.units, h.units_succ]
  exact Nat.mul_lt_mul_of_pos_right (Nat.lt_succ_self j) (Nat.two_pow_pos k)

theorem rankUnits_pos (positive : 0 < rank) : 0 < rankUnits rank :=
  Nat.lt_of_le_of_lt (Nat.zero_le _) (rankUnits_strictMono positive)

/-- Neighbouring ranks differ by at least one part in `2 ^ 53`. -/
theorem rankUnits_spacing (positive : 0 < rank) :
    rankUnits rank + 2 ^ 53 * rankUnits (rank - 1) ≤ 2 ^ 53 * rankUnits rank
      ∧ rankUnits rank + 2 ^ 53 * rankUnits rank ≤ 2 ^ 53 * rankUnits (rank + 1) := by
  obtain ⟨k, j, h⟩ := exists_binade rank
  have short : j * 2 ^ k ≤ 2 ^ 53 * 2 ^ k := Nat.mul_le_mul_right _ (Nat.le_of_lt h.below)
  constructor
  · rw [h.units]
    rcases h.units_pred positive with ⟨hj, pred⟩ | ⟨hj, pred⟩
    · obtain ⟨i, rfl⟩ : ∃ i, j = i + 1 := ⟨j - 1, by omega⟩
      rw [pred, Nat.add_sub_cancel, Nat.add_mul]
      rw [Nat.add_mul] at short
      omega
    · have half : (2 * j - 1) * 2 ^ k + 2 ^ k = 2 * (j * 2 ^ k) := by
        rw [← Nat.succ_mul, Nat.succ_eq_add_one, Nat.sub_add_cancel (by omega), Nat.mul_assoc]
      have exact : j * 2 ^ k = 2 ^ 52 * 2 ^ k := by rw [hj]
      generalize j * 2 ^ k = n at *
      generalize 2 ^ k = p at *
      omega
  · rw [h.units, h.units_succ, Nat.add_mul]
    omega

/-- A number of units between the midpoints to the two neighbours of a rank, or on one of them if the rank
is even. -/
structure Near (v : ℚ) (rank : Nat) : Prop where
  low : (rankUnits (rank - 1) + rankUnits rank : ℚ) ≤ 2 * v
  high : 2 * v ≤ rankUnits rank + rankUnits (rank + 1)
  inner : rank % 2 = 1 →
    (rankUnits (rank - 1) + rankUnits rank : ℚ) < 2 * v ∧ 2 * v < rankUnits rank + rankUnits (rank + 1)

namespace Near

variable {v : ℚ} {r s : Nat}

private theorem not_lt (hr : Near v r) (hs : Near v s) : ¬ r < s := by
  intro less
  have monotone := rankUnits_strictMono.monotone
  have first : (rankUnits r : ℚ) ≤ rankUnits (s - 1) := by exact_mod_cast monotone (by omega)
  have second : (rankUnits (r + 1) : ℚ) ≤ rankUnits s := by exact_mod_cast monotone (by omega)
  have above := hr.high
  have below := hs.low
  -- Both ranks own the point, so it is the midpoint between two neighbours, and one of those is odd.
  have met : (rankUnits (s - 1) : ℚ) = rankUnits r := by linarith
  have neighbours : s - 1 = r := rankUnits_strictMono.injective (by exact_mod_cast met)
  rcases Nat.mod_two_eq_zero_or_one r with even | odd
  · have := (hs.inner (by omega)).1
    linarith
  · have := (hr.inner odd).2
    linarith

theorem unique (hr : Near v r) (hs : Near v s) : r = s :=
  Nat.le_antisymm (Nat.le_of_not_lt (hs.not_lt hr)) (Nat.le_of_not_lt (hr.not_lt hs))

theorem rankUnits_self (rank : Nat) : Near (rankUnits rank) rank := by
  have up : (rankUnits rank : ℚ) < rankUnits (rank + 1) := by
    exact_mod_cast rankUnits_strictMono (Nat.lt_succ_self rank)
  have down : (rankUnits (rank - 1) : ℚ) ≤ rankUnits rank := by
    exact_mod_cast rankUnits_strictMono.monotone (Nat.sub_le rank 1)
  refine ⟨by linarith, by linarith, fun odd => ⟨?_, by linarith⟩⟩
  have strict : (rankUnits (rank - 1) : ℚ) < rankUnits rank := by
    exact_mod_cast rankUnits_strictMono (show rank - 1 < rank by omega)
  linarith

theorem eq_of_steps (h : Near ((n * 2 ^ k : Nat) : ℚ) r) (binade : Binade r k j) : n = j := by
  have step : (0 : ℚ) < 2 ^ k := by positivity
  have above := h.high
  have below := h.low
  rw [binade.units, binade.units_succ] at above
  rw [binade.units] at below
  push_cast at above below
  have upper : n ≤ j := by
    have scaled : (2 * n : ℚ) * 2 ^ k ≤ (2 * j + 1) * 2 ^ k := by linarith
    have bound : (2 * n : ℚ) ≤ 2 * j + 1 := le_of_mul_le_mul_right scaled step
    have : 2 * n ≤ 2 * j + 1 := by exact_mod_cast bound
    omega
  have lower : j ≤ n := by
    by_cases positive : 0 < r
    · have scaled : (2 * j - 1 : ℚ) * 2 ^ k ≤ (2 * n) * 2 ^ k := by
        rcases binade.units_pred positive with ⟨hj, pred⟩ | ⟨hj, pred⟩
        · have predQ : (rankUnits (r - 1) : ℚ) = (j - 1) * 2 ^ k := by
            rw [pred]; push_cast [Nat.cast_sub hj]; ring
          linarith
        · have predQ : (2 * rankUnits (r - 1) : ℚ) = (2 * j - 1) * 2 ^ k := by
            have : ((2 * rankUnits (r - 1) : Nat) : ℚ) = ((2 * j - 1 : Nat) * 2 ^ k : Nat) := by rw [pred]
            push_cast [Nat.cast_sub (show 1 ≤ 2 * j by omega)] at this
            exact this
          linarith
      have bound : (2 * j - 1 : ℚ) ≤ 2 * n := le_of_mul_le_mul_right scaled step
      have : (2 * j : ℚ) ≤ 2 * n + 1 := by linarith
      have : 2 * j ≤ 2 * n + 1 := by exact_mod_cast this
      omega
    · have := binade.rank_eq
      omega
  omega

theorem eq_of_dvd (h : Near (n : ℚ) r) (binade : Binade r k j) (steps : 2 ^ k ∣ n) :
    n = rankUnits r := by
  obtain ⟨m, rfl⟩ := steps
  rw [Nat.mul_comm] at h ⊢
  rw [h.eq_of_steps binade, binade.units]

end Near

/-- Twice a quotient lies within one of twice its rounded value; a half goes to the even neighbour. -/
theorem divRound_bounds (n : Nat) (positive : 0 < d) :
    2 * n ≤ (2 * divRound n d + 1) * d ∧ 2 * divRound n d * d ≤ 2 * n + d
      ∧ (divRound n d % 2 = 1 → 2 * n < (2 * divRound n d + 1) * d ∧ 2 * divRound n d * d < 2 * n + d) := by
  have parts := Nat.div_add_mod n d
  have small := Nat.mod_lt n positive
  unfold divRound
  generalize n / d = q at *
  generalize n % d = r at *
  have expand : ∀ x, (2 * x + 1) * d = 2 * (d * x) + d ∧ 2 * x * d = 2 * (d * x) := fun x => ⟨by ring, by ring⟩
  have next : d * (q + 1) = d * q + d := by ring
  simp only [expand]
  split <;> rename_i up
  · rw [next]; omega
  · omega

/-- Rounding to steps of `2 ^ k` units finds the rank, if the steps between the ranks are not shorter. -/
theorem near_of_steps {v : ℚ} (bound : j ≤ 2 ^ 53) (above : k = 0 ∨ 2 ^ 52 * 2 ^ k ≤ v)
    (nonneg : 0 ≤ v) (low : (2 * j - 1) * 2 ^ k ≤ 2 * v) (high : 2 * v ≤ (2 * j + 1) * 2 ^ k)
    (inner : j % 2 = 1 → (2 * j - 1) * 2 ^ k < 2 * v ∧ 2 * v < (2 * j + 1) * 2 ^ k) :
    Near v (k * 2 ^ 52 + j) := by
  have step : (0 : ℚ) < 2 ^ k := by positivity
  have normal : k = 0 ∨ 2 ^ 52 ≤ j := by
    refine above.imp_right fun large => ?_
    have scaled : (2 * 2 ^ 52 : ℚ) * 2 ^ k ≤ (2 * j + 1) * 2 ^ k := by linarith
    have : (2 * 2 ^ 52 : ℚ) ≤ 2 * j + 1 := le_of_mul_le_mul_right scaled step
    have : 2 * 2 ^ 52 ≤ 2 * j + 1 := by exact_mod_cast this
    omega
  have units : (rankUnits (k * 2 ^ 52 + j) : ℚ) = j * 2 ^ k := by
    exact_mod_cast rankUnits_step bound normal
  have succ : ((j + 1) * 2 ^ k : ℚ) ≤ rankUnits (k * 2 ^ 52 + j + 1) := by
    have : (j + 1) * 2 ^ k ≤ rankUnits (k * 2 ^ 52 + j + 1) := by
      by_cases top : j = 2 ^ 53
      · have shifted : k * 2 ^ 52 + j + 1 = (k + 1) * 2 ^ 52 + (2 ^ 52 + 1) := by omega
        rw [shifted, rankUnits_step (by omega) (by omega), top, Nat.pow_succ 2 k]
        have := Nat.two_pow_pos k
        omega
      · rw [Nat.add_assoc, rankUnits_step (by omega) (by omega)]
    exact_mod_cast this
  by_cases inside : k = 0 ∨ 2 ^ 52 < j
  · by_cases zero : j = 0
    · have hk : k = 0 := by omega
      subst hk zero
      refine ⟨?_, by rw [units]; linarith, by omega⟩
      simpa [rankUnits] using nonneg
    · have pred : (rankUnits (k * 2 ^ 52 + j - 1) : ℚ) = (j - 1) * 2 ^ k := by
        have shifted : k * 2 ^ 52 + j - 1 = k * 2 ^ 52 + (j - 1) := by omega
        rw [shifted, rankUnits_step (by omega) (by omega)]
        push_cast [Nat.cast_sub (show 1 ≤ j by omega)]
        ring
      refine ⟨by rw [units, pred]; linarith, by rw [units]; linarith, fun odd => ?_⟩
      have strict := inner (by omega)
      exact ⟨by rw [units, pred]; linarith, by rw [units]; linarith⟩
  · -- At a power of two the lower neighbour is closer, but the number is not below the power.
    have hj : j = 2 ^ 52 := by omega
    have hv : (2 ^ 52 * 2 ^ k : ℚ) ≤ v := above.resolve_left (by omega)
    have pred : (rankUnits (k * 2 ^ 52 + j - 1) : ℚ) ≤ j * 2 ^ k := by
      rw [← units]
      exact_mod_cast rankUnits_strictMono.monotone (Nat.sub_le _ 1)
    have hjQ : (j : ℚ) = 2 ^ 52 := by exact_mod_cast hj
    refine ⟨?_, by rw [units]; linarith, by omega⟩
    rw [units]
    rw [hjQ] at pred ⊢
    linarith

theorem divRound_mul (n : Nat) (positive : 0 < d) : divRound (n * d) d = n := by
  unfold divRound
  rw [Nat.mul_div_cancel n positive, Nat.mul_mod_left]
  exact if_neg (by omega)

theorem divRound_le {m : Nat} (positive : 0 < d) (below : n < m * d) : divRound n d ≤ m := by
  obtain ⟨-, low, -⟩ := divRound_bounds n positive
  by_contra large
  have past : (m + 1) * d ≤ divRound n d * d := Nat.mul_le_mul_right d (by omega)
  have expand : (m + 1) * d = m * d + d := by ring
  have double : 2 * divRound n d * d = 2 * (divRound n d * d) := by ring
  omega

theorem step_bounds {num : Nat} (positive : 0 < den) (hk : Nat.log2 (num / den) - 52 = k) :
    num < 2 ^ 53 * (den * 2 ^ k) ∧ (k = 0 ∨ 2 ^ 52 * 2 ^ k * den ≤ num) := by
  by_cases zero : num / den = 0
  · have small : num < den := by
      rcases Nat.div_eq_zero_iff.1 zero with none | small
      · omega
      · exact small
    have hk0 : k = 0 := by rw [← hk, zero]; decide
    subst hk0
    exact ⟨by omega, .inl rfl⟩
  · constructor
    · have below : num / den < 2 ^ (k + 53) := (Nat.log2_lt zero).1 (by omega)
      calc num < 2 ^ (k + 53) * den := (Nat.div_lt_iff_lt_mul positive).1 below
        _ = 2 ^ 53 * (den * 2 ^ k) := by rw [Nat.pow_add]; ring
    · by_cases first : k = 0
      · exact .inl first
      · right
        have exact : k + 52 = Nat.log2 (num / den) := by omega
        have above : 2 ^ (k + 52) ≤ num / den := exact ▸ Nat.log2_self_le zero
        calc 2 ^ 52 * 2 ^ k * den = 2 ^ (k + 52) * den := by rw [Nat.pow_add]; ring
          _ ≤ num := (Nat.le_div_iff_mul_le positive).1 above

/-- `nearestRank` finds the rank to which a quotient is near. -/
theorem near_nearestRank (num : Nat) (positive : 0 < den) :
    Near (num / den : ℚ) (nearestRank num den) := by
  have denQ : (0 : ℚ) < den := by exact_mod_cast positive
  unfold nearestRank
  dsimp only
  generalize hk : Nat.log2 (num / den) - 52 = k
  have scale : 0 < den * 2 ^ k := Nat.mul_pos positive (Nat.two_pow_pos k)
  obtain ⟨below, above⟩ := step_bounds positive hk
  have aboveQ : k = 0 ∨ (2 ^ 52 * 2 ^ k : ℚ) ≤ num / den := by
    refine above.imp_right fun large => ?_
    rw [le_div_iff₀ denQ]
    exact_mod_cast large
  obtain ⟨high, low, inner⟩ := divRound_bounds num scale
  refine near_of_steps (divRound_le scale below) aboveQ (by positivity) ?_ ?_ fun odd => ⟨?_, ?_⟩
  all_goals generalize divRound num (den * 2 ^ k) = j at *
  · rw [← mul_div_assoc, le_div_iff₀ denQ]
    have : (2 * j * (den * 2 ^ k) : ℚ) ≤ 2 * num + den * 2 ^ k := by exact_mod_cast low
    linarith
  · rw [← mul_div_assoc, div_le_iff₀ denQ]
    have : (2 * num : ℚ) ≤ (2 * j + 1) * (den * 2 ^ k) := by exact_mod_cast high
    linarith
  · rw [← mul_div_assoc, lt_div_iff₀ denQ]
    have : (2 * j * (den * 2 ^ k) : ℚ) < 2 * num + den * 2 ^ k := by exact_mod_cast (inner odd).2
    linarith
  · rw [← mul_div_assoc, div_lt_iff₀ denQ]
    have : (2 * num : ℚ) < (2 * j + 1) * (den * 2 ^ k) := by exact_mod_cast (inner odd).1
    linarith

theorem nearestRank_eq_iff {num : Nat} (positive : 0 < den) :
    nearestRank num den = rank ↔ Near (num / den : ℚ) rank := by
  constructor
  · rintro rfl
    exact near_nearestRank num positive
  · exact (near_nearestRank num positive).unique

end Unravel.Double
