import Mathlib.Algebra.Order.Ring.Abs
import Unravel.Proofs.Double.Rounding

/-! Correct rounding. A number rounds to the finite double that no other finite double is nearer to, and to the
   even one of two that are as near; from the middle between the greatest finite double and `2 ^ 1024` on it is
   infinite. The rank that `nearestRank` finds is the one of correct rounding, and there is no other. -/
namespace Unravel.Double

/-- The magnitude of a finite rank. -/
def rankValue (rank : Nat) : ℚ := rankUnits rank / 2 ^ 1074

/-- Where magnitudes begin to round to infinity. -/
def overflow : ℚ := 2 ^ 1024 - 2 ^ 970

/-- The double is a magnitude with the given sign after correct rounding. -/
inductive Rounds (negative : Bool) (q : ℚ) : Double → Prop
  | infinite (large : overflow ≤ q) : Rounds negative q (.infinity negative)
  | finite (rank : Fin (0x7ff0000000000000 + 1)) (below : rank.val < infinityRank) (small : q < overflow)
    (nearest : ∀ other < infinityRank, |q - rankValue rank.val| ≤ |q - rankValue other|)
    (even : ∀ other < infinityRank, other ≠ rank.val → |q - rankValue rank.val| = |q - rankValue other| →
      rank.val % 2 = 0) :
    Rounds negative q (.signed negative rank)

theorem rankValue_strictMono : StrictMono rankValue := by
  intro r s less
  have units : (rankUnits r : ℚ) < rankUnits s := by exact_mod_cast rankUnits_strictMono less
  exact div_lt_div_of_pos_right units (by positivity)

theorem rankValue_overflow : rankValue (infinityRank - 1) + rankValue infinityRank = 2 * overflow := by
  have greatest : rankUnits (infinityRank - 1) + 2 ^ 971 * 2 ^ 1074 = 2 ^ 1024 * 2 ^ 1074 := by decide +kernel
  have infinite : rankUnits infinityRank = 2 ^ 1024 * 2 ^ 1074 := by decide +kernel
  have greatestQ : (rankUnits (infinityRank - 1) : ℚ) + 2 ^ 971 * 2 ^ 1074 = 2 ^ 1024 * 2 ^ 1074 := by
    exact_mod_cast greatest
  have infiniteQ : (rankUnits infinityRank : ℚ) = 2 ^ 1024 * 2 ^ 1074 := by exact_mod_cast infinite
  have half : (2 : ℚ) ^ 971 = 2 * 2 ^ 970 := by rw [pow_succ']
  rw [half] at greatestQ
  rw [rankValue, rankValue, ← add_div, div_eq_iff (by positivity), infiniteQ, overflow]
  linarith

theorem near_iff {q : ℚ} {rank : Nat} : Near (q * 2 ^ 1074) rank ↔
    rankValue (rank - 1) + rankValue rank ≤ 2 * q ∧ 2 * q ≤ rankValue rank + rankValue (rank + 1)
      ∧ (rank % 2 = 1 → rankValue (rank - 1) + rankValue rank < 2 * q ∧ 2 * q < rankValue rank + rankValue (rank + 1)) := by
  have scale : (0 : ℚ) < 2 ^ 1074 := by positivity
  have below : ∀ a b : ℚ, a / 2 ^ 1074 + b / 2 ^ 1074 ≤ 2 * q ↔ a + b ≤ 2 * (q * 2 ^ 1074) := by
    intro a b
    rw [← add_div, div_le_iff₀ scale, mul_assoc]
  have above : ∀ a b : ℚ, 2 * q ≤ a / 2 ^ 1074 + b / 2 ^ 1074 ↔ 2 * (q * 2 ^ 1074) ≤ a + b := by
    intro a b
    rw [← add_div, le_div_iff₀ scale, mul_assoc]
  unfold rankValue
  rw [below, above, ← not_le, ← not_le, below, above, not_le, not_le]
  exact ⟨fun h => ⟨h.low, h.high, h.inner⟩, fun h => ⟨h.1, h.2.1, h.2.2⟩⟩

namespace Near

variable {q : ℚ} {r s : Nat}

/-- No other rank is nearer, and none is as near as an odd one. -/
theorem closer (h : Near (q * 2 ^ 1074) r) (other : s ≠ r) :
    |q - rankValue r| ≤ |q - rankValue s| ∧ (r % 2 = 1 → |q - rankValue r| < |q - rankValue s|) := by
  obtain ⟨low, high, inner⟩ := near_iff.1 h
  have monotone := rankValue_strictMono.monotone
  rcases Nat.lt_or_gt_of_ne other with less | greater
  · have next : rankValue s ≤ rankValue (r - 1) := monotone (by omega)
    have apart := rankValue_strictMono less
    have far := le_abs_self (q - rankValue s)
    refine ⟨abs_le.2 ⟨by linarith, by linarith⟩, fun odd => abs_lt.2 ?_⟩
    have := (inner odd).1
    constructor <;> linarith
  · have next : rankValue (r + 1) ≤ rankValue s := monotone (by omega)
    have apart := rankValue_strictMono greater
    have far := neg_le_abs (q - rankValue s)
    refine ⟨abs_le.2 ⟨by linarith, by linarith⟩, fun odd => abs_lt.2 ?_⟩
    have := (inner odd).2
    constructor <;> linarith

theorem infinityRank_le_iff (h : Near (q * 2 ^ 1074) r) : infinityRank ≤ r ↔ overflow ≤ q := by
  obtain ⟨low, high, inner⟩ := near_iff.1 h
  have bound := rankValue_overflow
  have monotone := rankValue_strictMono.monotone
  constructor
  · intro beyond
    have := monotone (show infinityRank - 1 ≤ r - 1 by omega)
    have := monotone beyond
    linarith
  · intro large
    by_contra finite
    have upTo : r + 1 ≤ infinityRank := by omega
    have := monotone (show r ≤ infinityRank - 1 by omega)
    have := monotone upTo
    -- the greatest finite rank is odd and does not own the bound
    rcases Nat.mod_two_eq_zero_or_one r with even | odd
    · have last : r ≠ infinityRank - 1 := by
        rintro rfl
        exact absurd even (by decide)
      have := rankValue_strictMono (show r < infinityRank - 1 by omega)
      linarith
    · have := (inner odd).2
      linarith

theorem rounds (h : Near (q * 2 ^ 1074) r) (negative : Bool) : Rounds negative q (ofRank negative r) := by
  by_cases beyond : infinityRank ≤ r
  · have top : ofRank negative r = .infinity negative := by
      have capped : min r 0x7ff0000000000000 = min infinityRank 0x7ff0000000000000 :=
        (Nat.min_eq_right beyond).trans (Nat.min_self infinityRank).symm
      rw [infinity, ofRank, ofRank]
      congr 1
      exact Fin.ext capped
    rw [top]
    exact .infinite (h.infinityRank_le_iff.1 beyond)
  · have below : r < infinityRank := Nat.lt_of_not_le beyond
    have own : ofRank negative r = .signed negative ⟨r, Nat.lt_succ_of_lt below⟩ := by
      rw [ofRank]
      congr 1
      exact Fin.ext (Nat.min_eq_left (Nat.le_of_lt below))
    rw [own]
    refine .finite _ below (lt_of_not_ge (mt h.infinityRank_le_iff.2 beyond)) (fun other _ => ?_) fun other _ differs same => ?_
    · by_cases same : other = r
      · rw [same]
      · exact (h.closer same).1
    · rcases Nat.mod_two_eq_zero_or_one r with even | odd
      · exact even
      · exact absurd same (ne_of_lt ((h.closer differs).2 odd))

end Near

namespace Rounds

variable {negative : Bool} {q : ℚ} {x y : Double}

theorem not_between {r s : Nat} (less : r < s) (finite : s < infinityRank) (even : r % 2 = 0 ∧ s % 2 = 0)
    (nearest : ∀ other < infinityRank, |q - rankValue r| ≤ |q - rankValue other|)
    (same : |q - rankValue r| = |q - rankValue s|) : False := by
  have first := rankValue_strictMono (show r < r + 1 by omega)
  have second := rankValue_strictMono (show r + 1 < s by omega)
  have between := nearest (r + 1) (by omega)
  rcases abs_eq_abs.1 same with equal | opposite
  · linarith
  · have half : |q - rankValue r| = (rankValue s - rankValue r) / 2 := by
      rw [abs_of_nonneg (by linarith)]
      linarith
    rw [half] at between
    have inside : |q - rankValue (r + 1)| < (rankValue s - rankValue r) / 2 := abs_lt.2 ⟨by linarith, by linarith⟩
    linarith

theorem unique (hx : Rounds negative q x) (hy : Rounds negative q y) : x = y := by
  cases hx with
  | infinite large =>
    cases hy with
    | infinite _ => rfl
    | finite s _ small _ _ => exact absurd large (not_le_of_gt small)
  | finite r below small nearest even =>
    cases hy with
    | infinite large => exact absurd large (not_le_of_gt small)
    | finite s below' _ nearest' even' =>
      have same := le_antisymm (nearest s.val below') (nearest' r.val below)
      by_contra differs
      have apart : s.val ≠ r.val := fun equal => differs (by rw [Fin.ext equal])
      have parity := And.intro (even s.val below' apart same) (even' r.val below apart.symm same.symm)
      rcases Nat.lt_or_gt_of_ne apart with less | less
      · exact not_between less below parity.symm nearest' same.symm
      · exact not_between less below' parity nearest same

end Rounds

theorem rounds_zero (negative : Bool) : Rounds negative 0 (zero negative) := by
  have near := Near.rankUnits_self 0
  have none : ((rankUnits 0 : Nat) : ℚ) = 0 * 2 ^ 1074 := by
    have : rankUnits 0 = 0 := by decide
    rw [this, Nat.cast_zero, zero_mul]
  rw [none] at near
  exact near.rounds negative

theorem rounds_ofRatio (negative : Bool) (num : Nat) {den : Nat} (positive : 0 < den) :
    Rounds negative (num / den : ℚ) (ofRatio negative num den) := by
  have near := near_nearestRank (num * 2 ^ 1074) positive
  have scaled : ((num * 2 ^ 1074 : Nat) / den : ℚ) = num / den * 2 ^ 1074 := by
    push_cast
    ring
  rw [scaled] at near
  exact near.rounds negative

end Unravel.Double
