import Unravel.Namespace
import Unravel.Proofs.Double.Rounding
import Unravel.Proofs.Value.Conversion

/-! Operations on 32-bit words. What they give is told by the bits of the integer parts of their operands, in two's complement. -/
namespace Unravel

namespace Double

/-- The integer part of a number; zero for NaN and the infinities. -/
def integerPart (x : Double) : Int := if x.isFinite then x.truncate else 0

/-- The number is an integer, and not the negative zero. -/
structure IsExactly (x : Double) (k : Int) : Prop where
  finite : x.isFinite
  units : x.units = k * 2 ^ 1074
  sign : x.isNegative = decide (k < 0)

/-- Integers of up to 53 bits have a rank of their own, in whatever units they are counted. -/
theorem rankUnits_nearestRank {n e : Nat} (small : n < 2 ^ 53) (bounded : e ≤ 2000) :
    rankUnits (nearestRank (n * 2 ^ e) 1) = n * 2 ^ e ∧ nearestRank (n * 2 ^ e) 1 < infinityRank := by
  unfold nearestRank
  dsimp only
  generalize hk : Nat.log2 (n * 2 ^ e / 1) - 52 = k
  obtain ⟨below, above⟩ := step_bounds Nat.one_pos hk
  have few : k ≤ e := by
    by_cases none : n * 2 ^ e / 1 = 0
    · rw [none] at hk
      exact hk ▸ Nat.zero_le _
    · have : Nat.log2 (n * 2 ^ e / 1) < 53 + e := by
        rw [Nat.log2_lt none, Nat.div_one, Nat.pow_add]
        exact Nat.mul_lt_mul_of_pos_right small (Nat.two_pow_pos _)
      omega
  have steps : n * 2 ^ e = n * 2 ^ (e - k) * 2 ^ k := by
    rw [Nat.mul_assoc, ← Nat.pow_add, Nat.sub_add_cancel few]
  rw [Nat.one_mul, steps] at below
  rw [Nat.mul_one, steps] at above
  rw [Nat.one_mul, steps, divRound_mul _ (Nat.two_pow_pos k)]
  have below := Nat.lt_of_mul_lt_mul_right below
  have normal := above.imp_right fun above => Nat.le_of_mul_le_mul_right above (Nat.two_pow_pos k)
  refine ⟨rankUnits_step below.le normal, ?_⟩
  rw [infinityRank]
  omega

theorem isExactly_ofInt {k : Int} (small : k.natAbs < 2 ^ 53) : (ofInt k).IsExactly k := by
  obtain ⟨units, finite⟩ := rankUnits_nearestRank small (by decide : 1074 ≤ 2000)
  rw [ofInt, ofRatio, ofUnits, ofRank]
  generalize nearestRank (k.natAbs * 2 ^ 1074) 1 = rank at units finite ⊢
  have same : min rank 0x7ff0000000000000 = rank := Nat.min_eq_left finite.le
  refine ⟨?_, ?_, rfl⟩
  · rw [isFinite]
    dsimp only
    rw [same]
    exact bne_iff_ne.mpr finite.ne
  · rw [Double.units]
    dsimp only
    rw [same, units, Nat.cast_mul, Nat.cast_pow, Nat.cast_ofNat]
    by_cases negative : k < 0
    · rw [if_pos (decide_eq_true negative), Int.ofNat_natAbs_of_nonpos negative.le, neg_mul, neg_neg]
    · rw [if_neg (by simpa using negative), Int.natAbs_of_nonneg (not_lt.mp negative)]

theorem IsExactly.integerPart {x : Double} {k : Int} (h : x.IsExactly k) : x.integerPart = k := by
  rw [Double.integerPart, if_pos h.finite, truncate, h.units]
  exact Int.mul_tdiv_cancel _ (pow_ne_zero _ two_ne_zero)

end Double

/-- A bit of an integer in two's complement. -/
def bitOf (m : Int) (i : Nat) : Bool := m / 2 ^ i % 2 == 1

/-- The word with these bits, read with a sign. -/
def IsSigned (b : Nat → Bool) (k : Int) : Prop := -2 ^ 31 ≤ k ∧ k < 2 ^ 31 ∧ ∀ i < 32, bitOf k i = b i

/-- The word with these bits, read without a sign. -/
def IsUnsigned (b : Nat → Bool) (k : Int) : Prop := 0 ≤ k ∧ k < 2 ^ 32 ∧ ∀ i < 32, bitOf k i = b i

section Words

variable {w : BitVec 32} {b : Nat → Bool} {i : Nat}

theorem getLsbD_ofInt (m : Int) (inside : i < 32) : (BitVec.ofInt 32 m).getLsbD i = bitOf m i := by
  have nonneg : 0 ≤ m % 2 ^ 32 := Int.emod_nonneg _ (by decide)
  have split : m / 2 ^ i = m % 2 ^ 32 / 2 ^ i + 2 * (2 ^ (31 - i) * (m / 2 ^ 32)) := by
    have scale : (2 : Int) ^ 32 = 2 ^ i * (2 * 2 ^ (31 - i)) := by
      rw [← pow_succ', ← pow_add]
      congr 1
      omega
    conv_lhs => rw [← Int.emod_add_mul_ediv m (2 ^ 32), scale, mul_assoc, Int.add_mul_ediv_left _ _ (by positivity), ← scale, mul_assoc]
  rw [BitVec.getLsbD, BitVec.toNat_ofInt, Nat.testBit_eq_decide_div_mod_eq, bitOf, split, Int.add_mul_emod_self_left]
  obtain ⟨n, same⟩ := Int.eq_ofNat_of_zero_le nonneg
  rw [Nat.cast_pow, Nat.cast_ofNat, same, Int.toNat_natCast, Bool.eq_iff_iff, decide_eq_true_iff, beq_iff_eq]
  norm_cast

theorem bitOf_toInt (inside : i < 32) : bitOf w.toInt i = w.getLsbD i := by
  rw [← getLsbD_ofInt _ inside, BitVec.ofInt_toInt]

theorem isSigned_toInt (bits : ∀ i < 32, w.getLsbD i = b i) : IsSigned b w.toInt :=
  ⟨w.le_toInt, w.toInt_lt, fun i inside => (bitOf_toInt inside).trans (bits i inside)⟩

theorem isUnsigned_toNat (bits : ∀ i < 32, w.getLsbD i = b i) : IsUnsigned b w.toNat := by
  refine ⟨Int.natCast_nonneg _, by have := w.isLt; omega, fun i inside => ?_⟩
  rw [← getLsbD_ofInt _ inside, BitVec.ofInt_natCast, BitVec.ofNat_toNat, BitVec.setWidth_eq]
  exact bits i inside

/-- The leading zeros of a word end at its highest bit. -/
theorem exists_leadingZeros (w : BitVec 32) : ∃ j ≤ 32, (if w.toNat = 0 then 32 else 31 - Nat.log2 w.toNat) = j ∧
    (∀ i < 32, 32 - j ≤ i → w.getLsbD i = false) ∧ (j < 32 → w.getLsbD (31 - j) = true) := by
  by_cases zero : w.toNat = 0
  · refine ⟨32, le_rfl, if_pos zero, fun i _ _ => ?_, fun less => absurd less (lt_irrefl _)⟩
    rw [BitVec.getLsbD, zero, Nat.zero_testBit]
  · have bounded : Nat.log2 w.toNat < 32 := (Nat.log2_lt zero).mpr w.isLt
    refine ⟨31 - Nat.log2 w.toNat, by omega, if_neg zero, fun i _ above => ?_, fun _ => ?_⟩
    · exact Nat.testBit_lt_two_pow ((Nat.log2_lt zero).mp (by omega))
    · rw [BitVec.getLsbD, show 31 - (31 - Nat.log2 w.toNat) = Nat.log2 w.toNat by omega]
      exact Nat.testBit_log2 zero

end Words

namespace Value

/-- An operation gives an integer with some property, as a number that is exactly that integer. -/
def GivesInteger (x : Outcome Value) (P : Int → Prop) : Prop := ∃ d k, x = .ok (.number d) ∧ d.IsExactly k ∧ P k

/-- What the operations on words make of two values, given the integer parts of their numbers. -/
structure OnWords (l r : Value) (m n : Int) : Prop where
  int32 : ∃ k, l.toInt32 = .ok k ∧ IsSigned (bitOf m) k ∧ k % 2 ^ 32 = m % 2 ^ 32
  uint32 : ∃ k : Nat, l.toUint32 = .ok k ∧ IsUnsigned (bitOf m) k ∧ (k : Int) = m % 2 ^ 32
  bitAnd : GivesInteger (binary .bitAnd l r) (IsSigned fun i => bitOf m i && bitOf n i)
  bitOr : GivesInteger (binary .bitOr l r) (IsSigned fun i => bitOf m i || bitOf n i)
  bitXor : GivesInteger (binary .bitXor l r) (IsSigned fun i => bitOf m i ^^ bitOf n i)
  bitNot : GivesInteger (unary .bitNot l) (IsSigned fun i => !bitOf m i)
  shiftLeft : GivesInteger (binary .shiftLeft l r) (IsSigned (bitOf (m * 2 ^ (n % 32).toNat)))
  shiftRight : GivesInteger (binary .shiftRight l r) (IsSigned fun i => bitOf m (min (i + (n % 32).toNat) 31))
  shiftRightZero : GivesInteger (binary .shiftRightZero l r)
    (IsUnsigned fun i => decide (i + (n % 32).toNat < 32) && bitOf m (i + (n % 32).toNat))
  multiply : ∃ e, Namespace.standard.lookup "Math.imul" = .ok e ∧ GivesInteger (e.call [l, r]) (IsSigned (bitOf (m * n)))
  leadingZeros : ∃ e, Namespace.standard.lookup "Math.clz32" = .ok e ∧ GivesInteger (e.call [l]) fun k => ∃ j ≤ 32, k = (j : Nat) ∧
    (∀ i < 32, 32 - j ≤ i → bitOf m i = false) ∧ (j < 32 → bitOf m (31 - j) = true)

variable {l r : Value} {x y : Double} {b : Nat → Bool}

theorem ofInt_two_pow (s : Nat) : BitVec.ofInt 32 (2 ^ s) = BitVec.twoPow 32 s := by
  rw [← BitVec.toNat_inj, BitVec.toNat_twoPow]
  norm_cast

theorem toWord_eq (x : Double) : x.toWord = BitVec.ofInt 32 x.integerPart := by
  unfold Double.toWord Double.integerPart
  split <;> rfl

theorem givesInteger_ofWord {w : BitVec 32} (bits : ∀ i < 32, w.getLsbD i = b i) : GivesInteger (.ok (ofWord w)) (IsSigned b) := by
  refine ⟨_, w.toInt, rfl, Double.isExactly_ofInt ?_, isSigned_toInt bits⟩
  have := w.le_toInt
  have := w.toInt_lt
  omega

theorem givesInteger_ofNat {n : Nat} {P : Int → Prop} (small : n < 2 ^ 53) (h : P n) : GivesInteger (.ok (.number (.ofNat n))) P := by
  refine ⟨_, n, rfl, ?_, h⟩
  have same : Double.ofInt n = .ofNat n := by
    rw [Double.ofInt, decide_eq_false (by omega)]
    rfl
  exact same ▸ Double.isExactly_ofInt small

theorem givesInteger_bitwise {f : BitVec 32 → BitVec 32 → BitVec 32} (hx : l.toNumber = .ok x) (hy : r.toNumber = .ok y)
    (bits : ∀ i < 32, (f (.ofInt 32 x.integerPart) (.ofInt 32 y.integerPart)).getLsbD i = b i) :
    GivesInteger (bitwise f l r) (IsSigned b) := by
  have given : bitwise f l r = .ok (ofWord (f x.toWord y.toWord)) := by
    rw [bitwise, toWord, toWord, hx, hy]
    rfl
  rw [given, toWord_eq, toWord_eq]
  exact givesInteger_ofWord bits

end Value

end Unravel
