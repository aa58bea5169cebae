import Unravel.Namespace

/-! The greatest and the least of some numbers. Both searches stop at a NaN. Otherwise they find the last and the first number in an
   order that places the negative zero directly below the positive one. Different numbers have different places in it, and so the
   order of the arguments does not matter. -/
namespace Unravel.Double

open List

/-- Numerically less, or the negative zero against the positive one. -/
def IsBelow (x y : Double) : Prop := x.less y ∨ x = zero true ∧ y = zero false

/-- The place of a number in this order. -/
def place : Double → Int
  | .nan => 0
  | .signed negative rank => if negative then -(rank.val : Int) - 1 else rank.val

section Places

variable {x y : Double} {s s' : Bool} {r r' : Fin (0x7ff0000000000000 + 1)} (hx : x ≠ .nan) (hy : y ≠ .nan)

theorem exists_signed : x ≠ .nan → ∃ negative rank, x = signed negative rank := by
  intro hx
  cases x with
  | nan => exact absurd rfl hx
  | signed negative rank => exact ⟨negative, rank, rfl⟩

theorem signed_eq_zero : signed s r = zero s' ↔ s = s' ∧ r.val = 0 := by
  rw [zero, ofRank, signed.injEq, Fin.ext_iff]
  simp

theorem neg_eq_nan : x.neg = .nan ↔ x = .nan := by
  cases x <;> simp [neg]

protected theorem neg_neg (x : Double) : x.neg.neg = x := by
  cases x <;> simp [neg]

theorem less_signed : less (signed s r) (signed s' r') ↔ order (signed s r) < order (signed s' r') := by
  simp only [less, isNaN, Bool.not_false, Bool.true_and, decide_eq_true_eq]

theorem exceeds_signed :
    exceeds (signed s r) (signed s' r') ↔ order (signed s' r') < order (signed s r) ∨ (r.val = 0 ∧ r'.val = 0) ∧ s' = true := by
  simp only [exceeds, isZero, isNegative, Bool.or_eq_true, Bool.and_eq_true, beq_iff_eq, less_signed]

theorem undercuts_signed :
    undercuts (signed s r) (signed s' r') ↔ order (signed s r) < order (signed s' r') ∨ (r.val = 0 ∧ r'.val = 0) ∧ s = true := by
  simp only [undercuts, isZero, isNegative, Bool.or_eq_true, Bool.and_eq_true, beq_iff_eq, less_signed]

include hx

theorem place_neg : x.neg.place = -x.place - 1 := by
  obtain ⟨negative, rank, rfl⟩ := exists_signed hx
  cases negative <;> simp only [neg, place, Bool.not_true, Bool.not_false, reduceIte, Bool.false_eq_true] <;> omega

theorem place_infinity_le : (infinity true).place ≤ x.place := by
  obtain ⟨negative, rank, rfl⟩ := exists_signed hx
  cases negative <;> simp only [infinity, ofRank, infinityRank, place, reduceIte, Bool.false_eq_true] <;> omega

include hy

theorem place_injective (same : x.place = y.place) : x = y := by
  obtain ⟨negative, rank, rfl⟩ := exists_signed hx
  obtain ⟨negative', rank', rfl⟩ := exists_signed hy
  rw [signed.injEq, Fin.ext_iff]
  cases negative <;> cases negative' <;> simp only [place, reduceIte, Bool.false_eq_true] at same <;> grind

theorem isBelow_iff : IsBelow x y ↔ x.place < y.place := by
  obtain ⟨negative, rank, rfl⟩ := exists_signed hx
  obtain ⟨negative', rank', rfl⟩ := exists_signed hy
  rw [IsBelow, signed_eq_zero, signed_eq_zero, less_signed]
  cases negative <;> cases negative' <;> simp only [order, place, reduceIte, Bool.false_eq_true] <;> grind

theorem place_exceeds : if exceeds x y then y.place ≤ x.place else x.place ≤ y.place := by
  obtain ⟨negative, rank, rfl⟩ := exists_signed hx
  obtain ⟨negative', rank', rfl⟩ := exists_signed hy
  simp only [exceeds_signed]
  cases negative <;> cases negative' <;> simp only [order, place, reduceIte, Bool.false_eq_true] <;> grind

/-- The two comparisons break a tie of zeros differently, and keep the same zero. -/
theorem undercuts_neg : (if undercuts x.neg y.neg then x.neg else y.neg) = (if exceeds x y then x else y).neg := by
  have agree : undercuts x.neg y.neg = exceeds x y ∨ x = y := by
    obtain ⟨negative, rank, rfl⟩ := exists_signed hx
    obtain ⟨negative', rank', rfl⟩ := exists_signed hy
    rw [Bool.eq_iff_iff, neg, neg, undercuts_signed, exceeds_signed, signed.injEq, Fin.ext_iff]
    cases negative <;> cases negative' <;> simp only [order, Bool.not_true, Bool.not_false, reduceIte, Bool.false_eq_true] <;> grind
  rcases agree with same | rfl
  · rw [same, apply_ite neg]
  · rw [ite_self, ite_self]

end Places

/-- A member of a list whose place no member passes. -/
structure Tops (xs : List Double) (m : Double) : Prop where
  member : m ∈ xs
  most : ∀ x ∈ xs, x.place ≤ m.place

section Search

variable {wins : Double → Double → Bool} {x best m n : Double} {xs ys : List Double}

theorem winner_cons (hx : x ≠ .nan) : winner wins best (x :: xs) = winner wins (if wins x best then x else best) xs := by
  obtain ⟨negative, rank, rfl⟩ := exists_signed hx
  rfl

theorem kept_ne_nan (hx : x ≠ .nan) (hb : best ≠ .nan) : (if wins x best then x else best) ≠ .nan := by
  split
  · exact hx
  · exact hb

theorem winner_eq_nan (hb : best ≠ .nan) : winner wins best xs = .nan ↔ .nan ∈ xs := by
  induction xs generalizing best with
  | nil => simpa [winner] using hb
  | cons x rest ih =>
    by_cases hx : x = .nan
    · rw [hx]
      exact ⟨fun _ => .head _, fun _ => rfl⟩
    · rw [winner_cons hx, ih (kept_ne_nan hx hb), mem_cons, or_iff_right (Ne.symm hx)]

theorem winner_neg (hb : best ≠ .nan) : winner undercuts best.neg (xs.map neg) = (winner exceeds best xs).neg := by
  induction xs generalizing best with
  | nil => rfl
  | cons x rest ih =>
    by_cases hx : x = .nan
    · rw [hx]
      rfl
    · rw [map_cons, winner_cons (mt neg_eq_nan.mp hx), winner_cons hx, undercuts_neg hx hb, ih (kept_ne_nan hx hb)]

/-- One step of the search: the number kept is one of the two, and as far on as both. -/
theorem tops_step (hx : x ≠ .nan) (hb : best ≠ .nan) : Tops [best, x] (if exceeds x best then x else best) := by
  have step := place_exceeds hx hb
  split at step
  next won => exact if_pos won ▸ ⟨by simp, by simpa using step⟩
  next lost => exact if_neg lost ▸ ⟨by simp, by simpa using step⟩

theorem Tops.trans (first : Tops ys m) (second : Tops (m :: xs) n) : Tops (ys ++ xs) n := by
  refine ⟨?_, ?_⟩
  · rcases mem_cons.mp second.member with same | later
    · exact mem_append_left _ (same ▸ first.member)
    · exact mem_append_right _ later
  · intro x hx
    rcases mem_append.mp hx with hx | hx
    · exact Int.le_trans (first.most x hx) (second.most m (.head _))
    · exact second.most x (.tail _ hx)

theorem tops_winner (hb : best ≠ .nan) (clean : .nan ∉ xs) : Tops (best :: xs) (winner exceeds best xs) := by
  induction xs generalizing best with
  | nil => exact ⟨.head _, by simp [winner]⟩
  | cons x rest ih =>
    have hx : x ≠ .nan := fun same => clean (same ▸ .head _)
    rw [winner_cons hx]
    exact (tops_step hx hb).trans (ih (kept_ne_nan hx hb) fun later => clean (.tail _ later))

theorem Tops.unique (clean : .nan ∉ xs) (hm : Tops xs m) (hn : Tops xs n) : m = n := by
  have number {x} (hx : x ∈ xs) : x ≠ .nan := fun same => clean (same ▸ hx)
  exact place_injective (number hm.member) (number hn.member) (Int.le_antisymm (hn.most m hm.member) (hm.most n hn.member))

end Search

/-- A member of a list that every other member is below. -/
def IsGreatest (xs : List Double) (m : Double) : Prop := m ∈ xs ∧ ∀ x ∈ xs, x ≠ m → IsBelow x m

/-- A member of a list that is below every other member. -/
def IsLeast (xs : List Double) (m : Double) : Prop := m ∈ xs ∧ ∀ x ∈ xs, x ≠ m → IsBelow m x

section Lists

variable {xs ys : List Double}

theorem infinity_ne_nan (sign : Bool) : infinity sign ≠ .nan := by rintro ⟨⟩

theorem minimum_neg : minimum (xs.map neg) = (maximum xs).neg := winner_neg (infinity_ne_nan true)

theorem minimum_eq : minimum xs = (maximum (xs.map neg)).neg := by
  rw [← minimum_neg, List.map_map, show neg ∘ neg = id from funext Double.neg_neg, List.map_id]

theorem maximum_perm (same : xs.Perm ys) : maximum xs = maximum ys := by
  have starts : infinity true ≠ .nan := infinity_ne_nan true
  by_cases clean : .nan ∈ xs
  · rw [maximum, maximum, (winner_eq_nan starts).mpr clean, (winner_eq_nan starts).mpr (same.subset clean)]
  · have other := tops_winner starts fun member => clean (same.symm.subset member)
    have moved : Tops (infinity true :: xs) (maximum ys) :=
      ⟨(same.symm.cons _).subset other.member, fun x hx => other.most x ((same.cons _).subset hx)⟩
    exact (tops_winner starts clean).unique (by simp [clean, starts.symm]) moved

/-- Where there is a number at all, the start is not what the search finds. -/
theorem isGreatest_maximum (clean : .nan ∉ xs) (some : xs ≠ []) : IsGreatest xs (maximum xs) := by
  have number {x} (hx : x ∈ xs) : x ≠ .nan := fun same => clean (same ▸ hx)
  have found : Tops (infinity true :: xs) (maximum xs) := tops_winner (infinity_ne_nan true) clean
  have member : maximum xs ∈ xs := by
    rcases mem_cons.mp found.member with same | member
    · obtain ⟨x, hx⟩ := exists_mem_of_ne_nil xs some
      have below := same ▸ found.most x (.tail _ hx)
      have equal := place_injective (number hx) (infinity_ne_nan true) (Int.le_antisymm below (place_infinity_le (number hx)))
      exact same ▸ equal ▸ hx
    · exact member
  refine ⟨member, fun x hx other => ?_⟩
  have apart := mt (place_injective (number hx) (number member)) other
  have most := found.most x (.tail _ hx)
  exact (isBelow_iff (number hx) (number member)).mpr (by omega)

theorem isLeast_minimum (clean : .nan ∉ xs) (some : xs ≠ []) : IsLeast xs (minimum xs) := by
  have number {x} (hx : x ∈ xs) : x ≠ .nan := fun same => clean (same ▸ hx)
  have flipped : .nan ∉ xs.map neg := by simpa [neg_eq_nan] using clean
  obtain ⟨member, below⟩ := isGreatest_maximum flipped (by simpa using some)
  obtain ⟨m, hm, same⟩ := mem_map.mp member
  rw [← same] at below
  rw [minimum_eq, ← same, Double.neg_neg]
  refine ⟨hm, fun x hx other => ?_⟩
  have lower := below x.neg (mem_map_of_mem hx) fun equal => other (by rw [← x.neg_neg, equal, Double.neg_neg])
  rw [isBelow_iff (mt neg_eq_nan.mp (number hx)) (mt neg_eq_nan.mp (number hm)), place_neg (number hx), place_neg (number hm)] at lower
  exact (isBelow_iff (number hm) (number hx)).mpr (by omega)

theorem numeric_numbers (f : List Double → Double) : Builtin.numeric f (xs.map .number) = .ok (.number (f xs)) := by
  have converted : (xs.map Value.number).mapM Value.toNumber = .ok xs := by
    induction xs with
    | nil => rfl
    | cons x rest ih =>
      rw [map_cons, mapM_cons, ih]
      rfl
  rw [Builtin.numeric, converted]
  rfl

end Lists

/-- What `greatest` and `least` are for the numbers of a list, and how they are called for. -/
structure Extremes (xs : List Double) (greatest least : Double) : Prop where
  nan : (greatest = .nan ↔ .nan ∈ xs) ∧ (least = .nan ↔ .nan ∈ xs)
  empty : xs = [] → greatest = infinity true ∧ least = infinity false
  order : .nan ∉ xs → xs ≠ [] → IsGreatest xs greatest ∧ IsLeast xs least
  perm : ∀ ys, xs.Perm ys → maximum ys = greatest ∧ minimum ys = least
  neg : minimum (xs.map neg) = greatest.neg ∧ maximum (xs.map neg) = least.neg
  calls : (∃ e, Namespace.standard.lookup "Math.max" = .ok e ∧ e.call (xs.map .number) = .ok (.number greatest)) ∧
    ∃ e, Namespace.standard.lookup "Math.min" = .ok e ∧ e.call (xs.map .number) = .ok (.number least)

/-- The greatest and the least of some numbers depend only on which numbers there are. -/
theorem extremes_of_numbers (xs : List Double) : Extremes xs (maximum xs) (minimum xs) where
  nan := ⟨winner_eq_nan (infinity_ne_nan true), winner_eq_nan (infinity_ne_nan false)⟩
  empty := by
    rintro rfl
    exact ⟨rfl, rfl⟩
  order clean some := ⟨isGreatest_maximum clean some, isLeast_minimum clean some⟩
  perm ys same := by
    rw [minimum_eq, minimum_eq, maximum_perm same, maximum_perm (same.map Double.neg)]
    exact ⟨rfl, rfl⟩
  neg := ⟨minimum_neg, by rw [minimum_eq, Double.neg_neg]⟩
  calls := ⟨⟨_, rfl, numeric_numbers maximum⟩, _, rfl, numeric_numbers minimum⟩

end Unravel.Double
