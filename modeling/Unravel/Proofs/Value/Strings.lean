import Unravel.Proofs.Grammar.Quoted
import Unravel.Value.Operate

/-! Strings and their UTF-16 form. Strings are sequences of code points: they are compared by code point, and they are equal
   if their code points are. The order of code units is another one where a code point above U+FFFF meets one below, and two
   strings can have the same code units if one of them has a surrogate pair as two code points. These are the only differences. -/
namespace Unravel

open List

namespace Text

/-- The UTF-16 code units of a text. -/
def utf16 (t : Text) : List Nat := (t.flatMap units).map CodePoint.toNat

/-- The first code unit of a code point above U+FFFF. -/
def lead (c : CodePoint) : Nat := 0xd800 + (c.toNat - 0x10000) / 0x400

/-- The second code unit of a code point above U+FFFF. -/
def trail (c : CodePoint) : Nat := 0xdc00 + (c.toNat - 0x10000) % 0x400

section Units

variable {c d : CodePoint} {s t : Text}

theorem utf16_append (s t : Text) : utf16 (s ++ t) = utf16 s ++ utf16 t := by
  rw [utf16, flatMap_append, map_append]
  rfl

theorem utf16_cons_small (h : c.toNat < 0x10000) (t : Text) : utf16 (c :: t) = c.toNat :: utf16 t := by
  rw [utf16, flatMap_cons, units, dif_pos h]
  rfl

theorem utf16_cons_large (h : 0x10000 ≤ c.toNat) (t : Text) : utf16 (c :: t) = lead c :: trail c :: utf16 t := by
  rw [utf16, flatMap_cons, units, dif_neg (Nat.not_lt.2 h)]
  rfl

theorem utf16_cons_ne_nil (c : CodePoint) (t : Text) : utf16 (c :: t) ≠ [] := by
  by_cases small : c.toNat < 0x10000
  · rw [utf16_cons_small small]
    exact cons_ne_nil _ _
  · rw [utf16_cons_large (Nat.le_of_not_lt small)]
    exact cons_ne_nil _ _

theorem utf16_joinSurrogates (t : Text) : utf16 (joinSurrogates t) = utf16 t := by
  fun_induction joinSurrogates t with
  | case1 high low rest pair ih =>
    have h := isHighSurrogate_iff.1 pair.1
    have l := isLowSurrogate_iff.1 pair.2
    rw [utf16_cons_large (by dsimp only; omega), utf16_cons_small (by omega), utf16_cons_small (by omega), ih]
    have first : lead ⟨0x10000 + (high.toNat - 0xd800) * 0x400 + (low.toNat - 0xdc00), by omega⟩ = high.toNat := by
      dsimp only [lead]
      omega
    have second : trail ⟨0x10000 + (high.toNat - 0xd800) * 0x400 + (low.toNat - 0xdc00), by omega⟩ = low.toNat := by
      dsimp only [trail]
      omega
    rw [first, second]
  | case2 c d rest apart ih => exact (utf16_append [c] _).trans ((congrArg (utf16 [c] ++ ·) ih).trans (utf16_append [c] _).symm)
  | case3 t short => rfl

/-- Texts have the same code units if they are the same once their surrogate pairs are joined. -/
theorem utf16_eq_iff : utf16 s = utf16 t ↔ joinSurrogates s = joinSurrogates t := by
  constructor
  · intro same
    have injective : Function.Injective CodePoint.toNat := by
      rintro ⟨m, hm⟩ ⟨n, hn⟩ equal
      exact (CodePoint.mk.injEq _ _ _ _).mpr equal
    rw [← joinSurrogates_units s, ← joinSurrogates_units t, map_injective_iff.2 injective same]
  · intro same
    rw [← utf16_joinSurrogates s, ← utf16_joinSurrogates t, same]

end Units

/-- The texts start with code points on both sides of U+FFFF, and their code units are not in the order of these. -/
def Crossed : Text → Text → Prop
  | a :: x, b :: y =>
    a.toNat < 0x10000 ∧ 0x10000 ≤ b.toNat ∧ ¬utf16 (a :: x) < utf16 (b :: y) ∨
      b.toNat < 0x10000 ∧ 0x10000 ≤ a.toNat ∧ utf16 (a :: x) < utf16 (b :: y)
  | _, _ => False

/-- Code points and code units put the texts into different orders, which shows where the texts part. -/
def Misordered (l r : Text) : Prop := ∃ before x y, l = before ++ x ∧ r = before ++ y ∧ Crossed x y

/-- There are no surrogates. -/
def IsPlain (t : Text) : Prop := ∀ c ∈ t, ¬(0xd800 ≤ c.toNat ∧ c.toNat < 0xe000)

instance (t : Text) : Decidable t.IsPlain := inferInstanceAs (Decidable (∀ c ∈ t, _))

section Order

variable {a b c : CodePoint} {l r x y : Text}

theorem not_misordered_nil_left (r : Text) : ¬Misordered [] r := by
  rintro ⟨before, x, y, left, -, crossed⟩
  rw [(append_eq_nil_iff.1 left.symm).2] at crossed
  exact crossed

theorem not_misordered_nil_right (l : Text) : ¬Misordered l [] := by
  rintro ⟨before, x, y, -, right, crossed⟩
  rw [(append_eq_nil_iff.1 right.symm).2] at crossed
  cases x <;> exact crossed

theorem misordered_cons : Misordered (a :: x) (b :: y) ↔ Crossed (a :: x) (b :: y) ∨ a = b ∧ Misordered x y := by
  constructor
  · rintro ⟨before, s, t, left, right, crossed⟩
    cases before with
    | nil =>
      cases left
      cases right
      exact .inl crossed
    | cons d before =>
      cases left
      cases right
      exact .inr ⟨rfl, before, s, t, rfl, rfl, crossed⟩
  · rintro (crossed | ⟨rfl, before, s, t, rfl, rfl, crossed⟩)
    · exact ⟨[], _, _, rfl, rfl, crossed⟩
    · exact ⟨a :: before, s, t, rfl, rfl, crossed⟩

theorem not_crossed_self : ¬Crossed (c :: l) (c :: r) := by
  rw [Crossed]
  omega

theorem utf16_cons_lt_self : utf16 (c :: l) < utf16 (c :: r) ↔ utf16 l < utf16 r := by
  by_cases small : c.toNat < 0x10000
  · simp [utf16_cons_small small]
  · simp [utf16_cons_large (Nat.le_of_not_lt small)]

theorem utf16_cons_lt_of_same_side (differ : a.toNat ≠ b.toNat) (side : a.toNat < 0x10000 ↔ b.toNat < 0x10000) (x y : Text) :
    utf16 (a :: x) < utf16 (b :: y) ↔ a.toNat < b.toNat := by
  by_cases small : a.toNat < 0x10000
  · rw [utf16_cons_small small, utf16_cons_small (side.1 small), cons_lt_cons_iff]
    omega
  · have large : ¬b.toNat < 0x10000 := mt side.2 small
    rw [utf16_cons_large (Nat.le_of_not_lt small), utf16_cons_large (Nat.le_of_not_lt large), cons_lt_cons_iff,
      cons_lt_cons_iff, lead, lead, trail, trail]
    omega

theorem isLess_cons_self : isLess (c :: l) (c :: r) = isLess l r := by
  rw [isLess]
  simp

theorem isLess_cons_of_ne (differ : a.toNat ≠ b.toNat) (x y : Text) : isLess (a :: x) (b :: y) = decide (a.toNat < b.toNat) := by
  rw [isLess, beq_eq_false_iff_ne.2 differ, Bool.false_and, Bool.or_false]

/-- The order of code points is the order of code units except for misordered texts. -/
theorem isLess_iff_utf16 (l r : Text) : (isLess l r = true ↔ utf16 l < utf16 r) ↔ ¬Misordered l r := by
  induction l generalizing r with
  | nil =>
    refine iff_of_true ?_ (not_misordered_nil_left r)
    cases r with
    | nil => exact iff_of_false nofun (not_lt_nil _)
    | cons b y =>
      obtain ⟨u, more, first⟩ := exists_cons_of_ne_nil (utf16_cons_ne_nil b y)
      rw [first]
      exact iff_of_true rfl (nil_lt_cons _ _)
  | cons a x ih =>
    cases r with
    | nil => exact iff_of_true (iff_of_false nofun (not_lt_nil _)) (not_misordered_nil_right _)
    | cons b y =>
      by_cases same : a = b
      · subst same
        rw [isLess_cons_self, utf16_cons_lt_self, misordered_cons, or_iff_right not_crossed_self, and_iff_right rfl]
        exact ih y
      · have differ : a.toNat ≠ b.toNat := fun equal => same (by cases a; cases b; cases equal; rfl)
        rw [isLess_cons_of_ne differ, decide_eq_true_iff, misordered_cons, or_iff_left fun h => same h.1, Crossed]
        by_cases side : a.toNat < 0x10000 ↔ b.toNat < 0x10000
        · exact iff_of_true (utf16_cons_lt_of_same_side differ side x y).symm (by omega)
        · grind

theorem utf16_cons_lt_large (small : a.toNat < 0x10000) (plain : ¬(0xd800 ≤ a.toNat ∧ a.toNat < 0xe000)) (large : 0x10000 ≤ b.toNat) (x y : Text) :
    (utf16 (a :: x) < utf16 (b :: y) ↔ a.toNat < 0xd800) ∧ (utf16 (b :: y) < utf16 (a :: x) ↔ 0xe000 ≤ a.toNat) := by
  have bound := b.isLt
  rw [utf16_cons_small small, utf16_cons_large large, cons_lt_cons_iff, cons_lt_cons_iff, lead]
  omega

theorem misordered_iff_of_plain (left : l.IsPlain) (right : r.IsPlain) :
    Misordered l r ↔ ∃ before x y a b, (l = before ++ a :: x ∧ r = before ++ b :: y ∨ l = before ++ b :: y ∧ r = before ++ a :: x) ∧
      0xe000 ≤ a.toNat ∧ a.toNat < 0x10000 ∧ 0x10000 ≤ b.toNat := by
  constructor
  · rintro ⟨before, x, y, rfl, rfl, crossed⟩
    cases x with
    | nil => exact crossed.elim
    | cons a x =>
      cases y with
      | nil => exact crossed.elim
      | cons b y =>
        have plainA := left a (mem_append_right _ (.head _))
        have plainB := right b (mem_append_right _ (.head _))
        rcases crossed with ⟨small, large, units⟩ | ⟨small, large, units⟩
        · rw [(utf16_cons_lt_large small plainA large x y).1] at units
          exact ⟨before, x, y, a, b, .inl ⟨rfl, rfl⟩, by omega, small, large⟩
        · rw [(utf16_cons_lt_large small plainB large y x).2] at units
          exact ⟨before, y, x, b, a, .inr ⟨rfl, rfl⟩, units, small, large⟩
  · rintro ⟨before, x, y, a, b, ⟨rfl, rfl⟩ | ⟨rfl, rfl⟩, above, small, large⟩
    · have plain := left a (mem_append_right _ (.head _))
      have units := mt (utf16_cons_lt_large small plain large x y).1.1 (by omega)
      exact ⟨before, _, _, rfl, rfl, .inl ⟨small, large, units⟩⟩
    · have plain := right a (mem_append_right _ (.head _))
      have units := (utf16_cons_lt_large small plain large x y).2.2 above
      exact ⟨before, _, _, rfl, rfl, .inr ⟨small, large, units⟩⟩

end Order

/-- Different texts with the same code units. -/
def Misjoined (s t : Text) : Prop := s ≠ t ∧ joinSurrogates s = joinSurrogates t

section Joining

variable {l r t : Text}

theorem append_eq_iff_utf16 : (l ++ r = t ↔ utf16 l ++ utf16 r = utf16 t) ↔ ¬Misjoined (l ++ r) t := by
  have forward : l ++ r = t → utf16 l ++ utf16 r = utf16 t := by
    rintro rfl
    exact (utf16_append l r).symm
  rw [Misjoined, ← utf16_eq_iff, utf16_append]
  tauto

/-- Texts without pairs are joined wrongly where the first ends in one half of a pair and the second starts with the other. -/
theorem misjoined_iff_of_unpaired (left : l.IsUnpaired) (right : r.IsUnpaired) (whole : t.IsUnpaired) :
    Misjoined (l ++ r) t ↔ joinSurrogates (l ++ r) = t ∧
      ∃ high ∈ l.getLast?, ∃ low ∈ r.head?, high.isHighSurrogate ∧ low.isLowSurrogate := by
  have chain : (l ++ r).IsUnpaired ↔ ¬∃ high ∈ l.getLast?, ∃ low ∈ r.head?, high.isHighSurrogate ∧ low.isLowSurrogate := by
    rw [IsUnpaired, isChain_append]
    constructor
    · rintro ⟨-, -, apart⟩ ⟨high, last, low, first, pair⟩
      exact apart high last low first pair
    · intro none
      exact ⟨left, right, fun high last low first pair => none ⟨high, last, low, first, pair⟩⟩
  rw [Misjoined, (joinSurrogates_eq_self_iff t).2 whole, and_comm]
  refine and_congr_right fun joined => ?_
  rw [← not_iff_not, ← chain, ← joinSurrogates_eq_self_iff, joined, not_not]
  exact eq_comm

end Joining

end Text

namespace Value

open Text

/-- Strings are compared and joined as code points. That is how UTF-16 strings are compared unless the code points in which they
first differ lie on both sides of U+FFFF with their code units in the other order, which for texts without surrogates means that
one of them lies between U+E000 and U+FFFF. It is how they are joined and found equal unless surrogate pairs are joined in one of
them only, which for texts without such pairs means that the two halves of a pair meet. -/
theorem strings_compare_by_code_point (l r t : Text) :
    (∃ less, binary .less (.string l) (.string r) = .ok (.boolean less) ∧
      ((less = true ↔ utf16 l < utf16 r) ↔ ¬Misordered l r)) ∧
    (∃ s same, binary .add (.string l) (.string r) = .ok s ∧ binary .strictEq s (.string t) = .ok (.boolean same) ∧
      ((same = true ↔ utf16 l ++ utf16 r = utf16 t) ↔ ¬Misjoined (l ++ r) t)) ∧
    (l.IsPlain → r.IsPlain → (Misordered l r ↔
      ∃ before x y a b, (l = before ++ a :: x ∧ r = before ++ b :: y ∨ l = before ++ b :: y ∧ r = before ++ a :: x) ∧
        0xe000 ≤ a.toNat ∧ a.toNat < 0x10000 ∧ 0x10000 ≤ b.toNat)) ∧
    (l.IsUnpaired → r.IsUnpaired → t.IsUnpaired → (Misjoined (l ++ r) t ↔ joinSurrogates (l ++ r) = t ∧
      ∃ high ∈ l.getLast?, ∃ low ∈ r.head?, high.isHighSurrogate ∧ low.isLowSurrogate)) := by
  refine ⟨⟨isLess l r, ?_, isLess_iff_utf16 l r⟩, ⟨.string (l ++ r), l ++ r == t, rfl, rfl, ?_⟩, misordered_iff_of_plain,
    misjoined_iff_of_unpaired⟩
  · cases h : isLess l r <;> simp [binary, compare, lessThan, toPrimitive, bind, Except.bind, pure, Except.pure, h]
  · rw [beq_iff_eq]
    exact append_eq_iff_utf16

section Exceptions

def privateUse : CodePoint := ⟨0xe000, by decide⟩

/-- A code point above U+FFFF, whose code units are the two that follow. -/
def smiling : CodePoint := ⟨0x1f600, by decide⟩

def smilingLead : CodePoint := ⟨0xd83d, by decide⟩

def smilingTrail : CodePoint := ⟨0xde00, by decide⟩

theorem misordered_and_misjoined :
    (IsPlain [privateUse] ∧ IsPlain [smiling] ∧ Misordered [privateUse] [smiling]) ∧
    IsUnpaired [smilingLead] ∧ IsUnpaired [smilingTrail] ∧ IsUnpaired [smiling] ∧
      Misjoined ([smilingLead] ++ [smilingTrail]) [smiling] := by
  obtain ⟨-, -, ordered, -⟩ := strings_compare_by_code_point [privateUse] [smiling] []
  obtain ⟨-, -, -, joined⟩ := strings_compare_by_code_point [smilingLead] [smilingTrail] [smiling]
  refine ⟨⟨by decide, by decide, (ordered (by decide) (by decide)).2 ?_⟩, .singleton _, .singleton _, .singleton _,
    (joined (.singleton _) (.singleton _) (.singleton _)).2 ?_⟩
  · exact ⟨[], [], [], privateUse, smiling, .inl ⟨rfl, rfl⟩, by decide, by decide, by decide⟩
  · exact ⟨rfl, smilingLead, rfl, smilingTrail, rfl, rfl, rfl⟩

/-- Strings are neither ordered nor equal as their code units are. -/
theorem codeUnits_disagree :
    binary .less (.string [privateUse]) (.string [smiling]) = .ok (.boolean true) ∧ ¬utf16 [privateUse] < utf16 [smiling] ∧
    (∃ s, binary .add (.string [smilingLead]) (.string [smilingTrail]) = .ok s ∧
      binary .strictEq s (.string [smiling]) = .ok (.boolean false)) ∧
    utf16 [smilingLead] ++ utf16 [smilingTrail] = utf16 [smiling] :=
  ⟨rfl, by decide, ⟨_, rfl, rfl⟩, by decide⟩

end Exceptions

end Value

end Unravel
