import Unravel.Proofs.Value.Conversion

/-! Loose equality. Values of different types are converted one side at a time until they can be compared, which takes two
   conversions at most. Both orders of the operands go through the same conversions, so they have the same outcome. -/
namespace Unravel.Value

/-- Which of two values is converted first: booleans before arrays. Undefined is not converted and lets nothing be. -/
def precedence : Value → Nat
  | .undefined | .null => 0
  | .number _ | .string _ => 1
  | .array _ => 2
  | .boolean _ => 3

/-- What a value is converted to in a loose comparison. -/
inductive Converted : Value → Value → Prop
  | boolean (b : Bool) : Converted (.boolean b) (.number (if b then .one else .zero false))
  | array {items : List Value} {t : Text} (text : (Value.array items).toText = .ok t) : Converted (.array items) (.string t)

/-- One conversion in a loose comparison. -/
inductive Converts : Value → Value → Value → Value → Prop
  | left {l r l' : Value} (defined : 0 < r.precedence) (first : r.precedence < l.precedence) (here : Converted l l') : Converts l r l' r
  | right {l r r' : Value} (defined : 0 < l.precedence) (first : l.precedence < r.precedence) (here : Converted r r') : Converts l r l r'

/-- A comparison that converts nothing: a number and a text as numbers, all else strictly. -/
def settled : Value → Value → Outcome Bool
  | .number x, .string t => do return x.same (← stringToNumber t)
  | .string t, .number x => do return (← stringToNumber t).same x
  | l, r => strictEquals l r

/-- So many conversions lead from the first two values to the other two, which are converted no more. -/
inductive Settles : Nat → Value → Value → Value → Value → Prop
  | done {l r : Value} (final : ∀ l' r', ¬Converts l r l' r') : Settles 0 l r l r
  | step {n : Nat} {l r l' r' a b : Value} (here : Converts l r l' r') (further : Settles n l' r' a b) : Settles (n + 1) l r a b

section Steps

variable {l r l' r' a b : Value} {n : Nat}

theorem Converts.swap (h : Converts l r l' r') : Converts r l r' l' := by
  cases h with
  | left defined first here => exact .right defined first here
  | right defined first here => exact .left defined first here

theorem Settles.swap (h : Settles n l r a b) : Settles n r l b a := by
  induction h with
  | done final => exact .done fun l' r' here => final r' l' here.swap
  | step here _ ih => exact .step here.swap ih

theorem Converted.conversions (h : Converted l l') : l.conversions = 1 ∧ l'.conversions = 0 := by
  cases h <;> exact ⟨rfl, rfl⟩

theorem Converted.isModelled (h : Converted l l') : l'.isModelled := by
  cases h <;> rfl

theorem Converts.conversions_lt (h : Converts l r l' r') : l'.conversions + r'.conversions < l.conversions + r.conversions := by
  cases h with
  | left _ _ here =>
    have := here.conversions
    omega
  | right _ _ here =>
    have := here.conversions
    omega

theorem Converts.isModelled (h : Converts l r l' r') (hl : l.isModelled) (hr : r.isModelled) : l'.isModelled ∧ r'.isModelled := by
  cases h with
  | left _ _ here => exact ⟨here.isModelled, hr⟩
  | right _ _ here => exact ⟨hl, here.isModelled⟩

theorem looseEquals_of_converts (h : Converts l r l' r') : looseEquals l r = looseEquals l' r' := by
  cases h with
  | left defined first here =>
    cases here with
    | boolean b =>
      rw [looseEquals.eq_def]
      cases r with
      | undefined | null => cases defined
      | boolean c => exact absurd first (Nat.lt_irrefl _)
      | number | string | array => rfl
    | array text =>
      rw [looseEquals.eq_def]
      cases r with
      | undefined | null => cases defined
      | boolean | array => exact absurd first (by simp [precedence])
      | number | string =>
        change Value.toText _ >>= _ = _
        rw [text]
        rfl
  | right defined first here =>
    cases here with
    | boolean b =>
      rw [looseEquals.eq_def]
      cases l with
      | undefined | null => cases defined
      | boolean c => exact absurd first (Nat.lt_irrefl _)
      | number | string | array => rfl
    | array text =>
      rw [looseEquals.eq_def]
      cases l with
      | undefined | null => cases defined
      | boolean | array => exact absurd first (by simp [precedence])
      | number | string =>
        change Value.toText _ >>= _ = _
        rw [text]
        rfl

theorem exists_converted (h : l.isModelled) (first : 1 < l.precedence) : ∃ l', Converted l l' := by
  cases l with
  | boolean b => exact ⟨_, .boolean b⟩
  | array items =>
    obtain ⟨t, text⟩ := (succeeds_toText _ h).exists_ok
    exact ⟨_, .array text⟩
  | undefined | null | number | string => exact absurd first (by simp [precedence])

theorem looseEquals_of_final (hl : l.isModelled) (hr : r.isModelled) (final : ∀ l' r', ¬Converts l r l' r') :
    looseEquals l r = settled l r := by
  have even : l.precedence = 0 ∨ r.precedence = 0 ∨ l.precedence = r.precedence := by
    by_contra mixed
    rw [not_or, not_or] at mixed
    rcases Nat.lt_or_gt_of_ne mixed.2.2 with less | greater
    · obtain ⟨r', here⟩ := exists_converted hr (by omega)
      exact final _ _ (.right (by omega) less here)
    · obtain ⟨l', here⟩ := exists_converted hl (by omega)
      exact final _ _ (.left (by omega) greater here)
  rw [looseEquals.eq_def]
  cases l <;> cases r <;> first | rfl | exact absurd even (by simp [precedence])

/-- A comparison of modelled values is settled after as many conversions as its operands allow. -/
theorem exists_settles (hl : l.isModelled) (hr : r.isModelled) :
    ∃ n ≤ l.conversions + r.conversions, ∃ a b, Settles n l r a b := by
  -- induction on the conversions the operands still allow
  induction bound : l.conversions + r.conversions using Nat.strongRecOn generalizing l r with
  | ind m ih =>
    by_cases final : ∀ l' r', ¬Converts l r l' r'
    · exact ⟨0, Nat.zero_le _, l, r, .done final⟩
    · push Not at final
      obtain ⟨l', r', here⟩ := final
      have fewer := here.conversions_lt
      obtain ⟨n, few, a, b, further⟩ := ih _ (bound ▸ fewer) (here.isModelled hl hr).1 (here.isModelled hl hr).2 rfl
      exact ⟨n + 1, by omega, a, b, .step here further⟩

theorem Settles.looseEquals_eq (h : Settles n l r a b) (hl : l.isModelled) (hr : r.isModelled) : looseEquals l r = settled a b := by
  induction h with
  | done final => exact looseEquals_of_final hl hr final
  | step here _ ih =>
    rw [looseEquals_of_converts here]
    exact ih (here.isModelled hl hr).1 (here.isModelled hl hr).2

theorem conversions_le_one (v : Value) : v.conversions ≤ 1 := by
  cases v <;> simp [conversions]

theorem Settles.isModelled (h : Settles n l r a b) (hl : l.isModelled) (hr : r.isModelled) : a.isModelled ∧ b.isModelled := by
  induction h with
  | done _ => exact ⟨hl, hr⟩
  | step here _ ih => exact ih (here.isModelled hl hr).1 (here.isModelled hl hr).2

/-- Both operands are arrays. -/
def AreArrays (l r : Value) : Prop := ∃ ls rs, l = .array ls ∧ r = .array rs

theorem Converts.not_areArrays (h : Converts l r l' r') : ¬AreArrays l r ∧ ¬AreArrays l' r' := by
  constructor
  · rintro ⟨ls, rs, rfl, rfl⟩
    cases h with
    | left _ first _ | right _ first _ => exact absurd first (Nat.lt_irrefl _)
  · rintro ⟨ls, rs, rfl, rfl⟩
    cases h with
    | left _ _ here | right _ _ here => cases here

theorem Settles.areArrays (h : Settles n l r a b) : AreArrays a b ↔ AreArrays l r := by
  induction h with
  | done _ => rfl
  | step here _ ih => exact ih.trans (iff_of_false here.not_areArrays.2 here.not_areArrays.1)

theorem same_comm (x y : Double) : x.same y = y.same x := by
  rw [Double.same, Double.same, Bool.and_comm (!x.isNaN), Bool.beq_comm]

theorem settled_comm (a b : Value) : settled a b = settled b a := by
  cases a <;> cases b <;> try rfl
  case boolean.boolean p q => exact congrArg Except.ok Bool.beq_comm
  case number.number x y => exact congrArg Except.ok (same_comm x y)
  case string.string s t => exact congrArg Except.ok Bool.beq_comm
  case number.string x t =>
    change (stringToNumber t >>= fun y => _) = stringToNumber t >>= fun y => _
    simp only [same_comm]
  case string.number t x =>
    change (stringToNumber t >>= fun y => _) = stringToNumber t >>= fun y => _
    simp only [same_comm]

theorem succeeds_settled (ha : a.isModelled) (hb : b.isModelled) (h : ¬AreArrays a b) : (settled a b).Succeeds := by
  cases a <;> cases b <;> first | exact absurd ha Bool.false_ne_true | exact absurd hb Bool.false_ne_true | trivial | skip
  case number.string x t => exact (succeeds_stringToNumber t).map fun _ _ => trivial
  case string.number t x => exact (succeeds_stringToNumber t).map fun _ _ => trivial
  case array.array ls rs => exact absurd ⟨ls, rs, rfl, rfl⟩ h

theorem settled_eq_error {f : Fault} (ha : a.isModelled) (hb : b.isModelled) :
    settled a b = .error f ↔ f = .arrayIdentity ∧ AreArrays a b := by
  by_cases arrays : AreArrays a b
  · obtain ⟨ls, rs, rfl, rfl⟩ := arrays
    exact ⟨fun failed => ⟨(Except.error.inj failed).symm, ls, rs, rfl, rfl⟩, fun h => h.1 ▸ rfl⟩
  · obtain ⟨found, hfound⟩ := (succeeds_settled ha hb arrays).exists_ok
    rw [hfound]
    exact iff_of_false (by rintro ⟨⟩) fun h => arrays h.2

theorem Converted.left_ne_number {x : Double} (h : Converted l l') : l ≠ .number x := by
  rintro rfl
  cases h

/-- NaN is converted no further, and what the other side is converted to is not equal to it. -/
theorem Settles.settled_nan (h : Settles n (.number .nan) r a b) (hr : r.isModelled) : settled a b = .ok false := by
  generalize same : Value.number .nan = l at h
  induction h with
  | @done l r final =>
    subst same
    cases r with
    | undefined | number => rfl
    | null => cases hr
    | boolean c => exact absurd (.right (by decide) (by simp [precedence]) (.boolean c)) (final _ _)
    | string t =>
      obtain ⟨y, hy⟩ := (succeeds_stringToNumber t).exists_ok
      rw [settled, hy]
      rfl
    | array items =>
      obtain ⟨t, text⟩ := (succeeds_toText _ hr).exists_ok
      exact absurd (.right (by decide) (by simp [precedence]) (.array text)) (final _ _)
  | step here _ ih =>
    subst same
    cases here with
    | left _ _ here => exact absurd rfl here.left_ne_number
    | right _ _ here => exact ih here.isModelled rfl

theorem looseEquals_of_strictEquals (h : strictEquals l r = .ok true) : looseEquals l r = .ok true := by
  rw [looseEquals.eq_def]
  cases l <;> cases r <;> first | exact h | cases h

end Steps

/-- Loose equality of any two modelled values. At most two conversions lead to values that are compared without another one. The
comparison fails on two arrays and nowhere else, does not depend on the order of its operands, holds where strict equality
holds, and does not hold for NaN. -/
theorem loose_equality_is_settled {l r : Value} (hl : l.isModelled) (hr : r.isModelled) :
    (∃ n ≤ 2, ∃ a b, Settles n l r a b ∧ looseEquals l r = settled a b) ∧
    (∀ f, looseEquals l r = .error f ↔ f = .arrayIdentity ∧ AreArrays l r) ∧ Fault.arrayIdentity.category = .evaluation ∧
    looseEquals l r = looseEquals r l ∧
    (strictEquals l r = .ok true → looseEquals l r = .ok true) ∧
    (l = .number .nan → looseEquals l r = .ok false) := by
  obtain ⟨n, few, a, b, settles⟩ := exists_settles hl hr
  have outcome := settles.looseEquals_eq hl hr
  have modelled := settles.isModelled hl hr
  refine ⟨⟨n, ?_, a, b, settles, outcome⟩, fun f => ?_, rfl, ?_, looseEquals_of_strictEquals, ?_⟩
  · have left := l.conversions_le_one
    have right := r.conversions_le_one
    omega
  · rw [outcome, settled_eq_error modelled.1 modelled.2, settles.areArrays]
  · rw [outcome, settled_comm, settles.swap.looseEquals_eq hr hl]
  · rintro rfl
    rw [outcome, settles.settled_nan hr]

/-- The order does not matter for an array and a boolean, which take two conversions. Arrays cannot be compared, and NaN is not
equal to the array that holds it. -/
theorem loose_equality_of_arrays :
    looseEquals (.array [.string "1"]) (.boolean true) = looseEquals (.boolean true) (.array [.string "1"]) ∧
    looseEquals (.array []) (.array [.undefined]) = .error .arrayIdentity ∧
    looseEquals (.number .nan) (.array [.number .nan]) = .ok false :=
  ⟨(loose_equality_is_settled rfl rfl).2.2.2.1, ((loose_equality_is_settled rfl rfl).2.1 _).mpr ⟨rfl, _, _, rfl, rfl⟩,
    (loose_equality_is_settled rfl rfl).2.2.2.2.2 rfl⟩

end Unravel.Value
