import Unravel.Proofs.Datum.Reading

/-! The two serialisations of a solution. Reading the JSON text gives the data of the solution, up to one thing:
   a whole number is written by its shortest decimal, so from `2 ^ 54` on another whole number may come back,
   though one that rounds to the same double. -/
namespace Unravel

variable {n : Nat} {negative : Bool}

namespace Datum

/-- The second datum is the first, save that a whole number may stand for another one of the same double; below
`2 ^ 54` it does not. -/
inductive Agrees : Datum → Datum → Prop
  | null : Agrees .null .null
  | boolean (b : Bool) : Agrees (.boolean b) (.boolean b)
  | number (x : Double) : Agrees (.number x) (.number x)
  | text (t : Text) : Agrees (.text t) (.text t)
  | integer {m n : Int} (same : Double.ofInt m = Double.ofInt n) (exact : m.natAbs < 2 ^ 54 → m = n) :
    Agrees (.integer m) (.integer n)
  | list {items others : List Datum} (members : List.Forall₂ Agrees items others) :
    Agrees (.list items) (.list others)
  | mapping {entries others : List (Key × Datum)} (keys : entries.map Prod.fst = others.map Prod.fst)
    (members : List.Forall₂ Agrees (entries.map Prod.snd) (others.map Prod.snd)) :
    Agrees (.mapping entries) (.mapping others)

end Datum

namespace Double

open Decimal (shortest wholeLimit)

theorem ofInt_signed (positive : 0 < n) (negative : Bool) :
    ofInt (if negative then -(n : Int) else n) = ofRank negative (nearestRank (n * 2 ^ 1074) 1) := by
  cases negative with
  | true =>
    rw [if_pos rfl, ofInt, ofRatio, ofUnits, Int.natAbs_neg, Int.natAbs_natCast, decide_eq_true (by omega)]
  | false =>
    rw [if_neg Bool.false_ne_true, ofInt, ofRatio, ofUnits, Int.natAbs_natCast, decide_eq_false (by omega)]

theorem nearestRank_whole {rank : Nat} (near : Near ((n * 2 ^ 1074 : Nat) : ℚ) rank) :
    nearestRank (n * 2 ^ 1074) 1 = rank := by
  rw [nearestRank_eq_iff (by decide), Nat.cast_one, div_one]
  exact near

theorem ofNat_limit : ofNat (10 ^ 21) = ofRank false wholeLimit := by
  rw [ofNat, ofRatio, ofUnits, wholeLimit]

theorem order_limit : (ofNat (10 ^ 21)).order = wholeLimit := by
  have finite : min wholeLimit 0x7ff0000000000000 = wholeLimit := by decide +kernel
  rw [ofNat_limit, ofRank, order, if_neg Bool.false_ne_true]
  exact congrArg Nat.cast finite

theorem less_limit (negative : Bool) (rank : Fin (0x7ff0000000000000 + 1)) :
    (abs (.signed negative rank)).less (ofNat (10 ^ 21)) = decide (rank.val < wholeLimit) := by
  have own : (abs (.signed negative rank)).order = rank.val := rfl
  have number : (abs (.signed negative rank)).isNaN = false := rfl
  have bound : (ofNat (10 ^ 21)).isNaN = false := by
    rw [ofNat_limit]
    rfl
  rw [less, own, order_limit, number, bound, Bool.not_false, Bool.true_and, Bool.true_and]
  exact decide_eq_decide.mpr Int.ofNat_lt

theorem units_signed (negative : Bool) (rank : Fin (0x7ff0000000000000 + 1)) :
    units (.signed negative rank) = if negative then -(rankUnits rank.val : Int) else rankUnits rank.val := rfl

theorem isInteger_iff {rank : Fin (0x7ff0000000000000 + 1)}
    (finite : isFinite (.signed negative rank) = true) :
    isInteger (.signed negative rank) = true ↔ 2 ^ 1074 ∣ rankUnits rank.val := by
  have cast : ((2 ^ 1074 : Nat) : Int) = 2 ^ 1074 := Int.natCast_pow 2 1074
  rw [isInteger, finite, Bool.true_and, beq_iff_eq, ← Int.dvd_iff_emod_eq_zero, units_signed, ← cast]
  cases negative with
  | true => rw [if_pos rfl, Int.dvd_neg, Int.natCast_dvd_natCast]
  | false => rw [if_neg Bool.false_ne_true, Int.natCast_dvd_natCast]

theorem truncate_whole {rank : Fin (0x7ff0000000000000 + 1)}
    (whole : rankUnits rank.val = n * 2 ^ 1074) :
    truncate (.signed negative rank) = if negative then -(n : Int) else n := by
  have unit : ((2 ^ 1074 : Nat) : Int) ≠ 0 := Int.natCast_ne_zero.2 (Nat.ne_of_gt (Nat.two_pow_pos 1074))
  have cast : ((2 ^ 1074 : Nat) : Int) = 2 ^ 1074 := Int.natCast_pow 2 1074
  rw [truncate, units_signed, whole, Int.natCast_mul, ← cast]
  cases negative with
  | true => rw [if_pos rfl, if_pos rfl, ← Int.neg_mul, Int.mul_tdiv_cancel _ unit]
  | false => rw [if_neg Bool.false_ne_true, if_neg Bool.false_ne_true, Int.mul_tdiv_cancel _ unit]

end Double

namespace Datum

open Double (rankUnits)

theorem whole_pos {rank : Nat} (whole : rankUnits rank = n * 2 ^ 1074) (positive : 0 < rank) : 0 < n := by
  by_contra zero
  have units := Double.rankUnits_pos positive
  rw [whole, Nat.eq_zero_of_not_pos zero, Nat.zero_mul] at units
  exact Nat.lt_irrefl 0 units

theorem agrees_whole {rank : Fin (0x7ff0000000000000 + 1)} (whole : rankUnits rank.val = n * 2 ^ 1074)
    (positive : 0 < rank.val) (negative : Bool) :
    Agrees (.integer (if negative then -(n : Int) else n))
      (.integer (if negative then -((Decimal.shortest rank.val).wholeNumber : Int)
        else (Decimal.shortest rank.val).wholeNumber)) := by
  have rounds := Decimal.shortest_roundsTo positive
  have some := whole_pos whole positive
  obtain ⟨exponent, -⟩ := Decimal.shortest_whole whole some
  have shown : 0 < (Decimal.shortest rank.val).wholeNumber :=
    Nat.mul_pos (rounds.coefficient_pos positive) (Nat.pow_pos (by decide))
  have own : Double.nearestRank (n * 2 ^ 1074) 1 = rank.val := by
    apply Double.nearestRank_whole
    rw [← whole]
    exact Double.Near.rankUnits_self rank.val
  have other : Double.nearestRank ((Decimal.shortest rank.val).wholeNumber * 2 ^ 1074) 1 = rank.val := by
    apply Double.nearestRank_whole
    unfold Decimal.RoundsTo at rounds
    rw [Decimal.value_eq_wholeNumber exponent] at rounds
    exact_mod_cast rounds
  apply Agrees.integer
  · rw [Double.ofInt_signed some, Double.ofInt_signed shown, own, other]
  · intro small
    have bound : n < 2 ^ 54 := by
      cases negative with
      | true => rwa [if_pos rfl, Int.natAbs_neg, Int.natAbs_natCast] at small
      | false => rwa [if_neg Bool.false_ne_true, Int.natAbs_natCast] at small
    rw [Decimal.wholeNumber_shortest whole some bound]

theorem agrees_zero {rank : Fin (0x7ff0000000000000 + 1)} (zero : rank.val = 0) (negative : Bool) :
    Agrees (.integer (Double.truncate (.signed negative rank))) (.integer 0) := by
  have whole : rankUnits rank.val = 0 * 2 ^ 1074 := by
    rw [zero, Nat.zero_mul]
    rfl
  have none : Double.truncate (.signed negative rank) = 0 := by
    rw [Double.truncate_whole whole]
    cases negative <;> rfl
  rw [none]
  exact .integer rfl fun _ => rfl

theorem agrees_positive {rank : Fin (0x7ff0000000000000 + 1)} (positive : 0 < rank.val)
    (finite : Double.isFinite (.signed negative rank) = true) :
    Agrees (if Double.isInteger (.signed negative rank) && decide (rank.val < Decimal.wholeLimit)
        then .integer (Double.truncate (.signed negative rank)) else .number (.signed negative rank))
      (ofWritten (.signed negative rank)) := by
  have whole := Double.isInteger_iff finite
  have point := Decimal.point_shortest_le_iff positive
  rw [ofWritten, if_neg (Nat.ne_of_gt positive)]
  by_cases integer : Double.isInteger (.signed negative rank) = true
  · obtain ⟨n, units⟩ := whole.1 integer
    rw [Nat.mul_comm] at units
    have exponent := (Decimal.shortest_whole units (whole_pos units positive)).1
    rw [integer, Bool.true_and]
    by_cases small : rank.val < Decimal.wholeLimit
    · rw [if_pos (decide_eq_true small), if_pos ⟨exponent, point.2 small⟩, Double.truncate_whole units]
      exact agrees_whole units positive negative
    · rw [if_neg (by simpa using small), if_neg fun h => small (point.1 h.2)]
      exact .number _
  · have fraction := Decimal.exponent_neg_of_fraction positive fun h => integer (whole.2 h)
    rw [Bool.not_eq_true] at integer
    rw [integer, Bool.false_and, if_neg Bool.false_ne_true, if_neg fun h => absurd h.1 (Int.not_le.2 fraction)]
    exact .number _

theorem agrees_number (x : Double) :
    Agrees (Value.answerDatum (.number x)) (if x.isFinite then ofWritten x else .null) := by
  rw [Value.answerDatum]
  by_cases finite : x.isFinite = true
  · rw [if_neg (by rw [finite]; decide), if_pos finite]
    cases x with
    | nan => exact nomatch finite
    | signed negative rank =>
      rw [Double.less_limit]
      by_cases zero : rank.val = 0
      · have integer : Double.isInteger (.signed negative rank) = true := by
          rw [Double.isInteger_iff finite, zero]
          exact Nat.dvd_zero _
        have small : decide (rank.val < Decimal.wholeLimit) = true := by
          rw [zero]
          decide +kernel
        rw [integer, small, ofWritten, if_pos zero, Bool.true_and, if_pos rfl]
        exact agrees_zero zero negative
      · exact agrees_positive (Nat.pos_of_ne_zero zero) finite
  · rw [if_pos (by simpa using finite), if_neg finite]
    exact .null

mutual
/-- The data of an answer agree with what its text is read as. -/
theorem agrees_answer : ∀ v : Value, Agrees v.answerDatum (ofAnswer v)
  | .undefined => .null
  | .null => .null
  | .boolean b => .boolean b
  | .string t => .text t
  | .number x => agrees_number x
  | .array items => .list (agrees_answers items)

theorem agrees_answers : ∀ items : List Value,
    List.Forall₂ Agrees (Value.answerDatum.answerData items) (ofAnswer.ofAnswers items)
  | [] => .nil
  | v :: rest => .cons (agrees_answer v) (agrees_answers rest)
end

theorem answerData_eq_map (items : List Value) : Value.answerDatum.answerData items = items.map Value.answerDatum := by
  induction items with
  | nil => rfl
  | cons v rest ih => rw [Value.answerDatum.answerData, ih, List.map_cons]

section Members

variable {fuel offset : Nat} {rest : Text} {datum : Datum} {read : List (Key × Datum)}

theorem readMembers_key (key t : Text) (opens : Opens t) : ∃ next,
    readMembers (fuel + 1) ⟨key.quoteJson ++ (ofChar ':' :: t), offset⟩ read
      = match readValue fuel ⟨t, next⟩ with
        | .error e => .error e
        | .ok (value, after) =>
          let after := after.skipBlanks
          let read := put (.text key) value read
          if after.starts "\x7d" then .ok (.mapping read, after.skip 1)
          else if after.starts "," then readMembers fuel (after.skip 1).skipBlanks read
          else .error (after.stop "Expecting ',' delimiter") := by
  have enough : key.length < (key.quoteJson ++ (ofChar ':' :: t)).length + 1 := by
    have := length_le_quoted key
    rw [quoteJson_append, List.length_cons, List.length_append]
    omega
  obtain ⟨next, string⟩ := @readString_quoted offset _ (offset + 1) [] (':' :: t) key enough
  rw [quoteJson_append] at string ⊢
  have quote : ∀ t, ¬ (!(⟨'"' :: t, offset⟩ : Cursor).starts "\"") = true :=
    fun _ => Bool.false_ne_true
  have colon : ¬ (!(⟨':' :: t, next⟩ : Cursor).starts ":") = true := Bool.false_ne_true
  refine ⟨next + 1, ?_⟩
  rw [readMembers, if_neg (quote _), skip_one, string]
  dsimp only
  rw [skipBlanks_of_head rfl, if_neg colon, skip_one, opens.skipBlanks]
  rfl

theorem readMembers_last (key : Text) {t : Text} (opens : Opens t)
    (value : ∀ offset, Gives (readValue fuel ⟨t, offset⟩) datum ('\x7d' :: rest)) :
    Gives (readMembers (fuel + 1) ⟨key.quoteJson ++ (ofChar ':' :: t), offset⟩ read)
      (.mapping (put (.text key) datum read)) rest := by
  obtain ⟨next, step⟩ := @readMembers_key fuel offset read key t opens
  obtain ⟨after, value⟩ := value next
  have closes : (⟨'\x7d' :: rest, after⟩ : Cursor).starts "\x7d" = true := rfl
  rw [step, value]
  dsimp only
  rw [skipBlanks_of_head rfl, if_pos closes]
  exact ⟨_, rfl⟩

theorem readMembers_next (key : Text) {t u : Text} (opens : Opens t) (follows : Opens u)
    (value : ∀ offset, Gives (readValue fuel ⟨t, offset⟩) datum (',' :: u)) :
    ∃ next, readMembers (fuel + 1) ⟨key.quoteJson ++ (ofChar ':' :: t), offset⟩ read
      = readMembers fuel ⟨u, next⟩ (put (.text key) datum read) := by
  obtain ⟨next, step⟩ := @readMembers_key fuel offset read key t opens
  obtain ⟨after, value⟩ := value next
  have goesOn : ¬ (⟨',' :: u, after⟩ : Cursor).starts "\x7d" = true := Bool.false_ne_true
  have comma : (⟨',' :: u, after⟩ : Cursor).starts "," = true := rfl
  refine ⟨after + 1, ?_⟩
  rw [step, value]
  dsimp only
  rw [skipBlanks_of_head rfl, if_neg goesOn, if_pos comma, skip_one, follows.skipBlanks]

theorem readValue_object (key t : Text) :
    readValue (fuel + 1) ⟨'\x7b' :: (key.quoteJson ++ t), offset⟩
      = readMembers fuel ⟨key.quoteJson ++ t, offset + 1⟩ [] := by
  rw [quoteJson_append, readValue]
  dsimp only
  rw [if_neg (by decide), if_pos rfl, skip_one, skipBlanks_of_head rfl]
  rfl

end Members

end Datum

namespace Solution

open Datum

theorem toJson_eq (s : Solution) :
    s.toJson = ofChar '\x7b' :: (Text.quoteJson "r" ++ (ofChar ':' ::
      ((Value.array s.answer).answerText ++ (ofChar ',' :: (Text.quoteJson "t" ++ (ofChar ':' ::
        (s.tag.quoteJson ++ [ofChar '\x7d']))))))) := by
  simp only [toJson, List.append_assoc]
  rfl

/-- What the text of a solution is read as. -/
def readBack (s : Solution) : Datum :=
  .mapping [(.text "r", .list (ofAnswer.ofAnswers s.answer)), (.text "t", .text s.tag)]

theorem readValue_toJson (s : Solution) {fuel : Nat} (enough : (Value.array s.answer).answerText.length ≤ fuel) :
    Gives (readValue (2 * fuel + 4) ⟨s.toJson, 0⟩) s.readBack [] := by
  have second : Opens (Text.quoteJson "t" ++ (ofChar ':' :: (s.tag.quoteJson ++ [ofChar '\x7d']))) :=
    ⟨'"', _, rfl, rfl, by decide⟩
  have answer : Opens ((Value.array s.answer).answerText ++ (ofChar ',' :: (Text.quoteJson "t"
      ++ (ofChar ':' :: (s.tag.quoteJson ++ [ofChar '\x7d']))))) := ⟨'[', _, rfl, rfl, by decide⟩
  have tag : Opens (s.tag.quoteJson ++ [ofChar '\x7d']) := by
    rw [quoteJson_append]
    exact ⟨'"', _, rfl, rfl, by decide⟩
  obtain ⟨next, first⟩ := @readMembers_next (2 * fuel + 2) 1 _ [] "r" _ _ answer second
    fun offset => readValue_answer (.array s.answer) (2 * fuel + 1) offset _ (by omega) (ends_comma _)
  rw [toJson_eq, readValue_object, first]
  exact readMembers_last "t" tag fun offset => readValue_quoted s.tag

theorem parse_toJson (s : Solution) : Datum.parse s.toJson = .ok s.readBack := by
  have shape := toJson_eq s
  have enough : (Value.array s.answer).answerText.length ≤ s.toJson.length - 1 := by
    simp only [shape, List.length_cons, List.length_append]
    omega
  have fuel : 2 * s.toJson.length + 2 = 2 * (s.toJson.length - 1) + 4 := by
    simp only [shape, List.length_cons]
    omega
  have mark : ¬ s.toJson.take 1 = [unitPoint 0xfeff] := by
    rw [shape]
    exact (by decide : ¬ [ofChar '\x7b'] = [unitPoint 0xfeff])
  have visible : (⟨s.toJson, 0⟩ : Cursor).skipBlanks = ⟨s.toJson, 0⟩ := by
    rw [shape]
    exact skipBlanks_of_head rfl
  obtain ⟨next, value⟩ := readValue_toJson s enough
  unfold parse
  dsimp only
  rw [if_neg mark, visible, fuel, value]
  rfl

/-- Reading the JSON text of a solution gives its data, up to whole numbers of the same double. -/
theorem serialisations_agree (s : Solution) :
    ∃ d, Datum.parse s.toJson = .ok d ∧ Agrees s.toDatum d := by
  refine ⟨s.readBack, parse_toJson s, ?_⟩
  have data : s.toDatum = .mapping [(.text "r", .list (s.answer.map Value.answerDatum)), (.text "t", .text s.tag)] := rfl
  rw [data, ← answerData_eq_map]
  exact .mapping rfl (.cons (.list (agrees_answers s.answer)) (.cons (.text s.tag) .nil))

/-- A solution whose first member is `2 ^ 54 + 8`. -/
def beyondExact : Solution where
  answer := [.number (.ofBits 0x4350000000000002), .number (.ofBits 0), .number (.ofBits 0)]
  tag := "t"

/-- Its text has the shortest decimal of the number, its data the number itself. -/
theorem beyondExact_differs :
    beyondExact.toJson = "\x7b\"r\":[18014398509481990,0,0],\"t\":\"t\"\x7d" ∧
      beyondExact.toDatum = .object [("r", .list [.integer 18014398509481992, .integer 0, .integer 0]), ("t", .text "t")] := by
  have whole : ∀ x : Double, x.isFinite = true → (x.isInteger && x.abs.less (.ofNat (10 ^ 21))) = true →
      Value.answerDatum (.number x) = .integer x.truncate := by
    intro x finite integer
    rw [Value.answerDatum, if_neg (by rw [finite]; decide), if_pos integer]
  have large := whole (.ofBits 0x4350000000000002) (by decide +kernel) (by decide +kernel)
  have zero := whole (.ofBits 0) (by decide +kernel) (by decide +kernel)
  have largeValue : Double.truncate (.ofBits 0x4350000000000002) = 18014398509481992 := by decide +kernel
  have zeroValue : Double.truncate (.ofBits 0) = 0 := by decide +kernel
  constructor
  · decide +kernel
  · rw [toDatum, beyondExact, List.map_cons, List.map_cons, List.map_cons, List.map_nil, large, zero, largeValue,
      zeroValue]

end Solution

end Unravel
