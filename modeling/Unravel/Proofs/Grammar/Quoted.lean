import Mathlib.Data.List.Chain
import Unravel.Grammar.Literal
import Unravel.Syntax.Render

/-! String literals read back. A quoted text is decoded escape by escape into the UTF-16 units of its code points; joining
   the pairs among these units gives the text again, unless it had such a pair as two code points of its own. -/
namespace Unravel

open List

namespace Text

/-- The UTF-16 units of a code point, a lone surrogate being one. -/
def units (c : CodePoint) : Text :=
  if h : c.toNat < 0x10000 then [c]
  else
    have := c.isLt
    [⟨0xd800 + (c.toNat - 0x10000) / 0x400, by omega⟩, ⟨0xdc00 + (c.toNat - 0x10000) % 0x400, by omega⟩]

/-- No high surrogate stands directly before a low one. -/
def IsUnpaired (t : Text) : Prop := t.IsChain fun a b => ¬(a.isHighSurrogate ∧ b.isLowSurrogate)

/-- The escape of one UTF-16 unit. -/
def unitEscape (u : CodePoint) : Text := '\\' :: 'u' :: hex 4 u.toNat

theorem unitEscapes_eq (c : CodePoint) : unitEscapes c = (units c).flatMap unitEscape := by
  rw [unitEscapes, units]
  split
  · rw [flatMap_singleton]
    rfl
  · rw [flatMap_cons, flatMap_singleton]
    rfl

theorem toNat_lt_of_mem_units {c u : CodePoint} (h : u ∈ units c) : u.toNat < 0x10000 := by
  have bound := c.isLt
  rw [units] at h
  split at h
  next small => rwa [mem_singleton.mp h]
  next large =>
    simp only [mem_cons, not_mem_nil, or_false] at h
    rcases h with rfl | rfl
    · change 0xd800 + (c.toNat - 0x10000) / 0x400 < 0x10000
      omega
    · change 0xdc00 + (c.toNat - 0x10000) % 0x400 < 0x10000
      omega

section Surrogates

variable {c : CodePoint}

theorem isHighSurrogate_iff : c.isHighSurrogate ↔ 0xd800 ≤ c.toNat ∧ c.toNat < 0xdc00 := by
  rw [CodePoint.isHighSurrogate, Bool.and_eq_true, decide_eq_true_iff, decide_eq_true_iff]

theorem isLowSurrogate_iff : c.isLowSurrogate ↔ 0xdc00 ≤ c.toNat ∧ c.toNat < 0xe000 := by
  rw [CodePoint.isLowSurrogate, Bool.and_eq_true, decide_eq_true_iff, decide_eq_true_iff]

theorem units_of_surrogate (h : c.isHighSurrogate ∨ c.isLowSurrogate) : units c = [c] := by
  rw [isHighSurrogate_iff, isLowSurrogate_iff] at h
  rw [units, dif_pos (by omega)]

theorem joinSurrogates_cons_of_not_high (h : ¬c.isHighSurrogate) (rest : Text) :
    joinSurrogates (c :: rest) = c :: joinSurrogates rest := by
  cases rest with
  | nil => rfl
  | cons d rest => rw [joinSurrogates, dif_neg fun pair => h pair.1]

theorem joinSurrogates_units_append (h : ¬c.isHighSurrogate) (rest : Text) :
    joinSurrogates (units c ++ rest) = c :: joinSurrogates rest := by
  have bound := c.isLt
  rw [units]
  split
  next => exact joinSurrogates_cons_of_not_high h rest
  next large =>
    rw [cons_append, cons_append, nil_append, joinSurrogates, dif_pos]
    · refine congrArg (· :: joinSurrogates rest) ?_
      refine (CodePoint.mk.injEq _ _ _ _).mpr ?_
      dsimp only
      omega
    · rw [isHighSurrogate_iff, isLowSurrogate_iff]
      dsimp only
      omega

end Surrogates

theorem joinSurrogates_units (t : Text) : joinSurrogates (t.flatMap units) = joinSurrogates t := by
  fun_induction joinSurrogates t with
  | case1 high low rest pair ih =>
    rw [flatMap_cons, flatMap_cons, units_of_surrogate (.inl pair.1), units_of_surrogate (.inr pair.2),
      cons_append, cons_append, nil_append, nil_append, joinSurrogates, dif_pos pair, ih]
  | case2 c d rest apart ih =>
    rw [flatMap_cons]
    by_cases high : c.isHighSurrogate
    · -- the first unit of the next code point is not a low surrogate
      obtain ⟨u, more, first, other⟩ : ∃ u more, (d :: rest).flatMap units = u :: more ∧ ¬u.isLowSurrogate := by
        rw [flatMap_cons, units]
        split
        next => exact ⟨d, _, rfl, fun low => apart ⟨high, low⟩⟩
        next =>
          refine ⟨_, _, rfl, ?_⟩
          have bound := d.isLt
          rw [isLowSurrogate_iff]
          dsimp only
          omega
      rw [units_of_surrogate (.inl high), ← ih, first, cons_append, nil_append, joinSurrogates,
        dif_neg fun pair => other pair.2]
    · rw [joinSurrogates_units_append high, ih]
  | case3 t short =>
    cases t with
    | nil => rfl
    | cons c rest =>
      cases rest with
      | cons d rest => exact absurd rfl (short c d rest)
      | nil =>
        by_cases high : c.isHighSurrogate
        · rw [flatMap_singleton, units_of_surrogate (.inl high)]
          rfl
        · rw [flatMap_singleton, ← append_nil (units c), joinSurrogates_units_append high]
          rfl

theorem length_joinSurrogates_le (t : Text) : (joinSurrogates t).length ≤ t.length := by
  fun_induction joinSurrogates t with
  | case1 high low rest pair ih =>
    simp only [length_cons]
    omega
  | case2 c d rest apart ih => exact Nat.succ_le_succ ih
  | case3 t short => exact Nat.le_refl _

theorem joinSurrogates_eq_self_iff (t : Text) : joinSurrogates t = t ↔ t.IsUnpaired := by
  fun_induction joinSurrogates t with
  | case1 high low rest pair ih =>
    refine iff_of_false (fun same => ?_) fun chain => (isChain_cons_cons.mp chain).1 pair
    have shorter := length_joinSurrogates_le rest
    have length := congrArg List.length same
    simp only [length_cons] at length
    omega
  | case2 c d rest apart ih =>
    rw [List.cons.injEq, IsUnpaired, isChain_cons_cons]
    exact and_congr (iff_of_true rfl apart) ih
  | case3 t short =>
    refine iff_of_true rfl ?_
    cases t with
    | nil => exact .nil
    | cons c rest =>
      cases rest with
      | nil => exact .singleton c
      | cons d rest => exact absurd rfl (short c d rest)

end Text

namespace Literal

section Hexadecimal

theorem digitValue_digitChar : ∀ d < 16, (ofChar d.digitChar).digitValue?.getD 0 = d ∧
    (ofChar d.digitChar).isHexDigit := by decide

theorem digits_append_singleton (base : Nat) (t : Text) (c : CodePoint) :
    digits base (t ++ [c]) = digits base t * base + c.digitValue?.getD 0 := by
  rw [digits, foldl_append]
  rfl

theorem digits_toDigits (n : Nat) : digits 16 ((Nat.toDigits 16 n).map ofChar) = n := by
  induction n using Nat.strongRecOn with
  | ind n ih =>
    by_cases small : n < 16
    · rw [Nat.toDigits_of_lt_base small]
      exact (Nat.zero_add _).trans (digitValue_digitChar n small).1
    · rw [Nat.toDigits_of_base_le (by decide) (by omega), map_append, map_singleton, digits_append_singleton,
        ih (n / 16) (by omega), (digitValue_digitChar _ (Nat.mod_lt n (by decide))).1]
      omega

theorem isHexDigit_toDigits (n : Nat) : ((Nat.toDigits 16 n).map ofChar).all CodePoint.isHexDigit := by
  induction n using Nat.strongRecOn with
  | ind n ih =>
    by_cases small : n < 16
    · rw [Nat.toDigits_of_lt_base small, map_singleton, all_cons, (digitValue_digitChar n small).2]
      rfl
    · rw [Nat.toDigits_of_base_le (by decide) (by omega), map_append, map_singleton, all_append,
        ih (n / 16) (by omega), all_cons, (digitValue_digitChar _ (Nat.mod_lt n (by decide))).2]
      rfl

theorem digits_replicate_append (k : Nat) (t : Text) :
    digits 16 (List.replicate k (ofChar '0') ++ t) = digits 16 t := by
  induction k with
  | zero => rfl
  | succ k ih => exact ih

theorem hex_four {n : Nat} (small : n < 0x10000) :
    (Text.hex 4 n).length = 4 ∧ (Text.hex 4 n).all CodePoint.isHexDigit ∧ digits 16 (Text.hex 4 n) = n := by
  have length : (Nat.toDigits 16 n).length ≤ 4 := (Nat.length_toDigits_le_iff (by decide) (by decide)).mpr small
  refine ⟨?_, ?_, ?_⟩
  · rw [Text.hex, length_append, length_replicate, length_map]
    omega
  · rw [Text.hex, all_append, isHexDigit_toDigits, Bool.and_true, all_replicate]
    split <;> rfl
  · rw [Text.hex, digits_replicate_append, digits_toDigits]

end Hexadecimal

section Escapes

variable {c : CodePoint} {rest : Text}

theorem escape_shortEscape {e : Text} (h : Text.shortEscape? c = some e) (rest : Text) :
    c.toNat < 0x80 ∧ ∃ mark, e = ['\\', mark] ∧ escape mark rest = .ok ([c], 1) := by
  obtain ⟨n, bound⟩ := c
  unfold Text.shortEscape? at h
  split at h
  next same =>
    cases same
    cases h
    exact ⟨Nat.le_of_ble_eq_true rfl, '"', rfl, rfl⟩
  split at h
  next same =>
    cases same
    cases h
    exact ⟨Nat.le_of_ble_eq_true rfl, '\\', rfl, rfl⟩
  split at h
  next same =>
    cases same
    cases h
    exact ⟨Nat.le_of_ble_eq_true rfl, 'b', rfl, rfl⟩
  split at h
  next same =>
    cases same
    cases h
    exact ⟨Nat.le_of_ble_eq_true rfl, 'f', rfl, rfl⟩
  split at h
  next same =>
    cases same
    cases h
    exact ⟨Nat.le_of_ble_eq_true rfl, 'n', rfl, rfl⟩
  split at h
  next same =>
    cases same
    cases h
    exact ⟨Nat.le_of_ble_eq_true rfl, 'r', rfl, rfl⟩
  split at h
  next same =>
    cases same
    cases h
    exact ⟨Nat.le_of_ble_eq_true rfl, 't', rfl, rfl⟩
  next => cases h

theorem escape_hex (small : c.toNat < 0x10000) (rest : Text) :
    escape (ofChar 'u') (Text.hex 4 c.toNat ++ rest) = .ok ([c], 5) := by
  obtain ⟨length, hexadecimal, value⟩ := hex_four small
  have taken : (Text.hex 4 c.toNat ++ rest).take 4 = Text.hex 4 c.toNat := take_left' length
  have run : exactly? 4 CodePoint.isHexDigit (Text.hex 4 c.toNat ++ rest) = some (Text.hex 4 c.toNat) := by
    rw [exactly?, taken, if_pos ⟨length, hexadecimal⟩]
  have plain : braced? (Text.hex 4 c.toNat ++ rest) = none := by
    obtain ⟨first, more, digits⟩ := exists_cons_of_length_eq_add_one length
    rw [digits] at hexadecimal ⊢
    rw [cons_append, braced?, if_neg]
    rintro ⟨rfl, -⟩
    cases hexadecimal
  have point : codePoint c.toNat = .ok c := by rw [codePoint, CodePoint.ofNat?, dif_pos c.isLt]
  rw [escape, if_pos rfl, plain, run]
  change (do return ([← codePoint (digits 16 (Text.hex 4 c.toNat))], 5)) = _
  rw [value, point]
  rfl

end Escapes

section Decoding

/-- A code point inside a quoted text. -/
def quoted (c : CodePoint) : Text :=
  match Text.shortEscape? c with
  | some e => e
  | none => if 0x20 ≤ c.toNat ∧ c.toNat < 0x7f then [c] else Text.unitEscapes c

theorem quoteAscii_eq (t : Text) : t.quoteAscii = ofChar '"' :: (t.flatMap quoted ++ [ofChar '"']) := rfl

variable {n : Nat} {t : Text}

theorem unescape_mark {mark : CodePoint} {rest head : Text} {length : Nat} (h : escape mark rest = .ok (head, length))
    (n : Nat) : unescape (n + 1) ('\\' :: mark :: rest) =
      (do return head ++ (← unescape n ((mark :: rest).drop length))) := by
  rw [unescape, if_pos rfl, h]
  rfl

theorem unescape_plain {c : CodePoint} (plain : c ≠ '\\') (n : Nat) (rest : Text) :
    unescape (n + 1) (c :: rest) = (do return c :: (← unescape n rest)) := by
  rw [unescape.eq_def]
  exact if_neg plain

/-- The text decodes to another one with any bound that its length allows. -/
def Decodes (t decoded : Text) : Prop := ∀ n, t.length ≤ n → unescape n t = .ok decoded

theorem decodes_units {us t decoded : Text} (small : ∀ u ∈ us, u.toNat < 0x10000) (h : Decodes t decoded) :
    Decodes (us.flatMap Text.unitEscape ++ t) (us ++ decoded) := by
  induction us with
  | nil => exact h
  | cons u us ih =>
    intro n enough
    rw [flatMap_cons, append_assoc, Text.unitEscape, cons_append, cons_append] at enough ⊢
    obtain ⟨length, -, -⟩ := hex_four (small u (.head _))
    cases n with
    | zero => cases enough
    | succ n =>
      have rest := ih (fun v hv => small v (.tail u hv)) n (by
        simp only [length_cons, length_append] at enough ⊢
        omega)
      rw [unescape_mark (escape_hex (small u (.head _)) _), drop_succ_cons, drop_left' length, rest]
      rfl

theorem decodes_quoted (c : CodePoint) {t decoded : Text} (h : Decodes t decoded) :
    Decodes (quoted c ++ t) (Text.units c ++ decoded) := by
  rw [quoted]
  split
  next e short =>
    obtain ⟨small, mark, rfl, escaped⟩ := escape_shortEscape short t
    have single : Text.units c = [c] := by rw [Text.units, dif_pos (by omega)]
    intro n enough
    cases n with
    | zero => cases enough
    | succ n =>
      rw [single]
      refine (unescape_mark escaped n).trans ?_
      rw [drop_succ_cons, drop_zero, h n (Nat.le_of_succ_le (Nat.le_of_succ_le_succ enough))]
      rfl
  next long =>
    split
    next printable =>
      have single : Text.units c = [c] := by rw [Text.units, dif_pos (by omega)]
      have plain : c ≠ '\\' := by
        rintro rfl
        cases long
      intro n enough
      cases n with
      | zero => cases enough
      | succ n =>
        rw [single]
        refine (unescape_plain plain n t).trans ?_
        rw [h n (Nat.le_of_succ_le_succ enough)]
        rfl
    next =>
      rw [Text.unitEscapes_eq]
      exact decodes_units (fun u hu => Text.toNat_lt_of_mem_units hu) h

theorem decodes_text (t : Text) : Decodes (t.flatMap quoted) (t.flatMap Text.units) := by
  induction t with
  | nil => exact fun n _ => by cases n <;> rfl
  | cons c rest ih => exact decodes_quoted c ih

/-- A quoted text is read as the text with its surrogates joined. -/
theorem string_quoteAscii (t : Text) : string t.quoteAscii = .ok t.joinSurrogates := by
  have body : unescape (t.flatMap quoted ++ [ofChar '"']).length (t.flatMap quoted) = .ok (t.flatMap Text.units) :=
    decodes_text t _ (by simp)
  rw [quoteAscii_eq, string, if_pos ⟨.inr rfl, by simp⟩, dropLast_concat, body]
  exact congrArg Except.ok (Text.joinSurrogates_units t)

end Decoding

end Literal

/-- The printed form of a string is read as that string, exactly if no high surrogate in it stands before a low one. -/
theorem rendered_string_reads_back {α : Type} (mark : α) (t : Text) :
    ((Tree.node mark (.string t)).renderExpression >>= Literal.string) = .ok t ↔ t.IsUnpaired := by
  have printed : (Tree.node mark (.string t)).renderExpression = .ok t.quoteAscii := rfl
  rw [printed, ← Text.joinSurrogates_eq_self_iff]
  change Literal.string t.quoteAscii = .ok t ↔ _
  rw [Literal.string_quoteAscii, Except.ok.injEq]

end Unravel
