import Unravel.Proofs.Grammar.Quoted
import Unravel.Proofs.Grammar.Whole

/-! The keys of object literals as tokens: a key that is a plain name stands for itself, any other is a string literal. A key
   that ends in a line feed after a plain name is written like that name, and is read as the name. -/
namespace Unravel

open List

namespace Grammar

section Strings

variable {t body rest : Text}

theorem stringLength?_skip (quote : CodePoint) (t more : Text) :
    stringLength? quote t.length (t ++ more) = (stringLength? quote 0 more).map (· + t.length) := by
  induction t with
  | nil => exact Option.map_id'.symm
  | cons c t ih =>
    rw [length_cons, cons_append, stringLength?, ih, Option.map_map]
    rfl

/-- A part of a string literal that does not end it. -/
def IsInner (body : Text) : Prop :=
  ∀ more, stringLength? (ofChar '"') 0 (body ++ more) = (stringLength? (ofChar '"') 0 more).map (· + body.length)

theorem IsInner.append {other : Text} (h : IsInner body) (h' : IsInner other) : IsInner (body ++ other) := by
  intro more
  rw [append_assoc, h, h', Option.map_map, length_append]
  refine congrArg (fun f => Option.map f _) (funext fun n => ?_)
  simp only [Function.comp_apply]
  omega

theorem isInner_escape (length : ∀ more, escapeLength? (body ++ more) = some body.length) : IsInner ('\\' :: body) := by
  intro more
  rw [cons_append, stringLength?, if_neg (by decide), if_neg (by decide), if_pos rfl, length]
  dsimp only
  rw [stringLength?_skip, Option.map_map]
  rfl

theorem isInner_plain {c : CodePoint} (quote : c ≠ '"') (line : ¬(c = '\n' ∨ c = '\r'))
    (escape : c ≠ '\\') : IsInner [c] := by
  intro more
  rw [singleton_append, stringLength?, if_neg quote, if_neg line, if_neg escape]
  rfl

theorem isInner_units (us : Text) (small : ∀ u ∈ us, u.toNat < 0x10000) : IsInner (us.flatMap Text.unitEscape) := by
  induction us with
  | nil => exact fun more => Option.map_id'.symm
  | cons u us ih =>
    rw [flatMap_cons]
    refine IsInner.append (isInner_escape fun more => ?_) (ih fun v hv => small v (.tail u hv))
    obtain ⟨length, digits, -⟩ := Literal.hex_four (small u (.head _))
    have escape : unitEscape? ('u' :: (Text.hex 4 u.toNat ++ more)) = some ((Text.hex 4 u.toNat).length + 1) :=
      unitEscape?_eq_some_iff.mpr ⟨_, more, .inr ⟨length, digits⟩, rfl, rfl⟩
    rw [cons_append, escapeLength?, if_neg (by decide), if_pos rfl, escape, length_cons]

theorem mem_shortEscapes {c : CodePoint} {e : Text} (h : Text.shortEscape? c = some e) :
    e ∈ (["\\\"", "\\\\", "\\b", "\\f", "\\n", "\\r", "\\t"] : List Text) := by
  unfold Text.shortEscape? at h
  split_ifs at h <;> cases h <;> decide

theorem isInner_quoted (c : CodePoint) : IsInner (Literal.quoted c) := by
  rw [Literal.quoted]
  split
  next e short =>
    have marks : ∀ e ∈ (["\\\"", "\\\\", "\\b", "\\f", "\\n", "\\r", "\\t"] : List Text), IsInner e := by
      simp only [forall_mem_cons]
      refine ⟨?_, ?_, ?_, ?_, ?_, ?_, ?_, forall_mem_nil _⟩ <;> exact isInner_escape fun more => rfl
    exact marks e (mem_shortEscapes short)
  next long =>
    split
    next printable =>
      refine isInner_plain ?_ ?_ ?_
      · rintro rfl
        cases long
      · rintro (rfl | rfl)
        · exact absurd printable.1 (by decide)
        · exact absurd printable.1 (by decide)
      · rintro rfl
        cases long
    next =>
      rw [Text.unitEscapes_eq]
      exact isInner_units _ fun u hu => Text.toNat_lt_of_mem_units hu

theorem leads_quoted (t rest : Text) : Leads (t.quoteAscii ++ rest) (.string t.quoteAscii) rest := by
  have inner : IsInner (t.flatMap Literal.quoted) := by
    induction t with
    | nil => exact fun more => Option.map_id'.symm
    | cons c t ih =>
      rw [flatMap_cons]
      exact (isInner_quoted c).append ih
  have length : stringLength? (ofChar '"') 0 (t.flatMap Literal.quoted ++ [ofChar '"'] ++ rest) =
      some (t.flatMap Literal.quoted ++ [ofChar '"']).length := by
    rw [append_assoc, inner, singleton_append, stringLength?, if_pos rfl, length_append, Nat.add_comm]
    rfl
  have name : ∀ more, nameLength isNameStart 0 ('"' :: more) = 0 := by
    intro more
    rw [nameLength, if_neg (by decide), if_neg (by decide)]
  have number : ∀ more, numberLength ('"' :: more) = 0 :=
    fun more => numberLength_eq_zero (by decide) fun same => absurd same (by decide)
  refine ⟨t.quoteAscii.length, ?_, drop_left⟩
  have taken : (t.quoteAscii ++ rest).take t.quoteAscii.length = t.quoteAscii := take_left
  rw [Literal.quoteAscii_eq, length_cons] at taken ⊢
  rw [cons_append] at taken ⊢
  rw [token?, name, number]
  dsimp only
  rw [if_pos (.inl rfl), length, Option.map_some, taken]

end Strings

section Identifiers

variable {c : CodePoint} {t : Text}

theorem toNat_lt_of_isIdentifierPart (h : Text.isIdentifierPart c) : c.toNat < 128 := by
  simp only [Text.isIdentifierPart, Text.isIdentifierStart, CodePoint.isLower, CodePoint.isUpper, CodePoint.isDigit, CodePoint.isBetween,
    Bool.or_eq_true, Bool.and_eq_true, decide_eq_true_eq, beq_iff_eq] at h
  rcases h with (((lower | upper) | rfl) | rfl) | digit
  · exact Nat.lt_of_le_of_lt lower.2 (by decide)
  · exact Nat.lt_of_le_of_lt upper.2 (by decide)
  · decide
  · decide
  · exact Nat.lt_of_le_of_lt digit.2 (by decide)

theorem isNamePart_of_isIdentifierPart (h : Text.isIdentifierPart c) :
    isNamePart c ∧ c.isLegal ∧ (Text.isIdentifierStart c → isNameStart c) := by
  have all : ∀ n : Fin 128, Text.isIdentifierPart ⟨n, by omega⟩ → isNamePart ⟨n, by omega⟩ ∧ isLegal ⟨n, by omega⟩ ∧
      (Text.isIdentifierStart ⟨n, by omega⟩ → isNameStart ⟨n, by omega⟩) := by decide
  exact all ⟨c.toNat, toNat_lt_of_isIdentifierPart h⟩ h

theorem nameLength_of_all (h : t.all isNamePart) : nameLength isNamePart 0 t = t.length := by
  induction t with
  | nil => rfl
  | cons c t ih =>
    rw [all_cons, Bool.and_eq_true] at h
    rw [nameLength, if_pos h.1, ih h.2, length_cons, Nat.add_comm]

theorem isIdentifierPart_of_mem (h : t.isAsciiIdentifier) (member : c ∈ t) : Text.isIdentifierPart c := by
  cases t with
  | nil => cases member
  | cons first t =>
    rw [Text.isAsciiIdentifier, Bool.and_eq_true] at h
    rcases mem_cons.mp member with rfl | member
    · rw [Text.isIdentifierPart, h.1, Bool.true_or]
    · exact all_eq_true.mp h.2 c member

theorem isWord_of_isAsciiIdentifier (h : t.isAsciiIdentifier) : IsWord t := by
  cases t with
  | nil => cases h
  | cons c t =>
    have parts : t.all isNamePart := all_eq_true.mpr fun d member =>
      (isNamePart_of_isIdentifierPart (isIdentifierPart_of_mem h (.tail c member))).1
    have first : isNameStart c := by
      refine (isNamePart_of_isIdentifierPart (isIdentifierPart_of_mem h (.head _))).2.2 ?_
      rw [Text.isAsciiIdentifier, Bool.and_eq_true] at h
      exact h.1
    refine ⟨cons_ne_nil c t, ?_⟩
    rw [nameLength, if_pos first, nameLength_of_all parts, length_cons, Nat.add_comm]

end Identifiers

end Grammar

/-- A plain name and a line feed, which as a key are written without quotes. -/
def Render.losesLineFeed (k : Text) : Bool := k.getLast? == some (ofChar '\n') && Text.isAsciiIdentifier k.dropLast

/-- The key that is read where a key is written. -/
def Render.readKey (k : Text) : Text := if losesLineFeed k then k.dropLast else k

namespace Grammar

section Keys

variable {k : Text}

theorem losesLineFeed_iff : Render.losesLineFeed k ↔ ∃ name : Text, name.isAsciiIdentifier ∧ k = name ++ [ofChar '\n'] := by
  rw [Render.losesLineFeed, Bool.and_eq_true, beq_iff_eq]
  constructor
  · rintro ⟨last, name⟩
    exact ⟨k.dropLast, name, (dropLast_append_getLast? _ last).symm⟩
  · rintro ⟨name, plain, rfl⟩
    rw [getLast?_concat, dropLast_concat]
    exact ⟨rfl, plain⟩

theorem readKey_name (h : k.isAsciiIdentifier) : Render.readKey k = k := by
  refine if_neg fun loses => ?_
  obtain ⟨name, -, rfl⟩ := losesLineFeed_iff.mp loses
  have part := isIdentifierPart_of_mem h (mem_append_right name (.head _))
  revert part
  decide

/-- What is written for a key: the name that it is, the name and the line feed that it is, or its quoted text. -/
inductive WritesKey (k : Text) : Text → Prop
  | name (plain : k.isAsciiIdentifier) : WritesKey k k
  | line {name : Text} (plain : name.isAsciiIdentifier) (same : k = name ++ [ofChar '\n']) : WritesKey k (name ++ "\n")
  | quoted (keeps : Render.readKey k = k) : WritesKey k k.quoteAscii

theorem writesKey (k : Text) : WritesKey k (Render.key k) := by
  rw [Render.key]
  split
  next bare =>
    rcases Bool.or_eq_true_iff.mp bare with plain | loses
    · exact .name plain
    · obtain ⟨name, plain, same⟩ := losesLineFeed_iff.mp loses
      rw [same]
      exact .line plain rfl
  next quoted => exact .quoted (if_neg fun loses => quoted (Bool.or_eq_true_iff.mpr (.inr loses)))

/-- The token of a key before its colon. -/
structure LeadsKey (t : Text) (key : Text) (raw : Text) (token : Token) (rest : Text) : Prop where
  leads : Leads t token rest
  colon : ahead rest = ":" ++ raw
  plain : ∀ s, token ≠ .symbol s
  value : ∀ start, Member.keyText token start = .ok key

theorem leadsKey (unpaired : k.IsUnpaired) (raw : Text) :
    ∃ token rest, LeadsKey (Render.key k ++ (":" ++ raw)) (Render.readKey k) raw token rest := by
  have colon : ahead (":" ++ raw) = ":" ++ raw := ahead_bracket (by decide) raw
  have separate : IsSeparate (":" ++ raw) := isSeparate_mark (by decide) raw
  have written := writesKey k
  generalize Render.key k = t at written ⊢
  cases written with
  | name plain =>
    refine ⟨.word k, _, leads_word (isWord_of_isAsciiIdentifier plain) separate, colon, by rintro s ⟨⟩, fun start => ?_⟩
    rw [readKey_name plain]
    rfl
  | @line name plain same =>
    have after : IsSeparate ("\n" ++ (":" ++ raw)) := by
      rintro c ⟨⟩
      decide
    have cut : Render.readKey k = name := by
      rw [Render.readKey, if_pos (losesLineFeed_iff.mpr ⟨name, plain, same⟩), same, dropLast_concat]
    rw [append_assoc, cut]
    refine ⟨.word name, _, leads_word (isWord_of_isAsciiIdentifier plain) after, ?_, by rintro s ⟨⟩, fun start => rfl⟩
    exact ahead_cons_blank rfl (isSolid_bracket (by decide) raw)
  | quoted keeps =>
    refine ⟨.string k.quoteAscii, _, leads_quoted k _, colon, by rintro s ⟨⟩, fun start => ?_⟩
    rw [keeps, Member.keyText, Literal.string_quoteAscii, (Text.joinSurrogates_eq_self_iff k).mpr unpaired]

theorem isSolid_key (k raw : Text) : IsSolid (Render.key k ++ raw) := by
  have written := writesKey k
  generalize Render.key k = t at written ⊢
  cases written with
  | name plain => exact ((isWord_of_isAsciiIdentifier plain).firm.append raw).solid
  | line plain same => exact (((isWord_of_isAsciiIdentifier plain).firm.append _).append raw).solid
  | quoted keeps => exact isSolid_cons (by decide) (by decide) _

theorem legal_name {t : Text} (h : t.isAsciiIdentifier) : t.all isLegal :=
  all_eq_true.mpr fun _ member => (isNamePart_of_isIdentifierPart (isIdentifierPart_of_mem h member)).2.1

theorem isLegal_of_ascii {c : CodePoint} (low : 0 < c.toNat) (high : c.toNat < 128) : c.isLegal := by
  rw [isLegal, CodePoint.isSurrogate, CodePoint.isHighSurrogate, CodePoint.isLowSurrogate]
  simp
  omega

theorem isLegal_of_isHexDigit {c : CodePoint} (h : c.isHexDigit) : c.isLegal := by
  simp only [CodePoint.isHexDigit, CodePoint.isDigit, CodePoint.isBetween, Bool.or_eq_true, Bool.and_eq_true, decide_eq_true_eq] at h
  rcases h with (digit | lower) | upper
  · exact isLegal_of_ascii (Nat.lt_of_lt_of_le (by decide) digit.1) (Nat.lt_of_le_of_lt digit.2 (by decide))
  · exact isLegal_of_ascii (Nat.lt_of_lt_of_le (by decide) lower.1) (Nat.lt_of_le_of_lt lower.2 (by decide))
  · exact isLegal_of_ascii (Nat.lt_of_lt_of_le (by decide) upper.1) (Nat.lt_of_le_of_lt upper.2 (by decide))

theorem legal_quoted (c : CodePoint) : (Literal.quoted c).all isLegal := by
  rw [Literal.quoted]
  split
  next e short =>
    have marks : ∀ e ∈ (["\\\"", "\\\\", "\\b", "\\f", "\\n", "\\r", "\\t"] : List Text), e.all isLegal := by decide
    exact marks e (mem_shortEscapes short)
  next =>
    split
    next printable =>
      rw [all_cons, isLegal_of_ascii (by omega) (by omega)]
      rfl
    next =>
      rw [Text.unitEscapes_eq, all_flatMap]
      refine all_eq_true.mpr fun u hu => ?_
      have digits := all_eq_true.mp (Literal.hex_four (Text.toNat_lt_of_mem_units hu)).2.1
      rw [Text.unitEscape, all_cons, all_cons, all_eq_true.mpr fun d hd => isLegal_of_isHexDigit (digits d hd)]
      rfl

theorem legal_key (k : Text) : (Render.key k).all isLegal := by
  have written := writesKey k
  generalize Render.key k = t at written ⊢
  cases written with
  | name plain => exact legal_name plain
  | line plain same =>
    rw [all_append, legal_name plain]
    rfl
  | quoted keeps =>
    rw [Literal.quoteAscii_eq, all_cons, all_append, all_flatMap, all_eq_true.mpr fun c _ => legal_quoted c]
    rfl

end Keys

end Grammar

end Unravel
