import Mathlib.Data.List.TakeWhile
import Mathlib.Tactic.FinCases
import Unravel.Grammar.Expression

/-! The tokens that a text starts with. A word keeps its extent before anything that cannot go on with it, and a symbol
   before anything that makes no longer symbol of it. -/
namespace Unravel

open List hiding get

variable {c : CodePoint} {n skip : Nat} {p : CodePoint → Bool} {token : Token} {more s : Text} {op : BinaryOp}

def BinaryOp.isKnown : BinaryOp → Bool
  | other _ => false
  | _ => true

def UnaryOp.isKnown : UnaryOp → Bool
  | other _ => false
  | _ => true

namespace Grammar

/-- What is left past blanks and comments. -/
def ahead (t : Text) : Text := t.drop (gap t).length

theorem Cursor.skip_rest (c : Cursor) (n : Nat) : (c.skip n).rest = c.rest.drop n := by
  induction n generalizing c with
  | zero => rfl
  | succ n ih =>
    obtain ⟨rest, place⟩ := c
    cases rest with
    | nil => rfl
    | cons x more => exact ih _

theorem Cursor.ahead_rest (c : Cursor) : c.ahead.rest = Grammar.ahead c.rest := c.skip_rest _

theorem take_eq (c : Cursor) : take c = (token? (ahead c.rest)).map fun found => (found.1, c.ahead.skip found.2) := by
  unfold take
  dsimp only [bind, StateT.bind, get, getThe, MonadStateOf.get, StateT.get, pure]
  dsimp only [Option.bind_some]
  rw [Cursor.ahead_rest]
  cases token? (ahead c.rest) with
  | none => rfl
  | some found => rfl

section Gaps

variable {t : Text}

/-- Neither a blank nor a comment comes first. -/
def IsSolid : Text → Prop
  | [] => True
  | c :: more => isBlank c = false ∧ (c = '/' → ∀ d ∈ more.head?, d ≠ '/' ∧ d ≠ '*')

theorem gapFrom_solid (settled : Gap) (seen : Nat) (h : IsSolid t) : gapFrom settled seen .blanks t = settled := by
  cases t with
  | nil => rfl
  | cons c more =>
    obtain ⟨word, comment⟩ := h
    rw [gapFrom, word]
    simp only [Bool.false_eq_true, if_false]
    split
    next slash =>
      cases more with
      | nil => rfl
      | cons d more =>
        obtain ⟨line, block⟩ := comment slash d rfl
        rw [gapFrom, if_neg line, if_neg block]
    next => rfl

theorem ahead_solid (h : IsSolid t) : ahead t = t := by
  rw [ahead, gap, gapFrom_solid _ _ h]
  rfl

theorem ahead_cons_blank (blank : isBlank c) (h : IsSolid t) : ahead (c :: t) = t := by
  have skipped : gap (c :: t) = gapFrom ⟨1, false⟩ 1 .blanks t := by rw [gap, gapFrom, if_pos blank]
  rw [ahead, skipped, gapFrom_solid _ _ h]
  rfl

theorem ahead_blank (h : IsSolid t) : ahead (" " ++ t) = t := ahead_cons_blank rfl h

end Gaps

section Words

variable {t u w : Text}

/-- A text that a word ends before. -/
def IsSeparate (t : Text) : Prop := ∀ c ∈ t.head?, isNamePart c = false ∧ c ≠ '\\'

/-- One whole word. -/
structure IsWord (w : Text) : Prop where
  nonempty : w ≠ []
  whole : nameLength isNameStart 0 w = w.length

theorem isNamePart_of_isNameStart (h : isNameStart c) : isNamePart c := (Bool.and_eq_true_iff.mp h).1

theorem braced?_eq_some_iff {run : Text} : Literal.braced? t = some run ↔
    run ≠ [] ∧ run.all CodePoint.isHexDigit ∧ ∃ more, t = ofChar '\x7b' :: (run ++ ofChar '\x7d' :: more) := by
  constructor
  · intro h
    cases t with
    | nil => cases h
    | cons opening more =>
      rw [Literal.braced?] at h
      split at h
      next braces =>
        cases h
        obtain ⟨rfl, filled, closing⟩ := braces
        refine ⟨by simpa using filled, all_takeWhile, ?_⟩
        obtain ⟨after, rest⟩ := head?_eq_some_iff.mp closing
        refine ⟨after, ?_⟩
        have split := take_append_drop (more.takeWhile CodePoint.isHexDigit).length more
        rw [rest, ← prefix_iff_eq_take.mp (List.takeWhile_prefix _)] at split
        exact congrArg _ split.symm
      next => cases h
  · rintro ⟨filled, digits, more, rfl⟩
    have all : ∀ c ∈ run, c.isHexDigit := all_eq_true.mp digits
    have extent : (run ++ ofChar '\x7d' :: more).takeWhile CodePoint.isHexDigit = run := by
      rw [takeWhile_append_of_pos all, takeWhile_cons_of_neg (by decide), append_nil]
    rw [Literal.braced?, extent, if_pos]
    exact ⟨rfl, by simpa using filled, by simp⟩

/-- The digits of an escape after its letter. -/
def IsEscape (body : Text) : Prop :=
  (∃ run : Text, run ≠ [] ∧ run.all CodePoint.isHexDigit ∧ body = ofChar '\x7b' :: (run ++ [ofChar '\x7d'])) ∨
    body.length = 4 ∧ body.all CodePoint.isHexDigit

theorem unitEscape?_eq_some_iff : unitEscape? t = some n ↔
    ∃ body more, IsEscape body ∧ t = ofChar 'u' :: (body ++ more) ∧ n = body.length + 1 := by
  constructor
  · intro h
    cases t with
    | nil => cases h
    | cons letter more =>
      rw [unitEscape?] at h
      split at h
      next => cases h
      next plain =>
        rw [not_not] at plain
        cases braced : Literal.braced? more with
        | some run =>
          rw [braced] at h
          cases h
          obtain ⟨filled, digits, after, rfl⟩ := braced?_eq_some_iff.mp braced
          exact ⟨_, after, .inl ⟨run, filled, digits, rfl⟩, by simp [plain], by simp⟩
        | none =>
          cases exact : Literal.exactly? 4 CodePoint.isHexDigit more with
          | none =>
            rw [braced, exact] at h
            cases h
          | some digits =>
            rw [braced, exact] at h
            cases h
            rw [Literal.exactly?] at exact
            split at exact
            next four => exact ⟨more.take 4, more.drop 4, .inr four, by rw [plain, take_append_drop], by rw [four.1]⟩
            next => cases exact
  · rintro ⟨body, more, escape, rfl, rfl⟩
    rw [unitEscape?, if_neg (not_not.mpr rfl)]
    rcases escape with ⟨run, filled, digits, rfl⟩ | ⟨four, digits⟩
    · have braced : Literal.braced? (ofChar '\x7b' :: (run ++ [ofChar '\x7d']) ++ more) = some run :=
        braced?_eq_some_iff.mpr ⟨filled, digits, more, by simp⟩
      rw [braced]
      simp
    · have taken : (body ++ more).take 4 = body := by rw [← four, take_left]
      have exact : Literal.exactly? 4 CodePoint.isHexDigit (body ++ more) = some body := by
        rw [Literal.exactly?, taken, if_pos ⟨four, digits⟩]
      have unbraced : Literal.braced? (body ++ more) = none := by
        cases braced : Literal.braced? (body ++ more) with
        | none => rfl
        | some run =>
          obtain ⟨-, -, after, same⟩ := braced?_eq_some_iff.mp braced
          cases body with
          | nil => cases four
          | cons c body =>
            rw [cons_append, List.cons.injEq] at same
            rw [same.1, all_cons] at digits
            cases digits
      rw [unbraced, exact, four]

theorem unitEscape?_of_prefix (h : unitEscape? t = some n) (same : t.take n <+: u) : unitEscape? u = some n := by
  obtain ⟨body, more, escape, rfl, rfl⟩ := unitEscape?_eq_some_iff.mp h
  obtain ⟨after, rfl⟩ := same
  refine unitEscape?_eq_some_iff.mpr ⟨body, after, escape, ?_, rfl⟩
  simp

theorem unitEscape?_le_length (h : unitEscape? t = some n) : n ≤ t.length := by
  obtain ⟨body, more, -, rfl, rfl⟩ := unitEscape?_eq_some_iff.mp h
  simp

theorem nameLength_append (part : ∀ c, p c → isNamePart c) (room : skip ≤ w.length)
    (whole : nameLength p skip w = w.length) (after : IsSeparate t) : nameLength p skip (w ++ t) = w.length := by
  induction w generalizing p skip with
  | nil =>
    cases Nat.le_zero.mp room
    cases t with
    | nil => rfl
    | cons c more =>
      obtain ⟨ends, escape⟩ := after c rfl
      have other : ¬p c := fun passes => by simp [part c passes] at ends
      rw [nil_append, nameLength, if_neg other, if_neg escape]
      rfl
  | cons c more ih =>
    have same : ∀ c, isNamePart c → isNamePart c := fun _ => id
    rw [length_cons] at room whole ⊢
    cases skip with
    | succ skip =>
      rw [nameLength] at whole
      rw [cons_append, nameLength, ih part (by omega) (by omega), Nat.add_comm]
    | zero =>
      rw [nameLength] at whole
      rw [cons_append, nameLength]
      split
      next passes =>
        rw [if_pos passes] at whole
        rw [ih same (Nat.zero_le _) (by omega), Nat.add_comm]
      next fails =>
        rw [if_neg fails] at whole
        split
        next backslash =>
          rw [if_pos backslash] at whole
          cases escape : unitEscape? more with
          | none => simp [escape] at whole
          | some n =>
            have room := unitEscape?_le_length escape
            have again : unitEscape? (more ++ t) = some n :=
              unitEscape?_of_prefix escape ((List.take_prefix n more).trans (prefix_append more t))
            rw [escape] at whole
            rw [again]
            dsimp only at whole ⊢
            rw [ih same room (by omega), Nat.add_comm]
        next other =>
          rw [if_neg other] at whole
          cases whole

theorem le_nameLength (room : skip ≤ t.length) : skip ≤ nameLength p skip t := by
  induction t generalizing p skip with
  | nil => exact room
  | cons c more ih =>
    cases skip with
    | zero => exact Nat.zero_le _
    | succ skip =>
      have further := ih (p := p) (Nat.le_of_succ_le_succ room)
      rw [nameLength]
      omega

theorem nameLength_take (room : skip ≤ t.length) :
    nameLength p skip (t.take (nameLength p skip t)) = nameLength p skip t := by
  induction t generalizing p skip with
  | nil => cases skip <;> rfl
  | cons c more ih =>
    cases skip with
    | succ skip =>
      rw [nameLength, Nat.add_comm 1, take_succ_cons, nameLength, ih (Nat.le_of_succ_le_succ room), Nat.add_comm 1]
    | zero =>
      rw [nameLength]
      split
      next passes =>
        rw [Nat.add_comm, take_succ_cons, nameLength, if_pos passes, ih (Nat.zero_le _), Nat.add_comm]
      next fails =>
        split
        next backslash =>
          cases escape : unitEscape? more with
          | none => rfl
          | some n =>
            have room := unitEscape?_le_length escape
            have again : unitEscape? (more.take (nameLength isNamePart n more)) = some n :=
              unitEscape?_of_prefix escape (take_prefix_take_left (le_nameLength room))
            dsimp only
            rw [Nat.add_comm, take_succ_cons, nameLength, if_neg fails, if_pos backslash, again]
            dsimp only
            rw [ih room, Nat.add_comm]
        next => rfl

theorem nameLength_le_length (p : CodePoint → Bool) (skip : Nat) (t : Text) : nameLength p skip t ≤ t.length := by
  fun_induction nameLength p skip t with
  | case1 | case5 | case6 => exact Nat.zero_le _
  | case2 _ _ _ more ih | case3 _ _ more _ ih | case4 _ _ _ _ _ ih =>
    rw [length_cons]
    omega

theorem isWord_take (h : nameLength isNameStart 0 t = n + 1) : IsWord (t.take (n + 1)) := by
  have taken := nameLength_take (p := isNameStart) (Nat.zero_le t.length)
  have least := nameLength_le_length isNameStart 0 (t.take (n + 1))
  have most := length_take_le (n + 1) t
  rw [h] at taken
  refine ⟨fun empty => ?_, by omega⟩
  rw [empty] at taken
  cases taken

end Words

/-- The token at the start of a text. -/
def next? (t : Text) : Option Token := (token? t).map (·.1)

/-- A text starts with a token, after which the rest follows. -/
def Leads (t : Text) (token : Token) (rest : Text) : Prop := ∃ n, token? t = some (token, n) ∧ t.drop n = rest

section Tokens

variable {t w rest : Text}

theorem Leads.next? (h : Leads t token rest) : next? t = some token := by
  obtain ⟨n, found, -⟩ := h
  rw [Grammar.next?, found]
  rfl

theorem Leads.unique {other : Token} (h : Leads t token rest) (h' : Leads t other more) : rest = more := by
  obtain ⟨n, found, rfl⟩ := h
  obtain ⟨m, found', rfl⟩ := h'
  cases found.symm.trans found'
  rfl

theorem leads_word (word : IsWord w) (after : IsSeparate rest) : Leads (w ++ rest) (.word w) rest := by
  have extent := nameLength_append (fun _ => isNamePart_of_isNameStart) (Nat.zero_le _) word.whole after
  have taken : (w ++ rest).take w.length = w := take_left
  refine ⟨w.length, ?_, drop_left⟩
  obtain ⟨c, more, rfl⟩ := exists_cons_of_ne_nil word.nonempty
  rw [cons_append] at extent taken ⊢
  rw [token?, extent]
  dsimp only [length_cons] at taken ⊢
  rw [taken]

/-- Characters with which nothing but a symbol starts. -/
def marks : Text := ":;,|^&<=>+-*/%?!~()[]\x7b\x7d"

theorem numberLength_eq_zero (digit : c.isDigit = false)
    (point : c = '.' → digitRun CodePoint.isDigit more = 0) : numberLength (c :: more) = 0 := by
  have zero : c ≠ '0' := by
    rintro rfl
    cases digit
  have none_digit : ∀ t, digitRun (fun _ => false) t = 0 := by
    intro t
    cases t <;> rfl
  have radix : Literal.radix? (c :: more) = none := by
    cases more with
    | nil => rfl
    | cons d more => rw [Literal.radix?, if_pos zero]
  have whole : wholeLength (c :: more) = 0 := by
    cases more with
    | nil => simp [wholeLength, digit]
    | cons d more => simp [wholeLength, zero, digitRun, digit]
  have plain : digitRun CodePoint.isDigit (c :: more) = 0 := by simp [digitRun, digit]
  have decimal : decimalLength (c :: more) = 0 := by
    rw [decimalLength, whole, drop_zero]
    split
    next => rfl
    next d rest same =>
      cases same
      split
      next here => simp [point here]
      next => rfl
  have marked : radixLength (c :: more) = 0 := by simp [radixLength, radix, none_digit]
  simp [numberLength, marked, plain, decimal]

theorem token?_mark (mark : c ∈ marks) :
    token? (c :: more) = (symbol? (c :: more)).map fun s => (.symbol s, s.length) := by
  have plain : isNameStart c = false ∧ c ≠ '\\' ∧ c.isDigit = false ∧ c ≠ '.' ∧
      c ≠ '"' ∧ c ≠ '\'' ∧ c ≠ '#' := by
    revert c
    decide
  obtain ⟨start, escape, digit, point, double, single, hash⟩ := plain
  have word : nameLength isNameStart 0 (c :: more) = 0 := by
    rw [nameLength, start]
    simp [escape]
  rw [token?, word, numberLength_eq_zero digit fun here => absurd here point]
  simp [double, single, hash]

theorem symbol?_starts (h : symbol? t = some s) : s <+: t := by
  rw [symbol?] at h
  split at h
  next found first =>
    have starts : t.startsWith found := find?_some first
    rw [Text.startsWith, List.isPrefixOf_iff_prefix] at starts
    split at h
    next both =>
      cases h
      rw [both.1] at starts
      have shorter : ("?" : Text) <+: ("?." : Text) := ⟨".", rfl⟩
      exact shorter.trans starts
    next =>
      cases h
      exact starts
  next => cases h

theorem leads_symbol (mark : ∀ c ∈ s.head?, c ∈ marks) (filled : s ≠ []) (found : symbol? (s ++ rest) = some s) :
    Leads (s ++ rest) (.symbol s) rest := by
  refine ⟨s.length, ?_, drop_left⟩
  obtain ⟨c, more, rfl⟩ := exists_cons_of_ne_nil filled
  rw [cons_append] at found ⊢
  rw [token?_mark (mark c rfl), found]
  rfl

/-- Symbols that no other one starts with. -/
def brackets : List Text := ["(", ")", "[", "]", "\x7b", "\x7d", ",", ":"]

theorem leads_bracket (h : s ∈ brackets) (rest : Text) : Leads (s ++ rest) (.symbol s) rest := by
  have fixed : ∀ s ∈ brackets, symbol? (s ++ rest) = some s := by
    intro s hs
    fin_cases hs <;> rfl
  have shape : ∀ s ∈ brackets, s ≠ [] ∧ ∀ c ∈ s.head?, c ∈ marks := by decide
  exact leads_symbol (shape s h).2 (shape s h).1 (fixed s h)

/-- How a token and its length come from the start of a text. -/
def Token.Heads (t : Text) (n : Nat) : Token → Prop
  | .word w => ∃ k, nameLength isNameStart 0 t = k + 1 ∧ w = t.take (k + 1)
  | .number u => 0 < numberLength t ∧ u = t.take (numberLength t)
  | .symbol s => s <+: t ∧ n = s.length
  | _ => True

theorem heads_of_token? (h : token? t = some (token, n)) : token.Heads t n := by
  cases t with
  | nil => cases h
  | cons c more =>
    rw [token?] at h
    split at h
    next k length =>
      cases h
      exact ⟨k, length, rfl⟩
    next =>
      split at h
      next k length =>
        cases h
        rw [Token.Heads, length]
        exact ⟨Nat.succ_pos k, rfl⟩
      next =>
        split at h
        next =>
          obtain ⟨k, -, same⟩ := Option.map_eq_some_iff.mp h
          cases same
          trivial
        next =>
          split at h
          next =>
            split at h <;> cases h
            trivial
          next =>
            obtain ⟨k, symbol, same⟩ := Option.map_eq_some_iff.mp h
            cases same
            exact ⟨symbol?_starts symbol, rfl⟩

theorem prefix_of_next? (h : next? t = some (.symbol s)) : s <+: t := by
  obtain ⟨⟨token, n⟩, found, same⟩ := Option.map_eq_some_iff.mp h
  cases same
  exact (heads_of_token? found).1

theorem Leads.eq_append (h : Leads t (.symbol s) rest) : t = s ++ rest := by
  obtain ⟨n, found, rfl⟩ := h
  obtain ⟨⟨more, rfl⟩, rfl⟩ := heads_of_token? found
  rw [drop_left]

theorem ne_nil_of_mem_symbols (h : s ∈ symbols) : s ≠ [] := by
  have all : ∀ s ∈ symbols, s ≠ [] := by decide
  exact all s h

theorem symbol?_single {d : CodePoint} (member : [d] ∈ symbols) (ends : ∀ c ∈ rest.head?, ∀ s ∈ symbols, ¬[d, c] <+: s) :
    symbol? (d :: rest) = some [d] := by
  have found : symbols.find? (fun s => Text.startsWith (d :: rest) s) = some [d] := by
    cases first : symbols.find? fun s => Text.startsWith (d :: rest) s with
    | none =>
      have missing := find?_eq_none.mp first [d] member
      exact absurd (List.isPrefixOf_iff_prefix.mpr ⟨rest, rfl⟩) missing
    | some s =>
      have known := mem_of_find?_eq_some first
      have starts : Text.startsWith (d :: rest) s := find?_some first
      obtain ⟨e, more, rfl⟩ := exists_cons_of_ne_nil (ne_nil_of_mem_symbols known)
      obtain ⟨rfl, more_prefix⟩ := cons_prefix_cons.mp (List.isPrefixOf_iff_prefix.mp starts)
      cases more with
      | nil => rfl
      | cons c more =>
        obtain ⟨after, rfl⟩ := more_prefix
        exact absurd ⟨more, rfl⟩ (ends c rfl (e :: c :: more) known)
  have pair : [d] ≠ ("?." : Text) := by
    intro same
    cases congrArg List.length same
  rw [symbol?, found]
  exact if_neg fun both => pair both.1

/-- The symbols of operators that stand before their operand. -/
def signs : List Text := ["-", "+", "!", "~"]

/-- A sign before its operand; a repeated plus or minus would be another symbol. -/
theorem leads_sign {sign : Text} (h : sign ∈ signs)
    (other : ∀ c ∈ rest.head?, c ≠ '=' ∧ ([c] = sign → sign ≠ "-" ∧ sign ≠ "+")) :
    Leads (sign ++ rest) (.symbol sign) rest := by
  have longer : ∀ sign ∈ signs, ∀ s ∈ symbols, sign <+: s → ∀ c ∈ (s.drop 1).head?,
      c = '=' ∨ [c] = sign ∧ (sign = "-" ∨ sign = "+") := by
    decide
  have shape : ∀ sign ∈ signs, sign ∈ symbols ∧ sign ≠ [] ∧ sign.length = 1 ∧ ∀ c ∈ sign.head?, c ∈ marks := by
    decide
  obtain ⟨member, filled, single, mark⟩ := shape sign h
  obtain ⟨d, rfl⟩ := length_eq_one_iff.mp single
  refine leads_symbol mark filled (symbol?_single member fun c hc s hs starts => ?_)
  obtain ⟨more, rfl⟩ := starts
  obtain ⟨notEquals, notTwice⟩ := other c hc
  rcases longer [d] h _ hs ⟨c :: more, rfl⟩ c rfl with equals | ⟨twice, minus | plus⟩
  · exact notEquals equals
  · exact (notTwice twice).1 minus
  · exact (notTwice twice).2 plus

/-- A point before a name is no part of a number. -/
theorem leads_point (digit : c.isDigit = false) (point : c ≠ '.') :
    Leads ("." ++ (c :: more)) (.symbol ".") (c :: more) := by
  have longer : ∀ s ∈ symbols, ("." : Text) <+: s → ∀ c ∈ (s.drop 1).head?, c = '.' := by
    decide
  have fraction : digitRun CodePoint.isDigit (c :: more) = 0 := by simp [digitRun, digit]
  have number : numberLength ('.' :: c :: more) = 0 := numberLength_eq_zero rfl fun _ => fraction
  have word : nameLength isNameStart 0 ('.' :: c :: more) = 0 := rfl
  have symbol : symbol? ('.' :: c :: more) = some "." := by
    refine symbol?_single (by decide) ?_
    rintro _ ⟨⟩ s hs ⟨after, rfl⟩
    exact point (longer _ hs ⟨c :: after, rfl⟩ c rfl)
  refine ⟨1, ?_, rfl⟩
  change token? ('.' :: c :: more) = _
  rw [token?, word, number]
  dsimp only
  rw [if_neg (by decide), if_neg (by decide), symbol]
  rfl

theorem isSeparate_blank (rest : Text) : IsSeparate (" " ++ rest) := by
  rintro c ⟨⟩
  decide

theorem isSeparate_mark (h : c ∈ marks ∨ c = '.') (rest : Text) : IsSeparate (c :: rest) := by
  have plain : ∀ c ∈ ofChar '.' :: marks, isNamePart c = false ∧ c ≠ '\\' := by
    decide
  rintro _ ⟨⟩
  exact plain c (mem_cons.mpr h.symm)

theorem IsWord.head (word : IsWord w) : ∃ c more, w = c :: more ∧ (isNameStart c ∨ c = '\\') := by
  obtain ⟨c, more, rfl⟩ := exists_cons_of_ne_nil word.nonempty
  refine ⟨c, more, rfl, ?_⟩
  have whole := word.whole
  rw [nameLength, length_cons] at whole
  by_cases start : isNameStart c
  · exact .inl start
  · rw [if_neg start] at whole
    by_cases escape : c = '\\'
    · exact .inr escape
    · rw [if_neg escape] at whole
      cases whole

end Tokens

section Operators

/-- The token that an operator between two operands is written with. -/
def operatorToken (op : BinaryOp) : Token :=
  if op = .membership ∨ op = .instanceOf then .word op.symbol else .symbol op.symbol

theorem leads_operator (known : op.isKnown) (rest : Text) :
    Leads (op.symbol ++ (" " ++ rest)) (operatorToken op) (" " ++ rest) := by
  cases op with
  | other s => cases known
  | membership | instanceOf => exact leads_word ⟨by decide, by decide⟩ (isSeparate_blank rest)
  | _ => exact leads_symbol (by decide) (by decide) rfl

/-- The operators of an assignment. -/
def assignments : List Text := "=" :: compoundAssignments

theorem leads_assignment {op : Text} (h : op ∈ assignments) (rest : Text) :
    Leads (op ++ (" " ++ rest)) (.symbol op) (" " ++ rest) := by
  have shape : ∀ op ∈ assignments, op ≠ [] ∧ ∀ c ∈ op.head?, c ∈ marks := by decide
  have found : symbol? (op ++ (" " ++ rest)) = some op := by
    fin_cases h <;> rfl
  exact leads_symbol (shape op h).2 (shape op h).1 found

theorem leads_question (rest : Text) : Leads ("?" ++ (" " ++ rest)) (.symbol "?") (" " ++ rest) :=
  leads_symbol (by decide) (by decide) rfl

theorem binaryOp?_operatorToken (known : op.isKnown) : binaryOp? (operatorToken op) = some op := by
  cases op with
  | other s => cases known
  | _ => rfl

theorem isKnown_of_binaryOp? (h : binaryOp? token = some op) : op.isKnown := by
  cases op with
  | other s =>
    unfold binaryOp? at h
    split at h
    all_goals first | cases h | skip
    all_goals
      split at h
      next => cases h
      next other => exact absurd (Option.some.inj h) (other s)
  | _ => rfl

theorem isKnown_of_unaryOp? {op : UnaryOp} (h : unaryOp? token = some op) : op.isKnown := by
  cases op with
  | other s =>
    unfold unaryOp? at h
    split at h
    all_goals first | cases h | skip
    all_goals
      split at h
      next => cases h
      next other => exact absurd (Option.some.inj h) (other s)
  | _ => rfl

end Operators

end Grammar

end Unravel
