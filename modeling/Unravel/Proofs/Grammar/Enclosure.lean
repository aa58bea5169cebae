import Unravel.Proofs.Grammar.Whole

/-! What no operator makes is read without operators, and what is a function inside its parentheses is read as nothing but a function
   and parentheses: none of the readers on the way from an expression to it adds to it or takes more of the text. -/
namespace Unravel.Grammar

open List

variable {c next : Cursor} {p : Phrase} {α : Type} {n : Nat} {mayEnd : Bool}

section Reduces

variable {α β : Type} {G : α → Prop} {H : β → Prop} {r s u : Reader α} {f g : α → Reader β}

/-- What a reader reads with some property, another one reads in the same place. -/
def Reduces (G : α → Prop) (r s : Reader α) : Prop := ∀ c a next, r c = some (a, next) → G a → s c = some (a, next)

theorem Reduces.refl (r : Reader α) : Reduces G r r := fun _ _ _ read _ => read

theorem Reduces.trans (h : Reduces G r s) (h' : Reduces G s u) : Reduces G r u :=
  fun c a next read good => h' c a next (h c a next read good) good

theorem reduces_of_yields (h : Yields r fun a => ¬G a) : Reduces G r s :=
  fun c a next read good => absurd good (h c a next read)

theorem Reduces.orElse (h : Reduces G r u) (h' : Reduces G s u) : Reduces G (r <|> s) u := by
  intro c a next read
  exact (orElse_eq_some read).elim (h c a next) (h' c a next)

theorem Reduces.ite {p : Prop} [Decidable p] (yes : Reduces G r u) (no : Reduces G s u) : Reduces G (if p then r else s) u := by
  split
  · exact yes
  · exact no

theorem Reduces.bind (h : Reduces G r s) (back : ∀ a, Yields (f a) fun b => H b → G a) (further : ∀ a, Reduces H (f a) (g a)) :
    Reduces H (r >>= f) (s >>= g) := by
  intro c b next read good
  obtain ⟨⟨a, between⟩, first, second⟩ := Option.bind_eq_some_iff.mp read
  exact Option.bind_eq_some_iff.mpr
    ⟨(a, between), h c a between first (back a between b next second good), further a between b next second good⟩

theorem Reduces.after {k : Reader α} (further : ∀ a, Reduces H (f a) (g a)) : Reduces H (k >>= f) (k >>= g) :=
  (Reduces.refl (G := fun _ => True) k).bind (fun _ _ _ _ _ _ => trivial) further

theorem Reduces.then {k : α → Reader α} (further : ∀ a, Reduces G (k a) (pure a)) : Reduces G (r >>= k) r := by
  intro c b next read good
  obtain ⟨⟨a, between⟩, first, second⟩ := Option.bind_eq_some_iff.mp read
  cases further a between b next second good
  exact first

theorem Looks.reduces {L : Text → α → Prop} {u : Reader β} (h : Looks r L) (further : ∀ a, Reduces H (f a) u) :
    Reduces H (r >>= f) u := by
  intro c b next read
  obtain ⟨a, -, rest⟩ := h.run read
  exact further a c b next rest

theorem looks_require (b : Bool) : Looks (require b) fun _ _ => b = true := by
  rw [require]
  split
  next holds =>
    rintro c a next ⟨⟩
    exact ⟨rfl, holds⟩
  next => rintro c a next ⟨⟩

end Reduces

/-- A function, perhaps in parentheses. -/
def Phrase.IsFunction (p : Phrase) : Prop := p.core = "function_expression"

section Functions

variable {r : Readers}

theorem not_isFunction (kind : String) (core : p.core = kind) (other : (kind : Text) ≠ "function_expression") :
    ¬p.IsFunction := fun h => other (core.symm.trans h)

theorem memberOf_other (p : Phrase) (isOptional : Bool) : Yields (Readers.memberOf p isOptional) fun q => ¬q.IsFunction := by
  refine .after fun place => .after fun token => ?_
  cases token with
  | word w => exact .pure (not_isFunction "member_expression" rfl (by decide))
  | privateName w => exact .pure (not_isFunction "member_expression" rfl (by decide))
  | _ => exact .failure

theorem indexOf_other (p : Phrase) (isOptional : Bool) : Yields (r.indexOf p isOptional) fun q => ¬q.IsFunction :=
  .after fun _ => .after fun _ => .after fun _ =>
    .pure (not_isFunction "subscript_expression" rfl (by decide))

theorem callOf_other (p : Phrase) (isOptional : Bool) : Yields (r.callOf p isOptional) fun q => ¬q.IsFunction :=
  .after fun _ => .after fun _ => .pure (not_isFunction "call_expression" rfl (by decide))

/-- After a function either nothing is added to it or it is one no more. -/
theorem suffix?_reduces (calls mayEnd : Bool) (p : Phrase) :
    Reduces (fun next => ∀ q ∈ next, q.IsFunction) (r.suffix? calls mayEnd p) (pure none) := by
  have other : ∀ {reader : Reader Phrase}, Yields reader (fun q => ¬q.IsFunction) →
      Yields (do return some (← reader)) fun next => ¬∀ q ∈ next, q.IsFunction :=
    fun reads => reads.bind fun q not => .pure fun all => not (all q rfl)
  refine (looks_isOver mayEnd).reduces fun finished => .ite (.refl _) (looks_peek.reduces fun token => ?_)
  split
  next s =>
    refine .ite (reduces_of_yields (.after fun _ => other (memberOf_other p false))) ?_
    refine .ite (reduces_of_yields (other (indexOf_other p false))) (.ite (reduces_of_yields ?_) ?_)
    · refine .after fun place => .after fun _ => .pure fun all => ?_
      exact not_isFunction "call_expression" rfl (by decide) (all _ rfl)
    refine .ite (.refl _) (.ite (reduces_of_yields (other (callOf_other p false))) ?_)
    refine .ite (reduces_of_yields (.after fun _ => .after fun _ => ?_)) ?_
    · refine .ite (other (indexOf_other p true)) (.after fun _ => ?_)
      exact .ite (other (callOf_other p true)) (other (memberOf_other p true))
    refine .ite (reduces_of_yields (.after fun _ => .pure fun all => ?_)) (.refl _)
    exact not_isFunction "update_expression" rfl (by decide) (all _ rfl)
  next => exact .refl _

theorem suffixes_reduces (calls mayEnd : Bool) (n : Nat) (p : Phrase) :
    Reduces Phrase.IsFunction (r.suffixes calls mayEnd n p) (pure p) := by
  induction n generalizing p with
  | zero => exact reduces_of_yields .failure
  | succ n ih =>
    refine (suffix?_reduces calls mayEnd p).bind (fun next => ?_) fun next => .refl _
    cases next with
    | none => exact .pure fun _ => nofun
    | some q =>
      refine .after fun _ c a last read function => ?_
      cases ih q c a last read function
      rintro b ⟨⟩
      exact function

theorem construction_other (n : Nat) : Yields (r.construction n) fun p => ¬p.IsFunction := by
  cases n with
  | zero => exact .failure
  | succ n =>
    refine .after fun start => .after fun _ => .after fun point => .ite ?_ (.after fun again => ?_)
    · exact .after fun _ => .pure (not_isFunction "meta_property" rfl (by decide))
    have rest : Yields (do
        if ← isNextSymbol "(" then
          symbol "("
          let _ ← r.arguments
        return Phrase.foreign "new_expression" start) fun p => ¬p.IsFunction := by
      have made : ¬(Phrase.foreign "new_expression" start).IsFunction := not_isFunction "new_expression" rfl (by decide)
      refine .after fun more => .ite ?_ (.pure made)
      exact .after fun _ => .after fun _ => .pure made
    exact .ite (.after fun _ => rest) (.after fun _ => .after fun _ => rest)

theorem access_reduces (mayEnd : Bool) : Reduces Phrase.IsFunction (r.access mayEnd) (r.primary mayEnd) := by
  refine (looks_isNext _).reduces fun new => ?_
  cases new with
  | true =>
    refine reduces_of_yields ((construction_other r.bound).bind fun head other c a next read function => ?_)
    cases suffixes_reduces true mayEnd r.bound head c a next read function
    exact other function
  | false => exact .then fun head => suffixes_reduces true mayEnd r.bound head

end Functions

/-- A property of no phrase that an operator makes. -/
structure Tight (G : Phrase → Prop) : Prop where
  foreign (kind : Text) (other : kind ≠ "function_expression") (start : Position) : ¬G (.foreign kind start)
  assign (target : Phrase) (op : Text) (value : Phrase) : ¬G (.assign target op value)
  unary (op : UnaryOp) (start : Position) (operand : Phrase) : ¬G (.unary op start operand)
  binary (left : Phrase) (op : BinaryOp) (right : Phrase) : ¬G (.binary left op right)
  conditional (test yes no : Phrase) : ¬G (.conditional test yes no)
  sequence (first second : Phrase) (others : List Phrase) : ¬G (.sequence first (second :: others))

theorem tight_isFunction : Tight Phrase.IsFunction where
  foreign _ other _ := other
  assign _ op _ function := by
    have kind : (if op = "=" then ("assignment_expression" : Text) else "augmented_assignment_expression") = "function_expression" :=
      function
    split at kind <;> exact absurd kind (by decide)
  unary _ _ _ := not_isFunction "unary_expression" rfl (by decide)
  binary _ _ _ := not_isFunction "binary_expression" rfl (by decide)
  conditional _ _ _ := not_isFunction "ternary_expression" rfl (by decide)
  sequence _ _ _ := not_isFunction "sequence_expression" rfl (by decide)

section Tight

variable {r : Readers} {G : Phrase → Prop} (tight : Tight G)

theorem chain_reduces (mayEnd : Bool) (n : Nat) : Reduces (· = []) (r.chain mayEnd n) (pure []) := by
  cases n with
  | zero => exact reduces_of_yields .failure
  | succ n =>
    refine (looks_isOver mayEnd).reduces fun finished => .ite (.refl _) (looks_peek.reduces fun token => ?_)
    split
    next op _ =>
      exact reduces_of_yields (.after fun _ => .after fun _ => .after fun _ => .after fun _ =>
        .pure (cons_ne_nil _ _))
    next => exact .refl _

include tight

theorem assignable_reduces (mayEnd : Bool) : Reduces G (r.assignable mayEnd) (r.access mayEnd) := by
  refine .then fun p => looks_peek.reduces fun token => ?_
  split
  next s => exact .ite (reduces_of_yields (.after fun _ => .after fun value => .pure (tight.assign p s value))) (.refl _)
  next => exact .refl _

theorem operand_reduces (mayEnd : Bool) (n : Nat) : Reduces G (r.operand mayEnd n) (r.assignable mayEnd) := by
  cases n with
  | zero => exact reduces_of_yields .failure
  | succ n =>
    refine looks_position.reduces fun start => looks_peek.reduces fun token => ?_
    have signed : ∀ op : UnaryOp, Reduces G (do
        let _ ← take
        let p ← r.operand mayEnd n
        require p.isExpression
        return .unary op start p) (r.assignable mayEnd) := fun op =>
      reduces_of_yields (.after fun _ => .after fun p => .after fun _ => .pure (tight.unary op start p))
    split
    next =>
      exact reduces_of_yields (.after fun _ => .after fun _ => .after fun _ => .after fun _ =>
        .pure (tight.foreign _ (by decide) _))
    next w =>
      refine .ite (reduces_of_yields ?_) (.ite (.orElse (reduces_of_yields ?_) (.refl _)) ?_)
      · have made : ∀ start, ¬G (.foreign "yield_expression" start) := tight.foreign _ (by decide)
        refine .after fun place => .after fun _ => .after fun _ => .ite ?_ (.pure (made place))
        refine .after fun _ => .ite ?_ ?_ <;> exact .after fun _ => .pure (made place)
      · exact .after fun _ => .after fun _ => .after fun _ => .after fun _ => .after fun _ =>
          .pure (tight.foreign _ (by decide) _)
      · split
        next op _ => exact signed op
        next => exact .refl _
    next s =>
      refine .ite (reduces_of_yields ?_) ?_
      · exact .after fun _ => .after fun _ => .after fun _ => .pure (tight.foreign _ (by decide) _)
      · split
        next op _ => exact signed op
        next => exact .refl _
    next => exact .refl _

end Tight

theorem Chain.exists_join (join : α → BinaryOp → α → α) (first : α) {tail : List (BinaryOp × α)} (some : tail ≠ []) :
    ∃ left op right, group join first tail = join left op right := by
  have closing : ∀ (waiting : List (α × BinaryOp)) (w : α × BinaryOp) (last : α),
      ∃ left op right, close join (w :: waiting, last) = join left op right := by
    intro waiting
    induction waiting with
    | nil => exact fun w last => ⟨w.1, w.2, last, rfl⟩
    | cons v waiting ih => exact fun w last => ih v (join w.1 w.2 last)
  obtain ⟨init, next, rfl⟩ := (eq_nil_or_concat' tail).resolve_left some
  rw [group_eq, foldl_append]
  exact closing _ _ _

section Tight

variable {r : Readers} {G : Phrase → Prop}

theorem expression_reduces (mayEnd : Bool) : Reduces G (r.expression mayEnd) (r.cover mayEnd) :=
  .then fun _ => (looks_require _).reduces fun _ => .refl _

theorem takeIf_reduces (token : Token) : Reduces (· = false) (takeIf token) (pure false) :=
  (looks_isNext token).reduces fun _ => .ite (reduces_of_yields (.after fun _ => .pure nofun)) (.refl _)

theorem commaSeparated_ne_nil (item : Reader α) (n : Nat) : Yields (commaSeparated item n) (· ≠ []) := by
  cases n with
  | zero => exact .failure
  | succ n =>
    exact .after fun _ => .after fun _ => .ite (.after fun _ => .pure nofun) (.pure nofun)

theorem item_of_commaSeparated {item : Reader α} {a : α}
    (h : commaSeparated item n c = some ([a], next)) : item c = some (a, next) := by
  cases n with
  | zero => cases h
  | succ n =>
    obtain ⟨⟨head, between⟩, first, h⟩ := Option.bind_eq_some_iff.mp h
    obtain ⟨⟨comma, after⟩, taken, h⟩ := Option.bind_eq_some_iff.mp h
    cases comma with
    | true =>
      obtain ⟨⟨others, last⟩, read, h⟩ := Option.bind_eq_some_iff.mp h
      cases h
      exact absurd rfl (commaSeparated_ne_nil item n _ _ _ read)
    | false =>
      cases h
      cases takeIf_reduces _ _ _ _ taken rfl
      exact first

variable (tight : Tight G)

include tight

theorem operation_reduces (mayEnd : Bool) : Reduces G (r.operation mayEnd) (r.operand mayEnd r.bound) := by
  refine .then fun first => ?_
  have single : ∀ tail, G (Chain.group Phrase.binary first tail) → tail = [] := by
    intro tail good
    by_contra several
    obtain ⟨left, op, right, joined⟩ := Chain.exists_join Phrase.binary first several
    exact tight.binary left op right (joined ▸ good)
  refine (chain_reduces mayEnd r.bound).bind (f := _) (g := fun _ => pure first) (fun tail => ?_) fun tail => ?_
  · exact .after fun _ => .pure (single tail)
  · refine (looks_require _).reduces fun _ c a next read good => ?_
    cases read
    rw [single tail good]
    rfl

theorem coverWith_reduces (mayEnd : Bool) : Reduces G (r.coverWith mayEnd) (r.operation mayEnd) := by
  refine .then fun test => (looks_isOver mayEnd).reduces fun finished => (looks_isNext _).reduces fun asked => ?_
  refine .ite (reduces_of_yields ?_) (.refl _)
  exact .after fun _ => .after fun _ => .after fun yes => .after fun _ => .after fun no => .pure (tight.conditional test yes no)

theorem expressions_reduces (mayEnd : Bool) : Reduces G (r.expressions mayEnd) (r.expression mayEnd) := by
  intro c p next h good
  obtain ⟨⟨phrases, between⟩, read, h⟩ := Option.bind_eq_some_iff.mp h
  match phrases with
  | [] => cases h
  | [first] =>
    cases h
    exact item_of_commaSeparated read
  | first :: second :: others =>
    cases h
    exact absurd good (tight.sequence first second others)

/-- What no operator makes and is read as an expression is read as an expression that operators do not take apart. -/
theorem access_of_expressions (mayEnd : Bool) : Reduces G ((readers (n + 1)).expressions mayEnd) ((readers n).access mayEnd) := by
  have cover : Reduces G ((readers (n + 1)).cover mayEnd) ((readers n).operand mayEnd (readers n).bound) :=
    (coverWith_reduces tight mayEnd).trans (operation_reduces tight mayEnd)
  refine (expressions_reduces tight mayEnd).trans ((expression_reduces mayEnd).trans (cover.trans ?_))
  exact (operand_reduces tight mayEnd _).trans (assignable_reduces tight mayEnd)

end Tight

section Functions

variable {r : Readers}

theorem primary_of_expressions (mayEnd : Bool) :
    Reduces Phrase.IsFunction ((readers (n + 1)).expressions mayEnd) ((readers n).primary mayEnd) :=
  (access_of_expressions tight_isFunction mayEnd).trans (access_reduces mayEnd)

/-- Not in parentheses. -/
def Phrase.IsBare (p : Phrase) : Prop := p.core = p.kind

theorem arrowRest_bare (start : Position) (isAsync mayEnd : Bool) (params : List Parameter) :
    Yields (r.arrowRest start isAsync mayEnd params) Phrase.IsBare := .after fun _ => .after fun _ => .pure rfl

theorem arrow_bare (start : Position) (isAsync mayEnd : Bool) : Yields (r.arrow start isAsync mayEnd) Phrase.IsBare :=
  .after fun params => arrowRest_bare start isAsync mayEnd params

theorem functionExpression_bare (start : Position) (isAsync : Bool) : Yields (r.functionExpression start isAsync) Phrase.IsBare :=
  .after fun _ => .after fun _ => .after fun _ => .after fun _ => .after fun _ => .pure rfl

theorem nameOrArrow_bare (start : Position) (mayEnd : Bool) : Yields (r.nameOrArrow start mayEnd) Phrase.IsBare :=
  .after fun _ => .after fun _ => .ite (arrowRest_bare start false mayEnd _) (.pure rfl)

theorem asyncFunction_bare (start : Position) (mayEnd : Bool) : Yields (r.asyncFunction start mayEnd) Phrase.IsBare := by
  refine .after fun _ => .after fun _ => .after fun _ => .after fun _ => ?_
  refine .ite (functionExpression_bare start true) (.orElse ?_ (arrow_bare start true mayEnd))
  exact .after fun _ => .after fun _ => arrowRest_bare start true mayEnd _

theorem wordExpression_bare (start : Position) (mayEnd : Bool) (w : Text) : Yields (r.wordExpression start mayEnd w) Phrase.IsBare := by
  refine .ite (.after fun _ => .pure rfl) (.ite (.after fun _ => .pure rfl) ?_)
  refine .ite (.after fun _ => .pure rfl) (.ite (functionExpression_bare start false) ?_)
  refine .ite ?_ (.ite (.after fun _ => .after fun _ => ?_) (.ite ?_ (nameOrArrow_bare start mayEnd)))
  · exact .after fun _ => .after fun _ => .after fun _ => .pure rfl
  · refine .ite (.after fun _ => .pure rfl) ?_
    exact .after fun _ => .after fun _ => .pure rfl
  · exact (asyncFunction_bare start mayEnd).orElse (nameOrArrow_bare start mayEnd)

/-- An expression that stands in parentheses. -/
def Readers.enclosed (r : Readers) (start : Position) : Reader Phrase := do
  symbol "("
  let e ← r.expressions false
  symbol ")"
  require !(← isNextSymbol "=>")
  return .parenthesised start e

theorem primary_reduces (mayEnd : Bool) : Reduces (fun p => ¬p.IsBare) (r.primary mayEnd) (position >>= r.enclosed) := by
  have other : ∀ {reader s : Reader Phrase}, Yields reader Phrase.IsBare → Reduces (fun p => ¬p.IsBare) reader s :=
    fun bare => reduces_of_yields (bare.imp fun _ => not_not_intro)
  refine .after fun start => looks_peek.reduces fun token => ?_
  match token with
  | some (.word w) => exact other (wordExpression_bare start mayEnd w)
  | some (.number t) | some (.string t) => exact other (.after fun _ => .pure rfl)
  | some (.symbol s) =>
    refine .ite (.orElse (.refl _) (other (arrow_bare start false mayEnd))) (other (.ite ?_ (.ite ?_ ?_)))
    · exact .after fun _ => .after fun _ => .after fun _ => .pure rfl
    · exact .after fun _ => .after fun _ => .after fun _ => .pure rfl
    · refine .ite (.after fun _ => .pure rfl) ?_
      exact .ite (.after fun _ => .pure rfl) .failure
  | some (.privateName _) | none => exact other .failure

theorem takeIf_cases {token : Token} {taken : Bool} (h : takeIf token c = some (taken, next)) :
    taken = true ∧ Leads (ahead c.rest) token next.rest ∨ taken = false ∧ next = c ∧ next? (ahead c.rest) ≠ some token := by
  obtain ⟨found, asked, h⟩ := (looks_isNext token).run h
  cases found with
  | true =>
    obtain ⟨⟨other, after⟩, read, h⟩ := Option.bind_eq_some_iff.mp h
    cases h
    have leads := leads_of_take read
    cases leads.next?.symm.trans (eq_of_beq asked.symm)
    exact .inl ⟨rfl, leads⟩
  | false =>
    cases h
    exact .inr ⟨rfl, rfl, fun same => by simp [same] at asked⟩

theorem symbol_rest {s : String} (h : symbol s c = some ((), next)) : ahead c.rest = s ++ next.rest := by
  obtain ⟨⟨taken, between⟩, found, h⟩ := Option.bind_eq_some_iff.mp h
  rcases takeIf_cases found with ⟨rfl, leads⟩ | ⟨rfl, -⟩
  · cases h
    exact leads.eq_append
  · cases h

/-- Up to a place in a text a function stands, perhaps in parentheses. -/
inductive Encloses : Text → Text → Phrase → Prop
  | function {n : Nat} {mayEnd : Bool} {c next : Cursor} {p : Phrase} :
    (readers n).primary mayEnd c = some (p, next) → p.kind = "function_expression" → Encloses c.rest next.rest p
  | parentheses {t inner outer rest : Text} {start : Position} {p : Phrase} :
    ahead t = "(" ++ inner → Encloses inner outer p → ahead outer = ")" ++ rest → Encloses t rest (.parenthesised start p)

theorem ahead_suffix (t : Text) : ahead t <:+ t := drop_suffix _ _

theorem Encloses.suffix {t rest : Text} (h : Encloses t rest p) : rest <:+ t := by
  induction h with
  | function read _ => exact suffix_of_run read
  | @parentheses t inner outer rest start p opening _ closing ih =>
    have inside : ("(" : Text) ++ inner <:+ t := opening ▸ ahead_suffix t
    have outside : (")" : Text) ++ rest <:+ outer := closing ▸ ahead_suffix outer
    exact (suffix_append _ _).trans (outside.trans (ih.trans ((suffix_append _ _).trans inside)))

theorem exists_enclosed {start : Position} (h : r.enclosed start c = some (p, next)) :
    ∃ inner outer e, ahead c.rest = "(" ++ inner.rest ∧ r.expressions false inner = some (e, outer) ∧
      ahead outer.rest = ")" ++ next.rest ∧ p = .parenthesised start e := by
  obtain ⟨⟨⟨⟩, inner⟩, opening, read⟩ := Option.bind_eq_some_iff.mp h
  obtain ⟨⟨e, outer⟩, between, read⟩ := Option.bind_eq_some_iff.mp read
  obtain ⟨⟨⟨⟩, stop⟩, closing, read⟩ := Option.bind_eq_some_iff.mp read
  obtain ⟨⟨⟨⟩, here⟩, required, last⟩ := Option.bind_eq_some_iff.mp read
  obtain ⟨rfl, -⟩ := looks_require _ _ _ _ required
  cases last
  exact ⟨inner, outer, e, symbol_rest opening, between, symbol_rest closing, rfl⟩

theorem primary_cases (h : r.primary mayEnd c = some (p, next)) :
    p.IsBare ∨ ∃ inner outer start e, ahead c.rest = "(" ++ inner.rest ∧ r.expressions false inner = some (e, outer) ∧
      ahead outer.rest = ")" ++ next.rest ∧ p = .parenthesised start e := by
  refine or_iff_not_imp_left.mpr fun enclosed => ?_
  obtain ⟨start, -, read⟩ := looks_position.run (primary_reduces mayEnd _ _ _ h enclosed)
  obtain ⟨inner, outer, e, parts⟩ := exists_enclosed read
  exact ⟨inner, outer, start, e, parts⟩

theorem parenthesised_of_opening (opens : next? (ahead c.rest) = some (.symbol "("))
    (h : r.primary mayEnd c = some (p, next)) : ∃ start, r.parenthesised start mayEnd c = some (p, next) := by
  obtain ⟨start, -, read⟩ := looks_position.run h
  obtain ⟨token, rfl, read⟩ := looks_peek.run read
  rw [opens] at read
  exact ⟨start, read⟩

theorem kind_of_opening (opens : next? (ahead c.rest) = some (.symbol "("))
    (h : r.primary mayEnd c = some (p, next)) : p.kind ≠ "function_expression" ∧ p.isExpression := by
  obtain ⟨start, read⟩ := parenthesised_of_opening opens h
  have either : Yields (r.parenthesised start mayEnd) fun p => p.kind ≠ "function_expression" ∧ p.isExpression := by
    refine .orElse ?_ (.after fun _ => .after fun _ => .after fun _ => .pure ⟨?_, rfl⟩)
    · exact .after fun _ => .after fun _ => .after fun _ => .after fun _ => .after fun _ =>
        .pure ⟨show ("parenthesized_expression" : Text) ≠ _ by decide, rfl⟩
    · exact show ("arrow_function" : Text) ≠ _ by decide
  exact either c p next read

theorem Encloses.closed {t rest : Text} (h : Encloses ("(" ++ t) rest p) : ∃ inner, t = inner ++ ")" ++ rest := by
  have solid : ahead ("(" ++ t) = "(" ++ t := ahead_bracket (by decide) t
  generalize whole : ("(" ++ t : Text) = start at h
  cases h with
  | function read kind =>
    refine absurd kind (kind_of_opening ?_ read).1
    rw [← whole, solid]
    exact (leads_bracket (by decide) t).next?
  | @parentheses _ inner outer _ _ _ opening encloses closing =>
    rw [← whole, solid] at opening
    cases append_cancel_left opening
    obtain ⟨before, same⟩ := (closing ▸ ahead_suffix outer).trans encloses.suffix
    exact ⟨before, same.symm.trans (append_assoc _ _ _).symm⟩

theorem encloses_of_primary (h : (readers n).primary mayEnd c = some (p, next))
    (function : p.IsFunction) : Encloses c.rest next.rest p := by
  induction n generalizing mayEnd c next p with
  | zero =>
    rcases primary_cases h with bare | ⟨inner, outer, start, e, opening, between, closing, rfl⟩
    · exact .function h (bare.symm.trans function)
    · cases between
  | succ n ih =>
    rcases primary_cases h with bare | ⟨inner, outer, start, e, opening, between, closing, rfl⟩
    · exact .function h (bare.symm.trans function)
    · exact .parentheses opening (ih (primary_of_expressions false _ _ _ between function) function) closing

end Functions

end Unravel.Grammar
