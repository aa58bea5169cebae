import Unravel.Proofs.Grammar.Keeping

/-! Whatever the readers read stands for a grammatical tree without points in its names. -/
namespace Unravel.Grammar

open Outcome Unravel.Tree
open List hiding set

section Words

variable {t w : Text}

theorem isUndotted_cons {c : CodePoint} : IsUndotted (c :: t) ↔ c ≠ '.' ∧ IsUndotted t := by
  rw [IsUndotted, mem_cons, not_or, ne_comm]
  rfl

theorem undotted_of_all {p : CodePoint → Bool} (clear : p (ofChar '.') = false) (all : t.all p) : IsUndotted t := by
  intro member
  rw [all_eq_true.mp all _ member] at clear
  cases clear

theorem undotted_braced (h : Literal.braced? t = some w) : IsUndotted (t.take (w.length + 2)) := by
  cases t with
  | nil => cases h
  | cons opening more =>
    rw [Literal.braced?] at h
    split at h
    next braces =>
      cases h
      obtain ⟨rfl, -, closing⟩ := braces
      rw [take_succ_cons, isUndotted_cons]
      refine ⟨by decide, ?_⟩
      rw [take_add_one, ← head?_drop, closing, ← prefix_iff_eq_take.mp (List.takeWhile_prefix _)]
      have digits : IsUndotted (more.takeWhile CodePoint.isHexDigit) := undotted_of_all (by decide) all_takeWhile
      simpa [IsUndotted] using ⟨digits, (by decide : '.' ≠ ofChar '\x7d')⟩
    next => cases h

theorem undotted_escape {n : Nat} (h : unitEscape? t = some n) : IsUndotted (t.take n) := by
  cases t with
  | nil => cases h
  | cons u more =>
    rw [unitEscape?] at h
    split at h
    next => cases h
    next letter =>
      rw [not_not] at letter
      have other : u ≠ '.' := by
        rw [letter]
        decide
      split at h
      next run _ braced =>
        cases h
        exact isUndotted_cons.mpr ⟨other, undotted_braced braced⟩
      next run _ exact =>
        cases h
        refine isUndotted_cons.mpr ⟨other, ?_⟩
        rw [Literal.exactly?] at exact
        split at exact
        next digits => exact undotted_of_all (by decide) digits.2
        next => cases exact
      next => cases h

theorem undotted_name {p : CodePoint → Bool} (clear : p (ofChar '.') = false) {skip : Nat}
    (before : IsUndotted (t.take skip)) : IsUndotted (t.take (nameLength p skip t)) := by
  induction t generalizing p skip with
  | nil => simp [IsUndotted]
  | cons c more ih =>
    have part : isNamePart (ofChar '.') = false := by decide
    have none_before : IsUndotted (more.take 0) := not_mem_nil
    cases skip with
    | succ skip =>
      obtain ⟨here, rest⟩ := isUndotted_cons.mp before
      rw [nameLength, Nat.add_comm, take_succ_cons]
      exact isUndotted_cons.mpr ⟨here, ih clear rest⟩
    | zero =>
      rw [nameLength]
      split
      next passes =>
        rw [Nat.add_comm, take_succ_cons]
        refine isUndotted_cons.mpr ⟨?_, ih part none_before⟩
        rintro rfl
        rw [clear] at passes
        cases passes
      next =>
        split
        next backslash =>
          split
          next n escape =>
            rw [Nat.add_comm, take_succ_cons, backslash]
            exact isUndotted_cons.mpr ⟨by decide, ih part (undotted_escape escape)⟩
          next => exact not_mem_nil
        next => exact not_mem_nil

end Words

/-- Words have no point in them. -/
def Token.Sound : Token → Prop
  | .word w => IsUndotted w
  | _ => True

theorem sound_token {t : Text} {token : Token} {n : Nat} (h : token? t = some (token, n)) : token.Sound := by
  cases token with
  | word w =>
    obtain ⟨k, length, rfl⟩ := heads_of_token? h
    have start : isNameStart (ofChar '.') = false := by decide
    have none_before : IsUndotted (t.take 0) := not_mem_nil
    have name := undotted_name start none_before
    rwa [length] at name
  | _ => trivial

theorem Taken.sound {t w : Text} (h : Taken t (.word w)) : IsUndotted w := by
  obtain ⟨u, n, -, found⟩ := h
  exact sound_token found

theorem yields_take : Yields take Token.Sound := by
  intro c token next result
  rw [take_eq] at result
  obtain ⟨pair, found, same⟩ := Option.map_eq_some_iff.mp result
  cases same
  exact sound_token found

theorem yields_name : Yields name IsUndotted := by
  refine yields_take.bind fun token sound => ?_
  cases token with
  | word w => exact .after fun _ => .pure sound
  | _ => exact .failure

/-- The readers that composite constructs are read with are sound. -/
structure Readers.Sound (r : Readers) : Prop where
  cover : ∀ mayEnd, Yields (r.cover mayEnd) Phrase.Sound
  target : Yields r.target Phrase.Sound
  statement : Yields r.statement Clause.Sound

namespace Readers.Sound

variable {r : Readers} (h : r.Sound)

include h

theorem expression (mayEnd : Bool) : Yields (r.expression mayEnd) Phrase.Sound :=
  (h.cover mayEnd).bind fun _ sound => .after fun _ => .pure sound

theorem block : Yields r.block Clause.Sound :=
  .after fun start => .after fun _ =>
    (h.statement.untilStop r.bound).bind fun _ sound => .pure (Clause.sound_block start sound)

theorem parameter : Yields r.parameter Parameter.Sound := by
  refine .after fun start => .after fun rest => .after fun _ => .after fun _ => ?_
  refine h.target.bind fun p hp => .after fun _ => ?_
  split
  · exact .pure (Parameter.sound_foreign _ _)
  · refine .after fun defaulted => ?_
    split
    · exact .after fun _ => .pure (Parameter.sound_foreign _ _)
    · exact .pure (sound_parameter hp)

theorem parameterList (n : Nat) : Yields (r.parameterList n) fun ps => ∀ p ∈ ps, p.Sound := by
  induction n with
  | zero => exact .failure
  | succ n ih =>
    refine .after fun closed => ?_
    split
    · exact .pure nofun
    · refine h.parameter.bind fun p hp => .after fun comma => ?_
      split
      · refine ih.bind fun rest sound => .pure ?_
        simpa using ⟨hp, sound⟩
      · exact .after fun _ => .pure (by simpa using hp)

theorem parameters : Yields r.parameters fun ps => ∀ p ∈ ps, p.Sound := .after fun _ => h.parameterList r.bound

theorem functionExpression (start : Position) (isAsync : Bool) : Yields (r.functionExpression start isAsync) Phrase.Sound :=
  .after fun _ => .after fun _ => yields_name.optionally.bind fun _ named =>
    h.parameters.bind fun _ names => h.block.bind fun _ body =>
      .pure (sound_function names body.body _ start isAsync named)

theorem arrowBody (mayEnd : Bool) : Yields (r.arrowBody mayEnd) fun body => body.Lowers AreStatements := by
  have value : Yields (do
      let e ← r.expression mayEnd
      return do return [Tree.node () (.returnStatement (some (← e.lowered)))])
      fun body : Outcome (List Shape) => body.Lowers AreStatements := by
    refine (h.expression mayEnd).bind fun e he => .pure ?_
    refine he.expression.bind fun t ht => lowers_pure fun s hs => ?_
    rw [mem_singleton.mp hs]
    refine fits_node rfl rfl ?_
    simpa [Form.places, Place.free] using ht
  refine .after fun start => h.block.optionally.bind fun read sound => ?_
  cases read with
  | none => exact value
  | some b =>
    have statements : ∀ next : Cursor, Yields (do set next; return b.body) fun body => body.Lowers AreStatements :=
      fun next => .after fun _ => .pure (sound b rfl).body
    refine .after fun next => ?_
    split
    · exact .after fun _ => value.orElse (statements next)
    · exact statements next

theorem arrowRest (start : Position) (isAsync mayEnd : Bool) {params : List Parameter} (names : ∀ p ∈ params, p.Sound) :
    Yields (r.arrowRest start isAsync mayEnd params) Phrase.Sound :=
  .after fun _ => (h.arrowBody mayEnd).bind fun _ body => .pure (sound_arrow names body start isAsync)

theorem arrow (start : Position) (isAsync mayEnd : Bool) : Yields (r.arrow start isAsync mayEnd) Phrase.Sound :=
  h.parameters.bind fun _ names => h.arrowRest start isAsync mayEnd names

theorem arrowOfName (start place : Position) (isAsync mayEnd : Bool) {n : Text} (named : IsUndotted n) :
    Yields (r.arrowRest start isAsync mayEnd [.ofPhrase (.name n place)]) Phrase.Sound := by
  refine h.arrowRest start isAsync mayEnd fun p hp => ?_
  rw [mem_singleton.mp hp]
  exact sound_parameter (Phrase.sound_name named place)

theorem functionDeclaration : Yields r.functionDeclaration Clause.Sound :=
  .after fun start => .after fun isAsync => .after fun _ => .after fun _ =>
    yields_name.bind fun _ named => h.parameters.bind fun _ names => h.block.bind fun _ body =>
      .pure (sound_functionDeclaration names body.body _ start isAsync named)

omit h in
theorem binding : Yields r.binding fun name => ∀ n, name = some n → IsUndotted n := by
  refine .after fun next => ?_
  split
  next =>
    refine yields_name.bind fun n named => .pure ?_
    rintro m ⟨⟩
    exact named
  next =>
    refine .after fun p => ?_
    split
    next => exact .after fun _ => .pure (by rintro n ⟨⟩)
    next => exact .failure

omit h in
theorem foreign {kind : Text} {start : Position} : Yields (pure (Clause.foreign kind start)) Clause.Sound :=
  .pure (Clause.sound_foreign kind start)

omit h in
theorem doStatement : Yields r.doStatement Clause.Sound :=
  .after fun _ => .after fun _ => .after fun _ => .after fun _ => .after fun _ =>
    .after fun _ => .ite (.after fun _ => foreign) foreign

theorem declarator : Yields r.declarator Declarator.Sound := by
  refine .after fun start => binding.bind fun name named => .after fun equals => .ite ?_ ?_
  · refine (h.expression true).bind fun v hv => .pure ⟨named, ?_⟩
    rintro w ⟨⟩
    exact hv
  · exact .pure ⟨named, nofun⟩

theorem handler : Yields r.handler fun read => (read.1.Lowers fun p => ∀ t ∈ p, Fits .name t) ∧ read.2.Sound := by
  refine .after fun bracket => .ite ?_ (h.block.bind fun b hb => ?_)
  · refine .after fun place => binding.bind fun name named => .after fun _ => h.block.bind fun b hb => ?_
    cases name with
    | none => exact .pure ⟨lowers_error rfl, hb⟩
    | some n =>
      refine .pure ⟨lowers_ok ?_, hb⟩
      rintro t ⟨⟩
      exact fits_identifier (named n rfl)
  · exact .pure ⟨lowers_ok (fun t none => by cases none), hb⟩

theorem declaration (kind : Text) : Yields (r.declaration kind) fun form =>
    form.Lowers fun f => Fits .statement (.node () f) ∧ Fits .start (.node () f) :=
  .after fun _ => (h.declarator.commaSeparated r.bound).bind fun _ all => .after fun _ =>
    .pure (lowers_declaration kind all)

theorem declarationStatement (kind : Text) : Yields (r.declarationStatement kind) Clause.Sound :=
  .after fun _ => (h.declaration kind).bind fun _ sound => .pure (Clause.sound_single (sound.imp fun _ both => both.1))

theorem tryStatement : Yields r.tryStatement Clause.Sound :=
  .after fun start => .after fun _ => h.block.bind fun _ hb => .after fun _ =>
    h.handler.ifPresent fun _ hc => .after fun _ => h.block.ifPresent fun _ hf =>
      .pure (sound_tryStatement start hb hc hf)

/-- Every construct is sound if its parts are. -/
theorem keeps (t : Text) : Keeps t r anywhere Phrase.Sound Member.Sound where
  cover mayEnd := (h.cover mayEnd).gathers
  functionExpression start isAsync := (h.functionExpression start isAsync).gathers
  arrow start isAsync mayEnd := (h.arrow start isAsync mayEnd).gathers
  arrowOfName taken start place isAsync mayEnd := (h.arrowOfName start place isAsync mayEnd taken.sound).gathers
  free _ _ := trivial
  name taken _ _ _ _ start := Phrase.sound_name taken.sound start
  boolean truth start b := by
    refine Phrase.sound_leaf rfl rfl rfl ?_
    rcases truth with rfl | rfl <;> rfl
  null start := Phrase.sound_leaf rfl rfl rfl rfl
  number _ start := Phrase.sound_number _ start
  string u start := Phrase.sound_string u start
  foreign kind start := Phrase.sound_foreign kind start
  tagged p place := Phrase.sound_tagged p place
  parenthesised sound start := Phrase.sound_parenthesised start sound
  array all start commented := Phrase.sound_array start all commented
  spread start p := Member.sound_spread start p
  method start := Member.sound_method start
  pair _ sound start := Member.sound_pair _ start sound
  shorthand taken _ := Member.sound_named taken.sound
  object all start := sound_object start all
  member sound _ isOptional place := Phrase.sound_member sound isOptional _ place
  index sound key isOptional := Phrase.sound_index sound isOptional key
  call sound all isOptional := Phrase.sound_call sound isOptional all
  assign _ sound value := Phrase.sound_assign sound _ value
  unary _ sound start := Phrase.sound_unary _ start sound
  binary _ left right := Phrase.sound_binary left _ right
  conditional test yes no := Phrase.sound_conditional test yes no
  sequence all := Phrase.sound_sequence (all _ (.head _)) fun p hp => all p (.tail _ hp)

variable [r.MovesForward]

theorem expressions (mayEnd : Bool) : Yields (r.expressions mayEnd) Phrase.Sound :=
  yields_of_gathers fun t => (h.keeps t).expressions mayEnd

theorem expressionStatement : Yields r.expressionStatement Clause.Sound :=
  .after fun start => (h.expressions true).bind fun _ he => .after fun _ =>
    .pure (Clause.sound_ofExpression start he)

theorem condition : Yields r.condition Phrase.Sound :=
  .after fun _ => (h.expressions false).bind fun _ he => .after fun _ => .pure he

theorem ifStatement : Yields r.ifStatement Clause.Sound := by
  refine .after fun start => .after fun _ => h.condition.bind fun test ht => h.statement.bind fun c hc => ?_
  refine .after fun other => .ite (h.statement.bind fun a ha => ?_) ?_
  · refine .pure (Clause.sound_single (ht.expression.bind fun t ht => hc.body.bind fun c hc => ?_))
    exact ha.body.bind fun a ha => lowers_pure (fits_ifStatement ht hc ha)
  · refine .pure (Clause.sound_single (ht.expression.bind fun t ht => hc.body.bind fun c hc => ?_))
    exact lowers_pure (fits_ifStatement ht hc nofun)

theorem loopStart : Yields r.loopStart fun start => start.Lowers fun init => ∀ t ∈ init, Fits .start t := by
  refine .after fun kind => ?_
  cases kind with
  | some kind =>
    refine (h.declaration kind).bind fun form sound => .pure (sound.bind fun f hf => lowers_pure ?_)
    rintro t ⟨⟩
    exact hf.2
  | none =>
    refine .after fun _ => .ite (.pure (lowers_ok fun t none => by cases none)) ?_
    refine (h.expressions false).bind fun e he => .after fun _ => .pure ?_
    refine he.expression.bind fun x hx => lowers_pure ?_
    rintro t ⟨⟩
    exact fits_start_of_expression hx

theorem loopPart (closing : String) :
    Yields (r.loopPart closing) fun part => part.Lowers fun o => ∀ t ∈ o, Fits .expression t := by
  refine .after fun _ => .ite (.pure (lowers_ok fun t none => by cases none)) ?_
  refine (h.expressions false).bind fun e he => .after fun _ => .pure ?_
  refine he.expression.bind fun x hx => lowers_pure ?_
  rintro t ⟨⟩
  exact hx

theorem forStatement : Yields r.forStatement Clause.Sound := by
  refine .after fun start => .after fun _ => .after fun head => ?_
  cases head with
  | some _ => exact .after fun _ => .pure (Clause.sound_foreign _ _)
  | none =>
    refine .after fun _ => h.loopStart.bind fun init hi => (h.loopPart ";").bind fun test ht => ?_
    refine (h.loopPart ")").bind fun update hu => h.statement.bind fun body hb => .pure (Clause.sound_single ?_)
    exact hi.bind fun i hi => ht.bind fun t ht => hu.bind fun u hu => hb.body.bind fun b hb =>
      lowers_pure (fits_forStatement hi ht hu hb)

theorem whileStatement : Yields r.whileStatement Clause.Sound := by
  refine .after fun start => .after fun _ => h.condition.bind fun test ht => h.statement.bind fun body hb => ?_
  refine .pure (Clause.sound_single (ht.expression.bind fun t ht => hb.body.bind fun b hb => ?_))
  exact lowers_pure (fits_whileStatement ht hb)

theorem returnStatement : Yields r.returnStatement Clause.Sound := by
  refine .after fun start => .after fun _ => .after fun complete => .ite ?_ ?_
  · exact .pure (Clause.sound_single (lowers_ok (fits_returnStatement fun t none => by cases none)))
  · refine (h.expressions true).bind fun e he => .after fun _ => .pure (Clause.sound_single ?_)
    refine he.expression.bind fun x hx => lowers_pure (fits_returnStatement ?_)
    rintro t ⟨⟩
    exact hx

omit h in
theorem jump (verb : String) {form : Form Shape} (fits : Fits .statement (.node () form)) :
    Yields (Readers.jump verb form) Clause.Sound := by
  refine .after fun start => .after fun _ => .after fun complete => .ite ?_ ?_
  · exact .pure (Clause.sound_single (lowers_ok fits))
  · exact .after fun _ => .after fun _ => .pure (Clause.sound_single (lowers_error rfl))

theorem braces : Yields r.braces Clause.Sound := by
  refine .after fun start => h.block.optionally.bind fun read sound => ?_
  cases read with
  | none => exact .after fun _ => .ite h.expressionStatement .failure
  | some b =>
    have block : ∀ next : Cursor, Yields (do set next; return b) Clause.Sound :=
      fun next => .after fun _ => .pure (sound b rfl)
    refine .after fun next => .ite (.after fun _ => ?_) (block next)
    exact h.expressionStatement.orElse (block next)

theorem wordStatement (w : Text) : Yields (r.wordStatement w) Clause.Sound := by
  have expression := h.expressionStatement
  refine .after fun kind => ?_
  cases kind with
  | some kind => exact h.declarationStatement kind
  | none =>
    refine .after fun _ => .ite h.functionDeclaration ?_
    refine .ite h.ifStatement (.ite h.forStatement (.ite h.whileStatement ?_))
    refine .ite doStatement (.ite h.tryStatement ?_)
    refine .ite (.after fun _ => .after fun _ => .after fun _ => .after fun _ =>
      .after fun _ => foreign) ?_
    refine .ite (.after fun _ => .after fun _ => .after fun _ => .after fun _ => foreign) ?_
    refine .ite (.after fun _ => .after fun _ => .after fun _ => .after fun _ => foreign) ?_
    refine .ite h.returnStatement ?_
    refine .ite (jump "break" (fits_node rfl rfl nofun)) (.ite (jump "continue" (fits_node rfl rfl nofun)) ?_)
    refine .ite (.after fun _ => .after fun _ => .after fun _ => foreign) ?_
    refine .ite (.after fun _ => .after fun _ => .after fun _ => foreign) ?_
    refine .ite (expression.orElse
      (.after fun _ => .after fun _ => .after fun _ => .after fun _ => foreign)) ?_
    refine .after fun _ => .ite (.after fun _ => .after fun _ => .after fun _ =>
      .after fun _ => foreign) ?_
    refine .after fun _ => .ite ?_ expression
    exact .after fun _ => .after fun _ => .after fun _ => .after fun _ => foreign

theorem statementWith : Yields r.statementWith Clause.Sound := by
  refine .after fun start => .after fun next => ?_
  split
  next w => exact h.wordStatement w
  next s =>
    refine .ite h.braces (.ite ?_ h.expressionStatement)
    exact .after fun _ => .pure (Clause.sound_empty start)
  next => exact h.expressionStatement

end Readers.Sound

theorem readers_sound (n : Nat) : (readers n).Sound := by
  induction n with
  | zero => exact ⟨fun _ => .failure, .failure, .failure⟩
  | succ n ih =>
    refine ⟨fun mayEnd => yields_of_gathers fun t => (ih.keeps t).coverWith mayEnd, ?_, ih.statementWith⟩
    exact yields_of_gathers fun t => (ih.keeps t).access false

theorem sound_program {t : Text} {clauses : List Clause} (h : program t = some clauses) : ∀ c ∈ clauses, c.Sound := by
  obtain ⟨⟨read, next⟩, result, rfl⟩ := Option.map_eq_some_iff.mp h
  exact ((readers_sound _).statement.untilStop _) _ _ _ result

end Unravel.Grammar

namespace Unravel

open Outcome

/-- Half of a pair, which has no form of its own in an encoded text. -/
def CodePoint.isSurrogate (c : CodePoint) : Bool := c.isHighSurrogate || c.isLowSurrogate

theorem Text.ends_checkEncoding (t : Text) :
    t.checkEncoding.Ends (fun _ => True) fun f => f.category = .encoding ∧ ∃ c ∈ t, c.isSurrogate := by
  unfold Text.checkEncoding
  dsimp only
  split
  next => trivial
  next first rest run =>
    have leading : first ∈ first :: rest := .head _
    rw [← run] at leading
    have inside := List.mem_of_mem_drop ((List.takeWhile_prefix _).subset leading)
    exact ⟨rfl, first, inside, List.mem_takeWhile_imp leading⟩

/-- What can be wrong with a source as a text. -/
def IsSyntaxFault (source : Text) (f : Fault) : Prop :=
  f.category = .parse ∨ f.category = .encoding ∧ ∃ c ∈ source, c.isSurrogate

/-- What can be wrong with a source. -/
def IsSourceFault (source : Text) (f : Fault) : Prop :=
  f.isOfReading ∨ f.category = .encoding ∧ ∃ c ∈ source, c.isSurrogate

theorem IsSyntaxFault.isSourceFault {source : Text} {f : Fault} (h : IsSyntaxFault source f) : IsSourceFault source f := by
  refine h.imp_left fun parse => ?_
  unfold Fault.isOfReading
  split
  next => rfl
  next => rfl
  next =>
    rw [parse]
    rfl

theorem Outcome.Lowers.ofSource {α : Type} {P : α → Prop} {x : Outcome α} (h : x.Lowers P) (source : Text) :
    x.Ends P (IsSourceFault source) := h.widen fun _ => Or.inl

theorem Grammar.ends_single (source : Text) : (single source).Ends Phrase.Sound (IsSyntaxFault source) := by
  have encoded : ("(" ++ source ++ ")" : Text).checkEncoding.Ends (fun _ => True) (IsSyntaxFault source) := by
    refine (Text.ends_checkEncoding _).widen fun f h => Or.inr ⟨h.1, ?_⟩
    obtain ⟨c, hc, surrogate⟩ := h.2
    refine ⟨c, ?_, surrogate⟩
    rcases List.mem_append.mp hc with hc | hc
    · rcases List.mem_append.mp hc with hc | hc
      · cases List.mem_singleton.mp hc
        cases surrogate
      · exact hc
    · cases List.mem_singleton.mp hc
      cases surrogate
  refine encoded.bind fun _ _ => ends_ite (fun _ => ends_throw (.inl rfl)) fun _ => ?_
  split
  next => exact ends_throw (.inl rfl)
  next clause read =>
    split
    next e expression =>
      have sound := sound_program read clause (.head _)
      exact sound.expression e expression
    next => exact ends_throw (.inl rfl)
  next => exact ends_throw (.inl rfl)

/-- A function that is read is a grammatical expression, with no points in its names. -/
theorem ends_parseFunction (source : Text) :
    (parseFunction source).Ends (Tree.Fits .expression) (IsSourceFault source) := by
  have single := (Grammar.ends_single source).widen fun _ => IsSyntaxFault.isSourceFault
  refine single.bind fun phrase sound => ends_ite (fun _ => (lowers_throw rfl).ofSource source) fun _ => ?_
  refine (sound.expression.ofSource source).bind fun f fits => ?_
  split
  next => exact fits
  next => exact (lowers_throw rfl).ofSource source
  next => exact fits

theorem function_of_parseFunction {source : Text} {t : Shape} (h : parseFunction source = .ok t) :
    ∃ parameter body name isArrow, t.form = .function [parameter] body name isArrow := by
  obtain ⟨phrase, single, h⟩ := bind_eq_ok.mp h
  have sound := (Grammar.ends_single source).of_ok single
  split at h
  next => cases h
  next function =>
    obtain ⟨f, lowered, h⟩ := bind_eq_ok.mp h
    have kind : f.form.isFunction := sound.function (not_not.mp function) f lowered
    split at h
    next parameter body name isArrow form =>
      cases h
      exact ⟨parameter, body, name, isArrow, form⟩
    next => cases h
    next single other =>
      cases form : f.form with
      | function params body name isArrow => exact absurd form (other params body name isArrow)
      | _ =>
        rw [form] at kind
        cases kind

end Unravel
