import Unravel.Proofs.Grammar.Lexing
import Unravel.Grammar.Parse

/-! Readers only move forward: what they leave of a text is an end of it. -/
namespace Unravel.Grammar

/-- What one of two readers reads, the first reads or the second. -/
theorem orElse_eq_some {α : Type} {r s : Reader α} {c : Cursor} {found : α × Cursor} (h : (r <|> s) c = some found) :
    r c = some found ∨ s c = some found := by
  change (r c <|> s c) = _ at h
  cases first : r c with
  | none =>
    rw [first] at h
    exact .inr h
  | some other =>
    rw [first] at h
    exact .inl h

/-- A reader that starts at an end of a text stops at one. -/
class Stays {α : Type} (t : Text) (r : Reader α) : Prop where
  suffix : ∀ c a next, c.rest <:+ t → r c = some (a, next) → next.rest <:+ t

namespace Stays

variable {α β : Type} {t : Text} {r s : Reader α} {f : α → Reader β}

instance bind [Stays t r] [∀ a, Stays t (f a)] : Stays t (r >>= f) where
  suffix c b next inside h := by
    obtain ⟨⟨a, mid⟩, first, second⟩ := Option.bind_eq_some_iff.mp h
    exact suffix mid b next (suffix c a mid inside first) second

theorem step [Stays t r] (h : ∀ a, Stays t (f a)) : Stays t (r >>= f) := bind

theorem andThen (first : Stays t r) (h : ∀ a, Stays t (f a)) : Stays t (r >>= f) := bind

theorem get {f : Cursor → Reader β} (h : ∀ c, c.rest <:+ t → Stays t (f c)) : Stays t (get >>= f) where
  suffix c b next inside run := (h c inside).suffix c b next inside run

theorem set {c : Cursor} (inside : c.rest <:+ t) : Stays t (set c : Reader PUnit) where
  suffix := by
    rintro d b next - ⟨⟩
    exact inside

instance pure (a : α) : Stays t (pure a : Reader α) where
  suffix := by
    rintro c b next inside ⟨⟩
    exact inside

instance failure : Stays t (failure : Reader α) where
  suffix := nofun

instance orElse [Stays t r] [Stays t s] : Stays t (r <|> s) where
  suffix c a next inside h := (orElse_eq_some h).elim (suffix c a next inside) (suffix c a next inside)

theorem orElse' (first : Stays t r) (second : Stays t s) : Stays t (r <|> s) := orElse

instance ite {p : Prop} [Decidable p] [Stays t r] [Stays t s] : Stays t (if p then r else s) := by
  split <;> infer_instance

theorem ite' {p : Prop} [Decidable p] (yes : Stays t r) (no : Stays t s) : Stays t (if p then r else s) := ite

end Stays

theorem Cursor.skip_suffix (c : Cursor) (n : Nat) : (c.skip n).rest <:+ c.rest := by
  rw [skip_rest]
  exact List.drop_suffix n c.rest

theorem Cursor.ahead_suffix (c : Cursor) : c.ahead.rest <:+ c.rest := c.skip_suffix _

variable {t : Text}

instance : Stays t position := by
  unfold position
  exact .get fun c inside => inferInstance

instance : Stays t peek := by
  unfold peek
  exact .get fun c inside => inferInstance

instance : Stays t take := by
  unfold take
  refine .get fun c inside => ?_
  dsimp only
  split
  next token length _ =>
    have : Stays t (set (c.ahead.skip length) : Reader PUnit) :=
      .set ((Cursor.skip_suffix _ _).trans (c.ahead_suffix.trans inside))
    infer_instance
  next => infer_instance

instance (token : Token) : Stays t (isNext token) := by unfold isNext; infer_instance
instance (s : String) : Stays t (isNextSymbol s) := by unfold isNextSymbol; infer_instance
instance (w : String) : Stays t (isNextWord w) := by unfold isNextWord; infer_instance
instance (token : Token) : Stays t (takeIf token) := by unfold takeIf; infer_instance
instance (s : String) : Stays t (takeSymbol s) := by unfold takeSymbol; infer_instance
instance (w : String) : Stays t (takeWord w) := by unfold takeWord; infer_instance
instance (b : Bool) : Stays t (require b) := by unfold require; infer_instance
instance (s : String) : Stays t (symbol s) := by unfold symbol; infer_instance
instance (w : String) : Stays t (word w) := by unfold word; infer_instance

instance : Stays t name := by
  unfold name
  refine .step fun token => ?_
  cases token <;> infer_instance

instance (operand : Bool) : Stays t (endsHere operand) := by
  unfold endsHere
  exact .get fun c inside => inferInstance

instance (operand : Bool) : Stays t (semicolon operand) := by unfold semicolon; infer_instance

section Combined

variable {α : Type} {r : Reader α} {stop : Reader Bool}

instance : Stays t (lookahead r) := by
  unfold lookahead
  exact .get fun c inside => inferInstance

instance [Stays t r] : Stays t (optionally r) := by
  unfold optionally
  refine .get fun c inside => ?_
  split
  next a next read =>
    have : Stays t (set next : Reader PUnit) := .set (Stays.suffix c a next inside read)
    infer_instance
  next => infer_instance

instance [Stays t stop] [Stays t r] (n : Nat) : Stays t (untilStop stop r n) := by
  induction n with
  | zero => exact Stays.failure
  | succ n ih =>
    unfold untilStop
    infer_instance

instance [Stays t r] (n : Nat) : Stays t (commaSeparated r n) := by
  induction n with
  | zero => exact Stays.failure
  | succ n ih =>
    unfold commaSeparated
    infer_instance

end Combined

namespace Readers

-- the instances are as large as the readers are long
set_option synthInstance.maxSize 512

/-- Readers that only move forward. -/
class MovesForward (r : Readers) : Prop where
  cover (t : Text) (mayEnd : Bool) : Stays t (r.cover mayEnd)
  target (t : Text) : Stays t r.target
  statement (t : Text) : Stays t r.statement

attribute [instance] MovesForward.cover MovesForward.target MovesForward.statement

variable (r : Readers) [r.MovesForward]

instance (mayEnd : Bool) : Stays t (r.expression mayEnd) := by unfold Readers.expression; infer_instance

instance (mayEnd : Bool) : Stays t (r.expressions mayEnd) := by
  unfold Readers.expressions
  refine .step fun items => ?_
  cases items <;> infer_instance

instance : Stays t r.block := by unfold Readers.block; infer_instance
instance (mayEnd : Bool) : Stays t (isOver mayEnd) := by unfold isOver; infer_instance

instance (n : Nat) : Stays t (r.templateRest n) := by
  induction n with
  | zero => exact Stays.failure
  | succ n ih =>
    unfold templateRest
    refine .get fun c inside => ?_
    have moves (n : Nat) : Stays t (set (c.skip n) : Reader PUnit) := .set ((c.skip_suffix n).trans inside)
    split
    next => infer_instance
    next x more _ =>
      refine .ite' inferInstance (.ite' ?_ inferInstance)
      split <;> infer_instance

instance : Stays t r.template := by unfold Readers.template; infer_instance

instance : Stays t pattern := by
  unfold pattern
  refine .get fun c inside => ?_
  have moves (n : Nat) : Stays t (set (c.ahead.skip n) : Reader PUnit) :=
    .set ((Cursor.skip_suffix _ n).trans (c.ahead_suffix.trans inside))
  dsimp only
  split <;> infer_instance

instance (closing : String) (n : Nat) : Stays t (r.elements closing n) := by
  induction n with
  | zero => exact Stays.failure
  | succ n ih =>
    unfold elements
    exact .get fun c inside => inferInstance

instance : Stays t r.array := by unfold array; infer_instance
instance : Stays t r.arguments := by unfold arguments; infer_instance

instance : Stays t r.propertyName := by
  unfold propertyName
  refine .step fun token => ?_
  cases token <;> infer_instance

instance : Stays t r.parameter := by unfold parameter; infer_instance

instance (n : Nat) : Stays t (r.parameterList n) := by
  induction n with
  | zero => exact Stays.failure
  | succ n ih =>
    unfold parameterList
    infer_instance

instance : Stays t r.parameters := by unfold parameters; infer_instance

instance : Stays t modifier := by
  unfold modifier
  refine .step fun token => ?_
  cases token <;> infer_instance

instance : Stays t r.methodHead := by unfold methodHead; infer_instance

instance : Stays t r.takeMethod := by
  unfold takeMethod
  refine .step fun found => ?_
  cases found <;> infer_instance

instance : Stays t r.objectMember := by
  unfold objectMember
  refine .step fun start => .step fun spread => .ite' inferInstance (.step fun method => .ite' inferInstance ?_)
  refine .step fun key => .step fun pair => .ite' inferInstance ?_
  cases key <;> infer_instance

instance (n : Nat) : Stays t (r.objectMembers n) := by
  induction n with
  | zero => exact Stays.failure
  | succ n ih =>
    unfold objectMembers
    infer_instance

instance : Stays t r.object := by unfold object; infer_instance

instance : Stays t r.classMember := by
  unfold classMember
  dsimp only
  refine .step fun finished => .ite' inferInstance (.step fun block => .ite' inferInstance (.step fun method => ?_))
  refine .ite' inferInstance (.step fun field => ?_)
  cases field <;> infer_instance

instance : Stays t r.classRest := by unfold classRest; infer_instance
instance : Stays t nameIfAny := by unfold nameIfAny; infer_instance
instance (start : Position) : Stays t (r.classExpression start) := by unfold classExpression; infer_instance

instance (start : Position) (isAsync : Bool) : Stays t (r.functionExpression start isAsync) := by
  unfold functionExpression
  infer_instance

instance (mayEnd : Bool) : Stays t (r.arrowBody mayEnd) := by
  unfold arrowBody
  refine .get fun start inside => .step fun found => ?_
  have restarts : Stays t (set start : Reader PUnit) := .set inside
  split
  next => infer_instance
  next b =>
    refine .get fun next further => ?_
    have goesOn : Stays t (set next : Reader PUnit) := .set further
    infer_instance

instance (start : Position) (isAsync mayEnd : Bool) (params : List Parameter) :
    Stays t (r.arrowRest start isAsync mayEnd params) := by
  unfold arrowRest
  infer_instance

instance (start : Position) (isAsync mayEnd : Bool) : Stays t (r.arrow start isAsync mayEnd) := by unfold arrow; infer_instance
instance (start : Position) (mayEnd : Bool) : Stays t (r.parenthesised start mayEnd) := by unfold parenthesised; infer_instance
instance (start : Position) (mayEnd : Bool) : Stays t (r.nameOrArrow start mayEnd) := by unfold nameOrArrow; infer_instance
instance (start : Position) (mayEnd : Bool) : Stays t (r.asyncFunction start mayEnd) := by unfold asyncFunction; infer_instance

instance (start : Position) (mayEnd : Bool) (w : Text) : Stays t (r.wordExpression start mayEnd w) := by
  unfold wordExpression
  infer_instance

instance (mayEnd : Bool) : Stays t (r.primary mayEnd) := by
  unfold primary
  refine .step fun start => .step fun token => ?_
  split <;> infer_instance

instance (p : Phrase) (isOptional : Bool) : Stays t (memberOf p isOptional) := by
  unfold memberOf
  refine .step fun place => .step fun token => ?_
  cases token <;> infer_instance

instance (p : Phrase) (isOptional : Bool) : Stays t (r.indexOf p isOptional) := by unfold indexOf; infer_instance
instance (p : Phrase) (isOptional : Bool) : Stays t (r.callOf p isOptional) := by unfold callOf; infer_instance

instance (calls mayEnd : Bool) (p : Phrase) : Stays t (r.suffix? calls mayEnd p) := by
  unfold suffix?
  refine .step fun finished => .ite' inferInstance (.step fun token => ?_)
  split <;> infer_instance

instance (calls mayEnd : Bool) (n : Nat) (p : Phrase) : Stays t (r.suffixes calls mayEnd n p) := by
  induction n generalizing p with
  | zero => exact Stays.failure
  | succ n ih =>
    unfold suffixes
    refine .step fun next => ?_
    cases next <;> infer_instance

instance (n : Nat) : Stays t (r.construction n) := by
  induction n with
  | zero => exact Stays.failure
  | succ n ih =>
    unfold construction
    dsimp only
    refine .step fun start => .step fun _ => .step fun target => .ite' inferInstance (.step fun new => ?_)
    exact .ite' inferInstance inferInstance

instance (mayEnd : Bool) : Stays t (r.access mayEnd) := by unfold access; infer_instance

instance (mayEnd : Bool) : Stays t (r.assignable mayEnd) := by
  unfold assignable
  refine .step fun p => .step fun token => ?_
  split <;> infer_instance

instance (mayEnd : Bool) : Stays t (r.yieldExpression mayEnd) := by
  unfold yieldExpression
  dsimp only
  infer_instance

instance : Stays t privateOperand := by unfold privateOperand; infer_instance

instance (mayEnd : Bool) (n : Nat) : Stays t (r.operand mayEnd n) := by
  induction n with
  | zero => exact Stays.failure
  | succ n ih =>
    unfold operand
    refine .step fun start => .step fun token => ?_
    split
    · infer_instance
    · refine .ite' inferInstance (.ite' inferInstance ?_)
      split <;> infer_instance
    · refine .ite' inferInstance ?_
      split <;> infer_instance
    · infer_instance

instance (mayEnd : Bool) (n : Nat) : Stays t (r.chain mayEnd n) := by
  induction n with
  | zero => exact Stays.failure
  | succ n ih =>
    unfold chain
    refine .step fun finished => .ite' inferInstance (.step fun token => ?_)
    split <;> infer_instance

instance (mayEnd : Bool) : Stays t (r.operation mayEnd) := by unfold operation; infer_instance
instance (mayEnd : Bool) : Stays t (r.coverWith mayEnd) := by unfold coverWith; infer_instance
instance : Stays t r.expressionStatement := by unfold expressionStatement; infer_instance

instance : Stays t r.binding := by
  unfold binding
  refine .step fun token => ?_
  split
  next => infer_instance
  next =>
    refine .step fun p => ?_
    split <;> infer_instance

instance : Stays t r.declarator := by unfold declarator; infer_instance
instance (kind : Text) : Stays t (r.declaration kind) := by unfold declaration; infer_instance
instance : Stays t isLetDeclaration := by unfold isLetDeclaration; infer_instance
instance : Stays t declarationWord := by unfold declarationWord; infer_instance
instance (kind : Text) : Stays t (r.declarationStatement kind) := by unfold declarationStatement; infer_instance
instance : Stays t isFunctionDeclaration := by unfold isFunctionDeclaration; infer_instance
instance : Stays t r.functionDeclaration := by unfold functionDeclaration; infer_instance
instance : Stays t r.classDeclaration := by unfold classDeclaration; infer_instance
instance : Stays t r.condition := by unfold condition; infer_instance
instance : Stays t r.ifStatement := by unfold ifStatement; infer_instance

instance : Stays t r.memberLoopHead := by
  unfold memberLoopHead
  dsimp only
  refine .step fun _ => .step fun _ => .andThen (.orElse' (.step fun token => ?_) inferInstance) fun _ => .step fun token => ?_
  · cases token <;> infer_instance
  · cases token <;> infer_instance

instance : Stays t r.loopStart := by
  unfold loopStart
  refine .step fun word => ?_
  split <;> infer_instance

instance (closing : String) : Stays t (r.loopPart closing) := by unfold loopPart; infer_instance

instance : Stays t r.forStatement := by
  unfold forStatement
  refine .step fun start => .step fun _ => .step fun head => ?_
  split <;> infer_instance

instance : Stays t r.whileStatement := by unfold whileStatement; infer_instance
instance : Stays t r.doStatement := by unfold doStatement; infer_instance

instance : Stays t r.handler := by
  unfold handler
  refine .step fun opened => .ite' (.step fun place => .step fun name => .step fun _ => .step fun body => ?_) inferInstance
  cases name <;> infer_instance

instance : Stays t r.tryStatement := by unfold tryStatement; infer_instance
instance : Stays t r.caseBody := by unfold caseBody; infer_instance
instance : Stays t r.switchCase := by unfold switchCase; infer_instance
instance : Stays t r.switchStatement := by unfold switchStatement; infer_instance
instance : Stays t r.withStatement := by unfold withStatement; infer_instance
instance : Stays t r.throwStatement := by unfold throwStatement; infer_instance
instance : Stays t isComplete := by unfold isComplete; infer_instance
instance : Stays t r.returnStatement := by unfold returnStatement; infer_instance
instance (verb : String) (form : Form Shape) : Stays t (jump verb form) := by unfold jump; infer_instance
instance : Stays t debuggerStatement := by unfold debuggerStatement; infer_instance
instance : Stays t isLabel := by unfold isLabel; infer_instance
instance : Stays t r.labeledStatement := by unfold labeledStatement; infer_instance
instance : Stays t isObjectAhead := by unfold isObjectAhead; infer_instance

instance : Stays t r.braces := by
  unfold braces
  refine .get fun start inside => .step fun found => ?_
  have restarts : Stays t (set start : Reader PUnit) := .set inside
  split
  next => infer_instance
  next b =>
    refine .get fun next further => ?_
    have goesOn : Stays t (set next : Reader PUnit) := .set further
    infer_instance

instance : Stays t r.moduleNames := by unfold moduleNames; infer_instance

instance : Stays t moduleSource := by
  unfold moduleSource
  refine .step fun token => ?_
  split <;> infer_instance

instance : Stays t r.importStatement := by
  unfold importStatement
  dsimp only
  refine .step fun start => .step fun _ => .andThen (.orElse' inferInstance (.andThen ?_ inferInstance)) inferInstance
  exact .orElse' inferInstance (.orElse' inferInstance inferInstance)

instance : Stays t r.exportStatement := by
  unfold exportStatement
  dsimp only
  refine .step fun start => .step fun _ => .andThen (.orElse' inferInstance (.orElse' inferInstance ?_)) inferInstance
  refine .step fun isDefault => .step fun word => ?_
  cases word <;> infer_instance

instance (w : Text) : Stays t (r.wordStatement w) := by
  unfold wordStatement
  refine .step fun word => ?_
  split <;> infer_instance

instance : Stays t r.statementWith := by
  unfold statementWith
  refine .step fun start => .step fun token => ?_
  split <;> infer_instance

end Readers

instance (n : Nat) : (readers n).MovesForward := by
  induction n with
  | zero => exact ⟨fun _ _ => Stays.failure, fun _ => Stays.failure, fun _ => Stays.failure⟩
  | succ n ih =>
    refine ⟨fun t mayEnd => ?_, fun t => ?_, fun t => ?_⟩
    · exact inferInstanceAs (Stays t ((readers n).coverWith mayEnd))
    · exact inferInstanceAs (Stays t ((readers n).access false))
    · exact inferInstanceAs (Stays t (readers n).statementWith)

section Looks

/-- A reader that only looks. -/
def Looks {α : Type} (r : Reader α) (P : Text → α → Prop) : Prop := ∀ c a next, r c = some (a, next) → next = c ∧ P (ahead c.rest) a

theorem Looks.run {α β : Type} {r : Reader α} {f : α → Reader β} {L : Text → α → Prop} {c next : Cursor} {b : β} (h : Looks r L)
    (read : (r >>= f) c = some (b, next)) : ∃ a, L (ahead c.rest) a ∧ f a c = some (b, next) := by
  obtain ⟨⟨a, between⟩, first, second⟩ := Option.bind_eq_some_iff.mp read
  obtain ⟨rfl, found⟩ := h c a between first
  exact ⟨a, found, second⟩

theorem looks_peek : Looks peek fun t token => token = next? t := by
  rintro c token next ⟨⟩
  refine ⟨rfl, ?_⟩
  rw [Cursor.ahead_rest]
  rfl

theorem looks_position : Looks position fun _ _ => True := by
  rintro c p next ⟨⟩
  exact ⟨rfl, trivial⟩

theorem looks_get : Looks (get : Reader Cursor) fun _ _ => True := by
  rintro c p next ⟨⟩
  exact ⟨rfl, trivial⟩

theorem looks_isNext (token : Token) : Looks (isNext token) fun t found => found = (next? t == some token) := by
  rintro c found next ⟨⟩
  refine ⟨rfl, ?_⟩
  rw [Cursor.ahead_rest]
  rfl

theorem looks_isOver (mayEnd : Bool) : Looks (Readers.isOver mayEnd) fun _ _ => True := by
  cases mayEnd <;>
  · rintro c p next ⟨⟩
    exact ⟨rfl, trivial⟩

theorem leads_of_take {c next : Cursor} {token : Token} (h : take c = some (token, next)) : Leads (ahead c.rest) token next.rest := by
  rw [take_eq] at h
  obtain ⟨pair, found, same⟩ := Option.map_eq_some_iff.mp h
  cases same
  refine ⟨pair.2, found, ?_⟩
  rw [Cursor.skip_rest, Cursor.ahead_rest]

end Looks

theorem suffix_of_run {α : Type} {r : Reader α} [∀ t, Stays t r] {c next : Cursor} {a : α} (h : r c = some (a, next)) :
    next.rest <:+ c.rest :=
  Stays.suffix c a next (List.suffix_refl _) h

end Unravel.Grammar
