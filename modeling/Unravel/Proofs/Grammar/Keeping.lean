import Unravel.Proofs.Grammar.Forward
import Unravel.Proofs.Grammar.Grouping
import Unravel.Proofs.Grammar.Lowering

/-! What holds of all that is read. A property that every construct keeps holds of whatever the readers of expressions read. -/
namespace Unravel.Grammar

open List hiding set

/-- Whatever a reader reads has a property. -/
def Yields {α : Type} (r : Reader α) (P : α → Prop) : Prop := ∀ c a next, r c = some (a, next) → P a

section Yields

variable {α β : Type} {P : α → Prop} {Q : β → Prop}

protected theorem Yields.pure {a : α} (h : P a) : Yields (pure a) P := by
  intro c b next result
  cases result
  exact h

protected theorem Yields.failure : Yields (failure : Reader α) P := nofun

theorem Yields.bind {r : Reader α} {f : α → Reader β} (h : Yields r P) (further : ∀ a, P a → Yields (f a) Q) :
    Yields (r >>= f) Q := by
  intro c b next result
  obtain ⟨⟨a, between⟩, first, second⟩ := Option.bind_eq_some_iff.mp result
  exact further a (h c a between first) between b next second

theorem Yields.imp {P' : α → Prop} {r : Reader α} (h : Yields r P) (weaker : ∀ a, P a → P' a) : Yields r P' :=
  fun c a next result => weaker a (h c a next result)

theorem yields_anything (r : Reader α) : Yields r fun _ => True := fun _ _ _ _ => trivial

theorem Yields.after {r : Reader α} {f : α → Reader β} (further : ∀ a, Yields (f a) Q) : Yields (r >>= f) Q :=
  (yields_anything r).bind fun a _ => further a

theorem Yields.ite {c : Prop} [Decidable c] {r s : Reader α} (hr : Yields r P) (hs : Yields s P) :
    Yields (if c then r else s) P := by
  split
  · exact hr
  · exact hs

theorem Yields.ifPresent {present : Bool} {r : Reader α} {k : Option α → Reader β} (h : Yields r P)
    (further : ∀ o, (∀ a ∈ o, P a) → Yields (k o) Q) :
    Yields (if present then (do let a ← r; let o ← pure (some a); k o) else (do let o ← pure none; k o)) Q := by
  refine .ite (h.bind fun a ha => further (some a) ?_) (further none fun a none => by cases none)
  rintro b ⟨⟩
  exact ha

theorem Yields.orElse {r s : Reader α} (hr : Yields r P) (hs : Yields s P) : Yields (r <|> s) P := by
  intro c a next result
  exact (orElse_eq_some result).elim (hr c a next) (hs c a next)

theorem optionally_run (r : Reader α) (c : Cursor) :
    optionally r c = some (match r c with
      | some (a, next) => (some a, next)
      | none => (none, c)) := by
  change (match r c with
    | some (a, next) => (do set next; return some a : Reader (Option α))
    | none => pure none) c = _
  cases r c <;> rfl

theorem Yields.optionally {r : Reader α} (h : Yields r P) : Yields (optionally r) fun o => ∀ a, o = some a → P a := by
  intro c o next result a same
  rw [optionally_run, Option.some.injEq] at result
  split at result
  next b after read =>
    cases result
    cases same
    exact h c a next read
  next =>
    cases result
    cases same

theorem Yields.untilStop {stop : Reader Bool} {item : Reader α} (h : Yields item P) (n : Nat) :
    Yields (untilStop stop item n) fun l => ∀ a ∈ l, P a := by
  induction n with
  | zero => exact .failure
  | succ n ih =>
    refine .after fun stopped => ?_
    split
    · exact .pure nofun
    · refine h.bind fun a ha => ih.bind fun rest hrest => .pure ?_
      simpa using ⟨ha, hrest⟩

theorem Yields.commaSeparated {item : Reader α} (h : Yields item P) (n : Nat) :
    Yields (commaSeparated item n) fun l => ∀ a ∈ l, P a := by
  induction n with
  | zero => exact .failure
  | succ n ih =>
    refine h.bind fun a ha => .after fun more => ?_
    split
    · refine ih.bind fun rest hrest => .pure ?_
      simpa using ⟨ha, hrest⟩
    · exact .pure (by simpa using ha)

end Yields

section Gathers

variable {α β : Type} {A B : Text → Prop} {t : Text} {r s : Reader α} {f : α → Reader β} {P P' : α → Prop} {Q : β → Prop}

/-- What a reader reads from an end of a text on which a condition holds has a property. -/
def Gathers (t : Text) (A : Text → Prop) (r : Reader α) (P : α → Prop) : Prop :=
  ∀ c a next, c.rest <:+ t → A (ahead c.rest) → r c = some (a, next) → P a

/-- No condition on the text. -/
abbrev anywhere : Text → Prop := fun _ => True

theorem Yields.gathers (h : Yields r P) : Gathers t A r P := fun c a next _ _ read => h c a next read

theorem yields_of_gathers (h : ∀ t, Gathers t anywhere r P) : Yields r P :=
  fun c a next read => h c.rest c a next (suffix_refl _) trivial read

protected theorem Gathers.pure {a : α} (h : P a) : Gathers t A (pure a) P := (Yields.pure h).gathers

protected theorem Gathers.failure : Gathers t A (failure : Reader α) P := Yields.failure.gathers

theorem Gathers.imp (h : Gathers t A r P) (weaker : ∀ a, P a → P' a) : Gathers t A r P' :=
  fun c a next inside here read => weaker a (h c a next inside here read)

theorem Gathers.mono (h : Gathers t A r P) (stronger : ∀ u, B u → A u) : Gathers t B r P :=
  fun c a next inside here => h c a next inside (stronger _ here)

theorem Gathers.bind [Stays t r] (h : Gathers t A r P) (further : ∀ a, P a → Gathers t anywhere (f a) Q) : Gathers t A (r >>= f) Q := by
  intro c b next inside here result
  obtain ⟨⟨a, between⟩, first, second⟩ := Option.bind_eq_some_iff.mp result
  exact further a (h c a between inside here first) between b next (Stays.suffix c a between inside first) trivial second

theorem Gathers.after [Stays t r] (further : ∀ a, Gathers t anywhere (f a) Q) : Gathers t A (r >>= f) Q :=
  (yields_anything r).gathers.bind fun a _ => further a

theorem Looks.gathers {L : Text → α → Prop} (h : Looks r L) (further : ∀ a, Gathers t (fun u => A u ∧ L u a) (f a) Q) :
    Gathers t A (r >>= f) Q := by
  intro c b next inside here result
  obtain ⟨a, found, second⟩ := h.run result
  exact further a c b next inside ⟨here, found⟩ second

theorem Gathers.orElse (h : Gathers t A r P) (otherwise : Gathers t A s P) : Gathers t A (r <|> s) P := by
  intro c a next inside here result
  exact (orElse_eq_some result).elim (h c a next inside here) (otherwise c a next inside here)

theorem Gathers.ite {c : Prop} [Decidable c] (yes : c → Gathers t A r P) (no : ¬c → Gathers t A s P) :
    Gathers t A (if c then r else s) P := by
  split
  next holds => exact yes holds
  next fails => exact no fails

theorem Gathers.commaSeparated [Stays t r] (h : Gathers t anywhere r P) (n : Nat) :
    Gathers t anywhere (commaSeparated r n) fun l => ∀ a ∈ l, P a := by
  induction n with
  | zero => exact .failure
  | succ n ih =>
    refine h.bind fun a ha => .after fun more => .ite (fun _ => ?_) fun _ => ?_
    · exact ih.bind fun rest hrest => .pure (forall_mem_cons.mpr ⟨ha, hrest⟩)
    · exact .pure (forall_mem_singleton.mpr ha)

theorem gathers_require (b : Bool) : Gathers t A (require b) fun _ => b = true := by
  rw [require]
  exact .ite (fun holds => .pure holds) fun _ => .failure

end Gathers

namespace Chain

variable {α : Type} {join : α → BinaryOp → α → α} {P : α → Prop} {K : BinaryOp → Prop}
  (joins : ∀ left op right, K op → P left → P right → P (join left op right))

include joins

theorem settle_keeps (incoming : BinaryOp) {waiting : List (α × BinaryOp)} {last : α} (all : ∀ w ∈ waiting, P w.1 ∧ K w.2)
    (here : P last) :
    (∀ w ∈ (settle join incoming waiting last).1, P w.1 ∧ K w.2) ∧ P (settle join incoming waiting last).2 := by
  induction waiting generalizing last with
  | nil => exact ⟨nofun, here⟩
  | cons w waiting ih =>
    obtain ⟨left, op⟩ := w
    rw [settle]
    split
    · obtain ⟨before, known⟩ := all (left, op) (.head _)
      exact ih (fun w hw => all w (.tail _ hw)) (joins left op last known before here)
    · exact ⟨all, here⟩

/-- Grouping keeps what every operand has and every join keeps. -/
theorem group_keeps {first : α} {tail : List (BinaryOp × α)} (here : P first) (all : ∀ next ∈ tail, K next.1 ∧ P next.2) :
    P (group join first tail) := by
  let Kept (state : List (α × BinaryOp) × α) : Prop := (∀ w ∈ state.1, P w.1 ∧ K w.2) ∧ P state.2
  have joined : ∀ waiting : List (α × BinaryOp), ∀ last, (∀ w ∈ waiting, P w.1 ∧ K w.2) → P last →
      P (close join (waiting, last)) := by
    intro waiting
    induction waiting with
    | nil => exact fun last _ hl => hl
    | cons w waiting ih =>
      intro last kept hl
      obtain ⟨before, known⟩ := kept w (.head _)
      exact ih _ (fun w hw => kept w (.tail _ hw)) (joins w.1 w.2 last known before hl)
  have kept : ∀ state, Kept state → Kept (tail.foldl (advance join) state) := by
    induction tail with
    | nil => exact fun state hs => hs
    | cons next tail ih =>
      intro state hs
      obtain ⟨known, operand⟩ := all next (.head _)
      obtain ⟨waits, left⟩ := settle_keeps joins next.1 hs.1 hs.2
      refine ih (fun n hn => all n (.tail _ hn)) _ ⟨fun w hw => ?_, operand⟩
      rcases mem_cons.mp hw with rfl | hw
      · exact ⟨left, known⟩
      · exact waits w hw
  obtain ⟨waits, last⟩ := kept ([], first) ⟨forall_mem_nil _, here⟩
  rw [group_eq]
  exact joined _ _ waits last

end Chain

/-- Somewhere in a text a token starts. -/
def Taken (t : Text) (token : Token) : Prop := ∃ u n, u <:+ t ∧ token? u = some (token, n)

/-- Properties of the phrases and members in a text that all constructs of the language keep. Names are only considered where a
condition on the text holds, which the word `yield` may break. What the functions among the phrases are like is left to the readers. -/
structure Keeps (t : Text) (r : Readers) (B : Text → Prop) (P : Phrase → Prop) (M : Member → Prop) : Prop where
  cover : ∀ mayEnd, Gathers t anywhere (r.cover mayEnd) P
  functionExpression : ∀ start isAsync, Gathers t anywhere (r.functionExpression start isAsync) P
  arrow : ∀ start isAsync mayEnd, Gathers t anywhere (r.arrow start isAsync mayEnd) P
  arrowOfName : ∀ {w}, Taken t (.word w) → ∀ start place isAsync mayEnd,
    Gathers t anywhere (r.arrowRest start isAsync mayEnd [.ofPhrase (.name w place)]) P
  free : ∀ u, next? u ≠ some (.word "yield") → B u
  name : ∀ {w}, Taken t (.word w) → isName w → ∀ u, B u → next? u = some (.word w) → ∀ start, P (.name w start)
  boolean : ∀ {w : Text}, w = "true" ∨ w = "false" → ∀ start b, P (.leaf w start (.boolean b))
  null : ∀ start, P (.leaf "null" start .null)
  number : ∀ {u}, Taken t (.number u) → ∀ start, P (.number u start)
  string : ∀ u start, P (.string u start)
  foreign : ∀ kind start, P (.foreign kind start)
  tagged : ∀ p place, P (.tagged p place)
  parenthesised : ∀ {p}, P p → ∀ start, P (.parenthesised start p)
  array : ∀ {es}, (∀ p ∈ List.filterMap Element.phrase? es, P p) → ∀ start commented, P (.array start es commented)
  spread : ∀ start p, M (.spread start p)
  method : ∀ start, M (.method start)
  pair : ∀ {key p}, Taken t key → P p → ∀ start, M (.pair key start p)
  shorthand : ∀ {w}, Taken t (.word w) → isName w → M (.shorthand w) ∧ M (.defaulted w)
  object : ∀ {ms : List Member}, (∀ m ∈ ms, M m) → ∀ start, P (.object start ms)
  member : ∀ {p token}, P p → Taken t token → ∀ isOptional place, P (.member p isOptional token place)
  index : ∀ {p key}, P p → P key → ∀ isOptional, P (.index p isOptional key)
  call : ∀ {p es}, P p → (∀ p ∈ List.filterMap Element.phrase? es, P p) → ∀ isOptional, P (.call p isOptional es)
  assign : ∀ {p op value}, op ∈ assignments → P p → P value → P (.assign p op value)
  unary : ∀ {op p}, UnaryOp.isKnown op → P p → ∀ start, P (.unary op start p)
  binary : ∀ {left op right}, BinaryOp.isKnown op → P left → P right → P (.binary left op right)
  conditional : ∀ {test yes no}, P test → P yes → P no → P (.conditional test yes no)
  sequence : ∀ {p ps}, (∀ q ∈ p :: ps, P q) → P (.sequence p ps)

section Tokens

variable {t : Text} {A : Text → Prop}

theorem gathers_take : Gathers t A take fun token => Taken t token ∧ ∃ u, A u ∧ next? u = some token := by
  intro c token next inside here result
  obtain ⟨n, found, -⟩ := leads_of_take result
  exact ⟨⟨_, n, (drop_suffix _ _).trans inside, found⟩, _, here, (leads_of_take result).next?⟩

theorem gathers_name : Gathers t A name fun w => Taken t (.word w) ∧ isName w ∧ ∃ u, A u ∧ next? u = some (.word w) := by
  refine gathers_take.bind fun token taken => ?_
  cases token with
  | word w => exact (gathers_require (isName w)).bind fun _ named => .pure ⟨taken.1, named, taken.2⟩
  | _ => exact .failure

end Tokens

namespace Keeps

variable {t : Text} {A B : Text → Prop} {r : Readers} {P : Phrase → Prop} {M : Member → Prop} {p : Phrase} (k : Keeps t r B P M)

include k

theorem foreigner (kind : Text) (start : Position) : Gathers t A (pure (Phrase.foreign kind start)) P := .pure (k.foreign kind start)

theorem nameOrArrow (start : Position) (mayEnd : Bool) : Gathers t B (r.nameOrArrow start mayEnd) P := by
  refine gathers_name.bind fun w found => .after fun arrow => .ite (fun _ => ?_) fun _ => .pure ?_
  · exact k.arrowOfName found.1 start start false mayEnd
  · obtain ⟨taken, named, u, here, next⟩ := found
    exact k.name taken named u here next start

theorem asyncFunction (start : Position) (mayEnd : Bool) : Gathers t A (r.asyncFunction start mayEnd) P := by
  refine .after fun _ => .after fun _ => .after fun _ => .after fun _ => .ite (fun _ => k.functionExpression start true) fun _ => ?_
  refine .orElse (.after fun place => ?_) (k.arrow start true mayEnd)
  exact gathers_name.bind fun w found => k.arrowOfName found.1 start place true mayEnd

theorem memberOf (kept : P p) (isOptional : Bool) : Gathers t A (Readers.memberOf p isOptional) P := by
  refine .after fun place => gathers_take.bind fun token taken => ?_
  cases token with
  | word w => exact .pure (k.member kept taken.1 isOptional place)
  | privateName w => exact .pure (k.member kept taken.1 isOptional place)
  | _ => exact .failure

variable [r.MovesForward]

theorem wordExpression (start : Position) (mayEnd : Bool) (w : Text) : Gathers t B (r.wordExpression start mayEnd w) P := by
  unfold Readers.wordExpression
  refine .ite (fun truth => .after fun _ => .pure (k.boolean truth start _)) fun _ => .ite (fun null => ?_) fun _ => ?_
  · cases null
    exact .after fun _ => .pure (k.null start)
  refine .ite (fun _ => .after fun _ => k.foreigner _ _) fun _ => ?_
  refine .ite (fun _ => (k.functionExpression start false).mono fun _ _ => trivial) fun _ => .ite (fun _ => ?_) fun _ => ?_
  · exact .after fun _ => .after fun _ => .after fun _ => k.foreigner _ _
  refine .ite (fun _ => .after fun _ => .after fun _ => .ite (fun _ => .after fun _ => k.foreigner _ _) fun _ => ?_) fun _ => ?_
  · exact .after fun _ => .after fun _ => k.foreigner _ _
  exact .ite (fun _ => (k.asyncFunction start mayEnd).orElse (k.nameOrArrow start mayEnd)) fun _ => k.nameOrArrow start mayEnd

theorem expression (mayEnd : Bool) : Gathers t anywhere (r.expression mayEnd) P :=
  (k.cover mayEnd).bind fun _ kept => .after fun _ => .pure kept

theorem expressions (mayEnd : Bool) : Gathers t anywhere (r.expressions mayEnd) P := by
  refine ((k.expression mayEnd).commaSeparated r.bound).bind fun ps kept => ?_
  cases ps with
  | nil => exact .failure
  | cons p ps => exact .pure (k.sequence kept)

theorem parenthesised_reader (start : Position) (mayEnd : Bool) : Gathers t A (r.parenthesised start mayEnd) P := by
  refine .orElse (.after fun _ => (k.expressions false).bind fun p kept => ?_) ((k.arrow start false mayEnd).mono fun _ _ => trivial)
  exact .after fun _ => .after fun _ => .after fun _ => .pure (k.parenthesised kept start)

theorem elements (closing : String) (n : Nat) :
    Gathers t anywhere (r.elements closing n) fun read => ∀ q ∈ read.1.filterMap Element.phrase?, P q := by
  induction n with
  | zero => exact .failure
  | succ n ih =>
    refine looks_get.gathers fun _ => .after fun closed => .ite (fun _ => .pure (forall_mem_nil _)) fun _ => ?_
    refine .after fun comma => .ite (fun _ => ih.bind fun read kept => .pure kept) fun _ => ?_
    refine .after fun start => .after fun spread => (k.cover false).bind fun p hp => ?_
    refine .after fun _ => .after fun _ => .after fun _ => ih.bind fun read kept => .pure ?_
    cases spread <;> exact forall_mem_cons.mpr ⟨hp, kept⟩

theorem arguments : Gathers t anywhere r.arguments fun elements => ∀ q ∈ elements.filterMap Element.phrase?, P q :=
  (k.elements ")" r.bound).bind fun _ all => .after fun _ => .pure all

omit k in
theorem propertyName : Gathers t A r.propertyName (Taken t) := by
  refine gathers_take.bind fun token taken => ?_
  cases token with
  | symbol s => exact .after fun _ => .after fun _ => .after fun _ => .pure taken.1
  | _ => exact .pure taken.1

theorem objectMember : Gathers t anywhere r.objectMember M := by
  refine .after fun start => .after fun spread => .ite (fun _ => .after fun p => .pure (k.spread start p)) fun _ => ?_
  refine .after fun method => .ite (fun _ => .pure (k.method start)) fun _ => propertyName.bind fun key taken => ?_
  refine .after fun colon => .ite (fun _ => (k.cover false).bind fun v hv => .pure (k.pair taken hv start)) fun _ => ?_
  cases key with
  | word w =>
    refine (gathers_require (isName w)).bind fun _ name => .after fun equals => .ite (fun _ => .after fun _ => ?_) fun _ => ?_
    · exact .pure (k.shorthand taken name).2
    · exact .pure (k.shorthand taken name).1
  | _ => exact .failure

theorem objectMembers (n : Nat) : Gathers t anywhere (r.objectMembers n) fun ms => ∀ m ∈ ms, M m := by
  induction n with
  | zero => exact .failure
  | succ n ih =>
    refine .after fun closed => .ite (fun _ => .pure (forall_mem_nil _)) fun _ => ?_
    refine .after fun comma => .ite (fun _ => ih) fun _ => k.objectMember.bind fun m kept => ?_
    refine .after fun _ => .after fun _ => .after fun _ => ih.bind fun ms others => ?_
    exact .pure (forall_mem_cons.mpr ⟨kept, others⟩)

theorem primary (mayEnd : Bool) : Gathers t B (r.primary mayEnd) P := by
  refine looks_position.gathers fun start => looks_peek.gathers fun token => ?_
  split
  next w => exact (k.wordExpression start mayEnd w).mono fun _ here => here.1.1
  next u =>
    refine gathers_take.bind fun token taken => .pure (k.number ?_ start)
    obtain ⟨taken, _, ⟨-, same⟩, found⟩ := taken
    cases same.trans found
    exact taken
  next u => exact .after fun _ => .pure (k.string u start)
  next s =>
    refine .ite (fun _ => k.parenthesised_reader start mayEnd) fun _ => .ite (fun _ => .after fun start => .after fun _ => ?_) fun _ => ?_
    · exact (k.elements "]" r.bound).bind fun read kept => .pure (k.array kept start read.2)
    refine .ite (fun _ => .after fun start => .after fun _ => ?_) fun _ => ?_
    · exact (k.objectMembers r.bound).bind fun ms kept => .pure (k.object kept start)
    refine .ite (fun _ => .after fun _ => k.foreigner _ _) fun _ => ?_
    exact .ite (fun _ => .after fun _ => k.foreigner _ _) fun _ => .failure
  next => exact .failure

theorem indexOf (kept : P p) (isOptional : Bool) : Gathers t A (r.indexOf p isOptional) P :=
  .after fun _ => (k.expressions false).bind fun _ key => .after fun _ => .pure (k.index kept key isOptional)

theorem callOf (kept : P p) (isOptional : Bool) : Gathers t A (r.callOf p isOptional) P :=
  .after fun _ => k.arguments.bind fun _ all => .pure (k.call kept all isOptional)

theorem suffix (calls mayEnd : Bool) (kept : P p) : Gathers t anywhere (r.suffix? calls mayEnd p) fun next => ∀ q ∈ next, P q := by
  have stop : Gathers t anywhere (pure none) fun next : Option Phrase => ∀ q ∈ next, P q := .pure (by rintro q ⟨⟩)
  have found : ∀ {q}, P q → Gathers t anywhere (pure (some q)) fun next => ∀ q ∈ next, P q := by
    refine fun here => .pure ?_
    rintro q ⟨⟩
    exact here
  have go : ∀ {reader : Reader Phrase} [Stays t reader], Gathers t anywhere reader P →
      Gathers t anywhere (do return some (← reader)) fun next => ∀ q ∈ next, P q := fun reads => reads.bind fun _ => found
  refine .after fun _ => .ite (fun _ => stop) fun _ => .after fun token => ?_
  split
  next s =>
    refine .ite (fun _ => .after fun _ => go (k.memberOf kept false)) fun _ => ?_
    refine .ite (fun _ => go (k.indexOf kept false)) fun _ => .ite (fun _ => .after fun place => .after fun _ => ?_) fun _ => ?_
    · exact found (k.tagged p place)
    refine .ite (fun _ => stop) fun _ => .ite (fun _ => go (k.callOf kept false)) fun _ => ?_
    refine .ite (fun _ => .after fun _ => .after fun _ => .ite (fun _ => go (k.indexOf kept true)) fun _ => ?_) fun _ => ?_
    · exact .after fun _ => .ite (fun _ => go (k.callOf kept true)) fun _ => go (k.memberOf kept true)
    exact .ite (fun _ => .after fun _ => found (k.foreign _ _)) fun _ => stop
  next => exact stop

theorem suffixes (calls mayEnd : Bool) (n : Nat) (kept : P p) : Gathers t anywhere (r.suffixes calls mayEnd n p) P := by
  induction n generalizing p with
  | zero => exact .failure
  | succ n ih =>
    refine (k.suffix calls mayEnd kept).bind fun next further => ?_
    cases next with
    | none => exact .pure kept
    | some q => exact .after fun _ => ih (further q rfl)

theorem construction (n : Nat) : Gathers t A (r.construction n) P := by
  cases n with
  | zero => exact .failure
  | succ n =>
    have arguments : ∀ start, Gathers t anywhere (do
        if ← isNextSymbol "(" then
          symbol "("
          let _ ← r.arguments
        return Phrase.foreign "new_expression" start) P := by
      refine fun start => .after fun _ => .ite (fun _ => ?_) fun _ => k.foreigner _ _
      exact .after fun _ => .after fun _ => k.foreigner _ _
    refine .after fun start => .after fun _ => .after fun _ => .ite (fun _ => .after fun _ => k.foreigner _ _) fun _ => ?_
    refine .after fun _ => .ite (fun _ => .after fun _ => arguments start) fun _ => ?_
    exact .after fun _ => .after fun _ => arguments start

theorem access (mayEnd : Bool) : Gathers t B (r.access mayEnd) P := by
  refine (looks_isNext _).gathers fun new => .ite (fun _ => ?_) fun _ => ?_
  · exact (k.construction r.bound).bind fun p hp => k.suffixes true mayEnd r.bound hp
  · exact ((k.primary mayEnd).mono fun _ here => here.1).bind fun p hp => k.suffixes true mayEnd r.bound hp

theorem assignable (mayEnd : Bool) : Gathers t B (r.assignable mayEnd) P := by
  refine (k.access mayEnd).bind fun p hp => .after fun token => ?_
  split
  next s =>
    refine .ite (fun assigns => .after fun _ => ?_) fun _ => .pure hp
    have member : s ∈ assignments := by
      rcases assigns with ⟨rfl, -⟩ | ⟨compound, -⟩
      · exact .head _
      · exact .tail _ (contains_iff_mem.mp compound)
    exact (k.expression mayEnd).bind fun v hv => .pure (k.assign member hp hv)
  next => exact .pure hp

theorem operand (mayEnd : Bool) (n : Nat) : Gathers t anywhere (r.operand mayEnd n) P := by
  induction n with
  | zero => exact .failure
  | succ n ih =>
    have unary : ∀ {A : Text → Prop} start op, UnaryOp.isKnown op → Gathers t A (do
        let _ ← take
        let p ← r.operand mayEnd n
        require p.isExpression
        return Phrase.unary op start p) P :=
      fun start op known => .after fun _ => ih.bind fun p hp => .after fun _ => .pure (k.unary known hp start)
    have plain : ∀ {A : Text → Prop} {token : Option Token}, token ≠ some (.word "yield") →
        Gathers t (fun u => A u ∧ token = next? u) (r.assignable mayEnd) P := by
      intro A token other
      exact (k.assignable mayEnd).mono fun u here => k.free u (here.2 ▸ other)
    refine looks_position.gathers fun start => looks_peek.gathers fun token => ?_
    split
    next => exact .after fun _ => .after fun _ => .after fun _ => .after fun _ => k.foreigner _ _
    next w =>
      refine .ite (fun _ => .after fun place => .after fun _ => .after fun _ => .ite (fun _ => ?_) fun _ => ?_) fun other => ?_
      · exact .after fun _ => .ite (fun _ => .after fun _ => k.foreigner _ _) fun _ => .after fun _ => k.foreigner _ _
      · exact k.foreigner _ _
      have free : (some (.word w) : Option Token) ≠ some (.word "yield") := fun same => other (by simpa using same)
      refine .ite (fun _ => .orElse ?_ (plain free)) fun _ => ?_
      · exact .after fun _ => .after fun _ => .after fun _ => .after fun _ => .after fun _ => k.foreigner _ _
      · split
        next op found => exact unary start op (isKnown_of_unaryOp? found)
        next => exact plain free
    next s =>
      refine .ite (fun _ => .after fun _ => .after fun _ => .after fun _ => k.foreigner _ _) fun _ => ?_
      split
      next op found => exact unary start op (isKnown_of_unaryOp? found)
      next => exact plain (by rintro ⟨⟩)
    next noWord _ => exact plain (noWord _)

theorem chain (mayEnd : Bool) (n : Nat) :
    Gathers t anywhere (r.chain mayEnd n) fun tail => ∀ next ∈ tail, next.1.isKnown ∧ P next.2 := by
  induction n with
  | zero => exact .failure
  | succ n ih =>
    refine .after fun _ => .ite (fun _ => .pure (forall_mem_nil _)) fun _ => .after fun token => ?_
    split
    next op found =>
      obtain ⟨token, -, operator⟩ := Option.bind_eq_some_iff.mp found
      refine .after fun _ => (k.operand mayEnd r.bound).bind fun p hp => .after fun _ => ih.bind fun tail all => ?_
      exact .pure (forall_mem_cons.mpr ⟨⟨isKnown_of_binaryOp? operator, hp⟩, all⟩)
    next => exact .pure (forall_mem_nil _)

theorem coverWith (mayEnd : Bool) : Gathers t anywhere (r.coverWith mayEnd) P := by
  have operation : Gathers t anywhere (r.operation mayEnd) P := by
    refine (k.operand mayEnd r.bound).bind fun p hp => (k.chain mayEnd r.bound).bind fun tail all => .after fun _ => .pure ?_
    exact Chain.group_keeps (fun _ _ _ => k.binary) hp all
  refine operation.bind fun p hp => .after fun _ => .after fun _ => .ite (fun _ => ?_) fun _ => .pure hp
  refine .after fun _ => .after fun _ => (k.expression false).bind fun q hq => .after fun _ => ?_
  exact (k.expression mayEnd).bind fun a ha => .pure (k.conditional hp hq ha)

end Keeps

end Unravel.Grammar
