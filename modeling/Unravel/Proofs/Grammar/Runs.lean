import Unravel.Proofs.Grammar.Lexing

/-! What readers do before a text that starts with known tokens. -/
namespace Unravel.Grammar

/-- Before a text a reader succeeds, stops before the rest and has read something with a property. Blanks in front of
either do not matter. -/
def Reads {α : Type} (r : Reader α) (t rest : Text) (P : α → Prop) : Prop :=
  ∀ c : Cursor, ahead c.rest = t → ∃ a next, r c = some (a, next) ∧ ahead next.rest = rest ∧ P a

/-- Where a reader stops that succeeds before a text. -/
def Stops {α : Type} (r : Reader α) (t : Text) (R : Text → Prop) : Prop :=
  ∀ (c : Cursor) a next, ahead c.rest = t → r c = some (a, next) → R (ahead next.rest)

/-- Before a text a reader fails. -/
def Refuses {α : Type} (r : Reader α) (t : Text) : Prop := ∀ c : Cursor, ahead c.rest = t → r c = none

section Readers

variable {α β : Type} {r s : Reader α} {f : α → Reader β} {t mid rest : Text} {P : α → Prop} {Q : β → Prop} {R S : Text → Prop}

theorem reads_pure {a : α} (h : P a) : Reads (pure a) t t P := fun c here => ⟨a, c, rfl, here, h⟩

theorem Reads.bind (h : Reads r t mid P) (further : ∀ a, P a → Reads (f a) mid rest Q) : Reads (r >>= f) t rest Q := by
  intro c here
  obtain ⟨a, between, first, stopped, ha⟩ := h c here
  obtain ⟨b, next, second, done, hb⟩ := further a ha between stopped
  exact ⟨b, next, Option.bind_eq_some_iff.mpr ⟨(a, between), first, second⟩, done, hb⟩

/-- Where what is read is known, reading goes on with it. -/
theorem Reads.next {a : α} (h : Reads r t mid (· = a)) (further : Reads (f a) mid rest Q) : Reads (r >>= f) t rest Q :=
  h.bind fun _ same => same ▸ further

theorem Reads.imp {P' : α → Prop} (h : Reads r t rest P) (weaker : ∀ a, P a → P' a) : Reads r t rest P' := by
  intro c here
  obtain ⟨a, next, read, done, ha⟩ := h c here
  exact ⟨a, next, read, done, weaker a ha⟩

theorem Reads.orElse (h : Reads r t rest P) : Reads (r <|> s) t rest P := by
  intro c here
  obtain ⟨a, next, read, done, ha⟩ := h c here
  refine ⟨a, next, ?_, done, ha⟩
  change (r c <|> s c) = _
  rw [read]
  rfl

theorem Refuses.orElse (h : Refuses r t) (otherwise : Reads s t rest P) : Reads (r <|> s) t rest P := by
  intro c here
  obtain ⟨a, next, read, done, ha⟩ := otherwise c here
  refine ⟨a, next, ?_, done, ha⟩
  change (r c <|> s c) = _
  rw [h c here]
  exact read

theorem Refuses.both (h : Refuses r t) (otherwise : Refuses s t) : Refuses (r <|> s) t := by
  intro c here
  change (r c <|> s c) = _
  rw [h c here]
  exact otherwise c here

theorem Refuses.bind (h : Refuses r t) : Refuses (r >>= f) t := by
  intro c here
  change (r c).bind _ = none
  rw [h c here]
  rfl

theorem Reads.bind_refuses (h : Reads r t mid P) (further : ∀ a, P a → Refuses (f a) mid) : Refuses (r >>= f) t := by
  intro c here
  obtain ⟨a, between, first, stopped, ha⟩ := h c here
  change (r c).bind _ = none
  rw [first]
  exact further a ha between stopped

theorem Reads.next_refuses {a : α} (h : Reads r t mid (· = a)) (further : Refuses (f a) mid) : Refuses (r >>= f) t :=
  h.bind_refuses fun _ same => same ▸ further

theorem Reads.bind_stops (h : Reads r t mid P) (further : ∀ a, P a → Stops (f a) mid S) : Stops (r >>= f) t S := by
  intro c b next here result
  obtain ⟨a, between, first, stopped, ha⟩ := h c here
  obtain ⟨⟨a', between'⟩, again, second⟩ := Option.bind_eq_some_iff.mp result
  cases again.symm.trans first
  exact further a ha between b next stopped second

theorem Reads.next_stops {a : α} (h : Reads r t mid (· = a)) (further : Stops (f a) mid S) : Stops (r >>= f) t S :=
  h.bind_stops fun _ same => same ▸ further

theorem Stops.bind (h : Stops r t R) (further : ∀ a mid, R mid → Stops (f a) mid S) : Stops (r >>= f) t S := by
  intro c b next here result
  obtain ⟨⟨a, between⟩, first, second⟩ := Option.bind_eq_some_iff.mp result
  exact further a _ (h c a between here first) between b next rfl second

theorem Stops.bind_refuses (h : Stops r t R) (further : ∀ a mid, R mid → Refuses (f a) mid) : Refuses (r >>= f) t := by
  intro c here
  change (r c).bind _ = none
  cases read : r c with
  | none => rfl
  | some found => exact further found.1 _ (h c found.1 found.2 here read) found.2 rfl

theorem stops_failure : Stops (failure : Reader α) t R := nofun

theorem stops_pure {a : α} (h : R t) : Stops (pure a) t R := by
  intro c b next here result
  cases result
  rwa [here]

theorem Reads.stops (h : Reads r t rest P) (there : R rest) : Stops r t R := by
  intro c a next here result
  obtain ⟨b, stop, read, done, -⟩ := h c here
  cases result.symm.trans read
  rwa [done]

theorem Refuses.stops (h : Refuses r t) : Stops r t R := by
  intro c a next here result
  rw [h c here] at result
  cases result

end Readers

section Tokens

variable {t rest : Text} {token other : Token}

theorem reads_position : Reads position t t fun _ => True := fun c here => ⟨_, c, rfl, here, trivial⟩

theorem reads_peek : Reads peek t t (· = next? t) := by
  intro c here
  refine ⟨_, c, rfl, here, ?_⟩
  rw [Cursor.ahead_rest, here]
  rfl

theorem reads_take (h : Leads t token rest) : Reads take t (ahead rest) (· = token) := by
  intro c here
  obtain ⟨n, found, rfl⟩ := h
  refine ⟨token, c.ahead.skip n, ?_, ?_, rfl⟩
  · rw [take_eq, here, found]
    rfl
  · rw [Cursor.skip_rest, Cursor.ahead_rest, here]

theorem reads_isNext : Reads (isNext token) t t (· = (next? t == some token)) :=
  reads_peek.bind fun found same => reads_pure (by rw [same])

theorem reads_isNext_other (h : next? t ≠ some token) : Reads (isNext token) t t (· = false) :=
  reads_isNext.imp fun _ same => same.trans (beq_false_of_ne h)

theorem reads_takeIf (h : Leads t token rest) : Reads (takeIf token) t (ahead rest) (· = true) := by
  refine reads_isNext.next ?_
  rw [h.next?, beq_self_eq_true, if_pos rfl]
  exact (reads_take h).bind fun _ _ => reads_pure rfl

theorem reads_takeIf_other (h : next? t ≠ some token) : Reads (takeIf token) t t (· = false) := by
  refine (reads_isNext_other h).next ?_
  rw [if_neg Bool.false_ne_true]
  exact reads_pure rfl

theorem reads_require {b : Bool} (h : b) : Reads (require b) t t fun _ => True := by
  rw [require, if_pos h]
  exact reads_pure trivial

theorem refuses_require {b : Bool} (h : b = false) : Refuses (require b) t := by
  intro c _
  rw [require, h]
  rfl

theorem reads_symbol {s : String} (h : Leads t (.symbol s) rest) : Reads (symbol s) t (ahead rest) fun _ => True :=
  (reads_takeIf h).bind fun _ same => reads_require same

theorem refuses_symbol {s : String} (h : next? t ≠ some (.symbol s)) : Refuses (symbol s) t :=
  (reads_takeIf_other h).bind_refuses fun _ same => refuses_require same

theorem reads_word {w : String} (h : Leads t (.word w) rest) : Reads (word w) t (ahead rest) fun _ => True :=
  (reads_takeIf h).bind fun _ same => reads_require same

theorem reads_name {w : Text} (h : Leads t (.word w) rest) (name : isName w) : Reads Grammar.name t (ahead rest) (· = w) := by
  refine (reads_take h).next ?_
  exact (reads_require name).bind fun _ _ => reads_pure rfl

theorem refuses_name (h : ∀ w, next? t = some (.word w) → isName w = false) : Refuses Grammar.name t := by
  intro c here
  cases found : token? t with
  | none =>
    change Option.bind (take c) _ = none
    rw [take_eq, here, found]
    rfl
  | some pair =>
    obtain ⟨token, n⟩ := pair
    have leads : Leads t token (t.drop n) := ⟨n, found, rfl⟩
    refine (reads_take leads).bind_refuses (fun _ same => ?_) c here
    rw [same]
    cases token with
    | word w => exact (refuses_require (h w leads.next?)).bind
    | _ => exact fun _ _ => rfl

end Tokens

end Unravel.Grammar
