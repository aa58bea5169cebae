import Unravel.Proofs.Grammar.Keys
import Unravel.Proofs.Grammar.Operations

/-! Reading object literals whose values are names back from their text. The names `await` and `async` are read as names where
   nothing follows that they could apply to; the name `yield` is not. -/
namespace Unravel.Grammar

open List

theorem Refuses.optionally {α : Type} {r : Reader α} {t : Text} (h : Refuses r t) : Reads (Grammar.optionally r) t t (· = none) := by
  intro c here
  refine ⟨none, c, ?_, here, rfl⟩
  rw [optionally_run, h c here]

section Values

variable {r : Readers} {n : Nat} {t raw w : Text}

/-- Symbols that end an expression without commas. -/
def endings : List Text := [")", "]", "\x7d", ":", ","]

/-- No expression starts here. -/
def IsEnding (t : Text) : Prop := next? t = none ∨ ∃ s ∈ endings, next? t = some (.symbol s)

theorem assignment_lt_limit {token : Token} (h : ∀ s ∈ endings, token ≠ .symbol s) : Strength.assignment < limit (some token) := by
  cases token with
  | symbol s =>
    have other : s ∉ endings := fun member => h s member rfl
    simp only [endings, mem_cons, not_or] at other
    obtain ⟨round, square, brace, colon, comma, -⟩ := other
    simp only [limit, mem_cons, round, square, brace, colon, comma, not_mem_nil, or_self, if_false]
    split_ifs <;> decide
  | word w =>
    rw [limit]
    split_ifs <;> decide
  | _ => exact (by decide : Strength.assignment < Strength.primary + 1)

theorem Ends.isEnding (h : Ends Strength.assignment raw) : IsEnding (ahead raw) := by
  cases found : next? (ahead raw) with
  | none => exact .inl found
  | some token =>
    by_contra open_
    have least := h.limit_le
    rw [found] at least
    refine absurd (assignment_lt_limit fun s member same => ?_) (Nat.not_lt.mpr least)
    exact open_ (.inr ⟨s, member, found.trans (congrArg some same)⟩)

theorem refuses_access (ending : IsEnding t) : Refuses (r.access false) t := by
  have primary : Refuses (r.primary false) t := by
    refine reads_position.bind_refuses fun start _ => reads_peek.next_refuses ?_
    rcases ending with none | ⟨s, member, found⟩
    · rw [none]
      exact fun _ _ => rfl
    · rw [found]
      fin_cases member <;> exact fun _ _ => rfl
  have new : next? t ≠ some (.word "new") := by
    rcases ending with none | ⟨s, -, found⟩
    · rw [none]
      rintro ⟨⟩
    · rw [found]
      rintro ⟨⟩
  refine (reads_isNext_other new).next_refuses ?_
  exact primary.bind

theorem refuses_operand (ending : IsEnding t) (k : Nat) : Refuses (r.operand false k) t := by
  cases k with
  | zero => exact fun _ _ => rfl
  | succ k =>
    have assignable : Refuses (r.assignable false) t := (refuses_access ending).bind
    refine reads_position.bind_refuses fun start _ => reads_peek.next_refuses ?_
    rcases ending with none | ⟨s, member, found⟩
    · rw [none]
      exact assignable
    · rw [found]
      fin_cases member <;> exact assignable

theorem refuses_expression (ending : IsEnding t) : Refuses ((readers n).expression false) t := by
  have cover : Refuses ((readers n).cover false) t := by
    cases n with
    | zero => exact fun _ _ => rfl
    | succ n => exact ((refuses_operand ending _).bind).bind
  exact cover.bind

/-- What is read for a name: the name, unless it is `yield`. -/
structure Phrase.Names (p : Phrase) (w : Text) : Prop where
  expression : p.isExpression
  tree : w ≠ "yield" → p.lowered = .ok (Shape.identifier w)
  foreign : w = "yield" → ∀ e, p.lowered ≠ .ok e

theorem names_name (other : w ≠ "yield") (start : Position) : (Phrase.name w start).Names w where
  expression := rfl
  tree _ := rfl
  foreign same := absurd same other

theorem readsCover_await : ReadsCover "await" (·.Names "await") := by
  have word : IsWord "await" := ⟨by decide, by decide⟩
  intro n room raw ends
  obtain ⟨n, rfl⟩ : ∃ m, n = m + 2 := ⟨n - 2, by omega⟩
  have leads : Leads ("await" ++ raw) (.word "await") raw := leads_word word ends.separate
  refine reads_cover_operand ends ?_
  refine reads_position.bind fun start _ => reads_peek.next ?_
  rw [leads.next?]
  refine Refuses.orElse ?_ (((readsAccess_name word rfl).assignable room (ends.mono (by decide))).imp ?_)
  · refine (reads_word leads).bind_refuses fun _ _ => reads_isOver.next_refuses ?_
    exact (reads_require rfl).bind_refuses fun _ _ => (refuses_operand ends.isEnding n).bind
  · rintro p ⟨start, rfl⟩
    exact names_name (by decide) start

theorem readsCover_yield : ReadsCover "yield" (·.Names "yield") := by
  intro n room raw ends
  obtain ⟨n, rfl⟩ : ∃ m, n = m + 2 := ⟨n - 2, by omega⟩
  have leads : Leads ("yield" ++ raw) (.word "yield") raw := leads_word ⟨by decide, by decide⟩ ends.separate
  have star : next? (ahead raw) ≠ some (.symbol "*") := ends.not_symbol (by decide)
  refine reads_cover_operand ends ?_
  refine reads_position.bind fun start _ => reads_peek.next ?_
  rw [leads.next?]
  refine reads_position.bind fun start _ => (reads_word leads).bind fun _ _ => ?_
  refine reads_isOver.next ((reads_takeIf_other star).next ?_)
  refine (refuses_expression ends.isEnding).optionally.bind fun _ _ => reads_pure ⟨rfl, ?_, ?_⟩
  · exact fun other => absurd rfl other
  · rintro _ e ⟨⟩

theorem readsCover_name (word : IsWord w) (name : isName w) : ReadsCover w (·.Names w) := by
  by_cases yields : w = "yield"
  · rw [yields]
    exact readsCover_yield
  by_cases awaits : w = "await"
  · rw [awaits]
    exact readsCover_await
  refine ((isAccess_name word name yields awaits).imp ?_).cover
  rintro p ⟨start, rfl⟩
  exact names_name yields start

end Values

section Methods

variable {r : Readers} {t k raw rest : Text} {token : Token}

theorem reads_propertyName (leads : Leads t token rest) (plain : ∀ s, token ≠ .symbol s) :
    Reads r.propertyName t (ahead rest) (· = token) := by
  refine (reads_take leads).next ?_
  cases token with
  | symbol s => exact absurd rfl (plain s)
  | _ => exact reads_pure rfl

theorem stops_modifier (leads : Leads t token rest) : Stops Readers.modifier t (· = ahead rest) := by
  have required : ∀ b, Stops (require b) (ahead rest) (· = ahead rest) := by
    intro b
    cases b with
    | false => exact (refuses_require rfl).stops
    | true => exact (reads_require rfl).stops rfl
  refine (reads_take leads).next_stops ?_
  cases token with
  | word w => exact required _
  | symbol s => exact required _
  | _ => exact stops_failure

/-- A key before a colon starts no method, be it a word that can modify one. -/
theorem refuses_methodHead (key : LeadsKey t k raw token rest) : Refuses r.methodHead t := by
  have colon : Leads (":" ++ raw) (.symbol ":") raw := leads_bracket (by decide) raw
  have name : Refuses r.propertyName (":" ++ raw) := by
    refine (reads_take colon).next_refuses ?_
    exact (refuses_require (by decide)).bind
  have modifier : Refuses Readers.modifier (":" ++ raw) := by
    refine (reads_take colon).next_refuses ?_
    exact refuses_require (by decide)
  have parameters : Refuses r.parameters (":" ++ raw) := by
    refine (refuses_symbol ?_).bind
    rw [colon.next?]
    decide
  have modified : ∀ {f : Unit → Reader Unit}, Refuses (f ()) (":" ++ raw) → Refuses (Readers.modifier >>= f) t := by
    intro f refuses
    refine (stops_modifier key.leads).bind_refuses fun _ mid same => ?_
    rw [same, key.colon]
    exact refuses
  refine Refuses.both ?_ (Refuses.both (modified name.bind) (Refuses.both (modified modifier.bind) (modified modifier.bind)))
  refine (reads_propertyName key.leads key.plain).bind_refuses fun _ _ => ?_
  rw [key.colon]
  exact parameters.bind

end Methods

/-- A key and the name that is its value. -/
structure NameEntry where
  key : Text
  value : Text

namespace NameEntry

def tree (x : NameEntry) : Shape := .node () (.property x.key (Shape.identifier x.value))

def text (x : NameEntry) : Text := Render.key x.key ++ ": " ++ x.value

def piece (x : NameEntry) : Piece := ⟨x.tree, x.text⟩

/-- The entry that the text of an entry is read as. -/
def read (x : NameEntry) : NameEntry := ⟨Render.readKey x.key, x.value⟩

structure IsReadable (x : NameEntry) : Prop where
  unpaired : x.key.IsUnpaired
  word : IsWord x.value
  name : isName x.value

theorem text_append (x : NameEntry) (raw : Text) : x.text ++ raw = Render.key x.key ++ (":" ++ (" " ++ (x.value ++ raw))) := by
  rw [text, append_assoc, append_assoc]
  rfl

theorem isSolid (x : NameEntry) (raw : Text) : IsSolid (x.text ++ raw) := by
  rw [text_append]
  exact isSolid_key x.key _

theorem length_value_lt (x : NameEntry) : x.value.length + 2 ≤ x.text.length := by
  rw [text, length_append, length_append]
  have two : (Text.ofString ": ").length = 2 := rfl
  omega

end NameEntry

/-- What is read for an entry. -/
structure Member.Stands (m : Member) (x : NameEntry) : Prop where
  expression : m.isExpression
  tree : x.value ≠ "yield" → m.lowered = .ok x.read.tree
  foreign : x.value = "yield" → ∀ e, m.lowered ≠ .ok e

section Members

variable {n k : Nat} {x : NameEntry} {xs : List NameEntry} {t raw rest : Text}

theorem stands_pair {key : Token} {p : Phrase} (named : p.Names x.value) {start : Position}
    (value : Member.keyText key start = .ok (Render.readKey x.key)) : (Member.pair key start p).Stands x where
  expression := named.expression
  tree other := by
    rw [Member.pair, value, named.tree other]
    rfl
  foreign same e lowered := by
    obtain ⟨_, -, lowered⟩ := Outcome.bind_eq_ok.mp lowered
    obtain ⟨v, lowered, -⟩ := Outcome.bind_eq_ok.mp lowered
    exact named.foreign same v lowered

theorem NameEntry.IsReadable.next?_ne (readable : x.IsReadable) (raw : Text) (s : Text) : next? (x.text ++ raw) ≠ some (.symbol s) := by
  obtain ⟨token, rest, key⟩ := leadsKey readable.unpaired (" " ++ (x.value ++ raw))
  rw [x.text_append, key.leads.next?]
  exact fun same => key.plain s (Option.some.inj same)

theorem reads_objectMember (readable : x.IsReadable) (room : x.text.length + 1 ≤ n) (ends : Ends Strength.assignment raw) :
    Reads (readers n).objectMember (x.text ++ raw) (ahead raw) (·.Stands x) := by
  have spread := readable.next?_ne raw "..."
  have length := x.length_value_lt
  obtain ⟨token, rest, key⟩ := leadsKey readable.unpaired (" " ++ (x.value ++ raw))
  rw [x.text_append] at spread ⊢
  refine reads_position.bind fun start _ => (reads_takeIf_other spread).next ?_
  have method : Reads (readers n).takeMethod (Render.key x.key ++ (":" ++ (" " ++ (x.value ++ raw))))
      (Render.key x.key ++ (":" ++ (" " ++ (x.value ++ raw)))) (· = false) := by
    refine (refuses_methodHead key).optionally.next ?_
    exact reads_pure rfl
  refine method.next ?_
  refine (reads_propertyName key.leads key.plain).next ?_
  rw [key.colon]
  refine (reads_takeIf (leads_bracket (by decide) _)).next ?_
  rw [ahead_blank (readable.word.firm.append raw).solid]
  refine ((readsCover_name readable.word readable.name).cover (by omega) ends).bind fun p named => ?_
  exact reads_pure (stands_pair named (key.value start))

theorem reads_members_end (k : Nat) : Reads ((readers n).objectMembers (k + 1)) ("\x7d" ++ raw) (ahead raw) (· = []) := by
  refine (reads_takeIf (leads_bracket (by decide) raw)).next ?_
  exact reads_pure rfl

theorem reads_members_comma {R : List Member → Prop} (further : Reads ((readers n).objectMembers k) (ahead raw) rest R) :
    Reads ((readers n).objectMembers (k + 1)) ("," ++ raw) rest R := by
  have comma : Leads ("," ++ raw) (.symbol ",") raw := leads_bracket (by decide) raw
  have other : next? ("," ++ raw) ≠ some (.symbol "\x7d") := by
    rw [comma.next?]
    decide
  refine (reads_takeIf_other other).next ?_
  refine (reads_takeIf comma).next ?_
  exact further

theorem reads_members_entry (readable : x.IsReadable) (room : x.text.length + 1 ≤ n) (ends : Ends Strength.assignment raw)
    (divided : next? (ahead raw) = some (.symbol ",") ∨ next? (ahead raw) = some (.symbol "\x7d"))
    {R : List Member → Prop} (further : Reads ((readers n).objectMembers k) (ahead raw) rest R) :
    Reads ((readers n).objectMembers (k + 1)) (x.text ++ raw) rest fun ms => ∃ m tail, m.Stands x ∧ R tail ∧ ms = m :: tail := by
  refine (reads_takeIf_other (readable.next?_ne raw _)).next ?_
  refine (reads_takeIf_other (readable.next?_ne raw _)).next ?_
  refine (reads_objectMember readable room ends).bind fun m stands => ?_
  refine reads_isNext.bind fun comma found => reads_isNext.bind fun close found' => ?_
  have either : (comma || close) = true := by
    rcases divided with same | same
    · rw [found, same]
      simp
    · rw [found', same]
      simp
  refine (reads_require either).bind fun _ _ => further.bind fun tail ht => ?_
  exact reads_pure ⟨m, tail, stands, ht, rfl⟩

/-- Entries with commas between them. -/
def entries (xs : List NameEntry) : Text := listing (xs.map NameEntry.piece)

theorem entries_cons (x y : NameEntry) (xs : List NameEntry) : entries (x :: y :: xs) = x.text ++ ("," ++ (" " ++ entries (y :: xs))) := rfl

theorem isSolid_entries (x : NameEntry) (xs : List NameEntry) (raw : Text) : IsSolid (entries (x :: xs) ++ raw) := by
  cases xs with
  | nil =>
    rw [entries, map_singleton, listing_single]
    exact x.isSolid raw
  | cons y xs =>
    rw [entries_cons, append_assoc]
    exact x.isSolid _

/-- The entries of an object and its closing brace. -/
theorem reads_objectMembers (readable : ∀ x ∈ xs, x.IsReadable) (room : (entries xs).length + 1 ≤ n) (steps : (entries xs).length + 2 ≤ k) :
    Reads ((readers n).objectMembers k) (entries xs ++ ("\x7d" ++ raw)) (ahead raw) fun ms => List.Forall₂ Member.Stands ms xs := by
  have solid : ahead ("\x7d" ++ raw) = "\x7d" ++ raw := ahead_bracket (by decide) raw
  induction xs generalizing k with
  | nil =>
    obtain _ | k := k
    · omega
    refine (reads_members_end k).imp fun ms empty => ?_
    rw [empty]
    exact .nil
  | cons x xs ih =>
    obtain ⟨k, rfl⟩ : ∃ m, k = m + 2 := ⟨k - 2, by omega⟩
    have here := readable x (.head _)
    cases xs with
    | nil =>
      rw [entries, map_singleton, listing_single] at room ⊢
      have found : next? (ahead ("\x7d" ++ raw)) = some (.symbol "\x7d") := by
        rw [solid, (leads_bracket (by decide) raw).next?]
      have last : Reads ((readers n).objectMembers (k + 1)) (ahead ("\x7d" ++ raw)) (ahead raw) (· = []) := by
        rw [solid]
        exact reads_members_end k
      refine (reads_members_entry here room (ends_bracket (by decide) (by decide) raw) (.inr found) last).imp ?_
      rintro ms ⟨m, tail, stands, rfl, rfl⟩
      exact .cons stands .nil
    | cons y xs =>
      have others : ∀ z ∈ y :: xs, z.IsReadable := fun z hz => readable z (.tail x hz)
      have filled := x.length_value_lt
      have length : (entries (x :: y :: xs)).length = x.text.length + 2 + (entries (y :: xs)).length :=
        length_listing_cons x.piece y.piece (xs.map NameEntry.piece)
      have further := ih others (by omega) (k := k) (by omega)
      rw [← ahead_blank (isSolid_entries y xs _)] at further
      have comma := reads_members_comma further
      rw [← ahead_bracket (by decide) (" " ++ (entries (y :: xs) ++ ("\x7d" ++ raw)))] at comma
      have found : next? (ahead ("," ++ (" " ++ (entries (y :: xs) ++ ("\x7d" ++ raw))))) = some (.symbol ",") := by
        rw [ahead_bracket (by decide), (leads_bracket (by decide) _).next?]
      rw [entries_cons, append_assoc, append_assoc, append_assoc]
      refine (reads_members_entry here (by omega) (ends_bracket (by decide) (by decide) _) (.inl found) comma).imp ?_
      rintro ms ⟨m, tail, stands, rest, rfl⟩
      exact .cons stands rest

theorem reads_primary_brace {r : Readers} {P : Phrase → Prop} (found : next? t = some (.symbol "\x7b")) (h : Reads r.object t rest P) :
    Reads (r.primary false) t rest P := by
  refine reads_position.bind fun start _ => reads_peek.next ?_
  rw [found]
  exact h

/-- The text of an object. -/
def braced (xs : List NameEntry) : Text := "\x7b" ++ entries xs ++ "\x7d"

theorem isAccess_object (readable : ∀ x ∈ xs, x.IsReadable) :
    IsAccess (braced xs) fun p => ∃ start ms, p = .object start ms ∧ List.Forall₂ Member.Stands ms xs where
  firm := ⟨'\x7b', rfl, .inr (by decide)⟩
  starts raw _ := by
    refine ⟨.symbol "\x7b", ?_, rfl⟩
    rw [braced, append_assoc, append_assoc, (leads_bracket (by decide) _).next?]
  reads := by
    intro n room raw rest Q free further
    have length : (braced xs).length = (entries xs).length + 2 := by
      rw [braced, length_append, length_append]
      have one : (Text.ofString "\x7b").length = 1 ∧ (Text.ofString "\x7d").length = 1 := ⟨rfl, rfl⟩
      omega
    have found : next? ("\x7b" ++ (entries xs ++ ("\x7d" ++ raw))) = some (.symbol "\x7b") := (leads_bracket (by decide) _).next?
    have solid : ahead (entries xs ++ ("\x7d" ++ raw)) = entries xs ++ ("\x7d" ++ raw) := by
      cases xs with
      | nil => exact ahead_bracket (by decide) raw
      | cons x xs => exact ahead_solid (isSolid_entries x xs _)
    have whole : Reads (readers n).object ("\x7b" ++ (entries xs ++ ("\x7d" ++ raw))) (ahead raw)
        fun p => ∃ start ms, p = .object start ms ∧ List.Forall₂ Member.Stands ms xs := by
      refine reads_position.bind fun start _ => (reads_bracket (by decide) _).bind fun _ _ => ?_
      rw [solid]
      have steps : (entries xs).length + 2 ≤ (readers n).bound := by
        rw [readers_bound]
        omega
      exact (reads_objectMembers readable (by omega) steps).bind fun ms stand => reads_pure ⟨start, ms, rfl, stand⟩
    rw [braced, append_assoc, append_assoc]
    refine reads_access ?_ (reads_primary_brace found whole) fun p shows => further p _ shows ?_
    · rw [found]
      rintro ⟨⟩
    · rw [readers_bound]
      omega

end Members

section Lowered

variable {xs : List NameEntry} {ms : List Member} (stand : List.Forall₂ Member.Stands ms xs) (start : Position)

include stand

theorem isExpression_object : (Phrase.object start ms).isExpression := by
  change ms.all Member.isExpression = true
  induction stand with
  | nil => rfl
  | cons here _ ih => rw [all_cons, here.expression, ih, Bool.true_and]

theorem lowered_object (named : ∀ x ∈ xs, x.value ≠ "yield") :
    (Phrase.object start ms).lowered = .ok (.node () (.object (xs.map fun x => x.read.tree))) := by
  have trees : ms.mapM Member.lowered = .ok (xs.map fun x => x.read.tree) := by
    induction stand with
    | nil => rfl
    | @cons m x ms xs here _ ih =>
      have both := forall_mem_cons.mp named
      rw [mapM_cons, here.tree both.1, ih both.2]
      rfl
  rw [Phrase.object, trees]
  rfl

theorem lowered_object_ne {x : NameEntry} (member : x ∈ xs) (yields : x.value = "yield") (e : Shape) :
    (Phrase.object start ms).lowered ≠ .ok e := by
  intro lowered
  obtain ⟨es, lowered, -⟩ := Outcome.bind_eq_ok.mp lowered
  obtain ⟨m, part, stands⟩ := exists_left_of_mem stand member
  obtain ⟨e, -, same⟩ := exists_right_of_mem (Outcome.forall₂_of_mapM lowered) part
  exact stands.foreign yields e same

end Lowered

end Unravel.Grammar
