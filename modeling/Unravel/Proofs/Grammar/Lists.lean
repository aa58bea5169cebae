import Mathlib.Data.List.Forall2
import Unravel.Proofs.Grammar.Access

/-! Reading the elements of arrays and the arguments of calls back from their text. -/
namespace Unravel.Grammar

open List hiding get

variable {t : Text} {xs : List Piece}

/-- Before a text and what ends it, an expression without commas is read. -/
def ReadsCover (t : Text) (P : Phrase → Prop) : Prop :=
  ∀ n, t.length + 2 ≤ n → ∀ raw, Ends Strength.assignment raw → Reads ((readers n).coverWith false) (t ++ raw) (ahead raw) P

theorem ReadsCover.cover {raw : Text} {P : Phrase → Prop} (h : ReadsCover t P) {n : Nat} (room : t.length + 3 ≤ n)
    (ends : Ends Strength.assignment raw) : Reads ((readers n).cover false) (t ++ raw) (ahead raw) P := by
  cases n with
  | zero => omega
  | succ n => exact h n (by omega) raw ends

section Pairs

variable {α β : Type} {R : α → β → Prop} {l : List α} {r : List β}

theorem exists_right_of_mem (h : List.Forall₂ R l r) {a : α} (ha : a ∈ l) : ∃ b ∈ r, R a b := by
  induction h with
  | nil => cases ha
  | @cons x y l r here _ ih =>
    rcases mem_cons.mp ha with rfl | ha
    · exact ⟨y, .head _, here⟩
    · obtain ⟨b, member, related⟩ := ih ha
      exact ⟨b, .tail y member, related⟩

theorem exists_left_of_mem (h : List.Forall₂ R l r) {b : β} (hb : b ∈ r) : ∃ a ∈ l, R a b := exists_right_of_mem h.flip hb

end Pairs

/-- A tree with a text that stands for it. -/
structure Piece where
  tree : Shape
  text : Text

/-- The end of an item of a list in parentheses. -/
structure Divides (raw : Text) : Prop where
  ends : Ends Strength.assignment raw
  token : next? (ahead raw) = some (.symbol ",") ∨ next? (ahead raw) = some (.symbol ")")

/-- A piece that is read back wherever an expression without commas can stand. Taken for a parameter it is taken as a
whole, or what is left is no end of a parameter. -/
structure Piece.IsItem (x : Piece) : Prop where
  firm : IsFirm x.text
  reads : ReadsCover x.text (·.Shows x.tree)
  stops : ∀ n, x.text.length + 3 ≤ n → ∀ raw, Divides raw → Stops (readers n).parameter (x.text ++ raw)
    fun stop => stop = ahead raw ∨ next? stop ≠ some (.symbol ",") ∧ next? stop ≠ some (.symbol ")")

/-- The texts of some pieces, divided by commas. -/
def listing (xs : List Piece) : Text := Text.join ", " (xs.map Piece.text)

section Listing

variable {x y : Piece} {xs : List Piece}

theorem listing_single (x : Piece) : listing [x] = x.text := append_nil x.text

theorem listing_cons (x y : Piece) (xs : List Piece) :
    listing (x :: y :: xs) = x.text ++ ("," ++ (" " ++ listing (y :: xs))) := rfl

theorem length_listing_cons (x y : Piece) (xs : List Piece) :
    (listing (x :: y :: xs)).length = x.text.length + 2 + (listing (y :: xs)).length := by
  rw [listing_cons, length_append, Nat.add_assoc, Nat.add_comm 2]
  rfl

theorem isFirm_listing (firm : IsFirm x.text) (xs : List Piece) : IsFirm (listing (x :: xs)) := by
  cases xs with
  | nil => rwa [listing_single]
  | cons y xs => exact firm.append _

end Listing

section Elements

/-- Items with commas between them. -/
def spaced (ps : List Phrase) : List Element := (ps.map Element.item).intersperse .comma

theorem spaced_cons (p q : Phrase) (ps : List Phrase) : spaced (p :: q :: ps) = .item p :: .comma :: spaced (q :: ps) := rfl

variable {ps : List Phrase} {es : List Shape}

theorem lowered_spaced (what : Text) (shown : List.Forall₂ Phrase.Shows ps es) : Element.lowered what (spaced ps) = .ok es := by
  induction shown with
  | nil => rfl
  | @cons p e ps es here rest ih =>
    cases ps with
    | nil =>
      cases rest
      rw [spaced, map_singleton, intersperse_singleton, Element.lowered, here.lowered]
      rfl
    | cons q ps =>
      rw [spaced_cons, Element.lowered, here.lowered, Element.lowered, ih]
      rfl

theorem isExpression_spaced (shown : List.Forall₂ Phrase.Shows ps es) : (spaced ps).all Element.isExpression := by
  induction shown with
  | nil => rfl
  | @cons p e ps es here rest ih =>
    cases ps with
    | nil => simp [spaced, Element.isExpression, here.expression]
    | cons q ps =>
      rw [spaced_cons, all_cons, all_cons, ih]
      simp [Element.isExpression, here.expression]

theorem count_spaced (p : Phrase) (ps : List Phrase) :
    (spaced (p :: ps)).length = 2 * ps.length + 1 ∧ ((spaced (p :: ps)).filter Element.isComma).length = ps.length ∧
      (spaced (p :: ps)).getLast?.any Element.isComma = false := by
  induction ps generalizing p with
  | nil => exact ⟨rfl, rfl, rfl⟩
  | cons q ps ih =>
    obtain ⟨length, commas, last⟩ := ih q
    rw [spaced_cons]
    refine ⟨?_, ?_, ?_⟩
    · simp only [length_cons, length]
      omega
    · rw [filter_cons_of_neg (by simp [Element.isComma]), filter_cons_of_pos rfl, length_cons, commas,
        length_cons]
    · have filled : spaced (q :: ps) ≠ [] := by
        intro empty
        rw [empty] at length
        cases length
      obtain ⟨x, more, same⟩ := exists_cons_of_ne_nil filled
      rw [same] at last ⊢
      rwa [getLast?_cons_cons, getLast?_cons_cons]

theorem hasHole_spaced (ps : List Phrase) (commented : Bool) : Element.hasHole (spaced ps) commented = false := by
  cases ps with
  | nil => cases commented <;> rfl
  | cons p ps =>
    obtain ⟨length, commas, last⟩ := count_spaced p ps
    have items : 2 * ps.length + 1 - ps.length - 1 = ps.length := by omega
    simp [Element.hasHole, length, commas, last, items]

end Elements

/-- The brackets that a list ends with. -/
def closers : List Text := [")", "]"]

section Reading

variable {n : Nat} {closing : String} {raw : Text}

theorem reads_get : Reads get t t fun _ => True := fun c here => ⟨c, c, rfl, here, trivial⟩

theorem closers_brackets (h : (closing : Text) ∈ closers) : (closing : Text) ∈ brackets := by
  have all : ∀ s ∈ closers, s ∈ brackets := by decide
  exact all _ h

theorem reads_elements_end (h : (closing : Text) ∈ closers) (k : Nat) :
    Reads ((readers n).elements closing (k + 1)) (closing ++ raw) (ahead raw) fun read => read.1 = [] := by
  refine reads_get.bind fun c _ => (reads_takeIf (leads_bracket (closers_brackets h) raw)).next ?_
  exact reads_pure rfl

theorem reads_elements_comma (h : (closing : Text) ∈ closers) (k : Nat) {rest : Text} {R : List Element × Bool → Prop}
    (further : Reads ((readers n).elements closing k) (ahead raw) rest R) :
    Reads ((readers n).elements closing (k + 1)) ("," ++ raw) rest fun read => ∃ tail, R tail ∧ read.1 = .comma :: tail.1 := by
  have comma : Leads ("," ++ raw) (.symbol ",") raw := leads_bracket (by decide) raw
  have other : next? ("," ++ raw) ≠ some (.symbol closing) := by
    have all : ∀ s ∈ closers, (Token.symbol "," : Token) ≠ .symbol s := by decide
    rw [comma.next?]
    exact fun same => all _ h (Option.some.inj same)
  refine reads_get.bind fun c _ => (reads_takeIf_other other).next ?_
  refine (reads_takeIf comma).next ?_
  exact further.bind fun tail ht => reads_pure ⟨tail, ht, rfl⟩

theorem reads_elements_item (h : (closing : Text) ∈ closers) (k : Nat) {x : Piece} (item : x.IsItem) (room : x.text.length + 3 ≤ n)
    (ends : Ends Strength.assignment raw) (divided : next? (ahead raw) = some (.symbol ",") ∨ next? (ahead raw) = some (.symbol closing))
    {rest : Text} {R : List Element × Bool → Prop} (further : Reads ((readers n).elements closing k) (ahead raw) rest R) :
    Reads ((readers n).elements closing (k + 1)) (x.text ++ raw) rest
      fun read => ∃ p tail, p.Shows x.tree ∧ R tail ∧ read.1 = .item p :: tail.1 := by
  have firm := item.firm.append raw
  have notClosing : next? (x.text ++ raw) ≠ some (.symbol closing) := by
    have either : (closing : Text) = ")" ∨ (closing : Text) = "]" := by simpa [closers] using h
    rcases either with same | same
    · rw [same]
      exact firm.next?_ne (by decide) (by decide)
    · rw [same]
      exact firm.next?_ne (by decide) (by decide)
  have notComma : next? (x.text ++ raw) ≠ some (.symbol ",") := firm.next?_ne (by decide) (by decide)
  have notSpread : next? (x.text ++ raw) ≠ some (.symbol "...") := firm.next?_ne (by decide) (by decide)
  refine reads_get.bind fun c _ => (reads_takeIf_other notClosing).next ?_
  refine (reads_takeIf_other notComma).next ?_
  refine reads_position.bind fun start _ => (reads_takeIf_other notSpread).next ?_
  refine (item.reads.cover room ends).bind fun p shows => ?_
  refine reads_isNext.bind fun comma found => reads_isNext.bind fun close found' => ?_
  have either : (comma || close) = true := by
    rcases divided with same | same
    · rw [found, same]
      simp
    · rw [found', same]
      simp
  refine (reads_require either).bind fun _ _ => further.bind fun tail ht => ?_
  exact reads_pure ⟨p, tail, shows, ht, rfl⟩

theorem ahead_listing (items : ∀ x ∈ xs, x.IsItem) (h : (closing : Text) ∈ closers) (raw : Text) :
    ahead (listing xs ++ (closing ++ raw)) = listing xs ++ (closing ++ raw) := by
  cases xs with
  | nil => exact ahead_bracket (closers_brackets h) raw
  | cons x xs => exact ahead_solid ((isFirm_listing (items x (.head _)).firm xs).append _).solid

/-- The elements of a list and its closing bracket. -/
theorem reads_elements (h : (closing : Text) ∈ closers) (items : ∀ x ∈ xs, x.IsItem)
    (room : (listing xs).length + 3 ≤ n) {k : Nat} (steps : (listing xs).length + 2 ≤ k) :
    Reads ((readers n).elements closing k) (listing xs ++ (closing ++ raw)) (ahead raw)
      fun read => ∃ ps, read.1 = spaced ps ∧ List.Forall₂ Phrase.Shows ps (xs.map Piece.tree) := by
  have bracket := closers_brackets h
  have solid : ahead (closing ++ raw) = closing ++ raw := ahead_bracket bracket raw
  have least : limit (some (.symbol closing)) ≤ Strength.assignment := by
    have all : ∀ s ∈ closers, limit (some (.symbol s)) ≤ Strength.assignment := by decide
    exact all _ h
  induction xs generalizing k with
  | nil =>
    obtain _ | k := k
    · omega
    exact (reads_elements_end h k).imp fun read empty => ⟨[], empty, .nil⟩
  | cons x xs ih =>
    obtain ⟨k, rfl⟩ : ∃ m, k = m + 2 := ⟨k - 2, by omega⟩
    have item := items x (.head _)
    cases xs with
    | nil =>
      rw [listing_single] at room ⊢
      have found : next? (ahead (closing ++ raw)) = some (.symbol closing) := by
        rw [solid, (leads_bracket bracket raw).next?]
      have last : Reads ((readers n).elements closing (k + 1)) (ahead (closing ++ raw)) (ahead raw) fun read => read.1 = [] := by
        rw [solid]
        exact reads_elements_end h k
      refine (reads_elements_item h (k + 1) item room (ends_bracket bracket least raw) (.inr found) last).imp ?_
      rintro read ⟨p, tail, shows, empty, same⟩
      refine ⟨[p], ?_, .cons shows .nil⟩
      rw [same, empty]
      rfl
    | cons y xs =>
      have others : ∀ z ∈ y :: xs, z.IsItem := fun z hz => items z (.tail x hz)
      have filled := item.firm.length_pos
      rw [length_listing_cons] at room steps
      have further := ih others (by omega) (k := k) (by omega)
      have firm : IsFirm (listing (y :: xs) ++ (closing ++ raw)) :=
        (isFirm_listing (others y (.head _)).firm xs).append _
      rw [← ahead_blank firm.solid] at further
      have comma := reads_elements_comma h k further
      rw [← ahead_bracket (by decide) (" " ++ (listing (y :: xs) ++ (closing ++ raw)))] at comma
      have found : next? (ahead ("," ++ (" " ++ (listing (y :: xs) ++ (closing ++ raw))))) = some (.symbol ",") := by
        rw [ahead_bracket (by decide), (leads_bracket (by decide) _).next?]
      have divided : Ends Strength.assignment ("," ++ (" " ++ (listing (y :: xs) ++ (closing ++ raw)))) :=
        ends_bracket (by decide) (by decide) _
      rw [listing_cons, append_assoc, append_assoc, append_assoc]
      refine (reads_elements_item h (k + 1) item (by omega) divided (.inl found) comma).imp ?_
      rintro read ⟨p, tail, shows, ⟨more, ⟨ps, spaces, shown⟩, same'⟩, same⟩
      cases shown with
      | @cons q e ps es here rest =>
        refine ⟨p :: q :: ps, ?_, .cons shows (.cons here rest)⟩
        rw [same, same', spaces, spaced_cons]

theorem readsAccess_array (items : ∀ x ∈ xs, x.IsItem) :
    ReadsAccess ("[" ++ listing xs ++ "]") (·.Shows (.node () (.array (xs.map Piece.tree)))) := by
  intro n room raw rest Q free further
  have length : ("[" ++ listing xs ++ "]").length = (listing xs).length + 2 := by
    have opening : Text.ofString "[" = ['['] := rfl
    have closing : Text.ofString "]" = [']'] := rfl
    simp [opening, closing]
  have found : next? ("[" ++ (listing xs ++ ("]" ++ raw))) = some (.symbol "[") := (leads_bracket (by decide) _).next?
  have solid : ahead (listing xs ++ ("]" ++ raw)) = listing xs ++ ("]" ++ raw) := ahead_listing items (by decide) raw
  have whole : Reads (readers n).array ("[" ++ (listing xs ++ ("]" ++ raw))) (ahead raw)
      (·.Shows (.node () (.array (xs.map Piece.tree)))) := by
    refine reads_position.bind fun start _ => (reads_bracket (by decide) _).bind fun _ _ => ?_
    rw [solid]
    have steps : (listing xs).length + 2 ≤ (readers n).bound := by
      rw [readers_bound]
      omega
    refine (reads_elements (by decide) items (by omega) steps).bind fun read found => ?_
    obtain ⟨ps, same, shown⟩ := found
    refine reads_pure ⟨?_, ?_⟩
    · rw [Phrase.array, same, hasHole_spaced, lowered_spaced _ shown]
      rfl
    · rw [Phrase.array, same]
      exact isExpression_spaced shown
  rw [append_assoc, append_assoc]
  refine reads_access ?_ (reads_primary_bracket found whole) fun p shows => further p _ shows ?_
  · rw [found]
    nofun
  · rw [readers_bound]
    omega

/-- Arguments that are taken for parameters are taken as a whole. -/
theorem stops_parameterList (items : ∀ x ∈ xs, x.IsItem) (room : (listing xs).length + 3 ≤ n) (k : Nat) :
    Stops ((readers n).parameterList k) (listing xs ++ (")" ++ raw)) (· = ahead raw) := by
  have closing : Leads (")" ++ raw) (.symbol ")") raw := leads_bracket (by decide) raw
  have solid : ahead (")" ++ raw) = ")" ++ raw := ahead_bracket (by decide) raw
  induction k generalizing xs with
  | zero => exact stops_failure
  | succ k ih =>
    cases xs with
    | nil =>
      refine (reads_takeIf closing).next_stops ?_
      exact stops_pure rfl
    | cons x xs =>
      have item := items x (.head _)
      have open_ : next? (listing (x :: xs) ++ (")" ++ raw)) ≠ some (.symbol ")") :=
        ((isFirm_listing item.firm xs).append _).next?_ne (by decide) (by decide)
      refine (reads_takeIf_other open_).next_stops ?_
      -- A parameter that ends elsewhere is followed by neither a comma nor the bracket.
      have astray : ∀ {stop : Text} {head : Parameter}, next? stop ≠ some (.symbol ",") ∧ next? stop ≠ some (.symbol ")") →
          Stops (do
            if ← takeSymbol "," then return head :: (← (readers n).parameterList k)
            symbol ")"
            return [head]) stop (· = ahead raw) := by
        intro stop head other
        refine (reads_takeIf_other other.1).next_stops ?_
        exact (refuses_symbol other.2).bind.stops
      cases xs with
      | nil =>
        rw [listing_single] at room ⊢
        have divides : Divides (")" ++ raw) := ⟨ends_bracket (by decide) (by decide) raw, .inr (by rw [solid, closing.next?])⟩
        refine (item.stops n room _ divides).bind fun head stop either => ?_
        rcases either with rfl | other
        · rw [solid]
          have noComma : next? (")" ++ raw) ≠ some (.symbol ",") := by
            rw [closing.next?]
            decide
          refine (reads_takeIf_other noComma).next_stops ?_
          exact (reads_symbol closing).bind_stops fun _ _ => stops_pure rfl
        · exact astray other
      | cons y xs =>
        have others : ∀ z ∈ y :: xs, z.IsItem := fun z hz => items z (.tail x hz)
        have comma : Leads ("," ++ (" " ++ (listing (y :: xs) ++ (")" ++ raw)))) (.symbol ",") (" " ++ (listing (y :: xs) ++ (")" ++ raw))) :=
          leads_bracket (by decide) _
        have commaSolid : ahead ("," ++ (" " ++ (listing (y :: xs) ++ (")" ++ raw)))) = "," ++ (" " ++ (listing (y :: xs) ++ (")" ++ raw))) :=
          ahead_bracket (by decide) _
        have divides : Divides ("," ++ (" " ++ (listing (y :: xs) ++ (")" ++ raw)))) :=
          ⟨ends_bracket (by decide) (by decide) _, .inl (by rw [commaSolid, comma.next?])⟩
        rw [length_listing_cons] at room
        rw [listing_cons, append_assoc, append_assoc, append_assoc]
        refine (item.stops n (by omega) _ divides).bind fun head stop either => ?_
        rcases either with rfl | other
        · rw [commaSolid]
          refine (reads_takeIf comma).next_stops ?_
          rw [ahead_blank ((isFirm_listing (others y (.head _)).firm xs).append _).solid]
          exact (ih others (by omega)).bind fun _ _ stop => stops_pure stop
        · exact astray other

theorem refuses_arguments (items : ∀ x ∈ xs, x.IsItem) (room : (listing xs).length + 3 ≤ n)
    (arrow : next? (ahead raw) ≠ some (.symbol "=>")) (start : Position) :
    Refuses ((readers n).arrow start true false) ("(" ++ (listing xs ++ (")" ++ raw))) := by
  have parameters : Stops (readers n).parameters ("(" ++ (listing xs ++ (")" ++ raw))) (· = ahead raw) := by
    refine (reads_bracket (by decide) _).bind_stops fun _ _ => ?_
    rw [ahead_listing items (by decide)]
    exact stops_parameterList items room _
  refine parameters.bind_refuses fun _ stop same => ?_
  rw [same]
  exact (refuses_symbol arrow).bind

theorem reads_callOf {p : Phrase} {f : Shape} (shows : p.Shows f) (items : ∀ x ∈ xs, x.IsItem)
    (room : (listing xs).length + 3 ≤ n) : Reads ((readers n).callOf p false) ("(" ++ (listing xs ++ (")" ++ raw))) (ahead raw)
      (·.Shows (.node () (.call f (xs.map Piece.tree)))) := by
  have steps : (listing xs).length + 2 ≤ (readers n).bound := by
    rw [readers_bound]
    omega
  have arguments : Reads (readers n).arguments (listing xs ++ (")" ++ raw)) (ahead raw)
      fun args => ∃ ps, args = spaced ps ∧ List.Forall₂ Phrase.Shows ps (xs.map Piece.tree) := by
    refine (reads_elements (by decide) items room steps).bind fun read found => ?_
    obtain ⟨elements, commented⟩ := read
    obtain ⟨ps, rfl, shown⟩ := found
    exact (reads_require (isExpression_spaced shown)).bind fun _ _ => reads_pure ⟨ps, rfl, shown⟩
  refine (reads_bracket (by decide) _).bind fun _ _ => ?_
  rw [ahead_listing items (by decide)]
  refine arguments.bind fun args found => ?_
  obtain ⟨ps, rfl, shown⟩ := found
  refine reads_pure ⟨?_, rfl⟩
  rw [Phrase.call, lowered_spaced _ shown, shows.lowered]
  rfl

theorem ReadsAccess.call {f : Shape} (h : ReadsAccess t (·.Shows f)) (items : ∀ x ∈ xs, x.IsItem) :
    ReadsAccess (t ++ "(" ++ listing xs ++ ")") (·.Shows (.node () (.call f (xs.map Piece.tree)))) := by
  intro n room raw rest Q free further
  have length : (t ++ "(" ++ listing xs ++ ")").length = t.length + 1 + (listing xs).length + 1 := by
    simp only [length_append]
    rfl
  have solid : ahead ("(" ++ (listing xs ++ (")" ++ raw))) = "(" ++ (listing xs ++ (")" ++ raw)) := ahead_bracket (by decide) _
  have found : next? ("(" ++ (listing xs ++ (")" ++ raw))) = some (.symbol "(") := (leads_bracket (by decide) _).next?
  have before : Free n ("(" ++ (listing xs ++ (")" ++ raw))) := by
    refine ⟨isSeparate_mark (by decide) _, ?_, fun w word => ?_, ?_⟩
    · rw [solid, found]
      decide
    · rw [solid, found] at word
      cases word
    · rw [solid]
      exact refuses_arguments items (by omega) free.arrow
  rw [append_assoc, append_assoc, append_assoc]
  refine h n (by omega) _ rest Q before fun p m shows enough => ?_
  obtain _ | m := m
  · omega
  rw [solid]
  refine reads_suffixes m (reads_suffix_parenthesis found ?_) shows.expression fun q hq => further q m hq (by omega)
  exact reads_callOf shows items (by omega)

end Reading

end Unravel.Grammar
