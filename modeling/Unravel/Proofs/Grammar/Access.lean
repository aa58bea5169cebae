import Unravel.Grammar.Statement
import Unravel.Proofs.Grammar.Boundary
import Unravel.Proofs.Grammar.Runs

/-! Reading names, parentheses and the members that are asked of them back from their text. -/
namespace Unravel.Grammar

open List

/-- What a phrase says if it stands for a tree. -/
structure Phrase.Shows (p : Phrase) (e : Shape) : Prop where
  lowered : p.lowered = .ok e
  expression : p.isExpression

/-- What can follow a name or a parenthesis without making a function of it. -/
structure Free (n : Nat) (raw : Text) : Prop where
  separate : IsSeparate raw
  arrow : next? (ahead raw) ≠ some (.symbol "=>")
  word : ∀ w, next? (ahead raw) = some (.word w) → isName w = false ∧ w ≠ "function"
  parameters : ∀ start, Refuses ((readers n).arrow start true false) (ahead raw)

theorem refuses_arrow {r : Readers} {t : Text} (h : next? t ≠ some (.symbol "(")) (start : Position) (isAsync mayEnd : Bool) :
    Refuses (r.arrow start isAsync mayEnd) t := (refuses_symbol h).bind.bind

theorem Ends.free {s : Nat} {raw : Text} (h : Ends s raw) (le : s ≤ Strength.access) (n : Nat) : Free n raw where
  separate := h.separate
  arrow := h.not_continued le (by decide)
  word _ := h.not_name le
  parameters start := refuses_arrow (h.not_continued le (by decide)) start true false

/-- Before a text and what may follow it, an expression with its accesses is read up to the end of the text; what is
read goes on with `suffixes`, for which steps enough are left. -/
def ReadsAccess (t : Text) (P : Phrase → Prop) : Prop :=
  ∀ n, t.length + 2 ≤ n → ∀ raw rest (Q : Phrase → Prop), Free n raw →
    (∀ p k, P p → n ≤ k + 1 + t.length → Reads ((readers n).suffixes true false k p) (ahead raw) rest Q) →
    Reads ((readers n).access false) (t ++ raw) rest Q

theorem reads_isOver {t : Text} : Reads (Readers.isOver false) t t (· = false) := reads_pure rfl

section Names

theorem ne_of_isName {w : Text} (h : isName w) {s : Text} (member : s ∈ reserved) : w ≠ s := by
  rintro rfl
  rw [isName, contains_iff_mem.mpr member] at h
  cases h

theorem wordExpression_name {r : Readers} {w : Text} (h : isName w) (start : Position) (mayEnd : Bool) :
    r.wordExpression start mayEnd w =
      if w = "async" then r.asyncFunction start mayEnd <|> r.nameOrArrow start mayEnd else r.nameOrArrow start mayEnd := by
  have other : ∀ s ∈ (["true", "false", "null", "this", "super", "function", "class", "import"] : List Text), w ≠ s := by
    have all : ∀ s ∈ (["true", "false", "null", "this", "super", "function", "class", "import"] : List Text), s ∈ reserved := by
      decide
    exact fun s hs => ne_of_isName h (all s hs)
  simp only [forall_mem_cons] at other
  simp [Readers.wordExpression, other]

variable {r : Readers} {t w raw rest : Text} {P Q : Phrase → Prop}

theorem reads_primary_word (found : next? t = some (.word w))
    (h : ∀ start, Reads (r.wordExpression start false w) t rest P) : Reads (r.primary false) t rest P := by
  refine reads_position.bind fun start _ => reads_peek.next ?_
  rw [found]
  exact h start

theorem reads_primary_parenthesis (found : next? t = some (.symbol "("))
    (h : ∀ start, Reads (r.parenthesised start false) t rest P) : Reads (r.primary false) t rest P := by
  refine reads_position.bind fun start _ => reads_peek.next ?_
  rw [found]
  exact h start

theorem reads_primary_bracket (found : next? t = some (.symbol "[")) (h : Reads r.array t rest P) :
    Reads (r.primary false) t rest P := by
  refine reads_position.bind fun start _ => reads_peek.next ?_
  rw [found]
  exact h

theorem reads_access {mid : Text} (new : next? t ≠ some (.word "new")) (h : Reads (r.primary false) t mid P)
    (further : ∀ p, P p → Reads (r.suffixes true false r.bound p) mid rest Q) : Reads (r.access false) t rest Q := by
  refine (reads_isNext_other new).next ?_
  exact h.bind further

theorem reads_nameOrArrow (word : IsWord w) (name : isName w) (separate : IsSeparate raw)
    (arrow : next? (ahead raw) ≠ some (.symbol "=>")) (start : Position) :
    Reads (r.nameOrArrow start false) (w ++ raw) (ahead raw) (· = Phrase.name w start) := by
  refine (reads_name (leads_word word separate) name).bind fun n same => reads_isNext.bind fun b found => ?_
  rw [beq_false_of_ne arrow] at found
  rw [same, found]
  simp only [Bool.false_eq_true, and_false, if_false]
  exact reads_pure rfl

/-- The word `async` is a name where neither a function nor parameters follow. -/
theorem refuses_asyncFunction {n : Nat} (free : Free n raw) (start : Position) :
    Refuses ((readers n).asyncFunction start false) ("async" ++ raw) := by
  have leads : Leads ("async" ++ raw) (.word "async") raw := leads_word ⟨by decide, by decide⟩ free.separate
  have isFunction : next? (ahead raw) ≠ some (.word "function") := fun same => (free.word _ same).2 rfl
  refine (reads_word leads).bind_refuses fun _ _ => reads_isOver.next_refuses ?_
  refine (reads_require rfl).bind_refuses fun _ _ => (reads_isNext_other isFunction).next_refuses ?_
  refine Refuses.both ?_ (free.parameters start)
  exact reads_position.bind_refuses fun _ _ => (refuses_name fun w word => (free.word w word).1).bind

theorem readsAccess_name (word : IsWord w) (name : isName w) : ReadsAccess w fun p => ∃ start, p = Phrase.name w start := by
  intro n room raw rest Q free further
  have found : next? (w ++ raw) = some (.word w) := (leads_word word free.separate).next?
  have new : next? (w ++ raw) ≠ some (.word "new") := by
    rw [found]
    rintro ⟨⟩
    cases name
  have plain : ∀ start, Reads ((readers n).nameOrArrow start false) (w ++ raw) (ahead raw) fun p => ∃ start, p = Phrase.name w start :=
    fun start => (reads_nameOrArrow word name free.separate free.arrow start).imp fun p same => ⟨start, same⟩
  refine reads_access new (reads_primary_word found fun start => ?_) fun p named => further p _ named ?_
  · rw [wordExpression_name name]
    split
    next async =>
      rw [async] at plain ⊢
      exact (refuses_asyncFunction free start).orElse (plain start)
    next => exact plain start
  · have filled := length_pos_iff.mpr word.nonempty
    cases n with
    | zero => omega
    | succ n =>
      change n + 1 ≤ n + 1 + w.length
      omega

end Names

/-- Before a text and what ends it, one expression or several divided by commas are read. -/
def ReadsAll (t : Text) (P : Phrase → Prop) : Prop :=
  ∀ n, t.length + 3 ≤ n → ∀ raw, Ends Strength.sequence raw → Reads ((readers n).expressions false) (t ++ raw) (ahead raw) P

section Parentheses

variable {t : Text} {e : Shape}

theorem readers_bound (n : Nat) : (readers n).bound = n - 1 := by cases n <;> rfl

theorem reads_bracket {mark : String} (h : (mark : Text) ∈ brackets) (raw : Text) :
    Reads (symbol mark) (mark ++ raw) (ahead raw) fun _ => True := reads_symbol (leads_bracket h raw)

theorem readsAccess_parenthesised (firm : IsFirm t) (h : ReadsAll t (·.Shows e)) :
    ReadsAccess (Render.parenthesised t) (·.Shows e) := by
  intro n room raw rest Q free further
  have length : (Render.parenthesised t).length = t.length + 2 := by simp [Render.parenthesised, Text.ofString]
  have shape : Render.parenthesised t ++ raw = "(" ++ (t ++ (")" ++ raw)) := by simp [Render.parenthesised]
  have found : next? ("(" ++ (t ++ (")" ++ raw))) = some (.symbol "(") := (leads_bracket (by decide) _).next?
  have inside : ahead (t ++ (")" ++ raw)) = t ++ (")" ++ raw) := ahead_solid (firm.append _).solid
  have closing : ahead (")" ++ raw) = ")" ++ raw := ahead_bracket (by decide) raw
  have ends : Ends Strength.sequence (")" ++ raw) := ends_bracket (by decide) (by decide) raw
  have whole : ∀ start, Reads ((readers n).parenthesised start false) ("(" ++ (t ++ (")" ++ raw))) (ahead raw) (·.Shows e) := by
    intro start
    refine Reads.orElse ?_
    refine (reads_bracket (by decide) _).bind fun _ _ => ?_
    rw [inside]
    refine (h n (by omega) _ ends).bind fun p shows => ?_
    rw [closing]
    refine (reads_bracket (by decide) _).bind fun _ _ => (reads_isNext_other free.arrow).next ?_
    exact (reads_require rfl).bind fun _ _ => reads_pure ⟨shows.lowered, rfl⟩
  rw [shape]
  refine reads_access ?_ (reads_primary_parenthesis found whole) fun p shows => further p _ shows ?_
  · rw [found]
    nofun
  · rw [readers_bound]
    omega

end Parentheses

section Suffixes

variable {r : Readers} {t mid rest raw w : Text} {P Q : Phrase → Prop} {p : Phrase} {e : Shape}

theorem reads_suffixes (k : Nat) (h : Reads (r.suffix? true false p) t mid fun next => ∃ q, next = some q ∧ P q)
    (expression : p.isExpression) (further : ∀ q, P q → Reads (r.suffixes true false k q) mid rest Q) :
    Reads (r.suffixes true false (k + 1) p) t rest Q := by
  refine h.bind fun next found => ?_
  obtain ⟨q, rfl, hq⟩ := found
  exact (reads_require expression).bind fun _ _ => further q hq

theorem reads_suffix_none (h : Ends Strength.access raw) : Reads (r.suffix? true false p) (ahead raw) (ahead raw) (· = none) := by
  refine reads_isOver.next ?_
  rw [if_neg Bool.false_ne_true]
  refine reads_peek.bind fun token found => ?_
  have stops : ∀ mark ∈ continuations, token ≠ some (.symbol mark) := by
    rintro mark member rfl
    exact h.not_continued le_rfl member found.symm
  cases token with
  | none => exact reads_pure rfl
  | some token =>
    cases token with
    | symbol s =>
      have other : s ∉ continuations := fun member => stops s member rfl
      simp only [continuations, mem_cons, not_or, mem_nil_iff, not_false_eq_true, and_true] at other
      simp only [other, if_false, or_self, Bool.not_true, Bool.false_eq_true]
      exact reads_pure rfl
    | _ => exact reads_pure rfl

theorem reads_suffixes_end (k : Nat) (h : Ends Strength.access raw) :
    Reads (r.suffixes true false (k + 1) p) (ahead raw) (ahead raw) (· = p) := by
  refine (reads_suffix_none h).next ?_
  exact reads_pure rfl

theorem Reads.some {reader : Reader Phrase} (h : Reads reader t rest P) :
    Reads (do return Option.some (← reader)) t rest fun next => ∃ q, next = Option.some q ∧ P q :=
  h.bind fun q hq => reads_pure ⟨q, rfl, hq⟩

theorem reads_suffix_point (leads : Leads t (.symbol ".") raw) (h : Reads (Readers.memberOf p false) (ahead raw) rest P) :
    Reads (r.suffix? true false p) t rest fun next => ∃ q, next = some q ∧ P q := by
  refine reads_isOver.next (reads_peek.next ?_)
  rw [leads.next?]
  exact (reads_symbol leads).bind fun _ _ => h.some

theorem reads_suffix_bracket (found : next? t = some (.symbol "[")) (h : Reads (r.indexOf p false) t rest P) :
    Reads (r.suffix? true false p) t rest fun next => ∃ q, next = some q ∧ P q := by
  refine reads_isOver.next (reads_peek.next ?_)
  rw [found]
  exact h.some

theorem reads_suffix_parenthesis (found : next? t = some (.symbol "(")) (h : Reads (r.callOf p false) t rest P) :
    Reads (r.suffix? true false p) t rest fun next => ∃ q, next = some q ∧ P q := by
  refine reads_isOver.next (reads_peek.next ?_)
  rw [found]
  exact h.some

theorem reads_memberOf (word : IsWord w) (separate : IsSeparate raw) (shows : p.Shows e) :
    Reads (Readers.memberOf p false) (w ++ raw) (ahead raw) fun q => q.Shows (.node () (.member e w)) ∧ q.role = .access := by
  refine reads_position.bind fun place _ => (reads_take (leads_word word separate)).next ?_
  refine reads_pure ⟨⟨?_, rfl⟩, rfl⟩
  rw [Phrase.member, shows.lowered]
  rfl

theorem reads_indexOf {key : Text} {k : Shape} (firm : IsFirm key) {n : Nat} (room : key.length + 3 ≤ n)
    (h : ReadsAll key (·.Shows k)) (shows : p.Shows e) :
    Reads ((readers n).indexOf p false) ("[" ++ (key ++ ("]" ++ raw))) (ahead raw)
      fun q => q.Shows (.node () (.index e k)) ∧ q.role = .access := by
  refine (reads_bracket (by decide) _).bind fun _ _ => ?_
  rw [ahead_solid (firm.append _).solid]
  refine (h n room _ (ends_bracket (by decide) (by decide) raw)).bind fun q hq => ?_
  rw [ahead_bracket (by decide)]
  refine (reads_bracket (by decide) _).bind fun _ _ => reads_pure ⟨⟨?_, rfl⟩, rfl⟩
  rw [Phrase.index, shows.lowered, hq.lowered]
  rfl

theorem free_of_symbol {s : Text} (separate : IsSeparate raw) (found : next? (ahead raw) = some (.symbol s))
    (arrow : s ≠ "=>") (parameters : s ≠ "(") (n : Nat) : Free n raw where
  separate := separate
  arrow := by
    rw [found]
    rintro ⟨⟩
    exact arrow rfl
  word w word := by
    rw [found] at word
    cases word
  parameters start := by
    refine refuses_arrow ?_ start true false
    rw [found]
    rintro ⟨⟩
    exact parameters rfl

theorem IsWord.leads_point (word : IsWord w) : Leads ("." ++ (w ++ raw)) (.symbol ".") (w ++ raw) := by
  obtain ⟨c, more, rfl, start | escape⟩ := word.head
  · have part : isNamePart c = true ∧ c.isDigit = false := by simpa [isNameStart] using start
    refine Grammar.leads_point part.2 ?_
    rintro rfl
    exact absurd part.1 (by decide)
  · rw [escape]
    exact Grammar.leads_point (by decide) (by decide)

theorem ReadsAccess.member (h : ReadsAccess t (·.Shows e)) (word : IsWord w) :
    ReadsAccess (t ++ "." ++ w) fun q => q.Shows (.node () (.member e w)) ∧ q.role = .access := by
  intro n room raw rest Q free further
  have filled := length_pos_iff.mpr word.nonempty
  have length : (t ++ "." ++ w).length = t.length + 1 + w.length := by
    simp only [length_append]
    rfl
  have leads : Leads ("." ++ (w ++ raw)) (.symbol ".") (w ++ raw) := word.leads_point
  have solid : ahead ("." ++ (w ++ raw)) = "." ++ (w ++ raw) := ahead_solid (isSolid_cons (by decide) (by decide) _)
  have found : next? (ahead ("." ++ (w ++ raw))) = some (.symbol ".") := by rw [solid, leads.next?]
  have before : Free n ("." ++ (w ++ raw)) := free_of_symbol (isSeparate_mark (by decide) _) found (by decide) (by decide) n
  rw [append_assoc, append_assoc]
  refine h n (by omega) _ rest Q before fun p k shows enough => ?_
  obtain _ | k := k
  · omega
  rw [solid]
  refine reads_suffixes k (reads_suffix_point leads ?_) shows.expression fun q hq => further q k hq (by omega)
  rw [ahead_solid (word.firm.append raw).solid]
  exact reads_memberOf word free.separate shows

theorem ReadsAccess.index {key : Text} {k : Shape} (h : ReadsAccess t (·.Shows e)) (firm : IsFirm key)
    (inside : ReadsAll key (·.Shows k)) :
    ReadsAccess (t ++ "[" ++ key ++ "]") fun q => q.Shows (.node () (.index e k)) ∧ q.role = .access := by
  intro n room raw rest Q free further
  have length : (t ++ "[" ++ key ++ "]").length = t.length + 1 + key.length + 1 := by
    simp only [length_append]
    rfl
  have found : next? (ahead ("[" ++ (key ++ ("]" ++ raw)))) = some (.symbol "[") := by
    rw [ahead_bracket (by decide), (leads_bracket (by decide) _).next?]
  have before : Free n ("[" ++ (key ++ ("]" ++ raw))) :=
    free_of_symbol (isSeparate_mark (by decide) _) found (by decide) (by decide) n
  rw [append_assoc, append_assoc, append_assoc]
  refine h n (by omega) _ rest Q before fun p m shows enough => ?_
  obtain _ | m := m
  · omega
  rw [ahead_bracket (by decide)] at found ⊢
  refine reads_suffixes m (reads_suffix_bracket found ?_) shows.expression fun q hq => further q m hq (by omega)
  exact reads_indexOf firm (by omega) inside shows

end Suffixes

end Unravel.Grammar
