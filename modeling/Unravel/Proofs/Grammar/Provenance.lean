import Unravel.Proofs.Grammar.Numerals
import Unravel.Proofs.Grammar.Spelling
import Unravel.Proofs.Grammar.Wrapper

/-! What the names, operators, numbers and keys of a tree are, if the tree is read from a text: names are words of the text, operators
   are known, numbers are not negative, and no key has a pair of surrogates. -/
namespace Unravel.Grammar

open Outcome

variable {t : Text} {p : Phrase}

section Tokens

theorem legal_of_subset {u : Text} (legal : t.all isLegal) (inside : u ⊆ t) : u.all isLegal :=
  List.all_eq_true.mpr fun c member => List.all_eq_true.mp legal c (inside member)

theorem Token.isWritten_of_token? {token : Token} {n : Nat} (legal : t.all isLegal) (h : token? t = some (token, n)) :
    token.IsWritten := by
  cases token with
  | word w =>
    obtain ⟨k, length, rfl⟩ := heads_of_token? h
    exact ⟨isWord_take length, legal_of_subset legal (List.take_subset _ _)⟩
  | number u =>
    obtain ⟨-, rfl⟩ := heads_of_token? h
    exact ⟨legal_of_subset legal (List.take_subset _ _), fun x => isNegative_number h⟩
  | _ => trivial

theorem Taken.isWritten {token : Token} (h : Taken t token) (legal : t.all isLegal) : token.IsWritten := by
  obtain ⟨u, n, inside, found⟩ := h
  exact Token.isWritten_of_token? (legal_of_subset legal inside.subset) found

end Tokens

section Barren

variable {r : Readers}

/-- A phrase that stands for a function, if it stands for anything. -/
def Phrase.IsBarren (p : Phrase) : Prop := p.lowered.Gives fun e => e.form.isFunction

theorem Phrase.IsBarren.isWritten (h : p.IsBarren) : p.IsWritten := by
  refine Phrase.isWritten_of_other fun e lowered => ?_
  have function : e.form.isFunction = true := h e lowered
  dsimp only
  generalize e.form = f at function ⊢
  cases f with
  | function params body name isArrow => exact ⟨trivial, rfl⟩
  | _ => cases function

theorem isBarren_arrow (start : Position) (isAsync : Bool) (params : List Parameter) (body : Outcome (List Shape)) :
    (Phrase.arrow start isAsync params body).IsBarren := by
  rw [Phrase.IsBarren, Phrase.arrow]
  dsimp only
  split
  · exact gives_throw _
  · exact gives_after fun _ => gives_after fun _ => gives_pure rfl

theorem isBarren_function (kind : Text) (start : Position) (isAsync : Bool) (name : Option Text) (params : List Parameter)
    (body : Outcome (List Shape)) : (Phrase.function kind start isAsync name params body).IsBarren := by
  rw [Phrase.IsBarren, Phrase.function]
  dsimp only
  split
  · exact gives_throw _
  · split
    · exact gives_throw _
    · exact gives_after fun _ => gives_after fun _ => gives_pure rfl

theorem yields_arrowRest (start : Position) (isAsync mayEnd : Bool) (params : List Parameter) :
    Yields (r.arrowRest start isAsync mayEnd params) Phrase.IsBarren :=
  .after fun _ => .after fun body => .pure (isBarren_arrow start isAsync params body)

theorem yields_arrow (start : Position) (isAsync mayEnd : Bool) : Yields (r.arrow start isAsync mayEnd) Phrase.IsBarren :=
  .after fun params => yields_arrowRest start isAsync mayEnd params

theorem yields_functionExpression (start : Position) (isAsync : Bool) :
    Yields (r.functionExpression start isAsync) Phrase.IsBarren :=
  .after fun _ => .after fun _ => .after fun _ => .after fun _ => .after fun _ =>
    .pure (isBarren_function _ _ _ _ _ _)

end Barren

/-- Every construct of a legal text is such as can be read if its parts are. -/
theorem keeps_isWritten {r : Readers} (legal : t.all isLegal) (cover : ∀ mayEnd, Gathers t anywhere (r.cover mayEnd) Phrase.IsWritten) :
    Keeps t r (fun u => next? u ≠ some (.word "yield")) Phrase.IsWritten Member.IsWritten where
  cover := cover
  functionExpression start isAsync := (yields_functionExpression start isAsync).gathers.imp fun _ => Phrase.IsBarren.isWritten
  arrow start isAsync mayEnd := (yields_arrow start isAsync mayEnd).gathers.imp fun _ => Phrase.IsBarren.isWritten
  arrowOfName _ start _ isAsync mayEnd := (yields_arrowRest start isAsync mayEnd _).gathers.imp fun _ => Phrase.IsBarren.isWritten
  free _ other := other
  name taken named u other next start := by
    refine isWritten_name (taken.isWritten legal).1 named ?_ (taken.isWritten legal).2 start
    rintro rfl
    exact other next
  boolean _ start _ := Phrase.isWritten_of_other (gives_ok ⟨trivial, rfl⟩)
  null start := Phrase.isWritten_of_other (gives_ok ⟨trivial, rfl⟩)
  number taken start := isWritten_number (taken.isWritten legal) start
  string _ _ := Phrase.isWritten_of_other (gives_after fun _ => gives_pure ⟨trivial, rfl⟩)
  foreign _ _ := gives_error _
  tagged _ _ := gives_error _
  parenthesised written start := isWritten_parenthesised written start
  array all start commented := isWritten_array all start commented
  spread _ _ := gives_error _
  method _ := gives_error _
  pair taken written start := isWritten_pair (taken.isWritten legal) written start
  shorthand taken named := by
    obtain ⟨word, legal⟩ := taken.isWritten legal
    have entry := isWritten_property (v := Shape.identifier _) (isUnpaired_of_legal legal) ⟨word, named, legal⟩
    exact ⟨gives_ok entry, gives_ok entry⟩
  object all start := isWritten_object all start
  member written taken isOptional place := isWritten_member written (taken.isWritten legal) isOptional place
  index written key isOptional := isWritten_index written key isOptional
  call written all isOptional := isWritten_call written all isOptional
  assign known written value := isWritten_assign known written value
  unary known written start := isWritten_unary known written start
  binary known left right := isWritten_binary known left right
  conditional test yes no := isWritten_conditional test yes no
  sequence all := isWritten_sequence all

theorem gathers_cover (legal : t.all isLegal) (n : Nat) (mayEnd : Bool) :
    Gathers t anywhere ((readers n).cover mayEnd) Phrase.IsWritten := by
  induction n generalizing mayEnd with
  | zero => exact .failure
  | succ n ih => exact (keeps_isWritten legal ih).coverWith mayEnd

/-- What a source stands for is made of what stands in it. -/
theorem isWritten_of_single {source : Text} (h : single source = .ok p) : p.IsWritten := by
  obtain ⟨legal, clause, read, expression⟩ := single_eq_ok_iff.mp h
  obtain ⟨after, reads, -⟩ := expressions_of_program (next?_parenthesised source) read expression
  have legal := isLegal_parenthesised.trans legal
  exact (keeps_isWritten legal (gathers_cover legal _)).expressions true _ p after (List.suffix_refl _) trivial reads

end Unravel.Grammar
