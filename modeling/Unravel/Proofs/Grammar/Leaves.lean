import Unravel.Proofs.Grammar.Objects
import Unravel.Proofs.Grammar.Pointed

/-! Which members of numbers, and which objects of names, are read back from their text. A number with a point or an exponent keeps
   them apart from the point of the access; a key that ends in a line feed loses it, and `yield` is a name only where no colon comes
   before it. -/
namespace Unravel

open Grammar Numeral List

namespace Shape

/-- The number and the name of a member of a number. -/
def numberMember? : Shape → Option (Double × Text)
  | .node () (.member (.node () (.number x)) w) => some (x, w)
  | _ => none

/-- The entry that a member of an object is. -/
def entry? : Shape → Option NameEntry
  | .node () (.property k (.node () (.identifier w))) => some ⟨k, w⟩
  | _ => none

/-- The entries of an object of names. -/
def entries? : Shape → Option (List NameEntry)
  | .node () (.object ps) => ps.mapM entry?
  | _ => none

variable {e : Shape}

theorem eq_of_numberMember? {x : Double} {w : Text} (h : numberMember? e = some (x, w)) :
    e = .node () (.member (.node () (.number x)) w) := by
  unfold numberMember? at h
  split at h
  · cases h
    rfl
  · cases h

theorem eq_of_entry? {x : NameEntry} (h : entry? e = some x) : e = x.tree := by
  unfold entry? at h
  split at h
  · cases h
    rfl
  · cases h

theorem eq_of_entries? {xs : List NameEntry} (h : entries? e = some xs) : e = .node () (.object (xs.map NameEntry.tree)) := by
  unfold entries? at h
  split at h
  next ps =>
    have members : ps = xs.map NameEntry.tree := by
      induction ps generalizing xs with
      | nil =>
        cases h
        rfl
      | cons p ps ih =>
        rw [mapM_cons] at h
        obtain ⟨x, first, h⟩ := Option.bind_eq_some_iff.mp h
        obtain ⟨rest, others, h⟩ := Option.bind_eq_some_iff.mp h
        cases h
        rw [map_cons, ← ih others, ← eq_of_entry? first]
    rw [members]
  next => cases h

end Shape

namespace Grammar

theorem parseExpression_eq {source : Text} {p : Phrase} (h : single source = .ok p) : parseExpression source = p.lowered := by
  rw [parseExpression, h]
  rfl

section Numbers

variable {x : Double} {w : Text}

theorem renderExpression_numberMember (positive : x.isNegative = false) :
    (Tree.node () (.member (Tree.node () (.number x)) w)).renderExpression = .ok (Render.number x ++ "." ++ w) := by
  have strong : ¬(Form.number (ρ := Shape) x).strength < Strength.access := by
    rw [Form.strength, positive]
    decide
  have text : Render.within Strength.access (Tree.node () (.number x), (Tree.node () (.number x)).rendered) = .ok (Render.number x) := by
    rw [within_shown (t := Render.number x) rfl, shown]
    exact congrArg Except.ok (if_neg strong)
  rw [Tree.renderExpression_node, Form.map, Render.expression, Render.callee]
  dsimp only [Tree.form]
  rw [text]
  rfl

theorem legal_layout {l : Layout} (numeral : l.IsNumeral) : l.text.all isLegal := by
  refine all_eq_true.mpr fun c member => ?_
  rcases Layout.mem_text numeral member with ⟨d, digit, rfl⟩ | sign
  · have range := Char.isDigit_iff_toNat.mp digit
    exact isLegal_of_ascii (Nat.lt_of_lt_of_le (by decide) range.1) (Nat.lt_of_le_of_lt range.2 (by decide))
  · exact (by decide : ∀ c ∈ (".e+-" : Text), c.isLegal) c sign

theorem parse_numberMember_iff (positive : x.isNegative = false) (finite : x.isFinite) (word : IsWord w) (legal : w.all isLegal) :
    parseExpression (Render.number x ++ "." ++ w) = .ok (.node () (.member (.node () (.number x)) w)) ↔ ¬x.IsSmallWhole := by
  refine ⟨fun parsed small => ?_, fun other => ?_⟩
  · obtain ⟨l, numeral, text⟩ := exists_whole positive finite small
    rw [text] at parsed
    exact parse_pointed_ne numeral word _ _ parsed
  obtain ⟨l, numeral, broken, text, value⟩ := exists_broken positive finite other
  have number : IsAccess l.text (·.Shows (.node () (.number x))) := by
    have firm : IsFirm l.text := (isFirm_whole numeral).append _
    refine (isAccess_number firm fun raw separate => leads_numeral numeral broken separate).imp ?_
    rintro p ⟨start, rfl⟩
    refine ⟨?_, rfl⟩
    rw [Phrase.number, value]
    rfl
  have access := (number.member word).imp fun p hp => hp.1
  have whole : (l.text ++ "." ++ w).all isLegal := by
    rw [all_append, all_append, legal_layout numeral, legal]
    rfl
  obtain ⟨p, read, shows⟩ := single_eq_ok access.firm (access.cover.all fun _ shows => shows.expression) whole
  rw [text, parseExpression_eq read, shows.lowered]

end Numbers

section Objects

variable {xs : List NameEntry}

theorem property_entry (x : NameEntry) : x.tree.rendered.property = .ok x.text := by
  have value : (Shape.identifier x.value).renderExpression = .ok x.value := rfl
  have strong : ¬(Shape.identifier x.value).form.strength < Strength.assignment := by
    change ¬Strength.primary < Strength.assignment
    decide
  rw [NameEntry.tree, Tree.rendered_node, Form.map, Render.layer]
  dsimp only
  rw [Render.property, within_shown value, shown, if_neg strong]
  rfl

theorem renderExpression_entries (xs : List NameEntry) :
    (Tree.node () (.object (xs.map NameEntry.tree))).renderExpression = .ok (braced xs) := by
  have texts : ((xs.map NameEntry.tree).map fun t => (t, t.rendered)).mapM (fun p => p.2.property) = .ok (xs.map NameEntry.text) := by
    induction xs with
    | nil => rfl
    | cons x xs ih =>
      rw [map_cons, map_cons, mapM_cons, ih, property_entry]
      rfl
  rw [Tree.renderExpression_node, Form.map, Render.expression, texts]
  rw [braced, entries, listing, List.map_map]
  rfl

/-- The entries of an object that a source stands for are like those of a source. -/
theorem isReadable_of_isWritten (written : (Form.object (xs.map NameEntry.tree)).IsWritten) :
    ∀ x ∈ xs, x.IsReadable ∧ x.value.all isLegal := by
  intro x member
  obtain ⟨unpaired, leaf⟩ := written x.tree (mem_map_of_mem member) _ _ rfl
  exact ⟨⟨unpaired, leaf.1, leaf.2.1⟩, leaf.2.2⟩

theorem legal_braced (legal : ∀ x ∈ xs, x.value.all isLegal) : (braced xs).all isLegal := by
  have inside : (entries xs).all isLegal := by
    refine legal_listing fun piece member => ?_
    obtain ⟨x, hx, rfl⟩ := mem_map.mp member
    rw [NameEntry.piece, NameEntry.text, all_append, all_append, legal_key, legal x hx]
    rfl
  rw [braced, all_append, all_append, inside]
  rfl

theorem tree_read_iff {x : NameEntry} : x.read.tree = x.tree ↔ ¬Render.losesLineFeed x.key := by
  constructor
  · intro same loses
    obtain ⟨name, -, key⟩ := losesLineFeed_iff.mp loses
    injection same with _ forms
    injection forms with keys
    rw [NameEntry.read, Render.readKey, if_pos loses, key, dropLast_concat] at keys
    exact cons_ne_nil _ _ (self_eq_append_right.mp keys)
  · intro keeps
    rw [NameEntry.read, Render.readKey, if_neg keeps]

section Read

variable (readable : ∀ x ∈ xs, x.IsReadable ∧ x.value.all isLegal)

include readable

theorem exists_object : ∃ start ms, List.Forall₂ Member.Stands ms xs ∧ parseExpression (braced xs) = (Phrase.object start ms).lowered := by
  have access := isAccess_object fun x hx => (readable x hx).1
  have all : ReadsAll (braced xs) _ := access.cover.all (by
    rintro p ⟨start, ms, rfl, stand⟩
    exact isExpression_object stand start)
  obtain ⟨outside, p, ⟨start, ms, rfl, stand⟩, read⟩ := single_of_readsAll access.firm all (legal_braced fun x hx => (readable x hx).2)
  refine ⟨start, ms, stand, ?_⟩
  rw [parseExpression_eq read, Phrase.parenthesised]

theorem parse_entries (named : ∀ x ∈ xs, x.value ≠ "yield") :
    parseExpression (braced xs) = .ok (.node () (.object (xs.map fun x => x.read.tree))) := by
  obtain ⟨start, ms, stand, read⟩ := exists_object readable
  rw [read, lowered_object stand start named]

theorem parse_entries_iff : parseExpression (braced xs) = .ok (.node () (.object (xs.map NameEntry.tree))) ↔
    ∀ x ∈ xs, x.value ≠ "yield" ∧ ¬Render.losesLineFeed x.key := by
  constructor
  · intro parsed
    obtain ⟨start, ms, stand, read⟩ := exists_object readable
    have named : ∀ x ∈ xs, x.value ≠ "yield" := fun x hx yields => lowered_object_ne stand start hx yields _ (read.symm.trans parsed)
    rw [parse_entries readable named] at parsed
    injection parsed with trees
    injection trees with _ forms
    injection forms with same
    exact fun x hx => ⟨named x hx, tree_read_iff.mp (map_inj_left.mp same x hx)⟩
  · intro clean
    rw [parse_entries readable fun x hx => (clean x hx).1, map_inj_left.mpr fun x hx => tree_read_iff.mpr (clean x hx).2]

end Read

end Objects

end Grammar

end Unravel
