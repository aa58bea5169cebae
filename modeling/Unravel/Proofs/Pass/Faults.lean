import Unravel.Proofs.Datum.Writing
import Unravel.Proofs.Pass.Runs
import Unravel.Proofs.Pass.Trees
import Unravel.Proofs.Pool.Faults

/-! How passes go wrong. One invariant of the context carries all of it: the table is closed, and the tree is a function
   that can be printed. Each pass keeps the invariant, also where it fails. -/
namespace Unravel

open Outcome

/-- The faults that solving a challenge is documented to report. -/
def Fault.isDocumented (f : Fault) : Bool :=
  [Category.parse, .unsupported, .pool, .evaluation, .shape].contains f.category

/-- The faults that are reported beside the documented ones. -/
inductive Fault.Escapes (source : Text) (artifacts : Option Text) : Fault → Prop where
  /-- A Kelvin sign among the digits of an integer. -/
  | kelvin {f : Fault} : f.blamesKelvin → Escapes source artifacts f
  /-- An escape in a string that stands for no code point. -/
  | range : Escapes source artifacts .codePointRange
  | overflow : Escapes source artifacts .codePointOverflow
  /-- A source that has no encoded form. -/
  | surrogate {f : Fault} : f.category = .encoding → (∃ c ∈ source, c.isSurrogate) → Escapes source artifacts f
  /-- An artifact that has no encoded form. -/
  | file {f : Fault} : f.category = .encoding → artifacts.isSome → Escapes source artifacts f

def Fault.IsAllowed (source : Text) (artifacts : Option Text) (f : Fault) : Prop :=
  f.isDocumented ∨ f.Escapes source artifacts

namespace Fault

variable {source : Text} {artifacts : Option Text} {f : Fault}

theorem IsAllowed.ofEvaluation (h : f.isOfEvaluation) : f.IsAllowed source artifacts := by
  rw [isOfEvaluation, Bool.or_eq_true, decide_eq_true_eq] at h
  rcases h with h | h
  · exact Or.inl (by simp [isDocumented, h])
  · exact Or.inr (.kelvin h)

theorem IsAllowed.ofSource (h : IsSourceFault source f) : f.IsAllowed source artifacts := by
  rcases h with h | ⟨encoding, surrogate⟩
  · cases f with
    | codePointRange => exact Or.inr .range
    | codePointOverflow => exact Or.inr .overflow
    | _ =>
      refine Or.inl ?_
      simp only [isOfReading, Bool.or_eq_true, beq_iff_eq] at h
      rcases h with h | h <;> simp [isDocumented, h]
  · exact Or.inr (.surrogate encoding surrogate)

end Fault

namespace Context

/-- The state that passes rely on and keep. -/
structure IsSound (source : Text) (artifacts : Option Text) (c : Context) : Prop where
  source : c.source = source
  artifacts : c.artifacts = artifacts
  closed : c.ns.IsClosed
  tree : ∀ t ∈ c.tree, t.IsFunctionTree
  result : ∀ r ∈ c.result, r.Grammatical ∧ r.form.isExpression

end Context

/-- From a sound state a step goes on to a sound one, gives what is asked for, and fails only as allowed. -/
def Keeps (source : Text) (artifacts : Option Text) {α : Type} (x : Step α) (P : α → Prop) : Prop :=
  ∀ c : Context, c.IsSound source artifacts →
    Ends (x c).1 P (Fault.IsAllowed source artifacts) ∧ (x c).2.IsSound source artifacts

section Keeps

variable {source : Text} {artifacts : Option Text} {α β : Type} {P : α → Prop} {Q : β → Prop}

theorem Keeps.bind {x : Step α} {f : α → Step β} (h : Keeps source artifacts x P)
    (next : ∀ a, P a → Keeps source artifacts (f a) Q) : Keeps source artifacts (x >>= f) Q := by
  intro c sound
  obtain ⟨ends, after⟩ := h c sound
  rw [Context.bind_run]
  cases run : x c with
  | mk result later =>
    rw [run] at ends after
    cases result with
    | ok a => exact next a ends later after
    | error f => exact ⟨ends, after⟩

theorem keeps_pure {a : α} (h : P a) : Keeps source artifacts (pure a) P := fun _ sound => ⟨h, sound⟩

theorem keeps_lift {o : Outcome α} (h : o.Ends P (Fault.IsAllowed source artifacts)) :
    Keeps source artifacts (Context.lift o) P := fun _ sound => ⟨h, sound⟩

theorem keeps_throw {f : Fault} (h : f.IsAllowed source artifacts) : Keeps source artifacts (throw f : Step α) P :=
  fun _ sound => ⟨h, sound⟩

theorem keeps_get : Keeps source artifacts get (Context.IsSound source artifacts) := fun _ sound => ⟨sound, sound⟩

theorem keeps_modify {g : Context → Context}
    (h : ∀ c : Context, c.IsSound source artifacts → (g c).IsSound source artifacts) :
    Keeps source artifacts (modify g) fun _ => True := fun c sound => ⟨True.intro, h c sound⟩

end Keeps

namespace Context

variable {source : Text} {artifacts : Option Text}

theorem keeps_writeFile (wanted : artifacts.isSome) (path content : Text) :
    Keeps source artifacts (writeFile path content) fun _ => True := by
  have encodes : content.checkEncoding.Ends (fun _ => True) (Fault.IsAllowed source artifacts) :=
    (Text.ends_checkEncoding content).widen fun _ h => Or.inr (.file h.1 wanted)
  exact (keeps_lift encodes).bind fun _ _ => keeps_modify fun c sound => { sound with }

theorem keeps_record (name : Text) (report : Datum) : Keeps source artifacts (record name report) fun _ => True := by
  refine (keeps_modify ?_).bind fun _ _ => keeps_get.bind fun c sound => ?_
  · exact fun c sound => { sound with }
  cases wanted : c.artifacts with
  | none => exact keeps_pure True.intro
  | some directory =>
    refine (keeps_lift (Datum.succeeds_fileText true report).ends).bind fun text _ => keeps_writeFile ?_ _ _
    rw [← sound.artifacts, wanted]
    rfl

theorem keeps_writeArtifact (name content extension : Text) :
    Keeps source artifacts (writeArtifact name content extension) fun _ => True := by
  refine keeps_get.bind fun c sound => ?_
  cases wanted : c.artifacts with
  | none => exact keeps_pure True.intro
  | some directory =>
    have some : artifacts.isSome := by
      rw [← sound.artifacts, wanted]
      rfl
    dsimp only
    split
    · exact keeps_pure True.intro
    · exact keeps_writeFile some _ _

theorem keeps_traceEntry (entry : Text) : Keeps source artifacts (traceEntry entry) fun _ => True :=
  keeps_modify fun _ sound => { sound with }

theorem keeps_checkpoint (name : Text) : Keeps source artifacts (checkpoint name) fun _ => True := by
  refine keeps_get.bind fun c sound => ?_
  cases held : c.tree with
  | none => exact keeps_pure True.intro
  | some t =>
    have tree := sound.tree t held
    have expression : t.form.isExpression := by
      obtain ⟨params, body, name, isArrow, function⟩ := tree.function
      rw [function]
      rfl
    refine (keeps_lift (tree.grammatical.toSource expression).ends).bind fun text _ => ?_
    exact (keeps_writeArtifact _ _ _).bind fun _ _ => keeps_traceEntry _

end Context

namespace Node

variable {ns : Namespace} (closed : ns.IsClosed) {root : Node} (tree : root.IsFunctionTree)

include closed tree

theorem ends_foldResult :
    (root.foldResult ns).Ends (fun _ => True) fun f => f.category = .shape ∨ f.isOfEvaluation := by
  have finds : (resultExpression root).Ends (fun e => e.Grammatical ∧ e.form.isExpression)
      fun f => f.category = .shape ∨ f.isOfEvaluation := by
    cases found : resultExpression root with
    | ok e =>
      have returned := returned_of_resultExpression found
      exact ⟨tree.grammatical.subtree returned.mem_walk, (sight_of_returned tree returned).1⟩
    | error f =>
      rw [noReturn_of_found.1 found]
      exact Or.inl rfl
  refine finds.bind fun e he => Ends.bind (P := fun _ => True) ?_ fun _ _ => True.intro
  have folds := (Folder.ends_fold (Folder.tame_symbolic closed root) (Folder.shown_of_grammatical he.1 he.2)).1
  rcases foldedResult_cases ns root e with ⟨n, fails⟩ | checked
  · rw [fails]
    exact Or.inl rfl
  · rw [checked]
    refine (folds.widen fun _ => Or.inr).bind fun s term => ?_
    rw [checkTriple]
    split
    next => exact True.intro
    next => exact term.renders.ends.bind fun _ _ => Or.inl rfl

end Node

namespace Pass

variable {source : Text} {artifacts : Option Text}

theorem keeps_parse : Keeps source artifacts parse fun _ => True := by
  refine keeps_get.bind fun c sound => ?_
  have reads : (parseFunction c.source).Ends (fun s => (s.numberFrom 0).IsFunctionTree) (Fault.IsAllowed source artifacts) := by
    rw [sound.source]
    cases parsed : parseFunction source with
    | ok s => exact (Node.function_of_parsed parsed 0).1
    | error f => exact .ofSource ((ends_parseFunction source).of_error parsed)
  refine (keeps_lift reads).bind fun s tree => Keeps.bind (keeps_modify ?_) fun _ _ => keeps_pure True.intro
  intro c sound
  refine { sound with tree := ?_, result := nofun }
  intro t same
  cases same
  exact tree

theorem keeps_onTree {run : Context → Node → Step Datum}
    (h : ∀ c : Context, c.IsSound source artifacts → ∀ t : Node, t.IsFunctionTree → Keeps source artifacts (run c t) fun _ => True) :
    Keeps source artifacts (onTree run) fun _ => True := by
  refine keeps_get.bind fun c sound => ?_
  cases held : c.tree with
  | none => exact keeps_pure True.intro
  | some t => exact h c sound t (sound.tree t held)

theorem keeps_newTree {t : Node} (tree : t.IsFunctionTree) (slots : List Slot → List Slot) :
    Keeps source artifacts (modify fun c : Context => { c with tree := some t, slots := slots c.slots }) fun _ => True := by
  refine keeps_modify fun c sound => { sound with tree := ?_ }
  intro s same
  cases same
  exact tree

theorem keeps_eliminateAliases : Keeps source artifacts eliminateAliases fun _ => True := by
  refine keeps_onTree fun c sound t tree => ?_
  exact (keeps_newTree tree.eliminateAliases id).bind fun _ _ => keeps_pure True.intro

theorem keeps_normaliseMembers : Keeps source artifacts normaliseMembers fun _ => True := by
  refine keeps_onTree fun c sound t tree => ?_
  exact (keeps_newTree tree.normaliseMembers id).bind fun _ _ => keeps_pure True.intro

theorem keeps_recoverStrings : Keeps source artifacts recoverStrings fun _ => True := by
  refine keeps_onTree fun c sound t tree => ?_
  have ends : (t.recoverStrings c.ns).Ends (fun o => ∀ r ∈ o, r.root.IsFunctionTree) (Fault.IsAllowed source artifacts) := by
    have faults := Node.ends_recoverStrings sound.closed tree.grammatical
    cases recovered : t.recoverStrings c.ns with
    | ok found =>
      rintro r rfl
      exact tree.recoverStrings recovered
    | error f =>
      rcases faults.of_error recovered with pool | evaluation
      · exact Or.inl (by simp [Fault.isDocumented, pool])
      · exact .ofEvaluation evaluation
  refine (keeps_lift ends).bind fun found trees => ?_
  cases found with
  | none => exact keeps_pure True.intro
  | some r => exact (keeps_newTree (trees r rfl) (· ++ r.slots)).bind fun _ _ => keeps_pure True.intro

theorem keeps_foldResult : Keeps source artifacts foldResult fun _ => True := by
  refine keeps_onTree fun c sound t tree => ?_
  have ends : (t.foldResult c.ns).Ends (fun folded => folded.function.IsFunctionTree ∧
      folded.result.Grammatical ∧ folded.result.form.isExpression) (Fault.IsAllowed source artifacts) := by
    have faults := Node.ends_foldResult sound.closed tree
    cases done : t.foldResult c.ns with
    | ok folded =>
      obtain ⟨e, folds⟩ := Node.exists_isFolded done
      exact ⟨folds.tree tree, folds.grammatical, folds.expression⟩
    | error f =>
      rcases faults.of_error done with shape | evaluation
      · exact Or.inl (by simp [Fault.isDocumented, shape])
      · exact .ofEvaluation evaluation
  refine (keeps_lift ends).bind fun folded facts => Keeps.bind (keeps_modify ?_) fun _ _ => ?_
  · intro c sound
    refine { sound with tree := ?_, result := ?_ }
    · intro t same
      cases same
      exact facts.1
    · intro r same
      cases same
      exact facts.2
  · exact (keeps_lift (facts.2.1.renders facts.2.2).ends).bind fun _ _ => keeps_pure True.intro

theorem keeps_reported (name : Text) {pass : Step Datum} (h : Keeps source artifacts pass fun _ => True) :
    Keeps source artifacts (reported name pass) fun _ => True :=
  h.bind fun report _ => (Context.keeps_record name report).bind fun _ _ => Context.keeps_checkpoint name

end Pass

end Unravel
