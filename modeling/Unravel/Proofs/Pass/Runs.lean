import Unravel.Registry

/-! What each pass does to a context: without a tree nothing, otherwise its one change is made after all that can fail
   about the tree. Reports and snapshots do not touch what the passes work on. -/
namespace Unravel

variable {c last : Context} {report : RunReport}

section Steps

variable {α β : Type} {c : Context}

theorem Context.bind_run (x : Step α) (f : α → Step β) :
    (x >>= f) c = match x c with
      | (.ok a, next) => f a next
      | (.error fault, next) => (.error fault, next) := by
  change ExceptT.bindCont f (x c).1 (x c).2 = _
  cases x c with
  | mk result next => cases result <;> rfl

theorem Context.lift_bind (o : Outcome α) (f : α → Step β) :
    (lift o >>= f) c = match o with
      | .ok a => f a c
      | .error fault => (.error fault, c) := by
  cases o <;> rfl

theorem Context.bind_eq_ok {x : Step α} {f : α → Step β} {b : β} (h : (x >>= f) c = (.ok b, last)) :
    ∃ a next, x c = (.ok a, next) ∧ f a next = (.ok b, last) := by
  rw [bind_run] at h
  cases run : x c with
  | mk result next =>
    rw [run] at h
    cases result with
    | ok a => exact ⟨a, next, rfl, h⟩
    | error fault => cases h

theorem Context.lift_bind_eq_ok {o : Outcome α} {f : α → Step β} {b : β}
    (h : (lift o >>= f) c = (.ok b, last)) : ∃ a, o = .ok a ∧ f a c = (.ok b, last) := by
  rw [lift_bind] at h
  cases o with
  | ok a => exact ⟨a, rfl, h⟩
  | error fault => cases h

theorem Context.get_bind (f : Context → Step β) : (get >>= f) c = f c c := rfl

theorem Context.modify_bind (g : Context → Context) (f : Unit → Step β) : (modify g >>= f) c = f () (g c) := rfl

end Steps

namespace Context

/-- What the passes work on. -/
def core (c : Context) : Text × Namespace × Option Node × Option Node := (c.source, c.ns, c.tree, c.result)

/-- A step beside the work of the passes. -/
def IsAside {α : Type} (x : Step α) : Prop := ∀ c, (x c).2.core = c.core

section Aside

variable {α β : Type}

theorem IsAside.bind {x : Step α} {f : α → Step β} (h : IsAside x) (next : ∀ a, IsAside (f a)) : IsAside (x >>= f) := by
  intro c
  have first := h c
  rw [bind_run]
  cases run : x c with
  | mk result after =>
    rw [run] at first
    cases result with
    | ok a => exact (next a after).trans first
    | error fault => exact first

theorem isAside_pure (a : α) : IsAside (pure a : Step α) := fun _ => rfl

theorem isAside_lift (o : Outcome α) : IsAside (lift o) := fun _ => rfl

theorem isAside_get : IsAside (get : Step Context) := fun _ => rfl

theorem isAside_modify {g : Context → Context} (h : ∀ c, (g c).core = c.core) : IsAside (modify g : Step Unit) := h

end Aside

theorem isAside_writeFile (path content : Text) : IsAside (writeFile path content) :=
  (isAside_lift _).bind fun _ => isAside_modify fun _ => rfl

theorem isAside_traceEntry (entry : Text) : IsAside (traceEntry entry) := isAside_modify fun _ => rfl

theorem isAside_record (name : Text) (report : Datum) : IsAside (record name report) := by
  refine (isAside_modify ?_).bind fun _ => isAside_get.bind fun c => ?_
  · exact fun _ => rfl
  cases c.artifacts with
  | none => exact isAside_pure _
  | some directory => exact (isAside_lift _).bind fun _ => isAside_writeFile _ _

theorem isAside_writeArtifact (name content extension : Text) : IsAside (writeArtifact name content extension) := by
  refine isAside_get.bind fun c => ?_
  cases c.artifacts with
  | none => exact isAside_pure _
  | some directory =>
    dsimp only
    split
    · exact isAside_pure _
    · exact isAside_writeFile _ _

theorem isAside_checkpoint (name : Text) : IsAside (checkpoint name) := by
  refine isAside_get.bind fun c => ?_
  cases c.tree with
  | none => exact isAside_pure _
  | some t =>
    refine (isAside_lift _).bind fun source => ?_
    exact (isAside_writeArtifact _ _ _).bind fun _ => isAside_traceEntry _

end Context

namespace Pass

theorem reported_eq_ok {name : Text} {pass : Step Datum} {u : Unit}
    (h : reported name pass c = (.ok u, last)) : ∃ report next, pass c = (.ok report, next) ∧ last.core = next.core := by
  obtain ⟨report, next, run, h⟩ := Context.bind_eq_ok h
  refine ⟨report, next, run, ?_⟩
  have aside := (Context.isAside_record name report).bind fun _ => Context.isAside_checkpoint name
  rw [← aside next]
  exact congrArg (fun r => r.2.core) h.symm

theorem parse_eq_ok {next : Context} {report : Datum} (h : parse c = (.ok report, next)) :
    ∃ shape, parseFunction c.source = .ok shape ∧
      next = { c with tree := some (shape.numberFrom 0), result := none, slots := [] } := by
  rw [parse, Context.get_bind] at h
  obtain ⟨shape, read, h⟩ := Context.lift_bind_eq_ok h
  rw [Context.modify_bind] at h
  exact ⟨shape, read, (congrArg Prod.snd h).symm⟩

/-- The passes that change a tree. -/
def rewriting : List (Step Datum) := [eliminateAliases, recoverStrings, normaliseMembers, foldResult]

variable {c : Context}

theorem onTree_of_none (run : Context → Node → Step Datum) (absent : c.tree = none) : onTree run c = (.ok skipped, c) := by
  rw [onTree, Context.get_bind, absent]
  rfl

theorem onTree_of_some (run : Context → Node → Step Datum) {t : Node} (tree : c.tree = some t) : onTree run c = run c t c := by
  rw [onTree, Context.get_bind, tree]

variable {t : Node} (tree : c.tree = some t)

include tree

theorem eliminateAliases_run : ∃ report, eliminateAliases c = (.ok report, { c with tree := some t.eliminateAliases.root }) :=
  ⟨_, onTree_of_some _ tree⟩

theorem normaliseMembers_run :
    ∃ report, normaliseMembers c = (.ok report, { c with tree := some t.normaliseMembers.node }) :=
  ⟨_, onTree_of_some _ tree⟩

theorem recoverStrings_run :
    (∃ fault, t.recoverStrings c.ns = .error fault ∧ recoverStrings c = (.error fault, c)) ∨
      (t.recoverStrings c.ns = .ok none ∧ recoverStrings c = (.ok skipped, c)) ∨
      ∃ r report, t.recoverStrings c.ns = .ok (some r) ∧
        recoverStrings c = (.ok report, { c with tree := some r.root, slots := c.slots ++ r.slots }) := by
  rw [recoverStrings, onTree_of_some _ tree, Context.lift_bind]
  cases recovered : t.recoverStrings c.ns with
  | error fault => exact Or.inl ⟨fault, rfl, rfl⟩
  | ok found =>
    cases found with
    | none => exact Or.inr (Or.inl ⟨rfl, rfl⟩)
    | some r => exact Or.inr (Or.inr ⟨r, _, rfl, rfl⟩)

theorem foldResult_run :
    (∃ fault, t.foldResult c.ns = .error fault ∧ foldResult c = (.error fault, c)) ∨
      ∃ folded, t.foldResult c.ns = .ok folded ∧
        ((∃ text report, folded.result.renderExpression = .ok text ∧
            foldResult c = (.ok report, { c with tree := some folded.function, result := some folded.result })) ∨
          ∃ fault, folded.result.renderExpression = .error fault ∧
            foldResult c = (.error fault, { c with tree := some folded.function, result := some folded.result })) := by
  rw [foldResult, onTree_of_some _ tree, Context.lift_bind]
  cases h : t.foldResult c.ns with
  | error fault => exact Or.inl ⟨fault, rfl, rfl⟩
  | ok folded =>
    refine Or.inr ⟨folded, rfl, ?_⟩
    simp only [Context.modify_bind, Context.lift_bind]
    cases folded.result.renderExpression with
    | ok text => exact Or.inl ⟨text, _, rfl, rfl⟩
    | error fault => exact Or.inr ⟨fault, rfl, rfl⟩

end Pass

namespace Registry

theorem sorted_standard : standard.sorted = standard.passes := by
  refine List.mergeSort_of_pairwise ?_
  simp [standard]

theorem run_standard (selection : Selection) (c : Context) :
    standard.run selection c = runAll (standard.passes.filter fun p => selection.wants p.name) {} c := by
  rw [run, sorted_standard]

/-- What every pass keeps, a run without failure keeps. -/
theorem runAll_keeps {P : Context → Prop} {passes : List RegisteredPass}
    (each : ∀ p ∈ passes, ∀ c next u, P c → p.run c = (.ok u, next) → P next) (start : P c)
    (success : (runAll passes report c).1.failure = none) : P (runAll passes report c).2 := by
  induction passes generalizing report c with
  | nil => exact start
  | cons p rest ih =>
    rw [runAll] at success ⊢
    cases run : p.run c with
    | mk result next =>
      rw [run] at success
      cases result with
      | ok u => exact ih (fun q hq => each q (.tail p hq)) (each p (.head _) c next u start run) success
      | error fault => cases success

theorem runAll_append {front back : List RegisteredPass}
    (success : (runAll (front ++ back) report c).1.failure = none) (fresh : report.failure = none) :
    (runAll front report c).1.failure = none ∧
      runAll (front ++ back) report c = runAll back (runAll front report c).1 (runAll front report c).2 := by
  induction front generalizing report c with
  | nil => exact ⟨fresh, rfl⟩
  | cons p rest ih =>
    rw [List.cons_append, runAll] at success ⊢
    rw [runAll]
    cases run : p.run c with
    | mk result next =>
      rw [run] at success
      cases result with
      | ok u => exact ih success rfl
      | error fault => cases success

theorem runAll_single {p : RegisteredPass} {wanted : RegisteredPass → Bool}
    (success : (runAll ([p].filter wanted) report c).1.failure = none) :
    (runAll ([p].filter wanted) report c).2 = c ∨ ∃ u, p.run c = (.ok u, (runAll ([p].filter wanted) report c).2) := by
  rw [List.filter_cons, List.filter_nil] at success ⊢
  split at success
  next runs =>
    rw [if_pos runs]
    rw [runAll] at success ⊢
    cases run : p.run c with
    | mk result next =>
      rw [run] at success
      cases result with
      | ok u => exact Or.inr ⟨u, rfl⟩
      | error fault => cases success
  next skipped =>
    rw [if_neg skipped]
    exact Or.inl rfl

end Registry

end Unravel
