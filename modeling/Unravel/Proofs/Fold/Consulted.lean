import Unravel.Proofs.Fold.Minimal
import Unravel.Proofs.Fold.Shadowing

/-! Evaluation without scopes. It takes every name for one of the namespace, and it asks for a name only where it gets to. The
   evaluation that knows the scopes gives the same value, or none: it fails exactly if one of the names asked for is local. -/
namespace Unravel

open List

variable {t : Node} {P : Prop} {args : List Node}

namespace Outcome

/-- A computation gives what another one gives if a condition holds, and otherwise nothing. -/
def GivesIf {α : Type} (x y : Outcome α) (P : Prop) : Prop := ∀ a, x = .ok a ↔ y = .ok a ∧ P

section GivesIf

variable {α β : Type} {P Q : Prop} {x y : Outcome α} {f g : α → Outcome β}

theorem givesIf_same (h : P) (x : Outcome α) : GivesIf x x P := fun _ => (and_iff_left h).symm

theorem givesIf_never (hx : x.Gives fun _ => False) (hy : y.Gives fun _ => False) : GivesIf x y P :=
  fun a => iff_of_false (hx a) fun h => hy a h.1

theorem GivesIf.bind (h : GivesIf x y P) (next : ∀ a, y = .ok a → ∃ R, GivesIf (f a) (g a) R ∧ (P ∧ R ↔ Q)) :
    GivesIf (x >>= f) (y >>= g) Q := by
  intro b
  rw [bind_eq_ok, bind_eq_ok]
  constructor
  · rintro ⟨a, first, second⟩
    obtain ⟨first, holds⟩ := (h a).mp first
    obtain ⟨R, after, whole⟩ := next a first
    obtain ⟨second, later⟩ := (after b).mp second
    exact ⟨⟨a, first, second⟩, whole.mp ⟨holds, later⟩⟩
  · rintro ⟨⟨a, first, second⟩, all⟩
    obtain ⟨R, after, whole⟩ := next a first
    obtain ⟨holds, later⟩ := whole.mpr all
    exact ⟨a, (h a).mpr ⟨first, holds⟩, (after b).mpr ⟨second, later⟩⟩

theorem GivesIf.followed (h : GivesIf x y P) (f : α → Outcome β) : GivesIf (x >>= f) (y >>= f) P :=
  h.bind fun a _ => ⟨True, givesIf_same trivial (f a), and_iff_left trivial⟩

theorem givesIf_mapM {l : List α} {R : α → Prop} (each : ∀ a ∈ l, GivesIf (f a) (g a) (R a)) :
    GivesIf (l.mapM f) (l.mapM g) (∀ a ∈ l, R a) := by
  induction l with
  | nil => exact givesIf_same nofun _
  | cons a rest ih =>
    rw [mapM_cons, mapM_cons]
    have others := ih fun b hb => each b (.tail a hb)
    exact (each a (.head _)).bind fun b _ => ⟨_, others.followed _, forall_mem_cons.symm⟩

end GivesIf

end Outcome

theorem Namespace.firstName_mem_roots {ns : Namespace} {path : Text} {entry : Entry} (found : ns.lookup? path = some entry) :
    path.firstName ∈ ns.roots := by
  have same : entry.path = path := beq_iff_eq.mp (find?_some (p := fun e : Entry => e.path == path) found)
  have listed : path ∈ ns.paths := mem_map.mpr ⟨entry, mem_of_find?_eq_some found, same⟩
  exact mem_eraseDups.mpr (mem_map_of_mem listed)

theorem Text.firstName_extend (path name : Text) : firstName (path ++ "." ++ name) = firstName path := by
  have point : ("." : Text) = [ofChar '.'] := rfl
  rw [firstName, firstName, append_assoc, point, List.takeWhile_append]
  split
  next all =>
    rw [singleton_append, takeWhile_cons_of_neg (by simp), append_nil]
    exact ((takeWhile_sublist _).eq_of_length all).symm
  next => rfl

open Outcome

namespace Folder

section Consulted

variable (ns : Namespace)

/-- Whether a path is the one of a measured call, whose arguments are never evaluated. -/
def isMeasuredCall (path : Text) : Bool :=
  (ns.lookup? path).any fun entry =>
    match entry.behaviour with
    | .measuredCall _ => true
    | _ => false

/-- The operands of an expression that evaluation gets to. -/
def reached {ρ : Type} (tree : ρ → Node) : Form ρ → List ρ
  | .binary op left right =>
    if op.isLogical && !(evaluateStatic ns (tree left)).toOption.any (goesRight op) then [left] else [left, right]
  | .conditional test consequent alternate =>
    [test, if (evaluateStatic ns (tree test)).toOption.any Value.toBoolean then consequent else alternate]
  | .call callee args =>
    callee :: if (spelled { ns := ns } (tree callee)).toOption.any (isMeasuredCall ns) then [] else args
  | f => operands f

/-- The identifiers that evaluation asks the namespace for, alone or as the start of a path. -/
def consulted (t : Node) : List Node :=
  t.para fun m f =>
    match f with
    | .identifier x => [.node m (.identifier x)]
    | f => (reached ns (·.1) f).flatMap (·.2)

variable {ns} {m : NodeId}

theorem reached_map {ρ σ : Type} (tree : σ → Node) (g : ρ → σ) (f : Form ρ) :
    reached ns tree (f.map g) = (reached ns (fun c => tree (g c)) f).map g := by
  cases f with
  | binary op a b =>
    change (if _ then _ else _) = (if _ then _ else _ : List ρ).map g
    split <;> rfl
  | conditional t a b =>
    change [g t, if _ then g a else g b] = [g t, g (if _ then a else b)]
    split <;> rfl
  | call callee args =>
    change (g callee :: if _ then [] else args.map g) = g callee :: (if _ then [] else args).map g
    split <;> rfl
  | _ => rfl

theorem consulted_identifier (x : Text) : consulted ns (.node m (.identifier x)) = [.node m (.identifier x)] := by
  rw [consulted, para_node]
  rfl

theorem consulted_node {f : Form Node} (compound : f.isName = false) :
    consulted ns (.node m f) = (reached ns (fun c => c) f).flatMap (consulted ns) := by
  have parts : consulted ns (.node m f) = (reached ns (·.1) (f.map fun c => (c, consulted ns c))).flatMap (·.2) := by
    rw [consulted, para_node]
    cases f with
    | identifier x => cases compound
    | _ => rfl
  rw [parts, reached_map, flatMap_map]

end Consulted

section Scopes

variable (ns : Namespace) (names : NodeId → Option BindingId)

/-- No identifier that evaluation asks for is local, and each begins a path of the namespace. -/
def IsClear (t : Node) : Prop := ∀ n ∈ consulted ns t, names n.mark = none ∧ n.name.firstName ∈ ns.roots

/-- With scopes, an expression spells a path of the namespace if it does so without them and a condition holds. -/
def SpellsIf (t : Node) (P : Prop) : Prop :=
  ∀ path, path.firstName ∈ ns.roots →
    (spelled { ns := ns, binding? := names } t = .ok path ↔ spelled { ns := ns } t = .ok path ∧ P)

/-- With scopes, an expression folds as without them if what it asks for is clear, and otherwise not at all. -/
def FoldsIf (t : Node) : Prop := GivesIf (fold { ns := ns, binding? := names } t) (fold { ns := ns } t) (IsClear ns names t)

/-- What evaluation with scopes makes of an expression, compared with evaluation without them. -/
structure Compared (t : Node) : Prop where
  fold : GivesIf (fold { ns := ns, binding? := names } t) (fold { ns := ns } t) (IsClear ns names t)
  path : SpellsIf ns names t (IsClear ns names t)

variable {ns names} {m : NodeId}

theorem isClear_identifier {x : Text} :
    IsClear ns names (.node m (.identifier x)) ↔ names m = none ∧ x.firstName ∈ ns.roots := by
  rw [IsClear, consulted_identifier, forall_mem_singleton]
  rfl

theorem isClear_node (f : Form Node) (compound : f.isName = false) :
    IsClear ns names (.node m f) ↔ ∀ c ∈ reached ns (fun c => c) f, IsClear ns names c := by
  rw [IsClear, consulted_node compound, forall_mem_flatMap]
  rfl

theorem isLiteral_of_closed {F : Folder} (closed : F.free = []) {r : Shape} (folds : F.fold t = .ok r) : r.isLiteral := by
  refine ((gives_fold t r folds).parts r r.self_mem_terms).resolve_right fun mentions => ?_
  obtain ⟨_, _, _, _, _, _, _, b, free, _⟩ := mentions
  rw [closed] at free
  cases free

theorem evaluateStatic_of_fold {t : Node} {s : Shape} (folds : fold { ns := ns } t = .ok s) :
    s.isLiteral ∧ ∃ v, s.literalValue = .ok v ∧ evaluateStatic ns t = .ok v := by
  have literal := isLiteral_of_closed rfl folds
  obtain ⟨v, value, -⟩ := exists_literalValue literal
  exact ⟨literal, v, value, (evaluate_eq_ok _).mpr ⟨s, folds, literal, value⟩⟩

theorem firstName_of_read {path : Text} {s : Shape} (h : read { ns := ns } path = .ok s) : path.firstName ∈ ns.roots := by
  obtain ⟨entry, found, -⟩ := bind_eq_ok.mp h
  exact Namespace.firstName_mem_roots (lookup_eq_ok found)

theorem firstName_of_callPath {path : Text} {args : List Child} {s : Shape} (h : callPath { ns := ns } path args = .ok s) :
    path.firstName ∈ ns.roots := by
  obtain ⟨entry, found, -⟩ := bind_eq_ok.mp h
  exact Namespace.firstName_mem_roots (lookup_eq_ok found)

theorem SpellsIf.bind {α : Type} {Q : Prop} {R : Text → Prop} {f g : Text → Outcome α} (h : SpellsIf ns names t P)
    (next : ∀ path, GivesIf (f path) (g path) (R path)) (rooted : ∀ path a, g path = .ok a → path.firstName ∈ ns.roots)
    (whole : ∀ path, spelled { ns := ns } t = .ok path → (P ∧ R path ↔ Q)) :
    GivesIf (spelled { ns := ns, binding? := names } t >>= f) (spelled { ns := ns } t >>= g) Q := by
  intro a
  rw [bind_eq_ok, bind_eq_ok]
  constructor
  · rintro ⟨path, spells, result⟩
    obtain ⟨result, later⟩ := (next path a).mp result
    obtain ⟨spells, holds⟩ := (h path (rooted path a result)).mp spells
    exact ⟨⟨path, spells, result⟩, (whole path spells).mp ⟨holds, later⟩⟩
  · rintro ⟨⟨path, spells, result⟩, all⟩
    obtain ⟨holds, later⟩ := (whole path spells).mpr all
    exact ⟨path, (h path (rooted path a result)).mpr ⟨spells, holds⟩, (next path a).mpr ⟨result, later⟩⟩

theorem SpellsIf.extend (h : SpellsIf ns names t P) (x : Text) {path : Text} (root : path.firstName ∈ ns.roots) :
    (do return (← spelled { ns := ns, binding? := names } t) ++ "." ++ x) = (.ok path : Outcome Text) ↔
      (do return (← spelled { ns := ns } t) ++ "." ++ x) = (.ok path : Outcome Text) ∧ P := by
  rw [bind_eq_ok, bind_eq_ok]
  constructor
  · rintro ⟨inner, spells, same⟩
    cases same
    rw [Text.firstName_extend] at root
    obtain ⟨spells, holds⟩ := (h inner root).mp spells
    exact ⟨⟨inner, spells, rfl⟩, holds⟩
  · rintro ⟨⟨inner, spells, same⟩, holds⟩
    cases same
    rw [Text.firstName_extend] at root
    exact ⟨inner, (h inner root).mpr ⟨spells, holds⟩, rfl⟩

theorem compared_identifier (x : Text) : Compared ns names (.node m (.identifier x)) := by
  have clear : IsClear ns names (.node m (.identifier x)) ↔ names m = none ∧ x.firstName ∈ ns.roots := isClear_identifier
  have spells : ∀ F : Folder, F.spelled (.node m (.identifier x)) =
      if (F.binding? m).isSome then .error (.localMember x) else .ok x := by
    intro F
    rw [spelled_node]
    rfl
  cases bound : names m with
  | none =>
    rw [bound, and_iff_right rfl] at clear
    have folds : ∀ F : Folder, F.ns = ns → F.binding? m = none → F.fold (.node m (.identifier x)) = read { ns := ns } x := by
      rintro F rfl free
      rw [fold_identifier, identifier, free]
      rfl
    constructor
    · intro s
      rw [folds _ rfl bound, folds _ rfl rfl, clear]
      exact ⟨fun reads => ⟨reads, firstName_of_read reads⟩, And.left⟩
    · intro path root
      rw [spells, spells, clear]
      change (if (names m).isSome then _ else _) = _ ↔ _
      rw [bound]
      exact ⟨fun same => ⟨same, (Except.ok.inj same) ▸ root⟩, And.left⟩
  | some b =>
    have unclear : ¬IsClear ns names (.node m (.identifier x)) := by simp [clear, bound]
    constructor
    · intro s
      rw [fold_identifier, identifier]
      dsimp only
      rw [bound]
      exact iff_of_false (fun h => by cases h) fun h => unclear h.2
    · intro path root
      rw [spells]
      change (if (names m).isSome then _ else _) = _ ↔ _
      rw [bound]
      exact iff_of_false (fun h => by cases h) fun h => unclear h.2

theorem compared_access {f : Form Node} (access : (∃ object x, f = .member object x) ∨ ∃ object key, f = .index object key)
    (path : SpellsIf ns names (.node m f) (IsClear ns names (.node m f))) : Compared ns names (.node m f) := by
  refine ⟨?_, path⟩
  rw [fold_access _ _ access, fold_access _ _ access]
  exact path.bind (R := fun _ => True) (fun p => givesIf_same trivial _) (fun _ _ => firstName_of_read) fun _ _ => and_iff_left trivial

theorem compared_member {object : Node} (h : Compared ns names object) (x : Text) :
    Compared ns names (.node m (.member object x)) := by
  refine compared_access (.inl ⟨object, x, rfl⟩) fun path root => ?_
  rw [isClear_node (.member object x) rfl, spelled_member, spelled_member, h.path.extend x root]
  exact and_congr_right fun _ => forall_mem_singleton.symm

theorem compared_index {object key : Node} (h : Compared ns names object) (hk : Compared ns names key) :
    Compared ns names (.node m (.index object key)) := by
  refine compared_access (.inr ⟨object, key, rfl⟩) fun path root => ?_
  have both : IsClear ns names (.node m (.index object key)) ↔ IsClear ns names object ∧ IsClear ns names key := by
    rw [isClear_node (.index object key) rfl]
    simp [reached, operands]
  rw [both, spelled_index, spelled_index, bind_eq_ok, bind_eq_ok]
  constructor
  · rintro ⟨x, static, spells⟩
    obtain ⟨static, clear⟩ := (hk.fold.followed _ x).mp static
    obtain ⟨spells, clear'⟩ := (h.path.extend x root).mp spells
    exact ⟨⟨x, static, spells⟩, clear', clear⟩
  · rintro ⟨⟨x, static, spells⟩, clear', clear⟩
    exact ⟨x, (hk.fold.followed _ x).mpr ⟨static, clear⟩, (h.path.extend x root).mpr ⟨spells, clear'⟩⟩

theorem compared_logical {op : BinaryOp} (logical : op.isLogical) {left right : Node} (hl : Compared ns names left)
    (hr : Compared ns names right) : FoldsIf ns names (.node m (.binary op left right)) := by
  rw [FoldsIf, fold_logical _ _ logical, fold_logical _ _ logical, isClear_node (.binary op left right) rfl]
  -- the value of the left side decides whether the right one is reached
  refine hl.fold.bind fun l folds => ?_
  obtain ⟨literal, v, value, static⟩ := evaluateStatic_of_fold folds
  rw [if_pos literal, if_pos literal, value, reached, logical, static]
  change ∃ R, GivesIf (if goesRight op v then _ else _) (if goesRight op v then _ else _) R ∧
    (_ ∧ R ↔ ∀ c ∈ if (true && !goesRight op v) = true then [left] else [left, right], _)
  cases goesRight op v with
  | true => exact ⟨_, hr.fold, by simp⟩
  | false => exact ⟨_, givesIf_same trivial _, by simp⟩

theorem compared_strict {op : BinaryOp} (strict : op.isLogical = false) {left right : Node} (hl : Compared ns names left)
    (hr : Compared ns names right) : FoldsIf ns names (.node m (.binary op left right)) := by
  rw [FoldsIf, fold_strict _ _ strict, fold_strict _ _ strict, isClear_node (.binary op left right) rfl, reached, strict]
  split
  next => exact hl.fold.bind fun l _ => ⟨_, hr.fold.followed _, by simp⟩
  next => exact givesIf_never (gives_error _) (gives_error _)

theorem compared_conditional {test consequent alternate : Node} (ht : Compared ns names test) (hc : Compared ns names consequent)
    (ha : Compared ns names alternate) : FoldsIf ns names (.node m (.conditional test consequent alternate)) := by
  rw [FoldsIf, fold_conditional, fold_conditional, isClear_node (.conditional test consequent alternate) rfl]
  refine ht.fold.bind fun t folds => ?_
  obtain ⟨literal, v, value, static⟩ := evaluateStatic_of_fold folds
  rw [if_pos literal, if_pos literal, value, reached, static]
  change ∃ R, GivesIf (if v.toBoolean then _ else _) (if v.toBoolean then _ else _) R ∧
    (_ ∧ R ↔ ∀ c ∈ [test, if v.toBoolean then consequent else alternate], _)
  cases v.toBoolean with
  | true => exact ⟨_, hc.fold, by simp⟩
  | false => exact ⟨_, ha.fold, by simp⟩

theorem compared_callPath (path : Text) (each : ∀ a ∈ args, Compared ns names a) :
    GivesIf (callPath { ns := ns, binding? := names } path (args.map fun c => (c, c.para (layer { ns := ns, binding? := names }))))
      (callPath { ns := ns } path (args.map fun c => (c, c.para (layer { ns := ns }))))
      (isMeasuredCall ns path = false → ∀ a ∈ args, IsClear ns names a) := by
  rw [callPath, callPath, length_map, length_map, results_map, results_map]
  change GivesIf (ns.lookup path >>= _) (ns.lookup path >>= _) _
  rw [Namespace.lookup, isMeasuredCall]
  cases ns.lookup? path with
  | none => exact givesIf_never (gives_error _) (gives_error _)
  | some entry =>
    obtain ⟨name, behaviour⟩ := entry
    cases behaviour with
    | constant | measuredField => exact givesIf_never (gives_error _) (gives_error _)
    | measuredCall v => exact givesIf_same (fun plain => by cases plain) _
    | function least most apply =>
      have folds := givesIf_mapM fun e he => (each e he).fold
      refine (givesIf_same trivial (Entry.checkArity _ _)).bind fun _ _ => ⟨_, folds.followed _, ?_⟩
      exact ⟨fun h _ => h.2, fun h => ⟨trivial, h rfl⟩⟩

theorem fold_call_eq_ok {F : Folder} (plain : F.resolvers = []) {callee : Node} {r : Shape} :
    F.fold (.node m (.call callee args)) = .ok r ↔
      (F.spelled callee >>= fun path => F.callPath path (args.map fun c => (c, c.para F.layer))) = .ok r := by
  constructor
  · intro folds
    obtain ⟨path, spelled⟩ := spelled_of_fold_call plain folds
    rw [fold_call spelled] at folds
    exact bind_eq_ok.mpr ⟨path, spelled, folds⟩
  · intro called
    obtain ⟨path, spelled, called⟩ := bind_eq_ok.mp called
    rw [fold_call spelled, called]

theorem compared_call {callee : Node} (h : Compared ns names callee) (each : ∀ a ∈ args, Compared ns names a) :
    FoldsIf ns names (.node m (.call callee args)) := by
  -- a local callee spells no path, so that a call of it fails like any other
  intro r
  rw [fold_call_eq_ok rfl, fold_call_eq_ok rfl]
  refine h.path.bind (compared_callPath · each) (fun _ _ => firstName_of_callPath) (fun path spells => ?_) r
  rw [isClear_node (.call callee args) rfl, reached, spells]
  change _ ↔ ∀ c ∈ callee :: if isMeasuredCall ns path then [] else args, _
  cases isMeasuredCall ns path <;> simp

theorem spellsIf_other (f : Form Node) (other : isPath f = false) : SpellsIf ns names (.node m f) P := by
  have never : ∀ F : Folder, (F.spelled (.node m f)).Gives fun _ => False := by
    intro F
    rw [F.spelled_other m other]
    exact gives_after fun _ => gives_throw _
  exact fun path _ => givesIf_never (never _) (never _) path

theorem compared (t : Node) : Compared ns names t := by
  induction t with
  | node m f ih =>
    have each : ∀ c ∈ operands f, Compared ns names c := fun c hc => ih c (mem_children_of_operands hc)
    cases f with
    | identifier x => exact compared_identifier x
    | member object x => exact compared_member (each object (.head _)) x
    | index object key => exact compared_index (each object (.head _)) (each key (by simp [operands]))
    | array es =>
      refine ⟨?_, spellsIf_other (.array es) rfl⟩
      rw [fold_array, fold_array, isClear_node (.array es) rfl]
      exact (givesIf_mapM fun e he => (each e he).fold).followed _
    | sequence es =>
      refine ⟨?_, spellsIf_other (.sequence es) rfl⟩
      rw [fold_sequence, fold_sequence, isClear_node (.sequence es) rfl]
      exact (givesIf_mapM fun e he => (each e he).fold).followed _
    | unary op x =>
      refine ⟨?_, spellsIf_other (.unary op x) rfl⟩
      rw [fold_unary, fold_unary, isClear_node (.unary op x) rfl]
      split
      next => exact ((each x (.head _)).fold.bind fun _ _ => ⟨_, givesIf_same trivial _, by simp [reached, operands]⟩)
      next => exact givesIf_never (gives_error _) (gives_error _)
    | binary op a b =>
      refine ⟨?_, spellsIf_other (.binary op a b) rfl⟩
      have left := each a (by simp [operands])
      have right := each b (by simp [operands])
      cases logical : op.isLogical with
      | true => exact compared_logical logical left right
      | false => exact compared_strict logical left right
    | conditional t a b =>
      refine ⟨compared_conditional ?_ ?_ ?_, spellsIf_other (.conditional t a b) rfl⟩
      all_goals exact each _ (by simp [operands])
    | call callee args =>
      refine ⟨compared_call (each callee (.head _)) fun e he => each e (.tail callee he), ?_⟩
      exact spellsIf_other (.call callee args) rfl
    | _ =>
      -- a literal asks for nothing, and all that is left has no value
      refine ⟨?_, spellsIf_other _ rfl⟩
      rw [fold_node, fold_node]
      refine givesIf_same ((isClear_node _ rfl).mpr fun c hc => ?_) _
      cases hc

end Scopes

variable {ns : Namespace} {t : Node} {v : Value}

theorem evaluate_iff_isClear (names : NodeId → Option BindingId) :
    evaluate { ns := ns, binding? := names } t = .ok v ↔ evaluateStatic ns t = .ok v ∧ IsClear ns names t :=
  (compared t).fold.followed _ v

/-- The names that an expression with a value asks for all begin paths of the namespace. -/
theorem firstName_of_consulted (static : evaluateStatic ns t = .ok v) {n : Node} (hn : n ∈ consulted ns t) :
    n.name.firstName ∈ ns.roots :=
  (((evaluate_iff_isClear fun _ => none).mp static).2 n hn).2

/-- Evaluation with scopes gives what evaluation without them gives if no name that is asked for is local, and otherwise it
fails. -/
theorem evaluate_iff_unbound (names : NodeId → Option BindingId) : evaluate { ns := ns, binding? := names } t = .ok v ↔
    evaluateStatic ns t = .ok v ∧ ∀ n ∈ consulted ns t, names n.mark = none := by
  rw [evaluate_iff_isClear]
  exact and_congr_right fun static => forall₂_congr fun n hn => and_iff_left (firstName_of_consulted static hn)

end Folder

end Unravel
