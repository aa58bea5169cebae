import Unravel.Proofs.Fold.Alike
import Unravel.Proofs.Fold.Result

/-! Folding never asks the namespace for a name that is declared around the expression. Two namespaces may differ in all that
   begins with such a name: the result of a function folds to the same array under both, or goes wrong in the same way. -/
namespace Unravel

open Outcome Resolution

/-- The first name of a path. -/
def Text.firstName (path : Text) : Text := path.takeWhile fun c => c != '.'

theorem Text.firstName_of_splitOn {path x : Text} {rest : List Text} (h : splitOn (ofChar '.') path = x :: rest) :
    firstName path = x := by
  induction path generalizing x rest with
  | nil =>
    cases h
    rfl
  | cons c more ih =>
    obtain ⟨piece, pieces, split⟩ := exists_splitOn (ofChar '.') more
    rw [splitOn, split] at h
    rw [firstName, List.takeWhile_cons]
    split at h
    next same =>
      cases h
      simp [same]
    next other =>
      cases h
      have rest := ih split
      rw [firstName] at rest
      simp [other, rest]

namespace Folder

section Lookups

variable (F : Folder) (other : Namespace) (names : Text → Option BindingId)

/-- What a folder makes of an expression when it looks paths up in another namespace. -/
structure Unaffected (t : Node) : Prop where
  fold : F.fold t = fold { F with ns := other } t
  path : F.spelled t = spelled { F with ns := other } t
  global : (F.spelled t).Gives (IsGlobal names)

variable {F other names} {m : NodeId}

theorem mapM_unaffected {es : List Node} (each : ∀ e ∈ es, Unaffected F other names e) :
    es.mapM F.fold = es.mapM (fold { F with ns := other }) := by
  induction es with
  | nil => rfl
  | cons e rest ih =>
    rw [List.mapM_cons, List.mapM_cons, (each e (.head _)).fold, ih fun d hd => each d (.tail e hd)]

theorem spelled_unaffected {f : Form Node} (reads : F.Reads names (.node m f)) (undotted : f.isUndotted)
    (each : ∀ c ∈ operands f, Unaffected F other names c) :
    F.spelled (.node m f) = spelled { F with ns := other } (.node m f) ∧ (F.spelled (.node m f)).Gives (IsGlobal names) := by
  cases f with
  | identifier x =>
    refine ⟨by rw [spelled_node, spelled_node]; rfl, fun path spelled => ?_⟩
    obtain ⟨unbound, rfl⟩ := F.spelled_identifier spelled
    have point : ofChar '.' ∉ path := by simpa [Form.isUndotted] using undotted
    exact ⟨path, [], Text.splitOn_of_not_mem point, reads.binding.symm.trans unbound⟩
  | member object x =>
    have inner := each object (.head _)
    rw [spelled_member, spelled_member, ← inner.path]
    exact ⟨rfl, inner.global.bind fun path global => gives_pure (isGlobal_extend global x)⟩
  | index object key =>
    have inner := each object (.head _)
    have name : staticKey (key, key.para F.layer) = staticKey (key, key.para (layer { F with ns := other })) := by
      rw [staticKey, staticKey]
      exact congrArg (· >>= _) (each key (by simp [operands])).fold
    rw [spelled_index, spelled_index, ← inner.path, ← name]
    exact ⟨rfl, gives_after fun x => inner.global.bind fun path global => gives_pure (isGlobal_extend global x)⟩
  | _ =>
    refine ⟨(F.spelled_other m rfl).trans (spelled_other { F with ns := other } m rfl).symm, ?_⟩
    rw [F.spelled_other m rfl]
    exact gives_after fun _ => gives_throw _

variable (agree : ∀ path, IsGlobal names path → F.ns.lookup path = other.lookup path)

include agree

theorem bind_read_unaffected {x : Outcome Text} (global : x.Gives (IsGlobal names)) :
    x >>= F.read = x >>= read { F with ns := other } := by
  cases x with
  | error f => rfl
  | ok path =>
    change F.read path = read _ path
    rw [read, read, agree path (global path rfl)]

theorem call_unaffected {callee : Node} {args : List Node} (called : Unaffected F other names callee)
    (each : ∀ e ∈ args, Unaffected F other names e) :
    F.fold (.node m (.call callee args)) = fold { F with ns := other } (.node m (.call callee args)) := by
  have folds : results (args.map fun c => (c, c.para F.layer)) =
      results (args.map fun c => (c, c.para (layer { F with ns := other }))) := by
    rw [results_map, results_map, mapM_unaffected each]
  by_cases free : ∀ k x, callee = .node k (.identifier x) → F.binding? k = none
  · rw [fold_call_path free, fold_call_path (F := { F with ns := other }) free, ← called.path]
    cases spelled : F.spelled callee with
    | error f => rfl
    | ok path =>
      change F.callPath path _ = callPath _ path _
      rw [callPath, callPath, agree path (called.global path spelled), folds, List.length_map, List.length_map]
  · push Not at free
    obtain ⟨k, x, rfl, bound⟩ := free
    obtain ⟨b, bound⟩ := Option.ne_none_iff_exists'.mp bound
    rw [fold_call_local bound, fold_call_local (F := { F with ns := other }) bound, callLocal, callLocal, folds]
    rfl

/-- All that an expression asks the namespace for begins with a name that nothing declares. -/
theorem unaffected {t : Node} (reads : F.Reads names t) (undotted : t.Undotted) : Unaffected F other names t := by
  induction t with
  | node m f ih =>
    obtain ⟨here, below⟩ := undotted_node.mp undotted
    have each : ∀ c ∈ operands f, Unaffected F other names c := fun c hc =>
      ih c (mem_children_of_operands hc) (reads.operand hc) (below c (mem_children_of_operands hc))
    obtain ⟨path, global⟩ := spelled_unaffected reads here each
    refine ⟨?_, path, global⟩
    cases f with
    | identifier x =>
      rw [fold_identifier, fold_identifier, identifier, identifier]
      cases bound : F.binding? m with
      | some b => rfl
      | none =>
        have unread : IsGlobal names x := by
          refine global x ?_
          rw [spelled_node]
          change (if (F.binding? m).isSome then _ else _) = _
          rw [bound]
          rfl
        exact bind_read_unaffected agree (x := .ok x) (gives_ok unread)
    | member object x =>
      rw [fold_access _ _ (.inl ⟨object, x, rfl⟩), fold_access _ _ (.inl ⟨object, x, rfl⟩), ← path]
      exact bind_read_unaffected agree global
    | index object key =>
      rw [fold_access _ _ (.inr ⟨object, key, rfl⟩), fold_access _ _ (.inr ⟨object, key, rfl⟩), ← path]
      exact bind_read_unaffected agree global
    | array es =>
      have parts : es.mapM F.fold = _ := mapM_unaffected each
      rw [fold_array, fold_array, parts]
    | sequence es =>
      have parts : es.mapM F.fold = _ := mapM_unaffected each
      rw [fold_sequence, fold_sequence, parts]
    | unary op x => rw [fold_unary, fold_unary, (each x (.head _)).fold]
    | binary op a b =>
      have left := (each a (by simp [operands])).fold
      have right := (each b (by simp [operands])).fold
      cases logical : op.isLogical with
      | true => rw [fold_logical _ _ logical, fold_logical _ _ logical, left, right]
      | false => rw [fold_strict _ _ logical, fold_strict _ _ logical, left, right]
    | conditional t a b =>
      rw [fold_conditional, fold_conditional, (each t (by simp [operands])).fold, (each a (by simp [operands])).fold,
        (each b (by simp [operands])).fold]
    | call callee args =>
      exact call_unaffected agree (each callee (.head _)) fun e he => each e (.tail callee he)
    | _ => rw [fold_node, fold_node]; rfl

end Lookups

end Folder

namespace Node

open Folder

/-- A name means a declaration of the tree where a node stands. -/
def IsVisible (root n : Node) (name : Text) : Prop :=
  ∃ around b, root.ancestors? n.mark = some around ∧ Resolves name n around (some b)

/-- What the scopes around a returned expression say of a name is what the nodes around it declare. -/
theorem isVisible_iff {root e : Node} (tree : root.IsFunctionTree) {s : Sight} (hs : s ∈ root.overview) (same : s.node = e)
    (name : Text) : IsVisible root e name ↔ (Scope.lookup name (s.frames.map Frame.scope)).isSome := by
  subst same
  obtain ⟨above, fs, way, encloses, frames, -⟩ := sight_enclosing tree.distinct hs
  have around : ∀ a ∈ above, a.Grammatical := by
    intro a ha
    obtain ⟨around, way', members⟩ := mem_ancestors tree.distinct (mark_mem_ids (node_mem_walk hs))
    rw [way, Option.some.injEq] at way'
    exact tree.grammatical.subtree ((members a).mp (way' ▸ ha)).1
  have bare : Scope.lookup name ([root.outermost].map Frame.scope) = none := by
    rw [outermost_of_function tree]
    rfl
  have resolves := encloses.resolves around bare
  rw [← frames] at resolves
  constructor
  · rintro ⟨around, b, way', means⟩
    cases way.symm.trans way'
    rw [resolves.unique means]
    rfl
  · intro found
    obtain ⟨b, means⟩ := Option.isSome_iff_exists.mp found
    exact ⟨above, b, way, means ▸ resolves⟩

/-- Folding asks the namespace for no name that is declared around the result: namespaces that agree on all other paths give
one outcome, down to the text of an error. -/
theorem declared_names_are_never_read (root : Node) (tree : root.IsFunctionTree) (undotted : root.Undotted)
    (ns other : Namespace) (agree : ∀ e, resultExpression root = .ok e → ∀ path, ¬IsVisible root e path.firstName →
      ns.lookup? path = other.lookup? path) : foldResult ns root = foldResult other root := by
  rw [foldResult, foldResult]
  cases result : resultExpression root with
  | error f => rfl
  | ok e =>
    have returned := returned_of_resultExpression result
    obtain ⟨-, s, hs, same⟩ := sight_of_returned tree returned
    have reads : (symbolic ns root).Reads (fun x => Scope.lookup x (s.frames.map Frame.scope)) e :=
      reads_of_sights tree.distinct rfl fun v hv => sights_trans hs (same ▸ hv)
    have lookups : ∀ path, IsGlobal (fun x => Scope.lookup x (s.frames.map Frame.scope)) path →
        ns.lookup path = other.lookup path := by
      rintro path ⟨x, rest, split, unbound⟩
      have hidden : ¬IsVisible root e path.firstName := by
        rw [isVisible_iff tree hs same, Text.firstName_of_splitOn split, show Scope.lookup x _ = none from unbound]
        exact Bool.false_ne_true
      rw [Namespace.lookup, Namespace.lookup, agree e result path hidden]
    have folds : (symbolic ns root).fold e = (symbolic other root).fold e :=
      (unaffected lookups reads fun n hn => undotted n (Tree.walk_trans returned.mem_walk hn)).fold
    have folded : foldedResult ns root e = foldedResult other root e := by rw [foldedResult, foldedResult, folds]
    change (foldedResult ns root e >>= _) = foldedResult other root e >>= _
    rw [folded]

def mixedNames : Node :=
  .node 3 (.array [.node 4 (.identifier "Math"),
    .node 5 (.call (.node 6 (.identifier "isNaN")) [.node 7 (.identifier "NaN")]), .node 8 (.string "PI")])

/-- A function whose parameter is called like an object of the namespace. -/
def shadowedMath : Node :=
  .node 0 (.function [.node 1 (.identifier "Math")] [.node 2 (.returnStatement (some mixedNames))] none false)

/-- The standard namespace without an object. -/
def without (name : Text) : Namespace := ⟨Namespace.standard.entries.filter fun e => e.path.firstName != name⟩

theorem without_lookup? {name path : Text} (h : path.firstName ≠ name) :
    (without name).lookup? path = Namespace.standard.lookup? path := by
  rw [Namespace.lookup?, Namespace.lookup?, without, List.find?_filter]
  refine congrArg (List.find? · _) (funext fun e => ?_)
  by_cases same : e.path = path
  · simp [same, h]
  · simp [same]

theorem shadowedMath_never_read :
    shadowedMath.IsFunctionTree ∧ (foldResult .standard shadowedMath).toOption.isSome ∧
      foldResult .standard shadowedMath = foldResult (without "Math") shadowedMath ∧
      (Namespace.standard.lookup? "Math.PI").isSome ∧ ((without "Math").lookup? "Math.PI").isNone := by
  have tree : shadowedMath.IsFunctionTree := ⟨⟨_, _, _, _, rfl⟩, by decide, by decide⟩
  have undotted : ∀ n ∈ shadowedMath.walk, n.form.isUndotted := by decide
  refine ⟨tree, by decide, ?_, by decide +kernel, by decide +kernel⟩
  have visible : IsVisible shadowedMath mixedNames "Math" :=
    ⟨[.node 2 (.returnStatement (some mixedNames)), shadowedMath], ⟨some 0, "Math"⟩, rfl,
      .outer (fun held => held.1) (.here (List.mem_singleton_self _) (.inl ⟨_, List.mem_singleton_self _, rfl⟩))⟩
  have found : resultExpression shadowedMath = .ok mixedNames := rfl
  refine declared_names_are_never_read shadowedMath tree undotted _ _ fun e result path hidden => ?_
  rw [found, Except.ok.injEq] at result
  subst result
  exact (without_lookup? fun same => hidden (same ▸ visible)).symm

end Node

end Unravel
