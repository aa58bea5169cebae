import Unravel.Proofs.Fold.Parts
import Unravel.Proofs.Grammar.Lowering
import Unravel.Proofs.Syntax.Outline

/-! Expressions that fold alike: what one folder makes of one of them, another makes of the other. Folding never looks
   into a function, and an access by a literal key folds as the access by name does. -/
namespace Unravel

open List

variable {t u : Node} {m : NodeId} {f : Form Node} {names : Text → Option BindingId}

namespace Outcome

/-- Two computations that give the same. They may go wrong in different ways. -/
def Alike {α : Type} (x y : Outcome α) : Prop := ∀ a, x = .ok a ↔ y = .ok a

section Alike

variable {α β γ : Type} {x y z : Outcome α}

theorem Alike.refl (x : Outcome α) : x.Alike x := fun _ => Iff.rfl

theorem Alike.symm (h : x.Alike y) : y.Alike x := fun a => (h a).symm

theorem Alike.trans (h : x.Alike y) (h' : y.Alike z) : x.Alike z := fun a => (h a).trans (h' a)

theorem Alike.bind {f g : α → Outcome β} (h : x.Alike y) (next : ∀ a, (f a).Alike (g a)) : Alike (x >>= f) (y >>= g) := by
  intro b
  rw [bind_eq_ok, bind_eq_ok]
  exact exists_congr fun a => and_congr (h a) (next a b)

end Alike

/-- A computation, with nothing told of a fault but what `sort` makes of its category. -/
def blur {α γ : Type} (sort : Category → γ) (x : Outcome α) : Except γ α := x.mapError fun f => sort f.category

section Blur

variable {α β γ δ : Type} {sort : Category → γ}

theorem blur_bind (x : Outcome α) (f : α → Outcome β) :
    blur sort (x >>= f) = blur sort x >>= fun a => blur sort (f a) := by cases x <;> rfl

theorem blur_bind_congr {x y : Outcome α} {f g : α → Outcome β} (h : blur sort x = blur sort y)
    (next : ∀ a, blur sort (f a) = blur sort (g a)) : blur sort (x >>= f) = blur sort (y >>= g) := by
  rw [blur_bind, blur_bind, h, funext next]

theorem blur_ite {c : Prop} [Decidable c] {x y x' y' : Outcome α} (yes : blur sort x = blur sort x')
    (no : blur sort y = blur sort y') : blur sort (if c then x else y) = blur sort (if c then x' else y') := by
  split
  · exact yes
  · exact no

theorem blur_mapM {l : List δ} {φ : δ → δ} {f g : δ → Outcome α} (each : ∀ c ∈ l, blur sort (f c) = blur sort (g (φ c))) :
    blur sort (l.mapM f) = blur sort ((l.map φ).mapM g) := by
  induction l with
  | nil => rfl
  | cons c rest ih =>
    rw [map_cons, mapM_cons, mapM_cons]
    refine blur_bind_congr (each c (.head _)) fun a => ?_
    exact blur_bind_congr (ih fun d hd => each d (.tail c hd)) fun _ => rfl

theorem alike_iff_blur {x y : Outcome α} : x.Alike y ↔ x.blur (fun _ => ()) = y.blur fun _ => () := by
  cases x with
  | ok a =>
    refine ⟨fun h => congrArg (blur _) ((h a).mp rfl).symm, fun h b => ?_⟩
    cases y with
    | ok c =>
      cases h
      exact Iff.rfl
    | error g => cases h
  | error f =>
    cases y with
    | ok c =>
      refine ⟨fun h => ?_, nofun⟩
      cases (h c).mpr rfl
    | error g => exact iff_of_true (fun _ => iff_of_false nofun nofun) rfl

end Blur

end Outcome

namespace Folder

open Outcome Node Pattern

variable {F G : Folder}

/-- Two folders that know the same; only the names may be resolved in different trees. -/
structure Peers (F G : Folder) : Prop where
  ns : F.ns = G.ns
  values : F.values = G.values
  free : F.free = G.free
  plain : F.resolvers = []
  alsoPlain : G.resolvers = []

/-- What `F` makes of one expression, `G` makes of another one. -/
structure Alike (F G : Folder) (t u : Node) : Prop where
  fold : (F.fold t).Alike (G.fold u)
  path : (F.spelled t).Alike (G.spelled u)

theorem Alike.refl (F : Folder) (t : Node) : Alike F F t t := ⟨.refl _, .refl _⟩

theorem Alike.symm (h : Alike F G t u) : Alike G F u t := ⟨h.fold.symm, h.path.symm⟩

theorem Alike.trans {H : Folder} {v : Node} (h : Alike F G t u) (h' : Alike G H u v) : Alike F H t v :=
  ⟨h.fold.trans h'.fold, h.path.trans h'.path⟩

section Kept

variable {γ : Type} {sort : Category → γ}

/-- What becomes of a computation that refuses an expression and shows it in the message. -/
def refusal (sort : Category → γ) (t : Node) : Except γ Text :=
  t.renderExpression.blur sort >>= fun _ => .error (sort .evaluation)

theorem refusal_unit (t : Node) : refusal (fun _ => ()) t = .error () := by
  rw [refusal]
  cases t.renderExpression <;> rfl

/-- What `F` makes of one expression, `G` makes of another one, and where it goes wrong, it goes wrong alike. -/
structure Kept (sort : Category → γ) (F G : Folder) (t u : Node) : Prop where
  fold : (F.fold t).blur sort = (G.fold u).blur sort
  path : (F.spelled t).blur sort = (G.spelled u).blur sort
  refused : refusal sort t = refusal sort u

theorem kept_unit_iff : Kept (fun _ => ()) F G t u ↔ Alike F G t u := by
  constructor
  · intro h
    exact ⟨alike_iff_blur.mpr h.fold, alike_iff_blur.mpr h.path⟩
  · intro h
    exact ⟨alike_iff_blur.mp h.fold, alike_iff_blur.mp h.path, by rw [refusal_unit, refusal_unit]⟩

theorem blur_refused (t : Node) {wrap : Text → Fault} (kind : ∀ s, (wrap s).category = .evaluation) :
    blur sort (do throw (wrap (← t.renderExpression)) : Outcome Text) = refusal sort t := by
  rw [blur_bind, refusal]
  congr 1
  funext s
  change Except.error (sort (wrap s).category) = _
  rw [kind]

theorem blur_spelled_other (other : isPath f = false) :
    blur sort (F.spelled (.node m f)) = refusal sort (.node m f) := by
  rw [spelled_other F m other]
  exact blur_refused _ fun _ => rfl

theorem blur_staticKey {key other : Node} (h : Kept sort F G key other) :
    blur sort (staticKey (key, key.para F.layer)) = blur sort (staticKey (other, other.para G.layer)) := by
  refine blur_bind_congr h.fold fun s => ?_
  have refused : blur sort (do throw (.keyNotStatic (← key.renderExpression)) : Outcome Text) =
      blur sort (do throw (.keyNotStatic (← other.renderExpression))) := by
    rw [blur_refused key fun _ => rfl, blur_refused other fun _ => rfl, h.refused]
  cases s.form with
  | string | number => rfl
  | _ => exact refused

theorem blur_callPath (ns : F.ns = G.ns) (path : Text) {args others : List Child} (length : args.length = others.length)
    (folds : blur sort (results args) = blur sort (results others)) :
    blur sort (F.callPath path args) = blur sort (G.callPath path others) := by
  rw [callPath, callPath, ns, length]
  refine blur_bind_congr rfl fun entry => ?_
  dsimp only
  split
  · rfl
  · refine blur_bind_congr rfl fun _ => ?_
    split
    · rfl
    · exact blur_bind_congr folds fun _ => rfl

theorem blur_fold_call (plain : F.resolvers = []) (m : NodeId) (callee : Node) (args : List Node) :
    blur sort (F.fold (.node m (.call callee args))) =
      blur sort (F.spelled callee >>= fun path => F.callPath path (args.map fun c => (c, c.para F.layer))) := by
  rcases F.fold_call_cases m callee args with ⟨k, x, b, rfl, bound, same⟩ | same
  · have spelled : F.spelled (.node k (.identifier x)) = .error (.localMember x) := by
      rw [spelled_node]
      change (if (F.binding? k).isSome then _ else _) = _
      rw [bound]
      rfl
    rw [same, spelled, callLocal, resolver?, plain]
    rfl
  · rw [same]

section Layer

variable (peers : Peers F G) {m k : NodeId}

include peers

theorem read_peers (path : Text) : F.read path = G.read path := by rw [read, read, peers.ns]

theorem fold_identifier_peers {x : Text} (name : F.binding? m = G.binding? k) :
    F.fold (.node m (.identifier x)) = G.fold (.node k (.identifier x)) := by
  rw [fold_identifier, fold_identifier, identifier, identifier, name]
  simp only [read, value?, peers.ns, peers.values, peers.free]

omit peers in
theorem spelled_identifier_peers {x : Text} (name : F.binding? m = G.binding? k) :
    F.spelled (.node m (.identifier x)) = G.spelled (.node k (.identifier x)) := by
  rw [spelled_node, spelled_node]
  change (if (F.binding? m).isSome then _ else _) = (if (G.binding? k).isSome then _ else _)
  rw [name]

variable {φ : Node → Node}

theorem kept_map (name : ∀ x, f = .identifier x → F.binding? m = G.binding? k)
    (refused : refusal sort (.node m f) = refusal sort (.node k (f.map φ)))
    (each : ∀ c ∈ operands f, Kept sort F G c (φ c)) : Kept sort F G (.node m f) (.node k (f.map φ)) := by
  have all : ∀ es : List Node, (∀ e ∈ es, Kept sort F G e (φ e)) →
      blur sort (es.mapM F.fold) = blur sort ((es.map φ).mapM G.fold) :=
    fun es h => blur_mapM fun e he => (h e he).fold
  have path : blur sort (F.spelled (.node m f)) = blur sort (G.spelled (.node k (f.map φ))) := by
    cases f with
    | identifier x => exact congrArg (blur sort) (spelled_identifier_peers (name x rfl))
    | member object x =>
      rw [Form.map, spelled_member, spelled_member]
      exact blur_bind_congr (each object (.head _)).path fun _ => rfl
    | index object key =>
      rw [Form.map, spelled_index, spelled_index]
      refine blur_bind_congr (blur_staticKey (each key (by simp [operands]))) fun name => ?_
      exact blur_bind_congr (each object (.head _)).path fun _ => rfl
    | _ => exact (blur_spelled_other rfl).trans (refused.trans (blur_spelled_other rfl).symm)
  refine ⟨?_, path, refused⟩
  cases f with
  | identifier x => exact congrArg (blur sort) (fold_identifier_peers peers (name x rfl))
  | member object x =>
    rw [Form.map] at path ⊢
    rw [fold_access _ _ (Or.inl ⟨object, x, rfl⟩), fold_access _ _ (Or.inl ⟨φ object, x, rfl⟩)]
    exact blur_bind_congr path fun p => congrArg (blur sort) (read_peers peers p)
  | index object key =>
    rw [Form.map] at path ⊢
    rw [fold_access _ _ (Or.inr ⟨object, key, rfl⟩), fold_access _ _ (Or.inr ⟨φ object, φ key, rfl⟩)]
    exact blur_bind_congr path fun p => congrArg (blur sort) (read_peers peers p)
  | array es =>
    rw [Form.map, fold_array, fold_array]
    exact blur_bind_congr (all es each) fun _ => rfl
  | sequence es =>
    rw [Form.map, fold_sequence, fold_sequence]
    exact blur_bind_congr (all es each) fun _ => rfl
  | unary op x =>
    rw [Form.map, fold_unary, fold_unary]
    exact blur_ite (blur_bind_congr (each x (.head _)).fold fun _ => rfl) rfl
  | binary op a b =>
    have left := (each a (by simp [operands])).fold
    have right := (each b (by simp [operands])).fold
    rw [Form.map]
    cases logical : op.isLogical with
    | true =>
      rw [fold_logical _ _ logical, fold_logical _ _ logical]
      refine blur_bind_congr left fun l => blur_ite ?_ (blur_bind_congr right fun _ => rfl)
      exact blur_bind_congr rfl fun v => blur_ite right rfl
    | false =>
      rw [fold_strict _ _ logical, fold_strict _ _ logical]
      exact blur_ite (blur_bind_congr left fun l => blur_bind_congr right fun _ => rfl) rfl
  | conditional t a b =>
    have consequent := (each a (by simp [operands])).fold
    have alternate := (each b (by simp [operands])).fold
    rw [Form.map, fold_conditional, fold_conditional]
    refine blur_bind_congr (each t (.head _)).fold fun s => blur_ite ?_ ?_
    · exact blur_bind_congr rfl fun v => blur_ite consequent alternate
    · exact blur_bind_congr consequent fun _ => blur_bind_congr alternate fun _ => rfl
  | call callee args =>
    have called := (each callee (.head _)).path
    have folds := all args fun e he => each e (.tail callee he)
    rw [Form.map, blur_fold_call peers.plain, blur_fold_call peers.alsoPlain]
    refine blur_bind_congr called fun p => blur_callPath peers.ns p ?_ ?_
    · rw [length_map, length_map, length_map]
    · rw [results_map, results_map]
      exact folds
  | _ =>
    rw [fold_node, fold_node]
    rfl

theorem alike_map (name : ∀ x, f = .identifier x → F.binding? m = G.binding? k)
    (each : ∀ c ∈ operands f, Alike F G c (φ c)) : Alike F G (.node m f) (.node k (f.map φ)) :=
  kept_unit_iff.mp (kept_map peers name (by rw [refusal_unit, refusal_unit]) fun c hc => kept_unit_iff.mpr (each c hc))

end Layer

end Kept

/-- An expression in two trees that give its names the same bindings. -/
theorem alike_of_reads (peers : Peers F G) (first : F.Reads names t)
    (second : G.Reads names t) : Alike F G t t := by
  induction t with
  | node m f ih =>
    have whole : Alike F G (.node m f) (.node m (f.map fun c => c)) := by
      refine alike_map peers ?_ fun c hc => ih c (mem_children_of_operands hc) (first.operand hc) (second.operand hc)
      rintro x rfl
      exact first.binding.trans second.binding.symm
    rwa [Form.map_id] at whole

theorem alike_outline (plain : F.resolvers = []) (t : Node) : Alike F F t (outline t) := by
  have peers : Peers F F := ⟨rfl, rfl, rfl, plain, plain⟩
  induction t with
  | node m f ih =>
    cases kind : isFunction f with
    | false =>
      rw [outline_of_plain kind]
      exact alike_map peers (fun _ _ => rfl) fun c hc => ih c (mem_children_of_operands hc)
    | true =>
      rw [outline_of_function kind]
      cases f with
      | function | functionDeclaration =>
        refine kept_unit_iff.mp ⟨by rw [fold_node, fold_node]; rfl, ?_, by rw [refusal_unit, refusal_unit]⟩
        refine (blur_spelled_other rfl).trans (Eq.trans ?_ (blur_spelled_other rfl).symm)
        rw [refusal_unit, refusal_unit]
      | _ => cases kind

theorem operands_map {ρ σ : Type} (g : ρ → σ) (f : Form ρ) : operands (f.map g) = (operands f).map g := by
  cases f <;> rfl

theorem Reads.map {φ : Node → Node}
    (h : F.Reads names (.node m f)) (each : ∀ c ∈ operands f, F.Reads names (φ c)) : F.Reads names (.node m (f.map φ)) := by
  refine .node ?_ ?_
  · intro x same
    cases f with
    | identifier y =>
      cases same
      exact h.binding
    | _ => cases same
  · intro c hc
    rw [operands_map] at hc
    obtain ⟨d, hd, rfl⟩ := mem_map.mp hc
    exact each d hd

theorem reads_outline (h : F.Reads names t) : F.Reads names (outline t) := by
  induction t with
  | node m f ih =>
    cases kind : isFunction f with
    | true =>
      rw [outline_of_function kind]
      exact .node nofun nofun
    | false =>
      rw [outline_of_plain kind]
      exact h.map fun c hc => ih c (mem_children_of_operands hc) (h.operand hc)

theorem undotted_node :
    Tree.Undotted (.node m f : Node) ↔ f.isUndotted ∧ ∀ c ∈ f.children, c.Undotted := Tree.forall_walk_node

theorem undotted_map {φ : Node → Node} (h : Tree.Undotted (.node m f : Node))
    (each : ∀ c ∈ f.children, c.Undotted → (φ c).Undotted) : Tree.Undotted (.node m (f.map φ) : Node) := by
  obtain ⟨here, below⟩ := undotted_node.mp h
  rw [undotted_node, Form.isUndotted_map, children_map, forall_mem_map]
  exact ⟨here, fun c hc => each c hc (below c hc)⟩

theorem undotted_outline (h : t.Undotted) : (outline t).Undotted := by
  induction t with
  | node m f ih =>
    cases kind : isFunction f with
    | true =>
      rw [outline_of_function kind]
      exact undotted_node.mpr ⟨rfl, nofun⟩
    | false =>
      rw [outline_of_plain kind]
      exact undotted_map h ih

section Members

open Normalised

theorem string_of_name? {key : Node} {name : Text} (h : name? (dotted key) = some name) :
    ∃ m, key = .node m (.string name) := by
  obtain ⟨m, f⟩ := key
  rw [dotted_node] at h
  cases f with
  | string t =>
    change (if t.isAsciiIdentifier then some t else none) = some name at h
    split at h
    next =>
      cases h
      exact ⟨m, rfl⟩
    next => cases h
  | index object key =>
    rcases spell_cases m (Form.map dotted (.index object key)) with same | ⟨_, _, _, -, -, same⟩
    · rw [same] at h
      cases h
    · rw [same] at h
      cases h
  | _ => cases h

/-- Accesses in normal form fold as they did. -/
theorem kept_dotted (peers : Peers F G) {γ : Type} {sort : Category → γ}
    (refused : ∀ n ∈ t.walk, refusal sort n = refusal sort (dotted n)) (first : F.Reads names t)
    (second : G.Reads names (dotted t)) : Kept sort F G t (dotted t) := by
  induction t with
  | node m f ih =>
    have here := refused _ (self_mem_walk _)
    have below : ∀ c ∈ f.children, ∀ n ∈ c.walk, refusal sort n = refusal sort (dotted n) :=
      fun c hc n hn => refused n (mem_walk_of_child m hc hn)
    rw [dotted_node] at here second ⊢
    rcases spell_cases m (f.map dotted) with same | ⟨object, key, name, index, named, same⟩
    · rw [same] at here second ⊢
      refine kept_map peers ?_ here fun c hc => ?_
      · rintro x rfl
        exact first.binding.trans second.binding.symm
      · have child := mem_children_of_operands hc
        refine ih c child (below c child) (first.operand hc) (second.operand ?_)
        rw [operands_map]
        exact mem_map_of_mem hc
    · rw [same] at here second ⊢
      cases f with
      | index object key =>
        cases index
        obtain ⟨k, rfl⟩ := string_of_name? named
        have inner := ih object (by simp [Form.children]) (below object (by simp [Form.children]))
          (first.operand (by simp [operands])) (second.operand (by simp [operands]))
        have path : blur sort (F.spelled (.node m (.index object (.node k (.string name))))) =
            blur sort (G.spelled (.node m (.member (dotted object) name))) := by
          rw [spelled_index, spelled_member]
          have key : staticKey (.node k (.string name), Tree.para F.layer (.node k (.string name))) = .ok name := rfl
          rw [key]
          exact blur_bind_congr (f := fun path => pure (path ++ "." ++ name)) inner.path fun _ => rfl
        refine ⟨?_, path, here⟩
        rw [fold_access _ _ (Or.inr ⟨_, _, rfl⟩), fold_access _ _ (Or.inl ⟨_, _, rfl⟩)]
        exact blur_bind_congr path fun p => congrArg (blur sort) (read_peers peers p)
      | _ => cases index

theorem alike_dotted (peers : Peers F G) (first : F.Reads names t)
    (second : G.Reads names (dotted t)) : Alike F G t (dotted t) :=
  kept_unit_iff.mp (kept_dotted peers (fun n _ => by rw [refusal_unit, refusal_unit]) first second)

theorem undotted_dotted (h : t.Undotted) : (dotted t).Undotted := by
  induction t with
  | node m f ih =>
    have whole : Tree.Undotted (.node m (f.map dotted) : Node) := undotted_map h ih
    rw [dotted_node]
    rcases spell_cases m (f.map dotted) with same | ⟨object, key, name, index, -, same⟩
    · rwa [same]
    · rw [index, undotted_node] at whole
      rw [same, undotted_node]
      refine ⟨rfl, fun c hc => whole.2 c ?_⟩
      rw [mem_singleton.mp hc]
      exact .head _

end Members

end Folder

end Unravel
