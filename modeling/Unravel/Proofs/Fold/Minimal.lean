import Unravel.Proofs.Fold.Faults
import Unravel.Result
import Unravel.Grammar.Parse

/-! Residuals are minimal: what folding leaves is a literal, or it depends on a free variable, down to the smallest part. -/
namespace Unravel

open Outcome List

namespace Form

variable {ρ σ : Type}

/-- The parts that a construct is computed from: all but the path of a function that is called. -/
def inputs : Form ρ → List ρ
  | call _ args => args
  | f => f.children

/-- Constructs that folding leaves nothing of. -/
def isReduced : Form ρ → Bool
  | index .. | object _ | function .. | assign .. | null => true
  | _ => false

theorem inputs_map (g : ρ → σ) (f : Form ρ) : (f.map g).inputs = f.inputs.map g := by
  have same := children_map g f
  cases f with
  | call callee args => rfl
  | _ => exact same

theorem mem_children_of_inputs {f : Form ρ} {c : ρ} (h : c ∈ f.inputs) : c ∈ f.children := by
  cases f with
  | call callee args => exact .tail callee h
  | _ => exact h

theorem mem_inputs_or_callee {f : Form ρ} {c : ρ} (h : c ∈ f.children) : c ∈ f.inputs ∨ ∃ args, f = call c args := by
  cases f with
  | call callee args =>
    rcases mem_cons.mp h with rfl | member
    · exact .inr ⟨args, rfl⟩
    · exact .inl member
  | _ => exact .inl h

end Form

namespace Tree

variable {α : Type}

/-- A tree and its subtrees, without the paths of functions that are called. -/
def terms (t : Tree α) : List (Tree α) := t.para fun m f => node m (f.map (·.1)) :: f.inputs.flatMap (·.2)

theorem terms_node (m : α) (f : Form (Tree α)) : terms (node m f) = node m f :: f.inputs.flatMap terms := by
  simp only [terms, para_node, Form.map_fst_pair, Form.inputs_map, flatMap_map]
  rfl

theorem mem_terms_node {m : α} {f : Form (Tree α)} {n : Tree α} :
    n ∈ terms (node m f) ↔ n = node m f ∨ ∃ c ∈ f.inputs, n ∈ c.terms := by
  rw [terms_node, mem_cons, mem_flatMap]

theorem self_mem_terms (t : Tree α) : t ∈ t.terms := by
  cases t with
  | node m f => exact mem_terms_node.mpr (.inl rfl)

theorem mem_walk_of_terms {t n : Tree α} (h : n ∈ t.terms) : n ∈ t.walk := by
  induction t with
  | node m f ih =>
    rcases mem_terms_node.mp h with rfl | ⟨c, hc, hn⟩
    · exact self_mem_walk _
    · have child := Form.mem_children_of_inputs hc
      exact mem_walk_of_child m child (ih c child hn)

/-- The dotted path that a chain of accesses spells. -/
def path? (t : Tree α) : Option Text :=
  t.fold fun _ f => match f with
    | .identifier x => some x
    | .member object x => object.map fun path => path ++ "." ++ x
    | _ => none

theorem path?_member (m : α) (object : Tree α) (x : Text) :
    path? (node m (.member object x)) = object.path?.map fun path => path ++ "." ++ x := by
  rw [path?, fold_node]
  rfl

theorem form_of_path? {t n : Tree α} {path : Text} (h : t.path? = some path) (hn : n ∈ t.walk) :
    (∃ x, n.form = .identifier x) ∨ ∃ object x, n.form = .member object x := by
  induction t generalizing path with
  | node m f ih =>
    cases f with
    | identifier x =>
      rcases mem_walk_node.mp hn with rfl | ⟨c, hc, -⟩
      · exact .inl ⟨x, rfl⟩
      · cases hc
    | member object x =>
      rw [path?_member] at h
      obtain ⟨outer, spelled, -⟩ := Option.map_eq_some_iff.mp h
      rcases mem_walk_node.mp hn with rfl | ⟨c, hc, inside⟩
      · exact .inr ⟨object, x, rfl⟩
      · cases mem_singleton.mp hc
        exact ih object (.head _) spelled inside
    | _ => cases h

theorem isLiteral_of_mem_walk {t n : Tree α} (h : t.isLiteral) (hn : n ∈ t.walk) : n.isLiteral := by
  induction t with
  | node m f ih =>
    rcases mem_walk_node.mp hn with rfl | ⟨c, hc, inside⟩
    · exact h
    · cases f with
      | array es =>
        rw [isLiteral_array, all_eq_true] at h
        exact ih c hc (h c hc) inside
      | number _ | string _ | boolean _ | undefined => cases hc
      | _ => cases h

end Tree

namespace Folder

theorem path?_pathShape (path : Text) : (pathShape path).path? = some path := by
  obtain ⟨head, rest, split⟩ := Text.exists_splitOn '.' path
  have chain : ∀ (names : List Text) (object : Shape) (start : Text), object.path? = some start →
      (names.foldl (fun object name => node (.member object name)) object).path? =
        some (start ++ names.flatMap fun name => ofChar '.' :: name) := by
    intro names
    induction names with
    | nil =>
      intro object start h
      rw [foldl_nil, h, flatMap_nil, append_nil]
    | cons name names ih =>
      intro object start h
      rw [foldl_cons, ih (node (.member object name)) (start ++ "." ++ name), flatMap_cons, append_assoc,
        append_assoc]
      · rfl
      · rw [node, Tree.path?_member, h]
        rfl
  rw [pathShape, split]
  dsimp only
  rw [chain rest (Shape.identifier head) head rfl, ← Text.eq_of_splitOn split]

section Minimal

variable {F : Folder} {P Q : Text → Prop} {r : Shape}

/-- A name with a property stands in a residual, as a value. -/
def Mentions (P : Text → Prop) (r : Shape) : Prop := ∃ n ∈ r.terms, ∃ x, n.form = .identifier x ∧ P x

/-- A call goes to a function of the table, with as many arguments as it takes. -/
def IsCallable (F : Folder) (callee : Shape) (count : Nat) : Prop := ∃ path, callee.path? = some path ∧ F.IsTaken path count

/-- Every part of a residual is a literal or mentions a name with a property, and only functions of the table are called. -/
structure IsMinimal (F : Folder) (P : Text → Prop) (r : Shape) : Prop where
  parts : ∀ n ∈ r.terms, n.isLiteral ∨ Mentions P n
  calls : ∀ n ∈ r.walk, ∀ callee args, n.form = .call callee args → F.IsCallable callee args.length
  kinds : ∀ n ∈ r.walk, n.form.isReduced = false

theorem Mentions.mono (h : Mentions P r) (weaker : ∀ x, P x → Q x) : Mentions Q r := by
  obtain ⟨n, hn, x, form, holds⟩ := h
  exact ⟨n, hn, x, form, weaker x holds⟩

theorem IsMinimal.mono (h : IsMinimal F P r) (weaker : ∀ x, P x → Q x) : IsMinimal F Q r where
  parts n hn := (h.parts n hn).imp_right fun mentions => mentions.mono weaker
  calls := h.calls
  kinds := h.kinds

theorem IsMinimal.mentions (h : IsMinimal F P r) (symbolic : r.isLiteral = false) : Mentions P r := by
  rcases h.parts r r.self_mem_terms with literal | mentions
  · rw [literal] at symbolic
    cases symbolic
  · exact mentions

theorem not_mentions_of_isLiteral (h : r.isLiteral) : ¬Mentions P r := by
  rintro ⟨n, hn, x, form, -⟩
  have literal := Tree.isLiteral_of_mem_walk h (Tree.mem_walk_of_terms hn)
  obtain ⟨m, f⟩ := n
  cases form
  cases literal

theorem isMinimal_of_isLiteral (h : r.isLiteral) : IsMinimal F P r := by
  refine ⟨fun n hn => ?_, fun n hn callee args form => ?_, fun n hn => ?_⟩
  · exact .inl (Tree.isLiteral_of_mem_walk h (Tree.mem_walk_of_terms hn))
  · have literal := Tree.isLiteral_of_mem_walk h hn
    obtain ⟨m, f⟩ := n
    cases form
    cases literal
  · have literal := Tree.isLiteral_of_mem_walk h hn
    obtain ⟨m, f⟩ := n
    cases f with
    | index | object | function | assign | null => cases literal
    | _ => rfl

theorem isMinimal_name {x : Text} (h : P x) : IsMinimal F P (Shape.identifier x) := by
  refine ⟨fun n hn => .inr ?_, fun n hn callee args form => ?_, fun n hn => ?_⟩
  · cases mem_singleton.mp hn
    exact ⟨_, mem_singleton_self _, x, rfl, h⟩
  · cases mem_singleton.mp hn
    cases form
  · cases mem_singleton.mp hn
    rfl

theorem isMinimal_node {f : Form Shape} (inputs : ∀ c ∈ f.inputs, IsMinimal F P c)
    (symbolic : ∃ c ∈ f.inputs, c.isLiteral = false) (kind : f.isReduced = false)
    (taken : ∀ callee args, f = .call callee args → F.IsCallable callee args.length) :
    IsMinimal F P (node f) := by
  have names : ∀ callee args, f = .call callee args → ∀ n ∈ callee.walk,
      (∃ x, n.form = .identifier x) ∨ ∃ object x, n.form = .member object x := by
    intro callee args call n hn
    obtain ⟨path, spelled, -⟩ := taken callee args call
    exact Tree.form_of_path? spelled hn
  refine ⟨fun n hn => ?_, fun n hn callee args form => ?_, fun n hn => ?_⟩
  · rcases Tree.mem_terms_node.mp hn with rfl | ⟨c, hc, inside⟩
    · obtain ⟨c, hc, kept⟩ := symbolic
      obtain ⟨k, hk, x, form, holds⟩ := (inputs c hc).mentions kept
      exact .inr ⟨k, Tree.mem_terms_node.mpr (.inr ⟨c, hc, hk⟩), x, form, holds⟩
    · exact (inputs c hc).parts n inside
  · rcases mem_walk_node.mp hn with rfl | ⟨c, hc, inside⟩
    · exact taken callee args form
    · rcases Form.mem_inputs_or_callee hc with input | ⟨args', call⟩
      · exact (inputs c input).calls n inside callee args form
      · rcases names c args' call n inside with ⟨x, name⟩ | ⟨object, x, name⟩
        · cases form.symm.trans name
        · cases form.symm.trans name
  · rcases mem_walk_node.mp hn with rfl | ⟨c, hc, inside⟩
    · exact kind
    · rcases Form.mem_inputs_or_callee hc with input | ⟨args, call⟩
      · exact (inputs c input).kinds n inside
      · rcases names c args call n inside with ⟨x, name⟩ | ⟨object, x, name⟩
        · rw [name]
          rfl
        · rw [name]
          rfl

theorem exists_symbolic {rs : List Shape} (h : areLiteral rs = false) : ∃ c ∈ rs, c.isLiteral = false := by
  simpa [areLiteral] using h

end Minimal

section Residuals

variable (F : Folder)

/-- A name in an expression that refers to a free variable without a value. -/
def KeepsName (t : Node) (x : Text) : Prop :=
  ∃ n ∈ t.walk, n.form = .identifier x ∧ ∃ b ∈ F.free, F.binding? n.mark = some b ∧ F.value? b = none

variable {F} {m : NodeId} {f : Form Node}

theorem KeepsName.outer {c : Node} {x : Text} (h : F.KeepsName c x) (hc : c ∈ f.children) : F.KeepsName (.node m f) x := by
  obtain ⟨n, hn, name⟩ := h
  exact ⟨n, mem_walk_of_child m hc hn, name⟩

theorem gives_read (path : Text) : (F.read path).Gives fun r => r.isLiteral :=
  gives_after fun _ => gives_after Value.gives_toShape

theorem gives_identifier (x : Text) : (F.identifier m x).Gives (IsMinimal F (F.KeepsName (.node m (.identifier x)))) := by
  rw [identifier]
  split
  next => exact fun r h => isMinimal_of_isLiteral (gives_read x r h)
  next b bound =>
    split
    next v _ => exact fun r h => isMinimal_of_isLiteral (v.gives_toShape r h)
    next unknown =>
      refine gives_ite (fun free => gives_ok (isMinimal_name ?_)) fun _ => gives_error _
      exact ⟨_, self_mem_walk _, rfl, b, contains_iff_mem.mp free, bound, unknown⟩

theorem gives_callLocal (b : BindingId) (args : List Child) : (F.callLocal b args).Gives fun r => r.isLiteral := by
  rw [callLocal]
  split
  next => exact gives_throw _
  next =>
    refine gives_after fun _ => gives_ite (fun _ => gives_throw _) fun _ => gives_after fun _ => ?_
    split
    next v _ => exact v.gives_toShape
    next => exact gives_throw _

variable {P : Text → Prop}

theorem gives_callPath {path : Text} {args : List Node} (inputs : ∀ e ∈ args, (F.fold e).Gives (IsMinimal F P)) :
    (F.callPath path (args.map fun c => (c, c.para F.layer))).Gives (IsMinimal F P) := by
  intro r h
  rcases callPath_cases h with ⟨literal, -⟩ | ⟨rs, folded, ⟨-, literal⟩ | ⟨rfl, symbolic, taken⟩⟩
  · exact isMinimal_of_isLiteral literal
  · exact isMinimal_of_isLiteral literal
  · rw [results_map] at folded
    have length := (forall₂_of_mapM folded).length_eq
    refine isMinimal_node (gives_mapM inputs rs folded) (exists_symbolic symbolic) rfl ?_
    rintro callee args' ⟨⟩
    rw [length_map, length] at taken
    exact ⟨path, path?_pathShape path, taken⟩

theorem gives_call {callee : Node} {args : List Node} (inputs : ∀ e ∈ args, (F.fold e).Gives (IsMinimal F P)) :
    (F.fold (.node m (.call callee args))).Gives (IsMinimal F P) := by
  rcases F.fold_call_cases m callee args with ⟨k, x, b, -, -, same⟩ | same
  · rw [same]
    exact fun r h => isMinimal_of_isLiteral (gives_callLocal b _ r h)
  · rw [same]
    exact gives_after fun _ => gives_callPath inputs

/-- What an expression folds to is minimal. -/
theorem gives_fold (t : Node) : (F.fold t).Gives (IsMinimal F (F.KeepsName t)) := by
  induction t with
  | node m f ih =>
    have part : ∀ c ∈ f.children, (F.fold c).Gives (IsMinimal F (F.KeepsName (.node m f))) := fun c hc r h =>
      (ih c hc r h).mono fun x name => name.outer hc
    have literal : ∀ {o : Outcome Shape}, (o.Gives fun r => r.isLiteral) →
        o.Gives (IsMinimal F (F.KeepsName (.node m f))) := fun h r same => isMinimal_of_isLiteral (h r same)
    cases f with
    | identifier x =>
      rw [fold_identifier]
      exact gives_identifier x
    | number | string | boolean | undefined => exact literal (gives_ok rfl)
    | member object x =>
      rw [fold_access _ _ (.inl ⟨object, x, rfl⟩)]
      exact literal (gives_after gives_read)
    | index object key =>
      rw [fold_access _ _ (.inr ⟨object, key, rfl⟩)]
      exact literal (gives_after gives_read)
    | array es =>
      rw [fold_array]
      refine (gives_mapM part).bind fun rs minimal => gives_pure ?_
      cases symbolic : areLiteral rs with
      | true => exact isMinimal_of_isLiteral ((Tree.isLiteral_array () rs).trans symbolic)
      | false => exact isMinimal_node minimal (exists_symbolic symbolic) rfl nofun
    | unary op x =>
      rw [fold_unary]
      refine gives_ite (fun _ => (part x (.head _)).bind fun r minimal => ?_) fun _ => gives_error _
      refine gives_ite (fun _ => literal (gives_after fun _ => gives_after Value.gives_toShape)) fun symbolic => gives_pure ?_
      refine isMinimal_node ?_ ⟨r, .head _, Bool.eq_false_iff.mpr symbolic⟩ rfl nofun
      exact forall_mem_singleton.mpr minimal
    | binary op a b =>
      have left := part a (.head _)
      have right := part b (.tail a (.head _))
      cases logical : op.isLogical with
      | true =>
        rw [fold_logical _ _ logical]
        refine left.bind fun l hl => gives_ite (fun _ => ?_) fun symbolic => right.bind fun r hr => gives_pure ?_
        · exact gives_after fun _ => gives_ite (fun _ => right) fun _ => gives_pure hl
        · refine isMinimal_node ?_ ⟨l, .head _, Bool.eq_false_iff.mpr symbolic⟩ rfl nofun
          exact forall_mem_cons.mpr ⟨hl, forall_mem_singleton.mpr hr⟩
      | false =>
        rw [fold_strict _ _ logical]
        refine gives_ite (fun _ => left.bind fun l hl => right.bind fun r hr => ?_) fun _ => gives_error _
        refine gives_ite (fun _ => ?_) fun symbolic => gives_pure ?_
        · exact literal (gives_after fun _ => gives_after fun _ => gives_after Value.gives_toShape)
        · have mixed : areLiteral [l, r] = false := by simpa [areLiteral] using symbolic
          refine isMinimal_node ?_ (exists_symbolic mixed) rfl nofun
          exact forall_mem_cons.mpr ⟨hl, forall_mem_singleton.mpr hr⟩
    | conditional t a b =>
      have chosen := part a (.tail t (.head _))
      have other := part b (.tail t (.tail a (.head _)))
      rw [fold_conditional]
      refine (part t (.head _)).bind fun r hr => gives_ite (fun _ => ?_) fun symbolic => ?_
      · exact gives_after fun _ => gives_ite (fun _ => chosen) fun _ => other
      · refine chosen.bind fun x hx => other.bind fun y hy => gives_pure ?_
        refine isMinimal_node ?_ ⟨r, .head _, Bool.eq_false_iff.mpr symbolic⟩ rfl nofun
        exact forall_mem_cons.mpr ⟨hr, forall_mem_cons.mpr ⟨hx, forall_mem_singleton.mpr hy⟩⟩
    | sequence es =>
      rw [fold_sequence]
      refine (gives_mapM part).bind fun rs minimal => ?_
      split
      next last final =>
        refine gives_ite (fun _ => gives_pure (minimal last (mem_of_getLast? final))) fun symbolic => gives_pure ?_
        exact isMinimal_node minimal (exists_symbolic (Bool.eq_false_iff.mpr symbolic)) rfl nofun
      next => exact gives_throw _
    | call callee args => exact gives_call fun e he => part e (.tail callee he)
    | _ => exact gives_error _

/-- Folding leaves a literal, or what depends on a free variable in each of its parts. A residual calls functions of the table
alone, each with as many arguments as it takes; only without free variables is it a literal, and then the expression has a value. -/
theorem residual_is_minimal (F : Folder) (t : Node) (r : Shape) (folds : F.fold t = .ok r) :
    (∀ n ∈ r.terms, n.isLiteral ∨ Mentions (F.KeepsName t) n) ∧
    (∀ n ∈ r.walk, ∀ callee args, n.form = .call callee args → F.IsCallable callee args.length) ∧
    (∀ n ∈ r.walk, n.form.isReduced = false) ∧
    (r.isLiteral ↔ ¬Mentions (F.KeepsName t) r) ∧
    (F.free = [] → r.isLiteral ∧ ∃ v, F.evaluate t = .ok v) := by
  have minimal := gives_fold t r folds
  have closed : ¬Mentions (F.KeepsName t) r → r.isLiteral := fun none => (minimal.parts r r.self_mem_terms).resolve_right none
  refine ⟨minimal.parts, minimal.calls, minimal.kinds, ⟨not_mentions_of_isLiteral, closed⟩, fun empty => ?_⟩
  have literal : r.isLiteral := closed fun ⟨_, _, _, _, _, _, _, b, free, _⟩ => by
    rw [empty] at free
    cases free
  obtain ⟨v, value, -⟩ := exists_literalValue literal
  exact ⟨literal, v, F.evaluate_eq_ok.mpr ⟨r, folds, literal, value⟩⟩

end Residuals

/-- A function whose result calls into the namespace with its parameter, next to parts that do not need it. -/
def partlyKnown : Text := "function(a)\x7breturn [Math.max(a,1+2)?(1,a):-a,Math.abs(-3),[0,'x']]\x7d"

theorem partlyKnown_residual :
    ∃ shape e r, parseFunction partlyKnown = .ok shape ∧ Node.resultExpression (shape.numberFrom 0) = .ok e ∧
      (symbolic .standard (shape.numberFrom 0)).fold e = .ok r ∧ r.isLiteral = false ∧
      Mentions ((symbolic .standard (shape.numberFrom 0)).KeepsName e) r ∧
      ∀ n ∈ r.walk, n.form.isReduced = false := by
  have evaluated : (parseFunction partlyKnown).toOption.any fun shape =>
      (Node.resultExpression (shape.numberFrom 0)).toOption.any fun e =>
        ((symbolic .standard (shape.numberFrom 0)).fold e).toOption.any fun r => !r.isLiteral := by decide +kernel
  obtain ⟨shape, parsed, evaluated⟩ := exists_ok_of_any evaluated
  obtain ⟨e, result, evaluated⟩ := exists_ok_of_any evaluated
  obtain ⟨r, folds, evaluated⟩ := exists_ok_of_any evaluated
  have kept : r.isLiteral = false := by simpa using evaluated
  obtain ⟨parts, -, kinds, -, -⟩ := residual_is_minimal _ e r folds
  refine ⟨shape, e, r, parsed, result, folds, kept, ?_, kinds⟩
  exact (parts r r.self_mem_terms).resolve_left (Bool.eq_false_iff.mp kept)

end Folder

end Unravel
