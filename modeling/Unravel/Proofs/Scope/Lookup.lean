import Unravel.Proofs.Scope.Keys
import Unravel.Proofs.Scope.Reorder
import Unravel.Proofs.Syntax.Ancestors

/-! Resolution is lookup in the innermost scope that declares a name. The scopes of a name are read off the nodes around
   it, and what they declare off their subtrees, without regard to the order in which anything stands there. -/
namespace Unravel

open List

variable {name : Text} {n t : Node} {above : List Node} {fs : List Frame}

/-- The names that a construct declares: parameters, its own name, and the name of what is caught. -/
def Form.declaredNames {ρ : Type} : Form ρ → List ρ
  | function params _ name _ => params ++ name.toList
  | functionDeclaration name params _ => name :: params
  | declarator name _ => [name]
  | tryStatement _ param _ _ => param.toList
  | _ => []

namespace Node

/-- An identifier of a tree that is not declared where it stands. -/
structure IsReference (root n : Node) : Prop where
  inside : n ∈ root.walk
  identifier : n.form.isName
  undeclared : ∀ q ∈ root.walk, n ∉ q.form.declaredNames

/-- A node belongs to another one if no function lies between them. -/
inductive Own : Node → Node → Prop
  | self (n : Node) : Own n n
  | child {n c d : Node} : ¬ n.form.isCallable → c ∈ n.children → Own c d → Own n d

/-- A variable or a function of a name. -/
def DeclaresName (name : Text) (d : Node) : Prop :=
  match d.form with
  | .declarator id _ | .functionDeclaration id _ _ => id.name = name
  | _ => False

/-- A function declares its own name if it is an expression, its parameters, and all that belongs to its body; a handler
declares what it catches. -/
def Declares (name : Text) (scope : Node) : Prop :=
  match scope.form with
  | .function params body own _ =>
    (∃ p ∈ own.toList ++ params, p.name = name) ∨ ∃ s ∈ body, ∃ d, Own s d ∧ DeclaresName name d
  | .functionDeclaration _ params body =>
    (∃ p ∈ params, p.name = name) ∨ ∃ s ∈ body, ∃ d, Own s d ∧ DeclaresName name d
  | .tryStatement _ param (some _) _ => ∃ p ∈ param.toList, p.name = name
  | _ => False

/-- The body of a function and a handler are in the scope that goes with them. -/
def Encloses (scope below : Node) : Prop :=
  match scope.form with
  | .function _ body _ _ | .functionDeclaration _ _ body => below ∈ body
  | .tryStatement _ _ (some handler) _ => below ∈ handler
  | _ => False

/-- What a name means at a node, given the nodes around it, innermost first. -/
inductive Resolves (name : Text) : Node → List Node → Option BindingId → Prop
  | nowhere (n : Node) : Resolves name n [] none
  | here {n a : Node} {outer : List Node} : Encloses a n → Declares name a →
      Resolves name n (a :: outer) (some ⟨some a.mark, name⟩)
  | outer {n a : Node} {outer : List Node} {b : Option BindingId} : ¬ (Encloses a n ∧ Declares name a) →
      Resolves name a outer b → Resolves name n (a :: outer) b

theorem Resolves.unique {around : List Node} {b c : Option BindingId}
    (hb : Resolves name n around b) (hc : Resolves name n around c) : b = c := by
  induction hb generalizing c with
  | nowhere n =>
    cases hc
    rfl
  | here encloses declares =>
    cases hc with
    | here => rfl
    | outer not_here => exact absurd ⟨encloses, declares⟩ not_here
  | outer not_here rest ih =>
    cases hc with
    | here encloses declares => exact absurd ⟨encloses, declares⟩ not_here
    | outer _ rest' => exact ih rest'

theorem mem_declaredNames {f : Form Node} :
    n ∈ f.declaredNames ↔ ∃ p ∈ f.places, p.role = .name ∧ p.tree = n := by
  cases f <;> simp [Form.declaredNames, Form.places, Place.free, Place.inner, Place.fixed, or_and_right, exists_or,
    eq_comm]

theorem declaresName_iff : DeclaresName name t ↔ ∃ d ∈ t.form.own t.mark, d.name = name := by
  cases t with
  | node m f => cases f <;> simp [DeclaresName, Form.own]

/-- Hoisting finds the declarations that belong to a statement, and no others. -/
theorem mem_hoisted_iff_own (grammatical : t.Grammatical) {x : Declaration} :
    x ∈ t.hoisted ↔ ∃ d, Own t d ∧ x ∈ d.form.own d.mark := by
  induction t with
  | node m f ih =>
    have here := (grammatical_node.mp grammatical).1
    rw [hoisted_node]
    constructor
    · intro hx
      rcases mem_append.mp hx with own | below
      · exact ⟨_, Own.self _, own⟩
      · split at below
        next => cases below
        next plain =>
          obtain ⟨p, hp, hx⟩ := mem_flatMap.mp below
          have hc := place_mem_children (mem_of_mem_filter hp)
          obtain ⟨d, belongs, own⟩ := (ih p.tree hc (grammatical.child hc)).mp hx
          exact ⟨d, Own.child plain hc belongs, own⟩
    · rintro ⟨d, belongs, own⟩
      cases belongs with
      | self => exact mem_append_left _ own
      | child plain hc below =>
        rw [form_node] at plain
        have hx := (ih _ hc (grammatical.child hc)).mpr ⟨d, below, own⟩
        obtain ⟨p, hp, rfl⟩ := Form.mem_children.mp hc
        refine mem_append_right _ ?_
        rw [if_neg plain]
        cases hoists : p.role.hoists with
        | true => exact mem_flatMap.mpr ⟨p, mem_filter.mpr ⟨hp, hoists⟩, hx⟩
        | false =>
          rw [hoisted_of_not_hoists hoists (here p hp)] at hx
          cases hx

theorem own_iff_hoisted (grammatical : t.Grammatical) :
    (∃ d, Own t d ∧ DeclaresName name d) ↔ ∃ x ∈ t.hoisted, x.name = name := by
  constructor
  · rintro ⟨d, belongs, declares⟩
    obtain ⟨x, hx, named⟩ := declaresName_iff.mp declares
    exact ⟨x, (mem_hoisted_iff_own grammatical).mpr ⟨d, belongs, hx⟩, named⟩
  · rintro ⟨x, hx, named⟩
    obtain ⟨d, belongs, own⟩ := (mem_hoisted_iff_own grammatical).mp hx
    exact ⟨d, belongs, declaresName_iff.mpr ⟨x, own, named⟩⟩

theorem mem_functionDeclarations {id : NodeId} {own : Option Node} {params body : List Node}
    (grammatical : ∀ s ∈ body, s.Grammatical) :
    (∃ d ∈ Resolution.functionDeclarations id own params body, d.name = name) ↔
      (∃ p ∈ own.toList ++ params, p.name = name) ∨ ∃ s ∈ body, ∃ d, Own s d ∧ DeclaresName name d := by
  have inside : (∃ s ∈ body, ∃ d, Own s d ∧ DeclaresName name d) ↔ ∃ d ∈ body.flatMap hoisted, d.name = name := by
    constructor
    · rintro ⟨s, hs, declares⟩
      obtain ⟨d, hd, named⟩ := (own_iff_hoisted (grammatical s hs)).mp declares
      exact ⟨d, mem_flatMap.mpr ⟨s, hs, hd⟩, named⟩
    · rintro ⟨d, hd, named⟩
      obtain ⟨s, hs, hd⟩ := mem_flatMap.mp hd
      exact ⟨s, hs, (own_iff_hoisted (grammatical s hs)).mpr ⟨d, hd, named⟩⟩
  rw [inside]
  simp only [Resolution.functionDeclarations, mem_append, mem_map, or_and_right, exists_or,
    exists_exists_and_eq_and, Resolution.parameter]

theorem declares_iff_opening (grammatical : n.Grammatical) {f : Frame}
    (opens : n.opening = some f) : Declares name n ↔ ∃ d ∈ f.declarations, d.name = name := by
  cases n with
  | node m g =>
    rw [opening] at opens
    cases g with
    | function p b own i =>
      cases opens
      exact (mem_functionDeclarations fun s hs => grammatical.child (by simp [Form.children, hs])).symm
    | functionDeclaration own p b =>
      cases opens
      refine (Iff.trans (mem_functionDeclarations fun s hs => grammatical.child (by simp [Form.children, hs])) ?_).symm
      exact Iff.rfl
    | tryStatement b p h y =>
      cases h with
      | none => cases opens
      | some h =>
        cases opens
        simp [Declares, Resolution.parameter]
    | _ => cases opens

theorem encloses_iff {m : NodeId} {f : Form Node} (distinct : Distinct (.node m f)) {p : Place Node}
    (hp : p ∈ f.places) : Encloses (.node m f) p.tree ↔ p.isInner := by
  have inner : Encloses (.node m f) p.tree ↔ ∃ q ∈ f.places, q.isInner ∧ q.tree = p.tree := by
    cases f with
    | tryStatement b c h y =>
      cases h <;> simp [Encloses, Form.places, Place.free, Place.inner, or_and_right, exists_or]
    | _ => simp [Encloses, Form.places, Place.free, Place.inner, Place.fixed, or_and_right, exists_or]
  rw [inner]
  constructor
  · rintro ⟨q, hq, inside, same⟩
    have mark := mark_mem_ids (self_mem_walk p.tree)
    rwa [distinct.same_place hp hq mark (same ▸ mark)]
  · exact fun inside => ⟨p, hp, inside, rfl⟩

theorem opening_of_encloses {a b : Node} (h : Encloses a b) : ∃ f, a.opening = some f := by
  cases a with
  | node m f =>
    cases f with
    | tryStatement b c h' y =>
      cases h' with
      | none => cases h
      | some h' => exact ⟨_, rfl⟩
    | function | functionDeclaration => exact ⟨_, rfl⟩
    | _ => cases h

/-- The scopes that the nodes around a node put it in. -/
inductive Enclosing : Node → List Node → List Frame → Prop
  | nil (n : Node) : Enclosing n [] []
  | inner {n a : Node} {above : List Node} {f : Frame} {fs : List Frame} : Encloses a n → a.opening = some f →
      Enclosing a above fs → Enclosing n (a :: above) (f :: fs)
  | outer {n a : Node} {above : List Node} {fs : List Frame} : ¬ Encloses a n → Enclosing a above fs →
      Enclosing n (a :: above) fs

theorem Enclosing.append {last : Node} {gs : List Frame} (h : Enclosing n above fs)
    (ends : (n :: above).getLast? = some last) (further : Enclosing last [t] gs) : Enclosing n (above ++ [t]) (fs ++ gs) := by
  induction h with
  | nil n =>
    cases ends
    exact further
  | inner here opened rest ih => exact Enclosing.inner here opened (ih (by simpa using ends))
  | outer here rest ih => exact Enclosing.outer here (ih (by simpa using ends))

/-- The scopes recorded for a node are those of the nodes around it. -/
theorem sight_enclosing (distinct : Distinct t) {isWrite : Bool} {around : List Frame} {s : Sight}
    (hs : s ∈ t.sights isWrite around) :
    ∃ above fs, ancestors? t s.node.mark = some above ∧ Enclosing s.node above fs ∧ s.frames = fs ++ around ∧
      (s.node :: above).getLast? = some t := by
  induction t generalizing isWrite around with
  | node m f ih =>
    rcases mem_sights_node.mp hs with rfl | ⟨p, hp, seen, hs⟩
    · exact ⟨[], [], ancestors?_self m f, Enclosing.nil _, rfl, rfl⟩
    · have hc := place_mem_children hp
      obtain ⟨above, fs, way, encloses, frames, ends⟩ := ih p.tree hc (distinct.child hc) hs
      have inside : s.node ∈ p.tree.walk := (sights_sublist _ _ _).subset (mem_map_of_mem hs)
      have longer : ancestors? (.node m f) s.node.mark = some (above ++ [.node m f]) := by
        rw [ancestors?_child distinct hc (mark_mem_ids inside), way]
        rfl
      have top : (s.node :: (above ++ [.node m f])).getLast? = some (.node m f) :=
        getLast?_concat (l := s.node :: above)
      rw [Form.around] at frames
      cases inner : p.isInner with
      | true =>
        have held := (encloses_iff distinct hp).mpr inner
        obtain ⟨g, opens⟩ := opening_of_encloses held
        have opened : f.opening m = some g := opens
        refine ⟨_, fs ++ [g], longer, encloses.append ends (.inner held opens (.nil _)), ?_, top⟩
        rw [frames, inner, if_pos rfl, opened]
        simp
      | false =>
        have held : ¬ Encloses (.node m f) p.tree := by
          rw [encloses_iff distinct hp, inner]
          exact Bool.false_ne_true
        refine ⟨_, fs ++ [], longer, encloses.append ends (.outer held (.nil _)), ?_, top⟩
        rw [frames, inner, if_neg Bool.false_ne_true, append_nil]

theorem Enclosing.resolves {base : List Frame} (h : Enclosing n above fs)
    (grammatical : ∀ a ∈ above, a.Grammatical) (bare : Scope.lookup name (base.map Frame.scope) = none) :
    Resolves name n above (Scope.lookup name ((fs ++ base).map Frame.scope)) := by
  induction h with
  | nil n =>
    rw [nil_append, bare]
    exact Resolves.nowhere n
  | @inner n a above f fs here opens rest ih =>
    have outer := ih fun b hb => grammatical b (.tail a hb)
    have same : Declares name a ↔ _ := declares_iff_opening (grammatical a (.head _)) opens
    by_cases declares : Declares name a
    · rw [cons_append, Frame.lookup_here (same.mp declares), owner_of_opening opens]
      exact Resolves.here here declares
    · rw [cons_append, Frame.lookup_outer fun found => declares (same.mpr found)]
      exact Resolves.outer (fun both => declares both.2) outer
  | @outer n a above fs here rest ih =>
    exact Resolves.outer (fun both => here both.1) (ih fun b hb => grammatical b (.tail a hb))

theorem not_mem_declaredNames (distinct : Distinct t) {isWrite : Bool} {around : List Frame} {s : Sight}
    (hs : s ∈ t.sights isWrite around) {q : Node} (hq : q ∈ t.walk) : s.node ∉ q.form.declaredNames := by
  induction t generalizing isWrite around with
  | node m f ih =>
    intro declared
    obtain ⟨p', hp', role, tree⟩ := mem_declaredNames.mp declared
    have below : p'.tree ∈ q.walk := child_mem_walk (place_mem_children hp')
    rcases mem_sights_node.mp hs with rfl | ⟨p, hp, seen, hs⟩
    · -- the tree itself is no part of itself
      have inside : ∃ c ∈ f.children, p'.tree ∈ c.walk := by
        rcases mem_walk_node.mp hq with rfl | ⟨c, hc, hq⟩
        · exact ⟨p'.tree, place_mem_children hp', self_mem_walk _⟩
        · exact ⟨c, hc, walk_trans hq below⟩
      obtain ⟨c, hc, inside⟩ := inside
      rw [tree] at inside
      exact (distinct_node distinct).1 c hc (mark_mem_ids inside)
    · have inside := mark_mem_ids ((sights_sublist _ _ _).subset (mem_map_of_mem hs))
      rcases mem_walk_node.mp hq with rfl | ⟨c, hc, hq⟩
      · have same := distinct.same_place hp hp' inside (tree ▸ mark_mem_ids (self_mem_walk p'.tree))
        rw [same, role] at seen
        cases seen
      · have same := distinct.same_child (place_mem_children hp) hc inside
          (tree ▸ mark_mem_ids (walk_trans hq below))
        exact ih c hc (distinct.child hc) (same ▸ hs) hq declared

theorem exists_sight (grammatical : t.Grammatical) (isWrite : Bool) (around : List Frame)
    (hn : n ∈ t.walk) (undeclared : ∀ q ∈ t.walk, n ∉ q.form.declaredNames) :
    ∃ s ∈ t.sights isWrite around, s.node = n := by
  induction t generalizing isWrite around with
  | node m f ih =>
    rcases mem_walk_node.mp hn with rfl | ⟨c, hc, hn⟩
    · exact ⟨_, mem_sights_node.mpr (Or.inl rfl), rfl⟩
    obtain ⟨p, hp, rfl⟩ := Form.mem_children.mp hc
    cases seen : p.role.isSeen with
    | true =>
      obtain ⟨s, hs, same⟩ := ih p.tree hc (grammatical.child hc) p.role.isTarget (f.around m p.isInner around) hn
        fun q hq => undeclared q (mem_walk_of_child m hc hq)
      exact ⟨s, mem_sights_node.mpr (Or.inr ⟨p, hp, seen, hs⟩), same⟩
    | false =>
      have role : p.role = .name := by
        cases role : p.role <;> simp_all [Role.isSeen]
      have admitted := (grammatical_node.mp grammatical).1 p hp
      rw [role] at admitted
      obtain ⟨k, x, leaf⟩ := form_of_isName admitted
      -- a declared name has nothing below it
      have same : p.tree = n := by
        rw [leaf] at hn ⊢
        rcases mem_walk_node.mp hn with rfl | ⟨d, hd, -⟩
        · rfl
        · cases hd
      exact absurd (mem_declaredNames.mpr ⟨p, hp, role, same⟩) (undeclared _ (self_mem_walk _))

end Node

namespace Resolution

open Node

/-- The references of a tree are its identifiers in reference position, each once, with the binding that its name
resolves to there. -/
structure IsInnermostLookup (root : Node) (names : Resolution) : Prop where
  once : (names.references.map (·.node)).Nodup
  complete : ∀ n, IsReference root n → ∃ r ∈ names.references, r.node = n.mark
  sound : ∀ r ∈ names.references, ∃ n around, IsReference root n ∧ n = .node r.node (.identifier r.name) ∧
    root.ancestors? r.node = some around ∧ ∀ b, r.binding = b ↔ Resolves r.name n around b
  bound : ∀ r ∈ names.references, ∀ b, r.binding = some b →
    ∃ record, names.binding? b = some record ∧ record.name = r.name

theorem outermost_of_function {root : Node} (h : root.IsFunctionTree) : root.outermost = ⟨none, []⟩ := by
  obtain ⟨params, body, name, isArrow, function⟩ := h.function
  rw [outermost, function]
  rfl

theorem of_isInnermostLookup {root : Node} (h : root.IsFunctionTree) : IsInnermostLookup root (of root) where
  once := references_nodup h.distinct
  complete n hn := by
    obtain ⟨s, hs, rfl⟩ := exists_sight h.grammatical false [root.outermost] hn.inside hn.undeclared
    obtain ⟨m, x, leaf⟩ := form_of_isName hn.identifier
    have found : s.reference? = some ⟨m, x, s.isWrite, s.frames.map Frame.scope⟩ := by
      rw [Sight.reference?, leaf]
      rfl
    exact ⟨_, mem_references.mpr ⟨s, hs, found⟩, by rw [leaf]; rfl⟩
  sound r hr := by
    obtain ⟨s, hs, found⟩ := mem_references.mp hr
    obtain ⟨leaf, -, binding⟩ := reference_of_sight found
    obtain ⟨above, fs, way, encloses, frames, -⟩ := sight_enclosing h.distinct hs
    have mark : s.node.mark = r.node := by
      rw [leaf]
      rfl
    rw [mark] at way
    have around : ∀ a ∈ above, a.Grammatical := by
      intro a ha
      obtain ⟨around, way', members⟩ := mem_ancestors h.distinct (mark ▸ mark_mem_ids (node_mem_walk hs))
      rw [way, Option.some.injEq] at way'
      exact h.grammatical.subtree ((members a).mp (way' ▸ ha)).1
    have bare : Scope.lookup r.name ([root.outermost].map Frame.scope) = none := by
      rw [outermost_of_function h]
      rfl
    have resolves := encloses.resolves around bare
    rw [← frames, ← binding] at resolves
    refine ⟨s.node, above, ⟨node_mem_walk hs, by rw [leaf]; rfl, fun q => not_mem_declaredNames h.distinct hs⟩, leaf, way,
      fun b => ⟨?_, fun other => resolves.unique other⟩⟩
    rintro rfl
    exact resolves
  bound r hr b := binding?_of_reference h.distinct hr

/-- Resolution is lookup in the innermost scope that declares a name, and the order of statements does not matter. -/
theorem resolution_is_innermost_lookup (root : Node) (h : root.IsFunctionTree) :
    IsInnermostLookup root (of root) ∧
      ∀ order : NodeId → List Node → List Node, (∀ m l, (order m l).Perm l) →
        ∀ r' ∈ (of (root.reorder order)).references, ∃ r ∈ (of root).references,
          r.node = r'.node ∧ r.name = r'.name ∧ r.isWrite = r'.isWrite ∧ r.binding = r'.binding := by
  refine ⟨of_isInnermostLookup h, fun order permutes r' hr' => ?_⟩
  exact references_reorder permutes root hr'

/-- A variable that is declared after its use, and a name that is caught. -/
def lateDeclaration : Node :=
  .node 0 (.function [.node 1 (.identifier "x")]
    [.node 2 (.returnStatement (some (.node 3 (.identifier "y")))),
      .node 4 (.declaration "var" [.node 5 (.declarator (.node 6 (.identifier "y")) (some (.node 7 (.identifier "x"))))]),
      .node 8 (.tryStatement [] (some (.node 9 (.identifier "e")))
        (some [.node 10 (.expressionStatement (.node 11 (.identifier "e")))]) none)] none false)

theorem lateDeclaration_lookup :
    lateDeclaration.IsFunctionTree ∧ IsInnermostLookup lateDeclaration (of lateDeclaration) ∧
      (of lateDeclaration).bindingOf 3 = some ⟨some 0, "y"⟩ ∧ (of lateDeclaration).bindingOf 11 = some ⟨some 8, "e"⟩ := by
  have tree : lateDeclaration.IsFunctionTree := ⟨⟨_, _, _, _, rfl⟩, by decide, by decide⟩
  exact ⟨tree, (resolution_is_innermost_lookup lateDeclaration tree).1, by decide, by decide⟩

end Resolution

end Unravel
