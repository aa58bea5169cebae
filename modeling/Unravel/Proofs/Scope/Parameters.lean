import Unravel.Proofs.Scope.Lookup
import Unravel.Result

/-! What the name of a parameter means in the body of its function. Own name, parameters and hoisted declarations share one
   scope, where the first declaration of a name decides what later ones can change: a parameter stays one, and so does a
   function. The own name of a function expression is declared before its parameters. -/
namespace Unravel

open Resolution List

namespace Scope

theorem merge_parameter {d : Declaration} (ds : List Declaration) (kind : d.kind = .parameter) :
    ∃ b, (d :: ds).foldl merge none = some b ∧ b.kind = .parameter ∧ b.node = d.node := by
  have from_any : ∀ b : Binding, b.kind = .parameter →
      ∃ c, ds.foldl merge (some b) = some c ∧ c.kind = .parameter ∧ c.node = b.node := by
    induction ds with
    | nil => exact fun b kind => ⟨b, rfl, kind, rfl⟩
    | cons e rest ih =>
      intro b kind
      have kept : redeclare b e = { b with declarations := b.declarations ++ [e.node] } :=
        if_neg fun taken => taken.2 kind
      obtain ⟨c, found, stays, node⟩ := ih (redeclare b e) (by rw [kept]; exact kind)
      exact ⟨c, found, stays, node.trans (by rw [kept])⟩
  exact from_any ⟨d.name, d.kind, d.node, [d.node]⟩ kind

theorem merge_function {d : Declaration} (ds : List Declaration) (kind : d.kind = .function) :
    ∃ b, (d :: ds).foldl merge none = some b ∧ b.kind = .function ∧
      b.node = (((ds.filter fun e => e.kind = .function).getLast?).getD d).node := by
  have from_any : ∀ b : Binding, b.kind = .function → ∀ d : Declaration, b.node = d.node →
      ∃ c, ds.foldl merge (some b) = some c ∧ c.kind = .function ∧
        c.node = (((ds.filter fun e => e.kind = .function).getLast?).getD d).node := by
    induction ds with
    | nil => exact fun b kind d node => ⟨b, rfl, kind, node⟩
    | cons e rest ih =>
      intro b kind d node
      by_cases function : e.kind = .function
      · have taken : redeclare b e = { b with kind := e.kind, node := e.node, declarations := b.declarations ++ [e.node] } :=
          if_pos ⟨function, by rw [kind]; exact nofun⟩
        obtain ⟨c, found, stays, node'⟩ := ih (redeclare b e) (by rw [taken]; exact function) e (by rw [taken])
        refine ⟨c, found, stays, node'.trans ?_⟩
        rw [filter_cons, if_pos (decide_eq_true function), getLast?_cons]
        rfl
      · have kept : redeclare b e = { b with declarations := b.declarations ++ [e.node] } :=
          if_neg fun taken => function taken.1
        obtain ⟨c, found, stays, node'⟩ := ih (redeclare b e) (by rw [kept]; exact kind) d (by rw [kept]; exact node)
        refine ⟨c, found, stays, node'.trans ?_⟩
        rw [filter_cons, if_neg (by simpa using function)]
  exact from_any ⟨d.name, d.kind, d.node, [d.node]⟩ kind d rfl

end Scope

theorem Frame.lookup_append {name : Text} {fs : List Frame} (silent : ∀ f ∈ fs, ¬∃ d ∈ f.declarations, d.name = name)
    (outer : List Frame) : Scope.lookup name ((fs ++ outer).map scope) = Scope.lookup name (outer.map scope) := by
  induction fs with
  | nil => rfl
  | cons f rest ih =>
    rw [cons_append, lookup_outer (silent f (.head _)), ih fun g hg => silent g (.tail f hg)]

namespace Node

/-- The name that a function expression gives itself. -/
def ownName? (F : Node) : Option Node :=
  match F.form with
  | .function _ _ name _ => name
  | _ => none

/-- A function expression that goes by a name. -/
def NamesItself (F : Node) (name : Text) : Prop := ∃ own, F.ownName? = some own ∧ own.name = name

/-- A function of a name. -/
def DeclaresFunction (name : Text) (d : Node) : Prop :=
  match d.form with
  | .functionDeclaration id _ _ => id.name = name
  | _ => False

/-- A reference in the body of a function, with no scope of its name between the two. -/
structure IsReferenceOf (root F n : Node) : Prop where
  function : F ∈ root.walk
  reference : IsReference root n
  body : ∃ s ∈ F.statements, n ∈ s.walk
  direct : ∀ q ∈ F.walk, q ≠ F → ∀ c, Encloses q c → n ∈ c.walk → ¬Declares n.name q

theorem opening_of_statement {F s : Node} (hs : s ∈ F.statements) :
    F.opening = some ⟨some F.mark, functionDeclarations F.mark F.ownName? F.params F.statements⟩ ∧
      (⟨.statement, false, true, s⟩ : Place Node) ∈ F.form.places := by
  obtain ⟨m, f⟩ := F
  cases f with
  | function | functionDeclaration =>
    refine ⟨rfl, ?_⟩
    simp only [Tree.statements, form_node] at hs
    simp [form_node, Form.places, Place.inner, Place.free, Place.fixed, hs]
  | _ => cases hs

theorem mem_sights_of_place {t : Node} {isWrite : Bool} {frames : List Frame} {p : Place Node} (hp : p ∈ t.form.places)
    (seen : p.role.isSeen) {v : Sight} (hv : v ∈ sights p.tree p.role.isTarget (t.form.around t.mark p.isInner frames)) :
    v ∈ t.sights isWrite frames := by
  obtain ⟨m, f⟩ := t
  exact mem_sights_node.mpr (.inr ⟨p, hp, seen, hv⟩)

theorem inner_frames {t : Node} (distinct : t.Distinct) {isWrite : Bool} {around : List Frame} {v : Sight}
    (hv : v ∈ t.sights isWrite around) :
    ∃ fs, v.frames = fs ++ around ∧ ∀ g ∈ fs, ∃ q ∈ t.walk, opening q = some g ∧ ∃ c, Encloses q c ∧ v.node ∈ c.walk := by
  induction t generalizing isWrite around with
  | node m f ih =>
    rcases mem_sights_node.mp hv with rfl | ⟨p, hp, seen, hv⟩
    · exact ⟨[], rfl, nofun⟩
    have hc := place_mem_children hp
    obtain ⟨fs, frames, opened⟩ := ih p.tree hc (distinct.child hc) hv
    have below : ∀ g ∈ fs, ∃ q ∈ Tree.walk (.node m f), opening q = some g ∧ ∃ c, Encloses q c ∧ v.node ∈ c.walk := by
      intro g hg
      obtain ⟨q, hq, opens⟩ := opened g hg
      exact ⟨q, mem_walk_of_child m hc hq, opens⟩
    rw [Form.around] at frames
    cases inner : p.isInner with
    | false =>
      rw [inner, if_neg Bool.false_ne_true] at frames
      exact ⟨fs, frames, below⟩
    | true =>
      have held := (encloses_iff distinct hp).mpr inner
      obtain ⟨g, opens⟩ := opening_of_encloses held
      have here : f.opening m = some g := opens
      rw [inner, if_pos rfl, here] at frames
      refine ⟨fs ++ [g], by rw [frames, append_assoc]; rfl, fun k hk => ?_⟩
      rcases mem_append.mp hk with hk | hk
      · exact below k hk
      · rw [mem_singleton.mp hk]
        exact ⟨_, self_mem_walk _, opens, p.tree, held, (sights_sublist _ _ _).subset (mem_map_of_mem hv)⟩

/-- Where a reference in the body of a function stands, its name is first looked up in the scope of that function. -/
theorem IsReferenceOf.sight {root F n : Node} (h : IsReferenceOf root F n) (distinct : root.Distinct)
    (grammatical : root.Grammatical) :
    ∃ f ∈ root.frames, F.opening = some f ∧ ∃ v ∈ root.overview, v.node = n ∧
      ∃ outer, Scope.lookup n.name (v.frames.map Frame.scope) = Scope.lookup n.name ((f :: outer).map Frame.scope) := by
  obtain ⟨s, hs, hn⟩ := h.body
  obtain ⟨opens, place⟩ := opening_of_statement hs
  have hc : s ∈ F.children := place_mem_children place
  -- a function is no declared name, so it is looked at itself
  have undeclared : ∀ q ∈ root.walk, F ∉ q.form.declaredNames := by
    intro q hq declared
    obtain ⟨p, hp, role, rfl⟩ := mem_declaredNames.mp declared
    have admitted := grammatical q hq p hp
    rw [role] at admitted
    obtain ⟨k, x, leaf⟩ := form_of_isName admitted
    rw [leaf] at hs
    cases hs
  obtain ⟨u, hu, rfl⟩ := exists_sight grammatical false [root.outermost] h.function undeclared
  have inside := distinct.subtree h.function
  obtain ⟨v, hv, rfl⟩ := exists_sight (grammatical.subtree (walk_trans h.function (child_mem_walk hc))) false
    (u.node.form.around u.node.mark true u.frames) hn
    fun q hq => h.reference.undeclared q (walk_trans h.function (walk_trans (child_mem_walk hc) hq))
  have seen : v ∈ root.overview := sights_trans hu (mem_sights_of_place place rfl hv)
  refine ⟨_, .tail _ (mem_filterMap.mpr ⟨u, hu, opens⟩), opens, v, seen, rfl, u.frames, ?_⟩
  obtain ⟨fs, frames, opened⟩ := inner_frames (inside.subtree (child_mem_walk hc)) hv
  have silent : ∀ g ∈ fs, ¬∃ d ∈ g.declarations, d.name = v.node.name := by
    intro g hg declares
    obtain ⟨q, hq, opens, c, held, below⟩ := opened g hg
    have within := walk_trans (child_mem_walk hc) hq
    have apart : q ≠ u.node := fun same => inside.not_mem_walk_child hc (same ▸ hq)
    refine h.direct q within apart c held below ?_
    exact (declares_iff_opening (grammatical.subtree (walk_trans h.function within)) opens).mpr declares
  rw [frames, Frame.lookup_append silent, Form.around, if_pos rfl, show u.node.form.opening u.node.mark = _ from opens]
  rfl

end Node

namespace Resolution

open Node

section Records

variable (id : NodeId) {own : Option Node} {params body : List Node} {name : Text}

theorem find?_parameter (other : ∀ o, own = some o → o.name ≠ name) {p : Node}
    (found : params.find? (fun p => p.name = name) = some p) (owner : Option NodeId) (body : List Node) :
    ∃ b, (Scope.ofDeclarations owner (functionDeclarations id own params body)).find? name = some b ∧
      b.kind = .parameter ∧ b.node = p.mark := by
  have named : (own.toList.map fun n => (⟨n.mark, n.name, .function, id⟩ : Declaration)).filter (fun d => d.name = name) = [] := by
    cases own with
    | none => rfl
    | some o => simpa using other o rfl
  obtain ⟨rest, first⟩ : ∃ rest, params.filter (fun p => p.name = name) = p :: rest := by
    rw [← head?_filter] at found
    exact ⟨_, eq_cons_of_mem_head? found⟩
  have parameters : (params.map parameter).filter (fun d => d.name = name) = parameter p :: rest.map parameter := by
    rw [filter_map, show ((fun d : Declaration => decide (d.name = name)) ∘ parameter) = fun p => decide (p.name = name)
      from rfl, first, map_cons]
  rw [Scope.find?_ofDeclarations, functionDeclarations, filter_append, filter_append, named, parameters]
  exact Scope.merge_parameter _ rfl

theorem find?_ownName {o : Node} (named : o.name = name) (grammatical : ∀ s ∈ body, s.Grammatical) (owner : Option NodeId)
    (params : List Node) :
    ∃ b, (Scope.ofDeclarations owner (functionDeclarations id (some o) params body)).find? name = some b ∧
      b.kind = .function ∧
      (b.node = id ∧ (∀ s ∈ body, ∀ d, Own s d → ¬DeclaresFunction name d) ∨
        ∃ s ∈ body, ∃ d, Own s d ∧ DeclaresFunction name d ∧ b.node = d.mark) := by
  have functions : ((params.map parameter ++ body.flatMap hoisted).filter fun d => d.name = name).filter
      (fun d => d.kind = .function) = (body.flatMap hoisted).filter fun d => d.name = name ∧ d.kind = .function := by
    have none : (params.map parameter).filter (fun d => decide (d.name = name ∧ d.kind = .function)) = [] := by
      rw [filter_eq_nil_iff]
      intro d hd
      obtain ⟨p, -, rfl⟩ := mem_map.mp hd
      simp [parameter]
    rw [filter_filter, filter_append]
    simp only [Bool.decide_and, Bool.and_comm] at none ⊢
    rw [none, nil_append]
  rw [Scope.find?_ofDeclarations, functionDeclarations, append_assoc, Option.toList_some, map_singleton,
    singleton_append, filter_cons, if_pos (decide_eq_true named)]
  obtain ⟨b, found, kind, node⟩ := Scope.merge_function (d := ⟨o.mark, o.name, .function, id⟩)
    ((params.map parameter ++ body.flatMap hoisted).filter fun d => d.name = name) rfl
  refine ⟨b, found, kind, ?_⟩
  rw [functions] at node
  -- the functions of the name that the body declares
  have origin : ∀ x, x ∈ (body.flatMap hoisted).filter (fun d => d.name = name ∧ d.kind = .function) ↔
      ∃ s ∈ body, ∃ d, Own s d ∧ DeclaresFunction name d ∧ x = ⟨d.mark, name, .function, d.mark⟩ := by
    intro x
    rw [mem_filter, mem_flatMap]
    constructor
    · rintro ⟨⟨s, hs, hx⟩, same⟩
      obtain ⟨rfl, function⟩ := of_decide_eq_true same
      obtain ⟨⟨m, f⟩, belongs, own⟩ := (mem_hoisted_iff_own (grammatical s hs)).mp hx
      cases f with
      | functionDeclaration =>
        obtain rfl := mem_singleton.mp own
        exact ⟨s, hs, _, belongs, rfl, rfl⟩
      | declarator =>
        obtain rfl := mem_singleton.mp own
        cases function
      | _ => cases own
    · rintro ⟨s, hs, ⟨m, f⟩, belongs, declares, rfl⟩
      cases f with
      | functionDeclaration =>
        obtain rfl : Tree.name _ = name := declares
        exact ⟨⟨s, hs, (mem_hoisted_iff_own (grammatical s hs)).mpr ⟨_, belongs, mem_singleton_self _⟩⟩, by simp⟩
      | _ => cases declares
  cases last : ((body.flatMap hoisted).filter fun d => d.name = name ∧ d.kind = .function).getLast? with
  | none =>
    rw [last] at node
    rw [getLast?_eq_none_iff] at last
    refine .inl ⟨node, fun s hs d belongs declares => ?_⟩
    have listed := (origin _).mpr ⟨s, hs, d, belongs, declares, rfl⟩
    rw [last] at listed
    cases listed
  | some x =>
    rw [last] at node
    obtain ⟨s, hs, d, belongs, declares, rfl⟩ := (origin x).mp (mem_of_getLast? last)
    exact .inr ⟨s, hs, d, belongs, declares, node⟩

end Records

/-- In the body of a function the name of a parameter means what the scope of the function has for it. That is the first
parameter of the name, unless the function is an expression that goes by the name itself: then it is a function, namely the
expression or one that its body declares. -/
theorem parameter_names_in_body (root F n : Node) (distinct : root.Distinct) (grammatical : root.Grammatical)
    (refers : IsReferenceOf root F n) (p : Node) (named : F.params.find? (fun p => p.name = n.name) = some p) :
    (of root).bindingOf n.mark = some ⟨some F.mark, n.name⟩ ∧
      ∃ record, (of root).binding? ⟨some F.mark, n.name⟩ = some record ∧
        (¬F.NamesItself n.name → record.kind = .parameter ∧ record.node = p.mark) ∧
        (F.NamesItself n.name → record.kind = .function ∧
          (record.node = F.mark ∧ (∀ s ∈ F.statements, ∀ d, Own s d → ¬DeclaresFunction n.name d) ∨
            ∃ s ∈ F.statements, ∃ d, Own s d ∧ DeclaresFunction n.name d ∧ record.node = d.mark)) := by
  obtain ⟨f, hf, opens, v, hv, rfl, outer, looked⟩ := refers.sight distinct grammatical
  obtain ⟨s, hs, -⟩ := refers.body
  have shape : f = ⟨some F.mark, functionDeclarations F.mark F.ownName? F.params F.statements⟩ :=
    Option.some.inj (opens.symm.trans (opening_of_statement hs).1)
  have statements : ∀ s ∈ F.statements, s.Grammatical := fun s hs =>
    grammatical.subtree (Tree.walk_trans refers.function (Tree.child_mem_walk (Form.place_mem_children (opening_of_statement hs).2)))
  have declares : ∃ d ∈ f.declarations, d.name = v.node.name := by
    have hp : parameter p ∈ F.params.map parameter := List.mem_map_of_mem (List.mem_of_find?_eq_some named)
    refine ⟨parameter p, ?_, of_decide_eq_true (List.find?_some (p := fun p : Node => p.name = v.node.name) named)⟩
    rw [shape]
    exact List.mem_append_left _ (List.mem_append_right _ hp)
  constructor
  · obtain ⟨m, x, leaf⟩ := Tree.form_of_isName refers.reference.identifier
    have listed : (⟨m, x, v.isWrite, v.frames.map Frame.scope⟩ : Reference) ∈ (of root).references :=
      mem_references.mpr ⟨v, hv, by rw [Sight.reference?, leaf]; rfl⟩
    have same : v.node.mark = m ∧ v.node.name = x := by rw [leaf]; exact ⟨rfl, rfl⟩
    rw [Frame.lookup_here declares, same.2, shape] at looked
    rw [same.1, same.2]
    exact (bindingOf_of_mem distinct listed).trans looked
  · have record : ∀ {record}, (Scope.ofDeclarations (some F.mark)
        (functionDeclarations F.mark F.ownName? F.params F.statements)).find? v.node.name = some record →
        (of root).binding? ⟨some F.mark, v.node.name⟩ = some record := fun found =>
      (binding?_eq_some distinct).mpr ⟨f, hf, by rw [shape], by rw [shape]; exact found⟩
    by_cases own : F.NamesItself v.node.name
    · obtain ⟨o, has, named⟩ := own
      obtain ⟨b, found, kind, node⟩ := find?_ownName F.mark named statements (some F.mark) F.params
      exact ⟨b, record (has ▸ found), fun other => absurd ⟨o, has, named⟩ other, fun _ => ⟨kind, node⟩⟩
    · obtain ⟨b, found, kind, node⟩ := find?_parameter F.mark (fun o has same => own ⟨o, has, same⟩) named
        (some F.mark) F.statements
      exact ⟨b, record found, fun _ => ⟨kind, node⟩, fun other => absurd other own⟩

/-- A function whose parameter is declared again, by a variable and by a function. -/
def redeclared : Node :=
  .node 0 (.function [.node 1 (.identifier "a")]
    [.node 2 (.declaration "var" [.node 3 (.declarator (.node 4 (.identifier "a")) none)]),
      .node 5 (.functionDeclaration (.node 6 (.identifier "a")) [] []),
      .node 7 (.returnStatement (some (.node 8 (.identifier "a"))))] (some (.node 9 (.identifier "f"))) false)

theorem redeclared_parameter_stays :
    IsReferenceOf redeclared redeclared (.node 8 (.identifier "a")) ∧
      (of redeclared).bindingOf 8 = some ⟨some 0, "a"⟩ ∧
      ∃ record, (of redeclared).binding? ⟨some 0, "a"⟩ = some record ∧ record.kind = .parameter ∧ record.node = 1 := by
  have refers : IsReferenceOf redeclared redeclared (.node 8 (.identifier "a")) := by
    refine ⟨Tree.self_mem_walk _, ⟨?_, rfl, ?_⟩, ⟨.node 7 (.returnStatement (some (.node 8 (.identifier "a")))), ?_, ?_⟩, ?_⟩ <;>
      simp [redeclared, Tree.walk_node, Form.children, Form.declaredNames, Tree.statements, Encloses]
  obtain ⟨means, record, known, parameter, -⟩ := parameter_names_in_body redeclared redeclared (.node 8 (.identifier "a"))
    (by decide) (by decide) refers (.node 1 (.identifier "a")) rfl
  refine ⟨refers, means, record, known, parameter ?_⟩
  rintro ⟨own, has, named⟩
  cases has
  revert named
  decide

/-- A function expression that goes by the name of its parameter. -/
def selfNamed : Node :=
  .node 0 (.function [.node 1 (.identifier "a")] [.node 2 (.returnStatement (some (.node 3 (.identifier "a"))))]
    (some (.node 4 (.identifier "a"))) false)

/-- The name of the parameter means the function there. -/
theorem selfNamed_hides_parameter :
    selfNamed.IsFunctionTree ∧ IsReferenceOf selfNamed selfNamed (.node 3 (.identifier "a")) ∧
      (∃ p ∈ selfNamed.params, p.name = "a") ∧ (of selfNamed).bindingOf 3 = some ⟨some 0, "a"⟩ ∧
      ∃ record, (of selfNamed).binding? ⟨some 0, "a"⟩ = some record ∧ record.kind = .function ∧
        ∀ p ∈ selfNamed.params, record.node ≠ p.mark := by
  refine ⟨⟨⟨_, _, _, _, rfl⟩, by decide, by decide⟩, ?_, ⟨_, List.mem_singleton_self _, rfl⟩, by decide, _, rfl, rfl, ?_⟩
  · refine ⟨Tree.self_mem_walk _, ⟨?_, rfl, ?_⟩, ⟨_, List.mem_singleton_self _, ?_⟩, ?_⟩ <;>
      simp [selfNamed, Tree.walk_node, Form.children, Form.declaredNames, Encloses]
  · decide

end Resolution

end Unravel
