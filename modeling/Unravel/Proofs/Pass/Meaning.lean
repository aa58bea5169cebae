import Unravel.Proofs.Fold.Alike
import Unravel.Proofs.Pass.Surface

/-! A function that only evaluates expressions and returns an array: whatever the passes do to it, the array that it
   returns folds to what it folded to before. -/
namespace Unravel

open Outcome Resolution Pattern Normalised

namespace Node

variable {root other e : Node}

/-- The first return of a function gives an array. -/
def GivesArray (root e : Node) : Prop :=
  ∃ s, (Tree.statements root).find? (fun s => isReturn s.form) = some s ∧ s.form = .returnStatement (some e) ∧
    ∃ es, e.form = .array es

theorem GivesArray.result (h : GivesArray root e) (tree : root.IsFunctionTree) : resultExpression root = .ok e := by
  obtain ⟨⟨k, f⟩, first, form, es, array⟩ := h
  obtain ⟨m, params, body, name, isArrow, rfl⟩ := tree.exists_node
  obtain ⟨l, a⟩ := e
  cases form
  cases array
  have body_first : (body.find? fun s => isReturn s.form) = some (.node k (.returnStatement (some (.node l (.array es))))) := first
  change (found _).asBody = _
  rw [found_function, body_first]
  dsimp only
  rw [found_return, found, para_node]
  change Except.ok (Tree.node l (Form.map Prod.fst (Form.map (fun c => (c, c.para foundLayer)) (.array es)))) = _
  rw [Form.map_fst_pair]

theorem find_return_map {g : Node → Node} (keeps : ∀ t : Node, isReturn (g t).form = isReturn t.form) (ts : List Node) :
    (ts.map g).find? (fun s => isReturn s.form) = (ts.find? fun s => isReturn s.form).map g := by
  rw [List.find?_map]
  congr 2
  exact funext keeps

theorem isReturn_outline (t : Node) : isReturn (outline t).form = isReturn t.form := by
  obtain ⟨m, f⟩ := t
  cases f <;> rfl

theorem isReturn_dotted (t : Node) : isReturn (dotted t).form = isReturn t.form := by
  obtain ⟨m, f⟩ := t
  rw [dotted_node]
  rcases spell_cases m (f.map dotted) with same | ⟨object, key, name, index, -, same⟩
  · rw [same]
    cases f <;> rfl
  · rw [same]
    cases f <;> cases index
    rfl

theorem GivesArray.of_surface (h : GivesArray root e) (same : surface other = surface root) :
    ∃ e', GivesArray other e' ∧ outline e' = outline e := by
  obtain ⟨⟨k, f⟩, first, form, es, array⟩ := h
  obtain ⟨l, a⟩ := e
  cases form
  cases array
  have shown : ((Tree.statements other).map outline).find? (fun s => isReturn s.form) =
      some (outline (.node k (.returnStatement (some (.node l (.array es)))))) := by
    rw [← statements_surface, same, statements_surface, find_return_map isReturn_outline, first]
    rfl
  rw [find_return_map isReturn_outline] at shown
  obtain ⟨s, first', outlines⟩ := Option.map_eq_some_iff.mp shown
  rw [outline_of_plain rfl] at outlines
  obtain ⟨f, rfl, returns⟩ := eq_of_outline rfl outlines
  cases f with
  | returnStatement argument =>
    obtain ⟨e', rfl, given⟩ := Option.map_eq_some_iff.mp (Form.returnStatement.inj returns)
    have array := given
    rw [outline_of_plain rfl] at array
    obtain ⟨g, rfl, elements⟩ := eq_of_outline rfl array
    cases g with
    | array es' => exact ⟨_, ⟨_, first', rfl, es', rfl⟩, given⟩
    | _ => cases elements
  | _ => cases returns

theorem statements_normaliseMembers (root : Node) :
    Tree.statements root.normaliseMembers.node = (Tree.statements root).map dotted := by
  obtain ⟨m, f⟩ := root
  rw [node_normaliseMembers]
  cases f <;> rfl

theorem GivesArray.normaliseMembers (h : GivesArray root e) : GivesArray root.normaliseMembers.node (dotted e) := by
  obtain ⟨⟨k, f⟩, first, form, es, array⟩ := h
  obtain ⟨l, a⟩ := e
  cases form
  cases array
  refine ⟨dotted (.node k (.returnStatement (some (.node l (.array es))))), ?_, ?_, es.map dotted, ?_⟩
  · rw [statements_normaliseMembers, find_return_map isReturn_dotted, first]
    rfl
  · rw [dotted_node]
    rfl
  · rw [dotted_node]
    rfl

theorem IsStraight.normaliseMembers (straight : root.IsStraight) : root.normaliseMembers.node.IsStraight := by
  intro s hs
  rw [statements_normaliseMembers] at hs
  obtain ⟨⟨m, f⟩, ht, rfl⟩ := List.mem_map.mp hs
  have step := straight _ ht
  rw [dotted_node]
  cases f with
  | expressionStatement | returnStatement => rfl
  | _ => cases step

/-- Two functions that differ in nothing but their bodies. -/
inductive SameHead : Node → Node → Prop
  | intro (m : NodeId) (params : List Node) (name : Option Node) (isArrow : Bool) (body body' : List Node) :
    SameHead (.node m (.function params body name isArrow)) (.node m (.function params body' name isArrow))

theorem names_of_edit {g : Node → Node} (fixes : ∀ t : Node, t.form.isName → g t = t) {m : NodeId} {params body : List Node}
    {name : Option Node} {isArrow : Bool} (grammatical : Tree.Grammatical (.node m (.function params body name isArrow) : Node)) :
    params.map g = params ∧ name.map g = name := by
  have isName : ∀ q : Node, q ∈ params ∨ q ∈ name.toList → g q = q := fun q hq =>
    fixes q ((grammatical_node.mp grammatical).1 _ (name_place.mpr hq))
  constructor
  · rw [List.map_congr_left fun q hq => isName q (Or.inl hq), List.map_id']
  · cases name with
    | none => rfl
    | some q => rw [Option.map_some, isName q (Or.inr (by simp))]

theorem sameHead_of_surface (tree : root.IsFunctionTree) (tree' : other.IsFunctionTree) (same : surface other = surface root) :
    SameHead root other := by
  obtain ⟨m, params, body, name, isArrow, rfl⟩ := tree.exists_node
  obtain ⟨m', params', body', name', isArrow', rfl⟩ := tree'.exists_node
  obtain ⟨first, second⟩ := names_of_edit (fun _ => outline_of_isName) tree.grammatical
  obtain ⟨first', second'⟩ := names_of_edit (fun _ => outline_of_isName) tree'.grammatical
  simp only [surface, mark_node, form_node, Form.map, first, second, first', second', Tree.node.injEq,
    Form.function.injEq] at same
  obtain ⟨rfl, rfl, -, rfl, rfl⟩ := same
  exact .intro ..

theorem sameHead_normaliseMembers (tree : root.IsFunctionTree) : SameHead root root.normaliseMembers.node := by
  obtain ⟨m, params, body, name, isArrow, rfl⟩ := tree.exists_node
  have fixes : ∀ t : Node, t.form.isName → dotted t = t := by
    intro t h
    obtain ⟨k, x, rfl⟩ := form_of_isName h
    rw [dotted_node]
    rfl
  obtain ⟨first, second⟩ := names_of_edit fixes tree.grammatical
  rw [node_normaliseMembers, Form.map, first, second]
  exact .intro ..

/-- What a name means where a function that declares nothing but its parameters and its name runs. -/
def meaning (root : Node) (x : Text) : Option BindingId :=
  match root.form with
  | .function params _ name _ => Scope.lookup x ((reach root.mark params name).map Frame.scope)
  | _ => none

theorem SameHead.meaning (h : SameHead root other) : other.meaning = root.meaning := by
  cases h
  rfl

theorem SameHead.peers (h : SameHead root other) (distinct : root.Distinct) (distinct' : other.Distinct) (ns : Namespace)
    (v : Value) : Folder.Peers (Folder.seeded ns root v) (Folder.seeded ns other v) := by
  cases h
  refine ⟨rfl, ?_, rfl, rfl, rfl⟩
  rw [seeded_values ns v distinct, seeded_values ns v distinct']

theorem GivesArray.reads (h : GivesArray root e) (straight : root.IsStraight) (tree : root.IsFunctionTree) {F : Folder}
    (resolved : F.binding? = (of root).bindingOf) : F.Reads root.meaning e := by
  obtain ⟨⟨k, f⟩, first, form, -⟩ := h
  obtain ⟨m, params, body, name, isArrow, rfl⟩ := tree.exists_node
  cases form
  have inside : .node k (.returnStatement (some e)) ∈ body := List.mem_of_find?_eq_some first
  have place : (⟨.expression, false, false, e⟩ : Place Node) ∈ (Form.returnStatement (some e)).places := .head _
  have seen : ∀ s ∈ e.sights false (reach m params name), s ∈ overview (.node m (.function params body name isArrow)) :=
    fun s hs => sights_trans (statement_sight tree straight inside) (mem_sights_node.mpr (Or.inr ⟨_, place, rfl, hs⟩))
  exact Folder.reads_of_sights tree.distinct resolved seen

theorem GivesArray.alike (gives : GivesArray root e) (straight : root.IsStraight) (tree : root.IsFunctionTree) {e' : Node}
    (gives' : GivesArray other e') (straight' : other.IsStraight) (tree' : other.IsFunctionTree) (head : SameHead root other)
    (step : ∀ {F G : Folder} {names}, F.Peers G → F.Reads names (outline e) → G.Reads names (outline e') →
      Folder.Alike F G (outline e) (outline e')) (ns : Namespace) (v : Value) :
    Folder.Alike (Folder.seeded ns root v) (Folder.seeded ns other v) e e' := by
  have first := Folder.reads_outline (gives.reads straight tree (F := Folder.seeded ns root v) rfl)
  have second := Folder.reads_outline (gives'.reads straight' tree' (F := Folder.seeded ns other v) rfl)
  rw [head.meaning] at second
  have between := step (head.peers tree.distinct tree'.distinct ns v) first second
  exact ((Folder.alike_outline rfl e).trans between).trans (Folder.alike_outline rfl e').symm

/-- A function of this kind that returns what another function returned, for every value of the parameter. -/
structure Mirrors (ns : Namespace) (root e now e' : Node) : Prop where
  tree : now.IsFunctionTree
  straight : now.IsStraight
  gives : GivesArray now e'
  undotted : (outline e').Undotted
  alike : ∀ v, Folder.Alike (Folder.seeded ns root v) (Folder.seeded ns now v) e e'

namespace Mirrors

variable {ns : Namespace} {now e' : Node}

theorem refl (tree : root.IsFunctionTree) (undotted : root.Undotted) (straight : root.IsStraight) (gives : GivesArray root e) :
    Mirrors ns root e root e := by
  have inside := (returned_of_resultExpression (gives.result tree)).mem_walk
  exact ⟨tree, straight, gives, Folder.undotted_outline fun n hn => undotted n (walk_trans inside hn), fun _ => .refl _ e⟩

variable (h : Mirrors ns root e now e')

include h

theorem of_surface (tree : other.IsFunctionTree) (same : surface other = surface now) : ∃ e₁, Mirrors ns root e other e₁ := by
  obtain ⟨e₁, gives, outlines⟩ := h.gives.of_surface same
  have straight := h.straight.of_surface same
  refine ⟨e₁, tree, straight, gives, outlines ▸ h.undotted, fun v => (h.alike v).trans ?_⟩
  refine h.gives.alike h.straight h.tree gives straight tree (sameHead_of_surface h.tree tree same) ?_ ns v
  intro F G names peers first second
  rw [outlines] at second ⊢
  exact Folder.alike_of_reads peers first second

theorem eliminateAliases : ∃ e₁, Mirrors ns root e now.eliminateAliases.root e₁ :=
  h.of_surface h.tree.eliminateAliases (surface_eliminateAliases h.straight h.tree)

theorem recoverStrings {v : Recovery} (recovered : now.recoverStrings ns = .ok (some v)) : ∃ e₁, Mirrors ns root e v.root e₁ :=
  h.of_surface (h.tree.recoverStrings recovered) (surface_recoverStrings h.straight h.tree recovered)

theorem normaliseMembers : Mirrors ns root e now.normaliseMembers.node (dotted e') := by
  have tree := h.tree.normaliseMembers
  have straight := h.straight.normaliseMembers
  have gives := h.gives.normaliseMembers
  have shown : outline (dotted e') = dotted (outline e') := outline_dotted e'
  refine ⟨tree, straight, gives, ?_, fun v => (h.alike v).trans ?_⟩
  · rw [shown]
    exact Folder.undotted_dotted h.undotted
  · refine h.gives.alike h.straight h.tree gives straight tree (sameHead_normaliseMembers h.tree) ?_ ns v
    intro F G names peers first second
    rw [shown] at second ⊢
    exact Folder.alike_dotted peers first second

/-- The folded array has the value that the array had, for every value of the parameter. -/
theorem evaluate {folded : FoldedFunction} (done : now.foldResult ns = .ok folded) (v : Value) :
    ((Folder.seeded ns root v).evaluate e).Alike ((Folder.seeded ns folded.function v).evaluate folded.result) := by
  obtain ⟨e₁, folds⟩ := exists_isFolded done
  have result := h.gives.result h.tree
  obtain rfl : e₁ = e' := Except.ok.inj (folds.result.symm.trans result)
  have first : (Folder.symbolic ns now).fold (outline e₁) = .ok folded.result.shape :=
    ((Folder.alike_outline rfl e₁).fold _).mp folds.folds
  have exchanged := fold_exchange_through h.tree h.undotted (returned_of_resultExpression result) Folder.reads_outline
    folds.distinct folds.apart folds.expression ns first v
  rw [Folder.evaluate, Folder.evaluate, folds.function, exchanged]
  exact ((h.alike v).trans (Folder.alike_outline rfl e₁)).fold.bind fun _ => .refl _

end Mirrors

end Node

end Unravel
