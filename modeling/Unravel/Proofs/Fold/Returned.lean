import Mathlib.Data.List.Find
import Unravel.Result
import Unravel.Proofs.Outcome
import Unravel.Proofs.Syntax.Edits

/-! Where the expression that a function returns stands, and that what is put in its place is returned instead. -/
namespace Unravel.Node

open Outcome

variable {f : Form Node} {e n t : Node} {ρ : Type}

def found (t : Node) : Found := t.para foundLayer

section Layers

variable (m : NodeId)

theorem found_function (params body : List Node) (name : Option Node) (isArrow : Bool) :
    (found (.node m (.function params body name isArrow))).asBody =
      match body.find? fun s => isReturn s.form with
      | some s => s.found.asBody
      | none => .error .noReturn := by
  rw [found, para_node]
  change (foundLayer m (.function _ (body.map fun c => (c, c.para foundLayer)) _ _)).asBody = _
  have first : (body.map fun c => (c, c.para foundLayer)).find? (fun s => isReturn s.1.form) =
      (body.find? fun s => isReturn s.form).map fun c => (c, c.para foundLayer) := List.find?_map
  rw [foundLayer, first]
  cases body.find? fun s => isReturn s.form with
  | none => rfl
  | some s => rfl

theorem found_return (x : Node) : (found (.node m (.returnStatement (some x)))).asBody = x.found.asValue := by
  rw [found, para_node]
  rfl

theorem found_call {callee : Node} (plain : isPlainFunction callee.form) :
    (found (.node m (.call callee []))).asValue = callee.found.asBody := by
  rw [found, para_node]
  change (if isPlainFunction callee.form then Found.mk _ _ else _).asValue = _
  rw [if_pos plain]
  rfl

theorem asBody_cases (h : (found (.node m f)).asBody = .ok e) :
    (∃ params body name isArrow s, f = .function params body name isArrow ∧
      (body.find? fun s => isReturn s.form) = some s ∧ s.found.asBody = .ok e) ∨
    ∃ x, f = .returnStatement (some x) ∧ x.found.asValue = .ok e := by
  cases f with
  | function params body name isArrow =>
    rw [found_function] at h
    split at h
    next s first => exact Or.inl ⟨params, body, name, isArrow, s, rfl, first, h⟩
    next => cases h
  | returnStatement x =>
    cases x with
    | none =>
      rw [found, para_node] at h
      cases h
    | some x =>
      rw [found_return] at h
      exact Or.inr ⟨x, rfl, h⟩
  | call callee args =>
    rw [found, para_node] at h
    cases args with
    | nil =>
      change (if isPlainFunction callee.form then Found.mk _ _ else _).asBody = _ at h
      split at h
      next => cases h
      next => cases h
    | cons a rest => cases h
  | _ =>
    rw [found, para_node] at h
    cases h

theorem asValue_cases (h : (found (.node m f)).asValue = .ok e) :
    e = .node m f ∨ ∃ callee, f = .call callee [] ∧ isPlainFunction callee.form ∧ callee.found.asBody = .ok e := by
  have self : (.ok (.node m ((f.map fun c => (c, c.para foundLayer)).map (·.1))) : Outcome Node) = .ok e →
      e = .node m f := by
    intro same
    rw [Form.map_fst_pair] at same
    cases same
    rfl
  rw [found, para_node] at h
  cases f with
  | function params body name isArrow =>
    rw [Form.map, foundLayer] at h
    split at h
    next => exact Or.inl (self h)
    next => exact Or.inl (self h)
  | returnStatement x =>
    cases x with
    | none => exact Or.inl (self h)
    | some x => exact Or.inl (self h)
  | call callee args =>
    cases args with
    | nil =>
      change (if isPlainFunction callee.form then Found.mk _ _ else _).asValue = _ at h
      split at h
      next plain => exact Or.inr ⟨callee, rfl, plain, h⟩
      next => exact Or.inl (self h)
    | cons a rest => exact Or.inl (self h)
  | _ => exact Or.inl (self h)

end Layers

theorem noReturn_of_found {f : Fault} :
    (t.found.asBody = .error f → f = .noReturn) ∧ (t.found.asValue = .error f → f = .noReturn) := by
  induction t with
  | node m form ih =>
    have plain : ∀ {x : Outcome Node}, x = .error .noReturn → x = .error f → f = .noReturn := by
      intro x none failed
      rw [none] at failed
      cases failed
      rfl
    have succeeds : ∀ {x : Outcome Node} {y : Node}, x = .ok y → x = .error f → f = .noReturn := by
      intro x y ok failed
      cases ok.symm.trans failed
    cases form with
    | function params body name isArrow =>
      constructor
      · rw [found_function]
        cases first : body.find? fun s => isReturn s.form with
        | none => exact plain rfl
        | some s => exact (ih s (by simp [Form.children, List.mem_of_find?_eq_some first])).1
      · rw [found, para_node, Form.map, foundLayer]
        split
        · exact succeeds rfl
        · exact succeeds rfl
    | returnStatement x =>
      cases x with
      | none =>
        rw [found, para_node]
        exact ⟨plain rfl, succeeds rfl⟩
      | some x =>
        rw [found_return]
        refine ⟨(ih x (.head _)).2, ?_⟩
        rw [found, para_node]
        exact succeeds rfl
    | call callee args =>
      rw [found, para_node]
      cases args with
      | nil =>
        change ((if isPlainFunction callee.form then Found.mk _ _ else _).asBody = _ → _) ∧
          ((if isPlainFunction callee.form then Found.mk _ _ else _).asValue = _ → _)
        split
        · exact ⟨plain rfl, (ih callee (.head _)).1⟩
        · exact ⟨plain rfl, succeeds rfl⟩
      | cons a rest => exact ⟨plain rfl, succeeds rfl⟩
    | _ =>
      rw [found, para_node]
      exact ⟨plain rfl, succeeds rfl⟩

/-- An expression that some return in a tree has. -/
def Returned (t e : Node) : Prop := ∃ n ∈ t.walk, n.form = .returnStatement (some e)

theorem Returned.outer {m : NodeId} {c : Node} (h : Returned c e) (hc : c ∈ f.children) :
    Returned (.node m f) e := by
  obtain ⟨n, hn, form⟩ := h
  exact ⟨n, mem_walk_of_child m hc hn, form⟩

theorem Returned.mem_walk (h : Returned t e) : e ∈ t.walk := by
  obtain ⟨n, hn, form⟩ := h
  refine walk_trans hn (child_mem_walk ?_)
  rw [Tree.children, form]
  exact .head _

theorem returned :
    (t.found.asBody = .ok e → Returned t e) ∧ (t.found.asValue = .ok e → e = t ∨ Returned t e) := by
  induction t with
  | node m f ih =>
    constructor
    · intro h
      rcases asBody_cases m h with ⟨params, body, name, isArrow, s, rfl, first, gives⟩ | ⟨x, rfl, gives⟩
      · have child : s ∈ (Form.function params body name isArrow).children := by
          simp [Form.children, List.mem_of_find?_eq_some first]
        exact ((ih s child).1 gives).outer child
      · have child : x ∈ (Form.returnStatement (some x)).children := .head _
        rcases (ih x child).2 gives with rfl | inner
        · exact ⟨_, self_mem_walk _, rfl⟩
        · exact inner.outer child
    · intro h
      rcases asValue_cases m h with rfl | ⟨callee, rfl, -, gives⟩
      · exact Or.inl rfl
      · exact Or.inr (((ih callee (.head _)).1 gives).outer (.head _))

theorem returned_of_resultExpression (h : resultExpression t = .ok e) : Returned t e := returned.1 h

theorem Distinct.not_returned (h : e.Distinct) : ¬ Returned e e := by
  rintro ⟨n, hn, form⟩
  have child : e ∈ n.children := by
    rw [Tree.children, form]
    exact .head _
  obtain ⟨m, f⟩ := e
  have fresh := (distinct_node h).1
  rcases mem_walk_node.mp hn with rfl | ⟨c, hc, hn⟩
  · exact fresh _ child (mark_mem_ids (self_mem_walk _))
  · exact fresh c hc (mark_mem_ids (walk_trans hn (child_mem_walk child)))

theorem isReturn_of_isExpression {f : Form ρ} (h : f.isExpression) : isReturn f = false := by
  cases f with
  | returnStatement x => cases h
  | _ => rfl

theorem isReturn_map {σ : Type} (g : ρ → σ) (f : Form ρ) : isReturn (f.map g) = isReturn f := by
  cases f <;> rfl

theorem isPlainFunction_map {σ : Type} (g : ρ → σ) (f : Form ρ) : isPlainFunction (f.map g) = isPlainFunction f := by
  cases f with
  | function params body name isArrow => cases params <;> rfl
  | _ => rfl

section Replacement

variable {root e fresh : Node} (distinct : root.Distinct) (inside : e ∈ root.walk)

/-- Puts an expression in the place of another. -/
def exchange (e fresh : Node) (n : Node) : Option Node := if n.mark = e.mark then some fresh else none

theorem exchange_self (e fresh : Node) : exchange e fresh e = some fresh := if_pos rfl

include distinct inside

theorem exchange_eq_some {r : Node} (hn : n ∈ root.walk) (h : exchange e fresh n = some r) : n = e ∧ r = fresh := by
  rw [exchange] at h
  split at h
  next same =>
    cases h
    exact ⟨distinct.same_node hn inside same, rfl⟩
  next => cases h

theorem exchange_other (hn : n ∈ root.walk) (other : n ≠ e) : exchange e fresh n = none := by
  cases replaced : exchange e fresh n with
  | none => rfl
  | some r => exact absurd (exchange_eq_some distinct inside hn replaced).1 other

theorem exchange_of_returned (hn : n ∈ root.walk) (h : Returned n e) : exchange e fresh n = none := by
  refine exchange_other distinct inside hn ?_
  rintro rfl
  exact (distinct.subtree hn).not_returned h

theorem isReturn_substitute (expression : isReturn e.form = false) (replacement : isReturn fresh.form = false) {c : Node}
    (hc : c ∈ root.walk) : isReturn (substitute (exchange e fresh) c).form = isReturn c.form := by
  cases replaced : exchange e fresh c with
  | none =>
    obtain ⟨m, f⟩ := c
    rw [substitute_of_none replaced, form_node, form_node, isReturn_map]
  | some r =>
    obtain ⟨rfl, rfl⟩ := exchange_eq_some distinct inside hc replaced
    rw [substitute_of_some replaced, expression, replacement]

theorem find?_substitute (expression : isReturn e.form = false) (replacement : isReturn fresh.form = false)
    {body : List Node} (within : ∀ s ∈ body, s ∈ root.walk) :
    (body.map (substitute (exchange e fresh))).find? (fun s => isReturn s.form) =
      (body.find? fun s => isReturn s.form).map (substitute (exchange e fresh)) := by
  rw [List.find?_map]
  refine congrArg (Option.map _) (List.find?_congr fun s hs => ?_)
  exact isReturn_substitute distinct inside expression replacement (within s hs)

/-- A replacement is returned where the expression was. -/
theorem found_substitute (expression : isReturn e.form = false) {es : List Node} (array : fresh.form = .array es)
    (ht : t ∈ root.walk) :
    (t.found.asBody = .ok e → (found (substitute (exchange e fresh) t)).asBody = .ok fresh) ∧
      (t.found.asValue = .ok e → (found (substitute (exchange e fresh) t)).asValue = .ok fresh) := by
  have replacement : isReturn fresh.form = false := by
    rw [array]
    rfl
  induction t with
  | node m f ih =>
    have below : ∀ c ∈ f.children, c ∈ root.walk :=
      fun c hc => walk_trans ht (mem_walk_of_child m hc (self_mem_walk c))
    constructor
    · intro h
      have kept : exchange e fresh (.node m f) = none := exchange_of_returned distinct inside ht (returned.1 h)
      rw [substitute_of_none kept]
      rcases asBody_cases m h with ⟨params, body, name, isArrow, s, rfl, first, gives⟩ | ⟨x, rfl, gives⟩
      · have statements : ∀ s ∈ body, s ∈ (Form.function params body name isArrow).children := by
          intro s hs
          simp [Form.children, hs]
        have child := statements s (List.mem_of_find?_eq_some first)
        rw [Form.map, found_function,
          find?_substitute distinct inside expression replacement fun s hs => below s (statements s hs), first]
        exact (ih s child (below s child)).1 gives
      · rw [Form.map, Option.map_some, found_return]
        exact (ih x (.head _) (below x (.head _))).2 gives
    · intro h
      rcases asValue_cases m h with rfl | ⟨callee, rfl, plain, gives⟩
      · rw [substitute_of_some (exchange_self _ fresh)]
        obtain ⟨k, g⟩ := fresh
        cases array
        rw [found, para_node]
        change Except.ok (Tree.node k (((Form.array es).map fun c => (c, c.para foundLayer)).map (·.1))) = _
        rw [Form.map_fst_pair]
      · have inner := returned.1 gives
        have hc := below callee (.head _)
        have kept : exchange e fresh callee = none := exchange_of_returned distinct inside hc inner
        have plain' : isPlainFunction (substitute (exchange e fresh) callee).form := by
          obtain ⟨k, g⟩ := callee
          rwa [substitute_of_none kept, form_node, isPlainFunction_map]
        have whole : exchange e fresh (.node m (.call callee [])) = none :=
          exchange_of_returned distinct inside ht (inner.outer (.head _))
        rw [substitute_of_none whole, Form.map, List.map_nil, found_call m plain']
        exact (ih callee (.head _) hc).1 gives

end Replacement

end Unravel.Node
