import Unravel.Proofs.Fold.Result

/-! Folding the result of a function a second time. The first folding changes the tree at the returned expression and nowhere
   else; what it puts there is found again, and it folds to itself. -/
namespace Unravel

open Outcome Resolution

namespace Node

/-- Two trees that come to be the same when one subtree in each makes way for a third tree. -/
structure DifferOnlyAt (t u e k : Node) : Prop where
  left : e ∈ t.walk
  right : k ∈ u.walk
  rest : ∀ hole, substitute (exchange e hole) t = substitute (exchange k hole) u

section Exchange

variable {e fresh hole t : Node}

theorem exchange_exchange (apart : fresh.mark ∉ t.ids) :
    substitute (exchange fresh hole) (substitute (exchange e fresh) t) = substitute (exchange e hole) t := by
  induction t with
  | node m f ih =>
    by_cases here : m = e.mark
    · have found : ∀ new, exchange e new (.node m f) = some new := fun new => if_pos here
      rw [substitute_of_some (found fresh), substitute_of_some (found hole), substitute_of_some (exchange_self fresh hole)]
    · have kept : ∀ new, exchange e new (.node m f) = none := fun new => if_neg here
      have other : m ≠ fresh.mark := fun same => apart (same ▸ mark_mem_ids (self_mem_walk (.node m f)))
      rw [substitute_of_none (kept fresh), substitute_of_none (kept hole), substitute_of_none (if_neg other), Form.map_map]
      refine congrArg _ (Form.map_congr fun c hc => ih c hc fun member => apart ?_)
      rw [ids_node]
      exact .tail m (List.mem_flatMap.mpr ⟨c, hc, member⟩)

theorem shape_exchange {root : Node} (distinct : root.Distinct) (inside : e ∈ root.walk) (same : fresh.shape = e.shape)
    (ht : t ∈ root.walk) : (substitute (exchange e fresh) t).shape = t.shape := by
  induction t with
  | node m f ih =>
    cases exchanged : exchange e fresh (.node m f) with
    | some r =>
      obtain ⟨rfl, rfl⟩ := exchange_eq_some distinct inside ht exchanged
      rw [substitute_of_some exchanged, same]
    | none =>
      rw [substitute_of_none exchanged, Tree.shape_node, Tree.shape_node, Form.map_map]
      refine congrArg _ (Form.map_congr fun c hc => ih c hc ?_)
      exact walk_trans ht (mem_walk_of_child m hc (self_mem_walk c))

end Exchange

open Folder

theorem foldedResult_of_triple {ns : Namespace} {function e : Node} {a b c : Shape} (triple : e.shape = Folder.node (.array [a, b, c]))
    (folds : (symbolic ns function).fold e = .ok e.shape) : foldedResult ns function e = .ok e.shape := by
  obtain ⟨m, es, rfl, shapes⟩ := array_of_shape triple
  have three : es.length = 3 := by rw [← List.length_map (f := Tree.shape), shapes]; rfl
  rw [foldedResult]
  change (if es.length ≠ 3 then _ else _) = _
  rw [if_neg (not_not_intro three)]
  refine bind_eq_ok.mpr ⟨_, folds, ?_⟩
  rw [triple]
  rfl

/-- What folding the result of a function does to it. -/
structure IsFolding (ns : Namespace) (root e : Node) (folded : FoldedFunction) : Prop where
  result : resultExpression root = .ok e
  function : folded.function = substitute (exchange e folded.result) root
  folds : (symbolic ns root).fold e = .ok folded.result.shape
  triple : ∃ a b c, folded.result.shape = Folder.node (.array [a, b, c])
  distinct : folded.result.Distinct
  apart : ∀ x ∈ folded.result.ids, x ∉ root.ids

theorem isFolding_of_foldResult {ns : Namespace} {root : Node} {folded : FoldedFunction} (h : foldResult ns root = .ok folded) :
    ∃ e, IsFolding ns root e folded := by
  obtain ⟨e, result, h⟩ := bind_eq_ok.mp h
  obtain ⟨r, folds, h⟩ := bind_eq_ok.mp h
  cases h
  obtain ⟨first, a, b, c, triple⟩ := foldedResult_eq_ok folds
  have new : (r.numberFrom (nextId root)).shape = r := (Tree.shape_numberFrom r (nextId root)).trans r.shape_self
  refine ⟨e, result, rfl, first.trans (congrArg Except.ok new.symm), ⟨a, b, c, new.trans triple⟩,
    Tree.distinct_numberFrom r (nextId root), fun x hx old => ?_⟩
  exact absurd (lt_nextId old) (Nat.not_lt.mpr (Tree.le_of_mem_numberFrom hx))

namespace IsFolding

variable {ns : Namespace} {root e : Node} {folded : FoldedFunction} (h : IsFolding ns root e folded)

include h

theorem returned : Returned root e := returned_of_resultExpression h.result

theorem array : ∃ es, folded.result.form = .array es := by
  obtain ⟨a, b, c, triple⟩ := h.triple
  obtain ⟨m, es, same, -⟩ := array_of_shape triple
  exact ⟨es, congrArg Tree.form same⟩

theorem expression : folded.result.form.isExpression := by
  obtain ⟨es, array⟩ := h.array
  rw [array]
  rfl

variable (tree : root.IsFunctionTree)

include tree

theorem distinct_function : folded.function.Distinct := by
  rw [h.function]
  exact tree.distinct.substitute (.single tree.distinct h.distinct h.apart e.mark)

theorem result_again : resultExpression folded.function = .ok folded.result := by
  obtain ⟨es, array⟩ := h.array
  have replaced := isReturn_of_isExpression (sight_of_returned tree h.returned).1
  rw [h.function]
  exact (found_substitute tree.distinct h.returned.mem_walk replaced array (self_mem_walk root)).1 h.result

theorem differOnlyAt : DifferOnlyAt root folded.function e folded.result where
  left := h.returned.mem_walk
  right := (returned_of_resultExpression (h.result_again tree)).mem_walk
  rest hole := by
    rw [h.function]
    exact (exchange_exchange (h.apart _ (mark_mem_ids (self_mem_walk folded.result)))).symm

/-- What is left of an expression folds to itself where it stands now: both foldings leave the same names free. -/
theorem folds_again (undotted : root.Undotted) : (symbolic ns folded.function).fold folded.result = .ok folded.result.shape := by
  have after := h.distinct_function tree
  rw [h.function] at after ⊢
  have plain : e.Undotted := fun n hn => undotted n (walk_trans h.returned.mem_walk hn)
  have stages : Stages (symbolic ns root) (symbolic ns root) (symbolic ns (substitute (exchange e folded.result) root)) :=
    ⟨rfl, rfl, rfl, rfl, rfl, (parameters_exchange tree h.returned h.expression after ns).2⟩
  exact (fold_staged tree plain h.returned id h.expression after stages rfl rfl h.folds).trans h.folds

end IsFolding

/-- Folding the result of a function changes the tree at the returned expression alone. Folding it a second time finds the
folded array and gives the same array again. -/
theorem folding_again (ns : Namespace) (root : Node) (tree : root.IsFunctionTree) (undotted : root.Undotted)
    (folded : FoldedFunction) (h : foldResult ns root = .ok folded) :
    ∃ e, resultExpression root = .ok e ∧ DifferOnlyAt root folded.function e folded.result ∧
      resultExpression folded.function = .ok folded.result ∧
      ∃ again, foldResult ns folded.function = .ok again ∧ again.result.shape = folded.result.shape ∧
        again.function.shape = folded.function.shape := by
  obtain ⟨e, first⟩ := isFolding_of_foldResult h
  obtain ⟨a, b, c, triple⟩ := first.triple
  have found := first.result_again tree
  have folds := foldedResult_of_triple triple (first.folds_again tree undotted)
  have inside := (first.differOnlyAt tree).right
  have new : (folded.result.shape.numberFrom (nextId folded.function)).shape = folded.result.shape :=
    (Tree.shape_numberFrom _ _).trans (Tree.shape_self _)
  refine ⟨e, first.result, first.differOnlyAt tree, found, _,
    bind_eq_ok.mpr ⟨_, found, bind_eq_ok.mpr ⟨_, folds, rfl⟩⟩, new, ?_⟩
  exact shape_exchange (first.distinct_function tree) inside new (Tree.self_mem_walk _)

/-- A function that returns an array from within another function, with numbers that are hard to keep. -/
def nestedArray : Node :=
  .node 0 (.function [.node 1 (.identifier "a")]
    [.node 2 (.returnStatement (some (.node 3 (.call (.node 4 (.function []
      [.node 5 (.returnStatement (some (.node 6 (.array
        [.node 7 (.array [.node 8 (.identifier "a"), .node 9 (.unary .minus (.node 10 (.number (.zero false))))]),
          .node 11 (.binary .div (.node 12 (.number (.zero false))) (.node 13 (.number (.zero false)))),
          .node 14 (.call (.node 15 (.index (.node 16 (.identifier "Math")) (.node 17 (.string "max"))))
            [.node 18 (.identifier "a"), .node 19 (.identifier "Infinity")])]))))] none false)) []))))] none false)

theorem nestedArray_folds_again :
    nestedArray.IsFunctionTree ∧ nestedArray.Undotted ∧ ∃ folded again, foldResult .standard nestedArray = .ok folded ∧
      folded.result.isLiteral = false ∧ foldResult .standard folded.function = .ok again ∧
      again.result.shape = folded.result.shape := by
  have tree : nestedArray.IsFunctionTree := ⟨⟨_, _, _, _, rfl⟩, by decide, by decide⟩
  have undotted : ∀ n ∈ nestedArray.walk, n.form.isUndotted := by decide
  have evaluated : (foldResult .standard nestedArray).toOption.any fun folded => !folded.result.isLiteral := by decide
  obtain ⟨folded, h, symbolic⟩ := exists_ok_of_any evaluated
  obtain ⟨-, -, -, -, again, second, same, -⟩ := folding_again .standard nestedArray tree undotted folded h
  exact ⟨tree, undotted, folded, again, h, by simpa using symbolic, second, same⟩

end Node

end Unravel
