import Unravel.Proofs.Pass.Runs
import Unravel.Proofs.Pass.Trees

/-! A pass that fails has changed nothing: all that can go wrong about a tree goes wrong before the tree is changed. The
   one thing done later, showing the folded result in the report, never goes wrong. -/
namespace Unravel

theorem Node.renders_foldResult {t : Node} {ns : Namespace} {folded : FoldedFunction} (h : t.foldResult ns = .ok folded) :
    folded.result.renderExpression.Succeeds := by
  obtain ⟨e, done⟩ := exists_isFolded h
  exact done.grammatical.renders done.expression

namespace Pass

variable {c : Context} {t : Node} {fault : Fault}

theorem foldResult_unchanged (tree : c.tree = some t) (failed : (foldResult c).1 = .error fault) :
    foldResult c = (.error fault, c) := by
  rcases foldResult_run tree with ⟨fault', -, run⟩ | ⟨folded, done, ⟨text, report, -, run⟩ | ⟨fault', shown, run⟩⟩
  · rw [run] at failed ⊢
    cases failed
    rfl
  · rw [run] at failed
    cases failed
  · have renders := Node.renders_foldResult done
    rw [shown] at renders
    exact renders.elim

theorem recoverStrings_unchanged (tree : c.tree = some t) (failed : (recoverStrings c).1 = .error fault) :
    recoverStrings c = (.error fault, c) := by
  rcases recoverStrings_run tree with ⟨fault', -, run⟩ | ⟨-, run⟩ | ⟨r, report, -, run⟩
  · rw [run] at failed ⊢
    cases failed
    rfl
  · rw [run] at failed
    cases failed
  · rw [run] at failed
    cases failed

theorem unchanged_of_error {step : Step Datum} (listed : step ∈ rewriting) (failed : (step c).1 = .error fault) :
    step c = (.error fault, c) := by
  simp only [rewriting, List.mem_cons, List.not_mem_nil, or_false] at listed
  cases tree : c.tree with
  | none =>
    -- without a tree a pass is skipped
    rcases listed with rfl | rfl | rfl | rfl <;>
      exact absurd ((congrArg Prod.fst (onTree_of_none _ tree)).symm.trans failed) nofun
  | some t =>
    rcases listed with rfl | rfl | rfl | rfl
    · obtain ⟨report, run⟩ := eliminateAliases_run tree
      rw [run] at failed
      cases failed
    · exact recoverStrings_unchanged tree failed
    · obtain ⟨report, run⟩ := normaliseMembers_run tree
      rw [run] at failed
      cases failed
    · exact foldResult_unchanged tree failed

/-- A pool whose second use has no index: the first one is planned, and then the pass fails. -/
def halfPlanned : Text :=
  "function(a)\x7bfunction p()\x7bvar s=['x','y'];return s\x7dfunction g(i)\x7bi=i-0;return p()[i]\x7d" ++
    "(function(q,t)\x7bvar c=1+0\x7d)(p,1);return [g(0),g(0/0),3]\x7d"

end Pass

end Unravel
