import Unravel.Scope

/-! How the declarations of a scope are merged into bindings. What a scope knows of a name depends only on the
   declarations of that name, in their order. -/
namespace Unravel

open List

namespace Scope

/-- A binding after one more declaration of its name. -/
def merge (known : Option Binding) (d : Declaration) : Option Binding :=
  match known with
  | none => some ⟨d.name, d.kind, d.node, [d.node]⟩
  | some b => some (redeclare b d)

theorem name_redeclare (b : Binding) (d : Declaration) : (redeclare b d).name = b.name := by
  unfold redeclare
  split <;> rfl

theorem declarations_redeclare (b : Binding) (d : Declaration) :
    (redeclare b d).declarations = b.declarations ++ [d.node] := by
  unfold redeclare
  split <;> rfl

theorem find?_enterName (d : Declaration) (bs : List Binding) (name : Text) :
    (enterName d bs).find? (fun b => b.name == name) =
      if d.name = name then merge (bs.find? fun b => b.name == name) d else bs.find? fun b => b.name == name := by
  induction bs with
  | nil => by_cases same : d.name = name <;> simp [enterName, merge, same]
  | cons b rest ih =>
    by_cases here : b.name = d.name
    · by_cases same : d.name = name <;> simp [enterName, merge, here, same, name_redeclare]
    · rw [enterName, if_neg here, find?_cons, ih, find?_cons]
      by_cases same : d.name = name
      · have other : (b.name == name) = false := beq_eq_false_iff_ne.mpr fun h => here (h.trans same.symm)
        rw [other, if_pos same]
      · simp only [same, if_false]

theorem find?_ofDeclarations (owner : Option NodeId) (ds : List Declaration) (name : Text) :
    (ofDeclarations owner ds).find? name = (ds.filter fun d => d.name = name).foldl merge none := by
  have from_any : ∀ s : Scope, (ds.foldl declare s).find? name =
      (ds.filter fun d => d.name = name).foldl merge (s.find? name) := by
    induction ds with
    | nil => exact fun s => rfl
    | cons d rest ih =>
      intro s
      rw [foldl_cons, ih]
      have step : (s.declare d).find? name = if d.name = name then merge (s.find? name) d else s.find? name :=
        find?_enterName d s.bindings name
      by_cases same : d.name = name <;> simp [step, same]
  rw [ofDeclarations, from_any]
  rfl

theorem owner_ofDeclarations (owner : Option NodeId) (ds : List Declaration) :
    (ofDeclarations owner ds).owner = owner := by
  have from_any : ∀ s : Scope, (ds.foldl declare s).owner = s.owner := by
    induction ds with
    | nil => exact fun s => rfl
    | cons d rest ih => exact fun s => ih _
  exact from_any _

theorem merge_all (d : Declaration) (ds : List Declaration) :
    ∃ b, (d :: ds).foldl merge none = some b ∧ b.name = d.name ∧ b.declarations = (d :: ds).map (·.node) := by
  have from_any : ∀ b : Binding, ∃ c, ds.foldl merge (some b) = some c ∧ c.name = b.name ∧
      c.declarations = b.declarations ++ ds.map (·.node) := by
    induction ds with
    | nil => exact fun b => ⟨b, rfl, rfl, (append_nil _).symm⟩
    | cons e rest ih =>
      intro b
      obtain ⟨c, found, name, declarations⟩ := ih (redeclare b e)
      refine ⟨c, found, name.trans (name_redeclare b e), ?_⟩
      rw [declarations, declarations_redeclare, append_assoc]
      rfl
  exact from_any ⟨d.name, d.kind, d.node, [d.node]⟩

theorem declares_iff {s : Scope} {name : Text} : s.declares name ↔ (s.find? name).isSome := by
  rw [declares, find?, find?_isSome, any_eq_true]

theorem declares_ofDeclarations {owner : Option NodeId} {ds : List Declaration} {name : Text} :
    (ofDeclarations owner ds).declares name ↔ ∃ d ∈ ds, d.name = name := by
  rw [declares_iff, find?_ofDeclarations]
  cases named : ds.filter fun d => d.name = name with
  | nil =>
    rw [filter_eq_nil_iff] at named
    simpa using named
  | cons d rest =>
    obtain ⟨b, found, -⟩ := merge_all d rest
    have hd : d ∈ ds.filter fun d => d.name = name := named ▸ (.head _)
    rw [mem_filter] at hd
    rw [found]
    exact ⟨fun _ => ⟨d, hd.1, of_decide_eq_true hd.2⟩, fun _ => rfl⟩

end Scope

end Unravel
