import Mathlib.Data.List.Forall2
import Unravel.Fault

/-! A computation that can fail succeeds if each of its steps does. -/
namespace Unravel.Outcome

open List

variable {α β : Type}

theorem bind_eq_ok {x : Outcome α} {f : α → Outcome β} {b : β} :
    (x >>= f) = .ok b ↔ ∃ a, x = .ok a ∧ f a = .ok b := by
  cases x with
  | error e => exact ⟨nofun, nofun⟩
  | ok a => exact ⟨fun h => ⟨a, rfl, h⟩, fun ⟨_, same, h⟩ => by cases same; exact h⟩

theorem mapM_eq_ok {f : α → Outcome β} {g : α → β} {l : List α} (each : ∀ a ∈ l, f a = .ok (g a)) :
    l.mapM f = .ok (l.map g) := by
  induction l with
  | nil => rfl
  | cons a rest ih =>
    rw [mapM_cons, each a (.head _), ih fun b hb => each b (.tail a hb)]
    rfl

theorem forall₂_of_mapM {f : α → Outcome β} {l : List α} {r : List β} (h : l.mapM f = .ok r) :
    List.Forall₂ (fun a b => f a = .ok b) l r := by
  induction l generalizing r with
  | nil =>
    cases h
    exact List.Forall₂.nil
  | cons a rest ih =>
    rw [mapM_cons] at h
    obtain ⟨b, here, h⟩ := bind_eq_ok.mp h
    obtain ⟨bs, others, h⟩ := bind_eq_ok.mp h
    cases h
    exact List.Forall₂.cons here (ih others)

theorem foldlM_keeps {step : β → α → Outcome β} {l : List α} {b c : β} (h : l.foldlM step b = .ok c)
    (P : β → Prop) (start : P b) (keeps : ∀ a ∈ l, ∀ b b', P b → step b a = .ok b' → P b') : P c := by
  induction l generalizing b with
  | nil =>
    cases h
    exact start
  | cons a rest ih =>
    rw [foldlM_cons] at h
    obtain ⟨b', first, h⟩ := bind_eq_ok.mp h
    refine ih h (keeps a (.head _) b b' start first) fun c hc => keeps c (.tail a hc)

theorem exists_step_of_foldlM {step : β → α → Outcome β} {l : List α} {b c : β} (h : l.foldlM step b = .ok c) {a : α}
    (ha : a ∈ l) : ∃ before after, step before a = .ok after := by
  induction l generalizing b with
  | nil => cases ha
  | cons x rest ih =>
    rw [foldlM_cons] at h
    obtain ⟨next, first, h⟩ := bind_eq_ok.mp h
    rcases mem_cons.mp ha with rfl | ha
    · exact ⟨b, next, first⟩
    · exact ih h ha

theorem eq_ok_of_toOption {ε : Type} {x : Except ε α} {a : α} (h : x.toOption = some a) : x = .ok a := by
  cases x with
  | ok b =>
    cases h
    rfl
  | error e => cases h

theorem exists_ok_of_any {ε : Type} {x : Except ε α} {p : α → Bool} (h : x.toOption.any p) : ∃ a, x = .ok a ∧ p a := by
  obtain ⟨a, found, holds⟩ := (Option.any_eq_true _ _).mp h
  exact ⟨a, eq_ok_of_toOption found, holds⟩

theorem exists_some_of_any {ε : Type} {x : Except ε (Option α)} {p : α → Bool} (h : x.toOption.any fun o => o.any p) :
    ∃ a, x = .ok (some a) ∧ p a := by
  obtain ⟨o, found, h⟩ := exists_ok_of_any h
  obtain ⟨a, rfl, holds⟩ := (Option.any_eq_true _ _).mp h
  exact ⟨a, found, holds⟩

/-- Whatever a computation gives has a property. -/
def Gives {α : Type} (x : Outcome α) (P : α → Prop) : Prop := ∀ a, x = .ok a → P a

section Gives

variable {α β : Type} {P : α → Prop} {Q : β → Prop}

theorem gives_ok {a : α} (h : P a) : Gives (.ok a) P := by
  intro b same
  cases same
  exact h

theorem gives_pure {a : α} (h : P a) : Gives (pure a) P := gives_ok h

theorem gives_error (f : Fault) : Gives (.error f) P := nofun

theorem gives_throw (f : Fault) : Gives (throw f) P := nofun

theorem Gives.bind {x : Outcome α} {f : α → Outcome β} (h : x.Gives P) (next : ∀ a, P a → (f a).Gives Q) :
    Gives (x >>= f) Q := by
  intro b result
  obtain ⟨a, first, second⟩ := bind_eq_ok.mp result
  exact next a (h a first) b second

theorem gives_after {x : Outcome α} {f : α → Outcome β} (next : ∀ a, (f a).Gives Q) : Gives (x >>= f) Q :=
  Gives.bind (P := fun _ => True) (fun _ _ => trivial) fun a _ => next a

theorem gives_mapM {l : List α} {f : α → Outcome β} (h : ∀ a ∈ l, (f a).Gives Q) : Gives (l.mapM f) fun bs => ∀ b ∈ bs, Q b := by
  induction l with
  | nil => exact gives_pure nofun
  | cons a rest ih =>
    rw [mapM_cons]
    refine (h a (.head _)).bind fun b hb => (ih fun c hc => h c (.tail a hc)).bind fun bs hbs => ?_
    exact gives_pure (forall_mem_cons.mpr ⟨hb, hbs⟩)

theorem gives_ite {c : Prop} [Decidable c] {x y : Outcome α} (yes : c → x.Gives P) (no : ¬ c → y.Gives P) :
    Gives (if c then x else y) P := by
  split
  next h => exact yes h
  next h => exact no h

end Gives

/-- Whatever a computation gives has one property, and whatever goes wrong in it another. -/
def Ends {α : Type} (x : Outcome α) (P : α → Prop) (E : Fault → Prop) : Prop :=
  match x with
  | .ok a => P a
  | .error f => E f

/-- Nothing goes wrong. -/
abbrev Succeeds {α : Type} (x : Outcome α) : Prop := x.Ends (fun _ => True) fun _ => False

section Ends

variable {α β : Type} {P : α → Prop} {Q : β → Prop} {E : Fault → Prop}

theorem ends_pure {a : α} (h : P a) : Ends (pure a) P E := h

theorem ends_throw {f : Fault} (h : E f) : Ends (throw f : Outcome α) P E := h

theorem Ends.bind {x : Outcome α} {f : α → Outcome β} (h : x.Ends P E) (next : ∀ a, P a → (f a).Ends Q E) :
    Ends (x >>= f) Q E := by
  cases x with
  | ok a => exact next a h
  | error fault => exact h

theorem Ends.map {x : Outcome α} {f : α → β} (h : x.Ends P E) (next : ∀ a, P a → Q (f a)) :
    Ends (do return f (← x)) Q E := h.bind fun a ha => ends_pure (next a ha)

theorem ends_ite {c : Prop} [Decidable c] {x y : Outcome α} (yes : c → x.Ends P E) (no : ¬ c → y.Ends P E) :
    Ends (if c then x else y) P E := by
  split
  next h => exact yes h
  next h => exact no h

theorem Ends.mono {x : Outcome α} {P' : α → Prop} {E' : Fault → Prop} (h : x.Ends P E) (weaker : ∀ a, P a → P' a)
    (wider : ∀ f, E f → E' f) : x.Ends P' E' := by
  cases x with
  | ok a => exact weaker a h
  | error f => exact wider f h

theorem Ends.imp {x : Outcome α} {P' : α → Prop} (h : x.Ends P E) (weaker : ∀ a, P a → P' a) : x.Ends P' E :=
  h.mono weaker fun _ => id

theorem Ends.widen {x : Outcome α} {E' : Fault → Prop} (h : x.Ends P E) (wider : ∀ f, E f → E' f) : x.Ends P E' :=
  h.mono (fun _ => id) wider

theorem Ends.of_ok {x : Outcome α} {a : α} (h : x.Ends P E) (same : x = .ok a) : P a := by
  rw [same] at h
  exact h

theorem Ends.of_error {x : Outcome α} {f : Fault} (h : x.Ends P E) (same : x = .error f) : E f := by
  rw [same] at h
  exact h

theorem Succeeds.ends {x : Outcome α} (h : x.Succeeds) : x.Ends (fun _ => True) E := h.mono (fun _ => id) nofun

theorem Succeeds.exists_ok {x : Outcome α} (h : x.Succeeds) : ∃ a, x = .ok a := by
  cases x with
  | ok a => exact ⟨a, rfl⟩
  | error f => exact h.elim

theorem ends_mapM {l : List α} {f : α → Outcome β} (h : ∀ a ∈ l, (f a).Ends Q E) :
    Ends (l.mapM f) (fun bs => ∀ b ∈ bs, Q b) E := by
  induction l with
  | nil => exact ends_pure nofun
  | cons a rest ih =>
    rw [mapM_cons]
    refine (h a (.head _)).bind fun b hb => ?_
    refine (ih fun c hc => h c (.tail a hc)).bind fun bs hbs => ends_pure ?_
    intro c hc
    rcases mem_cons.mp hc with rfl | hc
    · exact hb
    · exact hbs c hc

theorem ends_foldlM {step : β → α → Outcome β} {l : List α} {b : β} (start : Q b)
    (each : ∀ a ∈ l, ∀ b, Q b → (step b a).Ends Q E) : Ends (l.foldlM step b) Q E := by
  induction l generalizing b with
  | nil => exact start
  | cons a rest ih =>
    rw [foldlM_cons]
    refine (each a (.head _) b start).bind fun c hc => ih hc ?_
    exact fun d hd => each d (.tail a hd)

theorem succeeds_mapM {l : List α} {f : α → Outcome β} (h : ∀ a ∈ l, (f a).Succeeds) : Succeeds (l.mapM f) :=
  (ends_mapM h).imp fun _ _ => trivial

end Ends

end Unravel.Outcome
