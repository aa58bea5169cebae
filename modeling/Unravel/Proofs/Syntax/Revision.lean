import Unravel.Syntax.Edit
import Unravel.Proofs.Syntax.Numbering

/-! A revision never gives an identity twice. What it makes of a subtree has the identities of that subtree, or ones
   that were handed out while it was settled; this is kept from subtrees to lists and layers, and it also holds of what
   is left where a list could not be settled. -/
namespace Unravel

open List

namespace Form

variable {ρ σ S : Type} {R : S → List ρ → List σ → S → Prop} {one : ρ → StateM S σ} {maybe : ρ → StateM S (Option σ)}
  {many : List ρ → StateM S (List σ)}

attribute [local simp] children

/-- What an action keeps between the subtrees it is given and those it returns, it keeps for the whole layer. -/
theorem visit_children (nil : ∀ s, R s [] [] s)
    (append : ∀ {s s' s'' xs ys xs' ys'}, R s xs ys s' → R s' xs' ys' s'' → R s (xs ++ xs') (ys ++ ys') s'')
    (f : Form ρ) (each : ∀ x ∈ f.children, ∀ s, R s [x] [(one x s).1] (one x s).2)
    (option : ∀ x ∈ f.children, ∀ s, R s [x] (maybe x s).1.toList (maybe x s).2)
    (list : ∀ xs, (∀ x ∈ xs, x ∈ f.children) → ∀ s, R s xs (many xs s).1 (many xs s).2) (s : S) :
    R s f.children (f.visit one maybe many s).1.children (f.visit one maybe many s).2 := by
  have opt : ∀ o : Option ρ, (∀ x ∈ o.toList, x ∈ f.children) → ∀ s,
      R s o.toList (visit.visitOption maybe o s).1.toList (visit.visitOption maybe o s).2 := by
    intro o inside s
    cases o with
    | none => exact nil s
    | some x => exact option x (inside x (by simp)) s
  have lists : ∀ o : Option (List ρ), (∀ x ∈ o.getD [], x ∈ f.children) → ∀ s,
      R s (o.getD []) ((o.mapM many s).1.getD []) (o.mapM many s).2 := by
    intro o inside s
    cases o with
    | none => exact nil s
    | some xs => exact list xs inside s
  cases f with
  | array e | object e | sequence e | declaration k e | block e => exact list e (fun x hx => hx) s
  | property k x | member x k | unary k x | expressionStatement x => exact each x (by simp) s
  | index x y | binary k x y | assign x k y =>
    exact append (each x (by simp) s) (each y (by simp) _)
  | conditional t x y =>
    exact append (each t (by simp) s)
      (append (each x (by simp) _) (each y (by simp) _))
  | call c a | whileStatement c a =>
    exact append (each c (by simp) s) (list a (by simp +contextual) _)
  | function p b n i =>
    exact append (append (list p (by simp +contextual) s) (list b (by simp +contextual) _))
      (opt n (by simp +contextual) _)
  | functionDeclaration n p b =>
    exact append (append (each n (by simp) s) (list p (by simp +contextual) _))
      (list b (by simp +contextual) _)
  | declarator i x => exact append (each i (by simp) s) (opt x (by simp +contextual) _)
  | returnStatement x => exact opt x (fun x hx => hx) s
  | ifStatement t c a =>
    exact append (append (each t (by simp) s) (list c (by simp +contextual) _))
      (lists a (by simp +contextual) _)
  | forStatement i t u b =>
    exact append (append (append (opt i (by simp +contextual) s) (opt t (by simp +contextual) _))
      (opt u (by simp +contextual) _)) (list b (by simp +contextual) _)
  | tryStatement b p h y =>
    exact append (append (append (list b (by simp +contextual) s) (opt p (by simp +contextual) _))
      (lists h (by simp +contextual) _)) (lists y (by simp +contextual) _)
  | _ => exact nil s

end Form

namespace Revision

/-- What is made of some identities: each is an old one or was handed out on the way, and none is doubled. -/
structure Renews (low high : Nat) (olds news : List Nat) : Prop where
  le : low ≤ high
  origin : ∀ x ∈ news, x ∈ olds ∨ low ≤ x ∧ x < high
  nodup : olds.Nodup → (∀ x ∈ olds, x < low) → news.Nodup

namespace Renews

variable {a b c m : Nat} {xs ys xs' ys' : List Nat}

theorem sublist (le : a ≤ b) (sub : ys.Sublist xs) : Renews a b xs ys :=
  ⟨le, fun _ hx => Or.inl (sub.subset hx), fun distinct _ => distinct.sublist sub⟩

theorem kept (le : a ≤ b) : Renews a b xs xs := sublist le (List.Sublist.refl xs)

theorem dropped (le : a ≤ b) : Renews a b xs [] := sublist le (nil_sublist xs)

theorem handed (le : a ≤ b) (new : ∀ x ∈ ys, a ≤ x ∧ x < b) (distinct : ys.Nodup) : Renews a b xs ys :=
  ⟨le, fun x hx => Or.inr (new x hx), fun _ _ => distinct⟩

theorem widen (h : Renews a b xs ys) (le : b ≤ c) : Renews a c xs ys :=
  ⟨Nat.le_trans h.le le, fun x hx => (h.origin x hx).imp_right fun ⟨low, high⟩ => ⟨low, Nat.lt_of_lt_of_le high le⟩, h.nodup⟩

theorem append (h : Renews a b xs ys) (h' : Renews b c xs' ys') : Renews a c (xs ++ xs') (ys ++ ys') := by
  have le := h.le
  have le' := h'.le
  refine ⟨Nat.le_trans le le', fun x hx => ?_, fun distinct below => ?_⟩
  · rcases mem_append.mp hx with hx | hx
    · have := h.origin x hx
      grind
    · have := h'.origin x hx
      grind
  · obtain ⟨left, right, apart⟩ := nodup_append'.mp distinct
    have early : ∀ x ∈ xs, x < a := fun x hx => below x (mem_append_left _ hx)
    have early' : ∀ x ∈ xs', x < a := fun x hx => below x (mem_append_right _ hx)
    refine nodup_append'.mpr ⟨h.nodup left early,
      h'.nodup right fun x hx => Nat.lt_of_lt_of_le (early' x hx) le, fun x hx hx' => ?_⟩
    -- an old identity is below the ranges, and the two ranges do not meet
    rcases h.origin x hx with old | ⟨low, high⟩ <;> rcases h'.origin x hx' with old' | ⟨low', high'⟩
    · exact apart old old'
    · have := early x old
      omega
    · have := early' x old'
      omega
    · omega

theorem cons (h : Renews a b xs ys) : Renews a b (m :: xs) (m :: ys) := by
  refine ⟨h.le, fun x hx => ?_, fun distinct below => ?_⟩
  · rcases mem_cons.mp hx with rfl | hx
    · exact Or.inl (.head _)
    · exact (h.origin x hx).imp_left (.tail m)
  · obtain ⟨new, rest⟩ := nodup_cons.mp distinct
    refine nodup_cons.mpr ⟨fun hm => ?_, h.nodup rest fun x hx => below x (.tail m hx)⟩
    rcases h.origin m hm with old | ⟨low, -⟩
    · exact new old
    · have := below m (.head _)
      omega

end Renews

/-- What is settled for a subtree, both if the list around it is and if it is not. -/
def Settles (low high : Nat) (olds : List Nat) (settled : Settled) : Prop :=
  Renews low high olds settled.1.ids ∧ Renews low high olds ((inList settled).elim [] Node.ids)

namespace Settles

variable {a b : Nat} {xs : List Nat} {n : Node}

theorem keep (h : Renews a b xs n.ids) : Settles a b xs (n, .keep) := ⟨h, h⟩

theorem remove (h : Renews a b xs n.ids) : Settles a b xs (n, .remove) := ⟨h, .dropped h.le⟩

end Settles

/-- What an action returns, and the next identity after it, if it starts at a given one. -/
def Action.Meets {α : Type} (start : Nat) (action : Action α) (post : α → Nat → Prop) : Prop :=
  ∀ p : Progress, p.next = start → post (action p).1 (action p).2.next

section Actions

variable {α β : Type} {start : Nat} {post : α → Nat → Prop}

theorem Action.Meets.bind {x : Action α} {f : α → Action β} {post' : β → Nat → Prop} (first : x.Meets start post)
    (next : ∀ a k, post a k → (f a).Meets k post') : Action.Meets start (x >>= f) post' := by
  intro p from_start
  exact next _ _ (first p from_start) _ rfl

theorem meets_pure {a : α} (h : post a start) : Action.Meets start (pure a) post := by
  rintro p rfl
  exact h

theorem meets_ite {c : Prop} [Decidable c] {x y : Action α} (yes : x.Meets start post) (no : y.Meets start post) :
    Action.Meets start (if c then x else y) post := by
  split
  · exact yes
  · exact no

/-- An action that hands out no identity. -/
def Action.Idle (x : Action α) : Prop := ∀ p, (x p).2.next = p.next

theorem Action.Idle.bind {x : Action α} {f : α → Action β} {post' : β → Nat → Prop} (idle : x.Idle)
    (next : ∀ a, (f a).Meets start post') : Action.Meets start (x >>= f) post' := by
  rintro p rfl
  exact next _ _ (idle p)

theorem idle_hasFailed : hasFailed.Idle := fun _ => rfl

theorem idle_fail (fault : Fault) : (fail fault).Idle := fun _ => rfl

theorem idle_offer (rule : Node → Wish) (n : Node) : (offer rule n).Idle := fun _ => rfl

theorem meets_fresh (new : Shape) :
    (fresh new).Meets start fun n k => start ≤ k ∧ n.ids.Nodup ∧ ∀ x ∈ n.ids, start ≤ x ∧ x < k := by
  rintro p rfl
  obtain ⟨le, ids⟩ := Tree.ids_number new p.next
  change p.next ≤ (new.number p.next).2 ∧ (Node.ids (new.number p.next).1).Nodup ∧ _
  refine ⟨le, ids ▸ nodup_range', fun x hx => ?_⟩
  rw [show (fresh new p).1 = (new.number p.next).1 from rfl, ids, mem_range'_1] at hx
  exact ⟨hx.1, Nat.lt_of_lt_of_eq hx.2 (Nat.add_sub_cancel' le)⟩

end Actions

section Layer

variable {ρ : Type} {settle : ρ → Action Settled} {before : ρ → Node} {parent : Text}

/-- An action settles what stands before it, from whatever identity it starts. -/
def Sound (action : Action Settled) (old : Node) : Prop :=
  ∀ start, action.Meets start fun settled high => Settles start high old.ids settled

theorem settleOne_sound {x : ρ} (sound : Sound (settle x) (before x)) :
    Sound (settleOne settle before parent x) (before x) := by
  intro start
  refine idle_hasFailed.bind fun failed => ?_
  refine meets_ite (meets_pure (.keep (.kept (Nat.le_refl start)))) ?_
  refine (sound start).bind fun settled high settles => ?_
  obtain ⟨old, verdict⟩ := settled
  cases verdict with
  | keep | replace new => exact meets_pure settles
  | remove =>
    refine meets_ite (meets_pure settles) ((idle_fail _).bind fun _ => ?_)
    exact meets_pure (.keep settles.1)

theorem required_renews {x : ρ} (sound : Sound (settle x) (before x)) (start : Nat) :
    (required settle before parent x).Meets start fun n high => Renews start high (before x).ids n.ids := by
  refine (settleOne_sound sound start).bind fun settled high settles => meets_pure ?_
  obtain ⟨old, verdict⟩ := settled
  cases verdict with
  | keep | remove => exact settles.1
  | replace new => exact settles.2

theorem optional_renews {x : ρ} (sound : Sound (settle x) (before x)) (start : Nat) :
    (optional settle before parent x).Meets start fun n high =>
      Renews start high (before x).ids (n.toList.flatMap Node.ids) := by
  refine (settleOne_sound sound start).bind fun settled high settles => meets_pure ?_
  have listed := settles.2
  cases h : inList settled with
  | none => simpa [h] using listed
  | some n => simpa [h] using listed

theorem settled_renews {xs : List ρ} (sound : ∀ x ∈ xs, Sound (settle x) (before x)) (start : Nat) :
    Action.Meets start (xs.mapM (settleOne settle before parent)) fun settled high =>
      Renews start high (xs.flatMap fun x => (before x).ids) (settled.flatMap fun s => s.1.ids) ∧
        Renews start high (xs.flatMap fun x => (before x).ids) ((settled.filterMap inList).flatMap Node.ids) := by
  induction xs generalizing start with
  | nil => exact meets_pure ⟨.kept (Nat.le_refl start), .kept (Nat.le_refl start)⟩
  | cons x rest ih =>
    rw [mapM_cons]
    refine (settleOne_sound (sound x (.head _)) start).bind fun first mid settles => ?_
    refine (ih (fun y hy => sound y (.tail x hy)) mid).bind fun others high others_settle => meets_pure ?_
    refine ⟨settles.1.append others_settle.1, ?_⟩
    have both := settles.2.append others_settle.2
    cases h : inList first <;> simpa [h] using both

theorem many_renews {xs : List ρ} (sound : ∀ x ∈ xs, Sound (settle x) (before x)) (start : Nat) :
    (many settle before parent xs).Meets start fun ns high =>
      Renews start high (xs.flatMap fun x => (before x).ids) (ns.flatMap Node.ids) := by
  refine (settled_renews sound start).bind fun settled high settles => ?_
  refine idle_hasFailed.bind fun failed => meets_ite (meets_pure ?_) (meets_pure settles.2)
  rw [flatMap_map]
  exact settles.1

theorem layer_renews {f : Form ρ} (sound : ∀ x ∈ f.children, Sound (settle x) (before x)) (start : Nat) :
    (layer settle before parent f).Meets start fun g high =>
      Renews start high (f.children.flatMap fun x => (before x).ids) (g.children.flatMap Node.ids) := by
  rintro p rfl
  refine Form.visit_children
    (R := fun p xs ns p' => Renews p.next p'.next (xs.flatMap fun x => (before x).ids) (ns.flatMap Node.ids))
    (fun p => .kept (Nat.le_refl p.next)) ?_ f ?_ ?_ ?_ p
  · intro p p' p'' xs ys xs' ys' left right
    simpa only [flatMap_append] using left.append right
  · intro x hx p
    simpa using required_renews (sound x hx) p.next p rfl
  · intro x hx p
    simpa using optional_renews (sound x hx) p.next p rfl
  · intro xs inside p
    exact many_renews (fun x hx => sound x (inside x hx)) p.next p rfl

end Layer

theorem verdictOf_settles (rule : Node → Wish) {olds : List Nat} {low mid : Nat} {n : Node}
    (below : Renews low mid olds n.ids) :
    (verdictOf rule n).Meets mid fun settled high => Settles low high olds settled := by
  refine idle_hasFailed.bind fun failed => meets_ite (meets_pure (.keep below)) ?_
  refine meets_ite (meets_pure (.remove below)) ?_
  refine (idle_offer rule n).bind fun wish => ?_
  cases wish with
  | keep => exact meets_pure (.keep below)
  | remove => exact meets_pure (.remove below)
  | fail fault => exact (idle_fail fault).bind fun _ => meets_pure (.keep below)
  | replace new =>
    refine (meets_fresh new).bind fun fresh high new_ids => meets_pure ⟨below.widen new_ids.1, ?_⟩
    have le := below.le
    obtain ⟨le', distinct, range⟩ := new_ids
    exact .handed (Nat.le_trans le le') (fun x hx => ⟨Nat.le_trans le (range x hx).1, (range x hx).2⟩) distinct

theorem postOrder_sound (rule : Node → Wish) (t : Node) :
    (∀ start, (t.para (visitLayer rule)).below.Meets start fun n high => Renews start high t.ids n.ids) ∧
      Sound (t.para (visitLayer rule)).whole t := by
  induction t with
  | node m f ih =>
    have below : ∀ start, (Tree.para (visitLayer rule) (.node m f)).below.Meets start fun n high =>
        Renews start high (Node.ids (.node m f)) n.ids := by
      intro start
      rw [para_node]
      refine (layer_renews (fun x hx => ?_) start).bind fun g high renews => meets_pure ?_
      · rw [children_map] at hx
        obtain ⟨c, hc, rfl⟩ := mem_map.mp hx
        exact (ih c hc).2
      · rw [children_map, flatMap_map] at renews
        rw [Node.ids_node, Node.ids_node]
        exact renews.cons
    refine ⟨below, fun start => ?_⟩
    rw [para_node] at below ⊢
    exact (below start).bind fun n mid renews => verdictOf_settles rule renews

theorem enter_sound (rule : Node → Wish) (depth : Nat) (n : Node) : Sound (enter rule depth n) n := by
  induction depth generalizing n with
  | zero => exact fun start => meets_pure (.keep (.kept (Nat.le_refl start)))
  | succ depth ih =>
    intro start
    have kept : Renews start start n.ids n.ids := .kept (Nat.le_refl start)
    refine (idle_offer rule n).bind fun wish => ?_
    cases wish with
    | remove => exact meets_pure (.remove kept)
    | fail fault => exact (idle_fail fault).bind fun _ => meets_pure (.keep kept)
    | keep =>
      refine (layer_renews (fun c _ => ih c) start).bind fun form high renews => ?_
      have whole : Renews start high n.ids (Node.ids (.node n.mark form)) := by
        obtain ⟨m, f⟩ := n
        rw [Node.ids_node, Node.ids_node]
        exact renews.cons
      refine idle_hasFailed.bind fun failed => ?_
      exact meets_ite (meets_pure (.remove whole)) (meets_pure (.keep whole))
    | replace new =>
      refine (meets_fresh new).bind fun fresh mid new_ids => ?_
      refine (layer_renews (fun c _ => ih c) mid).bind fun form high renews => ?_
      refine idle_hasFailed.bind fun failed => ?_
      obtain ⟨le, distinct, range⟩ := new_ids
      have kept : Renews start high n.ids n.ids := .kept (Nat.le_trans le renews.le)
      refine meets_ite (meets_pure (.keep kept)) (meets_pure ⟨kept, ?_⟩)
      -- a replacement was handed out before its subtrees were entered
      obtain ⟨m, f⟩ := fresh
      have entered : Renews mid high (Node.ids (.node m f)) (Node.ids (.node m form)) := by
        rw [Node.ids_node, Node.ids_node]
        exact renews.cons
      refine .handed kept.le (fun x hx => ?_) (entered.nodup distinct fun x hx => (range x hx).2)
      rcases entered.origin x hx with old | ⟨low, early⟩
      · exact ⟨(range x old).1, Nat.lt_of_lt_of_le (range x old).2 entered.le⟩
      · exact ⟨Nat.le_trans le low, early⟩

theorem preOrder_renews (rule : Node → Wish) (root : Node) (start : Nat) :
    (preOrder rule root).Meets start fun n high => Renews start high root.ids n.ids := by
  refine (layer_renews (fun c _ => enter_sound rule depthLimit c) start).bind fun form high renews => meets_pure ?_
  obtain ⟨m, f⟩ := root
  rw [Node.ids_node, Node.ids_node]
  exact renews.cons

theorem run_renews (order : Order) (rule : Node → Wish) (root : Node) :
    ∃ high, Renews root.nextId high root.ids (run order rule root).root.ids := by
  cases order with
  | post => exact ⟨_, (postOrder_sound rule root).1 root.nextId { next := root.nextId } rfl⟩
  | pre => exact ⟨_, preOrder_renews rule root root.nextId { next := root.nextId } rfl⟩

/-- A revision leaves no identity twice, also if it fails midway. -/
theorem run_distinct (order : Order) (rule : Node → Wish) {root : Node} (distinct : root.Distinct) :
    (run order rule root).root.Distinct := by
  obtain ⟨high, renews⟩ := run_renews order rule root
  exact renews.nodup distinct fun x hx => Node.lt_nextId hx

end Revision

end Unravel
