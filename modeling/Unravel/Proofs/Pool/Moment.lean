import Unravel.Proofs.Fold.Result
import Unravel.Proofs.Pool.Dangling
import Unravel.Proofs.Pool.Rotation

/-! The pool that a call of the accessor sees: as it was written, or as the rotation leaves it. The statements of a body run
   one after the other, functions that are called where they stand run with them, and all other functions run later. -/
namespace Unravel

open Outcome List

variable {a b c holder n : Node} {ns : Namespace} {p : Pattern}

namespace Node

variable {t : Node}

/-- One node comes before another in the source. -/
def Precedes (root a b : Node) : Prop := [a, b].Sublist root.walk

theorem not_sublist_swap {α : Type} {l : List α} (nodup : l.Nodup) {a b : α} (h : [a, b].Sublist l) : ¬[b, a].Sublist l := by
  induction l with
  | nil => cases h
  | cons x rest ih =>
    obtain ⟨fresh, nodup⟩ := nodup_cons.mp nodup
    intro swapped
    cases h with
    | cons _ h =>
      cases swapped with
      | cons _ swapped => exact ih nodup h swapped
      | cons_cons _ swapped => exact fresh (h.subset (.tail a (.head _)))
    | cons_cons _ h =>
      have later : b ∈ rest := h.subset (.head _)
      cases swapped with
      | cons _ swapped => exact fresh (swapped.subset (.tail b (.head _)))
      | cons_cons _ swapped => exact fresh later

theorem Precedes.asymm (distinct : t.Distinct) (h : t.Precedes a b) : ¬t.Precedes b a :=
  not_sublist_swap (List.Nodup.of_map Tree.mark distinct) h

theorem walk_sublist (hn : n ∈ t.walk) : n.walk.Sublist t.walk := by
  induction t with
  | node m f ih =>
    rcases mem_walk_node.mp hn with rfl | ⟨c, hc, hn⟩
    · exact List.Sublist.refl _
    · have child : c.walk.Sublist (f.children.flatMap Tree.walk) := by
        simpa using (singleton_sublist.mpr hc).flatMap Tree.walk
      rw [walk_node m f]
      exact ((ih c hc hn).trans child).cons _

theorem precedes_of_children {x y : Node} (hh : holder ∈ t.walk) (order : [a, b].Sublist holder.children)
    (hx : x ∈ a.walk) (hy : y ∈ b.walk) : t.Precedes x y := by
  obtain ⟨m, f⟩ := holder
  have parts : [x, y].Sublist ([a, b].flatMap Tree.walk) := by
    simpa using (singleton_sublist.mpr hx).append (singleton_sublist.mpr hy)
  have whole : [x, y].Sublist (Tree.node m f).walk := by
    rw [walk_node]
    exact (parts.trans (order.flatMap Tree.walk)).cons _
  exact whole.trans (walk_sublist hh)

end Node

namespace Pattern

/-- Every function between a statement and a node in it is called where it stands. -/
def RunsIn (root s c : Node) : Prop :=
  c ∈ s.walk ∧ ∀ k ∈ s.walk, c ∈ k.walk → isFunction k.form → ∃ m args, Tree.node m (.call k args) ∈ root.walk

/-- A node comes before the rotation and runs with a statement of the very body, loop or block that the rotation stands in. -/
def SeesWritten (root rotation c : Node) : Prop :=
  ∃ holder ∈ root.walk, ∃ body, bodyOf? holder = some body ∧ rotation ∈ body ∧ (∃ s ∈ body, RunsIn root s c) ∧
    root.Precedes c rotation

/-- A function that is stored for later holds a node, but not the rotation. -/
def IsDeferred (root rotation c : Node) : Prop :=
  ∃ k ∈ root.walk, isFunction k.form ∧ c ∈ k.walk ∧ rotation ∉ k.walk ∧ ∀ m args, Tree.node m (.call k args) ∉ root.walk

variable {root : Node}

theorem bodyOf?_sublist {body : List Node} (h : bodyOf? holder = some body) : body.Sublist holder.children := by
  obtain ⟨m, f⟩ := holder
  cases f with
  | function params statements name isArrow =>
    cases h
    cases name <;> simp [Tree.children, Form.children]
  | forStatement =>
    cases h
    exact sublist_append_right _ _
  | functionDeclaration | whileStatement | block =>
    cases h
    simp [Tree.children, Form.children]
  | _ => cases h

section Positions

variable {holder : Node} (distinct : root.Distinct) (inside : holder ∈ root.walk) {body : List Node}
  (sub : body.Sublist holder.children)

include distinct inside sub

theorem positionOf?_iff {s : Node} (hs : s ∈ holder.children) {i : Nat} :
    positionOf? body s.mark = some i ↔ body[i]? = some s := by
  have same : ∀ e ∈ body, e.mark = s.mark → e = s := fun e he mark =>
    distinct.same_node (walk_trans inside (child_mem_walk (sub.subset he)))
      (walk_trans inside (child_mem_walk hs)) mark
  have nodup : body.Nodup := (distinct.subtree inside).nodup_children.sublist sub
  rw [positionOf?, findIdx?_eq_some_iff_getElem, List.getElem?_eq_some_iff]
  refine exists_congr fun within => ⟨fun ⟨mark, _⟩ => same _ (getElem_mem within) (beq_iff_eq.mp mark), fun found => ?_⟩
  refine ⟨beq_iff_eq.mpr (congrArg Tree.mark found), fun j before mark => ?_⟩
  have repeated := same _ (getElem_mem _) (beq_iff_eq.mp mark)
  have := (nodup.getElem_inj_iff).mp (repeated.trans found.symm)
  omega

end Positions

theorem sublist_of_lt {α : Type} {l : List α} {i j : Nat} {a b : α} (ha : l[i]? = some a) (hb : l[j]? = some b)
    (order : i < j) : [a, b].Sublist l := by
  obtain ⟨hi, rfl⟩ := List.getElem?_eq_some_iff.mp ha
  obtain ⟨hj, rfl⟩ := List.getElem?_eq_some_iff.mp hb
  have early : l[i] ∈ l.take j := mem_take_iff_getElem.mpr ⟨i, by omega, rfl⟩
  have late : l[j] ∈ l.drop j := mem_drop_iff_getElem.mpr ⟨0, by omega, rfl⟩
  have parts := (singleton_sublist.mpr early).append (singleton_sublist.mpr late)
  rwa [take_append_drop] at parts

section Moments

variable {holder s : Node} (tree : root.IsFunctionTree) (inside : holder ∈ root.walk) (hs : s ∈ holder.children)

/-- The nodes around a node. -/
def around (root : Node) (x : NodeId) : List Node := (Node.ancestors? root x).getD []

include tree inside hs

theorem mark_ne_holder (hn : n ∈ s.walk) : n.mark ≠ holder.mark := by
  intro same
  have below := walk_trans inside (walk_trans (child_mem_walk hs) hn)
  rw [tree.distinct.same_node below inside same] at hn
  exact (tree.distinct.subtree inside).not_mem_walk_child hs hn

theorem around_of_child {k : Node} (hn : n ∈ s.walk) (hk : k ∈ n.children) :
    around root k.mark = n :: around root n.mark := by
  have below := walk_trans inside (walk_trans (child_mem_walk hs) hn)
  obtain ⟨above, outer, inner⟩ := Node.ancestors?_of_child tree.distinct below hk
  rw [around, around, outer, inner]
  rfl

theorem around_top : ∃ above, around root s.mark = holder :: above := by
  obtain ⟨above, -, inner⟩ := Node.ancestors?_of_child tree.distinct inside hs
  exact ⟨above, by rw [around, inner]; rfl⟩

theorem childOn?_of_mem (hn : n ∈ s.walk) : childOn? holder.mark n.mark (around root n.mark) = some s.mark := by
  refine Tree.descend (P := fun n => childOn? holder.mark n.mark (around root n.mark) = some s.mark) ?_ ?_ n hn
  · obtain ⟨above, top⟩ := around_top tree inside hs
    rw [top, childOn?, if_pos rfl]
  · intro n hn ih k hk
    rw [around_of_child tree inside hs hn hk, childOn?, if_neg (mark_ne_holder tree inside hs hn), ih]

theorem around_of_mem (hn : n ∈ s.walk) :
    ∃ above ∈ root.walk, n ∈ above.children ∧ (around root n.mark).head? = some above := by
  rcases Node.exists_holder hn with rfl | ⟨above, within, held⟩
  · obtain ⟨rest, top⟩ := around_top tree inside hs
    exact ⟨holder, inside, hs, by rw [top]; rfl⟩
  · have outer := walk_trans inside (walk_trans (child_mem_walk hs) within)
    exact ⟨above, outer, held, by rw [around_of_child tree inside hs within held]; rfl⟩

theorem isInvoked_iff (hn : n ∈ s.walk) :
    isInvoked n (around root n.mark).head? ↔ ∃ m args, Tree.node m (.call n args) ∈ root.walk := by
  obtain ⟨above, within, held, head⟩ := around_of_mem tree inside hs hn
  rw [head]
  constructor
  · obtain ⟨m, f⟩ := above
    intro invoked
    rw [isInvoked] at invoked
    split at invoked
    next callee args form =>
      cases form
      have child : callee ∈ (Tree.node m (.call callee args)).children := .head _
      have same := tree.distinct.same_node (walk_trans within (child_mem_walk child))
        (walk_trans within (child_mem_walk held)) (beq_iff_eq.mp invoked)
      exact ⟨m, args, same ▸ within⟩
    next => cases invoked
  · rintro ⟨m, args, call⟩
    rw [tree.distinct.same_holder within call held (.head _)]
    exact beq_iff_eq.mpr rfl

theorem isStored_iff (hn : n ∈ s.walk) : isStored holder.mark (around root n.mark) = false ↔
    ∀ k ∈ s.walk, n ∈ k.walk → k ≠ n → isFunction k.form → ∃ m args, Tree.node m (.call k args) ∈ root.walk := by
  have distinct := tree.distinct.subtree (walk_trans inside (child_mem_walk hs))
  refine Tree.descend (P := fun n => isStored holder.mark (around root n.mark) = false ↔
    ∀ k ∈ s.walk, n ∈ k.walk → k ≠ n → isFunction k.form → ∃ m args, Tree.node m (.call k args) ∈ root.walk) ?_ ?_ n hn
  · obtain ⟨above, top⟩ := around_top tree inside hs
    rw [top, isStored, if_pos rfl]
    refine iff_of_true rfl fun k hk top differ => ?_
    rcases Node.exists_holder hk with rfl | ⟨a, ha, held⟩
    · exact absurd rfl differ
    · exact absurd (walk_trans top ha) ((distinct.subtree ha).not_mem_walk_child held)
  · intro n hn ih k hk
    have fresh : n ∉ k.walk := (distinct.subtree hn).not_mem_walk_child hk
    have split : (∀ j ∈ s.walk, k ∈ j.walk → j ≠ k → isFunction j.form → ∃ m args, Tree.node m (.call j args) ∈ root.walk) ↔
        (isFunction n.form → ∃ m args, Tree.node m (.call n args) ∈ root.walk) ∧
        ∀ j ∈ s.walk, n ∈ j.walk → j ≠ n → isFunction j.form → ∃ m args, Tree.node m (.call j args) ∈ root.walk := by
      constructor
      · intro each
        refine ⟨each n hn (child_mem_walk hk) fun same => fresh (same ▸ self_mem_walk n), fun j hj below _ => ?_⟩
        exact each j hj (walk_trans below (child_mem_walk hk)) fun same => fresh (same ▸ below)
      · rintro ⟨first, rest⟩ j hj below differ
        rcases Node.exists_holder below with same | ⟨a, ha, held⟩
        · exact absurd same.symm differ
        · rw [distinct.same_holder (walk_trans hj ha) hn held hk] at ha
          by_cases same : j = n
          · exact same ▸ first
          · exact rest j hj ha same
    rw [around_of_child tree inside hs hn hk, isStored, if_neg (mark_ne_holder tree inside hs hn), split, ← ih,
      ← isInvoked_iff tree inside hs hn]
    split
    next declared =>
      refine iff_of_false (by simp) fun ⟨invoked, _⟩ => ?_
      obtain ⟨m, args, call⟩ := (isInvoked_iff tree inside hs hn).mp (invoked (by rw [declared]; rfl))
      have expression := (tree.grammatical.operand call (.head _) rfl).2
      rw [Place.fixed, declared] at expression
      cases expression
    next function => simp [function, isFunction]
    next not_declaration not_function =>
      have plain : isFunction n.form = false := by
        cases form : n.form with
        | functionDeclaration => exact absurd form (not_declaration _ _ _)
        | function => exact absurd form (not_function _ _ _ _)
        | _ => rfl
      simp [plain]

theorem runsIn_iff (cs : c ∈ s.walk) (plain : isFunction c.form = false) :
    RunsIn root s c ↔ isStored holder.mark (around root c.mark) = false := by
  rw [isStored_iff tree inside hs cs]
  refine ⟨fun ⟨_, each⟩ k hk ck _ => each k hk ck, fun each => ⟨cs, fun k hk ck function => ?_⟩⟩
  refine each k hk ck (fun same => ?_) function
  rw [same, plain] at function
  cases function

omit hs in
theorem not_later_iff {body : List Node} (sub : body.Sublist holder.children) {rotation : Node}
    (held : rotation ∈ holder.children) (hs : s ∈ holder.children) (cs : c ∈ s.walk) (outside : c ∉ rotation.walk) :
    (match positionOf? body rotation.mark, positionOf? body s.mark with
      | some rotated, some called => decide (rotated < called)
      | _, _ => true) = false ↔ rotation ∈ body ∧ s ∈ body ∧ root.Precedes c rotation := by
  have rotated : ∀ {i}, positionOf? body rotation.mark = some i ↔ body[i]? = some rotation :=
    positionOf?_iff tree.distinct inside sub held
  have called : ∀ {j}, positionOf? body s.mark = some j ↔ body[j]? = some s := positionOf?_iff tree.distinct inside sub hs
  constructor
  · intro h
    split at h
    next i j hi hj =>
      rw [rotated] at hi
      rw [called] at hj
      have differ : i ≠ j := by
        rintro rfl
        rw [hi] at hj
        exact outside (Option.some.inj hj ▸ cs)
      have earlier : j < i := by
        have := of_decide_eq_false h
        omega
      refine ⟨mem_of_getElem? hi, mem_of_getElem? hj, ?_⟩
      exact Node.precedes_of_children inside ((sublist_of_lt hj hi earlier).trans sub) cs (self_mem_walk _)
    next => cases h
  · rintro ⟨hr, member, order⟩
    obtain ⟨i, hi⟩ := getElem?_of_mem hr
    obtain ⟨j, hj⟩ := getElem?_of_mem member
    rw [rotated.mpr hi, called.mpr hj]
    refine decide_eq_false fun later => order.asymm tree.distinct ?_
    exact Node.precedes_of_children inside ((sublist_of_lt hi hj later).trans sub) (self_mem_walk _) cs

end Moments

theorem exists_of_childOn? {container below : NodeId} {l : List Node} {x : NodeId} (h : childOn? container below l = some x) :
    ∃ n ∈ l, n.mark = container := by
  induction l generalizing below with
  | nil => cases h
  | cons n outer ih =>
    rw [childOn?] at h
    split at h
    next same => exact ⟨n, .head _, same⟩
    next =>
      obtain ⟨k, hk, same⟩ := ih h
      exact ⟨k, .tail n hk, same⟩

theorem exists_child_of_childOn? (tree : root.IsFunctionTree) (inside : holder ∈ root.walk)
    (hc : c ∈ root.walk) {x : NodeId} (h : childOn? holder.mark c.mark (around root c.mark) = some x) : ∃ s ∈ holder.children, c ∈ s.walk := by
  obtain ⟨n, hn, mark⟩ := exists_of_childOn? h
  obtain ⟨above, found, members⟩ := Node.mem_ancestors tree.distinct (Node.mark_mem_ids hc)
  rw [around, found, Option.getD_some, members] at hn
  obtain ⟨outer, below, differ⟩ := hn
  cases tree.distinct.same_node outer inside mark
  have within := tree.distinct.mem_walk_of_mark inside hc below
  obtain ⟨m, f⟩ := holder
  rcases mem_walk_node.mp within with rfl | ⟨s, hs, within⟩
  · exact absurd rfl differ
  · exact ⟨s, hs, within⟩

section Exact

variable {p : Pattern} {c : Node} (tree : root.IsFunctionTree) (hc : c ∈ root.walk) (plain : isFunction c.form = false)
  (outside : c ∉ p.rotation.walk)

include tree in
theorem observesRotation_of_holder (inside : holder ∈ root.walk) (held : p.rotation ∈ holder.children)
    (x : NodeId) : p.observesRotation root x = match bodyOf? holder with
      | none => true
      | some body => if isStored holder.mark (around root x) then true
        else match positionOf? body p.rotation.mark, (childOn? holder.mark x (around root x)).bind (positionOf? body) with
          | some rotated, some called => rotated < called
          | _, _ => true := by
  obtain ⟨above, -, inner⟩ := Node.ancestors?_of_child tree.distinct inside held
  rw [observesRotation, inner]
  rfl

include tree in
theorem SeesWritten.of_holder (inside : holder ∈ root.walk) (held : p.rotation ∈ holder.children) :
    SeesWritten root p.rotation c ↔ ∃ body, bodyOf? holder = some body ∧ p.rotation ∈ body ∧ (∃ s ∈ body, RunsIn root s c) ∧
      root.Precedes c p.rotation := by
  constructor
  · rintro ⟨holder', inside', body, known, member, rest⟩
    cases tree.distinct.same_holder inside inside' held ((bodyOf?_sublist known).subset member)
    exact ⟨body, known, member, rest⟩
  · rintro ⟨body, known, member, rest⟩
    exact ⟨holder, inside, body, known, member, rest⟩

include tree hc plain outside

/-- A call sees the pool as it was written exactly if it runs before the rotation. -/
theorem observesRotation_eq_false_iff (rotation : p.rotation ∈ root.walk) :
    p.observesRotation root c.mark = false ↔ SeesWritten root p.rotation c := by
  rcases Node.exists_holder rotation with top | ⟨holder, inside, held⟩
  · exact absurd (top ▸ hc) outside
  rw [observesRotation_of_holder tree inside held, SeesWritten.of_holder tree inside held]
  cases known : bodyOf? holder with
  | none => simp
  | some body =>
    have sub := bodyOf?_sublist known
    simp only [Option.some.injEq, exists_eq_left']
    by_cases below : ∃ s ∈ holder.children, c ∈ s.walk
    · obtain ⟨s, hs, cs⟩ := below
      have only : (∃ s ∈ body, RunsIn root s c) ↔ s ∈ body ∧ RunsIn root s c := by
        refine ⟨fun ⟨s', hs', runs⟩ => ?_, fun h => ⟨s, h⟩⟩
        rw [(tree.distinct.subtree inside).same_part hs (sub.subset hs') cs runs.1]
        exact ⟨hs', runs⟩
      rw [childOn?_of_mem tree inside hs cs, Option.bind_some, only, runsIn_iff tree inside hs cs plain]
      cases isStored holder.mark (around root c.mark) with
      | true => simp
      | false =>
        rw [if_neg Bool.false_ne_true, not_later_iff tree inside sub held hs cs outside]
        simp only [and_true]
    · cases way : childOn? holder.mark c.mark (around root c.mark) with
      | some x => exact absurd (exists_child_of_childOn? tree inside hc way) below
      | none =>
        refine iff_of_false ?_ fun ⟨_, ⟨s, hs, cs, _⟩, _⟩ => below ⟨s, sub.subset hs, cs⟩
        simp

end Exact

theorem not_seesWritten (distinct : root.Distinct) {rotation : Node}
    (h : root.Precedes rotation c ∨ IsDeferred root rotation c) : ¬SeesWritten root rotation c := by
  rintro ⟨holder, inside, body, known, member, ⟨s, hs, cs, each⟩, order⟩
  rcases h with later | ⟨k, hk, function, ck, apart, stored⟩
  · exact order.asymm distinct later
  have children := (bodyOf?_sublist known).subset
  rcases distinct.nested (walk_trans inside (child_mem_walk (children hs))) hk cs ck with within | within
  · -- the function holds the whole statement, hence the rotation too, unless it is the statement itself
    rcases Node.exists_holder within with rfl | ⟨above, ha, held⟩
    · obtain ⟨m, args, call⟩ := each s (self_mem_walk s) cs function
      exact stored m args call
    · rw [distinct.same_holder (walk_trans hk ha) inside held (children hs)] at ha
      exact apart (walk_trans ha (child_mem_walk (children member)))
  · obtain ⟨m, args, call⟩ := each k within ck function
    exact stored m args call

theorem static?_eq_some {t : Node} {v : Value} :
    static? ns t = .ok (some v) ↔ evaluateStatic ns t = .ok v := by
  rw [static?]
  cases evaluateStatic ns t with
  | ok w => simp
  | error f =>
    dsimp only
    split <;> simp

theorem accessorCall?_iff (distinct : root.Distinct) (found : p.IsFound root) (hc : c ∈ root.walk)
    {args : List Node} : p.accessorCall? root c = some args ↔ (∃ callee, c.form = .call callee args) ∧
      calledBinding? p.names c = some p.accessorBinding ∧ c ∉ p.accessor.walk ∧ c ∉ p.rotation.walk := by
  have within : ∀ n ∈ root.walk, Node.isWithin root c.mark n.mark = false ↔ c ∉ n.walk := by
    intro n hn
    rw [← Bool.not_eq_true, Node.isWithin_iff distinct (Node.mark_mem_ids hc), not_iff_not]
    constructor
    · rintro ⟨k, hk, same, inside⟩
      rw [distinct.same_node hk hn same] at inside
      exact distinct.mem_walk_of_mark hn hc inside
    · exact fun inside => ⟨n, hn, rfl, Node.mark_mem_ids inside⟩
  rw [accessorCall?, ← within _ found.accessor.1, ← within _ found.rotation]
  cases form : c.form with
  | call callee others => grind
  | _ => simp

theorem rotateUntil_turned {pool after : Pool} {left done k : Nat} (filled : pool.strings ≠ [])
    (h : p.rotateUntil ns left done (pool.turned done) = (after, .ok k)) : after = pool.turned k := by
  induction left generalizing done with
  | zero =>
    obtain ⟨text, -, thrown⟩ := bind_eq_ok.mp (Prod.mk.inj h).2
    cases thrown
  | succ left ih =>
    rw [rotateUntil, Pool.rotate_turned filled] at h
    split at h
    next => cases h
    next =>
      cases h
      rfl
    next => exact ih h

theorem resolve_turned_eq_ok {pool : Pool} {k : Nat} {index : Value} {text : Text} :
    (pool.turned k).resolve index = .ok text ↔ ∃ i, pool.indexOf index = .ok i ∧ (pool.strings.rotate k)[i]? = some text := by
  rw [Pool.resolve_turned, bind_eq_ok]
  refine exists_congr fun i => and_congr_right fun known => ?_
  have inside : i < (pool.strings.rotate k).length := by
    rw [length_rotate]
    exact Pool.gives_indexOf pool index i known
  rw [getElem?_eq_getElem inside]
  simp [pure, Except.pure]

/-- What stands for a planned call is the string that the pool holds at its index at that moment. -/
theorem text_of_literal (distinct : root.Distinct) {before after : Pool} {plan : Plan}
    (planned : p.plan ns root before after = .ok plan) (hc : c ∈ root.walk) {first : Node} {rest : List Node}
    (call : p.accessorCall? root c = some (first :: rest)) {index : Value} (known : static? ns first = .ok (some index))
    {k : Node} (literal : plan.literal root c = some k) : ∃ id text, k = .node id (.string text) ∧
      (if p.observesRotation root c.mark then after else before).resolve index = .ok text := by
  obtain ⟨i, r, listed, mark, rfl⟩ := Plan.literal_eq_some literal
  obtain ⟨n, hn, ⟨first', rest', call', known'⟩, mark', moment, text⟩ := (mem_plan planned).mp (mem_of_getElem? listed)
  cases distinct.same_node hn hc (mark'.symm.trans mark)
  cases call.symm.trans call'
  cases known.symm.trans known'
  rw [moment] at text
  exact ⟨_, r.text, rfl, text⟩

/-- Every call of the accessor with a known index becomes the string that the pool holds there: as the pool was written if
the call runs before the rotation, and as the rotation leaves it otherwise. A rotation in a branch has nothing before it. -/
theorem accessor_calls_see_their_pool (ns : Namespace) (root : Node) (tree : root.IsFunctionTree) (v : Recovery)
    (recovered : root.recoverStrings ns = .ok (some v)) :
    ∃ p, find ns root = .ok (some p) ∧
      (v.root, v.removedAccessor, v.removedPool) = Recovery.removePieces p (Node.substitute (v.plan.literal root) root) ∧
      ∀ c ∈ root.walk, ∀ callee first rest index, c.form = .call callee (first :: rest) →
        calledBinding? p.names c = some p.accessorBinding → c ∉ p.accessor.walk → c ∉ p.rotation.walk →
        evaluateStatic ns first = .ok index →
        (root.Precedes p.rotation c ∨ IsDeferred root p.rotation c → ¬SeesWritten root p.rotation c) ∧
        ∃ id i text, v.plan.literal root c = some (.node id (.string text)) ∧ p.pool.indexOf index = .ok i ∧
          (SeesWritten root p.rotation c → p.strings[i]? = some text) ∧
          (¬SeesWritten root p.rotation c → (p.strings.rotate v.rotations)[i]? = some text) := by
  obtain ⟨p, after, search, turned, planned, result⟩ := Recovery.recoverStrings_steps recovered
  have found := isFound_of_find search
  have written : p.pool.turned 0 = p.pool := turned_zero rfl
  have run : p.rotateUntil ns p.pool.length 0 (p.pool.turned 0) = (after, .ok v.rotations) := written.symm ▸ turned
  have rotated : after = p.pool.turned v.rotations := rotateUntil_turned (findPool?_ne_nil (find_eq_some_iff.mp search).2.1) run
  refine ⟨p, search, result, fun c hc callee first rest index form called apart outside static => ?_⟩
  refine ⟨not_seesWritten tree.distinct, ?_⟩
  have call : p.accessorCall? root c = some (first :: rest) :=
    (accessorCall?_iff tree.distinct found hc).mpr ⟨⟨callee, form⟩, called, apart, outside⟩
  obtain ⟨r, replaces, -⟩ := exists_replacement planned hc call (static?_eq_some.mpr static)
  have listed : r ∈ v.plan.replacements := (mem_plan planned).mpr ⟨c, hc, replaces⟩
  obtain ⟨k, literal⟩ := Option.isSome_iff_exists.mp (Plan.literal_isSome.mpr ⟨r, listed, replaces.call⟩)
  obtain ⟨id, text, rfl, moment⟩ := text_of_literal tree.distinct planned hc call (static?_eq_some.mpr static) literal
  have plain : isFunction c.form = false := by
    rw [form]
    rfl
  have seen := observesRotation_eq_false_iff tree hc plain outside found.rotation
  cases observed : p.observesRotation root c.mark with
  | false =>
    rw [observed, if_neg Bool.false_ne_true, ← written] at moment
    obtain ⟨i, known, there⟩ := resolve_turned_eq_ok.mp moment
    rw [List.rotate_zero] at there
    exact ⟨id, i, text, literal, known, fun _ => there, fun after => absurd (seen.mp observed) after⟩
  | true =>
    rw [observed, if_pos rfl, rotated] at moment
    obtain ⟨i, known, there⟩ := resolve_turned_eq_ok.mp moment
    refine ⟨id, i, text, literal, known, fun before => ?_, fun _ => there⟩
    cases observed.symm.trans (seen.mpr before)

/-- A call with a known index whose moment is given. -/
def isKnownCall (ns : Namespace) (root : Node) (p : Pattern) (rotated : Bool) (c : Node) : Bool :=
  (p.accessorCall? root c).any fun args => args.head?.any (fun first => (evaluateStatic ns first).toOption.any fun _ => true) &&
    p.observesRotation root c.mark == rotated

theorem of_isKnownCall (tree : root.IsFunctionTree) (found : p.IsFound root)
    (hc : c ∈ root.walk) {rotated : Bool} (h : isKnownCall ns root p rotated c) :
    ∃ callee first rest index, c.form = .call callee (first :: rest) ∧ calledBinding? p.names c = some p.accessorBinding ∧
      c ∉ p.accessor.walk ∧ c ∉ p.rotation.walk ∧ evaluateStatic ns first = .ok index ∧
      (rotated = false ↔ SeesWritten root p.rotation c) := by
  rw [isKnownCall] at h
  cases call : p.accessorCall? root c with
  | none =>
    rw [call] at h
    cases h
  | some args =>
    rw [call] at h
    obtain ⟨known, moment⟩ := Bool.and_eq_true_iff.mp h
    obtain ⟨⟨callee, form⟩, called, apart, outside⟩ := (accessorCall?_iff tree.distinct found hc).mp call
    cases args with
    | nil => cases known
    | cons first rest =>
      obtain ⟨index, static, -⟩ := exists_ok_of_any known
      refine ⟨callee, first, rest, index, form, called, apart, outside, static, ?_⟩
      rw [← beq_iff_eq.mp moment]
      exact observesRotation_eq_false_iff tree hc (by rw [form]; rfl) outside found.rotation

/-- A pool with two calls before its rotation, one of them stored for later. -/
def aroundRotation : Text :=
  "function(x)\x7bfunction P()\x7bvar s=['a','b'];return s\x7dfunction A(n)\x7bn=n-0;return P()[n]\x7d" ++
    "x(A(0),function()\x7bA(0)\x7d);(function()\x7bvar c=A(0)+''\x7d)(P,'b')\x7d"

theorem aroundRotation_calls : ∃ shape v p, parseFunction aroundRotation = .ok shape ∧ (shape.numberFrom 0).IsFunctionTree ∧
    Node.recoverStrings .standard (shape.numberFrom 0) = .ok (some v) ∧ find .standard (shape.numberFrom 0) = .ok (some p) ∧
    (∃ c ∈ (shape.numberFrom 0).walk, SeesWritten (shape.numberFrom 0) p.rotation c ∧
      ∃ (id : NodeId) (i : Nat) (text : Text), v.plan.literal (shape.numberFrom 0) c = some (.node id (.string text)) ∧
        p.strings[i]? = some text) ∧
    ∃ c ∈ (shape.numberFrom 0).walk, ¬SeesWritten (shape.numberFrom 0) p.rotation c ∧
      ∃ (id : NodeId) (i : Nat) (text : Text), v.plan.literal (shape.numberFrom 0) c = some (.node id (.string text)) ∧
        (p.strings.rotate v.rotations)[i]? = some text := by
  have evaluated : (parseFunction aroundRotation).toOption.any fun shape =>
      (Node.recoverStrings .standard (shape.numberFrom 0)).toOption.any fun recovered => recovered.isSome &&
        (find .standard (shape.numberFrom 0)).toOption.any fun found => found.any fun p =>
          (shape.numberFrom 0).walk.any (isKnownCall .standard (shape.numberFrom 0) p false) &&
            (shape.numberFrom 0).walk.any (isKnownCall .standard (shape.numberFrom 0) p true) := by
    decide +kernel
  obtain ⟨shape, parsed, evaluated⟩ := exists_ok_of_any evaluated
  obtain ⟨found, recovered, evaluated⟩ := exists_ok_of_any evaluated
  obtain ⟨something, calls⟩ := Bool.and_eq_true_iff.mp evaluated
  obtain ⟨v, rfl⟩ := Option.isSome_iff_exists.mp something
  have tree := (Node.function_of_parsed parsed 0).1
  obtain ⟨p, search, -, each⟩ := accessor_calls_see_their_pool .standard _ tree v recovered
  rw [search] at calls
  obtain ⟨early, late⟩ := Bool.and_eq_true_iff.mp calls
  obtain ⟨c, hc, early⟩ := List.any_eq_true.mp early
  obtain ⟨d, hd, late⟩ := List.any_eq_true.mp late
  have found := isFound_of_find search
  obtain ⟨callee, first, rest, index, form, called, apart, outside, static, seen⟩ := of_isKnownCall tree found hc early
  obtain ⟨callee', first', rest', index', form', called', apart', outside', static', unseen⟩ := of_isKnownCall tree found hd late
  obtain ⟨-, id, i, text, literal, -, written, -⟩ := each c hc callee first rest index form called apart outside static
  obtain ⟨-, id', i', text', literal', -, -, turned⟩ :=
    each d hd callee' first' rest' index' form' called' apart' outside' static'
  have sees := seen.mp rfl
  have misses : ¬SeesWritten (shape.numberFrom 0) p.rotation d := fun sees => nomatch unseen.mpr sees
  exact ⟨shape, v, p, parsed, tree, recovered, search, ⟨c, hc, sees, id, i, text, literal, written sees⟩,
    d, hd, misses, id', i', text', literal', turned misses⟩

theorem precedes_of_ids (distinct : root.Distinct) (ha : a ∈ root.walk) (hb : b ∈ root.walk)
    (order : [a.mark, b.mark].Sublist root.ids) : root.Precedes a b := by
  obtain ⟨l, sub, marks⟩ := sublist_map_iff.mp order
  obtain ⟨a', l, rfl, same, rest⟩ := map_eq_cons_iff.mp marks.symm
  obtain ⟨b', l, rfl, same', rest⟩ := map_eq_cons_iff.mp rest
  cases map_eq_nil_iff.mp rest
  cases distinct.same_node (sub.subset (.head _)) ha same
  cases distinct.same_node (sub.subset (.tail _ (.head _))) hb same'
  exact sub

/-- No function of a statement holds a node in it. -/
def standsIn (s : Node) (x : NodeId) : Bool :=
  s.ids.contains x && s.walk.all fun k => !isFunction k.form || !(Node.ids k).contains x

theorem runsIn_of_standsIn (distinct : root.Distinct) {s : Node} (hs : s ∈ root.walk) (hc : c ∈ root.walk)
    (h : standsIn s c.mark) : RunsIn root s c := by
  obtain ⟨inside, apart⟩ := Bool.and_eq_true_iff.mp h
  refine ⟨distinct.mem_walk_of_mark hs hc (contains_iff_mem.mp inside), fun k hk ck function => ?_⟩
  have := all_eq_true.mp apart k hk
  simp [function, Node.mark_mem_ids ck] at this

/-- A pool whose rotation stands in a branch, after a call of the accessor in the same function. -/
def branchRotation : Text :=
  "function(x)\x7bfunction P()\x7bvar s=['a','b'];return s\x7dfunction A(n)\x7bn=n-0;return P()[n]\x7d" ++
    "var u=A(0);if(x)\x7b(function(p,t)\x7bvar c=A(0)+''\x7d)(P,'b')\x7dreturn [u,A(0),0]\x7d"

/-- The call comes first in the same function, and yet it becomes the string of the rotated pool. -/
theorem branchRotation_hides_order : ∃ shape v p, parseFunction branchRotation = .ok shape ∧
    Node.recoverStrings .standard (shape.numberFrom 0) = .ok (some v) ∧ find .standard (shape.numberFrom 0) = .ok (some p) ∧
    p.strings = ["a", "b"] ∧
    ∃ c ∈ (shape.numberFrom 0).walk, (shape.numberFrom 0).Precedes c p.rotation ∧
      (∃ body, bodyOf? (shape.numberFrom 0) = some body ∧ (∃ s ∈ body, RunsIn (shape.numberFrom 0) s c) ∧
        ∃ s ∈ body, RunsIn (shape.numberFrom 0) s p.rotation) ∧
      ∃ first rest index, p.accessorCall? (shape.numberFrom 0) c = some (first :: rest) ∧
        evaluateStatic .standard first = .ok index ∧ p.pool.indexOf index = .ok 0 ∧
        ∃ id, v.plan.literal (shape.numberFrom 0) c = some (.node id (.string "b")) := by
  have evaluated : (parseFunction branchRotation).toOption.any fun shape =>
      (Node.recoverStrings .standard (shape.numberFrom 0)).toOption.any fun recovered => recovered.any fun v =>
        (find .standard (shape.numberFrom 0)).toOption.any fun found => found.any fun p =>
          decide (p.strings = [Text.ofString "a", Text.ofString "b"]) && (shape.numberFrom 0).walk.any fun c =>
            decide ([c.mark, p.rotation.mark].Sublist (shape.numberFrom 0).ids) &&
              ((bodyOf? (shape.numberFrom 0)).any fun body =>
                body.any (standsIn · c.mark) && body.any (standsIn · p.rotation.mark)) &&
              ((p.accessorCall? (shape.numberFrom 0) c).any fun args => args.head?.any fun first =>
                (evaluateStatic .standard first).toOption.any fun index => (p.pool.indexOf index).toOption.any (· == 0)) &&
              (v.plan.literal (shape.numberFrom 0) c).any fun k => decide (stringOf? k = some (Text.ofString "b")) := by
    decide +kernel
  obtain ⟨shape, parsed, evaluated⟩ := exists_ok_of_any evaluated
  obtain ⟨v, recovers, evaluated⟩ := exists_some_of_any evaluated
  obtain ⟨p, search, evaluated⟩ := exists_some_of_any evaluated
  obtain ⟨strings, evaluated⟩ := Bool.and_eq_true_iff.mp evaluated
  obtain ⟨c, hc, evaluated⟩ := List.any_eq_true.mp evaluated
  simp only [Bool.and_eq_true, Option.any_eq_true, List.any_eq_true] at evaluated
  obtain ⟨⟨⟨order, body, known, ⟨s, hs, stands⟩, s', hs', stands'⟩, args, call, first, head, index, static, i, place, zero⟩, k,
    literal, text⟩ := evaluated
  have distinct := Tree.distinct_numberFrom shape 0
  have within := fun s (hs : s ∈ body) => Tree.child_mem_walk ((bodyOf?_sublist known).subset hs)
  have rotation := (isFound_of_find search).rotation
  refine ⟨shape, v, p, parsed, recovers, search, of_decide_eq_true strings, c, hc, ?_, ⟨body, known, ?_, ?_⟩, ?_⟩
  · exact precedes_of_ids distinct hc rotation (of_decide_eq_true order)
  · exact ⟨s, hs, runsIn_of_standsIn distinct (within s hs) hc stands⟩
  · exact ⟨s', hs', runsIn_of_standsIn distinct (within s' hs') rotation stands'⟩
  · obtain ⟨rest, rfl⟩ := List.head?_eq_some_iff.mp head
    cases beq_iff_eq.mp zero
    obtain ⟨j, r, -, -, rfl⟩ := Plan.literal_eq_some literal
    rw [show r.text = "b" from Option.some.inj (of_decide_eq_true text)] at literal
    exact ⟨first, rest, index, call, eq_ok_of_toOption static, eq_ok_of_toOption place, _, literal⟩

end Pattern

end Unravel
