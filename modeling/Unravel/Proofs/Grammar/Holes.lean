import Unravel.Proofs.Grammar.Wrapper

/-! Empty places in an array. They are found by counting commas, which is right as long as no comment stands between the last comma
   and the closing bracket. -/
namespace Unravel.Grammar

open List

section Comments

def Within.isBlanks : Within → Bool
  | .blanks => true
  | _ => false

theorem gapFrom_cons (settled : Gap) (seen : Nat) (within : Within) (c : CodePoint) (more : Text) :
    gapFrom settled seen within (c :: more) = ((within.turn c).elim settled fun next =>
      gapFrom (if next.2 then ⟨seen + 1, settled.hasComment || !within.isBlanks⟩ else settled) (seen + 1) next.1 more) := by
  cases within <;> simp only [gapFrom, Within.turn, Within.isBlanks] <;> grind

theorem turn_of_blanks {c : CodePoint} {next : Within} {far : Bool} (h : Within.blanks.turn c = some (next, far)) : far = isBlank c := by
  grind [Within.turn, isBlank]

/-- A gap has a comment if it had one, if it goes on after the start of one, or if more than blanks are still to come. -/
theorem hasComment_gapFrom {settled : Gap} {seen : Nat} {within : Within} {t : Text} {g : Gap} (h : gapFrom settled seen within t = g)
    (outside : within = .blanks → settled.length = seen) (inside : within ≠ .blanks → settled.length < seen) :
    settled.length ≤ g.length ∧ (g.hasComment ↔ settled.hasComment ∨ settled.length < g.length ∧
      (within ≠ .blanks ∨ ∃ x ∈ t.take (g.length - seen), isBlank x = false)) := by
  induction t generalizing settled seen within with
  | nil =>
    subst h
    cases within <;> simp_all [gapFrom, Nat.le_of_lt]
  | cons c more ih =>
    rw [gapFrom_cons] at h
    cases turned : within.turn c with
    | none =>
      rw [turned] at h
      subst h
      simp
    | some next =>
      obtain ⟨next, far⟩ := next
      have blanks := turn_blanks turned
      rw [turned] at h
      cases far with
      | true =>
        cases blanks.mpr rfl
        obtain ⟨le, iff⟩ := ih h (fun _ => rfl) fun other => absurd rfl other
        have le : seen + 1 ≤ g.length := le
        have further : settled.length < g.length := by
          by_cases here : within = .blanks
          · exact outside here ▸ le
          · exact (inside here).trans le
        refine ⟨further.le, iff.trans ?_⟩
        rw [show g.length - seen = g.length - (seen + 1) + 1 by omega, take_succ_cons]
        cases within with
        | blanks =>
          have blank : isBlank c = true := (turn_of_blanks turned).symm
          have some : (∃ x ∈ more.take (g.length - (seen + 1)), isBlank x = false) → seen + 1 < g.length := by
            rintro ⟨x, member, -⟩
            have := length_pos_of_mem member
            rw [length_take] at this
            omega
          simp only [Within.isBlanks, Bool.not_true, Bool.or_false, ne_eq, not_true, false_or, further, true_and, exists_mem_cons_iff,
            blank, Bool.true_eq_false]
          exact or_congr_right ⟨And.right, fun more => ⟨some more, more⟩⟩
        | _ => simp [Within.isBlanks, further]
      | false =>
        have started : next ≠ .blanks := fun here => Bool.false_ne_true (blanks.mp here)
        have room : settled.length ≤ seen := by
          by_cases here : within = .blanks
          · exact (outside here).le
          · exact (inside here).le
        obtain ⟨le, iff⟩ := ih h (fun here => absurd here started) fun _ => Nat.lt_succ_of_le room
        refine ⟨le, iff.trans (or_congr_right (and_congr_right fun further => iff_of_true (.inl started) ?_))⟩
        cases within with
        | blanks =>
          have further : settled.length < g.length := further
          rw [outside rfl] at further
          rw [show g.length - seen = g.length - (seen + 1) + 1 by omega, take_succ_cons]
          exact .inr ⟨c, .head _, (turn_of_blanks turned).symm⟩
        | _ => exact .inl (by rintro ⟨⟩)

theorem hasComment_gap (t : Text) : (gap t).hasComment ↔ ∃ x ∈ t.take (gap t).length, isBlank x = false := by
  obtain ⟨-, iff⟩ := hasComment_gapFrom (rfl : gap t = gap t) (fun _ => rfl) fun other => absurd rfl other
  rw [iff]
  constructor
  · rintro (⟨⟨⟩⟩ | ⟨-, other | found⟩)
    · exact absurd rfl other
    · exact found
  · rintro ⟨x, member, solid⟩
    have := length_pos_of_mem member
    rw [length_take] at this
    exact .inr ⟨show 0 < _ by omega, .inr ⟨x, member, solid⟩⟩

end Comments

namespace Element

/-- A comma that stands first or directly after another one leaves a place empty. -/
def LeavesHole (es : List Element) : Prop := ∃ before after, es = before ++ .comma :: after ∧ before.getLast?.all isComma

/-- The commas before which nothing stands; whether something stands before the first one is given. -/
def holes (fresh : Bool) : List Element → Nat
  | [] => 0
  | e :: es => (if e.isComma && fresh then 1 else 0) + holes e.isComma es

end Element

/-- A list in brackets as it stands in a text. Elements are divided by commas, and blanks and comments may stand before each part. -/
inductive Laid (r : Readers) (closing : String) : Bool → Text → List Element → Text → Text → Prop
  | closed {fresh : Bool} {t last rest : Text} : t = last ++ (closing ++ rest) → IsGap last → Laid r closing fresh t [] last rest
  | comma {fresh : Bool} {t space more last rest : Text} {es : List Element} : t = space ++ ("," ++ more) → IsGap space →
    Laid r closing true more es last rest → Laid r closing fresh t (.comma :: es) last rest
  | item {c next : Cursor} {p : Phrase} {es : List Element} {last rest : Text} : r.cover false c = some (p, next) →
    Laid r closing false next.rest es last rest → Laid r closing true c.rest (.item p :: es) last rest
  | spread {t space : Text} {c next : Cursor} {start : Position} {p : Phrase} {es : List Element} {last rest : Text} :
    t = space ++ ("..." ++ c.rest) → IsGap space → r.cover false c = some (p, next) →
    Laid r closing false next.rest es last rest → Laid r closing true t (.spread start p :: es) last rest

section Counting

open Element

variable {r : Readers} {closing : String} {fresh : Bool} {t last rest : Text} {es : List Element}

theorem getLast?_isComma (e : Element) (es : List Element) (fresh : Bool) :
    ((e :: es).getLast?.map isComma).getD fresh = (es.getLast?.map isComma).getD e.isComma := by
  rw [getLast?_cons]
  cases es.getLast? <;> rfl

theorem holes_pos_iff : 0 < holes fresh es ↔
    ∃ before after, es = before ++ .comma :: after ∧ (before.getLast?.map isComma).getD fresh = true := by
  induction es generalizing fresh with
  | nil => simp [holes]
  | cons e es ih =>
    rw [holes, Nat.add_pos_iff_pos_or_pos, ih]
    constructor
    · rintro (here | ⟨before, after, rfl, fresh⟩)
      · cases e with
        | comma => exact ⟨[], es, rfl, by cases fresh <;> first | rfl | cases here⟩
        | _ => cases here
      · exact ⟨e :: before, after, rfl, (getLast?_isComma e before _).trans fresh⟩
    · rintro ⟨before, after, same, free⟩
      cases before with
      | nil =>
        cases same
        cases free
        exact .inl Nat.one_pos
      | cons d before =>
        cases same
        exact .inr ⟨before, after, rfl, (getLast?_isComma e before _).symm.trans free⟩

/-- The commas are as many as the elements before them and the empty places together. -/
theorem Laid.count (h : Laid r closing fresh t es last rest) :
    2 * (es.filter isComma).length + (if (es.getLast?.map isComma).getD fresh then 0 else 1) =
      holes fresh es + es.length + (if fresh then 0 else 1) := by
  induction h with
  | closed => rfl
  | @comma fresh _ _ _ _ _ es _ _ _ ih =>
    rw [getLast?_isComma, filter_cons_of_pos rfl, length_cons, length_cons, holes]
    change 2 * (_ + 1) + (if (es.getLast?.map isComma).getD true = true then 0 else 1) = _
    generalize (if (es.getLast?.map isComma).getD true = true then 0 else 1) = after at ih ⊢
    cases fresh <;> simp [isComma] at ih ⊢ <;> omega
  | @item _ _ _ es _ _ _ _ ih | @spread _ _ _ _ _ _ es _ _ _ _ _ _ ih =>
    rw [getLast?_isComma, filter_cons_of_neg Bool.false_ne_true, length_cons, holes]
    change 2 * _ + (if (es.getLast?.map isComma).getD false = true then 0 else 1) = _
    generalize (if (es.getLast?.map isComma).getD false = true then 0 else 1) = after at ih ⊢
    simp [isComma] at ih ⊢
    omega

/-- The count finds the empty places, and a last comma that a comment hides. -/
theorem Laid.hasHole (h : Laid r closing true t es last rest) (commented : Bool) :
    hasHole es commented ↔ LeavesHole es ∨ es.getLast?.any isComma ∧ commented := by
  have count := h.count
  have leaves : LeavesHole es ↔ 0 < holes true es := by
    rw [holes_pos_iff]
    refine exists_congr fun before => exists_congr fun after => and_congr_right fun _ => ?_
    cases before.getLast? <;> rfl
  have few := length_filter_le isComma es
  rw [leaves, Element.hasHole, bne_iff_ne]
  cases final : es.getLast? with
  | none =>
    cases getLast?_eq_none_iff.mp final
    simp [holes]
  | some e =>
    have some : 0 < es.length := length_pos_of_mem (mem_of_getLast? final)
    rw [final] at count
    generalize (es.filter isComma).length = commas at count few ⊢
    generalize es.length = size at count few some ⊢
    cases comma : e.isComma with
    | false =>
      simp [comma] at count ⊢
      omega
    | true =>
      simp [comma] at count ⊢
      cases commented with
      | false =>
        simp
        split <;> omega
      | true =>
        simp
        omega

/-- Without spread elements the trees of a list are those of its phrases, in their order. -/
theorem lowered_of_items {what : Text} (items : ∀ start p, .spread start p ∉ es) :
    Element.lowered what es = (es.filterMap phrase?).mapM Phrase.lowered := by
  induction es with
  | nil => rfl
  | cons e es ih =>
    have others := ih fun start p member => items start p (.tail _ member)
    cases e with
    | comma => exact others
    | spread start p => exact absurd (.head _) (items start p)
    | item p =>
      change (do let head ← p.lowered; return head :: (← Element.lowered what es)) = List.mapM _ (p :: _)
      rw [mapM_cons, others]

end Counting

section Reading

variable {r : Readers} {closing : String} {c next : Cursor} {es : List Element} {commented : Bool} {n : Nat}

theorem exists_gap {t rest : Text} {s : String} (h : Leads (ahead t) (.symbol s) rest) :
    t = t.take (gap t).length ++ (s ++ rest) ∧ IsGap (t.take (gap t).length) := by
  rw [← h.eq_append]
  exact ⟨(take_append_drop _ _).symm, isGap_take t⟩

/-- What is read as a list in brackets stands there as one. -/
theorem laid_of_elements (h : r.elements closing n c = some ((es, commented), next)) {fresh : Bool}
    (ready : fresh = false → next? (ahead c.rest) = some (.symbol ",") ∨ next? (ahead c.rest) = some (.symbol closing)) :
    ∃ last, Laid r closing fresh c.rest es last next.rest ∧ (commented ↔ ∃ x ∈ last, isBlank x = false) := by
  induction n generalizing c es commented fresh with
  | zero => cases h
  | succ n ih =>
    obtain ⟨⟨closed, here⟩, asked, h'⟩ := Option.bind_eq_some_iff.mp h
    clear h
    rcases takeIf_cases asked with ⟨rfl, leads⟩ | ⟨rfl, rfl, opened⟩
    · cases h'
      exact ⟨_, .closed (exists_gap leads).1 (exists_gap leads).2, hasComment_gap c.rest⟩
    obtain ⟨⟨comma, after⟩, asked, h⟩ := Option.bind_eq_some_iff.mp h'
    clear h'
    rcases takeIf_cases asked with ⟨rfl, leads⟩ | ⟨rfl, rfl, divided⟩
    · obtain ⟨⟨read, last⟩, others, same⟩ := Option.bind_eq_some_iff.mp h
      cases same
      obtain ⟨last, laid, iff⟩ := ih others fun stale : true = false => by cases stale
      exact ⟨last, .comma (exists_gap leads).1 (exists_gap leads).2 laid, iff⟩
    obtain ⟨start, -, h⟩ := looks_position.run h
    obtain ⟨⟨spread, inner⟩, marked, h⟩ := Option.bind_eq_some_iff.mp h
    obtain ⟨⟨p, behind⟩, covered, h⟩ := Option.bind_eq_some_iff.mp h
    obtain ⟨comma, isComma, h⟩ := (looks_isNext _).run h
    obtain ⟨close, isClose, h⟩ := (looks_isNext _).run h
    obtain ⟨⟨⟩, required, h⟩ := (looks_require _).run h
    obtain ⟨⟨read, last⟩, others, same⟩ := Option.bind_eq_some_iff.mp h
    cases same
    obtain ⟨last, laid, iff⟩ := ih others fun _ : false = false => by
      rcases Bool.or_eq_true_iff.mp required with yes | yes
      · exact .inl (eq_of_beq (isComma.symm.trans yes))
      · exact .inr (eq_of_beq (isClose.symm.trans yes))
    have isFresh : fresh = true := by
      by_contra stale
      exact (ready (Bool.eq_false_iff.mpr stale)).elim divided opened
    subst isFresh
    rcases takeIf_cases marked with ⟨rfl, leads⟩ | ⟨rfl, rfl, -⟩
    · exact ⟨last, .spread (exists_gap leads).1 (exists_gap leads).2 covered laid, iff⟩
    · exact ⟨last, .item covered laid, iff⟩

end Reading

end Unravel.Grammar

namespace Unravel

end Unravel
