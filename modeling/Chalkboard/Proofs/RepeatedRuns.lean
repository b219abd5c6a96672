import Chalkboard.Proofs.Nesting
import Chalkboard.Proofs.Ranges
import Chalkboard.Proofs.ReadBlocks

/-! One program run several times, each time on a new memory. A run that stops inside a counting loop leaves
the loop in progress, and the next run takes its first test for a later one: it tries not the start but one
more or one less than the variable holds. So the later run agrees with the first exactly as long as no loop
that was left in progress comes out differently for that at its first test. A run that comes to its end
leaves nothing in progress. -/

namespace Chalkboard.Run

open Effects
open Syntax (Item Program program_nested)
open Reading (readProgram)

/-- The first steps of a program on a new memory, with loops that were left in progress. -/
def resumed (f : Frame) (p : Program) (loops : List Nat) (n : Nat) :
    Except Fault (Option Nat) × Course Unit :=
  runProgram f {} p false n (.start none loops ())

/-- A course without the loops in progress and the notes of a step. -/
def Course.bare (c : Course Unit) : Course Unit := { c with situation := c.situation.bare }

/-- The same result and the same course, but for the loops in progress. -/
def Agree (r r' : Except Fault (Option Nat) × Course Unit) : Prop := r.1 = r'.1 ∧ r.2.bare = r'.2.bare

/-- Among the first steps of a clean run is one at this place. -/
def Met (f : Frame) (p : Program) (n place : Nat) : Prop :=
  ∃ k < n, ∃ c, resumed f p [] k = (.ok (some place), c)

/-- One step from here comes out the same whether the loop at this place is in progress or not. -/
def Indifferent (f : Frame) (p : Program) (place : Nat) (c : Course Unit) : Prop :=
  Agree (runFrom f {} p.items.toArray 1 (some place) (c.looped []))
    (runFrom f {} p.items.toArray 1 (some place) (c.looped [place]))

/-- Loops that were left in progress come out the same where a clean run first comes to them. -/
def Harmless (f : Frame) (p : Program) (loops : List Nat) (n : Nat) : Prop :=
  ∀ k < n, ∀ place c, resumed f p [] k = (.ok (some place), c) → place ∈ loops → ¬Met f p k place →
    Indifferent f p place c

theorem harmless_nil {f : Frame} {p : Program} {n : Nat} : Harmless f p [] n := by
  intro k _ place c _ hmem
  cases hmem

section Agree

variable {r r' r'' : Except Fault (Option Nat) × Course Unit} {c c' : Course Unit}

theorem Agree.symm (h : Agree r r') : Agree r' r := ⟨h.1.symm, h.2.symm⟩

theorem Agree.trans (h : Agree r r') (h' : Agree r' r'') : Agree r r'' :=
  ⟨h.1.trans h'.1, h.2.trans h'.2⟩

theorem bare_iff : c.bare = c'.bare ↔ c.situation.bare = c'.situation.bare ∧ c.steps = c'.steps ∧
    c.last = c'.last ∧ c.current = c'.current := by
  obtain ⟨situation, steps, last, current, _⟩ := c
  obtain ⟨situation', steps', last', current', _⟩ := c'
  simp [Course.bare]

end Agree

section Step

variable {f : Frame} {p : Program} {place : Nat} {c c' : Course Unit}

theorem step_agree {item : Item} {s s' : Situation} (hbare : s.bare = s'.bare)
    (hloop : item.action.isCount = true → (place ∈ s.looping ↔ place ∈ s'.looping)) :
    (step f place item s).1 = (step f place item s').1 ∧
      (step f place item s).2.bare = (step f place item s').2.bare := by
  cases hcount : item.action.isCount with
  | false =>
    obtain ⟨hresult, hbare', -⟩ := (blind_step (f := f) place hcount).steady hbare
    exact ⟨hresult, hbare'⟩
  | true =>
    obtain ⟨action, next, inner, other⟩ := item
    rcases action with _ | ⟨_ | _ | _ | _ | _ | ⟨v, start, stop, up, body⟩⟩
    case perform.count =>
      have hcontains : s.looping.contains place = s'.looping.contains place := by
        rw [Bool.eq_iff_iff, List.contains_iff_mem, List.contains_iff_mem]
        exact hloop rfl
      obtain ⟨hresult, hbare', -⟩ :=
        (Blind.countTest (f := f) v start stop up (!s.looping.contains place)).steady hbare
      rw [step_count rfl s, step_count rfl s', ← hcontains]
      revert hresult hbare'
      rcases countTest f v start stop up (!s.looping.contains place) s with ⟨e | more, t⟩ <;>
        rcases countTest f v start stop up (!s.looping.contains place) s' with ⟨e' | more', t'⟩ <;>
        intro hresult hbare' <;> cases hresult
      · exact ⟨rfl, hbare'⟩
      · exact ⟨rfl, hbare'⟩
    all_goals cases hcount

theorem runFrom_one_agree (hbare : c.bare = c'.bare)
    (hloop : ∀ item, p.items[place]? = some item → item.action.isCount = true →
      (place ∈ c.situation.looping ↔ place ∈ c'.situation.looping)) :
    Agree (runFrom f {} p.items.toArray 1 (some place) c)
      (runFrom f {} p.items.toArray 1 (some place) c') := by
  rw [runFrom_one, runFrom_one, List.getElem?_toArray]
  rcases hitem : p.items[place]? with _ | item
  · exact ⟨rfl, hbare⟩
  · obtain ⟨hresult, hbare'⟩ := step_agree (f := f) (bare_iff.1 hbare).1 (hloop item hitem)
    obtain ⟨-, hsteps, hlast, -⟩ := bare_iff.1 hbare
    dsimp only
    rw [hsteps]
    revert hresult hbare'
    rcases step f place item c.situation with ⟨e | next, s⟩ <;>
      rcases step f place item c'.situation with ⟨e' | next', s'⟩ <;>
      intro hresult hbare' <;> cases hresult
    · exact ⟨rfl, bare_iff.2 ⟨hbare', rfl, hlast, rfl⟩⟩
    · exact ⟨rfl, bare_iff.2 ⟨hbare', congrArg (· + 1) hsteps, rfl, rfl⟩⟩

end Step

section Resumed

variable {f : Frame} {p : Program} {loops : List Nat}

theorem resumed_zero (hne : p.items ≠ []) :
    resumed f p loops 0 = (.ok (some 0), .start none loops ()) := by
  rw [resumed, runProgram_of_ne hne]
  rfl

theorem resumed_empty (h : p.items = []) (n : Nat) :
    resumed f p loops n = (.error (.misuse .emptyProgram), .start none loops ()) := by
  rw [resumed, runProgram, if_neg (by simp)]
  dsimp only
  rw [if_pos (by simpa using h)]
  rfl

theorem resumed_succ (n : Nat) :
    resumed f p loops (n + 1) = match resumed f p loops n with
      | (.ok (some place), c) => runFrom f {} p.items.toArray 1 (some place) c
      | r => r := by
  by_cases hne : p.items = []
  · rw [resumed_empty hne, resumed_empty hne]
  · rw [resumed, resumed, runProgram_of_ne hne, runProgram_of_ne hne, runFrom_add, bind_apply]
    rcases runFrom f {} p.items.toArray n (some 0) (.start none loops ()) with ⟨e | _ | place, c⟩
    · rfl
    · rfl
    · rfl

theorem met_succ {n q : Nat} :
    Met f p (n + 1) q ↔ Met f p n q ∨ ∃ c, resumed f p [] n = (.ok (some q), c) := by
  constructor
  · rintro ⟨k, hk, hmet⟩
    rcases Nat.lt_succ_iff_lt_or_eq.1 hk with hlt | rfl
    · exact .inl ⟨k, hlt, hmet⟩
    · exact .inr hmet
  · rintro (⟨k, hk, hmet⟩ | hmet)
    · exact ⟨k, Nat.lt_succ_of_lt hk, hmet⟩
    · exact ⟨n, Nat.lt_succ_self n, hmet⟩

/-- What a clean run leaves in progress: nothing if it came to its end, and otherwise the loops around the
place it came to last, and perhaps the loop at that place. -/
theorem resumed_inside (hf : FilledAll p.sentences) (n : Nat) :
    (∀ next, (resumed f p [] n).1 = .ok next → Inside p (resumed f p [] n).2.situation.looping next) ∧
    ∀ place, (resumed f p [] n).2.current = some place →
      (resumed f p [] n).2.situation.looping = p.around place ∨
        (resumed f p [] n).2.situation.looping = place :: p.around place := by
  by_cases hne : p.items = []
  · rw [resumed_empty hne]
    constructor <;> intro _ h <;> cases h
  induction n with
  | zero =>
    rw [resumed_zero hne]
    refine ⟨fun next h => ?_, fun _ h => (by cases h)⟩
    cases h
    obtain ⟨item, hitem⟩ : ∃ item, p.items[0]? = some item := by
      cases hitems : p.items with
      | nil => exact absurd hitems hne
      | cons item rest => exact ⟨item, rfl⟩
    have hnone : p.around 0 = [] := List.eq_nil_iff_forall_not_mem.2 fun q hq =>
      Nat.not_lt_zero q ((program_nested hf hitem).before q hq)
    exact .inl hnone.symm
  | succ n ih =>
    rw [resumed_succ]
    rcases hr : resumed f p [] n with ⟨e | _ | place, c⟩
    · rwa [hr] at ih
    · rwa [hr] at ih
    · rw [hr] at ih
      have hs : Inside p c.situation.looping (some place) := ih.1 _ rfl
      dsimp only
      rw [runFrom_one, List.getElem?_toArray]
      rcases hitem : p.items[place]? with _ | item
      · refine ⟨fun next h => ?_, ih.2⟩
        cases h
        rcases hs with heq | ⟨-, item, hitem', -⟩
        · have hout : p.around place = [] := by
            rw [Program.around, List.getD_eq_getElem?_getD, List.getElem?_eq_none]
            · rfl
            · have hlength := List.getElem?_eq_none_iff.1 hitem
              simpa [Program.items, declarationItems_length, blockItems_length,
                Syntax.blockSurroundings_length] using hlength
          exact heq.trans hout
        · rw [hitem] at hitem'
          cases hitem'
      · obtain ⟨hleft, hdone⟩ := step_inside (f := f) hf hitem hs
        dsimp only
        revert hleft hdone
        rcases step f place item c.situation with ⟨e | next, s⟩ <;> intro hleft hdone
        · refine ⟨fun _ h => (by cases h), fun q hq => ?_⟩
          cases hq
          exact hleft
        · refine ⟨fun next' h => ?_, fun q hq => ?_⟩
          · have hnext : next = next' := by
              dsimp only at h
              split at h <;> cases h
              rfl
            subst hnext
            exact hdone next s rfl
          · cases hq
            exact hleft

end Resumed

section Loops

variable {f : Frame} {p : Program} {loops : List Nat}

/-- The loops in progress in a clean run and in one that started with some left in progress: the second
also has those that the first has not come to yet. -/
def LoopsLeft (f : Frame) (p : Program) (loops : List Nat) (n : Nat) : Prop :=
  ∀ place c c', resumed f p [] n = (.ok (some place), c) →
    resumed f p loops n = (.ok (some place), c') →
    ∀ q item, p.items[q]? = some item → item.action.isCount = true →
      (q ∈ c.situation.looping → Met f p n q) ∧
      (q ∈ c'.situation.looping ↔ q ∈ c.situation.looping ∨ q ∈ loops ∧ ¬Met f p n q)

theorem loopsLeft_zero : LoopsLeft f p loops 0 := by
  intro place c c' hr hr' q item hitem _
  have hne : p.items ≠ [] := by
    rintro hnil
    rw [hnil] at hitem
    cases hitem
  rw [resumed_zero hne] at hr hr'
  cases hr
  cases hr'
  have hmet : ¬Met f p 0 q := fun ⟨k, hk, _⟩ => Nat.not_lt_zero k hk
  have hclean : q ∉ (Course.start none [] ()).situation.looping := List.not_mem_nil
  exact ⟨fun hq => absurd hq hclean, ⟨fun hq => .inr ⟨hq, hmet⟩, fun h => h.resolve_left hclean |>.1⟩⟩

variable {item : Item} {n place : Nat}

theorem inner_ne_next (hf : FilledAll p.sentences)
    (hitem : p.items[place]? = some item) (hcount : item.action.isCount = true) :
    item.inner ≠ item.next := by
  have hn := program_nested hf hitem
  have hloop : item.action.isLoop = true := by
    obtain ⟨action, next, inner, other⟩ := item
    rcases action with _ | ⟨_ | _ | _ | _ | _ | _⟩ <;> first | rfl | cases hcount
  obtain ⟨q, hq⟩ := hn.filled hloop
  have haround := hn.inner q hq
  rw [if_pos hcount] at haround
  intro heq
  have hnext := hn.next
  rw [← heq, hq] at hnext
  rcases hnext with hsame | ⟨hback, -⟩
  · have hlength := congrArg List.length (haround.symm.trans hsame)
    simp at hlength
  · have hlength := congrArg List.length hback
    rw [haround, List.length_cons, List.length_cons] at hlength
    omega

/-- What a step that is done changes about the loops in progress: it can be only whether the loop at its
place is, and this is told by where it leads. -/
theorem step_looping (hf : FilledAll p.sentences)
    (hitem : p.items[place]? = some item) {s s' : Situation} {next : Option Nat}
    (h : step f place item s = (.ok next, s')) :
    (∀ q, q ≠ place ∨ item.action.isCount = false → (q ∈ s'.looping ↔ q ∈ s.looping)) ∧
      (item.action.isCount = true → (place ∈ s'.looping ↔ next = item.inner)) := by
  cases hcount : item.action.isCount with
  | false =>
    have hkept := ((blind_step (f := f) place hcount).steady (rfl : s.bare = _)).2.2
    rw [h] at hkept
    dsimp only at hkept
    rw [hkept]
    exact ⟨fun _ _ => Iff.rfl, nofun⟩
  | true =>
    have hne := inner_ne_next hf hitem hcount
    obtain ⟨action, after, inner, other⟩ := item
    rcases action with _ | ⟨_ | _ | _ | _ | _ | ⟨v, start, stop, up, body⟩⟩
    case perform.count =>
      have hblind := Blind.countTest (f := f) v start stop up (!s.looping.contains place)
      have hkept := (hblind.steady (rfl : s.bare = _)).2.2
      rw [step_count rfl s] at h
      revert h hkept
      rcases countTest f v start stop up (!s.looping.contains place) s with ⟨e | more, t⟩ <;>
        intro h hkept <;> cases h
      dsimp only at hkept ⊢
      rw [hkept]
      cases more with
      | false =>
        refine ⟨fun q hq => ?_, fun _ => ?_⟩
        · simp [hq.resolve_right nofun]
        · simpa using hne.symm
      | true =>
        refine ⟨fun q hq => ?_, fun _ => ?_⟩
        · simp [hq.resolve_right nofun]
        · simp
    all_goals cases hcount

theorem resumed_came {place' : Nat} {d : Course Unit}
    (h : resumed f p loops (n + 1) = (.ok (some place'), d)) :
    ∃ place c item s, resumed f p loops n = (.ok (some place), c) ∧ p.items[place]? = some item ∧
      step f place item c.situation = (.ok (some place'), s) ∧ d = c.onward place s := by
  rw [resumed_succ] at h
  rcases hr : resumed f p loops n with ⟨e | _ | place, c⟩
  · rw [hr] at h
    cases h
  · rw [hr] at h
    cases h
  · rw [hr] at h
    dsimp only at h
    rw [runFrom_one, List.getElem?_toArray] at h
    rcases hitem : p.items[place]? with _ | item
    · rw [hitem] at h
      cases h
    · rw [hitem] at h
      dsimp only at h
      rcases hs : step f place item c.situation with ⟨e | next, s⟩
      · rw [hs] at h
        cases h
      · rw [hs] at h
        dsimp only at h
        split at h
        · cases h
        · cases h
          exact ⟨place, c, item, s, rfl, hitem, hs, rfl⟩

theorem loopsLeft_succ (hf : FilledAll p.sentences) (hleft : LoopsLeft f p loops n)
    (hagree : Agree (resumed f p [] n) (resumed f p loops n)) : LoopsLeft f p loops (n + 1) := by
  intro place' d d' hr hr' q entry hq hcountq
  obtain ⟨place, c, item, s, hc, hitem, hs, rfl⟩ := resumed_came hr
  obtain ⟨place₂, c', item₂, s', hc', hitem₂, hs', rfl⟩ := resumed_came hr'
  rw [hc, hc'] at hagree
  cases hagree.1
  cases hitem.symm.trans hitem₂
  obtain ⟨hmet, hloops⟩ := hleft place c c' hc hc' q entry hq hcountq
  obtain ⟨hother, hself⟩ := step_looping hf hitem hs
  obtain ⟨hother', hself'⟩ := step_looping hf hitem hs'
  have hnow : Met f p (n + 1) q ↔ Met f p n q ∨ q = place := by
    rw [met_succ, hc]
    simp [eq_comm]
  change (q ∈ s.looping → _) ∧ (q ∈ s'.looping ↔ q ∈ s.looping ∨ _)
  rw [hnow]
  by_cases hplace : q = place
  · subst hplace
    cases hq.symm.trans hitem
    rw [hself hcountq, hself' hcountq]
    simp
  · rw [hother q (.inl hplace), hother' q (.inl hplace), hloops]
    simpa [hplace] using hmet

theorem loopsLeft_of_agree (hf : FilledAll p.sentences)
    (h : ∀ k < n, Agree (resumed f p [] k) (resumed f p loops k)) : LoopsLeft f p loops n := by
  induction n with
  | zero => exact loopsLeft_zero
  | succ n ih =>
    exact loopsLeft_succ hf (ih fun k hk => h k (Nat.lt_succ_of_lt hk)) (h n (Nat.lt_succ_self n))

theorem first_test {c c' : Course Unit} (hleft : LoopsLeft f p loops n)
    (hc : resumed f p [] n = (.ok (some place), c))
    (hc' : resumed f p loops n = (.ok (some place), c')) (hbare : c.bare = c'.bare)
    (hmem : place ∈ loops) (hnew : ¬Met f p n place) :
    Agree (runFrom f {} p.items.toArray 1 (some place) c)
        (runFrom f {} p.items.toArray 1 (some place) (c.looped [])) ∧
      Agree (runFrom f {} p.items.toArray 1 (some place) c')
        (runFrom f {} p.items.toArray 1 (some place) (c.looped [place])) := by
  refine ⟨runFrom_one_agree rfl fun item hitem hcount => ?_,
    runFrom_one_agree hbare.symm fun item hitem hcount => ?_⟩
  · have hmet := (hleft place c c' hc hc' place item hitem hcount).1
    exact ⟨fun h => absurd (hmet h) hnew, fun h => by cases h⟩
  · have hloops := (hleft place c c' hc hc' place item hitem hcount).2
    exact ⟨fun _ => List.mem_singleton_self place, fun _ => hloops.2 (.inr ⟨hmem, hnew⟩)⟩

theorem agree_succ (hleft : LoopsLeft f p loops n)
    (hagree : Agree (resumed f p [] n) (resumed f p loops n))
    (hharmless : ∀ place c, resumed f p [] n = (.ok (some place), c) → place ∈ loops →
      ¬Met f p n place → Indifferent f p place c) :
    Agree (resumed f p [] (n + 1)) (resumed f p loops (n + 1)) := by
  rw [resumed_succ, resumed_succ]
  rcases hc : resumed f p [] n with ⟨e | _ | place, c⟩ <;>
    rcases hc' : resumed f p loops n with ⟨e' | _ | place', c'⟩ <;>
    rw [hc, hc'] at hagree <;> obtain ⟨hresult, hbare⟩ := hagree <;> cases hresult
  · exact ⟨rfl, hbare⟩
  · exact ⟨rfl, hbare⟩
  · by_cases hfirst : place ∈ loops ∧ ¬Met f p n place
    · obtain ⟨hclean, hleftover⟩ := first_test hleft hc hc' hbare hfirst.1 hfirst.2
      exact hclean.trans ((hharmless place c hc hfirst.1 hfirst.2).trans hleftover.symm)
    · refine runFrom_one_agree hbare fun item hitem hcount => ?_
      have hloops := (hleft place c c' hc hc' place item hitem hcount).2
      rw [hloops]
      exact ⟨.inl, fun h => h.resolve_right hfirst⟩

theorem agree_iff_harmless (hf : FilledAll p.sentences) (loops : List Nat) (n : Nat) :
    (∀ k ≤ n, Agree (resumed f p [] k) (resumed f p loops k)) ↔ Harmless f p loops n := by
  constructor
  · intro h k hk place c hc hmem hnew
    have hleft := loopsLeft_of_agree hf fun j hj => h j (Nat.le_of_lt (Nat.lt_trans hj hk))
    have hagree := h k (Nat.le_of_lt hk)
    have hnext := h (k + 1) hk
    rcases hc' : resumed f p loops k with ⟨r, c'⟩
    rw [hc, hc'] at hagree
    obtain ⟨hresult, hbare⟩ := hagree
    cases hresult
    rw [resumed_succ, resumed_succ, hc, hc'] at hnext
    obtain ⟨hclean, hleftover⟩ := first_test hleft hc hc' hbare hmem hnew
    exact hclean.symm.trans (hnext.trans hleftover)
  · intro h k hk
    have hboth : Agree (resumed f p [] k) (resumed f p loops k) ∧ LoopsLeft f p loops k := by
      induction k with
      | zero =>
        refine ⟨?_, loopsLeft_zero⟩
        by_cases hne : p.items = []
        · rw [resumed_empty hne, resumed_empty hne]
          exact ⟨rfl, rfl⟩
        · rw [resumed_zero hne, resumed_zero hne]
          exact ⟨rfl, rfl⟩
      | succ k ih =>
        obtain ⟨hagree, hleft⟩ := ih (Nat.le_of_succ_le hk)
        exact ⟨agree_succ hleft hagree (h k hk), loopsLeft_succ hf hleft hagree⟩
    exact hboth.1

theorem repeated_agree (hf : FilledAll p.sentences) (times : Nat)
    (hloops : Harmless f p loops (stepFuel f.limits))
    (hall : ∀ o ∈ repeated f p times loops, Harmless f p o.course.situation.looping (stepFuel f.limits)) :
    ∀ o ∈ repeated f p times loops,
      o.fault = (plain f p none []).fault ∧ o.course.bare = (plain f p none []).course.bare := by
  induction times generalizing loops with
  | zero =>
    intro o ho
    cases ho
  | succ times ih =>
    rw [repeated] at hall ⊢
    obtain ⟨hfirst, hrest⟩ := List.forall_mem_cons.1 hall
    refine List.forall_mem_cons.2 ⟨?_, ih hfirst hrest⟩
    have hagree := (agree_iff_harmless hf loops _).2 hloops _ (Nat.le_refl _)
    have hplain (loops : List Nat) :
        plain f p none loops = .of (resumed f p loops (stepFuel f.limits)) := rfl
    rw [hplain, hplain]
    revert hagree
    rcases resumed f p [] (stepFuel f.limits) with ⟨e | _, c⟩ <;>
      rcases resumed f p loops (stepFuel f.limits) with ⟨e' | _, c'⟩ <;>
      rintro ⟨hresult, hbare⟩ <;> cases hresult
    · exact ⟨rfl, hbare.symm⟩
    · exact ⟨rfl, hbare.symm⟩

end Loops

/-- A program that was read, run again and again on a new memory. A run with loops left in progress agrees
with a clean one from step to step, in result, count, places and memory, exactly if each of these loops comes
out the same, in progress or not, where the clean run first comes to it. What a clean run leaves in progress
is nothing if it came to its end, and otherwise the counting loops around the place it came to last, and
perhaps the loop at that place. Any number of runs agree as long as what they leave in progress is
harmless. -/
theorem later_runs_agree_iff_harmless {setting : Reading.Setting} {text : String} {p : Program}
    {types : Types} (hread : (readProgram setting text).run {} = (.ok p, types)) (limits : Types.Limits)
    (indexing : Bool) :
    let f : Frame := ⟨types, limits, indexing⟩
    (∀ loops n, (∀ k ≤ n, Agree (resumed f p [] k) (resumed f p loops k)) ↔ Harmless f p loops n) ∧
    (∀ n r c, resumed f p [] n = (r, c) → (r = .ok none → c.situation.looping = []) ∧
      ∀ place, c.current = some place →
        c.situation.looping = p.around place ∨ c.situation.looping = place :: p.around place) ∧
    ∀ times, (∀ o ∈ repeated f p times [], Harmless f p o.course.situation.looping (stepFuel limits)) →
      ∀ o ∈ repeated f p times [],
        o.fault = (plain f p none []).fault ∧ o.course.bare = (plain f p none []).course.bare := by
  intro f
  have hf := (Reading.readProgram_past hread).1
  refine ⟨agree_iff_harmless hf, fun n r c hr => ?_, fun times => ?_⟩
  · have hinside := resumed_inside (f := f) hf n
    rw [hr] at hinside
    exact ⟨hinside.1 none, hinside.2⟩
  · exact repeated_agree hf times harmless_nil

/-- A counting loop inside another; the limits decide whether it comes to its end. -/
def countedTwice : String :=
  "var i: int\nvar j: int\nfor i := 1 to 2 do\nfor j := i to 2 do\nskip\nod\nod\n"

def fewSteps : Types.Limits := { steps := some 6 }

theorem countedTwice_ends_or_stops :
    passes (readProgram {} countedTwice) {} (fun p types =>
      (repeated ⟨types, {}, true⟩ p 3 []).map (fun o => (o.fault, o.course.steps)) ==
          [(none, 13), (none, 13), (none, 13)] &&
        (repeated ⟨types, {}, true⟩ p 3 []).all (fun o => o.course.situation.looping.isEmpty) &&
        p.around 4 == [3, 2] &&
        (resumed ⟨types, fewSteps, true⟩ p [] 10).2.current == some 4) = true := by
  decide +kernel

theorem countedTwice_runs_agree :
    ∃ p types, (readProgram {} countedTwice).run {} = (.ok p, types) ∧
      (∀ o ∈ repeated ⟨types, {}, true⟩ p 3 [],
        o.fault = none ∧ o.course.bare = (plain ⟨types, {}, true⟩ p none []).course.bare) ∧
      let c := (resumed ⟨types, fewSteps, true⟩ p [] 10).2
      c.current = some 4 ∧ (c.situation.looping = [3, 2] ∨ c.situation.looping = [4, 3, 2]) := by
  obtain ⟨p, types, hread, hcheck⟩ := of_passes countedTwice_ends_or_stops
  simp only [Bool.and_eq_true, beq_iff_eq, List.all_eq_true, List.isEmpty_iff] at hcheck
  obtain ⟨⟨⟨hfaults, hloops⟩, haround⟩, hcurrent⟩ := hcheck
  refine ⟨p, types, hread, fun o ho => ⟨?_, ?_⟩, hcurrent, ?_⟩
  · have hmem := List.mem_map_of_mem (f := fun o : Outcome Unit => (o.fault, o.course.steps)) ho
    rw [hfaults] at hmem
    have hboth : (o.fault, o.course.steps) = (none, 13) := by simpa using hmem
    exact congrArg Prod.fst hboth
  · refine ((later_runs_agree_iff_harmless hread {} true).2.2 3 (fun o ho => ?_) o ho).2
    rw [hloops o ho]
    exact harmless_nil
  · have hleft := ((later_runs_agree_iff_harmless hread fewSteps true).2.1 10 _ _ rfl).2 4 hcurrent
    rwa [haround] at hleft

/-- A loop whose body fails before its variable has been assigned anything by another sentence. -/
def brokenLoop : String :=
  "var i: int\nvar z: int\nz := 0\nfor i := 1 to 3 do\nz := 1 / 0\nod\n"

theorem brokenLoop_faults :
    passes (readProgram {} brokenLoop) {} (fun p types =>
      (repeated ⟨types, {}, true⟩ p 3 []).map (fun o => (o.fault, o.course.steps)) ==
        [(some (.misuse .divisionByZero), 4), (some (.misuse .operands), 3),
          (some (.misuse .operands), 3)]) = true := by
  decide +kernel

/-- The second run tries one more than the variable holds, and the variable holds nothing yet. -/
theorem brokenLoop_runs_differ :
    ∃ p types, (readProgram {} brokenLoop).run {} = (.ok p, types) ∧
      (repeated ⟨types, {}, true⟩ p 3 []).map (fun o => (o.fault, o.course.steps)) =
        [(some (.misuse .divisionByZero), 4), (some (.misuse .operands), 3),
          (some (.misuse .operands), 3)] := by
  obtain ⟨p, types, hread, hfaults⟩ := of_passes brokenLoop_faults
  rw [beq_iff_eq] at hfaults
  exact ⟨p, types, hread, hfaults⟩

end Chalkboard.Run
