import Chalkboard.Picture.Lanes
import Mathlib

/-! Arrows that share a lane never share a height. The search for a lane is one pass over the arrows held, by
offset: it moves on only where an arrow is in the way, so it never comes back to a lane that it left, and no
arrow of the lane where it ends stands before the place at which it got there. -/

namespace Chalkboard.Picture

namespace CurvedArrow

/-- The heights that an arrow takes up, both ends included. -/
def heights (a : CurvedArrow) : Set ℚ := Set.uIcc a.start.y a.stop.y

theorem inOrder_eq (y z : ℚ) : inOrder y z = (min y z, max y z) := by
  rw [inOrder]
  split
  · rename_i hle
    rw [min_eq_left hle, max_eq_right hle]
  · rename_i hgt
    rw [min_eq_right (le_of_not_ge hgt), max_eq_left (le_of_not_ge hgt)]

theorem meets_eq_false (a : CurvedArrow) (y z : ℚ) :
    a.meets y z = false ↔ Disjoint a.heights (Set.uIcc y z) := by
  rw [heights, Set.uIcc, Set.uIcc, Set.disjoint_left, meets, range, inOrder_eq, inOrder_eq]
  simp only [Bool.not_eq_false', Bool.or_eq_true, decide_eq_true_eq, Set.mem_Icc, not_and, not_le]
  constructor
  · rintro (habove | hbelow) x ⟨hlow, hhigh⟩ hlow'
    · exact absurd (hlow'.trans hhigh) (not_le.2 habove)
    · exact hbelow.trans_le hlow
  · intro h
    by_contra hshared
    obtain ⟨hle, hle'⟩ := not_or.1 hshared
    -- the lower of the two first ends lies in both ranges
    have hlast := @h (max (a.start.y ⊓ a.stop.y) (y ⊓ z))
      ⟨le_max_left _ _, max_le inf_le_sup (not_lt.1 hle)⟩ (le_max_right _ _)
    exact absurd (max_le (not_lt.1 hle') inf_le_sup) (not_le.2 hlast)

end CurvedArrow

namespace Lanes

/-- One look at an arrow that is held: the offset moves on by a lane if the arrow is in the way. -/
def shift (step y z offset : ℚ) (a : CurvedArrow) : ℚ :=
  if a.offset == offset && a.meets y z then offset + step else offset

/-- Where a pass over arrows in the order of their offsets ends: every lane that it left has an arrow in the
way, and the lane where it ends has none. -/
theorem foldl_shift {step : ℚ} (hstep : 0 < step) (y z offset : ℚ) {arrows : List CurvedArrow}
    (hsorted : arrows.Pairwise fun a b => a.offset ≤ b.offset) :
    ∃ k : Nat, arrows.foldl (shift step y z) offset = offset + k * step ∧
      (∀ j < k, ∃ a ∈ arrows, a.offset = offset + j * step ∧ a.meets y z = true) ∧
      ∀ a ∈ arrows, a.offset = offset + k * step → a.meets y z = false := by
  induction arrows generalizing offset with
  | nil => exact ⟨0, by simp, by simp, by simp⟩
  | cons a rest ih =>
    obtain ⟨hfirst, hrest⟩ := List.pairwise_cons.1 hsorted
    rw [List.foldl_cons, shift]
    by_cases hway : a.offset = offset ∧ a.meets y z = true
    · obtain ⟨k, hend, hleft, hfree⟩ := ih (offset + step) hrest
      have hnext (j : Nat) : offset + step + j * step = offset + (j + 1 : Nat) * step := by
        push_cast
        ring
      refine ⟨k + 1, ?_, fun j hj => ?_, ?_⟩
      · rw [if_pos (by simpa using hway), hend, hnext]
      · cases j with
        | zero => exact ⟨a, List.mem_cons_self, by simpa using hway.1, hway.2⟩
        | succ j =>
          obtain ⟨b, hb, hoffset, hmeets⟩ := hleft j (by omega)
          exact ⟨b, List.mem_cons_of_mem _ hb, hoffset.trans (hnext j), hmeets⟩
      · rw [← hnext]
        refine List.forall_mem_cons.2 ⟨fun heq => ?_, hfree⟩
        have hpast : 0 ≤ k * step := mul_nonneg k.cast_nonneg hstep.le
        rw [hway.1] at heq
        linarith
    · obtain ⟨k, hend, hleft, hfree⟩ := ih offset hrest
      refine ⟨k, ?_, fun j hj => ?_, List.forall_mem_cons.2 ⟨fun heq => ?_, hfree⟩⟩
      · rw [if_neg (by simpa using hway), hend]
      · obtain ⟨b, hb, hlane⟩ := hleft j hj
        exact ⟨b, List.mem_cons_of_mem _ hb, hlane⟩
      · cases k with
        | zero =>
          refine Bool.eq_false_iff.2 fun hmeets => hway ⟨by simpa using heq, hmeets⟩
        | succ k =>
          -- the lane was left behind an arrow that comes later, so this arrow is not further out
          obtain ⟨b, hb, hoffset, -⟩ := hleft 0 (Nat.succ_pos k)
          have hle := hfirst b hb
          have hpast : 0 ≤ k * step := mul_nonneg k.cast_nonneg hstep.le
          rw [Nat.cast_succ, add_mul, one_mul] at heq
          rw [Nat.cast_zero, zero_mul] at hoffset
          linarith

theorem sorted_offsets (arrows : List CurvedArrow) :
    (arrows.mergeSort before).Pairwise fun a b => a.offset ≤ b.offset := by
  have hbefore (a b : CurvedArrow) : before a b = true ↔
      a.offset < b.offset ∨ a.offset = b.offset ∧ a.height ≤ b.height := by
    simp only [before, Bool.or_eq_true, decide_eq_true_eq, Bool.and_eq_true, beq_iff_eq]
  refine (@List.pairwise_mergeSort _ before (fun a b c hab hbc => ?_) (fun a b => ?_) arrows).imp
    fun {a b} hab => ?_
  · rw [hbefore] at hab hbc ⊢
    rcases hab with hab | ⟨hab, hheight⟩ <;> rcases hbc with hbc | ⟨hbc, hheight'⟩
    · exact .inl (hab.trans hbc)
    · exact .inl (hbc ▸ hab)
    · exact .inl (hab ▸ hbc)
    · exact .inr ⟨hab.trans hbc, hheight.trans hheight'⟩
  · rw [Bool.or_eq_true, hbefore, hbefore]
    rcases lt_trichotomy a.offset b.offset with hlt | heq | hgt
    · exact .inl (.inl hlt)
    · exact (le_total a.height b.height).imp (fun h => .inr ⟨heq, h⟩) fun h => .inr ⟨heq.symm, h⟩
    · exact .inr (.inl hgt)
  · exact ((hbefore a b).1 hab).elim le_of_lt fun h => h.1.le

/-- The offsets of the lanes in which an arrow between two heights would meet no arrow that is held. -/
def freeLanes (l : Lanes) (y z : ℚ) : Set ℚ :=
  {offset | (∃ k : Nat, 1 ≤ k ∧ offset = l.base + k * l.step) ∧
    ∀ held ∈ l.arrows, held.2.offset = offset → Disjoint held.2.heights (Set.uIcc y z)}

variable {colours : List Value} {l : Lanes}

theorem freeOffset_isLeast (hstep : 0 < l.step) (y z : ℚ) :
    IsLeast (l.freeLanes y z) (l.freeOffset y z) := by
  obtain ⟨k, hend, hleft, hfree⟩ :=
    foldl_shift hstep y z (l.base + l.step) (sorted_offsets (l.arrows.map (·.2)))
  have hlane (j : Nat) : l.base + l.step + j * l.step = l.base + (j + 1 : Nat) * l.step := by
    push_cast
    ring
  have heq : l.freeOffset y z = l.base + (k + 1 : Nat) * l.step := hend.trans (hlane k)
  rw [heq]
  refine ⟨⟨⟨k + 1, by omega, rfl⟩, fun held hheld hoffset => ?_⟩, ?_⟩
  · rw [← CurvedArrow.meets_eq_false]
    exact hfree held.2 (List.mem_mergeSort.2 (List.mem_map_of_mem hheld)) (by rw [hlane, hoffset])
  · rintro offset ⟨⟨j, hj, rfl⟩, hapart⟩
    obtain ⟨j, rfl⟩ : ∃ i, j = i + 1 := ⟨j - 1, by omega⟩
    by_cases hlt : j < k
    · obtain ⟨a, ha, hoffset, hmeets⟩ := hleft j hlt
      obtain ⟨held, hheld, rfl⟩ := List.mem_map.1 (List.mem_mergeSort.1 ha)
      have hdisjoint := hapart held hheld (hoffset.trans (hlane j))
      rw [← CurvedArrow.meets_eq_false, hmeets] at hdisjoint
      cases hdisjoint
    · have hle : k + 1 ≤ j + 1 := by omega
      exact add_le_add_right (mul_le_mul_of_nonneg_right (Nat.cast_le.2 hle) hstep.le) l.base

/-- What is asked of the lanes: to add an arrow, to forget one, to forget all. -/
inductive Call where
  | add (colours : List Value) (number : Nat) (start stop : Point)
  | remove (number : Nat)
  | clear

/-- The lanes after a call. One that fails leaves them as they were. -/
def answer (l : Lanes) : Call → Lanes
  | .add colours number start stop =>
    match l.add colours number start stop with
    | .ok (_, after) => after
    | .error _ => l
  | .remove number => l.remove number
  | .clear => l.clear

theorem add_ok {number : Nat} {start stop : Point} {arrow : CurvedArrow}
    {after : Lanes} (h : l.add colours number start stop = .ok (arrow, after)) :
    arrow.start = start ∧ arrow.stop = stop ∧ arrow.offset = l.freeOffset start.y stop.y ∧
      after = { l with arrows := l.arrows ++ [(number, arrow)] } := by
  rw [add] at h
  rcases hcolour : l.colourAt colours (l.freeOffset start.y stop.y) with e | colour
  · rw [hcolour] at h
    cases h
  · rw [hcolour] at h
    cases h
    exact ⟨rfl, rfl, rfl, rfl⟩

theorem add_succeeds (hstep : 0 < l.step) (hcolours : colours ≠ [])
    (number : Nat) (start stop : Point) :
    ∃ arrow after, l.add colours number start stop = .ok (arrow, after) := by
  have hcolour (offset : ℚ) : ∃ colour, l.colourAt colours offset = .ok colour := by
    have hpos : 0 < colours.length := List.length_pos_iff.2 hcolours
    let away := (offset - l.base) / l.step
    have hlt : min (Int.tdiv away.num away.den - 1).toNat (colours.length - 1) < colours.length := by omega
    refine ⟨colours[min (Int.tdiv away.num away.den - 1).toNat (colours.length - 1)], ?_⟩
    rw [colourAt, if_neg (by simpa using hstep.ne')]
    dsimp only
    rw [List.getElem?_eq_getElem hlt]
    rfl
  obtain ⟨colour, hcolour⟩ := hcolour (l.freeOffset start.y stop.y)
  exact ⟨_, _, by rw [add, hcolour]; rfl⟩

def Apart (l : Lanes) : Prop :=
  l.arrows.Pairwise fun a b => a.2.offset = b.2.offset → Disjoint a.2.heights b.2.heights

theorem answer_apart (hstep : 0 < l.step) (h : l.Apart) (call : Call) :
    (l.answer call).base = l.base ∧ (l.answer call).step = l.step ∧ (l.answer call).Apart := by
  cases call with
  | add colours number start stop =>
    rw [answer]
    rcases hadd : l.add colours number start stop with e | ⟨arrow, after⟩
    · exact ⟨rfl, rfl, h⟩
    · obtain ⟨rfl, rfl, hoffset, rfl⟩ := add_ok hadd
      refine ⟨rfl, rfl, List.pairwise_append.2 ⟨h, List.pairwise_singleton _ _, ?_⟩⟩
      intro held hheld new hnew heq
      cases List.mem_singleton.1 hnew
      exact (freeOffset_isLeast hstep arrow.start.y arrow.stop.y).1.2 held hheld (heq.trans hoffset)
  | remove number => exact ⟨rfl, rfl, h.filter _⟩
  | clear => exact ⟨rfl, rfl, .nil⟩

theorem answers_apart (hstep : 0 < l.step) (h : l.Apart) (calls : List Call) :
    (calls.foldl answer l).base = l.base ∧ (calls.foldl answer l).step = l.step ∧
      (calls.foldl answer l).Apart := by
  induction calls generalizing l with
  | nil => exact ⟨rfl, rfl, h⟩
  | cons call calls ih =>
    obtain ⟨hbase, hsame, hcall⟩ := answer_apart hstep h call
    obtain ⟨hbase', hsame', hcalls⟩ := ih (hsame ▸ hstep) hcall
    exact ⟨hbase'.trans hbase, hsame'.trans hsame, hcalls⟩

/-- Lanes at a positive distance from each other, after any calls: arrows that are held and have the same
offset share no height. And an arrow that is added next, between any two heights, takes the least offset of
a lane, counted from the first, at which it shares no height with an arrow held there; it is added whenever
there is a colour to draw it in. -/
theorem arrows_in_lane_disjoint (base step : ℚ) (hstep : 0 < step) (calls : List Call) :
    let l := calls.foldl answer { base := base, step := step }
    (l.arrows.Pairwise fun a b => a.2.offset = b.2.offset → Disjoint a.2.heights b.2.heights) ∧
      ∀ colours number start stop,
        (colours ≠ [] → ∃ arrow after, l.add colours number start stop = .ok (arrow, after)) ∧
        ∀ arrow after, l.add colours number start stop = .ok (arrow, after) →
          arrow.start = start ∧ arrow.stop = stop ∧ after.arrows = l.arrows ++ [(number, arrow)] ∧
          IsLeast {offset | (∃ k : Nat, 1 ≤ k ∧ offset = base + k * step) ∧
            ∀ held ∈ l.arrows, held.2.offset = offset → Disjoint held.2.heights arrow.heights}
            arrow.offset := by
  intro l
  obtain ⟨hbase, hsame, hapart⟩ : l.base = base ∧ l.step = step ∧ l.Apart :=
    answers_apart (l := { base := base, step := step }) hstep List.Pairwise.nil calls
  refine ⟨hapart, fun colours number start stop =>
    ⟨fun hcolours => add_succeeds (hsame ▸ hstep) hcolours number start stop, fun arrow after hadd => ?_⟩⟩
  obtain ⟨rfl, rfl, hoffset, rfl⟩ := add_ok hadd
  have hleast := freeOffset_isLeast (hsame ▸ hstep : 0 < l.step) arrow.start.y arrow.stop.y
  rw [freeLanes, hbase, hsame, ← hoffset] at hleast
  exact ⟨rfl, rfl, rfl, hleast⟩

/-- Three arrows, one inside the range of the other two, of which the first is forgotten. -/
def shuffled : List Call :=
  [.add [.absent] 0 ⟨0, 10⟩ ⟨0, 40⟩, .add [.absent] 1 ⟨0, 30⟩ ⟨0, 20⟩,
    .add [.absent] 2 ⟨0, 50⟩ ⟨0, 59 / 2⟩, .remove 0]

/-- The lane that became free is taken again by an arrow that touches those further out. -/
theorem freed_lane_taken_again :
    let l := shuffled.foldl answer { base := 10, step := 15 }
    l.arrows.map (·.2.offset) = [40, 55] ∧
      ∃ arrow after, l.add [.absent] 3 ⟨0, 20⟩ ⟨0, 50⟩ = .ok (arrow, after) ∧ arrow.offset = 25 ∧
        after.arrows.map (·.2.offset) = [40, 55, 25] := by
  intro l
  have hoffsets : l.arrows.map (·.2.offset) = [40, 55] := by cbv
  obtain ⟨-, hadds⟩ := arrows_in_lane_disjoint 10 15 (by decide) shuffled
  obtain ⟨hadded, hleast⟩ := hadds [.absent] 3 ⟨0, 20⟩ ⟨0, 50⟩
  obtain ⟨arrow, after, hadd⟩ := hadded (List.cons_ne_nil _ _)
  obtain ⟨-, -, hafter, hoffset⟩ := hleast arrow after hadd
  have hfirst : arrow.offset = 25 := by
    refine le_antisymm (hoffset.2 ⟨⟨1, le_rfl, by norm_num⟩, fun held hheld heq => ?_⟩) ?_
    · have hmem := List.mem_map_of_mem (f := fun a : Nat × CurvedArrow => a.2.offset) hheld
      rw [show List.map (fun a : Nat × CurvedArrow => a.2.offset) _ = [40, 55] from hoffsets, heq] at hmem
      simp at hmem
    · obtain ⟨⟨k, hk, heq⟩, -⟩ := hoffset.1
      have hlane : (1 : ℚ) ≤ k := Nat.one_le_cast.2 hk
      linarith
  exact ⟨hoffsets, arrow, after, hadd, hfirst, by rw [hafter, List.map_append, hoffsets]; simp [hfirst]⟩

end Lanes

end Chalkboard.Picture
