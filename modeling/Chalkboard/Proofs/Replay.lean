import Chalkboard.Proofs.Recording

/-! The timeline replays the run. Who starts from nothing and, frame by frame, drops the keys that are gone
and writes down what is new or changed, always has the keys of the frame's memory, and under each of them
what compares equal to its value. -/

namespace Chalkboard.Timeline

open Effects
open Syntax (Program)
open Chalkboard.Types (Graph)
open Memory (Root Cell)
open Run (Situation Course runProgram)

/-- Whether a value of one frame is equal to one of another. Every frame has its own copies of the constants,
so a value with a constant in it is not equal to any of another frame. -/
def EqualAcross (i : Nat) (v : Value) (j : Nat) (w : Value) : Prop :=
  v.equal w = .ok true ∧ (i = j ∨ v.constantFree = true)

/-- What a frame has to tell about the memory that it follows: no key twice, the keys that came, those that
are gone, and those whose value is not equal to the one before. -/
structure Tally (g : Graph) (i : Nat) (before now : Memory) (d : Diff) : Prop where
  apart : (d.new ++ d.changed ++ d.deleted).Pairwise fun j k => j.same k = false
  new (k : Root) : among k d.new = true ↔ (now.rootCell? k).isSome ∧ before.rootCell? k = none
  deleted (k : Root) : among k d.deleted = true ↔ (before.rootCell? k).isSome ∧ now.rootCell? k = none
  changed (k : Root) : among k d.changed = true ↔ ∃ c c' v v', before.rootCell? k = some c ∧
    now.rootCell? k = some c' ∧ c.value g = .ok v ∧ c'.value g = .ok v' ∧ ¬EqualAcross (i + 1) v' i v

/-- What is written down under the keys, with the number of the frame it is from; the first frame has
number one. -/
def Replay : Type := Root → Option (Nat × Value)

def Frame.value? (g : Graph) (frame : Frame) (k : Root) : Option Value :=
  (frame.cell? k).bind fun c => (c.value g).toOption

/-- Drops what is gone and writes down what is new or changed. -/
def Replay.next (g : Graph) (held : Replay) (frame : Frame) (i : Nat) : Replay := fun k =>
  if among k (frame.diff.new ++ frame.diff.changed) then (frame.value? g k).map (i, ·)
  else if among k frame.diff.deleted then none
  else held k

def Replay.all (g : Graph) (held : Replay) : Nat → List Frame → Replay
  | _, [] => held
  | i, frame :: rest => (held.next g frame (i + 1)).all g (i + 1) rest

/-- What is written down are the keys of a frame's memory, and values equal to those under them. -/
def Replay.Shows (held : Replay) (g : Graph) (i : Nat) (m : Memory) : Prop :=
  ∀ k, match m.rootCell? k with
    | none => held k = none
    | some c => ∃ v j w, c.value g = .ok v ∧ held k = some (j, w) ∧ EqualAcross i v j w

section Frames

variable {types : Types} {before : Situation} {frame : Frame} {frames : List Frame}

theorem among_append (k : Root) (new changed : List Root) :
    among k (new ++ changed) = (among k new || among k changed) := List.any_append

theorem inside_defined {s : Situation} (hs : s.memory.Defined) {k : Root} {c : Cell}
    (hc : s.memory.rootCell? k = some c) : s.origins.inside c = [] := by
  obtain ⟨j, hmem, -⟩ := Memory.mem_entries hc
  rw [Run.Origins.inside, hs _ hmem]
  rfl

theorem Compares.tally {now : Situation} {d : Diff} (h : Compares types.graph before now d)
    (hnamed : types.WellNamed) (hlawful : Run.Lawful types now.memory) (hbefore : before.memory.Defined)
    (hnow : now.memory.Defined) (i : Nat) : Tally types.graph i before.memory now.memory d := by
  refine ⟨h.apart, h.new, h.deleted, fun k => ?_⟩
  have hequal {c c' : Cell} {v v' : Value} (hc : before.memory.rootCell? k = some c)
      (hc' : now.memory.rootCell? k = some c') (hv : c.value types.graph = .ok v)
      (hv' : c'.value types.graph = .ok v') :
      among k d.changed = true ↔ ¬EqualAcross (i + 1) v' i v := by
    have hstays : stays ⟨v', []⟩ ⟨v, []⟩ = .ok true ↔ v'.equal v = .ok true ∧ v'.constantFree = true :=
      stays_iff (hlawful.regular hnamed hnow hc' hv') rfl
    rw [h.changed_iff hc hc' hv hv', inside_defined hbefore hc, inside_defined hnow hc', Ne, hstays, EqualAcross]
    simp
  constructor
  · intro hchanged
    obtain ⟨c, c', v, v', hc, hc', hv, hv', -⟩ := (h.changed k).1 hchanged
    refine ⟨c, c', v.value, v'.value, hc, hc', (held_ok hv).1, (held_ok hv').1, ?_⟩
    exact (hequal hc hc' (held_ok hv).1 (held_ok hv').1).1 hchanged
  · rintro ⟨c, c', v, v', hc, hc', hv, hv', hacross⟩
    exact (hequal hc hc' hv hv').2 hacross

variable {held : Replay} {i : Nat}

theorem Replay.Shows.next (h : held.Shows types.graph i before.memory)
    (hvalues : ∀ k c, frame.memory.rootCell? k = some c →
      ∃ v, c.value types.graph = .ok v ∧ v.equal v = .ok true)
    (htally : Tally types.graph i before.memory frame.memory frame.diff) :
    (held.next types.graph frame (i + 1)).Shows types.graph (i + 1) frame.memory := by
  intro k
  have hbefore := h k
  rw [Replay.next, among_append, Frame.value?, Frame.cell?_eq]
  rcases hc : frame.memory.rootCell? k with _ | c
  · have hnew : among k frame.diff.new = false := by
      rw [← Bool.not_eq_true, htally.new, hc]
      simp
    have hchanged : among k frame.diff.changed = false := by
      rw [← Bool.not_eq_true, htally.changed, hc]
      simp
    dsimp only
    rw [hnew, hchanged]
    rcases hc₀ : before.memory.rootCell? k with _ | c₀
    · rw [hc₀] at hbefore
      simpa using fun _ => hbefore
    · have hdeleted : among k frame.diff.deleted = true := by
        rw [htally.deleted, hc, hc₀]
        simp
      simp [hdeleted]
  · obtain ⟨v, hv, hself⟩ := hvalues k c hc
    dsimp only
    by_cases htold : (among k frame.diff.new || among k frame.diff.changed) = true
    · rw [if_pos htold]
      exact ⟨v, i + 1, v, hv, by simp [hv, Except.toOption], hself, .inl rfl⟩
    · rw [if_neg htold]
      rw [Bool.or_eq_true, not_or, htally.new, htally.changed, hc] at htold
      rcases hc₀ : before.memory.rootCell? k with _ | c₀
      · exact absurd ⟨rfl, hc₀⟩ htold.1
      rw [hc₀] at hbefore
      obtain ⟨v₀, j, w, hv₀, hheld, hequal, -⟩ := hbefore
      have hdeleted : among k frame.diff.deleted = false := by
        rw [← Bool.not_eq_true, htally.deleted, hc]
        simp
      have hstayed : EqualAcross (i + 1) v i v₀ := by
        by_contra hunequal
        exact htold.2 ⟨c₀, c, v₀, v, hc₀, rfl, hv₀, hv, hunequal⟩
      have hfree : v.constantFree = true := hstayed.2.resolve_left (by omega)
      rw [hdeleted]
      exact ⟨v, j, w, hv, hheld, Value.equal_trans hstayed.1 hequal, .inr hfree⟩

end Frames

end Chalkboard.Timeline
