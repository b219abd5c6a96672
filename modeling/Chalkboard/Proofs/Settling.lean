import Chalkboard.Proofs.ReadTypes

/-! Whether the open targets of a program can be settled. -/

namespace Chalkboard.Types

open Effects Relation

/-- Looking for open targets always ends. Settling a type ends unless it leads to a type that circles,
and settling every registered type ends unless the settling of one of them leads to a type that
circles. -/
theorem settling_ends_iff_no_circle (s : Types) (ordered : s.graph.Ordered) :
    (∀ fuel t trail, s.graph.walkFuel ≤ fuel →
      s.graph.hasDeferralsFrom fuel t trail = s.graph.hasDeferrals t trail) ∧
    (∀ t told, Ends (settleFrom · t told) s ↔ ¬(⟨s, t, told⟩ : Call).Circular) ∧
    (Ends settleAllWithin s ↔ ∀ c, Demands s c → ¬c.Circular) := by
  refine ⟨fun fuel t trail hfuel => ordered.hasDeferralsFrom_eq hfuel t trail,
    fun t told => Call.ends_iff ⟨s, t, told⟩ ordered, ?_⟩
  rw [settleAll_ends_iff]
  exact forall_congr' fun c => forall_congr' fun hc => c.ends_iff (hc.ordered ordered)

/-- Two tuples that point to each other; the second points on to a third. -/
def crossing : String :=
  "type a = tuple\n p: pointer of b\nend tuple\n" ++
  "type b = tuple\n r: pointer of a\n s: pointer of c\nend tuple\n" ++
  "type c = tuple\n x: int\nend tuple\nskip\n"

/-- The same with the pointer to the third in front. -/
def crossingSafely : String :=
  "type a = tuple\n p: pointer of b\nend tuple\n" ++
  "type b = tuple\n s: pointer of c\n r: pointer of a\nend tuple\n" ++
  "type c = tuple\n x: int\nend tuple\nskip\n"

open Reading (readUnsettled)

theorem readUnsettled_ordered {text : String} {p : Syntax.Program} {s : Types}
    (h : (readUnsettled {} text).run {} = (.ok p, s)) : s.graph.Ordered := by
  have hcourse := (Reading.readUnsettled_leaves sound_basic {} text).course
  rw [show readUnsettled {} text {} = (.ok p, s) from h] at hcourse
  exact (Course.grows hcourse sound_basic).1.graph.ordered

theorem crossingSafely_ends_iff :
    ∃ p s, (readUnsettled {} crossingSafely).run {} = (.ok p, s) ∧ s.graph.Ordered ∧
      s.graph.hasDeferrals 8 = true ∧ Ends settleAllWithin s ∧ ∀ c, Demands s c → ¬c.Circular := by
  have hend : passes (readUnsettled {} crossingSafely) {} (fun _ s =>
      s.graph.hasDeferrals 8 && (settleAllWithin 5 s).1.isOk) = true := by
    decide +kernel
  obtain ⟨p, s, h, hcheck⟩ := of_passes hend
  obtain ⟨hopen, hok⟩ := Bool.and_eq_true_iff.1 hcheck
  have ordered := readUnsettled_ordered h
  have hends : Ends settleAllWithin s := by
    refine ⟨5, fun hdeep => ?_⟩
    rw [hdeep] at hok
    cases hok
  exact ⟨p, s, h, ordered, hopen, hends, (settling_ends_iff_no_circle s ordered).2.2.1 hends⟩

theorem crossing_circles :
    passes (readUnsettled {} crossing) {} (fun _ s =>
      let done := inTurn settleEntry (s.registry.types.take 5) 5 s
      s.registry.types.drop 5 == [("b", .settled 8), ("c", .settled 9)] && done.1.isOk &&
        done.2.graph.hasDeferrals 8 && done.2.graph.lead 8 none == some (6, some [8]) &&
        done.2.graph.lead 6 (some [8]) == some (5, none) &&
        done.2.graph.lead 5 none == some (4, some [5]) &&
        done.2.graph.lead 4 (some [5]) == some (8, none)) = true := by
  decide +kernel

/-- Settling the crossing pointers never ends: when the first tuple is done, the way from the second
goes through its pointer back to the first, and from there to the second again. -/
theorem crossing_never_settles :
    ∃ p s, (readUnsettled {} crossing).run {} = (.ok p, s) ∧
      ∀ depth, ((settleAllWithin depth).run s).1 = .error (.misuse .endless) := by
  obtain ⟨p, s, h, hcheck⟩ := of_passes crossing_circles
  simp only [Bool.and_eq_true, beq_iff_eq] at hcheck
  obtain ⟨⟨⟨⟨⟨⟨hnames, hok⟩, hseen⟩, hlead₁⟩, hlead₂⟩, hlead₃⟩, hlead₄⟩ := hcheck
  rcases hdone : inTurn settleEntry (s.registry.types.take 5) 5 s with ⟨_ | _, s₁⟩
  · rw [hdone] at hok
    cases hok
  rw [hdone] at hseen hlead₁ hlead₂ hlead₃ hlead₄
  have hdemand : Demands s ⟨s₁, 8, none⟩ := by
    refine ⟨s.registry.types.take 5, "b", [("c", .settled 9)], ?_, ⟨5, hdone⟩, hseen, rfl⟩
    rw [← hnames, List.take_append_drop]
  have hcircle : s₁.graph.Circles 8 :=
    .head hlead₁ (.head hlead₂ (.head hlead₃ (.single hlead₄)))
  have hnever : ¬Ends settleAllWithin s := by
    rw [settleAll_ends_iff]
    intro hall
    have ordered := hdemand.ordered (readUnsettled_ordered h)
    exact (Call.ends_iff _ ordered).1 (hall _ hdemand) ⟨s₁, 8, .refl, hcircle⟩
  refine ⟨p, s, h, fun depth => ?_⟩
  by_contra hdeep
  exact hnever ⟨depth, hdeep⟩

end Chalkboard.Types
