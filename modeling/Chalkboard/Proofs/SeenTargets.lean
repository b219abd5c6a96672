import Chalkboard.Proofs.ClosedTypes

/-! What looking for an open target finds. It does not enter a type again that is on its way already, so that
it comes to an end where types lead back to themselves; and it loses nothing by that, because what lies behind
such a type also lies behind the first visit to it. -/

namespace Chalkboard.Types

open Effects Relation

namespace Graph

variable {g : Graph} {o t u : TypeId} {trail : List TypeId}

theorem reaches_of_seen {fuel : Nat} (h : g.hasDeferralsFrom fuel t trail = true) :
    ∃ o, g.Reaches t o ∧ (g.node o).isOpen = true := by
  induction fuel generalizing t trail with
  | zero => cases h
  | succ fuel ih =>
    have hbehind {u : TypeId} (hu : u ∈ (g.node t).links)
        (hseen : g.hasDeferralsFrom fuel u (t :: trail) = true) :
        ∃ o, g.Reaches t o ∧ (g.node o).isOpen = true := by
      obtain ⟨o, hreach, hopen⟩ := ih hseen
      exact ⟨o, .head hu hreach, hopen⟩
    rw [hasDeferralsFrom] at h
    split at h
    · rename_i hnode
      exact ⟨t, .refl, by rw [hnode]; rfl⟩
    case h_2 | h_3 | h_4 =>
      rename_i hnode
      exact hbehind (by rw [hnode]; exact List.mem_cons_self) (Bool.and_eq_true_iff.1 h).2
    · rename_i hnode
      obtain ⟨field, hmem, hseen⟩ := List.any_eq_true.1 h
      exact hbehind (by rw [hnode]; exact List.mem_map_of_mem hmem) hseen
    · cases h

theorem Ordered.seen_of_link (ordered : g.Ordered) (hu : u ∈ (g.node t).links) (htrail : t ∉ trail)
    (hseen : g.hasDeferrals u (t :: trail) = true) : g.hasDeferrals t trail = true := by
  have hoff : trail.contains t = false := by simpa using htrail
  rw [ordered.hasDeferrals_eq, hoff]
  rcases hnode : g.node t with _ | _ | _ | _ | ⟨target | _⟩ | _ | ⟨_, fields⟩ | _ | _
  all_goals rw [hnode] at hu
  case pointer.settled | array | synonym =>
    rw [List.mem_singleton.1 hu] at hseen
    dsimp only
    rw [hseen]
    rfl
  case tuple =>
    obtain ⟨field, hmem, rfl⟩ := List.mem_map.1 hu
    exact List.any_eq_true.2 ⟨field, hmem, hseen⟩
  all_goals cases hu

/-- One look leads on to another, behind a tuple or behind a type that is not on the trail yet. -/
def LooksOn (g : Graph) (call call' : TypeId × List TypeId) : Prop :=
  call'.1 ∈ (g.node call.1).links ∧ call'.2 = call.1 :: call.2 ∧
    (call.1 ∈ call.2 → ∃ name fields size, g.node call.1 = .tuple name fields size)

theorem Ordered.reach_link (ordered : g.Ordered) (hu : u ∈ (g.node t).links)
    (hpointer : (g.node t).isPointer = true → t ∉ trail) : g.reach u (t :: trail) < g.reach t trail := by
  rcases hnode : g.node t with _ | _ | _ | _ | target | _ | _ | _ | _
  case pointer => exact reach_target hnode (hpointer (by rw [hnode]; rfl))
  all_goals
    refine ordered.reach_lt ?_
    rw [hnode] at hu ⊢
    exact hu

theorem Ordered.looksOn_wellFounded (ordered : g.Ordered) : WellFounded fun call' call => g.LooksOn call call' := by
  refine Subrelation.wf ?_ (measure fun call : TypeId × List TypeId => g.reach call.1 call.2).wf
  rintro ⟨u, _⟩ ⟨t, trail⟩ ⟨hu, rfl, htuple⟩
  refine ordered.reach_link hu fun hpointer htrail => ?_
  obtain ⟨name, fields, size, hnode⟩ := htuple htrail
  rw [hnode] at hpointer
  cases hpointer

/-- One type leads to another, past none on a trail. -/
def ReachesPast (g : Graph) (trail : List TypeId) : TypeId → TypeId → Prop :=
  ReflTransGen fun t u => u ∈ (g.node t).links ∧ u ∉ trail

/-- Of a way from a type, what comes behind its last visit to that type. -/
theorem ReachesPast.leave (h : g.ReachesPast trail t o) :
    o = t ∨ ∃ u ∈ (g.node t).links, u ∉ t :: trail ∧ g.ReachesPast (t :: trail) u o := by
  induction h with
  | refl => exact .inl rfl
  | @tail x y _ hlink ih =>
    by_cases hyt : y = t
    · exact .inl hyt
    have hy : y ∉ t :: trail := fun hmem => (List.mem_cons.1 hmem).elim hyt hlink.2
    rcases ih with rfl | ⟨u, hu, hnew, hux⟩
    · exact .inr ⟨y, hlink.1, hy, .refl⟩
    · exact .inr ⟨u, hu, hnew, hux.tail ⟨hlink.1, hy⟩⟩

theorem Ordered.seen_of_reaches (ordered : g.Ordered) (hopen : (g.node o).isOpen = true) (htrail : t ∉ trail)
    (h : g.ReachesPast trail t o) : g.hasDeferrals t trail = true := by
  -- each step of the way makes the rest of the search shorter
  induction hn : g.reach t trail using Nat.strongRecOn generalizing t trail with
  | ind n ih =>
    rcases h.leave with rfl | ⟨u, hu, hnew, hbehind⟩
    · rw [ordered.hasDeferrals_eq]
      rcases hnode : g.node o with _ | _ | _ | _ | ⟨_ | _⟩ | _ | _ | _ | _
      case pointer.deferred => rfl
      all_goals
        rw [hnode] at hopen
        cases hopen
    · have hshorter := ordered.reach_link hu fun _ => htrail
      exact ordered.seen_of_link hu htrail (ih _ (hn ▸ hshorter) hnew hbehind rfl)

theorem isOpen_iff : (g.node o).isOpen = true ↔ ∃ side name, g.node o = .pointer (.deferred side name) := by
  rcases g.node o with _ | _ | _ | _ | ⟨_ | _⟩ | _ | _ | _ | _ <;> simp [Node.isOpen]

theorem anyM_told {α : Type} {told : α → Except Fault Bool} {seen : α → Bool} {deep : Prop} {e : Fault}
    (xs : List α) (h : ∀ x ∈ xs, told x = .ok (seen x) ∨ deep ∧ told x = .error e) :
    xs.anyM told = .ok (xs.any seen) ∨ deep ∧ xs.anyM told = .error e := by
  induction xs with
  | nil => exact .inl rfl
  | cons x xs ih =>
    obtain ⟨hx, hxs⟩ := List.forall_mem_cons.1 h
    rw [List.anyM, List.any_cons]
    rcases hx with hx | ⟨hdeep, hx⟩ <;> rw [hx]
    · cases seen x with
      | true => exact .inl rfl
      | false => exact ih hxs
    · exact .inr ⟨hdeep, rfl⟩

/-- A look in which calls may nest to some depth tells the same, or it fails; and it does not fail where it
may go as deep as it can. -/
theorem Ordered.deferralsWithin_cases (ordered : g.Ordered) (depth : Nat) (t : TypeId) (trail : List TypeId) :
    g.deferralsWithin depth t trail = .ok (g.hasDeferrals t trail) ∨
      depth < g.reach t trail ∧ g.deferralsWithin depth t trail = .error (.misuse .endless) := by
  induction depth generalizing t trail with
  | zero => exact .inr ⟨Nat.succ_pos _, rfl⟩
  | succ depth ih =>
    have hnext {u : TypeId} (hu : u ∈ (g.node t).links)
        (hpointer : (g.node t).isPointer = true → t ∉ trail) :
        g.deferralsWithin depth u (t :: trail) = .ok (g.hasDeferrals u (t :: trail)) ∨
          depth + 1 < g.reach t trail ∧
            g.deferralsWithin depth u (t :: trail) = .error (.misuse .endless) :=
      (ih u (t :: trail)).imp_right fun h =>
        ⟨Nat.lt_of_le_of_lt h.1 (ordered.reach_link hu hpointer), h.2⟩
    rw [deferralsWithin, ordered.hasDeferrals_eq]
    rcases hnode : g.node t with _ | _ | _ | _ | ⟨target | _⟩ | _ | ⟨_, fields⟩ | _ | _
    case pointer.settled | array | synonym =>
      by_cases hseen : t ∈ trail
      · simp [hseen]
      · simpa [hseen] using hnext (by rw [hnode]; exact List.mem_cons_self) fun _ => hseen
    case tuple =>
      refine anyM_told fields fun field hfield => hnext ?_ fun hpointer => ?_
      · rw [hnode]
        exact List.mem_map_of_mem hfield
      · rw [hnode] at hpointer
        cases hpointer
    all_goals exact .inl rfl

end Graph

/-- Any text is read, on sound types, and whether it ends in a fault or not, any of the open targets in the
types that it leaves are settled. Then looking for an open target comes to an end: no chain of looks, each led
to by the one before, goes on for ever. It finds one behind a type just where the type leads to one, through the
targets of pointers, the elements of arrays, the fields of tuples and synonyms. And where calls may nest only to
some depth, the look tells that or fails; from a depth that depends on the types alone, it never fails. -/
theorem hasDeferrals_iff_reaches_open {s₀ s : Types} (hs₀ : s₀.Sound) (setting : Reading.Setting) (text : String)
    (h : Later (Reading.readUnsettled setting text s₀).2 s) :
    (WellFounded fun call' call => s.graph.LooksOn call call') ∧
    ∀ t, (s.graph.hasDeferrals t = true ↔
        ∃ o side name, s.graph.Reaches t o ∧ s.graph.node o = .pointer (.deferred side name)) ∧
      ∀ depth, s.graph.deferralsWithin depth t [] = .ok (s.graph.hasDeferrals t) ∨
        depth < s.graph.walkFuel ∧ s.graph.deferralsWithin depth t [] = .error (.misuse .endless) := by
  have hread := (Course.grows (Reading.readUnsettled_leaves hs₀ setting text).course hs₀).1
  have ordered := (h.sound hread).graph.ordered
  refine ⟨ordered.looksOn_wellFounded, fun t => ⟨⟨fun hseen => ?_, ?_⟩, fun depth => ?_⟩⟩
  · obtain ⟨o, hreach, hopen⟩ := Graph.reaches_of_seen hseen
    obtain ⟨side, name, hnode⟩ := Graph.isOpen_iff.1 hopen
    exact ⟨o, side, name, hreach, hnode⟩
  · rintro ⟨o, side, name, hreach, hnode⟩
    refine ordered.seen_of_reaches (Graph.isOpen_iff.2 ⟨side, name, hnode⟩) List.not_mem_nil ?_
    exact ReflTransGen.mono (fun _ _ hlink => ⟨hlink, List.not_mem_nil⟩) t o hreach
  · exact (ordered.deferralsWithin_cases depth t []).imp_right
      fun hdeep => ⟨Nat.lt_of_lt_of_le hdeep.1 Graph.reach_le_walkFuel, hdeep.2⟩

/-- A tuple that points to itself and to a type that is never declared. -/
def halfOpen : String := "type a = tuple\n p: pointer of a\n q: pointer of b\nend tuple\nskip\n"

/-- The pointer of the tuple to itself is settled, the other one is not. -/
def halfSettled : Types := (settleFrom 1 4 none (Reading.readUnsettled {} halfOpen {}).2).2

theorem halfSettled_open :
    Later (Reading.readUnsettled {} halfOpen {}).2 halfSettled ∧
      (halfSettled.graph.node 4).links = [6] ∧ halfSettled.graph.hasDeferrals 4 = true ∧
      ∃ o side name, halfSettled.graph.Reaches 4 o ∧
        halfSettled.graph.node o = .pointer (.deferred side name) := by
  have hlater : Later (Reading.readUnsettled {} halfOpen {}).2 halfSettled := settleFrom_later 1 4 none _
  have hseen : halfSettled.graph.hasDeferrals 4 = true := by decide +kernel
  refine ⟨hlater, by decide +kernel, hseen, ?_⟩
  exact ((hasDeferrals_iff_reaches_open sound_basic {} halfOpen hlater).2 4).1.1 hseen

/-- A number and pointers, each to the one before. -/
def pointers (n : Nat) : Graph :=
  ⟨(.int :: (List.range n).map fun i => .pointer (.settled i)).toArray⟩

theorem pointers_too_deep (n depth i : Nat) (trail : List TypeId) (hi : i ≤ n) (hdepth : depth ≤ i)
    (htrail : ∀ t ∈ trail, i < t) :
    (pointers n).deferralsWithin depth i trail = .error (.misuse .endless) := by
  induction depth generalizing i trail with
  | zero => rfl
  | succ depth ih =>
    obtain ⟨i, rfl⟩ : ∃ j, i = j + 1 := ⟨i - 1, by omega⟩
    have hnode : (pointers n).node (i + 1) = .pointer (.settled i) := by
      simp [pointers, Graph.node, Nat.lt_of_succ_le hi]
    have hnew : trail.contains (i + 1) = false := by
      simpa using fun hmem => Nat.lt_irrefl _ (htrail _ hmem)
    rw [Graph.deferralsWithin, hnode, hnew]
    refine ih i _ (Nat.le_of_succ_le hi) (Nat.le_of_succ_le_succ hdepth) fun t ht => ?_
    rcases List.mem_cons.1 ht with rfl | ht
    · exact Nat.lt_succ_self i
    · exact Nat.lt_of_succ_lt (htrail t ht)

/-- Nothing is open among a thousand pointers, but no look gets to the end of them. -/
theorem thousandPointers_too_deep :
    (∀ t, ((pointers 1000).node t).isOpen = false) ∧
      (pointers 1000).deferralsWithin callDepth 1000 [] = .error (.misuse .endless) := by
  have hclosed (n t : Nat) : ((pointers n).node t).isOpen = false := by
    obtain _ | t := t
    · simp [pointers, Graph.node, Node.isOpen]
    · by_cases ht : t < n <;> simp [pointers, Graph.node, ht, Node.isOpen]
  exact ⟨hclosed 1000, pointers_too_deep 1000 callDepth 1000 [] (Nat.le_refl _) (by decide) (by simp)⟩

end Chalkboard.Types
