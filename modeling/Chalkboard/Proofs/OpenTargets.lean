import Chalkboard.Proofs.Effects
import Chalkboard.Types.Deferral
import Mathlib.Data.Finset.Card
import Mathlib.Data.Finset.Range

/-! The walk that looks for an open target ends: by value it goes down in the graph, and it goes through
no pointer twice. So its bound is never felt, and whether an open target is reachable obeys the equation
that the walk suggests. -/

namespace Chalkboard.Types

/-- The types that a type is made of by value. -/
def Node.parts : Node → List TypeId
  | .array element _ => [element]
  | .tuple _ fields _ => fields.map (·.2)
  | .synonym _ of => [of]
  | _ => []

def Node.isPointer : Node → Bool
  | .pointer _ => true
  | _ => false

namespace Graph

variable {g : Graph} {t u : TypeId} {trail : List TypeId}

def Ordered (g : Graph) : Prop := ∀ t, ∀ u ∈ (g.node t).parts, u < t

theorem node_of_size_le (h : g.nodes.size ≤ t) : g.node t = .int := by
  rw [node, Array.getD_eq_getD_getElem?, Array.getElem?_eq_none h, Option.getD_none]

theorem lt_size_of_node (h : g.node t ≠ .int) : t < g.nodes.size := by
  by_contra hlt
  exact h (node_of_size_le (Nat.le_of_not_lt hlt))

/-- The pointers a walk has not gone through yet. -/
def unseen (g : Graph) (trail : List TypeId) : Finset TypeId :=
  (Finset.range g.nodes.size).filter fun q => (g.node q).isPointer ∧ q ∉ trail

theorem unseen_cons_subset : g.unseen (t :: trail) ⊆ g.unseen trail := by
  intro q hq
  simp only [unseen, Finset.mem_filter, List.mem_cons, not_or] at hq ⊢
  exact ⟨hq.1, hq.2.1, hq.2.2.2⟩

theorem card_unseen_cons_le : (g.unseen (t :: trail)).card ≤ (g.unseen trail).card :=
  Finset.card_le_card unseen_cons_subset

theorem card_unseen_cons_lt {target : Target} (hnode : g.node t = .pointer target)
    (hnew : t ∉ trail) : (g.unseen (t :: trail)).card < (g.unseen trail).card := by
  have ht : t ∈ g.unseen trail := by
    simp only [unseen, Finset.mem_filter, Finset.mem_range]
    exact ⟨lt_size_of_node (by simp [hnode]), by simp [hnode, Node.isPointer], hnew⟩
  refine Finset.card_lt_card ⟨unseen_cons_subset, fun hback => ?_⟩
  have := hback ht
  simp [unseen] at this

/-- How long a walk can still be: each pointer not gone through yet costs a way down the graph. -/
def reach (g : Graph) (t : TypeId) (trail : List TypeId) : Nat :=
  (g.unseen trail).card * (g.nodes.size + 2) + min t g.nodes.size + 1

theorem reach_le_walkFuel : g.reach t trail ≤ g.walkFuel := by
  have hcard : (g.unseen trail).card ≤ g.nodes.size := by
    have := Finset.card_le_card (Finset.filter_subset (fun q => (g.node q).isPointer ∧ q ∉ trail)
      (Finset.range g.nodes.size))
    rwa [Finset.card_range] at this
  have hmul := Nat.mul_le_mul_right (g.nodes.size + 2) hcard
  have hmin : min t g.nodes.size ≤ g.nodes.size := Nat.min_le_right _ _
  have hsquare : (g.nodes.size + 2) * (g.nodes.size + 2)
      = g.nodes.size * (g.nodes.size + 2) + 2 * (g.nodes.size + 2) := Nat.add_mul _ _ _
  unfold reach walkFuel
  omega

theorem reach_part {t u : Nat} (hu : u < t) (ht : t < g.nodes.size) :
    g.reach u (t :: trail) < g.reach t trail := by
  have hcard : (g.unseen (t :: trail)).card ≤ (g.unseen trail).card := card_unseen_cons_le
  have hmul := Nat.mul_le_mul_right (g.nodes.size + 2) hcard
  unfold reach
  omega

theorem reach_target {target : Target} (hnode : g.node t = .pointer target) (hnew : t ∉ trail) :
    g.reach u (t :: trail) < g.reach t trail := by
  have hmul := Nat.mul_le_mul_right (g.nodes.size + 2) (card_unseen_cons_lt hnode hnew)
  rw [Nat.succ_mul] at hmul
  unfold reach
  omega

theorem Ordered.reach_lt (ordered : g.Ordered) (hu : u ∈ (g.node t).parts) :
    g.reach u (t :: trail) < g.reach t trail := by
  refine reach_part (ordered t u hu) (lt_size_of_node fun hnode => ?_)
  rw [hnode] at hu
  cases hu

theorem Ordered.hasDeferralsFrom_stable (ordered : g.Ordered) (fuel fuel' : Nat) (t : TypeId)
    (trail : List TypeId) (h : g.reach t trail ≤ fuel) (h' : g.reach t trail ≤ fuel') :
    g.hasDeferralsFrom fuel t trail = g.hasDeferralsFrom fuel' t trail := by
  induction fuel generalizing fuel' t trail with
  | zero => simp [reach] at h
  | succ fuel ih =>
    obtain _ | fuel' := fuel'
    · simp [reach] at h'
    -- one step further the way still to go is shorter, so both bounds are long enough again
    have step {u : TypeId} (hlt : g.reach u (t :: trail) < g.reach t trail) :
        g.hasDeferralsFrom fuel u (t :: trail) = g.hasDeferralsFrom fuel' u (t :: trail) :=
      ih fuel' u (t :: trail) (by omega) (by omega)
    simp only [hasDeferralsFrom]
    split
    · rfl
    · rename_i target hnode
      by_cases hseen : t ∈ trail
      · simp [hseen]
      · rw [step (reach_target hnode hseen)]
    · rename_i element axes hnode
      rw [step (ordered.reach_lt (by simp [hnode, Node.parts]))]
    · rename_i name of hnode
      rw [step (ordered.reach_lt (by simp [hnode, Node.parts]))]
    · rename_i name fields size hnode
      have hfields : ∀ field ∈ fields, g.hasDeferralsFrom fuel field.2 (t :: trail)
          = g.hasDeferralsFrom fuel' field.2 (t :: trail) := fun field hmem =>
        step (ordered.reach_lt (by
          simp only [hnode, Node.parts]
          exact List.mem_map_of_mem hmem))
      clear ih step hnode
      induction fields with
      | nil => rfl
      | cons field rest ihf =>
        simp only [List.any_cons]
        rw [hfields field List.mem_cons_self, ihf fun f hf => hfields f (List.mem_cons_of_mem _ hf)]
    · rfl

theorem Ordered.hasDeferralsFrom_eq (ordered : g.Ordered) {fuel : Nat} (h : g.walkFuel ≤ fuel)
    (t : TypeId) (trail : List TypeId) : g.hasDeferralsFrom fuel t trail = g.hasDeferrals t trail :=
  ordered.hasDeferralsFrom_stable _ _ _ _ (Nat.le_trans reach_le_walkFuel h) reach_le_walkFuel

theorem Ordered.hasDeferrals_eq (ordered : g.Ordered) (t : TypeId) (trail : List TypeId) :
    g.hasDeferrals t trail = match g.node t with
      | .pointer (.deferred ..) => true
      | .pointer (.settled target) => !trail.contains t && g.hasDeferrals target (t :: trail)
      | .array element _ => !trail.contains t && g.hasDeferrals element (t :: trail)
      | .synonym _ of => !trail.contains t && g.hasDeferrals of (t :: trail)
      | .tuple _ fields _ => fields.any fun field => g.hasDeferrals field.2 (t :: trail)
      | _ => false := by
  rw [← ordered.hasDeferralsFrom_eq (Nat.le_succ g.walkFuel), hasDeferralsFrom]
  rfl

theorem Ordered.hasDeferrals_lt_size (ordered : g.Ordered) (h : g.hasDeferrals t trail = true) :
    t < g.nodes.size := by
  refine lt_size_of_node fun hnode => ?_
  rw [ordered.hasDeferrals_eq, hnode] at h
  cases h

end Graph

end Chalkboard.Types
