import Chalkboard.Proofs.LostBlocks
import Chalkboard.Proofs.WithinLimits

/-! Complete types: all that such a type leads to is there, no target among it is open, and every synonym
among it stands for a type in the end. The types with names and the types of variables of a program that is
read are complete. A graph that keeps another leaves its complete types as they were: they stand for the same
types, have the same sizes and admit the same values, those within the limits stay within them, and cells of
them are made in the same way. -/

namespace Chalkboard.Types

open Effects Relation

def Graph.Complete (g : Graph) (t : TypeId) : Prop :=
  ∀ u, g.Reaches t u → u < g.nodes.size ∧ (g.node u).isOpen = false ∧ ∃ v, g.closure u = .ok v

section Complete

variable {g : Graph} {t u : TypeId}

theorem Graph.Complete.lt_size (h : g.Complete t) : t < g.nodes.size := (h t .refl).1

theorem Graph.Complete.link (h : g.Complete t) (hu : u ∈ (g.node t).links) : g.Complete u :=
  fun w hw => h w (.head hu hw)

theorem Graph.Complete.closure (h : g.Complete t) (hu : g.closure t = .ok u) : g.Complete u :=
  closure_keeps (fun _ _ ht hlink => ht.link hlink) hu h

theorem Graph.complete_heritable : g.Heritable g.Complete :=
  heritable_of_links fun _ _ ht hlink => ht.link hlink

theorem Sound.complete {s : Types} (hs : s.Sound) (hall : ∀ t, s.Registered t → Shut s t)
    (hshut : Shut s t) (husable : s.Usable t) : s.graph.Complete t := by
  intro u hreach
  obtain ⟨hlt, hopen⟩ := Shut.closed hall hshut u hreach
  refine ⟨hlt, hopen, hs.closes ?_⟩
  rcases ReflTransGen.cases_tail hreach with heq | ⟨_, -, hlink⟩
  · exact heq ▸ husable
  · exact hs.link_usable hlink

end Complete

/-- A graph that grew out of another and left its complete types as they were. -/
structure Graph.Keeps (g g' : Graph) : Prop where
  ordered : g.Ordered
  size : g.nodes.size ≤ g'.nodes.size
  node {t : TypeId} (ht : g.Complete t) : g'.node t = g.node t

theorem Graph.keeps_self {g : Graph} (ordered : g.Ordered) : g.Keeps g :=
  ⟨ordered, Nat.le_refl _, fun _ => rfl⟩

section Strip

variable {g : Graph} {t : TypeId}

theorem Graph.strip_eq (ordered : g.Ordered) (t : TypeId) {depth depth' : Nat} (h : t < depth)
    (h' : t < depth') : g.strip depth t = g.strip depth' t := by
  refine depth_irrelevant g.strip (fun depth depth' t _ _ hbelow => ?_) t h h'
  rw [strip, strip]
  split
  · rename_i of hnode
    exact hbelow of (ordered t of (by rw [hnode]; exact List.mem_cons_self))
  · rfl

end Strip

namespace Graph.Keeps

variable {g g' : Graph} {t : TypeId}

theorem lt_size (h : g.Keeps g') (ht : g.Complete t) : t < g'.nodes.size :=
  Nat.lt_of_lt_of_le ht.lt_size h.size

theorem closure_eq (h : g.Keeps g') (ht : g.Complete t) : g'.closure t = g.closure t :=
  closure_congr (fun t ht => by rw [h.node ht])
    (fun _ _ ht hmeant => ht.link (Node.parts_subset_links (Node.meant_mem_parts hmeant))) ht

theorem complete (h : g.Keeps g') (ht : g.Complete t) : g'.Complete t := by
  intro u hreach
  have hu : g.Complete u := by
    induction hreach with
    | refl => exact ht
    | tail _ hlink ih =>
      rw [h.node ih] at hlink
      exact ih.link hlink
  rw [h.node hu, h.closure_eq hu]
  exact ⟨h.lt_size hu, (hu u .refl).2⟩

theorem strip_eq (h : g.Keeps g') (fuel : Nat) (ht : g.Complete t) :
    g'.strip fuel t = g.strip fuel t ∧ g.Complete (g.strip fuel t) := by
  induction fuel generalizing t with
  | zero => exact ⟨rfl, ht⟩
  | succ fuel ih =>
    rw [strip, strip, h.node ht]
    split
    · rename_i of hnode
      exact ih (ht.link (by rw [hnode]; exact List.mem_cons_self))
    · exact ⟨rfl, ht⟩

theorem isPointer_eq (h : g.Keeps g') (ht : g.Complete t) : g'.isPointer t = g.isPointer t := by
  obtain ⟨hstrip, hcomplete⟩ := h.strip_eq (g'.nodes.size + 1) ht
  rw [isPointer, isPointer, hstrip, h.node hcomplete,
    Graph.strip_eq h.ordered t (lt_depth (h.lt_size ht)) (lt_depth ht.lt_size)]

theorem admitsFrom_eq (h : g.Keeps g') (v : Value) (depth : Nat) (ht : g.Complete t) :
    g'.admitsFrom v depth t = g.admitsFrom v depth t := by
  induction depth generalizing t with
  | zero => rfl
  | succ depth ih =>
    unfold admitsFrom
    rw [h.node ht]
    have hlink (u : TypeId) (hu : u ∈ (g.node t).links) := ih (ht.link hu)
    rcases hwas : g.node t with _ | _ | _ | _ | _ | ⟨element, axes⟩ | _ | _ | ⟨name, of⟩
    case array => exact hlink element (by rw [hwas]; exact List.mem_cons_self)
    case synonym => exact hlink of (by rw [hwas]; exact List.mem_cons_self)
    all_goals rfl

theorem admits_eq (h : g.Keeps g') (ht : g.Complete t) (v : Value) : g'.admits t v = g.admits t v := by
  rw [admits, admits, h.admitsFrom_eq v _ ht]
  exact h.ordered.admitsFrom_eq v t (lt_depth (h.lt_size ht)) (lt_depth ht.lt_size)

theorem elementSizeFrom_eq (h : g.Keeps g') {size size' : TypeId → Except Fault Value}
    (hsize : ∀ t, g.Complete t → size' t = size t) (fuel : Nat) (ht : g.Complete t) :
    g'.elementSizeFrom size' fuel t = g.elementSizeFrom size fuel t := by
  induction fuel generalizing t with
  | zero => exact hsize t ht
  | succ fuel ih =>
    rw [elementSizeFrom, elementSizeFrom, h.node ht]
    split
    · rename_i element axes hwas
      exact ih (ht.link (by rw [hwas]; exact List.mem_cons_self))
    · exact hsize t ht

theorem sizeFrom_eq (h : g.Keeps g') (depth : Nat) (ht : g.Complete t) :
    g'.sizeFrom depth t = g.sizeFrom depth t := by
  induction depth generalizing t with
  | zero => rfl
  | succ depth ih =>
    rw [sizeFrom, sizeFrom, h.node ht]
    split
    · rfl
    · rename_i element axes hwas
      rw [h.elementSizeFrom_eq (fun t ht => ih ht) depth
        (ht.link (by rw [hwas]; exact List.mem_cons_self))]
    · rfl
    · rename_i name of hwas
      exact ih (ht.link (by rw [hwas]; exact List.mem_cons_self))
    · rfl

theorem size_eq (h : g.Keeps g') (ht : g.Complete t) : g'.size t = g.size t := by
  rw [Graph.size, Graph.size, h.sizeFrom_eq _ ht]
  exact h.ordered.sizeFrom_eq t (lt_depth (h.lt_size ht)) (lt_depth ht.lt_size)

variable {limits : Limits}

theorem checkFrom_ok (h : g.Keeps g') (ht : g.Complete t) {fuel fuel' : Nat} (hfuel : fuel ≤ fuel')
    {depth : Int} {trail : List TypeId} (hcheck : g.checkFrom limits fuel t depth trail = .ok ()) :
    g'.checkFrom limits fuel' t depth trail = .ok () := by
  induction fuel generalizing t fuel' depth trail with
  | zero => cases hcheck
  | succ fuel ih =>
    obtain _ | fuel' := fuel'
    · exact absurd hfuel (Nat.not_succ_le_zero fuel)
    by_cases hback : t ∈ trail
    · rw [checkFrom, if_pos (by simpa using hback)]
    obtain ⟨hdepth, u, hu, hmeasure, hlinks⟩ := (checkFrom_passes hback).1 hcheck
    refine (checkFrom_passes hback).2 ⟨hdepth, u, (h.closure_eq ht).trans hu, ?_⟩
    rw [h.node (ht.closure hu)]
    exact ⟨hmeasure, fun w hw =>
      ih ((ht.closure hu).link hw) (Nat.le_of_succ_le_succ hfuel) (hlinks w hw)⟩

theorem checkLimits_ok (h : g.Keeps g') (ht : g.Complete t) (hcheck : g.checkLimits limits t = .ok ()) :
    g'.checkLimits limits t = .ok () := by
  refine h.checkFrom_ok ht ?_ hcheck
  unfold checkFuel
  split
  · have := Nat.mul_le_mul_left (‹Int›.toNat + 2) (Nat.add_le_add_right h.size 2)
    omega
  · exact Nat.le_refl _

end Graph.Keeps

end Chalkboard.Types

namespace Chalkboard.Memory

open Effects
open Chalkboard.Types (TypeId Graph)

theorem Shaped.leaf_of_isPointer {g : Graph} {c : Cell} (h : Shaped g c.type c)
    (hpointer : g.isPointer c.type = true) : ∃ a t v, c = .leaf a t v := by
  have hself (hmeant : (g.node c.type).meant = none) : (g.node c.type).isPointer = true := by
    rw [Graph.isPointer, Graph.strip_self _ hmeant] at hpointer
    cases hnode : g.node c.type <;> rw [hnode] at hpointer <;> first | rfl | cases hpointer
  cases c with
  | leaf a t v => exact ⟨a, t, v, rfl⟩
  | array t parts =>
    cases h with
    | array hnode _ _ =>
      rw [hnode] at hself
      cases hself rfl
  | tuple t parts =>
    cases h with
    | tuple hnode _ _ =>
      rw [hnode] at hself
      cases hself rfl

section Allocate

variable {g g' : Graph} {p : Partition} {t : TypeId}

theorem allocateFrom_kept (h : g.Keeps g') (depth : Nat) (ht : g.Complete t) :
    allocateFrom g' p depth t = allocateFrom g p depth t := by
  induction depth generalizing t with
  | zero => rfl
  | succ depth ih =>
    rw [allocateFrom, allocateFrom, h.node ht]
    split
    · rename_i element axes hnode
      rw [ih (ht.link (by rw [hnode]; exact List.mem_cons_self))]
    · rename_i name fields size hnode
      have hfields : ∀ field ∈ fields,
          (do return (field.1, ← allocateFrom g' p depth field.2) : MemoryM (String × Cell)) =
            (do return (field.1, ← allocateFrom g p depth field.2)) := fun field hmem => by
        rw [ih (ht.link (by rw [hnode]; exact List.mem_map_of_mem hmem))]
      exact congrArg (· >>= _) (mapM_congr hfields)
    · rw [allocateLeaf, allocateLeaf, h.size_eq ht]

theorem allocate_kept (h : g.Keeps g') (ht : g.Complete t) : allocate g' p t = allocate g p t :=
  (allocateFrom_kept h _ ht).trans
    (allocateFrom_eq h.ordered t (Graph.lt_depth (h.lt_size ht)) (Graph.lt_depth ht.lt_size))

/-- Two memories in which the next free number has moved to the same place. -/
def Moved (p : Partition) (m m' m₁ m₁' : Memory) : Prop :=
  ∃ n, m₁ = m.setNext p n ∧ m₁' = m'.setNext p n

theorem allocate_moved (g : Graph) (t : TypeId) {m m' : Memory} (hnext : m'.next p = m.next p) :
    Agrees (Moved p m m') (allocate g p t) m m' := by
  refine allocateFrom_agrees ?_ ?_ _ t ⟨m.next p, setNext_next.symm, by rw [← hnext, setNext_next]⟩
  · rintro _ _ ⟨n, rfl, rfl⟩
    rw [next_setNext, next_setNext]
  · rintro _ _ k ⟨n, rfl, rfl⟩
    exact ⟨k, setNext_setNext, setNext_setNext⟩

end Allocate

end Chalkboard.Memory
