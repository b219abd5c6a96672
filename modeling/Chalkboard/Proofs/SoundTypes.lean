import Chalkboard.Proofs.OpenTargets
import Chalkboard.Types.Build

/-! Types that are sound: every part stands before the whole, arrays have axes whose ends are known whole
numbers, the sizes of tuples are natural numbers, names stand for types that there are, and a type leads
only to types with a name and to pointers and arrays made before it. Sound types have natural numbers as
sizes, and making, naming and settling types keeps them sound. -/

namespace Chalkboard.Types

open Effects

def Limit.IsWhole (l : Limit) : Prop := ∃ i : Int, l = .known (.int i)

def IsSize (v : Value) : Prop := ∃ n : Nat, v = .int n

def Node.Plain : Node → Prop
  | .array _ axes => axes ≠ [] ∧ ∀ a ∈ axes, a.low.IsWhole ∧ a.high.IsWhole
  | .tuple _ _ size => IsSize size
  | _ => True

structure Graph.Sound (g : Graph) : Prop where
  ordered : g.Ordered
  plain (t : TypeId) : (g.node t).Plain

/-- The types that a type leads to: those it is made of, and the one that a pointer points to. -/
def Node.links : Node → List TypeId
  | .pointer (.settled target) => [target]
  | n => n.parts

theorem Graph.lt_size_of_link {g : Graph} {t u : TypeId} (h : u ∈ (g.node t).links) :
    t < g.nodes.size := by
  refine lt_size_of_node fun hint => ?_
  rw [hint] at h
  cases h

def Node.isMade : Node → Bool
  | .pointer _ | .array .. => true
  | _ => false

def Registered (s : Types) (t : TypeId) : Prop := ∃ name, (name, .settled t) ∈ s.registry.types

structure Sound (s : Types) : Prop where
  graph : s.graph.Sound
  names : ∀ entry ∈ s.registry.types, ∃ t, entry.2 = .settled t ∧ t < s.graph.nodes.size ∧
    ∃ u, s.graph.closure t = .ok u
  standby : s.standby.types ⊆ s.registry.types
  tied (t : TypeId) : ∀ u ∈ (s.graph.node t).links,
    s.Registered u ∨ u < t ∧ (s.graph.node u).isMade = true

section Size

variable {axes : List Axis} {g : Graph} {v w x : Value}

theorem IsSize.mul (hv : IsSize v) (hw : IsSize w)
    (h : liftMisuse (v.mul w) = .ok x) : IsSize x := by
  obtain ⟨m, rfl⟩ := hv
  obtain ⟨n, rfl⟩ := hw
  cases h
  exact ⟨m * n, by simp⟩

theorem IsSize.add (hv : IsSize v) (hw : IsSize w)
    (h : liftMisuse (v.add w) = .ok x) : IsSize x := by
  obtain ⟨m, rfl⟩ := hv
  obtain ⟨n, rfl⟩ := hw
  cases h
  exact ⟨m + n, by simp⟩

theorem Axis.extent_ok {a : Axis} (hlow : a.low.IsWhole) (hhigh : a.high.IsWhole) :
    ∃ n : Nat, a.extent = .ok (.int n) := by
  obtain ⟨low, high⟩ := a
  obtain ⟨i, rfl⟩ := hlow
  obtain ⟨j, rfl⟩ := hhigh
  change ∃ n : Nat, (if (some (compare (j - i) 0) == some Ordering.gt) = true then
    Except.ok (Value.int (j - i)) else Except.ok (Value.int 0)) = .ok (.int n)
  split
  · rename_i hmore
    have hpos : 0 < j - i := by simpa [Int.compare_eq_gt] using hmore
    exact ⟨(j - i).toNat, by rw [Int.toNat_of_nonneg (by omega)]⟩
  · exact ⟨0, rfl⟩

theorem shape_ok (h : ∀ a ∈ axes, a.low.IsWhole ∧ a.high.IsWhole) :
    ∃ lengths : List Nat, lengths.length = axes.length ∧
      shape axes = .ok (lengths.map fun n : Nat => .int n) := by
  induction axes with
  | nil => exact ⟨[], rfl, rfl⟩
  | cons a rest ih =>
    obtain ⟨n, hn⟩ := Axis.extent_ok (h a List.mem_cons_self).1 (h a List.mem_cons_self).2
    obtain ⟨lengths, hlength, hrest⟩ := ih fun b hb => h b (List.mem_cons_of_mem _ hb)
    refine ⟨n :: lengths, congrArg (· + 1) hlength, ?_⟩
    rw [shape] at hrest
    rw [shape, List.mapM_cons, hn, hrest]
    rfl

theorem elementCount_ok (h : ∀ a ∈ axes, a.low.IsWhole ∧ a.high.IsWhole) :
    ∃ n : Nat, elementCount axes = .ok (.int n) := by
  obtain ⟨lengths, -, hshape⟩ := shape_ok h
  have hproduct (k : Nat) : ∃ n : Nat, (lengths.map fun n : Nat => Value.int n).foldlM
      (fun n m => liftMisuse (n.mul m)) (Value.int k) = .ok (.int n) := by
    clear hshape
    induction lengths generalizing k with
    | nil => exact ⟨k, rfl⟩
    | cons m rest ih =>
      obtain ⟨n, hn⟩ := ih (k * m)
      refine ⟨n, ?_⟩
      rw [← hn, Int.natCast_mul]
      rfl
  rw [elementCount, hshape]
  exact hproduct 1

theorem elementCount_isSize
    (h : ∀ a ∈ axes, a.low.IsWhole ∧ a.high.IsWhole) (hv : elementCount axes = .ok v) :
    IsSize v := by
  obtain ⟨n, hn⟩ := elementCount_ok h
  cases hn.symm.trans hv
  exact ⟨n, rfl⟩

theorem elementSizeFrom_isSize {size : TypeId → Except Fault Value}
    (h : ∀ t v, size t = .ok v → IsSize v) (fuel : Nat) (t : TypeId) (v : Value)
    (hv : g.elementSizeFrom size fuel t = .ok v) : IsSize v := by
  induction fuel generalizing t with
  | zero => exact h t v hv
  | succ fuel ih =>
    rw [Graph.elementSizeFrom] at hv
    split at hv
    · exact ih _ hv
    · exact h t v hv

theorem Graph.sizeFrom_isSize (plain : ∀ t, (g.node t).Plain) (fuel : Nat) (t : TypeId)
    (v : Value) (hv : g.sizeFrom fuel t = .ok v) : IsSize v := by
  induction fuel generalizing t v with
  | zero => cases hv
  | succ fuel ih =>
    have ht := plain t
    rw [sizeFrom] at hv
    split at hv
    · cases hv
      exact ⟨2, rfl⟩
    · rename_i element axes hnode
      rw [hnode] at ht
      obtain ⟨count, hcount, hrest⟩ := except_bind_ok hv
      obtain ⟨size, hsize, hmul⟩ := except_bind_ok hrest
      exact (elementCount_isSize ht.2 hcount).mul (elementSizeFrom_isSize ih _ _ _ hsize) hmul
    · rename_i name fields size hnode
      rw [hnode] at ht
      cases hv
      exact ht
    · exact ih _ _ hv
    · cases hv
      exact ⟨1, rfl⟩

theorem Graph.Sound.size_isSize (h : g.Sound) {t : TypeId}
    (hv : g.size t = .ok v) : IsSize v := Graph.sizeFrom_isSize h.plain _ t v hv

end Size

end Chalkboard.Types
