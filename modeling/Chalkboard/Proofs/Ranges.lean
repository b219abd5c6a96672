import Chalkboard.Proofs.History
import Chalkboard.Proofs.ReadTypes
import Mathlib.Data.Set.Lattice
import Mathlib.Order.CompletePartialOrder

/-! The ranges of leaves. A leaf takes the numbers from its address on, as many as its type takes room.
Along a run the leaves of variables stay on the stack and those of blocks on the heap, all below the next
free number of their partition, which never goes down, and no number is taken by two leaves. The key of a
block is the address of its first leaf, behind which all its leaves lie. -/

namespace Chalkboard.Memory

open Effects
open Chalkboard.Types (TypeId Graph)

/-- The addresses from a leaf's own on that its type takes room for. -/
def range (g : Graph) (leaf : Address × TypeId) : Set Address :=
  {a | a.partition = leaf.1.partition ∧ leaf.1.number ≤ a.number ∧
    a.number < leaf.1.number + leafRoom g leaf.2}

/-- A leaf of a partition whose range ends at or before a number. -/
def Under (g : Graph) (p : Partition) (stop : Int) (leaf : Address × TypeId) : Prop :=
  leaf.1.partition = p ∧ ∃ n : Nat, g.size leaf.2 = .ok (.int n) ∧ leaf.1.number + n ≤ stop

/-- One of two leaves ends before the other starts. -/
def Apart (g : Graph) (x y : Address × TypeId) : Prop :=
  x.1.number + leafRoom g x.2 ≤ y.1.number ∨ y.1.number + leafRoom g y.2 ≤ x.1.number

variable {a key : Address} {c : Cell} {g : Graph}

theorem leafRoom_eq {t : TypeId} {n : Nat} (h : g.size t = .ok (.int n)) :
    leafRoom g t = n := by
  rw [leafRoom, h]

section Lined

variable {g : Graph} {p : Partition} {start stop : Int} {leaves : List (Address × TypeId)}
  {x y : Address × TypeId}

theorem Apart.symm (h : Apart g x y) : Apart g y x := Or.symm h

theorem Apart.disjoint (h : Apart g x y) : Disjoint (range g x) (range g y) := by
  rw [Set.disjoint_left]
  rintro a ⟨-, hx, hx'⟩ ⟨-, hy, hy'⟩
  rcases h with h | h <;> omega

theorem disjoint_of_partition (h : x.1.partition ≠ y.1.partition) :
    Disjoint (range g x) (range g y) := by
  rw [Set.disjoint_left]
  rintro a ⟨hx, -⟩ ⟨hy, -⟩
  exact h (hx.symm.trans hy)

theorem Under.mono (h : Under g p start x) (hle : start ≤ stop) : Under g p stop x := by
  obtain ⟨hp, n, hn, hend⟩ := h
  exact ⟨hp, n, hn, by omega⟩

theorem Under.apart (h : Under g p start x) (hy : start ≤ y.1.number) : Apart g x y := by
  obtain ⟨-, n, hn, hend⟩ := h
  rw [Apart, leafRoom_eq hn]
  omega

theorem Lined.le (h : Lined g p start stop leaves) : start ≤ stop := by
  induction leaves generalizing start with
  | nil => exact Int.le_of_eq h
  | cons leaf rest ih =>
    obtain ⟨-, n, -, hrest⟩ := h
    have := ih hrest
    omega

theorem Lined.mem (h : Lined g p start stop leaves) (hx : x ∈ leaves) :
    start ≤ x.1.number ∧ Under g p stop x := by
  induction leaves generalizing start with
  | nil => cases hx
  | cons leaf rest ih =>
    obtain ⟨ha, n, hn, hrest⟩ := h
    rcases List.mem_cons.1 hx with rfl | hx
    · have hstop := hrest.le
      exact ⟨by rw [ha], by rw [ha], n, hn, by rw [ha]; exact hstop⟩
    · have hle := (ih hrest hx).1
      exact ⟨by omega, (ih hrest hx).2⟩

theorem Lined.apart (h : Lined g p start stop leaves) : leaves.Pairwise (Apart g) := by
  induction leaves generalizing start with
  | nil => exact .nil
  | cons leaf rest ih =>
    obtain ⟨ha, n, hn, hrest⟩ := h
    refine .cons (fun y hy => .inl ?_) (ih hrest)
    have hle := (hrest.mem hy).1
    rwa [leafRoom_eq hn, ha]

theorem Lined.first (h : Lined g p start stop leaves) (hne : leaves ≠ []) :
    (⟨p, start⟩ : Address) ∈ leaves.map (·.1) := by
  cases leaves with
  | nil => exact absurd rfl hne
  | cons leaf rest => exact List.mem_cons.2 (.inl h.1.symm)

end Lined

section Cells

theorem leaves_ne_nil : (c : Cell) → {a : Address} → c.address = .ok a → c.leaves ≠ []
  | .leaf .., _, _ => List.cons_ne_nil _ _
  | .array _ [], _, h => by cases h
  | .array _ (c :: cs), _, h => by
    have hfirst := leaves_ne_nil c h
    simp [Cell.leaves, leavesOfParts, hfirst]
  | .tuple _ [], _, h => by cases h
  | .tuple _ ((name, c) :: cs), _, h => by
    rw [Cell.address] at h
    obtain ⟨a, ha, -⟩ := except_bind_ok h
    have hfirst := leaves_ne_nil c ha
    simp [Cell.leaves, leavesOfFields, hfirst]

theorem leavesOfParts_modify {f : Cell → Cell} (h : ∀ c, (f c).leaves = c.leaves) (i : Nat)
    (parts : List Cell) : leavesOfParts (parts.modify i f) = leavesOfParts parts := by
  induction parts generalizing i with
  | nil => simp
  | cons c cs ih => cases i <;> simp [leavesOfParts, h, ih]

theorem map_snd_modify (f : Cell → Cell) (i : Nat) (parts : List (String × Cell)) :
    (parts.modify i fun (name, c) => (name, f c)).map (·.2) = (parts.map (·.2)).modify i f := by
  induction parts generalizing i with
  | nil => simp
  | cons part rest ih => cases i <;> simp [ih]

theorem leaves_write (v : Value) (path : List Nat) (c : Cell) : (c.write v path).leaves = c.leaves := by
  induction path generalizing c with
  | nil => cases c <;> rfl
  | cons i path ih =>
    cases c with
    | leaf => rfl
    | array t parts => exact leavesOfParts_modify ih i parts
    | tuple t parts =>
      rw [Cell.write, Cell.leaves, Cell.leaves, leavesOfFields_eq, leavesOfFields_eq, map_snd_modify]
      exact leavesOfParts_modify ih i _

theorem leastAddress_modify {f : Cell → Cell} (h : ∀ c, (f c).address = c.address) (i : Nat)
    (parts : List (String × Cell)) (least : Address) :
    Cell.leastAddress least (parts.modify i fun (name, c) => (name, f c)) =
      Cell.leastAddress least parts := by
  induction parts generalizing i least with
  | nil => simp
  | cons part rest ih => cases i <;> simp [Cell.leastAddress, h, ih]

theorem address_write (v : Value) (path : List Nat) (c : Cell) :
    (c.write v path).address = c.address := by
  induction path generalizing c with
  | nil => cases c <;> rfl
  | cons i path ih =>
    cases c with
    | leaf => rfl
    | array t parts =>
      cases parts with
      | nil => simp [Cell.write]
      | cons first rest => cases i <;> simp [Cell.write, Cell.address, ih]
    | tuple t parts =>
      cases parts with
      | nil => simp [Cell.write]
      | cons first rest =>
        cases i <;> simp [Cell.write, Cell.address, ih, leastAddress_modify ih]

end Cells

/-- The leaves under the stack, variable by variable. -/
def stackLeaves (m : Memory) : List (Address × TypeId) := m.stack.flatMap (·.2.leaves)

/-- The leaves under the heap, block by block. -/
def heapLeaves (m : Memory) : List (Address × TypeId) := m.heap.flatMap (·.2.leaves)

/-- The key of a block stands for the address of the block, which is the least of its leaves. -/
structure Keyed (key : Address) (c : Cell) (a : Address) : Prop where
  address : c.address = .ok a
  same : key.same a = true
  heap : a.partition = .heap
  nonneg : 0 ≤ key.number
  le : key.number ≤ a.number
  leaf : a ∈ c.leaves.map (·.1)
  least : ∀ leaf ∈ c.leaves, a.number ≤ leaf.1.number

/-- A memory whose leaves take ranges of their own, below the next free numbers. -/
structure Ranged (g : Graph) (m : Memory) : Prop where
  stack : ∀ leaf ∈ m.stackLeaves, Under g .stack m.nextStack leaf
  heap : ∀ leaf ∈ m.heapLeaves, Under g .heap m.nextHeap leaf
  stackApart : m.stackLeaves.Pairwise (Apart g)
  heapApart : m.heapLeaves.Pairwise (Apart g)
  keys : ∀ entry ∈ m.heap, ∃ a, Keyed entry.1 entry.2 a
  nonneg : 0 ≤ m.nextHeap
  bases : ∀ entry ∈ m.stack, ∀ a, entry.2.address = .ok a → 0 ≤ a.number ∧ a ∈ entry.2.leaves.map (·.1)
  nonnegStack : 0 ≤ m.nextStack

theorem Keyed.write (h : Keyed key c a) (v : Value) (path : List Nat) :
    Keyed key (c.write v path) a where
  address := by rw [address_write]; exact h.address
  same := h.same
  heap := h.heap
  nonneg := h.nonneg
  le := h.le
  leaf := by rw [leaves_write]; exact h.leaf
  least := by rw [leaves_write]; exact h.least

theorem Keyed.eq {m : Memory} (hm : Ranged g m)
    (hmem : (key, c) ∈ m.heap) (h : Keyed key c a) (hfull : m.nextHeap < keyPrime) : key = a := by
  obtain ⟨q, k⟩ := key
  obtain ⟨q', n⟩ := a
  obtain ⟨leaf, hleaf, hn⟩ := List.mem_map.1 h.leaf
  have hunder := hm.heap leaf (List.mem_flatMap.2 ⟨_, hmem, hleaf⟩)
  obtain ⟨-, room, -, hend⟩ := hunder
  have hq' : q' = .heap := h.heap
  have hq : q = q' := (Address.same_iff.1 h.same).1
  have hk : 0 ≤ k := h.nonneg
  have hkn : k ≤ n := h.le
  subst hq hq'
  have hdvd := (same_heap_iff hk (Int.le_trans hk hkn)).1 h.same
  have hnumber : leaf.1.number = n := by rw [hn]
  have hnear : ¬0 < n - k := fun hpos => by
    have := Int.le_of_dvd hpos hdvd
    omega
  rw [show k = n by omega]

section Turns

variable {g : Graph} {m : Memory}

theorem ranged_start : Ranged g {} where
  stack _ h := by cases h
  heap _ h := by cases h
  stackApart := .nil
  heapApart := .nil
  keys _ h := by cases h
  nonneg := Int.le_refl 0
  bases _ h := by cases h
  nonnegStack := Int.le_refl 0

theorem Ranged.setNext (h : Ranged g m) {p : Partition} {n : Int} (hle : m.next p ≤ n) :
    Ranged g (m.setNext p n) := by
  cases p with
  | stack =>
    exact { h with
      stack := fun leaf hleaf => (h.stack leaf hleaf).mono hle
      nonnegStack := Int.le_trans h.nonnegStack hle }
  | heap =>
    exact { h with
      heap := fun leaf hleaf => (h.heap leaf hleaf).mono hle
      nonneg := Int.le_trans h.nonneg hle }

theorem stackLeaves_write (here : Location) (v : Value) :
    (m.write here v).stackLeaves = m.stackLeaves := by
  obtain ⟨root, path⟩ := here
  cases root with
  | heap => rfl
  | stack name =>
    simp only [stackLeaves, write, List.flatMap_map]
    congr 1
    funext entry
    split
    · rw [leaves_write]
    · rfl

theorem heapLeaves_write (here : Location) (v : Value) :
    (m.write here v).heapLeaves = m.heapLeaves := by
  obtain ⟨root, path⟩ := here
  cases root with
  | stack => rfl
  | heap a =>
    simp only [heapLeaves, write, List.flatMap_map]
    congr 1
    funext entry
    split
    · rw [leaves_write]
    · rfl

theorem write_nextStack (here : Location) (v : Value) : (m.write here v).nextStack = m.nextStack := by
  unfold write
  split <;> rfl

theorem Ranged.write (h : Ranged g m) (here : Location) (v : Value) : Ranged g (m.write here v) where
  stack := by rw [stackLeaves_write, write_nextStack]; exact h.stack
  heap := by rw [heapLeaves_write, write_nextHeap]; exact h.heap
  stackApart := by rw [stackLeaves_write]; exact h.stackApart
  heapApart := by rw [heapLeaves_write]; exact h.heapApart
  keys entry hentry := by
    obtain ⟨root, path⟩ := here
    cases root with
    | stack => exact h.keys entry hentry
    | heap b =>
      obtain ⟨old, hold, rfl⟩ := List.mem_map.1 hentry
      obtain ⟨a, ha⟩ := h.keys old hold
      dsimp only
      split
      · exact ⟨a, ha.write v path⟩
      · exact ⟨a, ha⟩
  nonneg := by rw [write_nextHeap]; exact h.nonneg
  bases entry hentry := by
    obtain ⟨root, path⟩ := here
    cases root with
    | heap => exact h.bases entry hentry
    | stack name =>
      obtain ⟨old, hold, rfl⟩ := List.mem_map.1 hentry
      dsimp only
      split
      · rw [address_write, leaves_write]
        exact h.bases old hold
      · exact h.bases old hold
  nonnegStack := by rw [write_nextStack]; exact h.nonnegStack

theorem Ranged.push (h : Ranged g m) {c : Cell} (hlaid : Laid g .stack m.nextStack c) (name : String) :
    Ranged g { m.setNext .stack (m.nextStack + c.room g) with stack := m.stack ++ [(name, c)] } where
  stack leaf hleaf := by
    rw [stackLeaves, List.flatMap_append] at hleaf
    rcases List.mem_append.1 hleaf with hold | hnew
    · exact (h.stack leaf hold).mono hlaid.lined.le
    · rw [List.flatMap_singleton] at hnew
      exact (hlaid.lined.mem hnew).2
  heap := h.heap
  stackApart := by
    rw [stackLeaves, List.flatMap_append, List.flatMap_singleton]
    refine List.pairwise_append.2 ⟨h.stackApart, hlaid.lined.apart, fun x hx y hy => ?_⟩
    exact (h.stack x hx).apart (hlaid.lined.mem hy).1
  heapApart := h.heapApart
  keys := h.keys
  nonneg := h.nonneg
  bases entry hentry a ha := by
    rcases List.mem_append.1 hentry with hold | hnew
    · exact h.bases entry hold a ha
    · rw [List.mem_singleton.1 hnew] at ha ⊢
      rw [hlaid.address ha]
      exact ⟨h.nonnegStack, hlaid.lined.first (leaves_ne_nil c ha)⟩
  nonnegStack := Int.le_trans h.nonnegStack hlaid.lined.le

theorem Ranged.erase (h : Ranged g m) (a : Address) : Ranged g (m.erase a) where
  stack := h.stack
  heap leaf hleaf := by
    obtain ⟨entry, hentry, hin⟩ := List.mem_flatMap.1 hleaf
    exact h.heap leaf (List.mem_flatMap.2 ⟨entry, (List.mem_filter.1 hentry).1, hin⟩)
  stackApart := h.stackApart
  heapApart := by
    have hall := List.pairwise_flatMap.1 h.heapApart
    refine List.pairwise_flatMap.2 ⟨fun entry hentry => hall.1 entry (List.mem_filter.1 hentry).1, ?_⟩
    exact hall.2.filter _
  keys entry hentry := h.keys entry (List.mem_filter.1 hentry).1
  nonneg := h.nonneg
  bases := h.bases
  nonnegStack := h.nonnegStack

variable {heap : List (Address × Cell)}

/-- What holds between a new block and every other, and between any two others, holds on a heap that the
new block is entered in, in whichever place. -/
theorem pairwise_enter {R : Cell → Cell → Prop} (hsymm : ∀ x y, R x y → R y x) {a : Address} {c : Cell}
    (hold : heap.Pairwise fun x y => R x.2 y.2)
    (hnew : ∀ x ∈ heap, R x.2 c) : (enter a c heap).Pairwise fun x y => R x.2 y.2 := by
  induction heap with
  | nil => exact List.pairwise_singleton _ _
  | cons entry rest ih =>
    obtain ⟨b, old⟩ := entry
    rw [List.pairwise_cons] at hold
    have hrest : ∀ x ∈ rest, R x.2 c := fun x hx => hnew x (List.mem_cons_of_mem _ hx)
    rw [enter]
    split
    · exact .cons (fun x hx => hsymm _ _ (hrest x hx)) hold.2
    · refine .cons (fun x hx => ?_) (ih hold.2 hrest)
      rcases mem_enter hx with hx | hx
      · exact hold.1 x hx
      · rw [hx]
        exact hnew _ List.mem_cons_self

/-- A key after a block is entered is one from before, or it is the key of the new block: its own
address, or one from before that is the same. -/
theorem mem_enter_key {a : Address} {c : Cell}
    {entry : Address × Cell} (h : entry ∈ enter a c heap) :
    entry ∈ heap ∨ entry.2 = c ∧ (entry.1 = a ∨ entry.1.same a = true ∧ ∃ old, (entry.1, old) ∈ heap) := by
  induction heap with
  | nil =>
    rw [enter, List.mem_singleton] at h
    exact .inr (by rw [h]; exact ⟨rfl, .inl rfl⟩)
  | cons e rest ih =>
    obtain ⟨b, old⟩ := e
    rw [enter] at h
    split at h
    · rename_i hsame
      rcases List.mem_cons.1 h with rfl | h
      · exact .inr ⟨rfl, .inr ⟨hsame, old, List.mem_cons_self⟩⟩
      · exact .inl (List.mem_cons_of_mem _ h)
    · rcases List.mem_cons.1 h with rfl | h
      · exact .inl List.mem_cons_self
      · rcases ih h with hold | ⟨hc, hkey | ⟨hsame, old', hold⟩⟩
        · exact .inl (List.mem_cons_of_mem _ hold)
        · exact .inr ⟨hc, .inl hkey⟩
        · exact .inr ⟨hc, .inr ⟨hsame, old', List.mem_cons_of_mem _ hold⟩⟩

theorem Ranged.key_le (h : Ranged g m) {key : Address} {c : Cell} (hmem : (key, c) ∈ m.heap) :
    0 ≤ key.number ∧ key.number ≤ m.nextHeap := by
  obtain ⟨a, ha⟩ := h.keys _ hmem
  obtain ⟨leaf, hleaf, hn⟩ := List.mem_map.1 ha.leaf
  obtain ⟨-, n, -, hend⟩ := h.heap leaf (List.mem_flatMap.2 ⟨_, hmem, hleaf⟩)
  have hle : key.number ≤ leaf.1.number := by rw [hn]; exact ha.le
  exact ⟨ha.nonneg, by omega⟩

theorem Ranged.enter (h : Ranged g m) {block : Cell} (hlaid : Laid g .heap m.nextHeap block)
    (haddress : block.address = .ok ⟨.heap, m.nextHeap⟩) :
    Ranged g { m.setNext .heap (m.nextHeap + block.room g) with
      heap := enter ⟨.heap, m.nextHeap⟩ block m.heap } where
  stack := h.stack
  heap leaf hleaf := by
    obtain ⟨entry, hentry, hin⟩ := List.mem_flatMap.1 hleaf
    rcases mem_enter hentry with hold | hnew
    · exact (h.heap leaf (List.mem_flatMap.2 ⟨entry, hold, hin⟩)).mono hlaid.lined.le
    · rw [hnew] at hin
      exact (hlaid.lined.mem hin).2
  stackApart := h.stackApart
  heapApart := by
    obtain ⟨heach, hpairs⟩ := List.pairwise_flatMap.1 h.heapApart
    refine List.pairwise_flatMap.2 ⟨fun entry hentry => ?_, ?_⟩
    · rcases mem_enter hentry with hold | hnew
      · exact heach entry hold
      · rw [hnew]
        exact hlaid.lined.apart
    · refine pairwise_enter (R := fun c d => ∀ x ∈ c.leaves, ∀ y ∈ d.leaves, Apart g x y)
        (fun c d hcd x hx y hy => (hcd y hy x hx).symm) hpairs fun entry hentry x hx y hy => ?_
      exact (h.heap x (List.mem_flatMap.2 ⟨entry, hentry, hx⟩)).apart (hlaid.lined.mem hy).1
  keys entry hentry := by
    have hblock {key : Address} (hsame : key.same ⟨.heap, m.nextHeap⟩ = true)
        (hkey : 0 ≤ key.number ∧ key.number ≤ m.nextHeap) : Keyed key block ⟨.heap, m.nextHeap⟩ :=
      ⟨haddress, hsame, rfl, hkey.1, hkey.2, hlaid.lined.first (leaves_ne_nil block haddress),
        fun leaf hleaf => (hlaid.lined.mem hleaf).1⟩
    rcases mem_enter_key hentry with hold | ⟨hc, hkey | ⟨hsame, old, hold⟩⟩
    · exact h.keys entry hold
    · rw [hc, hkey]
      exact ⟨_, hblock (Address.same_iff.2 ⟨rfl, rfl⟩) ⟨h.nonneg, Int.le_refl _⟩⟩
    · rw [hc]
      exact ⟨_, hblock hsame (h.key_le hold)⟩
  nonneg := Int.le_trans h.nonneg hlaid.lined.le
  bases := h.bases
  nonnegStack := h.nonnegStack

end Turns

end Chalkboard.Memory

namespace Chalkboard.Run

open Effects
open Reading (readProgram)
open Memory (Ranged Under Keyed range keyPrime)

section Turns

variable {f : Frame} {m m' : Memory} {events : History}

theorem ranged_turn (h : Ranged f.types.graph m) (hturn : Turn f m events m') :
    Ranged f.types.graph m' := by
  cases hturn with
  | still => exact h
  | moved n hle => exact h.setNext hle
  | declared hnew hlaid hn =>
    subst hn
    exact h.push hlaid _
  | wrote hat hfits hheld => exact h.write _ _
  | stored hat hclosure hnode hlaid haddress hm' =>
    rename_i here c block t target m₁
    -- the pointer is written first; that moves neither a leaf nor a next free number
    have hwritten := h.write here (.address ⟨.heap, m.nextHeap⟩)
    have hnext : (m.write here (.address ⟨.heap, m.nextHeap⟩)).nextHeap = m.nextHeap :=
      Memory.write_nextHeap
    have hentered := hwritten.enter (by rwa [hnext]) (by rwa [hnext])
    rw [hnext] at hentered
    subst hm'
    obtain ⟨root, path⟩ := here
    cases root <;> exact hentered
  | removed hat hpointer hblock => exact (h.erase _).write _ _

theorem Turn.next_le (hturn : Turn f m events m') (p : Memory.Partition) : m.next p ≤ m'.next p := by
  have hwrite (m : Memory) (here : Memory.Location) (v : Value) : (m.write here v).next p = m.next p := by
    cases p
    · exact Memory.write_nextStack here v
    · exact Memory.write_nextHeap
  cases hturn with
  | still => exact Int.le_refl _
  | moved n hle =>
    cases p
    · exact hle
    · exact Int.le_refl _
  | declared hnew hlaid hn =>
    subst hn
    cases p
    · exact hlaid.lined.le
    · exact Int.le_refl _
  | wrote hat hfits hheld => exact Int.le_of_eq (hwrite _ _ _).symm
  | stored hat hclosure hnode hlaid haddress hm' =>
    rename_i here c block t target m₁
    have hreserved : m₁.next p = (m.setNext .heap (m.nextHeap + block.room f.types.graph)).next p := by
      rw [hm', hwrite]
    refine Int.le_trans ?_ (Int.le_of_eq hreserved.symm)
    cases p
    · exact Int.le_refl _
    · exact hlaid.lined.le
  | removed hat hpointer hblock =>
    rw [hwrite]
    cases p <;> exact Int.le_refl _

end Turns

section Run

variable {f : Frame} {σ : Type} {w : Watch σ} {items : Array Syntax.Item}

theorem runFrom_add (n k : Nat) (next : Option Nat) :
    runFrom f w items (n + k) next = runFrom f w items n next >>= runFrom f w items k := by
  have hnone (k : Nat) : runFrom f w items k none = pure none := by cases k <;> rfl
  induction n generalizing next with
  | zero => cases next <;> simp [runFrom, hnone]
  | succ n ih =>
    cases next with
    | none => simp [hnone]
    | some place =>
      rw [Nat.succ_add, runFrom, runFrom]
      rcases items[place]? with _ | item
      · simp [hnone]
      · simp only [bind_assoc]
        congr 1
        funext next
        exact ih next

theorem runFrom_next_le (sound : f.types.graph.Sound) (p : Memory.Partition) (n : Nat)
    (next : Option Nat) (c : Course History) :
    c.situation.memory.next p ≤
      (runFrom f (historian f items) items n next c).2.situation.memory.next p := by
  refine runFrom_history (J := fun m _ => c.situation.memory.next p ≤ m.next p)
    (I := fun m _ => c.situation.memory.next p ≤ m.next p) sound (fun _ _ h => h) ?_ ?_ n next c
    (Int.le_refl _)
  · intro m h events m' hle hturn
    exact Int.le_trans hle (hturn.next_le p)
  · intro m h k hk hle
    cases p
    · exact hle
    · exact Int.le_trans hle hk

theorem chronicle_next_le (sound : f.types.graph.Sound) (program : Syntax.Program)
    (p : Memory.Partition) (n k : Nat) :
    (chronicle f program n).2.situation.memory.next p ≤
      (chronicle f program (n + k)).2.situation.memory.next p := by
  rw [chronicle_apply, chronicle_apply]
  split
  · exact Int.le_refl _
  · rw [runFrom_add, bind_apply]
    split
    · rename_i next c hrun
      rw [hrun]
      exact runFrom_next_le sound p k next c
    · rename_i e c hrun
      rw [hrun]

end Run

/-- A program that was read, after any number of steps on a new memory, also when the last one failed.
The leaves of variables lie on the stack and those of blocks on the heap, each within its partition's
numbers that are not free; the ranges of any two leaves are disjoint; later steps never lower a next free
number; and the key of a block is the same as the block's address, which is the least address of a leaf
in the block. It is that very address as long as the heap is not filled up to the prime. -/
theorem leaves_keep_apart {setting : Reading.Setting} {text : String} {p : Syntax.Program}
    {types : Types} (hread : (readProgram setting text).run {} = (.ok p, types))
    (limits : Types.Limits) (indexing : Bool) (n : Nat) :
    let after (n : Nat) := (chronicle ⟨types, limits, indexing⟩ p n).2.situation.memory
    let m := after n
    (∀ leaf ∈ m.stackLeaves, Under types.graph .stack m.nextStack leaf) ∧
      (∀ leaf ∈ m.heapLeaves, Under types.graph .heap m.nextHeap leaf) ∧
      (m.stackLeaves ++ m.heapLeaves).Pairwise
        (fun x y => Disjoint (range types.graph x) (range types.graph y)) ∧
      (∀ k partition, m.next partition ≤ (after (n + k)).next partition) ∧
      ∀ key c, (key, c) ∈ m.heap → ∃ a, c.address = .ok a ∧ key.same a = true ∧
        (m.nextHeap < keyPrime → key = a) ∧ a ∈ c.leaves.map (·.1) ∧
        ∀ leaf ∈ c.leaves, a.number ≤ leaf.1.number := by
  intro after m
  have sound := (Reading.readProgram_sound hread).graph
  have hranged : Ranged types.graph m :=
    chronicle_history (J := fun m _ => Ranged types.graph m) (I := fun m _ => Ranged types.graph m) sound
      (fun _ _ h => h) (fun _ _ _ _ h hturn => ranged_turn h hturn)
      (fun _ _ _ hle h => h.setNext hle) Memory.ranged_start p n
  refine ⟨hranged.stack, hranged.heap, ?_, fun k q => chronicle_next_le sound p q n k, ?_⟩
  · refine List.pairwise_append.2 ⟨hranged.stackApart.imp fun h => h.disjoint,
      hranged.heapApart.imp fun h => h.disjoint, fun x hx y hy => Memory.disjoint_of_partition ?_⟩
    rw [(hranged.stack x hx).1, (hranged.heap y hy).1]
    simp
  · intro key c hmem
    obtain ⟨a, ha⟩ := hranged.keys _ hmem
    exact ⟨a, ha.address, ha.same, ha.eq hranged hmem, ha.leaf, ha.least⟩

/-- A chain whose second cell is freed and allocated anew, beside an array. -/
def renewedCell : String :=
  "type cell = tuple\n value: real\n next: pointer of cell\nend tuple\n" ++
  "var p: pointer of cell\nvar marks: array [2] of char\n" ++
  "alloc(p)\nalloc(p->next)\nfree(p->next)\nalloc(p->next)\n"

theorem renewedCell_end :
    passes (readProgram {} renewedCell) {} (fun p types =>
      let m := (chronicle ⟨types, {}, true⟩ p 6).2.situation.memory
      m.stackLeaves == [(⟨.stack, 0⟩, 6), (⟨.stack, 1⟩, 3), (⟨.stack, 2⟩, 3)] &&
        m.heapLeaves == [(⟨.heap, 0⟩, 1), (⟨.heap, 2⟩, 4), (⟨.heap, 6⟩, 1), (⟨.heap, 8⟩, 4)] &&
        m.heap.map (·.1) == [⟨.heap, 0⟩, ⟨.heap, 6⟩] && m.nextHeap == 9) = true := by
  decide +kernel

theorem renewedCell_keeps_apart :
    ∃ p types, (readProgram {} renewedCell).run {} = (.ok p, types) ∧
      let m := (chronicle ⟨types, {}, true⟩ p 6).2.situation.memory
      m.heapLeaves = [(⟨.heap, 0⟩, 1), (⟨.heap, 2⟩, 4), (⟨.heap, 6⟩, 1), (⟨.heap, 8⟩, 4)] ∧
        m.heap.map (·.1) = [⟨.heap, 0⟩, ⟨.heap, 6⟩] ∧
        Under types.graph .heap 9 (⟨.heap, 8⟩, 4) ∧
        Disjoint (range types.graph (⟨.heap, 0⟩, 1)) (range types.graph (⟨.heap, 2⟩, 4)) ∧
        ∃ c, (⟨.heap, 6⟩, c) ∈ m.heap ∧ c.address = .ok ⟨.heap, 6⟩ := by
  obtain ⟨p, types, hread, hcheck⟩ := of_passes renewedCell_end
  simp only [Bool.and_eq_true, beq_iff_eq] at hcheck
  obtain ⟨⟨⟨hstack, hheap⟩, hkeys⟩, hnext⟩ := hcheck
  obtain ⟨-, hunder, hapart, -, hkeyed⟩ := leaves_keep_apart hread {} true 6
  refine ⟨p, types, hread, hheap, hkeys, ?_, ?_, ?_⟩
  · rw [← hnext]
    exact hunder _ (by rw [hheap]; simp)
  · rw [hheap] at hapart
    have hblocks := (List.pairwise_append.1 hapart).2.1
    exact (List.pairwise_cons.1 hblocks).1 _ (by simp)
  · have hmem : (⟨.heap, 6⟩ : Memory.Address) ∈
        (chronicle ⟨types, {}, true⟩ p 6).2.situation.memory.heap.map (·.1) := by
      rw [hkeys]
      simp
    obtain ⟨⟨_, c⟩, hentry, rfl⟩ := List.mem_map.1 hmem
    obtain ⟨a, ha, -, heq, -⟩ := hkeyed _ c hentry
    refine ⟨c, hentry, ?_⟩
    rw [heq (by rw [hnext]; decide)]
    exact ha

end Chalkboard.Run
