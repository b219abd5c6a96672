import Chalkboard.Proofs.Effects
import Chalkboard.Memory.Basic

/-! The leaves of a memory, and how they change: a write changes one leaf, a block that is entered brings
its leaves, and one that is erased takes them away. For this no two variables may have the same name and
no two blocks the same address. -/

namespace Chalkboard.Memory

open Chalkboard.Types (TypeId)

namespace Address

theorem same_iff {a b : Address} :
    a.same b = true ↔ a.partition = b.partition ∧ keyOf a.number = keyOf b.number := by
  simp [same]

theorem same_symm {a b : Address} (h : a.same b = true) : b.same a = true :=
  same_iff.2 ⟨(same_iff.1 h).1.symm, (same_iff.1 h).2.symm⟩

theorem same_trans {a b c : Address} (h : a.same b = true) (h' : b.same c = true) :
    a.same c = true :=
  same_iff.2 ⟨(same_iff.1 h).1.trans (same_iff.1 h').1, (same_iff.1 h).2.trans (same_iff.1 h').2⟩

end Address

theorem allocateMany_eq (one : MemoryM Cell) (n : Nat) :
    allocateMany one n = (List.replicate n ()).mapM fun _ => one := by
  induction n with
  | zero => rfl
  | succ n ih => rw [allocateMany, ih, List.replicate_succ, List.mapM_cons]

theorem keyPrime_pos : 0 < keyPrime := by decide

theorem keyOf_nonneg {n : Int} (h : 0 ≤ n) : keyOf n = n % keyPrime := by
  have hkey : n.tmod keyPrime = n % keyPrime := Int.tmod_eq_emod_of_nonneg h
  have hnonneg : 0 ≤ n % keyPrime := Int.emod_nonneg n (Int.ne_of_gt keyPrime_pos)
  rw [keyOf, hkey, if_neg]
  rw [beq_iff_eq]
  omega

theorem same_heap_iff {m n : Int} (hm : 0 ≤ m) (hn : 0 ≤ n) :
    (⟨.heap, m⟩ : Address).same ⟨.heap, n⟩ = true ↔ keyPrime ∣ n - m := by
  rw [Address.same_iff, keyOf_nonneg hm, keyOf_nonneg hn, Int.emod_eq_emod_iff_emod_sub_eq_zero,
    ← Int.dvd_iff_emod_eq_zero, ← Int.dvd_neg, Int.neg_sub]
  exact and_iff_right rfl

namespace Cell

/-- The cell at the end of a path of positions. -/
def at? : List Nat → Cell → Option Cell
  | [], c => some c
  | i :: path, c => (c.part? i).bind (at? path)

theorem at?_append (path path' : List Nat) (c : Cell) :
    c.at? (path ++ path') = (c.at? path).bind (at? path') := by
  induction path generalizing c with
  | nil => rfl
  | cons i path ih =>
    rw [List.cons_append, at?, at?, Option.bind_assoc]
    exact congrArg _ (funext ih)

theorem at?_snoc {path : List Nat} {c part part' : Cell} (h : c.at? path = some part) {i : Nat}
    (hi : part.part? i = some part') : c.at? (path ++ [i]) = some part' := by
  rw [at?_append, h, Option.bind_some, at?, hi]
  rfl

theorem part?_write_same (v : Value) (i : Nat) (path : List Nat) (c : Cell) :
    (c.write v (i :: path)).part? i = (c.part? i).map (write v path) := by
  cases c with
  | leaf => rfl
  | array t parts => simp [write, part?]
  | tuple t parts =>
    simp only [write, part?, List.getElem?_modify_eq, Option.map_map]
    rcases parts[i]? <;> rfl

theorem part?_write_ne (v : Value) {i j : Nat} (h : j ≠ i) (path : List Nat) (c : Cell) :
    (c.write v (i :: path)).part? j = c.part? j := by
  cases c with
  | leaf => rfl
  | array | tuple => simp [write, part?, h.symm]

theorem at?_write {v w : Value} {path path' : List Nat} {c : Cell} {a : Address} {t : TypeId}
    (h : (c.write v path).at? path' = some (.leaf a t w)) :
    c.at? path' = some (.leaf a t w) ∨
      w = v ∧ ∃ old, c.at? path = some (.leaf a t old) := by
  induction path generalizing c path' with
  | nil =>
    cases c with
    | leaf b u old =>
      cases path' with
      | nil =>
        cases h
        exact .inr ⟨rfl, old, rfl⟩
      | cons j path' => cases h
    | array u parts => exact .inl h
    | tuple u parts => exact .inl h
  | cons i path ih =>
    cases path' with
    | nil =>
      left
      cases c with
      | leaf => exact h
      | array => cases h
      | tuple => cases h
    | cons j path' =>
      rw [at?] at h
      by_cases hj : j = i
      · subst hj
        rw [part?_write_same] at h
        rcases hpart : c.part? j with _ | part
        · rw [hpart] at h
          cases h
        · rw [hpart] at h
          rcases ih h with hold | ⟨hw, old, hnew⟩
          · exact .inl (by rw [at?, hpart]; exact hold)
          · exact .inr ⟨hw, old, by rw [at?, hpart]; exact hnew⟩
      · rw [part?_write_ne v hj] at h
        exact .inl h

end Cell

def cellAt? (m : Memory) (here : Location) : Option Cell :=
  match here.root with
  | .stack name => (m.stackCell? name).bind (Cell.at? here.path)
  | .heap a => (m.heapCell? a).bind (Cell.at? here.path)

theorem cellAt?_stack (m : Memory) (name : String) (path : List Nat) :
    m.cellAt? ⟨.stack name, path⟩ = (m.stackCell? name).bind (Cell.at? path) := rfl

theorem cellAt?_heap (m : Memory) (a : Address) (path : List Nat) :
    m.cellAt? ⟨.heap a, path⟩ = (m.heapCell? a).bind (Cell.at? path) := rfl

def Owns (m : Memory) (c : Cell) : Prop :=
  (∃ name, (name, c) ∈ m.stack) ∨ ∃ a, (a, c) ∈ m.heap

def HasLeaf (m : Memory) (a : Address) (t : TypeId) (v : Value) : Prop :=
  ∃ c path, m.Owns c ∧ c.at? path = some (.leaf a t v)

/-- No two variables have the same name, and no two blocks the same address. -/
structure Distinct (m : Memory) : Prop where
  names : m.stack.Pairwise fun x y => x.1 ≠ y.1
  keys : m.heap.Pairwise fun x y => x.1.same y.1 = false

section Lookup

variable {m : Memory} {name : String} {a : Address} {c c' : Cell}

theorem mem_of_stackCell? (h : m.stackCell? name = some c) : (name, c) ∈ m.stack := by
  unfold stackCell? at h
  generalize m.stack = stack at h
  induction stack with
  | nil => cases h
  | cons entry rest ih =>
    obtain ⟨n, old⟩ := entry
    rw [List.lookup_cons] at h
    split at h
    · rename_i heq
      cases h
      rw [eq_of_beq heq]
      exact List.mem_cons_self
    · exact List.mem_cons_of_mem _ (ih h)

theorem mem_of_heapCell? (h : m.heapCell? a = some c) : ∃ b, (b, c) ∈ m.heap ∧ b.same a = true := by
  obtain ⟨⟨b, c'⟩, hfind, rfl⟩ := Option.map_eq_some_iff.1 h
  exact ⟨b, List.mem_of_find?_eq_some hfind, by simpa using List.find?_some hfind⟩

theorem heapCell?_eq_none (h : ∀ b ∈ m.heap.map (·.1), b.same a = false) : m.heapCell? a = none := by
  rw [heapCell?, Option.map_eq_none_iff, List.find?_eq_none]
  intro entry hentry
  simp [h entry.1 (List.mem_map_of_mem hentry)]

theorem owns_of_cellAt? {here : Location} (h : m.cellAt? here = some c) :
    ∃ owner, m.Owns owner ∧ owner.at? here.path = some c := by
  unfold cellAt? at h
  split at h
  · obtain ⟨owner, howner, hat⟩ := Option.bind_eq_some_iff.1 h
    exact ⟨owner, .inl ⟨_, mem_of_stackCell? howner⟩, hat⟩
  · obtain ⟨owner, howner, hat⟩ := Option.bind_eq_some_iff.1 h
    obtain ⟨b, hb, -⟩ := mem_of_heapCell? howner
    exact ⟨owner, .inr ⟨b, hb⟩, hat⟩

theorem hasLeaf_of_cellAt? {here : Location} {t : TypeId} {v : Value}
    (h : m.cellAt? here = some (.leaf a t v)) : m.HasLeaf a t v := by
  obtain ⟨owner, howner, hat⟩ := owns_of_cellAt? h
  exact ⟨owner, here.path, howner, hat⟩

theorem Distinct.stackCell?_eq (h : m.Distinct) (hmem : (name, c) ∈ m.stack) :
    m.stackCell? name = some c := by
  have hnames := h.names
  unfold stackCell?
  generalize m.stack = stack at hmem hnames
  induction stack with
  | nil => cases hmem
  | cons entry rest ih =>
    obtain ⟨n, old⟩ := entry
    rw [List.pairwise_cons] at hnames
    rw [List.lookup_cons]
    rcases List.mem_cons.1 hmem with heq | hrest
    · cases heq
      simp
    · have hne : n ≠ name := hnames.1 _ hrest
      rw [beq_eq_false_iff_ne.2 hne.symm]
      exact ih hrest hnames.2

theorem Distinct.heapCell?_eq (h : m.Distinct) {b : Address} (hmem : (b, c) ∈ m.heap)
    (hsame : b.same a = true) : m.heapCell? a = some c := by
  have hkeys := h.keys
  unfold heapCell?
  generalize m.heap = heap at hmem hkeys
  induction heap with
  | nil => cases hmem
  | cons entry rest ih =>
    obtain ⟨b', old⟩ := entry
    rw [List.pairwise_cons] at hkeys
    rcases List.mem_cons.1 hmem with heq | hrest
    · cases heq
      simp [hsame]
    · have hne : b'.same b = false := hkeys.1 _ hrest
      have hoff : b'.same a = false := by
        rw [← Bool.not_eq_true] at hne ⊢
        exact fun hon => hne (Address.same_trans hon (Address.same_symm hsame))
      rw [List.find?_cons_of_neg (by simp [hoff])]
      exact ih hrest hkeys.2

end Lookup

section Changes

variable {m : Memory} {here : Location} {a : Address} {t : TypeId} {v w : Value}

theorem write_names : (m.write here v).stack.map (·.1) = m.stack.map (·.1) := by
  unfold write
  split
  · simp [Function.comp_def]
  · rfl

theorem write_keys : (m.write here v).heap.map (·.1) = m.heap.map (·.1) := by
  unfold write
  split
  · rfl
  · simp [Function.comp_def]

theorem write_nextHeap : (m.write here v).nextHeap = m.nextHeap := by
  unfold write
  split <;> rfl

theorem distinct_iff : m.Distinct ↔
    (m.stack.map (·.1)).Pairwise (· ≠ ·) ∧
      (m.heap.map (·.1)).Pairwise fun a b => a.same b = false := by
  rw [List.pairwise_map, List.pairwise_map]
  exact ⟨fun h => ⟨h.names, h.keys⟩, fun h => ⟨h.1, h.2⟩⟩

theorem Distinct.write (h : m.Distinct) : (m.write here v).Distinct := by
  rw [distinct_iff] at h ⊢
  rwa [write_names, write_keys]

theorem HasLeaf.of_write (hm : m.Distinct) (h : (m.write here v).HasLeaf a t w) :
    m.HasLeaf a t w ∨ w = v ∧ ∃ old, m.cellAt? here = some (.leaf a t old) := by
  obtain ⟨c, path, howner, hat⟩ := h
  obtain ⟨root, path'⟩ := here
  cases root with
  | stack name =>
    rcases howner with ⟨n, hmem⟩ | ⟨b, hmem⟩
    · obtain ⟨⟨n', c'⟩, hmem', heq⟩ := List.mem_map.1 hmem
      cases heq
      split at hat
      · rename_i hname
        obtain rfl := eq_of_beq hname
        rcases Cell.at?_write hat with hold | ⟨hw, old, hnew⟩
        · exact .inl ⟨c', path, .inl ⟨n, hmem'⟩, hold⟩
        · exact .inr ⟨hw, old, by rw [cellAt?_stack, hm.stackCell?_eq hmem']; exact hnew⟩
      · exact .inl ⟨c', path, .inl ⟨n, hmem'⟩, hat⟩
    · exact .inl ⟨c, path, .inr ⟨b, hmem⟩, hat⟩
  | heap key =>
    rcases howner with ⟨n, hmem⟩ | ⟨b, hmem⟩
    · exact .inl ⟨c, path, .inl ⟨n, hmem⟩, hat⟩
    · obtain ⟨⟨b', c'⟩, hmem', heq⟩ := List.mem_map.1 hmem
      cases heq
      split at hat
      · rename_i hsame
        rcases Cell.at?_write hat with hold | ⟨hw, old, hnew⟩
        · exact .inl ⟨c', path, .inr ⟨b, hmem'⟩, hold⟩
        · exact .inr ⟨hw, old, by rw [cellAt?_heap, hm.heapCell?_eq hmem' hsame]; exact hnew⟩
      · exact .inl ⟨c', path, .inr ⟨b, hmem'⟩, hat⟩

variable {c : Cell} {name : String}

theorem mem_enter {heap : List (Address × Cell)} {entry : Address × Cell}
    (h : entry ∈ enter a c heap) : entry ∈ heap ∨ entry.2 = c := by
  induction heap with
  | nil =>
    rw [enter, List.mem_singleton] at h
    exact .inr (by rw [h])
  | cons e rest ih =>
    obtain ⟨b, old⟩ := e
    rw [enter] at h
    split at h
    · rcases List.mem_cons.1 h with rfl | h
      · exact .inr rfl
      · exact .inl (List.mem_cons_of_mem _ h)
    · rcases List.mem_cons.1 h with rfl | h
      · exact .inl List.mem_cons_self
      · exact (ih h).imp (List.mem_cons_of_mem _) id

theorem enter_keys (c : Cell) (heap : List (Address × Cell)) :
    (enter a c heap).map (·.1) =
      if heap.any (·.1.same a) then heap.map (·.1) else heap.map (·.1) ++ [a] := by
  induction heap with
  | nil => rfl
  | cons e rest ih =>
    obtain ⟨b, old⟩ := e
    rw [enter]
    by_cases hsame : b.same a = true
    · simp [hsame]
    · simp only [hsame, Bool.false_eq_true, if_false, List.map_cons, ih, List.any_cons,
        Bool.false_or]
      split <;> rfl

theorem HasLeaf.of_enter {b : Address}
    (h : ({ m with heap := enter b c m.heap } : Memory).HasLeaf a t w) :
    m.HasLeaf a t w ∨ ∃ path, c.at? path = some (.leaf a t w) := by
  obtain ⟨owner, path, howner, hat⟩ := h
  rcases howner with ⟨n, hmem⟩ | ⟨b', hmem⟩
  · exact .inl ⟨owner, path, .inl ⟨n, hmem⟩, hat⟩
  · rcases mem_enter hmem with hold | rfl
    · exact .inl ⟨owner, path, .inr ⟨b', hold⟩, hat⟩
    · exact .inr ⟨path, hat⟩

theorem Distinct.enter (hm : m.Distinct) (b : Address) (c : Cell) :
    ({ m with heap := enter b c m.heap } : Memory).Distinct := by
  rw [distinct_iff] at hm ⊢
  refine ⟨hm.1, ?_⟩
  rw [enter_keys]
  split
  · exact hm.2
  · rename_i hnone
    refine List.pairwise_append.2 ⟨hm.2, List.pairwise_singleton _ _, fun x hx y hy => ?_⟩
    obtain ⟨entry, hentry, rfl⟩ := List.mem_map.1 hx
    rw [List.mem_singleton.1 hy]
    simp only [List.any_eq_true, not_exists, not_and, Bool.not_eq_true] at hnone
    exact hnone entry hentry

theorem HasLeaf.of_erase (b : Address) (h : (m.erase b).HasLeaf a t w) : m.HasLeaf a t w := by
  obtain ⟨owner, path, howner, hat⟩ := h
  refine ⟨owner, path, howner.imp id ?_, hat⟩
  rintro ⟨b', hmem⟩
  exact ⟨b', (List.mem_filter.1 hmem).1⟩

theorem erase_keys (b : Address) :
    (m.erase b).heap.map (·.1) = (m.heap.map (·.1)).filter fun a => !a.same b := by
  rw [List.filter_map]
  rfl

theorem Distinct.erase (hm : m.Distinct) (b : Address) : (m.erase b).Distinct :=
  ⟨hm.names, hm.keys.filter _⟩

theorem HasLeaf.of_push
    (h : ({ m with stack := m.stack ++ [(name, c)] } : Memory).HasLeaf a t w) :
    m.HasLeaf a t w ∨ ∃ path, c.at? path = some (.leaf a t w) := by
  obtain ⟨owner, path, howner, hat⟩ := h
  rcases howner with ⟨n, hmem⟩ | ⟨b', hmem⟩
  · rcases List.mem_append.1 hmem with hold | hnew
    · exact .inl ⟨owner, path, .inl ⟨n, hold⟩, hat⟩
    · cases List.mem_singleton.1 hnew
      exact .inr ⟨path, hat⟩
  · exact .inl ⟨owner, path, .inr ⟨b', hmem⟩, hat⟩

theorem Distinct.push (hm : m.Distinct) (hnew : m.stackCell? name = none) (c : Cell) :
    ({ m with stack := m.stack ++ [(name, c)] } : Memory).Distinct := by
  refine ⟨List.pairwise_append.2 ⟨hm.names, List.pairwise_singleton _ _, fun x hx y hy => ?_⟩, hm.keys⟩
  rw [List.mem_singleton.1 hy]
  intro heq
  have := hm.stackCell?_eq hx
  rw [heq, hnew] at this
  cases this

end Changes

end Chalkboard.Memory
