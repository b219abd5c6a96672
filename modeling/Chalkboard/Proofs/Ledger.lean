import Chalkboard.Proofs.History

/-! What the history of a run says about its memory. Blocks are stored one behind another, each at the
end of the one before, whatever was removed meanwhile. Every address that a leaf holds and every address
of a block on the heap is one at which a block was stored. -/

namespace Chalkboard.Run

open Memory (Address Cell)

/-- The blocks that were stored, in order: the address of each and the room it takes. -/
def History.blocks (h : History) : List (Address × Int) :=
  h.filterMap fun
    | .stored a room => some (a, room)
    | .removed _ => none

def History.addresses (h : History) : List Address := h.blocks.map (·.1)

def totalRoom : List (Address × Int) → Int
  | [] => 0
  | block :: rest => block.2 + totalRoom rest

/-- Blocks of the heap that lie one behind another. -/
def Stacked (start : Int) : List (Address × Int) → Prop
  | [] => True
  | (a, room) :: rest => a = ⟨.heap, start⟩ ∧ Stacked (start + room) rest

/-- Only what was stored is removed. -/
inductive Rooted : History → Prop
  | nil : Rooted []
  | stored {h : History} (a : Address) (room : Int) : Rooted h → Rooted (h ++ [.stored a room])
  | removed {h : History} {a b : Address} (hb : b ∈ h.addresses) (hsame : b.same a = true) :
      Rooted h → Rooted (h ++ [.removed a])

section Histories

variable {h : History} {a : Address} {room : Int}

theorem blocks_stored : History.blocks (h ++ [.stored a room]) = h.blocks ++ [(a, room)] :=
  List.filterMap_append

theorem blocks_removed : History.blocks (h ++ [.removed a]) = h.blocks := by
  rw [History.blocks, List.filterMap_append]
  exact List.append_nil _

theorem addresses_stored : History.addresses (h ++ [.stored a room]) = h.addresses ++ [a] := by
  rw [History.addresses, blocks_stored, List.map_append]
  rfl

theorem addresses_removed : History.addresses (h ++ [.removed a]) = h.addresses := by
  rw [History.addresses, blocks_removed]
  rfl

end Histories

section Stacked

variable {start : Int} {blocks : List (Address × Int)}

theorem totalRoom_append (more : List (Address × Int)) :
    totalRoom (blocks ++ more) = totalRoom blocks + totalRoom more := by
  induction blocks with
  | nil => simp [totalRoom]
  | cons block rest ih => simp [totalRoom, ih, Int.add_assoc]

theorem stacked_append {more : List (Address × Int)} : Stacked start (blocks ++ more) ↔
    Stacked start blocks ∧ Stacked (start + totalRoom blocks) more := by
  induction blocks generalizing start with
  | nil => simp [Stacked, totalRoom]
  | cons block rest ih => simp [Stacked, totalRoom, ih, and_assoc, Int.add_assoc]

variable {block : Address × Int}

theorem Stacked.heap (h : Stacked start blocks) (hblock : block ∈ blocks) :
    block.1.partition = .heap := by
  induction blocks generalizing start with
  | nil => cases hblock
  | cons first rest ih =>
    rcases List.mem_cons.1 hblock with rfl | hmem
    · rw [h.1]
    · exact ih h.2 hmem

theorem Stacked.start_le (h : Stacked start blocks) (hrooms : ∀ block ∈ blocks, 0 ≤ block.2)
    (hblock : block ∈ blocks) : start ≤ block.1.number := by
  induction blocks generalizing start with
  | nil => cases hblock
  | cons first rest ih =>
    obtain ⟨hfirst, hrest⟩ := h
    rcases List.mem_cons.1 hblock with rfl | hmem
    · rw [hfirst]
    · have hle := ih hrest (fun b hb => hrooms b (List.mem_cons_of_mem _ hb)) hmem
      have := hrooms first List.mem_cons_self
      omega

theorem Stacked.not_inside (h : Stacked start blocks) (hrooms : ∀ block ∈ blocks, 0 ≤ block.2)
    {x y : Address × Int} (hx : x ∈ blocks) (hy : y ∈ blocks) :
    ¬(y.1.number < x.1.number ∧ x.1.number < y.1.number + y.2) := by
  induction blocks generalizing start with
  | nil => cases hx
  | cons first rest ih =>
    obtain ⟨hfirst, hrest⟩ := h
    have hrooms' : ∀ block ∈ rest, 0 ≤ block.2 := fun b hb => hrooms b (List.mem_cons_of_mem _ hb)
    have hroom := hrooms first List.mem_cons_self
    have hstart : first.1.number = start := by rw [hfirst]
    rcases List.mem_cons.1 hx with rfl | hx' <;> rcases List.mem_cons.1 hy with rfl | hy'
    · omega
    · have := hrest.start_le hrooms' hy'
      omega
    · have := hrest.start_le hrooms' hx'
      omega
    · exact ih hrest hrooms' hx' hy'

end Stacked

/-- A history of blocks that are stored one behind another, and removed only when they were stored. -/
structure Orderly (h : History) : Prop where
  stacked : Stacked 0 h.blocks
  rooms : ∀ block ∈ h.blocks, 0 ≤ block.2
  rooted : Rooted h

theorem Orderly.stored {h : History} (horder : Orderly h) {room : Int} (hroom : 0 ≤ room) :
    Orderly (h ++ [.stored ⟨.heap, totalRoom h.blocks⟩ room]) where
  stacked := by
    rw [blocks_stored, stacked_append, Int.zero_add]
    exact ⟨horder.stacked, rfl, trivial⟩
  rooms block hblock := by
    rw [blocks_stored] at hblock
    rcases List.mem_append.1 hblock with hold | hnew
    · exact horder.rooms block hold
    · rw [List.mem_singleton.1 hnew]
      exact hroom
  rooted := .stored _ _ horder.rooted

theorem Orderly.removed {h : History} (horder : Orderly h) {a b : Address} (hb : b ∈ h.addresses)
    (hsame : b.same a = true) : Orderly (h ++ [.removed a]) where
  stacked := by
    rw [blocks_removed]
    exact horder.stacked
  rooms := by
    rw [blocks_removed]
    exact horder.rooms
  rooted := .removed hb hsame horder.rooted

/-- A memory in keeping with a history. -/
structure Kept (m : Memory) (h : History) : Prop extends Orderly h where
  distinct : m.Distinct
  held {b a : Address} {t : Types.TypeId} (hleaf : m.HasLeaf b t (.address a)) : a ∈ h.addresses
  keys {a : Address} (hkey : a ∈ m.heap.map (·.1)) : a ∈ h.addresses

/-- The next free number of the heap is where the blocks end. -/
structure Level (m : Memory) (h : History) : Prop extends Kept m h where
  next : m.nextHeap = totalRoom h.blocks

theorem level_start : Level {} [] where
  distinct := ⟨.nil, .nil⟩
  held := by
    rintro b a t ⟨c, path, ⟨name, hmem⟩ | ⟨key, hmem⟩, -⟩ <;> cases hmem
  keys hkey := by cases hkey
  stacked := trivial
  rooms _ hblock := by cases hblock
  rooted := .nil
  next := rfl

section SetNext

variable {m : Memory} {p : Memory.Partition} {n : Int}

theorem hasLeaf_setNext {a : Address} {t : Types.TypeId} {v : Value} :
    (m.setNext p n).HasLeaf a t v ↔ m.HasLeaf a t v := by
  cases p <;> exact Iff.rfl

theorem distinct_setNext : (m.setNext p n).Distinct ↔ m.Distinct := by
  cases p <;> exact ⟨fun h => ⟨h.names, h.keys⟩, fun h => ⟨h.names, h.keys⟩⟩

theorem cellAt?_setNext {here : Memory.Location} :
    (m.setNext p n).cellAt? here = m.cellAt? here := by
  cases p <;> rfl

theorem Kept.setNext {h : History} (hkept : Kept m h) : Kept (m.setNext p n) h where
  distinct := distinct_setNext.2 hkept.distinct
  held hleaf := hkept.held (hasLeaf_setNext.1 hleaf)
  keys hkey := by
    rw [Memory.setNext_heap] at hkey
    exact hkept.keys hkey
  toOrderly := hkept.toOrderly

end SetNext

section Turns

variable {f : Frame} {m m' : Memory} {h : History}

variable {a : Address} {g : Types.Graph} {here : Memory.Location}

theorem Kept.holds (hkept : Kept m h) (hheld : Holds m (.address a)) :
    a ∈ h.addresses := by
  obtain ⟨b, t, hleaf⟩ := hheld
  exact hkept.held hleaf

theorem Kept.write (hkept : Kept m h) {v : Value}
    (hv : ∀ a, v = .address a → a ∈ h.addresses) : Kept (m.write here v) h where
  distinct := hkept.distinct.write
  held {b a t} hleaf := by
    rcases hleaf.of_write hkept.distinct with hold | ⟨hnew, -⟩
    · exact hkept.held hold
    · exact hv a hnew.symm
  keys hkey := by
    rw [Memory.write_keys] at hkey
    exact hkept.keys hkey
  toOrderly := hkept.toOrderly

theorem Kept.push (hkept : Kept m h) {name : String} {c : Cell} (hnew : m.stackCell? name = none)
    {p : Memory.Partition} {start : Int} (hlaid : Memory.Laid g p start c) :
    Kept { m with stack := m.stack ++ [(name, c)] } h where
  distinct := hkept.distinct.push hnew c
  held hleaf := by
    rcases hleaf.of_push with hold | ⟨path, hat⟩
    · exact hkept.held hold
    · cases hlaid.blank hat
  keys := hkept.keys
  toOrderly := hkept.toOrderly

theorem Kept.erase (hkept : Kept m h) {b : Address} (hb : b ∈ h.addresses)
    (hsame : b.same a = true) : Kept (m.erase a) (h ++ [.removed a]) where
  distinct := hkept.distinct.erase a
  held hleaf := by
    rw [addresses_removed]
    exact hkept.held hleaf.of_erase
  keys hkey := by
    rw [addresses_removed]
    rw [Memory.erase_keys] at hkey
    exact hkept.keys (List.mem_filter.1 hkey).1
  toOrderly := hkept.toOrderly.removed hb hsame

theorem Kept.enter (hkept : Kept m h) {block : Cell} (ha : a = ⟨.heap, totalRoom h.blocks⟩)
    (hlaid : Memory.Laid g .heap (totalRoom h.blocks) block) :
    Kept { m.write here (.address a) with
      heap := Memory.enter a block (m.write here (.address a)).heap }
      (h ++ [.stored a (block.room g)]) where
  distinct := hkept.distinct.write.enter a block
  held {b a' t} hleaf := by
    rw [addresses_stored]
    rcases hleaf.of_enter with hold | ⟨path, hat⟩
    · rcases hold.of_write hkept.distinct with hold | ⟨hnew, -⟩
      · exact List.mem_append_left _ (hkept.held hold)
      · cases hnew
        exact List.mem_append_right _ List.mem_cons_self
    · cases hlaid.blank hat
  keys hkey := by
    rw [addresses_stored]
    rw [Memory.enter_keys, Memory.write_keys] at hkey
    split at hkey
    · exact List.mem_append_left _ (hkept.keys hkey)
    · rcases List.mem_append.1 hkey with hold | hnew
      · exact List.mem_append_left _ (hkept.keys hold)
      · exact List.mem_append_right _ hnew
  toOrderly := by
    rw [ha]
    exact hkept.toOrderly.stored hlaid.room

theorem Level.turn (hlevel : Level m h) {events : History} (hturn : Turn f m events m') :
    Level m' (h ++ events) := by
  cases hturn with
  | still =>
    rw [List.append_nil]
    exact hlevel
  | moved n =>
    rw [List.append_nil]
    exact ⟨hlevel.toKept.setNext, hlevel.next⟩
  | declared hnew hlaid hn =>
    rename_i name c n
    rw [List.append_nil]
    have hmoved : Kept (m.setNext .stack n) h := hlevel.toKept.setNext
    exact ⟨hmoved.push hnew hlaid, hlevel.next⟩
  | wrote hat hfits hheld =>
    rw [List.append_nil]
    refine ⟨hlevel.toKept.write fun a ha => ?_, by rw [Memory.write_nextHeap]; exact hlevel.next⟩
    exact hlevel.toKept.holds (ha ▸ hheld a ha)
  | stored hat hclosure hnode hlaid haddress hm' =>
    subst hm'
    have hnext := hlevel.next
    rw [hnext] at hlaid
    refine ⟨Kept.enter hlevel.toKept.setNext (by rw [hnext]) hlaid, ?_⟩
    rw [blocks_stored, totalRoom_append, ← hnext]
    dsimp only
    rw [Memory.write_nextHeap]
    simp [Memory.setNext, totalRoom]
  | removed hat hpointer hblock =>
    rename_i here b a t
    obtain ⟨c, hc⟩ := Option.isSome_iff_exists.1 hblock
    obtain ⟨key, hkey, hsame⟩ := Memory.mem_of_heapCell? hc
    have hroot : key ∈ h.addresses := hlevel.keys (List.mem_map.2 ⟨_, hkey, rfl⟩)
    refine ⟨(hlevel.toKept.erase hroot hsame).write fun _ hv => (by cases hv), ?_⟩
    rw [Memory.write_nextHeap, blocks_removed]
    exact hlevel.next

end Turns

/-- After any number of steps the memory is in keeping with the history. Whatever else every turn of such
memories keeps, and does not depend on the next free number of the heap, holds as well. -/
theorem chronicle_kept {f : Frame} (sound : f.types.graph.Sound) {K : Memory → History → Prop}
    (hstart : K {} [])
    (hturn : ∀ m h events m', Kept m h → K m h → Turn f m events m' → K m' (h ++ events))
    (hvain : ∀ m h n, K m h → K (m.setNext .heap n) h) (p : Syntax.Program) (n : Nat) :
    Kept (chronicle f p n).2.situation.memory (chronicle f p n).2.seen ∧
      K (chronicle f p n).2.situation.memory (chronicle f p n).2.seen :=
  chronicle_history (J := fun m h => Level m h ∧ K m h) (I := fun m h => Kept m h ∧ K m h) sound
    (fun _ _ hJ => ⟨hJ.1.toKept, hJ.2⟩)
    (fun _ _ _ _ hJ hstep => ⟨hJ.1.turn hstep, hturn _ _ _ _ hJ.1.toKept hJ.2 hstep⟩)
    (fun _ _ _ _ hJ => ⟨hJ.1.toKept.setNext, hvain _ _ _ hJ.2⟩) ⟨level_start, hstart⟩ p n

end Chalkboard.Run
