import Chalkboard.Proofs.Places
import Chalkboard.Proofs.SoundTypes

/-! How blocks lie in memory. Making a cell of a sound type moves the next free number of one partition
on by the room that the leaves take, which is never negative, and changes nothing else. The cell has the
parts that its type says. The leaves are blank and lie one behind another from the number that was free
before, which is also the cell's address, if it has one. A cell with an address takes some room, unless a
synonym stands for a type that takes none. -/

namespace Chalkboard.Types

/-- No synonym stands for a type that takes no room. -/
def Graph.Roomy (g : Graph) : Prop :=
  ∀ t name part, g.node t = .synonym name part → g.size t ≠ .ok (.int 0)

theorem Graph.Roomy.size_ne_zero {g : Graph} (hg : g.Roomy) {t : TypeId}
    (harray : ∀ element axes, g.node t ≠ .array element axes)
    (htuple : ∀ name fields size, g.node t ≠ .tuple name fields size) : g.size t ≠ .ok (.int 0) := by
  rcases hnode : g.node t with
    _ | _ | _ | _ | _ | ⟨element, axes⟩ | ⟨name, fields, size⟩ | _ | ⟨name, part⟩
  case array => exact absurd hnode (harray element axes)
  case tuple => exact absurd hnode (htuple name fields size)
  case synonym => exact hg t name part hnode
  all_goals
    rw [size, sizeFrom, hnode]
    intro h
    cases h

end Chalkboard.Types

namespace Chalkboard.Memory

open Effects
open Chalkboard.Types (TypeId Graph)

section Next

variable {m : Memory} {p : Partition} {n k : Int}

theorem next_setNext : (m.setNext p n).next p = n := by
  cases p <;> rfl

theorem setNext_setNext : (m.setNext p n).setNext p k = m.setNext p k := by
  cases p <;> rfl

theorem setNext_next : m.setNext p (m.next p) = m := by
  cases p <;> rfl

theorem setNext_heap : (m.setNext p n).heap = m.heap := by
  cases p <;> rfl

end Next

def leafRoom (g : Graph) (t : TypeId) : Int :=
  match g.size t with
  | .ok (.int n) => n
  | _ => 0

mutual

def Cell.room (g : Graph) : Cell → Int
  | .leaf _ t _ => leafRoom g t
  | .array _ parts => roomOfParts g parts
  | .tuple _ parts => roomOfFields g parts

def roomOfParts (g : Graph) : List Cell → Int
  | [] => 0
  | c :: cs => c.room g + roomOfParts g cs

def roomOfFields (g : Graph) : List (String × Cell) → Int
  | [] => 0
  | (_, c) :: cs => c.room g + roomOfFields g cs

end

mutual

/-- The leaves of a cell in order, each with its type. -/
def Cell.leaves : Cell → List (Address × TypeId)
  | .leaf a t _ => [(a, t)]
  | .array _ parts => leavesOfParts parts
  | .tuple _ parts => leavesOfFields parts

def leavesOfParts : List Cell → List (Address × TypeId)
  | [] => []
  | c :: cs => c.leaves ++ leavesOfParts cs

def leavesOfFields : List (String × Cell) → List (Address × TypeId)
  | [] => []
  | (_, c) :: cs => c.leaves ++ leavesOfFields cs

end

/-- A cell that has the parts its type says: an array as many as its axes give, a tuple its fields. -/
inductive Shaped (g : Graph) : TypeId → Cell → Prop
  | leaf (a : Address) {t : TypeId} (v : Value)
      (harray : ∀ element axes, g.node t ≠ .array element axes)
      (htuple : ∀ name fields size, g.node t ≠ .tuple name fields size) : Shaped g t (.leaf a t v)
  | array {t element : TypeId} {axes : List Types.Axis} {parts : List Cell}
      (hnode : g.node t = .array element axes)
      (hcount : Types.elementCount axes = .ok (.int parts.length))
      (hparts : ∀ c ∈ parts, Shaped g element c) : Shaped g t (.array t parts)
  | tuple {t : TypeId} {name : Option String} {fields : List (String × TypeId)} {size : Value}
      {parts : List (String × Cell)} (hnode : g.node t = .tuple name fields size)
      (hnames : parts.map (·.1) = fields.map (·.1))
      (hparts : ∀ pair ∈ parts.zip fields, Shaped g pair.2.2 pair.1.2) : Shaped g t (.tuple t parts)

/-- Leaves that lie one behind another, from one number to another. -/
def Lined (g : Graph) (p : Partition) (start stop : Int) : List (Address × TypeId) → Prop
  | [] => start = stop
  | (a, t) :: rest => a = ⟨p, start⟩ ∧
      ∃ n : Nat, g.size t = .ok (.int n) ∧ Lined g p (start + n) stop rest

/-- A cell as it is made at a number. -/
structure Laid (g : Graph) (p : Partition) (start : Int) (c : Cell) : Prop where
  shaped : Shaped g c.type c
  blank {path : List Nat} {a : Address} {t : TypeId} {v : Value}
    (h : c.at? path = some (.leaf a t v)) : v = .unknown
  address {a : Address} (h : c.address = .ok a) : a = ⟨p, start⟩
  room : 0 ≤ c.room g
  lined : Lined g p start (start + c.room g) c.leaves
  roomy (hg : g.Roomy) {a : Address} (h : c.address = .ok a) : 0 < c.room g

def LaidParts (g : Graph) (p : Partition) (start : Int) : List Cell → Prop
  | [] => True
  | c :: cs => Laid g p start c ∧ LaidParts g p (start + c.room g) cs

section Laid

variable {g : Graph} {p : Partition} {start stop : Int}

theorem Lined.append {middle : Int} {leaves more : List (Address × TypeId)}
    (h : Lined g p start middle leaves) (hmore : Lined g p middle stop more) :
    Lined g p start stop (leaves ++ more) := by
  induction leaves generalizing start with
  | nil =>
    obtain rfl : start = middle := h
    exact hmore
  | cons leaf rest ih =>
    obtain ⟨ha, n, hn, hrest⟩ := h
    exact ⟨ha, n, hn, ih hrest⟩

variable {c : Cell} {cs : List Cell} {parts : List (String × Cell)} {t : TypeId}

theorem LaidParts.lined (h : LaidParts g p start cs) :
    Lined g p start (start + roomOfParts g cs) (leavesOfParts cs) := by
  induction cs generalizing start with
  | nil => exact (Int.add_zero start).symm
  | cons c cs ih =>
    have hrest := ih h.2
    rw [Int.add_assoc] at hrest
    exact h.1.lined.append hrest

theorem LaidParts.room (h : LaidParts g p start cs) : 0 ≤ roomOfParts g cs := by
  induction cs generalizing start with
  | nil => exact Int.le_refl 0
  | cons c cs ih =>
    have hc := h.1.room
    have hcs := ih h.2
    rw [roomOfParts]
    omega

theorem LaidParts.room_pos (h : LaidParts g p start (c :: cs))
    (hc : 0 < c.room g) : 0 < roomOfParts g (c :: cs) := by
  have hcs := h.2.room
  rw [roomOfParts]
  omega

theorem LaidParts.get (h : LaidParts g p start cs) {i : Nat}
    (hi : cs[i]? = some c) : ∃ start', Laid g p start' c := by
  induction cs generalizing start i with
  | nil => cases hi
  | cons c' cs ih =>
    cases i with
    | zero =>
      cases hi
      exact ⟨start, h.1⟩
    | succ i => exact ih h.2 hi

theorem LaidParts.array (h : LaidParts g p start cs)
    (hshaped : Shaped g t (.array t cs)) : Laid g p start (.array t cs) := by
  refine ⟨hshaped, ?_, ?_, h.room, h.lined, ?_⟩
  · intro path a t v hat
    cases path with
    | nil => cases hat
    | cons i path =>
      obtain ⟨part, hpart, hat⟩ := Option.bind_eq_some_iff.1 hat
      obtain ⟨start', hlaid⟩ := h.get hpart
      exact hlaid.blank hat
  · intro a ha
    cases cs with
    | nil => cases ha
    | cons c cs => exact h.1.address ha
  · intro hg a ha
    cases cs with
    | nil => cases ha
    | cons c cs => exact h.room_pos (h.1.roomy hg ha)

theorem roomOfFields_eq (parts : List (String × Cell)) :
    roomOfFields g parts = roomOfParts g (parts.map (·.2)) := by
  induction parts with
  | nil => rfl
  | cons part rest ih => rw [roomOfFields, ih]; rfl

theorem leavesOfFields_eq (parts : List (String × Cell)) :
    leavesOfFields parts = leavesOfParts (parts.map (·.2)) := by
  induction parts with
  | nil => rfl
  | cons part rest ih => rw [leavesOfFields, ih]; rfl

theorem leastAddress_laid {least : Int} (hle : least ≤ start)
    (h : LaidParts g p start (parts.map (·.2))) {a : Address}
    (ha : Cell.leastAddress ⟨p, least⟩ parts = .ok a) : a = ⟨p, least⟩ := by
  induction parts generalizing start with
  | nil =>
    cases ha
    rfl
  | cons part rest ih =>
    obtain ⟨name, c⟩ := part
    rw [Cell.leastAddress] at ha
    obtain ⟨b, hb, ha⟩ := except_bind_ok ha
    obtain rfl := h.1.address hb
    have hbefore : (⟨p, start⟩ : Address).before ⟨p, least⟩ = false := by
      cases p <;> exact decide_eq_false (Int.not_lt.2 hle)
    rw [hbefore] at ha
    have hroom : 0 ≤ c.room g := h.1.room
    exact ih (by dsimp only; omega) h.2 ha

theorem LaidParts.tuple
    (h : LaidParts g p start (parts.map (·.2))) (hshaped : Shaped g t (.tuple t parts)) :
    Laid g p start (.tuple t parts) := by
  refine ⟨hshaped, ?_, ?_, ?_, ?_, ?_⟩
  · intro path a t v hat
    cases path with
    | nil => cases hat
    | cons i path =>
      obtain ⟨part, hpart, hat⟩ := Option.bind_eq_some_iff.1 hat
      have hget : (parts.map (·.2))[i]? = some part := by rw [List.getElem?_map]; exact hpart
      obtain ⟨start', hlaid⟩ := h.get hget
      exact hlaid.blank hat
  · intro a ha
    cases parts with
    | nil => cases ha
    | cons part rest =>
      obtain ⟨name, c⟩ := part
      rw [Cell.address] at ha
      obtain ⟨b, hb, ha⟩ := except_bind_ok ha
      obtain rfl := h.1.address hb
      have hroom : 0 ≤ c.room g := h.1.room
      exact leastAddress_laid (by dsimp only; omega) h.2 ha
  · rw [Cell.room, roomOfFields_eq]
    exact h.room
  · rw [Cell.room, Cell.leaves, roomOfFields_eq, leavesOfFields_eq]
    exact h.lined
  · intro hg a ha
    rw [Cell.room, roomOfFields_eq]
    cases parts with
    | nil => cases ha
    | cons part rest =>
      obtain ⟨name, c⟩ := part
      rw [Cell.address] at ha
      obtain ⟨b, hb, -⟩ := except_bind_ok ha
      exact h.room_pos (h.1.roomy hg hb)

end Laid

/-- Work that moves the next free number of a partition on and changes nothing else. -/
def Moves (p : Partition) {α : Type} (work : MemoryM α) : Prop :=
  ∀ m, ∃ n, m.next p ≤ n ∧ (work m).2 = m.setNext p n

section Moves

variable {α β : Type} {g : Graph} {p : Partition}

theorem Moves.of_still {work : MemoryM α} (h : ∀ m, (work m).2 = m) : Moves p work := fun m =>
  ⟨m.next p, Int.le_refl _, by rw [h, setNext_next]⟩

theorem Moves.pure (a : α) : Moves p (Pure.pure a : MemoryM α) := .of_still fun _ => rfl

theorem Moves.lift (r : Except Fault α) : Moves p (liftM r : MemoryM α) := .of_still fun _ => rfl

theorem Moves.bind {work : MemoryM α} {k : α → MemoryM β} (h : Moves p work)
    (hk : ∀ a, Moves p (k a)) : Moves p (work >>= k) := by
  intro m
  obtain ⟨n, hle, hn⟩ := h m
  rw [bind_apply]
  revert hn
  rcases work m with ⟨_ | a, m'⟩
  · exact fun hn => ⟨n, hle, hn⟩
  · rintro rfl
    obtain ⟨n', hle', hn'⟩ := hk a (m.setNext p n)
    rw [next_setNext] at hle'
    exact ⟨n', Int.le_trans hle hle', hn'.trans setNext_setNext⟩

theorem allocateLeaf_moves (sound : g.Sound) (p : Partition) (t : TypeId) :
    Moves p (allocateLeaf g p t) := by
  intro m
  have hstay : m.next p ≤ m.next p ∧ m = m.setNext p (m.next p) := ⟨Int.le_refl _, setNext_next.symm⟩
  rw [allocateLeaf, bind_apply, get_apply]
  dsimp only
  rw [bind_apply, lift_apply]
  rcases hsize : g.size t with _ | v
  · exact ⟨m.next p, hstay⟩
  · obtain ⟨n, rfl⟩ := sound.size_isSize hsize
    exact ⟨m.next p + n, by omega, rfl⟩

theorem Moves.mapM {f : α → MemoryM β} {xs : List α} (h : ∀ x ∈ xs, Moves p (f x)) : Moves p (xs.mapM f) :=
  mapM_keeps (fun _ => Moves p) .pure .bind h

theorem allocateFrom_moves (sound : g.Sound) (p : Partition) (fuel : Nat) (t : TypeId) :
    Moves p (allocateFrom g p fuel t) := by
  induction fuel generalizing t with
  | zero => exact .of_still fun _ => rfl
  | succ fuel ih =>
    rw [allocateFrom]
    split
    · refine (Moves.lift _).bind fun _ => (Moves.lift _).bind fun _ => ?_
      rw [allocateMany_eq]
      exact (Moves.mapM fun _ _ => ih _).bind fun _ => .pure _
    · exact (Moves.mapM fun _ _ => (ih _).bind fun _ => .pure _).bind fun _ => .pure _
    · exact allocateLeaf_moves sound p t

end Moves

section Allocate

variable {g : Graph} {p : Partition} {m m' : Memory}

/-- What is made, and how far the next free number has moved. -/
def Lays (g : Graph) (p : Partition) (t : TypeId) (one : MemoryM Cell) : Prop :=
  ∀ m c m', one m = (.ok c, m') →
    c.type = t ∧ Laid g p (m.next p) c ∧ m' = m.setNext p (m.next p + c.room g)

theorem allocateLeaf_lays (sound : g.Sound) {t : TypeId}
    (harray : ∀ element axes, g.node t ≠ .array element axes)
    (htuple : ∀ name fields size, g.node t ≠ .tuple name fields size) :
    Lays g p t (allocateLeaf g p t) := by
  intro m c m' h
  rw [allocateLeaf, bind_apply, get_apply] at h
  dsimp only at h
  rw [bind_apply, lift_apply] at h
  rcases hsize : g.size t with _ | v
  · rw [hsize] at h
    cases h
  · obtain ⟨n, rfl⟩ := sound.size_isSize hsize
    rw [hsize] at h
    cases h
    have hroom : leafRoom g t = n := by rw [leafRoom, hsize]
    refine ⟨rfl, ⟨.leaf _ _ harray htuple, ?_, ?_, ?_, ?_, ?_⟩, ?_⟩
    · intro path a t v hat
      cases path with
      | nil => cases hat; rfl
      | cons => cases hat
    · intro a ha
      cases ha
      rfl
    · rw [Cell.room, hroom]
      omega
    · rw [Cell.room, hroom]
      exact ⟨rfl, n, hsize, rfl⟩
    · intro hg a _
      have hne := hg.size_ne_zero harray htuple
      rw [hsize] at hne
      rw [Cell.room, hroom]
      have : n ≠ 0 := fun hzero => hne (by rw [hzero]; rfl)
      omega
    · rw [Cell.room, hroom]

theorem allocateMany_lays {one : MemoryM Cell} {t : TypeId} (hone : Lays g p t one) (n : Nat)
    {cs : List Cell} (h : allocateMany one n m = (.ok cs, m')) :
    LaidParts g p (m.next p) cs ∧ m' = m.setNext p (m.next p + roomOfParts g cs) ∧
      cs.length = n ∧ ∀ c ∈ cs, Shaped g t c := by
  induction n generalizing m cs with
  | zero =>
    cases h
    refine ⟨trivial, by rw [roomOfParts, Int.add_zero, setNext_next], rfl, fun c hc => ?_⟩
    cases hc
  | succ n ih =>
    obtain ⟨c, m₁, hc, h⟩ := bind_ok h
    obtain ⟨rest, m₂, hrest, h⟩ := bind_ok h
    cases h
    obtain ⟨htype, hlaid, rfl⟩ := hone m c m₁ hc
    obtain ⟨hlaids, rfl, hlength, hshaped⟩ := ih hrest
    rw [next_setNext] at hlaids ⊢
    refine ⟨⟨hlaid, hlaids⟩, by rw [setNext_setNext, roomOfParts, Int.add_assoc],
      by rw [List.length_cons, hlength], fun d hd => ?_⟩
    rcases List.mem_cons.1 hd with rfl | hd
    · exact htype ▸ hlaid.shaped
    · exact hshaped d hd

theorem fields_lays {one : TypeId → MemoryM Cell} (hone : ∀ t, Lays g p t (one t))
    (fields : List (String × TypeId)) {parts : List (String × Cell)}
    (h : (fields.mapM (fun field => do return (field.1, ← one field.2)) :
      MemoryM (List (String × Cell))) m = (.ok parts, m')) :
    LaidParts g p (m.next p) (parts.map (·.2)) ∧
      m' = m.setNext p (m.next p + roomOfFields g parts) ∧ parts.map (·.1) = fields.map (·.1) ∧
      ∀ pair ∈ parts.zip fields, Shaped g pair.2.2 pair.1.2 := by
  induction fields generalizing m parts with
  | nil =>
    cases h
    refine ⟨trivial, ?_, rfl, fun pair hpair => by cases hpair⟩
    change _ = setNext _ p (next _ p + 0)
    rw [Int.add_zero, setNext_next]
  | cons field fields ih =>
    rw [List.mapM_cons] at h
    obtain ⟨part, m₁, hpart, h⟩ := bind_ok h
    obtain ⟨rest, m₂, hrest, h⟩ := bind_ok h
    cases h
    obtain ⟨c, m₃, hc, hpart⟩ := bind_ok hpart
    cases hpart
    obtain ⟨htype, hlaid, rfl⟩ := hone _ m c _ hc
    obtain ⟨hlaids, rfl, hnames, hshaped⟩ := ih hrest
    rw [next_setNext] at hlaids ⊢
    refine ⟨⟨hlaid, hlaids⟩, by rw [setNext_setNext, roomOfFields, Int.add_assoc],
      by rw [List.map_cons, List.map_cons, hnames], fun pair hpair => ?_⟩
    rcases List.mem_cons.1 hpair with rfl | hpair
    · exact htype ▸ hlaid.shaped
    · exact hshaped pair hpair

theorem allocateFrom_lays (sound : g.Sound) (fuel : Nat) (t : TypeId) :
    Lays g p t (allocateFrom g p fuel t) := by
  induction fuel generalizing t with
  | zero =>
    intro m c m' h
    cases h
  | succ fuel ih =>
    rw [allocateFrom]
    split
    · rename_i element axes hnode
      intro m c m' h
      obtain ⟨count, m₁, hcount, h⟩ := bind_ok h
      obtain ⟨n, m₂, hn, h⟩ := bind_ok h
      obtain ⟨cs, m₃, hcs, h⟩ := bind_ok h
      cases h
      rw [lift_apply, Prod.mk.injEq] at hcount hn
      obtain ⟨hcount, rfl⟩ := hcount
      obtain ⟨hn, rfl⟩ := hn
      have hplain := sound.plain t
      rw [hnode] at hplain
      obtain ⟨k, rfl⟩ := Types.elementCount_isSize hplain.2 hcount
      cases hn
      obtain ⟨hlaids, hm', hlength, hshaped⟩ := allocateMany_lays (ih _) _ hcs
      rw [Int.toNat_natCast] at hlength
      subst hlength
      exact ⟨rfl, hlaids.array (.array hnode hcount hshaped), hm'⟩
    · rename_i name fields size hnode
      intro m c m' h
      obtain ⟨parts, m₁, hparts, h⟩ := bind_ok h
      cases h
      obtain ⟨hlaids, hm', hnames, hshaped⟩ := fields_lays ih _ hparts
      exact ⟨rfl, hlaids.tuple (.tuple hnode hnames hshaped), hm'⟩
    · rename_i harray htuple
      exact allocateLeaf_lays sound harray htuple

theorem allocate_moves (sound : g.Sound) (p : Partition) (t : TypeId) : Moves p (allocate g p t) :=
  allocateFrom_moves sound p _ t

theorem allocate_lays (sound : g.Sound) (p : Partition) (t : TypeId) : Lays g p t (allocate g p t) :=
  allocateFrom_lays sound _ t

end Allocate

end Chalkboard.Memory
