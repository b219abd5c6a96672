import Chalkboard.Proofs.Layout
import Chalkboard.Proofs.Located

/-! What a run can come to: the addresses that its variables hold, those that the blocks there hold, and so
on. A write brings no address within reach that was not there, a new block brings its own and no other. Two
memories that differ at most in a block that nothing leads to stay so whatever is done to both of them. -/

namespace Chalkboard.Memory

open Chalkboard.Types (TypeId)

namespace Address

theorem same_refl (a : Address) : a.same a = true := same_iff.2 ⟨rfl, rfl⟩

theorem same_comm (a b : Address) : a.same b = b.same a := Bool.eq_iff_iff.2 ⟨same_symm, same_symm⟩

theorem same_congr {a b : Address} (h : a.same b = true) (c : Address) : a.same c = b.same c :=
  Bool.eq_iff_iff.2 ⟨same_trans (same_symm h), same_trans h⟩

end Address

def Cell.Shows (c : Cell) (a : Address) : Prop := ∃ path b t, c.at? path = some (.leaf b t (.address a))

/-- The addresses that a run can come to: those that a variable holds, and those that a block holds at an
address it can come to. -/
inductive Reaches (m : Memory) : Address → Prop
  | stack {name : String} {c : Cell} {a : Address} (hc : (name, c) ∈ m.stack) (ha : c.Shows a) : m.Reaches a
  | heap {b : Address} {c : Cell} {a : Address} (hb : m.Reaches b) (hc : m.heapCell? b = some c)
      (ha : c.Shows a) : m.Reaches a

def Lost (m : Memory) (a : Address) : Prop := ∀ b, m.Reaches b → b.same a = false

/-- Two memories that differ at most in the block at an address; and where they differ nothing leads to it. -/
structure SameBut (a : Address) (m m' : Memory) : Prop where
  same : m'.erase a = m.erase a
  entry : m'.heapCell? a = m.heapCell? a ∨ m.Lost a

section Blocks

variable {m m' : Memory} {a b : Address} {c : Cell}

theorem heapCell?_same (h : b.same a = true) : m.heapCell? b = m.heapCell? a := by
  unfold heapCell?
  congr 2
  funext x
  exact Bool.eq_iff_iff.2 ⟨fun hx => Address.same_trans hx h,
    fun hx => Address.same_trans hx (Address.same_symm h)⟩

theorem heapCell?_erase (m : Memory) (a b : Address) :
    (m.erase a).heapCell? b = if b.same a then none else m.heapCell? b := by
  unfold heapCell? erase
  rw [List.find?_filter]
  split
  · rename_i hsame
    rw [Option.map_eq_none_iff, List.find?_eq_none]
    intro x _ hx
    simp only [Bool.not_eq_eq_eq_not, Bool.not_true, decide_eq_true_eq] at hx
    rw [Address.same_congr hx.2, hsame] at hx
    cases hx.1
  · rename_i hsame
    congr 2
    funext x
    rw [Bool.eq_iff_iff]
    simp only [Bool.not_eq_eq_eq_not, Bool.not_true, decide_eq_true_eq]
    refine and_iff_right_of_imp fun hx => ?_
    rw [Address.same_congr hx]
    simpa using hsame

theorem find?_enter (a b : Address) (c : Cell) (heap : List (Address × Cell)) :
    ((enter a c heap).find? fun x => x.1.same b).map (·.2) =
      if b.same a then some c else (heap.find? fun x => x.1.same b).map (·.2) := by
  induction heap with
  | nil =>
    rw [enter, List.find?_cons, Address.same_comm a b]
    cases b.same a <;> rfl
  | cons entry rest ih =>
    obtain ⟨x, old⟩ := entry
    rw [enter]
    by_cases hx : x.same a = true
    · rw [if_pos hx, List.find?_cons, List.find?_cons, Address.same_congr hx, Address.same_comm a b]
      cases b.same a <;> rfl
    · rw [if_neg hx, List.find?_cons, List.find?_cons]
      dsimp only
      cases hb : x.same b with
      | true =>
        rw [Address.same_congr hb] at hx
        rw [if_neg hx]
      | false => exact ih

theorem heapCell?_enter (m : Memory) (a b : Address) (c : Cell) :
    ({ m with heap := enter a c m.heap } : Memory).heapCell? b =
      if b.same a then some c else m.heapCell? b := find?_enter a b c m.heap

theorem heapCell?_write (m : Memory) (here : Location) (v : Value) (b : Address) :
    (m.write here v).heapCell? b = (m.heapCell? b).map fun c =>
      match here.root with
      | .stack _ => c
      | .heap a => if b.same a then c.write v here.path else c := by
  obtain ⟨root, path⟩ := here
  cases root with
  | stack name => exact Option.map_id'.symm
  | heap a =>
    unfold write heapCell?
    dsimp only
    rw [List.find?_map, Option.map_map, Option.map_map]
    refine Option.map_congr fun x hx => ?_
    have hsame := List.find?_some hx
    dsimp only [Function.comp_apply] at hsame ⊢
    rw [Address.same_congr hsame]

theorem erase_write (m : Memory) (here : Location) (v : Value) (a : Address) :
    (m.write here v).erase a = (m.erase a).write here v := by
  unfold write erase
  split
  · rfl
  · simp only [List.filter_map]
    rfl

theorem filter_enter (a b : Address) (c : Cell) (heap : List (Address × Cell)) :
    ((enter b c heap).filter fun x => !x.1.same a) =
      if b.same a then heap.filter fun x => !x.1.same a else enter b c (heap.filter fun x => !x.1.same a) := by
  induction heap with
  | nil =>
    rw [enter, List.filter_cons]
    cases b.same a <;> rfl
  | cons entry rest ih =>
    obtain ⟨x, old⟩ := entry
    rw [enter, List.filter_cons]
    by_cases hx : x.same b = true
    · rw [if_pos hx, List.filter_cons]
      dsimp only
      rw [Address.same_congr hx]
      cases hb : b.same a with
      | true => rfl
      | false => exact (if_pos hx).symm
    · rw [if_neg hx, List.filter_cons, ih]
      dsimp only
      cases hb : b.same a with
      | true => rfl
      | false =>
        cases hxa : x.same a with
        | true => rfl
        | false => exact (if_neg hx).symm

theorem erase_enter (m : Memory) (a b : Address) (c : Cell) :
    ({ m with heap := enter b c m.heap } : Memory).erase a =
      if b.same a then m.erase a else { m.erase a with heap := enter b c (m.erase a).heap } := by
  simp only [erase]
  rw [filter_enter]
  split <;> rfl

theorem erase_erase (m : Memory) (a b : Address) : (m.erase b).erase a = (m.erase a).erase b := by
  simp only [erase, List.filter_filter, Bool.and_comm]

end Blocks

section Reaching

variable {m m' : Memory} {a b : Address} {c d : Cell}

theorem Cell.Shows.of_part {i : Nat} (hd : c.part? i = some d) (h : d.Shows a) : c.Shows a := by
  obtain ⟨path, b, t, hat⟩ := h
  exact ⟨i :: path, b, t, by rw [at?, hd]; exact hat⟩

variable {here : Location} {p : Partition} {v : Value}

theorem Cell.Shows.of_write {path : List Nat} (h : (c.write v path).Shows a) :
    c.Shows a ∨ v = .address a := by
  obtain ⟨path', b, t, hat⟩ := h
  rcases at?_write hat with hold | ⟨hnew, -⟩
  · exact .inl ⟨path', b, t, hold⟩
  · exact .inr hnew.symm

theorem Laid.not_shows {g : Types.Graph} {start : Int} (h : Laid g p start c) :
    ¬c.Shows a := by
  rintro ⟨path, b, t, hat⟩
  cases h.blank hat

/-- How reaching changes: what the variables show is reached before or new, and so is what a block shows,
unless the block is at a new address. -/
theorem Reaches.of_change (new : Address → Prop) (h : m'.Reaches b)
    (hstack : ∀ x ∈ m'.stack, ∀ b, x.2.Shows b → m.Reaches b ∨ new b)
    (hheap : ∀ a c, m'.heapCell? a = some c → ∀ b, c.Shows b →
      new b ∨ ¬new a ∧ (m.Reaches a → m.Reaches b)) : m.Reaches b ∨ new b := by
  induction h with
  | stack hc ha => exact hstack _ hc _ ha
  | heap _ hc ha ih =>
    rcases hheap _ _ hc _ ha with hnew | ⟨hold, hreach⟩
    · exact .inr hnew
    · exact .inl (hreach (ih.resolve_right hold))

/-- A value that brings no address that is not reached. -/
def Reached (m : Memory) (v : Value) : Prop := ∀ b, v = .address b → m.Reaches b

theorem reached_of_inert (h : v.Inert) : m.Reached v := fun b hb => absurd hb (h b)

theorem shows_of_write_stack {x : String × Cell}
    (hx : x ∈ (m.write here v).stack) (h : x.2.Shows b) : m.Reaches b ∨ v = .address b := by
  obtain ⟨root, path⟩ := here
  cases root with
  | stack name =>
    obtain ⟨y, hy, rfl⟩ := List.mem_map.1 hx
    dsimp only at h
    split at h
    · exact h.of_write.imp_left (.stack hy)
    · exact .inl (.stack hy h)
  | heap a => exact .inl (.stack hx h)

theorem shows_of_write_heap (hc : (m.write here v).heapCell? a = some c)
    (h : c.Shows b) : (m.Reaches a → m.Reaches b) ∨ v = .address b := by
  rw [heapCell?_write] at hc
  obtain ⟨old, hold, rfl⟩ := Option.map_eq_some_iff.1 hc
  split at h
  · exact .inl fun ha => .heap ha hold h
  · split at h
    · exact h.of_write.imp_left fun h ha => .heap ha hold h
    · exact .inl fun ha => .heap ha hold h

theorem Reaches.of_kept (h : m'.Reaches b) (hstack : ∀ x ∈ m'.stack, ∀ b, x.2.Shows b → m.Reaches b)
    (hheap : ∀ a c, m'.heapCell? a = some c → ∀ b, c.Shows b → m.Reaches a → m.Reaches b) : m.Reaches b :=
  (h.of_change (fun _ => False) (fun x hx b hb => .inl (hstack x hx b hb))
    fun a c hc b hb => .inr ⟨id, hheap a c hc b hb⟩).resolve_right id

theorem Reaches.of_write (hv : m.Reached v)
    (h : (m.write here v).Reaches b) : m.Reaches b :=
  h.of_kept (fun _ hx b hb => (shows_of_write_stack hx hb).elim id (hv b))
    fun _ _ hc b hb => (shows_of_write_heap hc hb).elim id fun hb _ => hv b hb

theorem Reaches.of_erase (h : (m.erase a).Reaches b) : m.Reaches b := by
  refine h.of_kept (fun _ hx b hb => .stack hx hb) fun a' c hc b hb ha => ?_
  rw [heapCell?_erase] at hc
  split at hc
  · cases hc
  · exact .heap ha hc hb

theorem Reaches.of_setNext {n : Int} (h : (m.setNext p n).Reaches b) : m.Reaches b := by
  cases p <;> exact h.of_kept (fun _ hx b hb => .stack hx hb) fun _ _ hc b hb ha => .heap ha hc hb

theorem Reaches.of_push {name : String} (hc : ∀ b, ¬c.Shows b)
    (h : ({ m with stack := m.stack ++ [(name, c)] } : Memory).Reaches b) : m.Reaches b := by
  refine h.of_kept (fun x hx b hb => ?_) fun _ _ hc b hb ha => .heap ha hc hb
  rcases List.mem_append.1 hx with hx | hx
  · exact .stack hx hb
  · rw [List.mem_singleton.1 hx] at hb
    exact absurd hb (hc b)

theorem Reaches.of_stored (hc : ∀ b, ¬c.Shows b)
    (h : ({ m.write here (.address a) with
      heap := enter a c (m.write here (.address a)).heap } : Memory).Reaches b) :
    m.Reaches b ∨ b.same a = true := by
  refine h.of_change (·.same a = true) (fun x hx b hb => ?_) fun a' c' hc' b hb => ?_
  · refine (shows_of_write_stack hx hb).imp_right fun hb => ?_
    cases hb
    exact Address.same_refl a
  · rw [heapCell?_enter] at hc'
    split at hc'
    · cases hc'
      exact absurd hb (hc b)
    · rename_i hold
      rcases shows_of_write_heap hc' hb with hreach | hb
      · exact .inr ⟨hold, hreach⟩
      · cases hb
        exact .inl (Address.same_refl a)

end Reaching

section Same

variable {m m' : Memory} {a b : Address} {c : Cell}

theorem SameBut.erased (h : m.Lost a) : SameBut a m (m.erase a) where
  same := by simp [erase]
  entry := .inr h

theorem Lost.mono {m₁ : Memory} (h : m.Lost a) (hreach : ∀ b, m₁.Reaches b → m.Reaches b) : m₁.Lost a :=
  fun b hb => h b (hreach b hb)

theorem SameBut.stack (h : SameBut a m m') : m'.stack = m.stack := by
  have hstack := congrArg Memory.stack h.same
  exact hstack

theorem SameBut.next (h : SameBut a m m') (p : Partition) : m'.next p = m.next p := by
  have hnext := congrArg (Memory.next · p) h.same
  cases p <;> exact hnext

theorem SameBut.stackCell? (h : SameBut a m m') (name : String) : m'.stackCell? name = m.stackCell? name := by
  rw [Memory.stackCell?, Memory.stackCell?, h.stack]

theorem SameBut.heapCell? (h : SameBut a m m') (hb : m.Reaches b) : m'.heapCell? b = m.heapCell? b := by
  cases hsame : b.same a with
  | true =>
    rcases h.entry with hentry | hlost
    · rw [heapCell?_same hsame, heapCell?_same hsame, hentry]
    · rw [hlost b hb] at hsame
      cases hsame
  | false =>
    have herase := congrArg (Memory.heapCell? · b) h.same
    simpa [heapCell?_erase, hsame] using herase

theorem SameBut.write (h : SameBut a m m') (here : Location) {v : Value} (hv : m.Reached v) :
    SameBut a (m.write here v) (m'.write here v) where
  same := by rw [erase_write, erase_write, h.same]
  entry := by
    rw [heapCell?_write, heapCell?_write]
    exact h.entry.imp (fun hentry => by rw [hentry]) fun hlost => hlost.mono fun b hb => hb.of_write hv

theorem SameBut.setNext (h : SameBut a m m') (p : Partition) (n : Int) :
    SameBut a (m.setNext p n) (m'.setNext p n) where
  same := by
    have hcomm (m : Memory) : (m.setNext p n).erase a = (m.erase a).setNext p n := by cases p <;> rfl
    rw [hcomm, hcomm, h.same]
  entry := by
    have hheap (m : Memory) : (m.setNext p n).heapCell? a = m.heapCell? a := by cases p <;> rfl
    rw [hheap, hheap]
    exact h.entry.imp_right fun hlost => hlost.mono fun b hb => hb.of_setNext

theorem SameBut.push (h : SameBut a m m') (name : String) (hc : ∀ b, ¬c.Shows b) :
    SameBut a { m with stack := m.stack ++ [(name, c)] } { m' with stack := m'.stack ++ [(name, c)] } where
  same := by
    have hsame := congrArg (fun x : Memory => { x with stack := x.stack ++ [(name, c)] }) h.same
    exact hsame
  entry := h.entry.imp_right fun hlost => hlost.mono fun b hb => hb.of_push hc

theorem SameBut.erase (h : SameBut a m m') (b : Address) : SameBut a (m.erase b) (m'.erase b) where
  same := by rw [erase_erase, erase_erase m, h.same]
  entry := by
    rw [heapCell?_erase, heapCell?_erase]
    exact h.entry.imp (fun hentry => by rw [hentry]) fun hlost => hlost.mono fun b hb => hb.of_erase

theorem SameBut.stored (h : SameBut a m m') (here : Location) (hc : ∀ b, ¬c.Shows b) :
    let stored (m : Memory) : Memory :=
      { m.write here (.address b) with heap := enter b c (m.write here (.address b)).heap }
    SameBut a (stored m) (stored m') where
  same := by
    have hwrite : (m'.write here (.address b)).erase a = (m.write here (.address b)).erase a := by
      rw [erase_write, erase_write, h.same]
    rw [erase_enter, erase_enter, hwrite]
  entry := by
    rw [heapCell?_enter, heapCell?_enter, heapCell?_write, heapCell?_write]
    cases hb : a.same b with
    | true => exact .inl rfl
    | false =>
      refine h.entry.imp (fun hentry => by rw [hentry]) fun hlost b' hreach => ?_
      rcases Reaches.of_stored hc hreach with hold | hnew
      · exact hlost b' hold
      · rw [Address.same_congr hnew, Address.same_comm, hb]

end Same

mutual

/-- The addresses that the leaves of a cell hold. -/
def Cell.shown : Cell → List Address
  | .leaf _ _ (.address a) => [a]
  | .leaf .. => []
  | .array _ parts => shownInParts parts
  | .tuple _ parts => shownInFields parts

def shownInParts : List Cell → List Address
  | [] => []
  | c :: cs => c.shown ++ shownInParts cs

def shownInFields : List (String × Cell) → List Address
  | [] => []
  | (_, c) :: cs => c.shown ++ shownInFields cs

end

/-- Whether the addresses have among them what the variables hold, and what the blocks at them hold. -/
def covers (m : Memory) (found : List Address) : Bool :=
  m.stack.all (fun x => x.2.shown.all found.contains) &&
    found.all fun b => (m.heapCell? b).all fun c => c.shown.all found.contains

section Covers

variable {m : Memory} {a : Address} {c d : Cell}

theorem shown_of_mem_parts {parts : List Cell} (hd : d ∈ parts) (ha : a ∈ d.shown) : a ∈ shownInParts parts := by
  induction parts with
  | nil => cases hd
  | cons c parts ih =>
    rw [shownInParts, List.mem_append]
    rcases List.mem_cons.1 hd with rfl | hd
    · exact .inl ha
    · exact .inr (ih hd)

theorem shown_of_mem_fields {parts : List (String × Cell)} {x : String × Cell} (hx : x ∈ parts)
    (ha : a ∈ x.2.shown) : a ∈ shownInFields parts := by
  induction parts with
  | nil => cases hx
  | cons y parts ih =>
    rw [shownInFields, List.mem_append]
    rcases List.mem_cons.1 hx with rfl | hx
    · exact .inl ha
    · exact .inr (ih hx)

theorem Cell.shown_of_part {i : Nat} (hd : c.part? i = some d) (ha : a ∈ d.shown) : a ∈ c.shown := by
  cases c with
  | leaf => cases hd
  | array t parts => exact shown_of_mem_parts (List.mem_of_getElem? hd) ha
  | tuple t parts =>
    obtain ⟨x, hx, rfl⟩ := Option.map_eq_some_iff.1 hd
    exact shown_of_mem_fields (List.mem_of_getElem? hx) ha

theorem Cell.Shows.mem_shown (h : c.Shows a) : a ∈ c.shown := by
  obtain ⟨path, b, t, hat⟩ := h
  induction path generalizing c with
  | nil =>
    cases hat
    exact List.mem_singleton.2 rfl
  | cons i path ih =>
    obtain ⟨d, hd, hat⟩ := Option.bind_eq_some_iff.1 hat
    exact shown_of_part hd (ih hat)

theorem mem_of_covers {found : List Address} (h : m.covers found = true) (ha : m.Reaches a) : a ∈ found := by
  simp only [covers, Bool.and_eq_true, List.all_eq_true, List.contains_iff_mem] at h
  obtain ⟨hstack, hheap⟩ := h
  induction ha with
  | stack hc ha => exact hstack _ hc _ ha.mem_shown
  | heap hb hc ha ih =>
    have hblock := hheap _ ih
    rw [hc] at hblock
    simp only [Option.all_some, List.all_eq_true, List.contains_iff_mem] at hblock
    exact hblock _ ha.mem_shown

theorem lost_of_covers {found : List Address} (h : m.covers found = true)
    (ha : (found.all fun b => !b.same a) = true) : m.Lost a := by
  intro b hb
  simpa using List.all_eq_true.1 ha b (mem_of_covers h hb)

end Covers

end Chalkboard.Memory
