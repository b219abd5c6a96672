import Chalkboard.Proofs.Steps

/-! The history of the heap along a run: which blocks were stored, and which addresses were removed. A
step turns the memory in one of few ways, each with its events; what every turn keeps holds after any
number of steps, also in the memory that a failed step leaves behind. -/

namespace Chalkboard.Run

open Effects
open Syntax (Action Item Program)
open Memory (Address Cell Location Laid)

/-- What happens to the heap: a block that takes some room is stored at an address, or the block at an
address is removed. -/
inductive Event where
  | stored (a : Address) (room : Int)
  | removed (a : Address)
  deriving DecidableEq, Repr

abbrev History := List Event

/-- What an action is about to do to the heap. -/
def eventsOf (f : Frame) (m : Memory) : Action → History
  | .perform (.call .alloc _ v) =>
    match reserve f v m with
    | (.ok (_, a, block), _) => [.stored a (block.room f.types.graph)]
    | (.error _, _) => []
  | .perform (.call .free _ v) =>
    match pointed f v m with
    | (.ok (_, a), _) => [.removed a]
    | (.error _, _) => []
  | _ => []

def historian (f : Frame) (items : Array Item) : Watch History where
  before place s :=
    match items[place]? with
    | some item => modify (· ++ eventsOf f s.memory item.action)
    | none => pure ()

/-- The first steps of a program on a new memory, with their history. -/
def chronicle (f : Frame) (p : Program) (n : Nat) : Except Fault (Option Nat) × Course History :=
  runProgram f (historian f p.items.toArray) p false n (.start none [] [])

/-- The ways in which a step changes the memory, with the events of each. -/
inductive Turn (f : Frame) (m : Memory) : History → Memory → Prop
  | still : Turn f m [] m
  | moved (n : Int) (hle : m.nextStack ≤ n) : Turn f m [] (m.setNext .stack n)
  | declared {name : String} {c : Cell} {n : Int} (hnew : m.stackCell? name = none)
      (hlaid : Laid f.types.graph .stack m.nextStack c)
      (hn : n = m.nextStack + c.room f.types.graph) :
      Turn f m [] { m.setNext .stack n with stack := m.stack ++ [(name, c)] }
  | wrote {here : Location} {b : Address} {t : Types.TypeId} {old v : Value}
      (hat : m.cellAt? here = some (.leaf b t old)) (hfits : f.types.graph.admits t v = .ok true)
      (hheld : ∀ a, v = .address a → Holds m v) : Turn f m [] (m.write here v)
  | stored {here : Location} {c block : Cell} {t : Types.TypeId} {target : Types.Target} {m' : Memory}
      (hat : m.cellAt? here = some c) (hclosure : f.types.graph.closure c.type = .ok t)
      (hnode : f.types.graph.node t = .pointer target)
      (hlaid : Laid f.types.graph .heap m.nextHeap block)
      (haddress : block.address = .ok ⟨.heap, m.nextHeap⟩)
      (hm' : m' = (m.setNext .heap (m.nextHeap + block.room f.types.graph)).write here
        (.address ⟨.heap, m.nextHeap⟩)) :
      Turn f m [.stored ⟨.heap, m.nextHeap⟩ (block.room f.types.graph)]
        { m' with heap := Memory.enter ⟨.heap, m.nextHeap⟩ block m'.heap }
  | removed {here : Location} {b a : Address} {t : Types.TypeId}
      (hat : m.cellAt? here = some (.leaf b t (.address a)))
      (hpointer : f.types.graph.isPointer t = true) (hblock : (m.heapCell? a).isSome = true) :
      Turn f m [.removed a] ((m.erase a).write here .unknown)

section Step

variable {e : Fault} {f : Frame} {item : Item} {m m' : Memory} {next : Option Nat} {place : Nat}
  {s s' : Situation}

theorem Writes.eventsOf_nil {v : Syntax.Variable} {value : Value} (h : Writes f m item next v value) :
    eventsOf f m item.action = [] := by
  cases h with
  | assigned haction | counted haction =>
    rw [haction]
    rfl

theorem Writes.holds {v : Syntax.Variable} {value : Value} (h : Writes f m item next v value) (a : Address)
    (ha : value = .address a) : Holds m value := by
  subst ha
  cases h with
  | assigned _ hvalue => exact evalExpr_address _ hvalue
  | counted _ _ hvalue => exact hvalue.elim (evalExpr_address _) fun hplain => absurd rfl (hplain.inert a)

theorem Done.turn (sound : f.types.graph.Sound) (h : Done f m item next m') :
    Turn f m (eventsOf f m item.action) m' := by
  cases h with
  | kept hcall =>
    have hevents : eventsOf f m item.action = [] := by
      rcases haction : item.action with d | ⟨_ | _ | ⟨builtin, line, v⟩ | _ | _ | _⟩
      case perform.call => exact absurd haction (hcall builtin line v)
      all_goals rfl
    rw [hevents]
    exact .still
  | wrote hwrites hlocate hadmits =>
    rw [hwrites.eventsOf_nil]
    exact .wrote (locate_cellAt? hlocate) hadmits hwrites.holds
  | declared haction htype hlaid hnew =>
    rw [haction]
    exact .declared hnew hlaid rfl
  | stored haction hat hp hnode htarget hlaid hm₁ hreserve =>
    obtain ⟨-, -, -, -, -, -, -, -, haddress, rfl, -⟩ := reserve_ok sound hreserve
    rw [haction, eventsOf, hreserve]
    exact .stored hat hp hnode hlaid haddress hm₁
  | removed hat hpointer haction hpointed =>
    obtain ⟨-, -, -, -, -, hblock⟩ := pointed_ok hpointed
    rw [haction, eventsOf, hpointed]
    exact .removed hat hpointer hblock

theorem eventsOf_of_fails (h : complete f place item s = (.error e, s')) :
    eventsOf f s.memory item.action = [] := by
  obtain ⟨action, next, inner, other⟩ := item
  rcases action with d | ⟨_ | _ | ⟨_ | _, line, v⟩ | _ | _ | _⟩
  case perform.call.alloc =>
    have h : (onMemory (store f v) >>= fun _ => pure next : StepM _) s = _ := h
    rw [onMemory_then, store, bind_apply] at h
    rw [eventsOf]
    revert h
    rcases reserve f v s.memory with ⟨_ | _, _⟩ <;> intro h
    · rfl
    · cases h
  case perform.call.free =>
    have h : (onMemory (free f v) >>= fun _ => pure next : StepM _) s = _ := h
    rw [onMemory_then, free, bind_apply] at h
    rw [eventsOf]
    revert h
    rcases pointed f v s.memory with ⟨_ | _, _⟩ <;> intro h
    · rfl
    · cases h
  all_goals rfl

/-- What a step does to the memory. The memory of a step that fails may be one whose next free number of
the heap was moved on in vain. -/
theorem step_turn (sound : f.types.graph.Sound) (place : Nat) (item : Item) (s : Situation) :
    Turn f s.memory (eventsOf f s.memory item.action) (step f place item s).2.memory ∨
      (∃ e, (step f place item s).1 = .error e) ∧ eventsOf f s.memory item.action = [] ∧
        ∃ n, s.memory.nextHeap ≤ n ∧ (step f place item s).2.memory = s.memory.setNext .heap n := by
  rw [step_eq]
  rcases hcomplete : complete f place item s with ⟨e | next, done⟩
  · have hevents := eventsOf_of_fails hcomplete
    obtain ⟨-, p, n, hle, hn⟩ := complete_careful sound place item s e done hcomplete
    cases p with
    | stack =>
      dsimp only
      rw [hevents, hn]
      exact .inl (.moved n hle)
    | heap => exact .inr ⟨⟨e, rfl⟩, hevents, n, hle, hn⟩
  · exact .inl ((complete_done sound hcomplete).turn sound)

end Step

section Run

variable {f : Frame} {items : Array Item}

theorem watched_historian {place : Nat} {item : Item} (hi : items[place]? = some item)
    (c : Course History) :
    watched f.limits (historian f items) place (step f place item) c =
      match step f place item c.situation with
      | (.ok x, s) =>
        (if Types.exceeds f.limits.steps (c.steps + 1 : Nat) then .error (.limit .steps) else .ok x,
          { situation := { s with noted := [] }, steps := c.steps + 1, last := some place,
            current := some place, seen := c.seen ++ eventsOf f c.situation.memory item.action })
      | (.error e, s) =>
        (.error e, { c with
          situation := s
          current := some place
          seen := c.seen ++ eventsOf f c.situation.memory item.action }) := by
  unfold watched showAfter watching stepping historian
  simp only [bind_apply, get_apply, set_apply, modify_apply, pure_apply, hi]
  rcases step f place item c.situation with ⟨_ | x, s⟩
  · rfl
  · dsimp only
    split <;> rfl

variable {I J : Memory → History → Prop}

/-- What holds at the start and is kept by every turn holds after any number of steps. Where a step
fails, what is left of it without the next free number of the heap still holds. -/
theorem runFrom_history (sound : f.types.graph.Sound)
    (hweak : ∀ m h, J m h → I m h)
    (hturn : ∀ m h events m', J m h → Turn f m events m' → J m' (h ++ events))
    (hvain : ∀ m h n, m.nextHeap ≤ n → J m h → I (m.setNext .heap n) h) (n : Nat) (next : Option Nat)
    (c : Course History) (hc : J c.situation.memory c.seen) :
    I (runFrom f (historian f items) items n next c).2.situation.memory
      (runFrom f (historian f items) items n next c).2.seen := by
  induction n generalizing next c with
  | zero => cases next <;> exact hweak _ _ hc
  | succ n ih =>
    cases next with
    | none => exact hweak _ _ hc
    | some place =>
      rw [runFrom]
      rcases hi : items[place]? with _ | item
      · exact hweak _ _ hc
      · have hstep := step_turn sound place item c.situation
        dsimp only
        rw [bind_apply, watched_historian hi]
        revert hstep
        rcases step f place item c.situation with ⟨e | x, s⟩
        · rintro (hdone | ⟨-, hevents, k, hle, hk⟩)
          · exact hweak _ _ (hturn _ _ _ _ hc hdone)
          · dsimp only at hk ⊢
            rw [hevents, hk, List.append_nil]
            exact hvain _ _ k hle hc
        · rintro (hdone | ⟨⟨e, he⟩, -⟩)
          · have hJ := hturn _ _ _ _ hc hdone
            dsimp only
            split
            · rename_i hlimit
              split at hlimit
              · cases hlimit
              · cases hlimit
                exact ih x _ hJ
            · rename_i hlimit
              split at hlimit
              · cases hlimit
                exact hweak _ _ hJ
              · cases hlimit
          · cases he

theorem chronicle_apply (f : Frame) (p : Program) (n : Nat) :
    chronicle f p n = if p.items.toArray.isEmpty then
        (.error (.misuse .emptyProgram), .start none [] [])
      else runFrom f (historian f p.items.toArray) p.items.toArray n (some 0) (.start none [] []) := by
  unfold chronicle runProgram
  rw [if_neg (by simp)]
  dsimp only
  split <;> rfl

theorem chronicle_history (sound : f.types.graph.Sound)
    (hweak : ∀ m h, J m h → I m h)
    (hturn : ∀ m h events m', J m h → Turn f m events m' → J m' (h ++ events))
    (hvain : ∀ m h n, m.nextHeap ≤ n → J m h → I (m.setNext .heap n) h) (hstart : J {} [])
    (p : Program) (n : Nat) :
    I (chronicle f p n).2.situation.memory (chronicle f p n).2.seen := by
  rw [chronicle_apply]
  split
  · exact hweak _ _ hstart
  · exact runFrom_history sound hweak hturn hvain n (some 0) _ hstart

end Run

end Chalkboard.Run
