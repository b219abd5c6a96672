import Chalkboard.Proofs.Layout
import Chalkboard.Proofs.Located
import Chalkboard.Run.Machine

/-! What a step does to a situation. Every change comes after the last thing that can go wrong in a step,
limits apart: these are checked when the step is done. So a step that fails for another reason has at most
moved a next free number on. One that is done has put a cell on the stack or a block on the heap, written a
leaf or taken a block away, or changed nothing. -/

namespace Chalkboard.Run

open Effects
open Syntax (Expr Variable Sentence Action Item)
open Chalkboard.Types (TypeId Graph)
open Memory (MemoryM Address Cell Location Laid)

def Still {α : Type} (work : MemoryM α) : Prop := ∀ m, (work m).2 = m

section Still

variable {α β : Type}

theorem Still.lift (r : Except Fault α) : Still (liftM r : MemoryM α) := fun _ => rfl

theorem Still.throw (e : Fault) : Still (throw e : MemoryM α) := fun _ => rfl

theorem Still.bind {work : MemoryM α} {k : α → MemoryM β} (h : Still work) (hk : ∀ a, Still (k a)) :
    Still (work >>= k) := by
  intro m
  have hm := h m
  rw [bind_apply]
  revert hm
  rcases work m with ⟨_ | a, m'⟩
  · exact id
  · rintro rfl
    exact hk a m'

theorem Still.get_bind {k : Memory → MemoryM β} (hk : ∀ a, Still (k a)) : Still (get >>= k) := fun m =>
  hk m m

theorem Still.ite {p : Prop} [Decidable p] {work work' : MemoryM α} (h : Still work)
    (h' : Still work') : Still (if p then work else work') := by
  split
  · exact h
  · exact h'

end Still

section Parts

variable {f : Frame} {m m' : Memory} {v : Variable}

theorem find_apply (f : Frame) (v : Variable) (m : Memory) :
    find f v m = (locate (f.env m) m v, m) := rfl

variable {a : Address} {c : Cell} {place : Location}

theorem find_ok (h : find f v m = (.ok (place, c), m')) :
    m' = m ∧ m.cellAt? place = some c := by
  rw [find_apply, Prod.mk.injEq] at h
  exact ⟨h.2.symm, locate_cellAt? h.1⟩

theorem reserve_moves (sound : f.types.graph.Sound) : Memory.Moves .heap (reserve f v) := by
  have hfind : Memory.Moves .heap (find f v) := .of_still fun _ => rfl
  refine hfind.bind fun found => (Memory.Moves.lift _).bind fun t => ?_
  split
  · exact (Memory.Moves.lift _).bind fun t => (Memory.allocate_moves sound _ t).bind fun block =>
      (Memory.Moves.lift _).bind fun a => .pure _
  · exact .lift (.error _)
  · exact .lift (.error _)

/-- A block is made at the next free number of the heap, which moves on by its room. It is of the type that
the pointer points to, synonyms apart. -/
theorem reserve_ok (sound : f.types.graph.Sound) {block : Cell}
    (h : reserve f v m = (.ok (place, a, block), m')) :
    ∃ c p target, m.cellAt? place = some c ∧ f.types.graph.closure c.type = .ok p ∧
      f.types.graph.node p = .pointer (.settled target) ∧
      f.types.graph.closure target = .ok block.type ∧ Laid f.types.graph .heap m.nextHeap block ∧
      block.address = .ok a ∧ a = ⟨.heap, m.nextHeap⟩ ∧
      m' = m.setNext .heap (m.nextHeap + block.room f.types.graph) := by
  obtain ⟨⟨place', c⟩, m₁, hfind, hrest⟩ := bind_ok h
  obtain ⟨rfl, hat⟩ := find_ok hfind
  obtain ⟨p, hclosure, hrest⟩ := lift_bind_ok hrest
  rcases hnode : f.types.graph.node p with _ | _ | _ | _ | ⟨target | _⟩ | _ | _ | _ | _
  case pointer.settled =>
    rw [hnode] at hrest
    obtain ⟨u, hu, hrest⟩ := lift_bind_ok hrest
    obtain ⟨block', m₄, hblock, hrest⟩ := bind_ok hrest
    obtain ⟨a', ha, hrest⟩ := lift_bind_ok hrest
    cases hrest
    obtain ⟨htype, hlaid, hm'⟩ := Memory.allocate_lays sound _ u _ _ _ hblock
    exact ⟨c, p, target, hat, hclosure, hnode, htype ▸ hu, hlaid, ha, hlaid.address ha, hm'⟩
  all_goals
    rw [hnode] at hrest
    cases hrest

theorem nest_inert (lengths : List Nat) (items : List Value) {v : Value}
    (h : Cell.nest lengths items = .ok v) : v.Inert := by
  intro a ha
  subst ha
  match lengths with
  | [] => cases h
  | [_] => cases h
  | _ :: n :: rest =>
    rw [Cell.nest] at h
    dsimp only at h
    split at h
    · cases h
    · obtain ⟨_, -, h⟩ := except_bind_ok h
      cases h

theorem value_address {g : Graph} (h : c.value g = .ok (.address a)) :
    ∃ b t, c = .leaf b t (.address a) := by
  cases c with
  | leaf b t v =>
    cases h
    exact ⟨b, t, rfl⟩
  | array t parts =>
    rw [Cell.value] at h
    obtain ⟨values, -, h⟩ := except_bind_ok h
    obtain ⟨lengths, -, h⟩ := except_bind_ok h
    exact absurd rfl (nest_inert lengths values h a)
  | tuple t parts =>
    rw [Cell.value] at h
    obtain ⟨fields, -, h⟩ := except_bind_ok h
    cases h

theorem pointed_still : Still (pointed f v) := by
  refine Still.bind (fun _ => rfl) fun found => ?_
  refine .ite (.throw _) ((Still.lift _).bind fun value => ?_)
  split
  · exact Still.get_bind fun _ => .ite (.throw _) fun _ => rfl
  · exact (Still.lift _).bind fun _ => .throw _

theorem pointed_ok (h : pointed f v m = (.ok (place, a), m')) :
    m' = m ∧ ∃ b t, m.cellAt? place = some (.leaf b t (.address a)) ∧
      f.types.graph.isPointer t = true ∧ (m.heapCell? a).isSome = true := by
  have hstill := pointed_still (f := f) (v := v) m
  rw [h] at hstill
  refine ⟨hstill, ?_⟩
  obtain ⟨⟨place', c⟩, m₁, hfind, hrest⟩ := bind_ok h
  obtain ⟨rfl, hat⟩ := find_ok hfind
  dsimp only at hrest
  split at hrest
  · cases hrest
  rename_i hpointer
  obtain ⟨value, hvalue, hrest⟩ := lift_bind_ok hrest
  split at hrest
  · rename_i a'
    rw [bind_apply, get_apply] at hrest
    dsimp only at hrest
    split at hrest
    · cases hrest
    · rename_i hsome
      cases hrest
      obtain ⟨b, t, rfl⟩ := value_address hvalue
      exact ⟨b, t, hat, by simpa [Cell.type] using hpointer,
        Option.isSome_iff_ne_none.2 (by simpa using hsome)⟩
  · obtain ⟨_, _, -, hrest⟩ := bind_ok hrest
    cases hrest

end Parts

/-- Puts a new variable on the stack, whatever the limits are. -/
def put (f : Frame) (name : String) (t : Types.TypeId) : MemoryM Unit := do
  if ((← get).stackCell? name).isSome then throw (.alreadyDeclared name)
  let c ← Memory.allocate f.types.graph .stack t
  modify fun m => { m with stack := m.stack ++ [(name, c)] }

/-- Lets a pointer point to a new block, whatever the limits are. -/
def store (f : Frame) (v : Variable) : MemoryM Unit := do
  let (place, address, block) ← reserve f v
  modify fun m => m.write place (.address address)
  modify fun m => { m with heap := Memory.enter address block m.heap }

/-- A step in full, without its checks of limits. -/
def complete (f : Frame) (place : Nat) (item : Item) : StepM (Option Nat) :=
  match item.action with
  | .declare d => do
    onMemory (put f d.name d.type)
    return item.next
  | .perform (.call .alloc _ v) => do
    onMemory (store f v)
    return item.next
  | .perform s => perform f place item s

/-- The limits that are checked when a step is done. -/
def checks (f : Frame) (m : Memory) : Action → Except Fault Unit
  | .declare d => do
    f.types.graph.checkLimits f.limits d.type
    m.checkLimits f.limits
  | .perform (.call .alloc ..) => m.checkLimits f.limits
  | .perform _ => .ok ()

section Complete

variable {f : Frame}

theorem onMemory_then {α β : Type} (work : MemoryM α) (b : β) (s : Situation) :
    (onMemory work >>= fun _ => pure b : StepM β) s = match work s.memory with
      | (.ok _, m) => (.ok b, { s with memory := m })
      | (.error e, m) => (.error e, { s with memory := m }) := by
  rw [bind_apply, onMemory]
  rcases work s.memory with ⟨_ | _, _⟩ <;> rfl

theorem declare_eq (d : Syntax.Declaration) :
    Memory.declare f.types.graph f.limits d.name d.type = (do
      put f d.name d.type
      checks f (← get) (.declare d)) := by
  have hchecks : (do
        f.types.graph.checkLimits f.limits d.type
        (← get).checkLimits f.limits : MemoryM Unit) = (do checks f (← get) (.declare d)) := by
    funext m
    rw [bind_apply, lift_apply, bind_apply, get_apply]
    change _ = (checks f m (.declare d), m)
    dsimp only [checks]
    cases f.types.graph.checkLimits f.limits d.type <;> rfl
  unfold Memory.declare put
  simp only [bind_assoc, hchecks]
  congr 1
  funext m
  split
  · rfl
  · rw [bind_assoc]

theorem alloc_eq (line : Nat) (v : Variable) :
    alloc f v = (do
      store f v
      checks f (← get) (.perform (.call .alloc line v))) := by
  unfold alloc store checks
  simp only [bind_assoc]

theorem onMemory_checked (work : MemoryM Unit) (check : Memory → Except Fault Unit)
    (next : Option Nat) (s : Situation) :
    (onMemory (do work; check (← get)) >>= fun _ => pure next : StepM (Option Nat)) s =
      match (onMemory work >>= fun _ => pure next : StepM (Option Nat)) s with
      | (.ok next, done) => ((check done.memory).map fun _ => next, done)
      | (.error e, s') => (.error e, s') := by
  rw [onMemory_then, onMemory_then, bind_apply]
  rcases work s.memory with ⟨e | _, m⟩
  · rfl
  · dsimp only
    rw [bind_apply, get_apply]
    dsimp only
    rw [lift_apply]
    cases check m <;> rfl

theorem step_eq (place : Nat) (item : Item) (s : Situation) :
    step f place item s = match complete f place item s with
      | (.ok next, done) => ((checks f done.memory item.action).map fun _ => next, done)
      | (.error e, s') => (.error e, s') := by
  obtain ⟨action, next, inner, other⟩ := item
  have hunchecked (sentence : Sentence) :
      perform f place ⟨action, next, inner, other⟩ sentence s =
        match perform f place ⟨action, next, inner, other⟩ sentence s with
        | (.ok next, done) => ((Except.ok () : Except Fault Unit).map fun _ => next, done)
        | (.error e, s') => (.error e, s') := by
    rcases perform f place ⟨action, next, inner, other⟩ sentence s with ⟨_ | _, _⟩ <;> rfl
  cases action with
  | declare d =>
    have h := onMemory_checked (put f d.name d.type) (checks f · (.declare d)) next s
    rwa [← declare_eq] at h
  | perform sentence =>
    cases sentence with
    | call builtin line v =>
      cases builtin with
      | alloc =>
        have h := onMemory_checked (store f v) (checks f · (.perform (.call .alloc line v))) next s
        rwa [← alloc_eq] at h
      | free => exact hunchecked (.call .free line v)
    | skip line => exact hunchecked (.skip line)
    | assign v e => exact hunchecked (.assign v e)
    | branch guard yes no => exact hunchecked (.branch guard yes no)
    | loop guard body => exact hunchecked (.loop guard body)
    | count v start stop up body => exact hunchecked (.count v start stop up body)

end Complete

/-- Work on a situation that leaves its memory and its loops as they are, with a result in keeping with the
memory. -/
def Looks {α : Type} (work : StepM α) (P : Memory → α → Prop) : Prop :=
  ∀ s, (work s).2.memory = s.memory ∧ (work s).2.looping = s.looping ∧
    ∀ a s', work s = (.ok a, s') → P s.memory a

/-- A next free number may have moved on, and nothing else. -/
def Drifts (s s' : Situation) : Prop :=
  s'.looping = s.looping ∧ ∃ p n, s.memory.next p ≤ n ∧ s'.memory = s.memory.setNext p n

/-- Work that does no more than that if it fails. -/
def Careful {α : Type} (work : StepM α) : Prop := ∀ s e s', work s = (.error e, s') → Drifts s s'

section Looks

variable {α β : Type} {P : Memory → β → Prop} {Q : Memory → α → Prop} {s s' : Situation}

theorem Looks.lift {r : Except Fault β} (h : ∀ m b, r = .ok b → P m b) : Looks (liftM r) P := by
  intro s
  refine ⟨rfl, rfl, fun a s' e => ?_⟩
  cases e
  exact h s.memory a rfl

theorem Looks.bind {work : StepM α} {k : α → StepM β} (h : Looks work Q)
    (hk : ∀ a, Looks (k a) fun m b => Q m a → P m b) : Looks (work >>= k) P := by
  intro s
  obtain ⟨hmemory, hlooping, hresult⟩ := h s
  rw [bind_apply]
  revert hmemory hlooping hresult
  rcases work s with ⟨e | a, s₁⟩
  · intro hmemory hlooping _
    refine ⟨hmemory, hlooping, fun b s' he => ?_⟩
    cases he
  · intro hmemory hlooping hresult
    obtain ⟨hmemory', hlooping', hresult'⟩ := hk a s₁
    refine ⟨hmemory'.trans hmemory, hlooping'.trans hlooping, fun b s' he => ?_⟩
    have hb := hresult' b s' he
    rw [hmemory] at hb
    exact hb (hresult a s₁ rfl)

theorem Looks.get_bind {k : Situation → StepM β} (hk : ∀ s, Looks (k s) P) : Looks (get >>= k) P :=
  fun s => hk s s

theorem Looks.ite {p : Prop} [Decidable p] {work work' : StepM β} (h : Looks work P)
    (h' : Looks work' P) : Looks (if p then work else work') P := by
  split
  · exact h
  · exact h'

theorem Looks.onMemory {work : MemoryM β} (h : Still work) :
    Looks (onMemory work) fun _ _ => True := fun s => ⟨h s.memory, rfl, fun _ _ _ => trivial⟩

theorem Looks.ok {work : StepM α} (h : Looks work Q) {a : α} (hs : work s = (.ok a, s')) :
    Q s.memory a ∧ s'.memory = s.memory := by
  obtain ⟨hmemory, -, hresult⟩ := h s
  rw [hs] at hmemory
  exact ⟨hresult a s' hs, hmemory⟩

theorem Drifts.of_eq (hmemory : s'.memory = s.memory) (hlooping : s'.looping = s.looping) : Drifts s s' :=
  ⟨hlooping, .heap, _, Int.le_refl _, hmemory.trans Memory.setNext_next.symm⟩

theorem Looks.careful {work : StepM α} (h : Looks work Q) : Careful work := by
  intro s e s' he
  have hs := h s
  rw [he] at hs
  exact .of_eq hs.1 hs.2.1

theorem Looks.bind_careful {work : StepM α} {k : α → StepM β} (h : Looks work Q)
    (hk : ∀ a, Careful (k a)) : Careful (work >>= k) := by
  intro s e s' he
  obtain ⟨hmemory, hlooping, -⟩ := h s
  rw [bind_apply] at he
  revert hmemory hlooping he
  rcases work s with ⟨_ | a, s₁⟩
  · intro he hmemory hlooping
    cases he
    exact .of_eq hmemory hlooping
  · intro he hmemory hlooping
    have hdrifts := hk a s₁ e s' he
    rwa [Drifts, hmemory, hlooping] at hdrifts

theorem Careful.then {work : StepM α} {k : α → StepM β} (h : Careful work)
    (hk : ∀ a s, ∃ b s', k a s = (.ok b, s')) : Careful (work >>= k) := by
  intro s e s' he
  have hs := h s
  rw [bind_apply] at he
  revert hs he
  rcases work s with ⟨e' | a, s₁⟩
  · intro he hs
    cases he
    exact hs _ _ rfl
  · intro he _
    obtain ⟨b, s₂, hb⟩ := hk a s₁
    dsimp only at he
    rw [hb] at he
    cases he

theorem Careful.ite {p : Prop} [Decidable p] {work work' : StepM α} (h : Careful work)
    (h' : Careful work') : Careful (if p then work else work') := by
  split
  · exact h
  · exact h'

end Looks

section Step

variable {f : Frame} {α : Type}

theorem evaluate_looks_of {P : Memory → Value → Prop} (e : Expr)
    (h : ∀ m v, evalExpr (f.env m) e = .ok v → P m v) : Looks (evaluate f e) P := by
  intro s
  rw [evaluate, bind_apply, get_apply]
  dsimp only
  rw [bind_apply, lift_apply]
  rcases hv : evalExpr (f.env s.memory) e with _ | v
  · refine ⟨rfl, rfl, fun a s' he => ?_⟩
    cases he
  · refine ⟨rfl, rfl, fun a s' he => ?_⟩
    cases he
    exact h s.memory v hv

theorem evaluate_looks (e : Expr) : Looks (evaluate f e) fun m v => evalExpr (f.env m) e = .ok v :=
  evaluate_looks_of e fun _ _ h => h

theorem nextCount_looks_of {P : Memory → Value → Prop} (hplain : ∀ m v, v.Sourceless → P m v) (place : Nat)
    (v : Variable) (start : Expr) (hstart : ∀ m v, evalExpr (f.env m) start = .ok v → P m v) (up : Bool) :
    Looks (nextCount f place v start up) P := by
  refine Looks.get_bind fun s => .ite ?_ (evaluate_looks_of start hstart)
  have hread : Still (readVariable f v) := Still.bind (fun _ => rfl) fun _ => .lift _
  exact (Looks.onMemory hread).bind fun current => .lift fun m b hb _ =>
    hplain m b (Value.counted_sourceless (liftMisuse_ok hb))

theorem nextCount_looks (place : Nat) (v : Variable) (start : Expr) (up : Bool) :
    Looks (nextCount f place v start up) fun m w => evalExpr (f.env m) start = .ok w ∨ w.Sourceless :=
  nextCount_looks_of (fun _ _ => .inr) place v start (fun _ _ => .inl) up

theorem traceOrigin_looks (v : Variable) (e : Expr) (value : Value) :
    Looks (traceOrigin f v e value) fun _ _ => True := by
  refine fun s => ⟨?_, ?_, fun _ _ _ => trivial⟩
  all_goals
    rw [traceOrigin, modify_apply]
    dsimp only
    split <;> rfl

variable {p : Memory.Partition} {work : MemoryM α}

theorem careful_of_moves (h : Memory.Moves p work) {change : α → Memory → Memory} :
    Careful (onMemory (work >>= fun a => modify (change a))) := by
  intro s e s' he
  obtain ⟨n, hle, hn⟩ := h s.memory
  rw [onMemory, bind_apply] at he
  revert hn he
  rcases work s.memory with ⟨_ | a, m⟩
  · intro he hn
    cases he
    exact ⟨rfl, p, n, hle, hn⟩
  · intro he _
    cases he

theorem put_apply (name : String) (t : Types.TypeId) (m : Memory) :
    put f name t m = if (m.stackCell? name).isSome then (.error (.alreadyDeclared name), m)
      else (Memory.allocate f.types.graph .stack t >>= fun c =>
        modify fun m => { m with stack := m.stack ++ [(name, c)] }) m := by
  rw [put, bind_apply, get_apply]
  dsimp only
  split <;> rfl

theorem put_careful (sound : f.types.graph.Sound) (name : String) (t : Types.TypeId) :
    Careful (onMemory (put f name t)) := by
  intro s
  rw [onMemory, put_apply]
  by_cases hold : (s.memory.stackCell? name).isSome = true
  · rw [if_pos hold]
    intro e s' he
    cases he
    exact .of_eq rfl rfl
  · rw [if_neg hold]
    exact careful_of_moves (Memory.allocate_moves sound .stack t) s

theorem store_careful (sound : f.types.graph.Sound) (v : Variable) :
    Careful (onMemory (store f v)) := by
  have hstore : store f v = reserve f v >>= fun found => modify fun m =>
      { m.write found.1 (.address found.2.1) with
        heap := Memory.enter found.2.1 found.2.2 (m.write found.1 (.address found.2.1)).heap } := rfl
  rw [hstore]
  exact careful_of_moves (reserve_moves sound)

theorem free_careful (v : Variable) : Careful (onMemory (free f v)) :=
  careful_of_moves (p := .heap) (.of_still pointed_still)

theorem writeVariable_careful (v : Variable) (value : Value) :
    Careful (onMemory (writeVariable f v value)) := by
  intro s
  rw [onMemory, writeVariable, bind_apply, find_apply]
  have hstill {work : MemoryM Unit} (h : Still work) (e : Fault) (s' : Situation)
      (he : ((work s.memory).1, { s with memory := (work s.memory).2 }) = (.error e, s')) :
      Drifts s s' := (Looks.onMemory h).careful s e s' he
  rcases locate (f.env s.memory) s.memory v with e | ⟨place, c⟩
  · exact hstill (.throw e)
  · cases c with
    | leaf a t old =>
      dsimp only
      rw [bind_apply, lift_apply]
      rcases f.types.graph.admits t value with e | _ | _
      · exact hstill (.throw e)
      · exact hstill ((Still.lift _).bind fun _ => (Still.lift _).bind fun _ => .throw _)
      · intro e s' he
        cases he
    | array => exact hstill (.throw _)
    | tuple => exact hstill (.throw _)

theorem complete_careful (sound : f.types.graph.Sound) (place : Nat) (item : Item) :
    Careful (complete f place item) := by
  obtain ⟨action, next, inner, other⟩ := item
  have hdone {α : Type} (a : α) (s : Situation) :
      ∃ b s', (pure a : StepM α) s = (.ok b, s') := ⟨a, s, rfl⟩
  have hlook {α : Type} (r : Except Fault α) : Looks (liftM r : StepM α) fun _ _ => True :=
    .lift fun _ _ _ => trivial
  cases action with
  | declare d => exact (put_careful sound d.name d.type).then fun _ => hdone next
  | perform sentence =>
    cases sentence with
    | call builtin line v =>
      cases builtin with
      | alloc => exact (store_careful sound v).then fun _ => hdone next
      | free => exact (free_careful v).then fun _ => hdone next
    | skip line => exact (hlook (.ok next)).careful
    | assign v e =>
      exact (evaluate_looks e).bind_careful fun value => (traceOrigin_looks v e value).bind_careful
        fun _ => (writeVariable_careful v value).then fun _ => hdone next
    | branch guard yes no => exact (evaluate_looks guard).bind_careful fun _ => (hlook (.ok _)).careful
    | loop guard body =>
      exact (evaluate_looks guard).bind_careful fun _ => .ite (hlook (.ok _)).careful (hlook (.ok _)).careful
    | count v start stop up body =>
      refine (nextCount_looks place v start up).bind_careful fun value =>
        (evaluate_looks stop).bind_careful fun last => (hlook _).bind_careful fun goes => .ite ?_ ?_
      · exact (writeVariable_careful v value).then fun _ s => ⟨inner, _, rfl⟩
      · intro s e s' he
        cases he

end Step

/-- Which variable a step writes, and where the value comes from. -/
inductive Writes (f : Frame) (m : Memory) (item : Item) (next : Option Nat) : Variable → Value → Prop
  | assigned {v : Variable} {e : Expr} {value : Value} (haction : item.action = .perform (.assign v e))
      (hvalue : evalExpr (f.env m) e = .ok value) : Writes f m item next v value
  | counted {v : Variable} {start stop : Expr} {up : Bool} {body : List Sentence} {value : Value}
      (haction : item.action = .perform (.count v start stop up body)) (hnext : next = item.inner)
      (hvalue : evalExpr (f.env m) start = .ok value ∨ value.Sourceless) : Writes f m item next v value

/-- What a step that is done in full has done to the memory. -/
inductive Done (f : Frame) (m : Memory) (item : Item) (next : Option Nat) : Memory → Prop
  | kept (hcall : ∀ builtin line v, item.action ≠ .perform (.call builtin line v)) : Done f m item next m
  | wrote {v : Variable} {value old : Value} {here : Location} {b : Address} {t : TypeId}
      (hwrites : Writes f m item next v value) (hlocate : locate (f.env m) m v = .ok (here, .leaf b t old))
      (hadmits : f.types.graph.admits t value = .ok true) : Done f m item next (m.write here value)
  | declared {d : Syntax.Declaration} {c : Cell} (haction : item.action = .declare d)
      (htype : c.type = d.type) (hlaid : Laid f.types.graph .stack m.nextStack c)
      (hnew : m.stackCell? d.name = none) :
      Done f m item next { m.setNext .stack (m.nextStack + c.room f.types.graph) with
        stack := m.stack ++ [(d.name, c)] }
  | stored {line : Nat} {v : Variable} {here : Location} {c block : Cell} {p target : TypeId} {a : Address}
      {m₁ m₂ : Memory} (haction : item.action = .perform (.call .alloc line v)) (hat : m.cellAt? here = some c)
      (hp : f.types.graph.closure c.type = .ok p)
      (hnode : f.types.graph.node p = .pointer (.settled target))
      (htarget : f.types.graph.closure target = .ok block.type)
      (hlaid : Laid f.types.graph .heap m.nextHeap block)
      (hm₁ : m₁ = (m.setNext .heap (m.nextHeap + block.room f.types.graph)).write here (.address a))
      (hreserve : reserve f v m = (.ok (here, a, block), m₂)) :
      Done f m item next { m₁ with heap := Memory.enter a block m₁.heap }
  | removed {line : Nat} {v : Variable} {here : Location} {a b : Address} {t : TypeId}
      (hat : m.cellAt? here = some (.leaf b t (.address a))) (hpointer : f.types.graph.isPointer t = true)
      (haction : item.action = .perform (.call .free line v)) (hpointed : pointed f v m = (.ok (here, a), m)) :
      Done f m item next ((m.erase a).write here .unknown)

section Done

variable {f : Frame} {m m' : Memory} {v : Variable} {item : Item} {next : Option Nat}

theorem writeVariable_ok {value : Value} (h : writeVariable f v value m = (.ok (), m')) :
    ∃ place b t old, locate (f.env m) m v = .ok (place, .leaf b t old) ∧
      f.types.graph.admits t value = .ok true ∧ m' = m.write place value := by
  obtain ⟨⟨place, c⟩, m₁, hfind, h⟩ := bind_ok h
  rw [find_apply, Prod.mk.injEq] at hfind
  obtain ⟨hlocate, rfl⟩ := hfind
  cases c with
  | leaf b t old =>
    dsimp only at h
    obtain ⟨fits, hfits, h⟩ := lift_bind_ok h
    cases fits with
    | true =>
      cases h
      exact ⟨place, b, t, old, hlocate, hfits, rfl⟩
    | false =>
      obtain ⟨_, _, -, h⟩ := bind_ok h
      obtain ⟨_, _, -, h⟩ := bind_ok h
      cases h
  | array => cases h
  | tuple => cases h

theorem writeVariable_done {value : Value} (hwrites : Writes f m item next v value)
    (h : writeVariable f v value m = (.ok (), m')) : Done f m item next m' := by
  obtain ⟨place, b, t, old, hlocate, hfits, rfl⟩ := writeVariable_ok h
  exact .wrote hwrites hlocate hfits

theorem put_done (sound : f.types.graph.Sound) {d : Syntax.Declaration} (haction : item.action = .declare d)
    (h : put f d.name d.type m = (.ok (), m')) : Done f m item next m' := by
  rw [put_apply] at h
  split at h
  · cases h
  rename_i hnew
  obtain ⟨c, m₁, hc, h⟩ := bind_ok h
  cases h
  obtain ⟨htype, hlaid, rfl⟩ := Memory.allocate_lays sound .stack d.type m c m₁ hc
  exact .declared haction htype hlaid (by simpa using hnew)

theorem store_done (sound : f.types.graph.Sound) {line : Nat}
    (haction : item.action = .perform (.call .alloc line v)) (h : store f v m = (.ok (), m')) :
    Done f m item next m' := by
  obtain ⟨⟨place, a, block⟩, m₁, hreserve, h⟩ := bind_ok h
  obtain ⟨c, p, target, hat, hp, hnode, htarget, hlaid, -, -, rfl⟩ := reserve_ok sound hreserve
  obtain ⟨_, m₂, hwrite, h⟩ := bind_ok h
  cases hwrite
  cases h
  exact .stored haction hat hp hnode htarget hlaid rfl hreserve

theorem free_done {line : Nat} (haction : item.action = .perform (.call .free line v))
    (h : free f v m = (.ok (), m')) : Done f m item next m' := by
  obtain ⟨⟨place, a⟩, m₁, hpointed, herase⟩ := bind_ok h
  obtain ⟨rfl, b, t, hat, hpointer, -⟩ := pointed_ok hpointed
  cases herase
  exact .removed hat hpointer haction hpointed

end Done

section Step

variable {f : Frame} {s s' : Situation} {place : Nat} {item : Item} {next : Option Nat}

variable {v : Value} {α : Type} {a : α}

theorem onMemory_ok {work : MemoryM α} (h : onMemory work s = (.ok a, s')) :
    work s.memory = (.ok a, s'.memory) := by
  rw [onMemory] at h
  rcases hwork : work s.memory with ⟨_ | b, m⟩
  · rw [hwork] at h
    cases h
  · rw [hwork] at h
    cases h
    rfl

theorem complete_done (sound : f.types.graph.Sound) (h : complete f place item s = (.ok next, s')) :
    Done f s.memory item next s'.memory := by
  obtain ⟨action, after, inner, other⟩ := item
  cases action with
  | declare d =>
    obtain ⟨_, s₁, hput, h⟩ := bind_ok h
    cases h
    exact put_done sound rfl (onMemory_ok hput)
  | perform sentence =>
    cases sentence with
    | skip line =>
      cases h
      exact .kept (by simp)
    | assign v e =>
      obtain ⟨value, s₁, hvalue, h⟩ := bind_ok h
      obtain ⟨_, s₂, horigin, h⟩ := bind_ok h
      obtain ⟨_, s₃, hwrite, h⟩ := bind_ok h
      cases h
      obtain ⟨hvalue, h₁⟩ := (evaluate_looks e).ok hvalue
      rw [← h₁] at hvalue ⊢
      rw [← ((traceOrigin_looks v e value).ok horigin).2] at hvalue ⊢
      exact writeVariable_done (.assigned rfl hvalue) (onMemory_ok hwrite)
    | call builtin line v =>
      cases builtin with
      | alloc =>
        obtain ⟨_, s₁, hstore, h⟩ := bind_ok h
        cases h
        exact store_done sound rfl (onMemory_ok hstore)
      | free =>
        obtain ⟨_, s₁, hfree, h⟩ := bind_ok h
        cases h
        exact free_done rfl (onMemory_ok hfree)
    | branch guard yes no =>
      obtain ⟨value, s₁, hvalue, h⟩ := bind_ok h
      cases h
      rw [((evaluate_looks guard).ok hvalue).2]
      exact .kept (by simp)
    | loop guard body =>
      obtain ⟨value, s₁, hvalue, h⟩ := bind_ok h
      rw [← ((evaluate_looks guard).ok hvalue).2]
      split at h <;> cases h <;> exact .kept (by simp)
    | count v start stop up body =>
      obtain ⟨value, s₁, hvalue, h⟩ := bind_ok h
      obtain ⟨last, s₂, hlast, h⟩ := bind_ok h
      obtain ⟨goes, -, h⟩ := lift_bind_ok h
      obtain ⟨hvalue, h₁⟩ := (nextCount_looks place v start up).ok hvalue
      rw [← h₁] at hvalue ⊢
      rw [← ((evaluate_looks stop).ok hlast).2] at hvalue ⊢
      split at h
      · obtain ⟨_, s₄, hwrite, h⟩ := bind_ok h
        cases h
        change Done _ _ _ _ s₄.memory
        exact writeVariable_done (.counted rfl rfl hvalue) (onMemory_ok hwrite)
      · cases h
        exact .kept (by simp)

theorem step_done (sound : f.types.graph.Sound) (h : step f place item s = (.ok next, s')) :
    Done f s.memory item next s'.memory ∧ checks f s'.memory item.action = .ok () := by
  rw [step_eq] at h
  rcases hcomplete : complete f place item s with ⟨e | next', done⟩
  · rw [hcomplete] at h
    cases h
  · rw [hcomplete] at h
    dsimp only at h
    rcases hchecks : checks f done.memory item.action with e | _
    · rw [hchecks] at h
      cases h
    · rw [hchecks] at h
      cases h
      exact ⟨complete_done sound hcomplete, hchecks⟩

end Step

end Chalkboard.Run
