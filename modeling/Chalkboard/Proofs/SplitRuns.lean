import Chalkboard.Proofs.MovedFlow
import Chalkboard.Proofs.RepeatedRuns
import Chalkboard.Proofs.SavedTypes

/-! A run that is split in two. The second program goes on with the memory and the types that the first one
saved. The two together are one program: the declarations of both, then the sentences of both. Declaring the
variables of the second program early only puts more cells behind those of the first, which its sentences
never come to; so the joined program does the steps of both and ends with the memory of the second. -/

namespace Chalkboard.Run

open Effects
open Syntax (Sentence Declaration Action Item Program blockItems blockStart declarationItems extents)
open Chalkboard.Types (TypeId)
open Memory (MemoryM Cell)

def declares (f : Frame) : List Declaration → MemoryM Unit
  | [] => pure ()
  | d :: rest => do
    Memory.declare f.types.graph f.limits d.name d.type
    declares f rest

/-- The link to declarations at a place, with `more` telling whether sentences follow them. -/
def entry (start : Nat) (more : Bool) (ds : List Declaration) : Option Nat :=
  if ds.isEmpty && !more then none else some start

theorem onMemory_looping {α : Type} {work : MemoryM α} {a : α} {s s' : Situation}
    (h : onMemory work s = (.ok a, s')) : s'.looping = s.looping := by
  have hkept : (onMemory work s).2.looping = s.looping := rfl
  rwa [h] at hkept

section Declared

variable {f : Frame} {items : Array Item} {more : Bool}

theorem runFrom_declared (ds : List Declaration) {start n : Nat} {c c' : Course Unit}
    (hstands : Stands items start (declarationItems start more ds))
    (hrun : runFrom f {} items n (entry start more ds) c = (.ok none, c')) :
    ∃ k c₁, declares f ds c.situation.memory = (.ok (), c₁.situation.memory) ∧
      c₁.situation.looping = c.situation.looping ∧ c₁.steps = c.steps + ds.length ∧
      runFrom f {} items k (entry (start + ds.length) more []) c₁ = (.ok none, c') := by
  induction ds generalizing start n c with
  | nil => exact ⟨n, c, rfl, rfl, rfl, hrun⟩
  | cons d rest ih =>
    obtain _ | n := n
    · cases hrun
    rcases runFrom_ok hrun with ⟨hnone, -⟩ | ⟨item, next, s, hitem, hstep, -, hrest⟩
    · rw [hstands.head] at hnone
      cases hnone
    cases hitem.symm.trans hstands.head
    obtain ⟨_, s₁, hdeclare, hstep⟩ := bind_ok hstep
    cases hstep
    have hmemory := onMemory_ok hdeclare
    have hkept := onMemory_looping hdeclare
    obtain ⟨k, c₁, hdeclares, hlooping, hsteps, hrun₁⟩ := ih hstands.tail hrest
    refine ⟨k, c₁, ?_, ?_, ?_, ?_⟩
    · rw [declares, bind_apply, hmemory]
      exact hdeclares
    · exact hlooping.trans hkept
    · rw [hsteps, List.length_cons, Nat.add_comm rest.length 1, ← Nat.add_assoc]
      rfl
    · rwa [List.length_cons, Nat.add_comm rest.length 1, ← Nat.add_assoc]

theorem goes_declares (ds : List Declaration) {start : Nat} {s : Situation} {m : Memory}
    (hstands : Stands items start (declarationItems start more ds))
    (h : declares f ds s.memory = (.ok (), m)) :
    ∃ s', Goes f items ds.length (entry start more ds) s (entry (start + ds.length) more []) s' ∧
      s'.memory = m ∧ s'.looping = s.looping := by
  induction ds generalizing start s with
  | nil =>
    cases h
    exact ⟨s, .stay _ s, rfl, rfl⟩
  | cons d rest ih =>
    obtain ⟨_, m₁, hdeclare, h⟩ := bind_ok h
    have hstep : step f start ⟨.declare d, entry (start + 1) more rest, none, none⟩ s =
        (.ok (entry (start + 1) more rest), { s with memory := m₁ }) := by
      rw [step]
      dsimp only
      rw [bind_apply, onMemory, hdeclare]
      rfl
    obtain ⟨s', hgoes, hs', hlooping⟩ := ih (s := { s with memory := m₁, noted := [] }) hstands.tail h
    refine ⟨s', ?_, hs', hlooping⟩
    rw [List.length_cons, Nat.add_comm rest.length 1, ← Nat.add_assoc, Nat.add_comm 1]
    exact .step hstands.head hstep hgoes

end Declared

/-- A memory with more variables behind its own, and the next free number after them. -/
def behind (extra : List (String × Cell)) (next : Int) (m : Memory) : Memory :=
  { m with stack := m.stack ++ extra, nextStack := next }

/-- Memories with the same variables, though perhaps with other values. -/
structure SameVariables (m m' : Memory) : Prop where
  names : m'.stack.map (·.1) = m.stack.map (·.1)
  nextStack : m'.nextStack = m.nextStack
  stackCount : m'.stackCount = m.stackCount

section Behind

variable {f f' : Frame} {m m' : Memory} {extra more : List (String × Cell)}
  {next last : Int}

theorem behind_behind : behind more last (behind extra next m) = behind (extra ++ more) last m := by
  rw [behind, behind, behind, List.append_assoc]

theorem behind_nil : behind [] m.nextStack m = m := by
  rw [behind, List.append_nil]

theorem stackCount_behind : (behind extra next m).stackCount = m.stackCount + Cell.countFields extra := by
  rw [Memory.stackCount, Memory.stackCount, behind]
  induction m.stack with
  | nil => exact (Nat.zero_add _).symm
  | cons entry rest ih => rw [List.cons_append, Cell.countFields, Cell.countFields, ih, Nat.add_assoc]

theorem SameVariables.refl (m : Memory) : SameVariables m m := ⟨rfl, rfl, rfl⟩

theorem SameVariables.trans {m'' : Memory} (h : SameVariables m m') (h' : SameVariables m' m'') :
    SameVariables m m'' :=
  ⟨h'.names.trans h.names, h'.nextStack.trans h.nextStack, h'.stackCount.trans h.stackCount⟩

theorem SameVariables.behind (h : SameVariables m m') (extra : List (String × Cell)) (next : Int) :
    SameVariables (behind extra next m) (behind extra next m') where
  names := by rw [Run.behind, Run.behind, List.map_append, List.map_append, h.names]
  nextStack := rfl
  stackCount := by rw [stackCount_behind, stackCount_behind, h.stackCount]

theorem isSome_stackCell? (m : Memory) (name : String) :
    (m.stackCell? name).isSome = (m.stack.map (·.1)).contains name := by
  rw [Memory.stackCell?]
  induction m.stack with
  | nil => rfl
  | cons entry rest ih =>
    rw [List.lookup_cons, List.map_cons, List.contains_cons]
    cases name == entry.1 with
    | true => rfl
    | false => exact ih

theorem Done.sameVariables {item : Item} {next : Option Nat} {s : Sentence}
    (haction : item.action = .perform s) (h : Done f m item next m') : SameVariables m m' := by
  cases h with
  | kept => exact .refl m
  | wrote => exact ⟨Memory.write_names, Memory.write_nextStack _ _, Memory.stackCount_write m _ _⟩
  | declared hdeclared =>
    rw [haction] at hdeclared
    cases hdeclared
  | stored _ _ _ _ _ _ hm₁ =>
    subst hm₁
    exact ⟨Memory.write_names, Memory.write_nextStack _ _, Memory.stackCount_write (m.setNext .heap _) _ _⟩
  | removed =>
    exact ⟨Memory.write_names, Memory.write_nextStack _ _, Memory.stackCount_write (m.erase _) _ _⟩

theorem Beside.eq_behind {shift : Int} (h : Beside f extra shift m m') :
    m' = Run.behind extra (m.nextStack + shift) m := by
  cases m'
  rw [Run.behind, Memory.mk.injEq]
  exact ⟨h.stack, h.heap, h.nextStack, h.nextHeap⟩

variable {m₁' : Memory}

theorem put_behind {name : String} {t : TypeId} (hsame : SameVariables m m')
    (hput : put f name t m' = (.ok (), m₁')) :
    ∃ c n, m₁' = behind [(name, c)] n m' ∧ put f name t m = (.ok (), behind [(name, c)] n m) ∧
      (m.stackCell? name).isSome = false := by
  rw [put_apply] at hput ⊢
  rw [isSome_stackCell?, hsame.names, ← isSome_stackCell?] at hput
  split at hput
  · cases hput
  rename_i hnew
  obtain ⟨c, m₂', hc, hput⟩ := bind_ok hput
  obtain ⟨hresult, n, hm, hm'⟩ := Memory.allocate_moved (p := .stack) f.types.graph t hsame.nextStack
  rw [hc] at hresult hm'
  subst hm'
  cases hput
  refine ⟨c, n, rfl, ?_, Bool.eq_false_iff.2 hnew⟩
  have hc' : Memory.allocate f.types.graph .stack t m = (.ok c, m.setNext .stack n) :=
    Prod.ext hresult.symm hm
  rw [if_neg hnew, bind_apply, hc']
  rfl

theorem declare_behind {d : Declaration} (hsame : SameVariables m m') (hheap : m.heapCount ≤ m'.heapCount)
    (hdeclare : Memory.declare f.types.graph f.limits d.name d.type m' = (.ok (), m₁')) :
    ∃ c n, m₁' = behind [(d.name, c)] n m' ∧
      Memory.declare f.types.graph f.limits d.name d.type m = (.ok (), behind [(d.name, c)] n m) ∧
      (m.stackCell? d.name).isSome = false ∧
      Types.exceeds f.limits.stackCells (behind [(d.name, c)] n m).stackCount = false := by
  rw [declare_eq] at hdeclare ⊢
  obtain ⟨_, m₂', hput, hchecks⟩ := bind_ok hdeclare
  obtain ⟨c, n, rfl, hput', hnew⟩ := put_behind hsame hput
  rw [bind_apply, get_apply] at hchecks
  dsimp only at hchecks
  rw [lift_apply, Prod.mk.injEq] at hchecks
  obtain ⟨hchecks, rfl⟩ := hchecks
  obtain ⟨_, hchecked, hroom⟩ := except_bind_ok hchecks
  have hroomed' := Memory.roomed_of_checkLimits hroom
  have hroomed : Memory.Roomed f.limits (behind [(d.name, c)] n m) :=
    ⟨(hsame.behind [(d.name, c)] n).stackCount ▸ hroomed'.stack,
      hroomed'.heap.of_le (Int.ofNat_le.2 hheap)⟩
  refine ⟨c, n, rfl, ?_, hnew, Types.exceeds_eq_false.2 hroomed.stack⟩
  rw [bind_apply, hput']
  dsimp only
  rw [bind_apply, get_apply]
  dsimp only
  rw [lift_apply]
  dsimp only [checks]
  rw [hchecked, except_ok_bind, hroomed.checkLimits]

theorem declares_behind (ds : List Declaration) (hsame : SameVariables m m') (hheap : m.heapCount ≤ m'.heapCount)
    (hdeclares : declares f ds m' = (.ok (), m₁')) :
    ∃ extra next, m₁' = behind extra next m' ∧ declares f ds m = (.ok (), behind extra next m) ∧
      (∀ e ∈ extra, ∀ x ∈ m.stack, x.1 ≠ e.1) ∧
      (Types.exceeds f.limits.stackCells m.stackCount = false →
        Types.exceeds f.limits.stackCells (behind extra next m).stackCount = false) := by
  induction ds generalizing m m' with
  | nil =>
    cases hdeclares
    refine ⟨[], m.nextStack, ?_, ?_, nofun, ?_⟩
    · rw [← hsame.nextStack, behind_nil]
    · rw [behind_nil]
      rfl
    · rw [behind_nil]
      exact id
  | cons d rest ih =>
    obtain ⟨_, m₂', hdeclare, hrest⟩ := bind_ok hdeclares
    obtain ⟨c, n, rfl, hdeclare', hnew, hroom⟩ := declare_behind hsame hheap hdeclare
    obtain ⟨extra, next, rfl, hrest', hfresh, hrooms⟩ := ih (hsame.behind [(d.name, c)] n) hheap hrest
    rw [behind_behind] at hrest' hrooms
    refine ⟨(d.name, c) :: extra, next, behind_behind, ?_, fun e he x hx => ?_, fun _ => hrooms hroom⟩
    · rw [declares, bind_apply, hdeclare']
      exact hrest'
    · rcases List.mem_cons.1 he with rfl | he
      · intro (heq : x.1 = d.name)
        rw [isSome_stackCell?, ← heq, Bool.eq_false_iff, ne_eq, List.contains_iff_mem] at hnew
        exact hnew (List.mem_map_of_mem hx)
      · exact hfresh e he x (List.mem_append_left _ hx)

theorem declares_together (h : Parallel f f') (ds : List Declaration)
    (hds : ∀ d ∈ ds, f.types.graph.Complete d.type) (hm : Beside f [] 0 m m') {m₁ : Memory}
    (hdeclares : declares f ds m = (.ok (), m₁)) :
    ∃ m₁', declares f' ds m' = (.ok (), m₁') ∧ Beside f [] 0 m₁ m₁' := by
  induction ds generalizing m m' with
  | nil =>
    cases hdeclares
    exact ⟨m', rfl, hm⟩
  | cons d rest ih =>
    obtain ⟨_, m₂, hdeclare, hrest⟩ := bind_ok hdeclares
    have htogether := declare_together h hm (hds d List.mem_cons_self)
    rw [hdeclare] at htogether
    rcases hdeclare' : Memory.declare f'.types.graph f'.limits d.name d.type m' with ⟨e | _, m₂'⟩
    · rw [hdeclare'] at htogether
      exact htogether.elim
    rw [hdeclare'] at htogether
    obtain ⟨m₁', hrest', hm₁⟩ := ih (fun e he => hds e (List.mem_cons_of_mem _ he)) htogether.2 hrest
    refine ⟨m₁', ?_, hm₁⟩
    rw [declares, bind_apply, hdeclare']
    exact hrest'

end Behind

section Flow

variable {items items' : Array Item} {low k : Nat} {block : List Sentence} {exit : Option Nat}

theorem enclosed_of_stands (hf : FilledAll block) (h : Stands items low (blockItems low none block)) :
    Enclosed items low (low + extents block) := by
  intro q hlow hhigh
  have hlength := blockItems_length low none block
  have hq : q - low < (blockItems low none block).length := by omega
  have hitem := h (q - low) hq
  rw [Nat.add_sub_cancel' hlow, List.getElem?_eq_getElem hq] at hitem
  refine ⟨_, hitem, blockItems_links nofun nofun block hf (fun q' hlow' hhigh' => ?_) _
    (List.getElem_mem hq)⟩
  rintro _ ⟨⟩
  exact ⟨hlow', hhigh'⟩

theorem moves_of_stands (hf : FilledAll block) (h : Stands items low (blockItems low none block))
    (h' : Stands items' (low + k) (blockItems (low + k) exit block)) :
    Moves items items' low (low + extents block) (· + k) exit where
  injective _ _ := Nat.add_right_cancel
  enclosed := enclosed_of_stands hf h
  entry {q item} hlow hhigh hitem := by
    have hlength := blockItems_length low none block
    have hq : q - low < (blockItems low none block).length := by omega
    rw [← Nat.add_sub_cancel' hlow, h (q - low) hq] at hitem
    have hmoved : blockItems (low + k) exit block =
        (blockItems low none block).map (moved (· + k) exit) := blockItems_moved k exit low none block
    rw [hmoved] at h'
    have hitem' := h' (q - low) (by rwa [List.length_map])
    rw [List.getElem?_map, hitem, show low + k + (q - low) = q + k by omega] at hitem'
    exact hitem'

theorem between_blockStart : Between low (low + extents block) (blockStart low block) := by
  refine blockStart_links nofun fun q hlow hhigh => ?_
  rintro _ ⟨⟩
  exact ⟨hlow, hhigh⟩

theorem entry_nil (start : Nat) (block : List Sentence) :
    entry start (!block.isEmpty) [] = blockStart start block := by
  cases block <;> rfl

end Flow

/-- One program with the declarations of two, and then their sentences. -/
def joined (p p' : Program) : Program :=
  ⟨p.types ++ p'.types, p.procedures + p'.procedures, p.declarations ++ p'.declarations,
    p.sentences ++ p'.sentences⟩

/-- A program runs to its end, on a new or a loaded memory. -/
def Ends (f : Frame) (p : Program) (memory : Option Memory) (c : Course Unit) : Prop :=
  ∃ fuel, runProgram f {} p memory.isSome fuel (.start memory [] ()) = (.ok none, c)

section Program

variable {f : Frame} {p : Program} {c : Course Unit}

theorem entry_start (hne : p.items ≠ []) : entry 0 (!p.sentences.isEmpty) p.declarations = some 0 := by
  rw [entry]
  split
  · rename_i hempty
    refine absurd ((items_eq_nil_iff p).2 ?_) hne
    simpa using hempty
  · rfl

theorem Ends.split {memory : Option Memory} (h : Ends f p memory c) :
    p.items ≠ [] ∧ ∃ n c₁, declares f p.declarations (memory.getD {}) = (.ok (), c₁.situation.memory) ∧
      c₁.situation.looping = [] ∧ c₁.steps = p.declarations.length ∧
      runFrom f {} p.items.toArray n (blockStart p.declarations.length p.sentences) c₁ = (.ok none, c) := by
  obtain ⟨fuel, hrun⟩ := h
  have hfrom : p.items ≠ [] ∧ runFrom f {} p.items.toArray fuel (some 0) (.start memory [] ()) =
      (.ok none, c) := by
    cases memory with
    | none | some => exact runProgram_ok hrun
  obtain ⟨hne, hrun⟩ := hfrom
  rw [← entry_start hne] at hrun
  obtain ⟨n, c₁, hdeclares, hlooping, hsteps, hrun⟩ := runFrom_declared p.declarations
    (Stands.whole p.items).left hrun
  rw [entry_nil, Nat.zero_add] at hrun
  exact ⟨hne, n, c₁, hdeclares, hlooping, hsteps.trans (Nat.zero_add _), hrun⟩

end Program

section Parallel

variable {f f' : Frame}

theorem parallel_self (sound : f.types.graph.Sound) : Parallel f f where
  sound := sound
  keeps := Types.Graph.keeps_self sound.ordered
  limits := rfl
  indexing := rfl
  constant _ := rfl

theorem beside_self {m : Memory} (hbuilt : Built f.types.graph f.types.graph.Complete m) :
    Beside f [] 0 m m where
  stack := (List.append_nil _).symm
  heap := rfl
  nextHeap := rfl
  nextStack := (Int.add_zero _).symm
  fresh := nofun
  room := id
  built := hbuilt

variable {p p' : Program} (h : Reading.Resumes p f.types p' f'.types) (hlimits : f'.limits = f.limits)
  (hindexing : f'.indexing = f.indexing)

include h hlimits hindexing

theorem parallel_resumes : Parallel f f' where
  sound := h.sound.graph
  keeps := ⟨h.sound.graph.ordered, h.size, h.node⟩
  limits := hlimits
  indexing := hindexing
  constant text := by rw [Types.Registry.constant, Types.Registry.constant, h.constants]

end Parallel

section Joined

variable {f f' : Frame} {p p' : Program}

theorem declares_append (ds ds' : List Declaration) {m m₁ m₂ : Memory}
    (h : declares f ds m = (.ok (), m₁)) (h' : declares f ds' m₁ = (.ok (), m₂)) :
    declares f (ds ++ ds') m = (.ok (), m₂) := by
  induction ds generalizing m with
  | nil =>
    cases h
    exact h'
  | cons d rest ih =>
    obtain ⟨_, m', hdeclare, h⟩ := bind_ok h
    rw [List.cons_append, declares, bind_apply, hdeclare]
    exact ih h

/-- The variables of both programs can be declared at once; those of the second stand behind those of the
first as they stood behind them after the first program. -/
theorem joined_declares (h : Reading.Resumes p f.types p' f'.types) (hparallel : Parallel f f')
    {m₀ m m' : Memory} (hfirst : declares f p.declarations {} = (.ok (), m₀))
    (hsame : SameVariables m₀ m) (hsecond : declares f' p'.declarations m = (.ok (), m')) :
    ∃ extra next, m' = behind extra next m ∧
      declares f' (p.declarations ++ p'.declarations) {} = (.ok (), behind extra next m₀) ∧
      Beside f extra (next - m₀.nextStack) m₀ (behind extra next m₀) := by
  have hheap : m₀.heapCount ≤ m.heapCount := by
    obtain ⟨_, _, rfl, -⟩ := declares_behind p.declarations (.refl {}) (Nat.le_refl _) hfirst
    exact Nat.zero_le _
  obtain ⟨m₁, hfirst', hm₁⟩ := declares_together hparallel p.declarations h.complete
    (beside_self built_start) hfirst
  have hkept := hm₁.eq_behind
  rw [Int.add_zero, behind_nil] at hkept
  subst hkept
  obtain ⟨extra, next, rfl, hsecond', hfresh, hroom⟩ := declares_behind p'.declarations hsame hheap
    hsecond
  refine ⟨extra, next, rfl, declares_append _ _ hfirst' hsecond', ?_⟩
  rw [hparallel.limits] at hroom
  exact {
    stack := rfl
    heap := rfl
    nextHeap := rfl
    nextStack := by change next = _; omega
    fresh := hfresh
    room := hroom
    built := hm₁.built }

theorem joined_ne (hne : p.items ≠ []) : (joined p p').items ≠ [] := by
  intro hnil
  obtain ⟨hds, hsentences⟩ := (items_eq_nil_iff _).1 hnil
  exact hne ((items_eq_nil_iff p).2 ⟨(List.append_eq_nil_iff.1 hds).1,
    (List.append_eq_nil_iff.1 hsentences).1⟩)

theorem joined_stands (p p' : Program) :
    let items := (joined p p').items.toArray
    let places := p.declarations.length + p'.declarations.length
    Stands items 0 (declarationItems 0 (!(p.sentences ++ p'.sentences).isEmpty)
      (p.declarations ++ p'.declarations)) ∧
    Stands items places (blockItems places (blockStart (places + extents p.sentences) p'.sentences)
      p.sentences) ∧
    Stands items (places + extents p.sentences)
      (blockItems (places + extents p.sentences) none p'.sentences) := by
  have hwhole := Stands.whole (joined p p').items
  have hsentences := hwhole.right
  rw [declarationItems_length, Nat.zero_add] at hsentences
  change Stands _ (p.declarations ++ p'.declarations).length
    (blockItems (p.declarations ++ p'.declarations).length none (p.sentences ++ p'.sentences)) at hsentences
  rw [List.length_append, blockItems_append] at hsentences
  refine ⟨hwhole.left, ?_, ?_⟩
  · have hfirst := hsentences.left
    rwa [show (if p'.sentences.isEmpty then none else some _) =
      blockStart (p.declarations.length + p'.declarations.length + extents p.sentences) p'.sentences
      from rfl] at hfirst
  · have hsecond := hsentences.right
    rwa [blockItems_length] at hsecond

theorem rerouted_blockStart (low k : Nat) (a b : List Sentence) :
    rerouted (· + k) (blockStart (low + k + extents a) b) (blockStart low a) =
      blockStart (low + k) (a ++ b) := by
  cases a <;> rfl

theorem program_stands (p : Program) : Stands p.items.toArray p.declarations.length
    (blockItems p.declarations.length none p.sentences) := by
  have hright := (Stands.whole p.items).right
  rwa [declarationItems_length, Nat.zero_add] at hright

/-- The joined program declares the variables of both programs and performs the sentences of the first. Then
it has the memory that the second program had when its variables were declared. -/
theorem joined_first (h : Reading.Resumes p f.types p' f'.types) (hparallel : Parallel f f')
    (hf : FilledAll p.sentences) {c : Course Unit} (hrun : Ends f p none c)
    (hclean : c.situation.looping = []) {m' : Memory}
    (hsecond : declares f' p'.declarations c.situation.memory = (.ok (), m')) :
    ∃ s k, c.steps = p.declarations.length + k ∧ s.memory = m' ∧ s.looping = [] ∧
      Goes f' (joined p p').items.toArray (p.declarations.length + p'.declarations.length + k) (some 0) {}
        (blockStart (p.declarations.length + p'.declarations.length + extents p.sentences) p'.sentences)
        s := by
  obtain ⟨hne, n, c₁, hfirst, hlooping, hsteps, hfrom⟩ := hrun.split
  obtain ⟨hstart, hmiddle, -⟩ := joined_stands p p'
  have hsame : SameVariables c₁.situation.memory c.situation.memory :=
    (enclosed_of_stands hf (program_stands p)).keeps (fun place item sentence s next s' haction hs hstep =>
      hs.trans (Done.sameVariables haction (step_done h.sound.graph hstep).1)) between_blockStart
      (.refl _) hfrom
  obtain ⟨extra, next, rfl, hboth, hbeside⟩ := joined_declares h hparallel hfirst hsame hsecond
  obtain ⟨s₁, hgoes₁, hs₁, hloops₁⟩ := goes_declares _ hstart (s := {}) hboth
  rw [← hs₁] at hbeside
  have hnear₁ : Near f extra (next - c₁.situation.memory.nextStack)
      (· + p'.declarations.length) c₁.situation s₁ := ⟨hbeside, by rw [hloops₁, hlooping]; rfl⟩
  obtain ⟨k, s₂, hk, hgoes₂, hnear₂⟩ := (moves_of_stands hf (program_stands p) hmiddle).goes hparallel
    between_blockStart hnear₁ hfrom
  refine ⟨s₂, k, hsteps ▸ hk, ?_, ?_, ?_⟩
  · rw [hnear₂.memory.eq_behind, hsame.nextStack, Int.add_comm, Int.sub_add_cancel]
  · rw [hnear₂.looping, hclean]
    rfl
  · have hentry : entry 0 (!(p.sentences ++ p'.sentences).isEmpty) (p.declarations ++ p'.declarations) =
        some 0 := entry_start (joined_ne hne)
    rw [rerouted_blockStart] at hgoes₂
    rw [hentry, entry_nil, Nat.zero_add, List.length_append] at hgoes₁
    exact hgoes₁.trans hgoes₂

theorem joined_goes (h : Reading.Resumes p f.types p' f'.types) (hlimits : f'.limits = f.limits)
    (hindexing : f'.indexing = f.indexing) (hf : FilledAll p.sentences) (hf' : FilledAll p'.sentences)
    {c c' : Course Unit} (hrun : Ends f p none c) (hclean : c.situation.looping = [])
    (hrun' : Ends f' p' (some c.situation.memory) c') :
    ∃ s, Goes f' (joined p p').items.toArray (c.steps + c'.steps) (some 0) {} none s ∧
      s.memory = c'.situation.memory := by
  obtain ⟨-, n, c₁, hsecond, hlooping, hsteps, hfrom⟩ := hrun'.split
  obtain ⟨s₁, k, hk, hs₁, hloops₁, hgoes₁⟩ := joined_first h (parallel_resumes h hlimits hindexing) hf hrun
    hclean hsecond
  have hbuilt : Built f'.types.graph f'.types.graph.Complete s₁.memory := by
    refine hgoes₁.keeps (fun place item s next s' hitem hs hstep => ?_) built_start
    refine hs.done Types.Graph.complete_heritable (fun d hd => ?_) (step_done h.sound'.graph hstep).1
    rw [List.getElem?_toArray] at hitem
    rcases List.mem_append.1 (mem_declarations hitem hd) with hd | hd
    · exact (parallel_resumes h hlimits hindexing).keeps.complete (h.complete d hd)
    · exact h.complete' d hd
  have hnear : Near f' [] 0
      (· + (p.declarations.length + extents p.sentences)) c₁.situation s₁ :=
    ⟨hs₁ ▸ beside_self hbuilt, by rw [hloops₁, hlooping]; rfl⟩
  have hplaces : p.declarations.length + p'.declarations.length + extents p.sentences =
      p'.declarations.length + (p.declarations.length + extents p.sentences) := by omega
  have hlast := (joined_stands p p').2.2
  rw [hplaces] at hlast hgoes₁
  obtain ⟨k', s₂, hk', hgoes₂, hnear₂⟩ := (moves_of_stands hf' (program_stands p') hlast).goes
    (parallel_self h.sound'.graph) between_blockStart hnear hfrom
  rw [rerouted_end, ← blockStart_moved] at hgoes₂
  refine ⟨s₂, ?_, ?_⟩
  · have hcount : c.steps + c'.steps =
        p.declarations.length + p'.declarations.length + k + k' := by omega
    rw [hcount]
    exact hgoes₁.trans hgoes₂
  · rw [hnear₂.memory.eq_behind, Int.add_zero, behind_nil]

end Joined

/-- Saving and loading splits a run without changing it. A first program runs to its end; its memory and its
types are saved and loaded into a new registry; there a second program that declares no types is read and
runs to its end, too. Then the program with the declarations of both and the sentences of both runs to its
end on a new memory, if the limit allows all the steps: it takes as many as both took, and it leaves the same
memory, with its variables, its blocks and its next free numbers. That the names of the variables are
different and that the programs are not empty follows from their runs. -/
theorem split_run_joins {limits : Types.Limits} {environment environment' : List (String × String)}
    {text text' : String} {p p' : Program} {types types' now : Types} {indexing : Bool} {c c' : Course Unit}
    (hread : Reading.readProgram ⟨limits, environment⟩ text {} = (.ok p, types))
    (hrun : Ends ⟨types, limits, indexing⟩ p none c)
    (hread' : (do
      Session.load (some ⟨c.situation.memory, types⟩)
      Reading.readProgram ⟨limits, environment'⟩ text')
        (Session.fresh false (some ⟨c.situation.memory, types⟩) now) = (.ok p', types'))
    (hplain : p'.types = [])
    (hrun' : Ends ⟨types', limits, indexing⟩ p' (some c.situation.memory) c')
    (hsteps : Types.exceeds limits.steps (c.steps + c'.steps : Nat) = false) :
    ∃ d, Ends ⟨types', limits, indexing⟩ (joined p p') none d ∧ d.steps = c.steps + c'.steps ∧
      d.situation.memory = c'.situation.memory := by
  have hresumes := Reading.resumes_of_read hread hread' hplain
  have hf := (Reading.readProgram_past hread).1
  have hf' : FilledAll p'.sentences := by
    obtain ⟨_, _, -, hread'⟩ := bind_ok hread'
    exact (Reading.readProgram_past hread').1
  -- a run that has come to its end leaves no loop in progress
  have hclean : c.situation.looping = [] := by
    obtain ⟨fuel, hfuel⟩ := hrun
    have hinside := (resumed_inside (f := ⟨types, limits, indexing⟩) hf fuel).1 none
    rw [show resumed _ p [] fuel = (.ok none, c) from hfuel] at hinside
    exact hinside rfl
  obtain ⟨s, hgoes, hs⟩ := @joined_goes ⟨types, limits, indexing⟩ ⟨types', limits, indexing⟩ p p' hresumes
    rfl rfl hf hf' c c' hrun hclean hrun'
  obtain ⟨d, hd, hsituation, hcount⟩ := hgoes.runFrom_ok (c := .start none [] ()) rfl
    (by rw [Course.start, Nat.zero_add]; exact hsteps)
  exact ⟨d, ⟨_, (runProgram_of_ne (joined_ne hrun.split.1)).trans hd⟩, hcount.trans (Nat.zero_add _),
    hsituation ▸ hs⟩

/-- A list of two blocks, built by a counting loop. -/
def builtList : String :=
  "type node = tuple\n item: int\n next: pointer of node\nend tuple\n" ++
  "var p: pointer of node\nvar q: pointer of node\nvar i: int\n" ++
  "p := null\nfor i := 1 to 2 do\nalloc(q)\nq->item := i\nq->next := p\np := q\nod\n"

/-- A further block that points to the list, and a sum over both. -/
def extendedList : String :=
  "var r: pointer of node\nvar n: int\nalloc(r)\nr->next := p\nn := r->next->next->item + i\n"

def twentySteps : Types.Limits := { steps := some 20 }

theorem builtList_extended :
    passes (Reading.readProgram ⟨twentySteps, []⟩ builtList) {} (fun p types =>
      passes (runProgram ⟨types, twentySteps, true⟩ {} p false 20) (.start none [] ()) fun next c =>
        next == none && c.steps == 15 &&
          passes (do
            Session.load (some ⟨c.situation.memory, types⟩)
            Reading.readProgram ⟨twentySteps, []⟩ extendedList)
            (Session.fresh false (some ⟨c.situation.memory, types⟩) {}) fun p' types' =>
              p'.types.isEmpty &&
                passes (runProgram ⟨types', twentySteps, true⟩ {} p' true 20)
                  (.start (some c.situation.memory) [] ()) fun next c' =>
                    next == none && c'.steps == 5 &&
                      c'.situation.memory.stack.map (·.1) == ["p", "q", "i", "r", "n"]) = true := by
  decide +kernel

theorem builtList_joins :
    ∃ p types p' types' c c' d, Reading.readProgram ⟨twentySteps, []⟩ builtList {} = (.ok p, types) ∧
      Ends ⟨types, twentySteps, true⟩ p none c ∧ c.steps = 15 ∧
      (do
        Session.load (some ⟨c.situation.memory, types⟩)
        Reading.readProgram ⟨twentySteps, []⟩ extendedList)
          (Session.fresh false (some ⟨c.situation.memory, types⟩) {}) = (.ok p', types') ∧
      Ends ⟨types', twentySteps, true⟩ p' (some c.situation.memory) c' ∧ c'.steps = 5 ∧
      c'.situation.memory.stack.map (·.1) = ["p", "q", "i", "r", "n"] ∧
      Ends ⟨types', twentySteps, true⟩ (joined p p') none d ∧ d.steps = 20 ∧
      d.situation.memory = c'.situation.memory := by
  obtain ⟨p, types, hread, hrest⟩ := of_passes builtList_extended
  obtain ⟨next, c, hrun, hrest⟩ := of_passes hrest
  simp only [Bool.and_eq_true, beq_iff_eq] at hrest
  obtain ⟨⟨hnext, hsteps⟩, hrest⟩ := hrest
  obtain ⟨p', types', hread', hrest⟩ := of_passes hrest
  obtain ⟨hplain, hrest⟩ := Bool.and_eq_true_iff.1 hrest
  obtain ⟨next', c', hrun', hrest⟩ := of_passes hrest
  simp only [Bool.and_eq_true, beq_iff_eq] at hrest
  obtain ⟨⟨hnext', hsteps'⟩, hnames⟩ := hrest
  subst hnext hnext'
  have hlimit : Types.exceeds twentySteps.steps (c.steps + c'.steps : Nat) = false := by
    rw [hsteps, hsteps']
    decide
  obtain ⟨d, hends, hcount, hmemory⟩ := split_run_joins hread ⟨20, hrun⟩
    hread' (List.isEmpty_iff.1 hplain) ⟨20, hrun'⟩ hlimit
  exact ⟨p, types, p', types', c, c', d, hread, ⟨20, hrun⟩, hsteps, hread', ⟨20, hrun'⟩, hsteps',
    hnames, hends, by rw [hcount, hsteps, hsteps'], hmemory⟩

end Chalkboard.Run
