import Chalkboard.Proofs.DoneSteps
import Chalkboard.Proofs.Ranges

/-! Limits hold throughout a run. A check of a type that passes has looked at every type that this one leads
to: what it does not enter again is on its trail, where it was entered before. So all that a variable that
was declared leads to keeps to the limits, and a block needs no check of its own. The memory is checked
whenever it grows. -/

namespace Chalkboard.Types

open Effects

/-- A number that a limit allows; an absent limit allows every number. -/
def Allows (limit : Option Int) (n : Int) : Prop := ∀ l, limit = some l → n ≤ l

theorem exceeds_eq_false {limit : Option Int} {n : Int} : exceeds limit n = false ↔ Allows limit n := by
  cases limit with
  | none => simp [exceeds, Allows]
  | some l => simp [exceeds, Allows]

theorem Allows.of_le {limit : Option Int} {m n : Int} (h : Allows limit n) (hle : m ≤ n) :
    Allows limit m := fun l hl => Int.le_trans hle (h l hl)

/-- An array with no more axes and elements than allowed, or a tuple with no more fields. -/
def Node.Within (limits : Limits) : Node → Prop
  | .array _ axes => Allows limits.arrayDimensions axes.length ∧
      ∀ n, elementCount axes = .ok (.int n) → Allows limits.arraySize n
  | .tuple _ fields _ => Allows limits.tupleSize fields.length
  | _ => True

section Closure

variable {g : Graph} {t u : TypeId}

theorem Graph.closureFrom_mono {fuel : Nat} (h : g.closureFrom fuel t = .ok u) :
    g.closureFrom (fuel + 1) t = .ok u := by
  induction fuel generalizing t with
  | zero => cases h
  | succ fuel ih =>
    rw [closureFrom_meant] at h ⊢
    rcases hmeant : (g.node t).meant with _ | of
    · rwa [hmeant] at h
    · rw [hmeant] at h
      exact ih h

theorem Graph.closure_of_meant {of : TypeId} (hmeant : (g.node t).meant = some of)
    (h : g.closure t = .ok u) : g.closure of = .ok u := by
  rw [closure_meant, hmeant] at h
  rw [closure_eq]
  exact closureFrom_mono h

end Closure

section Check

variable {g : Graph} {limits : Limits} {t : TypeId}

theorem forM_ok_iff {α : Type} {f : α → Except Fault Unit} {xs : List α} :
    xs.forM f = .ok () ↔ ∀ x ∈ xs, f x = .ok () := by
  induction xs with
  | nil => exact ⟨fun _ => List.forall_mem_nil _, fun _ => rfl⟩
  | cons y ys ih =>
    rw [List.forall_mem_cons, ← ih]
    constructor
    · intro h
      obtain ⟨_, hy, hys⟩ := except_bind_ok h
      exact ⟨hy, hys⟩
    · rintro ⟨hy, hys⟩
      change (f y >>= fun _ => ys.forM f) = .ok ()
      rw [hy]
      exact hys

variable {depth : Int} {fuel : Nat} {n : Node} {trail : List TypeId}

theorem Node.within_of_measure (h : n.measure limits = .ok ()) : n.Within limits := by
  have hthrow {limit : Option Int} {k : Int} {r : Except Fault Unit} {e : Fault}
      (h : (if exceeds limit k then .error e else r) = .ok ()) : Allows limit k ∧ r = .ok () := by
    split at h
    · cases h
    · rename_i hk
      exact ⟨exceeds_eq_false.1 (by simpa using hk), h⟩
  cases n with
  | array =>
    obtain ⟨hdimensions, h⟩ := hthrow h
    refine ⟨hdimensions, fun k hk => ?_⟩
    rw [valueExceeds_int _ hk] at h
    exact (hthrow h).1
  | tuple => exact (hthrow h).1
  | _ => trivial

/-- A check that passes at a type it has not come through: the type that this one stands for keeps to the
limits, and the check passes at all that it leads to. -/
theorem checkFrom_passes (hoff : t ∉ trail) :
    g.checkFrom limits (fuel + 1) t depth trail = .ok () ↔ exceeds limits.typeDepth depth = false ∧
      ∃ c, g.closure t = .ok c ∧ (g.node c).measure limits = .ok () ∧ ∀ u ∈ (g.node c).links,
        g.checkFrom limits fuel u ((g.node c).below depth) ((g.node c).kept (t :: trail)) = .ok () := by
  rw [Graph.checkFrom_off hoff]
  constructor
  · intro h
    split at h
    · cases h
    rename_i hdepth
    obtain ⟨c, hc, h⟩ := except_bind_ok h
    obtain ⟨_, hmeasure, h⟩ := except_bind_ok h
    exact ⟨by simpa using hdepth, c, hc, hmeasure, forM_ok_iff.1 h⟩
  · rintro ⟨hdepth, c, hc, hmeasure, hlinks⟩
    rw [if_neg (by simp [hdepth]), hc, except_ok_bind, hmeasure]
    exact forM_ok_iff.2 hlinks

/-- Types that each stand for one that keeps to the limits and leads to no others, those on a trail
apart. -/
def Explored (g : Graph) (limits : Limits) (trail : List TypeId) (S : TypeId → Prop) : Prop :=
  ∀ t, S t → ∃ c, g.closure t = .ok c ∧ (g.node c).Within limits ∧
    ∀ u ∈ (g.node c).links, S u ∨ u ∈ trail

theorem explored_of_checkFrom
    (h : g.checkFrom limits fuel t depth trail = .ok ()) :
    t ∈ trail ∨ ∃ S, S t ∧ Explored g limits trail S := by
  induction fuel generalizing t depth trail with
  | zero => cases h
  | succ fuel ih =>
    by_cases hoff : t ∈ trail
    · exact .inl hoff
    right
    obtain ⟨-, c, hc, hmeasure, hlinks⟩ := (checkFrom_passes hoff).1 h
    -- the type itself, and all that the checks of its parts have gone through
    refine ⟨fun x => x = t ∨ ∃ S, S x ∧ Explored g limits (t :: trail) S, .inl rfl, ?_⟩
    have hnext (u : TypeId) (hu : u ∈ t :: trail ∨ ∃ S, S u ∧ Explored g limits (t :: trail) S) :
        (u = t ∨ ∃ S, S u ∧ Explored g limits (t :: trail) S) ∨ u ∈ trail := by
      rcases hu with hmem | hS
      · exact (List.mem_cons.1 hmem).imp .inl id
      · exact .inl (.inr hS)
    rintro x (rfl | ⟨S, hx, hS⟩)
    · refine ⟨c, hc, Node.within_of_measure hmeasure, fun u hu => hnext u ?_⟩
      have hsub : (g.node c).kept (x :: trail) ⊆ x :: trail := by cases g.node c <;> simp [Node.kept]
      refine (ih (hlinks u hu)).imp (fun hmem => hsub hmem) ?_
      rintro ⟨S, hu, hS⟩
      refine ⟨S, hu, fun y hy => ?_⟩
      obtain ⟨d, hd, hdwithin, hdlinks⟩ := hS y hy
      exact ⟨d, hd, hdwithin, fun w hw => (hdlinks w hw).imp id fun hmem => hsub hmem⟩
    · obtain ⟨d, hd, hdwithin, hdlinks⟩ := hS x hx
      exact ⟨d, hd, hdwithin, fun u hu => hnext u ((hdlinks u hu).symm.imp id fun hu => ⟨S, hu, hS⟩)⟩

theorem within_of_checkLimits (h : g.checkLimits limits t = .ok ()) {u : TypeId} (hu : g.Reaches t u) :
    (g.node u).Within limits := by
  rcases explored_of_checkFrom h with hmem | ⟨S, ht, hS⟩
  · cases hmem
  -- on the way to `u` every type stands for one that keeps to the limits and leads on only to such
  have hon : ∃ c, g.closure u = .ok c ∧ (g.node c).Within limits ∧ ∀ w ∈ (g.node c).links, S w := by
    have hin (x : TypeId) (hx : S x) :
        ∃ c, g.closure x = .ok c ∧ (g.node c).Within limits ∧ ∀ w ∈ (g.node c).links, S w := by
      obtain ⟨c, hc, hwithin, hlinks⟩ := hS x hx
      exact ⟨c, hc, hwithin, fun w hw => (hlinks w hw).resolve_right List.not_mem_nil⟩
    induction hu with
    | refl => exact hin t ht
    | tail _ hlink ih =>
      rename_i x w _
      obtain ⟨c, hc, hwithin, hlinks⟩ := ih
      rcases hmeant : (g.node x).meant with _ | of
      · rw [Graph.closure_meant, hmeant] at hc
        cases hc
        exact hin w (hlinks w hlink)
      · have hof : w = of := by
          generalize g.node x = node at hmeant hlink
          cases node <;> cases hmeant
          exact List.mem_singleton.1 hlink
        subst hof
        exact ⟨c, Graph.closure_of_meant hmeant hc, hwithin, hlinks⟩
  obtain ⟨c, hc, hwithin, -⟩ := hon
  rw [Graph.closure_meant] at hc
  rcases hmeant : (g.node u).meant with _ | of
  · rw [hmeant] at hc
    cases hc
    exact hwithin
  · generalize g.node u = node at hmeant
    cases node <;> cases hmeant
    trivial

end Check

end Chalkboard.Types

namespace Chalkboard.Memory

open Chalkboard.Types (TypeId Graph Limits Allows)

section Counts

theorem countParts_modify {change : Cell → Cell} (h : ∀ c, (change c).count = c.count) (i : Nat)
    (parts : List Cell) : Cell.countParts (parts.modify i change) = Cell.countParts parts := by
  induction parts generalizing i with
  | nil => simp
  | cons c rest ih =>
    cases i with
    | zero => simp [Cell.countParts, h]
    | succ i => simp [Cell.countParts, ih]

theorem countFields_eq_parts (parts : List (String × Cell)) :
    Cell.countFields parts = Cell.countParts (parts.map (·.2)) := by
  induction parts with
  | nil => rfl
  | cons part rest ih => simp [Cell.countFields, Cell.countParts, ih]

theorem count_write (v : Value) (path : List Nat) (c : Cell) : (c.write v path).count = c.count := by
  induction path generalizing c with
  | nil => cases c <;> rfl
  | cons i path ih =>
    cases c with
    | leaf => rfl
    | array t parts =>
      rw [Cell.write, Cell.count, Cell.count]
      exact countParts_modify ih i parts
    | tuple t parts =>
      rw [Cell.write, Cell.count, Cell.count, countFields_eq_parts, countFields_eq_parts, map_snd_modify]
      exact countParts_modify ih i _

theorem countParts_map {α : Type} {cell cell' : α → Cell} (h : ∀ x, (cell' x).count = (cell x).count)
    (xs : List α) : Cell.countParts (xs.map cell') = Cell.countParts (xs.map cell) := by
  induction xs with
  | nil => rfl
  | cons x xs ih => simp [Cell.countParts, h, ih]

theorem stackCount_write (m : Memory) (here : Location) (v : Value) :
    (m.write here v).stackCount = m.stackCount := by
  obtain ⟨root, path⟩ := here
  cases root with
  | stack name =>
    rw [stackCount, stackCount, countFields_eq_parts, countFields_eq_parts, write, List.map_map]
    refine countParts_map (fun entry => ?_) m.stack
    dsimp only [Function.comp_apply]
    split
    · exact count_write v path entry.2
    · rfl
  | heap a => rfl

theorem heapCount_write (m : Memory) (here : Location) (v : Value) :
    (m.write here v).heapCount = m.heapCount := by
  obtain ⟨root, path⟩ := here
  cases root with
  | stack name => rfl
  | heap a =>
    rw [heapCount, heapCount, write, List.map_map]
    refine countParts_map (fun entry => ?_) m.heap
    dsimp only [Function.comp_apply]
    split
    · exact count_write v path entry.2
    · rfl

theorem countParts_sublist {parts parts' : List Cell} (h : parts.Sublist parts') :
    Cell.countParts parts ≤ Cell.countParts parts' := by
  induction h with
  | slnil => exact Nat.le_refl _
  | cons c _ ih => exact Nat.le_trans ih (Nat.le_add_left _ _)
  | cons_cons c _ ih => exact Nat.add_le_add_left ih _

theorem heapCount_erase_le (m : Memory) (a : Address) : (m.erase a).heapCount ≤ m.heapCount :=
  countParts_sublist (List.filter_sublist.map _)

end Counts

/-- A memory with no more cells on the stack and on the heap than allowed. -/
structure Roomed (limits : Limits) (m : Memory) : Prop where
  stack : Allows limits.stackCells m.stackCount
  heap : Allows limits.heapCells m.heapCount

theorem roomed_of_checkLimits {limits : Limits} {m : Memory} (h : m.checkLimits limits = .ok ()) :
    Roomed limits m := by
  rw [checkLimits] at h
  split at h
  · cases h
  · rename_i hneither
    simp only [Bool.or_eq_true, not_or, Bool.not_eq_true] at hneither
    exact ⟨Types.exceeds_eq_false.1 hneither.1, Types.exceeds_eq_false.1 hneither.2⟩

theorem Roomed.checkLimits {limits : Limits} {m : Memory} (h : Roomed limits m) :
    m.checkLimits limits = .ok () := by
  rw [Memory.checkLimits, Types.exceeds_eq_false.2 h.stack, Types.exceeds_eq_false.2 h.heap]
  rfl

/-- A cluster that keeps to the limits on arrays and tuples. -/
def Cell.Within (g : Graph) (limits : Limits) : Cell → Prop
  | .leaf .. => True
  | .array t parts => Allows limits.arraySize parts.length ∧
      ∃ element axes, g.node t = .array element axes ∧ Allows limits.arrayDimensions axes.length
  | .tuple _ parts => Allows limits.tupleSize parts.length

theorem Shaped.within {g : Graph} {limits : Limits} {t : TypeId} {c : Cell} (h : Shaped g t c)
    (ht : (g.node t).Within limits) : c.Within g limits := by
  cases h with
  | leaf => trivial
  | array hnode hcount _ =>
    rw [hnode] at ht
    exact ⟨ht.2 _ hcount, _, _, hnode, ht.1⟩
  | tuple hnode hnames _ =>
    rw [hnode] at ht
    have hlength := congrArg List.length hnames
    rw [List.length_map, List.length_map] at hlength
    rw [Cell.Within, hlength]
    exact ht

end Chalkboard.Memory

namespace Chalkboard.Run

open Effects
open Chalkboard.Types (TypeId Graph Limits Allows)
open Memory (Cell Roomed)
open Reading (readProgram)

/-- Limits that a new run keeps to: those on steps and cells are absent or not negative. -/
structure Fair (limits : Limits) : Prop where
  steps : Allows limits.steps 0
  stack : Allows limits.stackCells 0
  heap : Allows limits.heapCells 0

theorem Done.roomed {f : Frame} {m m' : Memory} {item : Syntax.Item} {next : Option Nat}
    (h : Roomed f.limits m) (hdone : Done f m item next m') (hchecks : checks f m' item.action = .ok ()) :
    Roomed f.limits m' := by
  cases hdone with
  | kept => exact h
  | wrote => exact ⟨by rw [Memory.stackCount_write]; exact h.stack,
      by rw [Memory.heapCount_write]; exact h.heap⟩
  | declared haction =>
    rw [haction] at hchecks
    obtain ⟨_, -, hroom⟩ := except_bind_ok hchecks
    exact Memory.roomed_of_checkLimits hroom
  | stored haction =>
    rw [haction] at hchecks
    exact Memory.roomed_of_checkLimits hchecks
  | removed =>
    refine ⟨by rw [Memory.stackCount_write]; exact h.stack, ?_⟩
    rw [Memory.heapCount_write]
    exact h.heap.of_le (Int.ofNat_le.2 (Memory.heapCount_erase_le m _))

/-- What holds between two steps of a run: steps and memory keep to their limits, and every type that a
variable or a block leads to keeps to those on arrays and tuples. -/
structure Limited (f : Frame) (c : Course Unit) : Prop where
  steps : Allows f.limits.steps c.steps
  roomed : Roomed f.limits c.situation.memory
  built : Built f.types.graph (fun t => ∀ u, f.types.graph.Reaches t u →
    (f.types.graph.node u).Within f.limits) c.situation.memory

section Limited

variable {f : Frame}

theorem within_heritable (g : Graph) (limits : Limits) :
    g.Heritable fun t => ∀ u, g.Reaches t u → (g.node u).Within limits :=
  Graph.heritable_of_links fun _ _ ht hlink w hw => ht w (.head hlink hw)

theorem limited_start (hfair : Fair f.limits) : Limited f (.start none [] ()) :=
  ⟨hfair.steps, ⟨hfair.stack, hfair.heap⟩, built_start⟩

theorem Limited.step (sound : f.types.graph.Sound) {place : Nat} {item : Syntax.Item} {c : Course Unit}
    {next : Option Nat} {s : Situation} (h : Limited f c)
    (hstep : step f place item c.situation = (.ok next, s))
    (hsteps : Types.exceeds f.limits.steps (c.steps + 1 : Nat) = false) :
    Limited f (c.onward place s) := by
  obtain ⟨hdone, hchecks⟩ := step_done sound hstep
  refine ⟨Types.exceeds_eq_false.1 hsteps, hdone.roomed h.roomed hchecks, ?_⟩
  refine h.built.done (within_heritable _ _) (fun d hd u hu => ?_) hdone
  rw [hd] at hchecks
  obtain ⟨_, hcheck, -⟩ := except_bind_ok hchecks
  exact Types.within_of_checkLimits hcheck hu

end Limited

/-- A program that was read, after any number of steps from a new memory, none of which failed: the cells
on the stack, the cells on the heap and the steps are no more than allowed, and every array and every tuple,
however deep inside a variable or a block, has no more axes and elements, or fields, than allowed. -/
theorem limits_hold_throughout {setting : Reading.Setting} {text : String} {p : Syntax.Program}
    {types : Types} (hread : (readProgram setting text).run {} = (.ok p, types)) {limits : Limits}
    (hfair : Fair limits) (indexing : Bool) {n : Nat} {next : Option Nat} {c : Course Unit}
    (hrun : runProgram ⟨types, limits, indexing⟩ {} p false n (.start none [] ()) = (.ok next, c)) :
    let m := c.situation.memory
    Allows limits.stackCells m.stackCount ∧ Allows limits.heapCells m.heapCount ∧
      Allows limits.steps c.steps ∧
      ∀ owner path cluster, m.Owns owner → owner.at? path = some cluster →
        cluster.Within types.graph limits := by
  have sound := (Reading.readProgram_sound hread).graph
  have hlimited : Limited ⟨types, limits, indexing⟩ c :=
    runFrom_keeps (fun _ _ _ _ _ _ h hs hsteps => h.step sound hs hsteps)
      (limited_start (f := ⟨types, limits, indexing⟩) hfair) (runProgram_ok hrun).2
  refine ⟨hlimited.roomed.stack, hlimited.roomed.heap, hlimited.steps,
    fun owner path cluster howner hat => ?_⟩
  obtain ⟨hshaped, hkind⟩ := hlimited.built.at (within_heritable _ _) howner hat
  exact hshaped.within (hkind _ .refl)

/-- Two blocks of a type that leads back to itself through a synonym and holds an array of tuples; the
pointer to one of them is copied to a variable of another pointer type. -/
def sharedRows : String :=
  "type pair = tuple\n a: int\n b: char\nend tuple\n" ++
  "type row = tuple\n pairs: array [2, 3] of pair\n next: pointer of line\nend tuple\n" ++
  "type line = row\nvar p: pointer of line\nvar q: pointer of int\n" ++
  "alloc(p)\nalloc(p->next)\nq := p->next\n"

def exactLimits : Limits :=
  { steps := some 5, arrayDimensions := some 2, arraySize := some 6, tupleSize := some 2,
    stackCells := some 2, heapCells := some 26 }

theorem sharedRows_end :
    passes (readProgram {} sharedRows) {} (fun p types =>
      passes (runProgram ⟨types, exactLimits, true⟩ {} p false 5) (.start none [] ()) fun next c =>
        next == none && c.steps == 5 && c.situation.memory.stackCount == 2 &&
          c.situation.memory.heapCount == 26 && c.situation.memory.heap.all fun block =>
            (block.2.at? [0]).any fun cluster => cluster.count == 12) = true := by
  decide +kernel

theorem sharedRows_keep_limits :
    ∃ p types c, (readProgram {} sharedRows).run {} = (.ok p, types) ∧
      runProgram ⟨types, exactLimits, true⟩ {} p false 5 (.start none [] ()) = (.ok none, c) ∧
      (c.steps = 5 ∧ (c.steps : Int) ≤ 5) ∧
      ∀ block ∈ c.situation.memory.heap, ∃ cluster, block.2.at? [0] = some cluster ∧
        cluster.count = 12 ∧ cluster.Within types.graph exactLimits := by
  obtain ⟨p, types, hread, hcheck⟩ := of_passes sharedRows_end
  obtain ⟨next, c, hrun, hc⟩ := of_passes hcheck
  simp only [Bool.and_eq_true, beq_iff_eq, List.all_eq_true, Option.any_eq_true] at hc
  obtain ⟨⟨⟨⟨hnext, hsteps⟩, -⟩, -⟩, hblocks⟩ := hc
  have hfair : Fair exactLimits := by
    constructor <;> rintro l ⟨⟩ <;> decide
  obtain ⟨-, -, hallowed, hclusters⟩ := limits_hold_throughout hread hfair true hrun
  cases next with
  | some place => cases hnext
  | none =>
    refine ⟨p, types, c, hread, hrun, ⟨hsteps, hallowed 5 rfl⟩, fun block hblock => ?_⟩
    obtain ⟨cluster, hat, hcount⟩ := hblocks block hblock
    exact ⟨cluster, hat, hcount, hclusters block.2 [0] cluster (.inr ⟨block.1, hblock⟩) hat⟩

end Chalkboard.Run
