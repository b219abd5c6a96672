import Chalkboard.Proofs.ClosedTypes
import Chalkboard.Proofs.Faults

/-! What a step that fails leaves behind. One that fails for another reason than a limit leaves stack, heap
and loops alone, and one that exceeds a limit is done in full. The only fault that a check of limits can
raise of its own is a walk through the type that has no end. -/

namespace Chalkboard.Types

open Effects

section Checks

variable {s : Types} {limits : Limits} {t : TypeId}

/-- A limit that was exceeded, or a walk without end. -/
def Checking (e : Fault) : Prop := e.isLimit = true ∨ e = .misuse .endless

theorem valueExceeds_int (limit : Option Int) {axes : List Axis} {k : Int}
    (hk : elementCount axes = .ok (.int k)) :
    valueExceeds limit (fun _ => elementCount axes) = .ok (exceeds limit k) := by
  cases limit with
  | none => rfl
  | some l =>
    rw [valueExceeds, hk]
    change Except.ok (some (compare k l) == some Ordering.gt) = _
    exact congrArg Except.ok (Bool.eq_iff_iff.2 (by simp [exceeds, Int.compare_eq_gt]))

def Node.below (level : Int) : Node → Int
  | .array .. | .tuple .. => level + 1
  | _ => level

/-- What the check remembers of its way below a type. -/
def Node.kept (trail : List TypeId) : Node → List TypeId
  | .array .. => []
  | _ => trail

/-- What the check asks of a type itself, apart from its depth. -/
def Node.measure (limits : Limits) : Node → Except Fault Unit
  | .array _ axes => do
    if exceeds limits.arrayDimensions axes.length then throw (.limit .arrayDimensions)
    if ← valueExceeds limits.arraySize fun _ => elementCount axes then throw (.limit .arraySize)
  | .tuple _ fields _ =>
    if exceeds limits.tupleSize fields.length then throw (.limit .tupleSize) else pure ()
  | _ => pure ()

variable {depth : Int} {fuel : Nat} {g : Graph} {most : Int} {n : Node} {trail : List TypeId}

theorem Node.measure_fails {P : Fault → Prop} (hP : ∀ l, P (.limit l)) (hn : n.Plain) :
    FailsAs P (n.measure limits) := by
  cases n with
  | array =>
    obtain ⟨k, hk⟩ := elementCount_ok hn.2
    dsimp only [measure]
    rw [valueExceeds_int _ hk]
    exact .ite (.error (hP _)) (.ite (.error (hP _)) (.ok ()))
  | tuple => exact .ite (.error (hP _)) (.ok ())
  | _ => exact .ok ()

/-- A check that enters a type looks at what the type stands for and goes on to all that this leads to. -/
theorem Graph.checkFrom_off (hoff : t ∉ trail) : g.checkFrom limits (fuel + 1) t depth trail =
    if exceeds limits.typeDepth depth then .error (.limit .typeDepth) else
      g.closure t >>= fun c => (g.node c).measure limits >>= fun _ => (g.node c).links.forM fun u =>
        g.checkFrom limits fuel u ((g.node c).below depth) ((g.node c).kept (t :: trail)) := by
  have hone (r : Except Fault Unit) : r = r >>= fun _ => pure () := by cases r <;> rfl
  rw [checkFrom, if_neg (by simpa using hoff)]
  congr 1
  rcases hc : g.closure t with e | c
  · rfl
  have hmeant := meant_closure hc
  rw [except_ok_bind, except_ok_bind]
  generalize g.node c = n at hmeant
  rcases n with _ | _ | _ | _ | ⟨target | _⟩ | ⟨element, axes⟩ | ⟨_, fields, _⟩ | _ | _
  case pointer.settled => exact hone _
  case array =>
    dsimp only [Node.measure]
    split
    · rfl
    · rcases valueExceeds limits.arraySize fun _ => elementCount axes with e | _ | _
      · rfl
      · exact hone _
      · rfl
  case tuple =>
    dsimp only [Node.measure]
    split
    · rfl
    · exact (List.forM_map (f := fun u => g.checkFrom limits fuel u (depth + 1) (t :: trail))).symm
  case synonym => cases hmeant
  all_goals rfl

theorem Sound.checkFrom_succ (hs : s.Sound) {P : Fault → Prop} (hP : ∀ l, P (.limit l)) (ht : s.Usable t)
    (hpart : t ∉ trail → exceeds limits.typeDepth depth = false → ∀ u, s.Usable u → ∀ n : Node,
      FailsAs P (s.graph.checkFrom limits fuel u (n.below depth) (n.kept (t :: trail)))) :
    FailsAs P (s.graph.checkFrom limits (fuel + 1) t depth trail) := by
  by_cases hoff : t ∈ trail
  · rw [Graph.checkFrom, if_pos (by simpa using hoff)]
    exact .ok ()
  rw [Graph.checkFrom_off hoff]
  split
  · exact .error (hP _)
  rename_i hdepth
  obtain ⟨u, hu⟩ := hs.closes ht
  rw [hu, except_ok_bind]
  exact (Node.measure_fails hP (hs.graph.plain u)).bind fun _ _ => FailsAs.forM fun v hv =>
    hpart hoff (by simpa using hdepth) v (hs.link_usable hv) _

theorem Sound.checkFrom_fails (hs : s.Sound) (fuel : Nat) (ht : s.Usable t) (depth : Int)
    (trail : List TypeId) : FailsAs Checking (s.graph.checkFrom limits fuel t depth trail) := by
  induction fuel generalizing t depth trail with
  | zero => exact .error (.inr rfl)
  | succ fuel ih =>
    exact hs.checkFrom_succ (fun _ => .inl rfl) ht fun _ _ u hu _ => ih hu _ _

theorem length_le_of_nodup {n : Nat} (hnodup : trail.Nodup)
    (hlt : ∀ x ∈ trail, x < n) : trail.length ≤ n := by
  have hsub : trail ⊆ List.range n := fun x hx => List.mem_range.2 (hlt x hx)
  simpa using (hnodup.subperm hsub).length_le

/-- A walk that never enters a type twice is shorter than the graph is large. It starts anew only where the
depth grows, which it does no further than its limit. -/
theorem Sound.checkFrom_ends (hs : s.Sound) (hmost : limits.typeDepth = some most)
    (fuel : Nat) (ht : s.Usable t) (depth : Int) (trail : List TypeId) (hnodup : trail.Nodup)
    (hlt : ∀ x ∈ trail, x < s.graph.nodes.size)
    (hfuel : (most + 1 - depth).toNat * (s.graph.nodes.size + 2) + (s.graph.nodes.size - trail.length) <
      fuel) :
    FailsAs (·.isLimit = true) (s.graph.checkFrom limits fuel t depth trail) := by
  induction fuel generalizing t depth trail with
  | zero => omega
  | succ fuel ih =>
    refine hs.checkFrom_succ (fun _ => rfl) ht fun hoff hdepth u hu n => ?_
    have hle : depth ≤ most := by simpa [exceeds, hmost] using hdepth
    have hnodup' : (t :: trail).Nodup := List.nodup_cons.2 ⟨hoff, hnodup⟩
    have hlt' : ∀ x ∈ t :: trail, x < s.graph.nodes.size := List.forall_mem_cons.2 ⟨ht.1, hlt⟩
    have hshort := length_le_of_nodup hnodup' hlt'
    rw [List.length_cons] at hshort
    -- one step deeper there is room for a whole round through the graph
    have hround : (most + 1 - depth).toNat * (s.graph.nodes.size + 2) =
        (most + 1 - (depth + 1)).toNat * (s.graph.nodes.size + 2) + (s.graph.nodes.size + 2) := by
      rw [show (most + 1 - depth).toNat = (most + 1 - (depth + 1)).toNat + 1 by omega, Nat.add_mul,
        Nat.one_mul]
    cases n
    case array =>
      refine ih hu _ _ .nil (List.forall_mem_nil _) ?_
      simp only [Node.below, Node.kept, List.length_nil]
      omega
    all_goals
      refine ih hu _ _ hnodup' hlt' ?_
      simp only [Node.below, Node.kept, List.length_cons]
      omega

theorem Sound.checkLimits_fails (hs : s.Sound) (ht : s.Usable t) :
    FailsAs Checking (s.graph.checkLimits limits t) := hs.checkFrom_fails _ ht 1 []

theorem Sound.checkLimits_ends (hs : s.Sound) (ht : s.Usable t)
    (hmost : limits.typeDepth = some most)
    (hsmall : (most.toNat + 2) * (s.graph.nodes.size + 2) ≤ longestWalk) :
    FailsAs (·.isLimit = true) (s.graph.checkLimits limits t) := by
  refine hs.checkFrom_ends hmost _ ht 1 [] .nil (by simp) ?_
  have hfuel : s.graph.checkFuel limits = (most.toNat + 2) * (s.graph.nodes.size + 2) := by
    rw [Graph.checkFuel, hmost]
    exact Nat.min_eq_right hsmall
  rw [hfuel, Nat.add_mul, List.length_nil, show most + 1 - 1 = most by omega]
  omega

end Checks

end Chalkboard.Types

namespace Chalkboard.Run

open Effects
open Syntax (Expr Variable Sentence Action Item)
open Memory (MemoryM Free)

/-- Two situations with the same stack, the same heap and the same loops in progress. -/
structure Alike (s s' : Situation) : Prop where
  stack : s'.memory.stack = s.memory.stack
  heap : s'.memory.heap = s.memory.heap
  looping : s'.looping = s.looping

theorem Drifts.alike {s s' : Situation} (h : Drifts s s') : Alike s s' := by
  obtain ⟨hlooping, p, n, -, hmemory⟩ := h
  refine ⟨?_, ?_, hlooping⟩ <;> rw [hmemory] <;> cases p <;> rfl

section Step

variable {e : Fault} {f : Frame} {m : Memory}

theorem put_fails (sound : f.types.graph.Sound) {name : String} {t : Types.TypeId}
    (ht : t < f.types.graph.nodes.size) {m' : Memory}
    (h : put f name t m = (.error e, m')) : e = .alreadyDeclared name := by
  rw [put_apply] at h
  split at h
  · cases h
    rfl
  · obtain ⟨c, m₁, hc⟩ := Memory.allocateFrom_succeeds sound _ t (Nat.lt_succ_of_lt ht) ht
      (p := .stack) m
    rw [Memory.allocate, bind_apply, hc] at h
    cases h

theorem nextCount_free (place : Nat) (v : Variable) (start : Expr) (up : Bool) :
    Free (nextCount f place v start up) :=
  .get_bind fun _ => .ite
    ((onMemory_free (readVariable_free v)).bind fun _ => .lift (liftMisuse_unlimited _))
    (evaluate_free start)

theorem complete_declare_fails (sound : f.types.graph.Sound) {place : Nat} {item : Item}
    {d : Syntax.Declaration} (hd : item.action = .declare d) (ht : d.type < f.types.graph.nodes.size)
    {s s' : Situation} (h : complete f place item s = (.error e, s')) :
    e = .alreadyDeclared d.name := by
  rw [complete, hd] at h
  dsimp only at h
  rw [onMemory_then] at h
  rcases hput : put f d.name d.type s.memory with ⟨e' | _, m⟩
  · rw [hput] at h
    cases h
    exact put_fails sound ht hput
  · rw [hput] at h
    cases h

theorem complete_free (place : Nat) (item : Item) : Free (complete f place item) := by
  obtain ⟨action, next, inner, other⟩ := item
  cases action with
  | declare d =>
    refine (onMemory_free (.get_bind fun m => .ite ?_ ?_)).bind fun _ => .pure _
    · exact WorkFailsAs.bind (.throw rfl) fun _ => (Memory.allocateFrom_free _ _).bind fun _ => .modify _
    · exact (Memory.allocateFrom_free _ _).bind fun _ => .modify _
  | perform sentence =>
    cases sentence with
    | call builtin line v =>
      cases builtin with
      | alloc =>
        exact (onMemory_free ((reserve_free v).bind fun _ => (WorkFailsAs.modify _).bind fun _ =>
          .modify _)).bind fun _ => .pure _
      | free => exact (onMemory_free ((pointed_free v).bind fun _ => .modify _)).bind fun _ => .pure _
    | skip line => exact .pure _
    | assign v e =>
      exact (evaluate_free e).bind fun value => (WorkFailsAs.modify _).bind fun _ =>
        (onMemory_free (writeVariable_free v value)).bind fun _ => .pure _
    | branch guard yes no => exact (evaluate_free guard).bind fun _ => .pure _
    | loop guard body => exact (evaluate_free guard).bind fun _ => .ite (.pure _) (.pure _)
    | count v start stop up body =>
      refine (nextCount_free place v start up).bind fun value => (evaluate_free stop).bind fun last =>
        (WorkFailsAs.lift (liftMisuse_unlimited _)).bind fun goes => .ite ?_ ?_
      · exact (onMemory_free (writeVariable_free v value)).bind fun _ => (WorkFailsAs.modify _).bind
          fun _ => .pure _
      · exact (WorkFailsAs.modify _).bind fun _ => .pure _

theorem checks_fails (sound : f.types.Sound) {action : Action}
    (husable : ∀ d, action = .declare d → f.types.Usable d.type)
    (h : checks f m action = .error e) : e.isLimit = true ∨ e = .misuse .endless ∧
      ∃ d, action = .declare d ∧ f.types.graph.checkLimits f.limits d.type = .error e := by
  rcases action with d | ⟨_ | _ | ⟨_ | _⟩ | _ | _ | _⟩
  case declare =>
    rw [checks] at h
    rcases hcheck : f.types.graph.checkLimits f.limits d.type with e' | _
    · rw [hcheck] at h
      cases h
      rcases sound.checkLimits_fails (husable d rfl) e hcheck with hlimit | rfl
      · exact .inl hlimit
      · exact .inr ⟨rfl, d, rfl, hcheck⟩
    · rw [hcheck] at h
      exact .inl (Memory.checkLimits_fails f.limits m e h)
  case perform.call.alloc => exact .inl (Memory.checkLimits_fails f.limits m e h)
  all_goals cases h

end Step

section Watched

variable {f : Frame}

theorem watched_apply (place : Nat) (item : Item) (c : Course Unit) :
    watched f.limits {} place (step f place item) c =
      match step f place item c.situation with
      | (.ok x, s) =>
        (if Types.exceeds f.limits.steps (c.steps + 1 : Nat) then .error (.limit .steps) else .ok x,
          { situation := { s with noted := [] }, steps := c.steps + 1, last := some place,
            current := some place, seen := () })
      | (.error e, s) => (.error e, { c with situation := s, current := some place }) := by
  unfold watched showAfter watching stepping
  simp only [bind_apply, get_apply, set_apply, modify_apply, pure_apply]
  rcases step f place item c.situation with ⟨_ | x, s⟩
  · rfl
  · dsimp only
    split <;> rfl

end Watched

section Flow

open Syntax (Declaration declarationItems blockItems)

theorem mem_declarationItems {item : Item} {more : Bool} {start : Nat} {ds : List Declaration}
    (h : item ∈ declarationItems start more ds) : ∃ d ∈ ds, item.action = .declare d := by
  induction ds generalizing start with
  | nil => cases h
  | cons d rest ih =>
    rcases List.mem_cons.1 h with rfl | h
    · exact ⟨d, List.mem_cons_self, rfl⟩
    · obtain ⟨d', hd', haction⟩ := ih h
      exact ⟨d', List.mem_cons_of_mem _ hd', haction⟩

mutual

theorem perform_of_mem_items {start : Nat} {next : Option Nat} {item : Item} :
    (s : Sentence) → item ∈ s.items start next → ∃ s', item.action = .perform s'
  | .branch guard yes no, h => by
    rw [Sentence.items] at h
    rcases List.mem_cons.1 h with rfl | h
    · exact ⟨_, rfl⟩
    · rcases List.mem_append.1 h with h | h
      · exact perform_of_mem_blockItems yes h
      · exact perform_of_mem_blockItems no h
  | .loop _ body, h | .count _ _ _ _ body, h => by
    rw [Sentence.items] at h
    rcases List.mem_cons.1 h with rfl | h
    · exact ⟨_, rfl⟩
    · exact perform_of_mem_blockItems body h
  | .skip line, h => ⟨.skip line, by rw [List.mem_singleton.1 h]⟩
  | .assign v e, h => ⟨.assign v e, by rw [List.mem_singleton.1 h]⟩
  | .call builtin line v, h => ⟨.call builtin line v, by rw [List.mem_singleton.1 h]⟩

theorem perform_of_mem_blockItems {start : Nat} {next : Option Nat} {item : Item} :
    (block : List Sentence) → item ∈ blockItems start next block → ∃ s, item.action = .perform s
  | [], h => by cases h
  | s :: rest, h => by
    rw [blockItems] at h
    rcases List.mem_append.1 h with h | h
    · exact perform_of_mem_items s h
    · exact perform_of_mem_blockItems rest h

end

theorem mem_declarations {p : Syntax.Program} {place : Nat} {item : Item} {d : Declaration}
    (hitem : p.items[place]? = some item) (hd : item.action = .declare d) : d ∈ p.declarations := by
  rcases List.mem_append.1 (List.mem_of_getElem? hitem) with hmem | hmem
  · obtain ⟨d', hd', haction⟩ := mem_declarationItems hmem
    rw [hd] at haction
    cases haction
    exact hd'
  · obtain ⟨s, hs⟩ := perform_of_mem_blockItems _ hmem
    rw [hd] at hs
    cases hs

end Flow

/-- A step of a program that was read, in any situation, that fails. If it exceeds a limit, stack, heap and
loops in progress are those of the step done in full. If it fails for another reason they are as before,
unless the fault is that the check of a new variable's type walks without end, and the step is done. Such a
walk does not occur where the depth of types has a limit and the types are few enough for it. -/
theorem failed_step_is_whole {setting : Reading.Setting} {text : String} {p : Syntax.Program}
    {types : Types} (hread : (Reading.readProgram setting text).run {} = (.ok p, types))
    (limits : Types.Limits) (indexing : Bool) {place : Nat} {item : Item}
    (hitem : p.items[place]? = some item) {c c' : Course Unit} {e : Fault}
    (hfail : watched limits {} place (step ⟨types, limits, indexing⟩ place item) c = (.error e, c')) :
    let Done := ∃ next s, complete ⟨types, limits, indexing⟩ place item c.situation = (.ok next, s) ∧
      Alike s c'.situation
    let Endless := e = .misuse .endless ∧ ∃ d, item.action = .declare d ∧
      types.graph.checkLimits limits d.type = .error e
    (e.isLimit = true → Done) ∧ (e.isLimit = false → ¬Endless → Alike c.situation c'.situation) ∧
      (Endless → Done) ∧
      ∀ most, limits.typeDepth = some most →
        (most.toNat + 2) * (types.graph.nodes.size + 2) ≤ Types.longestWalk → ¬Endless := by
  intro Done Endless
  have sound := Reading.readProgram_sound hread
  have husable (d : Syntax.Declaration) (hd : item.action = .declare d) : types.Usable d.type :=
    ((Reading.readProgram_shut hread).2.2 d (mem_declarations hitem hd)).1
  have hends (most : Int) (hmost : limits.typeDepth = some most)
      (hsmall : (most.toNat + 2) * (types.graph.nodes.size + 2) ≤ Types.longestWalk) : ¬Endless := by
    rintro ⟨rfl, d, hd, hcheck⟩
    have hlimit := sound.checkLimits_ends (husable d hd) hmost hsmall _ hcheck
    cases hlimit
  suffices hcases : Alike c.situation c'.situation ∧ e.isLimit = false ∧ ¬Endless ∨
      Done ∧ (e.isLimit = true ∨ Endless) by
    rcases hcases with ⟨halike, hlimit, hendless⟩ | ⟨hdone, hwhy⟩
    · exact ⟨by simp [hlimit], fun _ _ => halike, fun h => absurd h hendless, hends⟩
    · refine ⟨fun _ => hdone, fun hlimit hendless => ?_, fun _ => hdone, hends⟩
      simp [hlimit, hendless] at hwhy
  have hfree := complete_free (f := ⟨types, limits, indexing⟩) place item c.situation
  have hcareful := complete_careful (f := ⟨types, limits, indexing⟩) sound.graph place item c.situation
  rw [watched_apply (f := ⟨types, limits, indexing⟩), step_eq] at hfail
  rcases hcomplete : complete ⟨types, limits, indexing⟩ place item c.situation with ⟨e' | next, s⟩
  · rw [hcomplete] at hfail hfree hcareful
    cases hfail
    refine .inl ⟨(hcareful _ _ rfl).alike, hfree _ rfl, ?_⟩
    rintro ⟨rfl, d, hd, -⟩
    cases complete_declare_fails sound.graph hd (husable d hd).1 hcomplete
  · right
    rw [hcomplete] at hfail
    dsimp only at hfail
    rcases hchecks : checks ⟨types, limits, indexing⟩ s.memory item.action with e' | _
    · rw [hchecks] at hfail
      cases hfail
      exact ⟨⟨next, s, hcomplete, ⟨rfl, rfl, rfl⟩⟩, checks_fails sound husable hchecks⟩
    · rw [hchecks] at hfail
      dsimp only [Except.map] at hfail
      split at hfail
      · cases hfail
        exact ⟨⟨next, s, hcomplete, ⟨rfl, rfl, rfl⟩⟩, .inl rfl⟩
      · cases hfail

/-- The situation after the first steps of a program, when the sentence at some place is about to be
performed. -/
def reached (f : Frame) (p : Syntax.Program) (n : Nat) : Course Unit :=
  (runProgram f {} p false n (.start none [] ())).2

/-- A pointer to a cell of two leaves, which is followed when it points nowhere yet. -/
def narrowHeap : String :=
  "type cell = tuple\n value: int\n next: pointer of cell\nend tuple\n" ++
  "var p: pointer of cell\nvar n: int\nalloc(p)\np->value := 1\n"

def narrowLimits : Types.Limits := { heapCells := some 1 }

theorem narrowHeap_fails :
    passes (Reading.readProgram {} narrowHeap) {} (fun p types =>
      let f : Frame := ⟨types, narrowLimits, true⟩
      types.graph.nodes.size == 7 &&
        p.items[2]?.any (fun item =>
          fails (watched narrowLimits {} 2 (step f 2 item)) (reached f p 2) fun e c =>
            e == .limit .memory && c.situation.memory.heap.map (·.1) == [⟨.heap, 0⟩]) &&
        p.items[3]?.any fun item =>
          fails (watched narrowLimits {} 3 (step f 3 item)) (reached f p 2) fun e _ =>
            e.isLimit == false) = true := by
  decide +kernel

theorem narrowHeap_is_whole :
    ∃ p types, (Reading.readProgram {} narrowHeap).run {} = (.ok p, types) ∧
      let f : Frame := ⟨types, narrowLimits, true⟩
      (∃ item c', p.items[2]? = some item ∧
        watched narrowLimits {} 2 (step f 2 item) (reached f p 2) = (.error (.limit .memory), c') ∧
        c'.situation.memory.heap.map (·.1) = [⟨.heap, 0⟩] ∧
        ∃ next s, complete f 2 item (reached f p 2).situation = (.ok next, s) ∧
          Alike s c'.situation) ∧
      ∃ item e c', p.items[3]? = some item ∧
        watched narrowLimits {} 3 (step f 3 item) (reached f p 2) = (.error e, c') ∧
        e.isLimit = false ∧ Alike (reached f p 2).situation c'.situation := by
  obtain ⟨p, types, hread, hcheck⟩ := of_passes narrowHeap_fails
  simp only [Bool.and_eq_true, beq_iff_eq, Option.any_eq_true] at hcheck
  obtain ⟨⟨hsize, alloc, halloc, hlimit⟩, assign, hassign, hother⟩ := hcheck
  refine ⟨p, types, hread, ?_, ?_⟩
  · obtain ⟨e, c', hfail, hc'⟩ := of_fails hlimit
    simp only [Bool.and_eq_true, beq_iff_eq] at hc'
    obtain ⟨rfl, hheap⟩ := hc'
    exact ⟨alloc, c', halloc, hfail, hheap,
      (failed_step_is_whole hread narrowLimits true halloc hfail).1 rfl⟩
  · obtain ⟨e, c', hfail, hc'⟩ := of_fails hother
    have he : e.isLimit = false := by simpa using hc'
    obtain ⟨-, hsame, -, hends⟩ := failed_step_is_whole hread narrowLimits true hassign hfail
    exact ⟨assign, e, c', hassign, hfail, he, hsame he (hends 5 rfl (by rw [hsize]; decide))⟩

/-- A type that leads back to itself through an array, where a walk loses its trail. -/
def branchingType : String :=
  "type t = tuple\n a: pointer of t\n b: array [2] of pointer of t\nend tuple\nvar x: t\nskip\n"

def deepLimits : Types.Limits := { typeDepth := some 1000000 }

theorem branchingType_fails :
    passes (Reading.readProgram { limits := deepLimits } branchingType) {} (fun p types =>
      p.items[0]?.any fun item =>
        fails (watched deepLimits {} 0 (step ⟨types, deepLimits, true⟩ 0 item)) (.start none [] ())
          fun e c => e == .misuse .endless && c.situation.memory.stack.map (·.1) == ["x"]) = true := by
  decide +kernel

/-- The depth of types has a limit, the fault is no limit that was exceeded, and yet the variable is there. -/
theorem branchingType_half_done :
    ∃ p types item c',
      (Reading.readProgram { limits := deepLimits } branchingType).run {} = (.ok p, types) ∧
      p.items[0]? = some item ∧
      watched deepLimits {} 0 (step ⟨types, deepLimits, true⟩ 0 item) (.start none [] ()) =
        (.error (.misuse .endless), c') ∧
      ¬Alike (Course.start none [] ()).situation c'.situation := by
  obtain ⟨p, types, hread, hcheck⟩ := of_passes branchingType_fails
  obtain ⟨item, hitem, hfails⟩ := (Option.any_eq_true _ _).1 hcheck
  obtain ⟨e, c', hfail, hc'⟩ := of_fails hfails
  simp only [Bool.and_eq_true, beq_iff_eq] at hc'
  obtain ⟨rfl, hstack⟩ := hc'
  refine ⟨p, types, item, c', hread, hitem, hfail, fun halike => ?_⟩
  have hnone := congrArg (List.map (·.1)) halike.stack
  rw [hstack] at hnone
  cases hnone

end Chalkboard.Run
