import Chalkboard.Proofs.Reaching
import Chalkboard.Proofs.Reachable
import Chalkboard.Proofs.SideBySide

/-! What an assignment does to a memory: the leaf that the variable leads to has the new value, and nothing
else is different. A variable that comes to its cell without reading that leaf on the way comes to the same
place afterwards. -/

namespace Chalkboard.Memory

open Chalkboard.Types (TypeId)

namespace Cell

mutual

def blank : Cell → Cell
  | leaf a t _ => leaf a t .unknown
  | array t parts => array t (blankParts parts)
  | tuple t parts => tuple t (blankFields parts)

def blankParts : List Cell → List Cell
  | [] => []
  | c :: cs => c.blank :: blankParts cs

def blankFields : List (String × Cell) → List (String × Cell)
  | [] => []
  | (name, c) :: cs => (name, c.blank) :: blankFields cs

end

theorem blankParts_eq (parts : List Cell) : blankParts parts = parts.map blank := by
  induction parts with
  | nil => rfl
  | cons c cs ih => rw [blankParts, ih, List.map_cons]

theorem blankFields_eq (parts : List (String × Cell)) :
    blankFields parts = parts.map fun part => (part.1, part.2.blank) := by
  induction parts with
  | nil => rfl
  | cons part cs ih => rw [blankFields, ih, List.map_cons]

theorem blank_part? (c : Cell) (i : Nat) : (c.part? i).map blank = c.blank.part? i := by
  cases c with
  | leaf => rfl
  | array t parts => simp [part?, blank, blankParts_eq]
  | tuple t parts =>
    rw [blank, blankFields_eq, part?, part?, List.getElem?_map, Option.map_map, Option.map_map]
    rfl

theorem blank_at? (path : List Nat) (c : Cell) : (c.at? path).map blank = c.blank.at? path := by
  induction path generalizing c with
  | nil => rfl
  | cons i path ih =>
    rw [at?, at?, ← blank_part?]
    rcases c.part? i with _ | part
    · rfl
    · exact ih part

theorem map_modify_same {α β : Type} {f : α → β} {g : α → α} (h : ∀ x, f (g x) = f x) (i : Nat)
    (xs : List α) : (xs.modify i g).map f = xs.map f := by
  induction xs generalizing i with
  | nil => simp
  | cons x xs ih =>
    cases i with
    | zero => simp [h]
    | succ i => simp [ih]

theorem blank_write (v : Value) (path : List Nat) (c : Cell) : (c.write v path).blank = c.blank := by
  induction path generalizing c with
  | nil => cases c <;> rfl
  | cons i path ih =>
    cases c with
    | leaf => rfl
    | array t parts => rw [write, blank, blank, blankParts_eq, blankParts_eq, map_modify_same ih]
    | tuple t parts =>
      rw [write, blank, blank, blankFields_eq, blankFields_eq]
      exact congrArg _ (map_modify_same (fun part => by rw [ih]) i parts)

theorem type_blank (c : Cell) : c.blank.type = c.type := by
  cases c <;> rfl

variable {a : Address} {c : Cell} {path : List Nat} {t : TypeId} {v : Value}

theorem at?_write_ne {path' : List Nat} (h : path' ≠ path) {w : Value} (hat : c.at? path' = some (.leaf a t w)) :
    (c.write v path).at? path' = some (.leaf a t w) := by
  induction path generalizing c path' with
  | nil =>
    cases c with
    | leaf b u old =>
      cases path' with
      | nil => exact absurd rfl h
      | cons j path' => cases hat
    | array u parts => exact hat
    | tuple u parts => exact hat
  | cons i path ih =>
    cases path' with
    | nil =>
      cases hat
      rfl
    | cons j path' =>
      rw [at?] at hat ⊢
      obtain ⟨part, hpart, hat⟩ := Option.bind_eq_some_iff.1 hat
      by_cases hj : j = i
      · subst hj
        rw [part?_write_same, hpart]
        exact ih (fun heq => h (by rw [heq])) hat
      · rw [part?_write_ne v hj, hpart]
        exact hat

theorem at?_write_self {old : Value}
    (hat : c.at? path = some (.leaf a t old)) : (c.write v path).at? path = some (.leaf a t v) := by
  induction path generalizing c with
  | nil =>
    cases hat
    rfl
  | cons i path ih =>
    obtain ⟨part, hpart, hat⟩ := Option.bind_eq_some_iff.1 hat
    rw [at?, part?_write_same, hpart]
    exact ih hat

end Cell

def Location.same (here there : Location) : Bool := here.root.same there.root && here.path == there.path

/-- A memory without its values: names, addresses, types and shapes in their order, and the next free
numbers. -/
def blank (m : Memory) : Memory :=
  { m with
    stack := m.stack.map fun e => (e.1, e.2.blank)
    heap := m.heap.map fun e => (e.1, e.2.blank) }

section Write

variable {m : Memory} {here there : Location} {v w : Value} {a : Address} {t : TypeId}

theorem cellAt?_root (m : Memory) (here : Location) :
    m.cellAt? here = (m.rootCell? here.root).bind (Cell.at? here.path) := by
  obtain ⟨root, path⟩ := here
  cases root <;> rfl

theorem blank_rootCell? (m : Memory) (k : Root) : (m.rootCell? k).map Cell.blank = m.blank.rootCell? k := by
  cases k with
  | stack name =>
    rw [rootCell?, rootCell?, stackCell?_find, stackCell?_find, blank, List.find?_map, Option.map_map,
      Option.map_map]
    rfl
  | heap a =>
    rw [rootCell?, rootCell?, heapCell?, heapCell?, blank, List.find?_map, Option.map_map, Option.map_map]
    rfl

theorem blank_cellAt? (m : Memory) (here : Location) :
    (m.cellAt? here).map Cell.blank = m.blank.cellAt? here := by
  rw [cellAt?_root, cellAt?_root, ← blank_rootCell?]
  rcases m.rootCell? here.root with _ | c
  · rfl
  · exact Cell.blank_at? here.path c

theorem write_blank (m : Memory) (here : Location) (v : Value) : (m.write here v).blank = m.blank := by
  obtain ⟨root, path⟩ := here
  cases root with
  | stack name =>
    simp only [write, blank, List.map_map, Memory.mk.injEq, and_true]
    refine List.map_congr_left fun e _ => ?_
    dsimp only [Function.comp_apply]
    split
    · rw [Cell.blank_write]
    · rfl
  | heap a =>
    simp only [write, blank, List.map_map, Memory.mk.injEq, and_true, true_and]
    refine List.map_congr_left fun e _ => ?_
    dsimp only [Function.comp_apply]
    split
    · rw [Cell.blank_write]
    · rfl

theorem cellAt?_write_self (hat : m.cellAt? here = some (.leaf a t w)) :
    (m.write here v).cellAt? here = some (.leaf a t v) := by
  rw [cellAt?_root] at hat ⊢
  obtain ⟨c, hc, hat⟩ := Option.bind_eq_some_iff.1 hat
  rw [rootCell?_write, hc, Option.map_some, if_pos (Root.same_refl _)]
  exact Cell.at?_write_self hat

theorem cellAt?_write_ne (hne : there.same here = false) (hat : m.cellAt? there = some (.leaf a t w)) :
    (m.write here v).cellAt? there = some (.leaf a t w) := by
  rw [cellAt?_root] at hat ⊢
  obtain ⟨c, hc, hat⟩ := Option.bind_eq_some_iff.1 hat
  rw [rootCell?_write, hc, Option.map_some]
  cases hroot : here.root.same there.root with
  | false => exact hat
  | true =>
    rw [Location.same, Root.same_symm hroot, Bool.true_and, beq_eq_false_iff_ne] at hne
    exact Cell.at?_write_ne hne hat

theorem cellAt?_same (h : there.same here = true) : m.cellAt? there = m.cellAt? here := by
  obtain ⟨hroot, hpath⟩ := Bool.and_eq_true_iff.1 h
  rw [cellAt?_root, cellAt?_root, beq_iff_eq.1 hpath, rootCell?_congr hroot]

end Write

/-- The same memory twice, but for the value of the leaf at a place. -/
structure DiffersAt (place : Location) (m m' : Memory) : Prop where
  blank : m'.blank = m.blank
  leaf {here : Location} (hne : here.same place = false) {a : Address} {t : TypeId} {v : Value}
    (hat : m.cellAt? here = some (.leaf a t v)) : m'.cellAt? here = some (.leaf a t v)

theorem differsAt_write (m : Memory) (here : Location) (v : Value) : DiffersAt here m (m.write here v) :=
  ⟨write_blank m here v, fun hne => cellAt?_write_ne hne⟩

section DiffersAt

variable {m m' : Memory} {place here : Location} {c : Cell}

theorem DiffersAt.cellAt? (h : DiffersAt place m m') (hc : m.cellAt? here = some c) :
    ∃ c', m'.cellAt? here = some c' ∧ c'.blank = c.blank := by
  have hblank : (m'.cellAt? here).map Cell.blank = some c.blank := by
    rw [blank_cellAt?, h.blank, ← blank_cellAt?, hc]
    rfl
  exact Option.map_eq_some_iff.1 hblank

theorem DiffersAt.leaf_iff (h : DiffersAt place m m') (hne : here.same place = false) {a : Address}
    {t : TypeId} {v : Value} : m'.cellAt? here = some (.leaf a t v) ↔ m.cellAt? here = some (.leaf a t v) := by
  refine ⟨fun hat => ?_, h.leaf hne⟩
  have hblank : (m.cellAt? here).map Cell.blank = some (.leaf a t .unknown) := by
    rw [blank_cellAt?, ← h.blank, ← blank_cellAt?, hat]
    rfl
  obtain ⟨c, hc, hleaf⟩ := Option.map_eq_some_iff.1 hblank
  cases c with
  | leaf b u w =>
    cases hleaf
    rw [hc, ← hat, h.leaf hne hc]
  | array => cases hleaf
  | tuple => cases hleaf

end DiffersAt

end Chalkboard.Memory

namespace Chalkboard.Run

open Effects
open Syntax (Expr Step Variable Lexeme)
open Chalkboard.Types (Graph)
open Memory (Cell Location DiffersAt Shaped)

def onward {α : Type} (r : Except Fault α) (reads : α → List Location) : List Location :=
  match r with
  | .ok a => reads a
  | .error _ => []

mutual

/-- The leaves that are read while an expression is evaluated. -/
def readIn (f : Frame) (m : Memory) : Expr → List Location
  | .literal .. => []
  | .access name path =>
    match m.stackCell? name.text with
    | none => []
    | some c =>
      passedIn f m ⟨name, path⟩ ⟨.stack name.text, []⟩ c path ++
        onward (walk (f.env m) m ⟨name, path⟩ ⟨.stack name.text, []⟩ c path) fun x => [x.1]
  | .unary _ operand => readIn f m operand
  | .binary left op right =>
    readIn f m left ++ onward (evalExpr (f.env m) left) fun a =>
      match settledBy op a with
      | some _ => []
      | none => readIn f m right
  | .lazy _ => []
  | .stray .. => []

def readInAll (f : Frame) (m : Memory) : List Expr → List Location
  | [] => []
  | e :: es => readIn f m e ++ onward (evalExpr (f.env m) e) fun _ => readInAll f m es

/-- The leaves that are read on the way along a path: the pointers it goes through, and what its indexes
read. -/
def passedIn (f : Frame) (m : Memory) (v : Variable) (here : Location) (c : Cell) : List Step → List Location
  | [] => []
  | .deref :: steps =>
    here :: onward (follow f.types.graph m v c) fun x => passedIn f m v x.1 x.2 steps
  | .index indexes :: steps =>
    readInAll f m indexes ++ onward (evalAll (f.env m) indexes) fun values =>
      onward (element f.types.graph here c values) fun x => passedIn f m v x.1 x.2 steps
  | .field name :: steps =>
    onward (member f.types.graph v here c name) fun x => passedIn f m v x.1 x.2 steps

end

/-- The leaves that are read on the way to the cell of a variable. -/
def passed (f : Frame) (m : Memory) (v : Variable) : List Location :=
  match m.stackCell? v.name.text with
  | none => []
  | some c => passedIn f m v ⟨.stack v.name.text, []⟩ c v.path

/-- One place, with what stands there in two memories. -/
def Standing (m m' : Memory) (x y : Location × Cell) : Prop :=
  y.1 = x.1 ∧ m.cellAt? x.1 = some x.2 ∧ m'.cellAt? x.1 = some y.2

section Standing

variable {f : Frame} {g : Graph} {m m' : Memory} {place here : Location} {c c' : Cell}

theorem onward_ok {α : Type} {r : Except Fault α} {a : α} (h : r = .ok a) (reads : α → List Location) :
    onward r reads = reads a := by
  rw [h]
  rfl

theorem Standing.blank (h : DiffersAt place m m') (hc : Standing m m' (here, c) (here, c')) :
    c'.blank = c.blank := by
  obtain ⟨-, hat, hat'⟩ := hc
  obtain ⟨c₁, hc₁, hblank⟩ := h.cellAt? hat
  cases hat'.symm.trans hc₁
  exact hblank

theorem Standing.part (h : DiffersAt place m m') (hc : Standing m m' (here, c) (here, c')) {i : Nat}
    {part : Cell} (hpart : c.part? i = some part) :
    ∃ part', c'.part? i = some part' ∧
      Standing m m' (⟨here.root, here.path ++ [i]⟩, part) (⟨here.root, here.path ++ [i]⟩, part') := by
  have hparts : (c'.part? i).map Cell.blank = some part.blank := by
    rw [Cell.blank_part?, hc.blank h, ← Cell.blank_part?, hpart]
    rfl
  obtain ⟨part', hpart', -⟩ := Option.map_eq_some_iff.1 hparts
  exact ⟨part', hpart', rfl, cellAt?_part hc.2.1 hpart, cellAt?_part hc.2.2 hpart'⟩

theorem Standing.type (h : DiffersAt place m m') (hc : Standing m m' (here, c) (here, c')) :
    c'.type = c.type := by
  rw [← Cell.type_blank, hc.blank h, Cell.type_blank]

theorem follow_apart (h : DiffersAt place m m') (hm : AllShaped g m) (hne : here.same place = false)
    (hc : Standing m m' (here, c) (here, c')) (v : Variable) :
    Like (Standing m m') (follow g m v c) (follow g m' v c') := by
  unfold follow
  rw [hc.type h]
  by_cases hpointer : g.isPointer c.type = true
  · obtain ⟨a, t, value, rfl⟩ := (hm.cellAt? hc.2.1).leaf_of_isPointer hpointer
    cases (h.leaf hne hc.2.1).symm.trans hc.2.2
    rw [hpointer, if_neg (by simp), if_neg (by simp), Cell.value]
    refine .after fun value' hvalue => ?_
    cases hvalue
    generalize liftMisuse value.plain = shown
    cases value with
    | address b =>
      dsimp only
      rcases hblock : m.heapCell? b with _ | block
      · exact .error _
      · have hat : m.cellAt? ⟨.heap b, []⟩ = some block := by
          rw [Memory.cellAt?_heap, hblock]
          rfl
        obtain ⟨block', hat', -⟩ := h.cellAt? hat
        have hblock' : m'.heapCell? b = some block' := by
          rw [Memory.cellAt?_heap] at hat'
          obtain ⟨owner', howner', hself⟩ := Option.bind_eq_some_iff.1 hat'
          cases hself
          exact howner'
        rw [hblock']
        exact ⟨rfl, hat, hat'⟩
    | _ => exact .after fun _ _ => .error _
  · rw [Bool.eq_false_iff.2 hpointer]
    exact .error _

theorem element_apart (h : DiffersAt place m m') (hc : Standing m m' (here, c) (here, c'))
    (indexes : List Value) :
    Like (Standing m m') (element g here c indexes) (element g here c' indexes) := by
  unfold element
  rw [hc.type h]
  split
  · refine .after fun flat _ => .after fun i _ => ?_
    rcases hpart : c.part? i with _ | part
    · exact .error _
    · obtain ⟨part', hpart', hstanding⟩ := hc.part h hpart
      rw [hpart']
      exact hstanding
  · exact .error _

theorem member_apart (h : DiffersAt place m m') (hc : Standing m m' (here, c) (here, c')) (v : Variable)
    (field : String) : Like (Standing m m') (member g v here c field) (member g v here c' field) := by
  rcases hmember : member g v here c field with e | ⟨here₁, part⟩
  · exact .error _
  obtain ⟨i, rfl, hpart⟩ := member_part hmember
  obtain ⟨part', hpart', hstanding⟩ := hc.part h hpart
  have hblank := hc.blank h
  cases c with
  | leaf => cases hpart
  | array =>
    unfold member at hmember
    obtain ⟨_, -, hmember⟩ := except_bind_ok hmember
    obtain ⟨_, -, hmember⟩ := except_bind_ok hmember
    cases hmember
  | tuple t parts =>
    cases c' with
    | leaf => cases hblank
    | array => cases hblank
    | tuple t' parts' =>
      have hnames : parts'.map (·.1) = parts.map (·.1) := by
        have hfields : Cell.blankFields parts' = Cell.blankFields parts := (Cell.tuple.inj hblank).2
        rw [Cell.blankFields_eq, Cell.blankFields_eq] at hfields
        simpa [Function.comp_def] using congrArg (List.map (·.1)) hfields
      have hindex : parts'.findIdx? (·.1 == field) = parts.findIdx? (·.1 == field) := by
        have hfind (xs : List (String × Cell)) :
            xs.findIdx? (·.1 == field) = (xs.map (·.1)).findIdx? (· == field) := by
          rw [List.findIdx?_map]
          rfl
        rw [hfind, hfind, hnames]
      unfold member at hmember ⊢
      dsimp only at hmember ⊢
      rw [hindex]
      split at hmember
      · rename_i j hj
        have hji : j = i := by simpa using (Prod.mk.inj (Except.ok.inj hmember)).1
        subst hji
        rw [hpart']
        exact hstanding
      · cases hmember

end Standing

section Reading

variable {f : Frame} {m m' : Memory} {place : Location}

theorem standing_stack (h : DiffersAt place m m') {name : String} {c : Cell}
    (hc : m.stackCell? name = some c) :
    ∃ c', m'.stackCell? name = some c' ∧
      Standing m m' (⟨.stack name, []⟩, c) (⟨.stack name, []⟩, c') := by
  have hat : m.cellAt? ⟨.stack name, []⟩ = some c := by
    rw [Memory.cellAt?_stack, hc]
    rfl
  obtain ⟨c', hat', -⟩ := h.cellAt? hat
  refine ⟨c', ?_, rfl, hat, hat'⟩
  rw [Memory.cellAt?_stack] at hat'
  obtain ⟨owner, howner, hself⟩ := Option.bind_eq_some_iff.1 hat'
  cases hself
  exact howner

theorem leafValue_apart (h : DiffersAt place m m') {x y : Location × Cell} (hxy : Standing m m' x y)
    (hne : x.1.same place = false) : Like (fun v v' => v' = v) (leafValue x.2) (leafValue y.2) := by
  rcases hvalue : leafValue x.2 with e | v
  · exact .error _
  · obtain ⟨a, t, hleaf⟩ := leafValue_ok hvalue
    have hat := h.leaf hne (hleaf ▸ hxy.2.1)
    rw [Option.some.inj (hxy.2.2.symm.trans hat)]
    exact rfl

theorem walk_on {v : Variable} {steps : List Step} {r r' : Except Fault (Location × Cell)}
    (hstep : Like (Standing m m') r r')
    (hreads : ∀ there ∈ onward r fun x => passedIn f m v x.1 x.2 steps, there.same place = false)
    (hrest : ∀ here c c', Standing m m' (here, c) (here, c') →
      (∀ there ∈ passedIn f m v here c steps, there.same place = false) →
      Like (Standing m m') (walk (f.env m) m v here c steps) (walk (f.env m') m' v here c' steps)) :
    Like (Standing m m') (r >>= fun x => walk (f.env m) m v x.1 x.2 steps)
      (r' >>= fun x => walk (f.env m') m' v x.1 x.2 steps) := by
  refine hstep.bind fun x y hx hxy => ?_
  rw [onward_ok hx] at hreads
  obtain ⟨here, c⟩ := x
  obtain ⟨_, c'⟩ := y
  obtain ⟨rfl, hat⟩ := hxy
  exact hrest _ c c' ⟨rfl, hat⟩ hreads

mutual

theorem evalExpr_apart (h : DiffersAt place m m') (hm : AllShaped f.types.graph m) :
    (e : Expr) → (∀ here ∈ readIn f m e, here.same place = false) →
      Like (fun v v' => v' = v) (evalExpr (f.env m) e) (evalExpr (f.env m') e)
  | .literal kind word, _ => by
    rw [evalExpr, evalExpr]
    exact .same _
  | .access name path, hreads => by
    rw [readIn] at hreads
    rw [evalExpr, evalExpr]
    dsimp only [Frame.env]
    rcases hc : m.stackCell? name.text with _ | c
    · exact .error _
    · obtain ⟨c', hc', hstanding⟩ := standing_stack h hc
      rw [hc] at hreads
      rw [hc']
      refine (walk_apart h hm ⟨name, path⟩ path _ c c' hstanding
        fun here hmem => hreads here (List.mem_append_left _ hmem)).bind fun x y hx hxy => ?_
      refine leafValue_apart h hxy (hreads x.1 (List.mem_append_right _ ?_))
      rw [onward_ok hx]
      exact List.mem_cons_self
  | .unary op operand, hreads => by
    rw [evalExpr, evalExpr]
    refine (evalExpr_apart h hm operand hreads).bind fun v v' _ hv => ?_
    rw [hv]
    exact .same _
  | .binary left op right, hreads => by
    rw [readIn] at hreads
    rw [evalExpr, evalExpr]
    refine (evalExpr_apart h hm left fun here hmem => hreads here (List.mem_append_left _ hmem)).bind
      fun v v' hleft hv => ?_
    rw [onward_ok hleft] at hreads
    rw [hv]
    split
    · exact rfl
    · rename_i hsettled
      rw [hsettled] at hreads
      refine (evalExpr_apart h hm right fun here hmem =>
        hreads here (List.mem_append_right _ hmem)).bind fun w w' _ hw => ?_
      rw [hw]
      exact .same _
  | .lazy body, _ => by
    rw [evalExpr, evalExpr]
    exact rfl
  | .stray line text kind, _ => by
    rw [evalExpr, evalExpr]
    exact .error _

theorem evalAll_apart (h : DiffersAt place m m') (hm : AllShaped f.types.graph m) :
    (es : List Expr) → (∀ here ∈ readInAll f m es, here.same place = false) →
      Like (fun vs vs' => vs' = vs) (evalAll (f.env m) es) (evalAll (f.env m') es)
  | [], _ => by
    rw [evalAll, evalAll]
    exact rfl
  | e :: es, hreads => by
    rw [readInAll] at hreads
    rw [evalAll, evalAll]
    refine (evalExpr_apart h hm e fun here hmem => hreads here (List.mem_append_left _ hmem)).bind
      fun v v' he hv => ?_
    rw [onward_ok he] at hreads
    refine (evalAll_apart h hm es fun here hmem => hreads here (List.mem_append_right _ hmem)).bind
      fun vs vs' _ hvs => ?_
    rw [hv, hvs]
    exact rfl

theorem walk_apart (h : DiffersAt place m m') (hm : AllShaped f.types.graph m) (v : Variable) :
    (steps : List Step) → (here : Location) → (c c' : Cell) → Standing m m' (here, c) (here, c') →
      (∀ there ∈ passedIn f m v here c steps, there.same place = false) →
      Like (Standing m m') (walk (f.env m) m v here c steps) (walk (f.env m') m' v here c' steps)
  | [], here, c, c', hc, _ => by
    rw [walk, walk]
    exact hc
  | .deref :: steps, here, c, c', hc, hreads => by
    rw [passedIn] at hreads
    rw [walk, walk]
    exact walk_on (follow_apart h hm (hreads here List.mem_cons_self) hc v)
      (fun there hmem => hreads there (List.mem_cons_of_mem _ hmem)) (walk_apart h hm v steps)
  | .index indexes :: steps, here, c, c', hc, hreads => by
    rw [passedIn] at hreads
    rw [walk, walk]
    refine .ite (by rw [hc.type h]; exact Iff.rfl) (.error _) (.ite Iff.rfl (.error _) ?_)
    refine (evalAll_apart h hm indexes fun there hmem => hreads there (List.mem_append_left _ hmem)).bind
      fun values values' hvalues heq => ?_
    rw [onward_ok hvalues] at hreads
    rw [heq]
    exact walk_on (element_apart h hc values)
      (fun there hmem => hreads there (List.mem_append_right _ hmem)) (walk_apart h hm v steps)
  | .field name :: steps, here, c, c', hc, hreads => by
    rw [passedIn] at hreads
    rw [walk, walk]
    exact walk_on (member_apart h hc v name) hreads (walk_apart h hm v steps)

end

theorem locate_apart (h : DiffersAt place m m') (hm : AllShaped f.types.graph m) (w : Variable)
    (hreads : ∀ here ∈ passed f m w, here.same place = false) :
    Like (Standing m m') (locate (f.env m) m w) (locate (f.env m') m' w) := by
  unfold locate
  rcases hc : m.stackCell? w.name.text with _ | c
  · exact .error _
  · obtain ⟨c', hc', hstanding⟩ := standing_stack h hc
    rw [passed, hc] at hreads
    rw [hc']
    exact walk_apart h hm w w.path _ c c' hstanding hreads

theorem readVariable_eq (f : Frame) (w : Variable) (m : Memory) :
    (readVariable f w m).1 = locate (f.env m) m w >>= fun x => leafValue x.2 := by
  rw [readVariable, bind_apply, find_apply]
  cases locate (f.env m) m w <;> rfl

theorem readVariable_after (h : DiffersAt place m m') (hm : AllShaped f.types.graph m) {a : Memory.Address}
    {t : Types.TypeId} {value : Value} (hat : m'.cellAt? place = some (.leaf a t value)) {w : Variable}
    {before : Value} (hread : (readVariable f w m).1 = .ok before)
    (hreads : ∀ here ∈ passed f m w, here.same place = false) :
    ∃ here c c', locate (f.env m) m w = .ok (here, c) ∧ locate (f.env m') m' w = .ok (here, c') ∧
      (readVariable f w m').1 = .ok (if here.same place then value else before) := by
  have hsame := locate_apart h hm w hreads
  rw [readVariable_eq] at hread ⊢
  obtain ⟨⟨here, c⟩, hc, hread⟩ := except_bind_ok hread
  obtain ⟨b, u, hleaf⟩ := leafValue_ok hread
  dsimp only at hleaf
  subst hleaf
  rw [hc] at hsame
  rcases hc' : locate (f.env m') m' w with e | ⟨here', c'⟩
  · rw [hc'] at hsame
    exact hsame.elim
  rw [hc'] at hsame
  obtain ⟨rfl, hbefore, hafter⟩ := hsame
  refine ⟨here', _, c', hc, rfl, ?_⟩
  rw [except_ok_bind]
  cases hplace : here'.same place with
  | true =>
    rw [Memory.cellAt?_same hplace, hat] at hafter
    cases hafter
    rfl
  | false =>
    cases (h.leaf hplace hbefore).symm.trans hafter
    rfl

end Reading

/-- A value that is written. The variable leads to a leaf, which has the new value afterwards; every other
leaf has the value it had. Without their values the memory before and the memory after are the same: names,
addresses, types and shapes in their order, and the next free numbers. And a variable that has a value, and
whose cell is found without reading the leaf on the way, leads to the same place afterwards; there it has the
new value if this is where it was written, and otherwise the value it had. -/
theorem assignment_changes_one_leaf {types : Types} {m m' : Memory} (harises : Session.Arises types m)
    (limits : Types.Limits) (indexing : Bool) {v : Variable} {value : Value}
    (hwrites : writeVariable ⟨types, limits, indexing⟩ v value m = (.ok (), m')) :
    let f : Frame := ⟨types, limits, indexing⟩
    ∃ place a t old, locate (f.env m) m v = .ok (place, .leaf a t old) ∧
      m.cellAt? place = some (.leaf a t old) ∧ m'.cellAt? place = some (.leaf a t value) ∧
      (∀ here, here.same place = false → ∀ b u w,
        m'.cellAt? here = some (.leaf b u w) ↔ m.cellAt? here = some (.leaf b u w)) ∧
      m'.blank = m.blank ∧ m'.Distinct ∧
      ∀ w before, (readVariable f w m).1 = .ok before →
        (∀ here ∈ passed f m w, here.same place = false) →
        ∃ here c c', locate (f.env m) m w = .ok (here, c) ∧ locate (f.env m') m' w = .ok (here, c') ∧
          (readVariable f w m').1 = .ok (if here.same place then value else before) := by
  intro f
  have hbuilt := harises.wellBuilt
  obtain ⟨place, a, t, old, hlocate, -, rfl⟩ := writeVariable_ok hwrites
  have hat := locate_cellAt? hlocate
  have hdiffers := Memory.differsAt_write m place value
  refine ⟨place, a, t, old, hlocate, hat, Memory.cellAt?_write_self hat,
    fun here hne b u w => hdiffers.leaf_iff hne, hdiffers.blank, hbuilt.distinct.write,
    fun w before hread hreads => ?_⟩
  exact readVariable_after hdiffers hbuilt.shaped (Memory.cellAt?_write_self hat) hread hreads

/-- An array whose elements are found through an element, and through a pointer. -/
def indexedArray : String :=
  "var a: array [2] of int\nvar p: pointer of int\nalloc(p)\n*p := 1\na[0] := 1\n"

def entryAt (index : Expr) : Variable := ⟨⟨"a", 1⟩, [.index [index]]⟩

def firstEntry : Variable := entryAt (.literal .integer ⟨"0", 1⟩)

def pointedEntry : Variable := entryAt (.access ⟨"p", 1⟩ [.deref])

/-- Whether a variable has a value that is found in a place, after reading others on the way. -/
def comesTo (f : Frame) (m : Memory) (v : Variable) (place : Location) (reads : List Location) : Bool :=
  (readVariable f v m).1.toOption.isSome && passed f m v == reads &&
    (locate (f.env m) m v).toOption.map (·.1) == some place

theorem of_comesTo {f : Frame} {m : Memory} {v : Variable} {place : Location} {reads : List Location}
    (h : comesTo f m v place reads = true) : (∃ before, (readVariable f v m).1 = .ok before) ∧
      passed f m v = reads ∧ ∀ here c, locate (f.env m) m v = .ok (here, c) → here = place := by
  simp only [comesTo, Bool.and_eq_true, beq_iff_eq] at h
  obtain ⟨⟨hread, hpassed⟩, hplace⟩ := h
  refine ⟨?_, hpassed, fun here c hc => ?_⟩
  · rcases hbefore : (readVariable f v m).1 with e | before
    · rw [hbefore] at hread
      cases hread
    · exact ⟨before, rfl⟩
  · rw [hc] at hplace
    exact Option.some.inj hplace

theorem indexedArray_routes :
    Session.leadsTo indexedArray 5 (fun types m =>
      let f : Frame := ⟨types, {}, true⟩
      passes (writeVariable f (entryAt firstEntry.toExpr) (.int 7)) m (fun _ _ => true) &&
        comesTo f m (entryAt firstEntry.toExpr) ⟨.stack "a", [1]⟩ [⟨.stack "a", [0]⟩] &&
        comesTo f m pointedEntry ⟨.stack "a", [1]⟩ [⟨.stack "p", []⟩, ⟨.heap ⟨.heap, 0⟩, []⟩] &&
        comesTo f m firstEntry ⟨.stack "a", [0]⟩ []) = true := by
  decide +kernel

theorem indexedArray_assigned :
    ∃ types m m', Session.Arises types m ∧
      let f : Frame := ⟨types, {}, true⟩
      writeVariable f (entryAt firstEntry.toExpr) (.int 7) m = (.ok (), m') ∧
        (readVariable f pointedEntry m').1 = .ok (.int 7) ∧
        ∃ before, (readVariable f firstEntry m).1 = .ok before ∧
          (readVariable f firstEntry m').1 = .ok before := by
  obtain ⟨types, m, harises, hcheck⟩ := Session.of_leadsTo indexedArray_routes
  simp only [Bool.and_eq_true] at hcheck
  obtain ⟨⟨⟨hwrites, hentry⟩, hpointed⟩, hfirst⟩ := hcheck
  obtain ⟨⟨⟩, m', hwrites, -⟩ := of_passes hwrites
  obtain ⟨-, -, hplace⟩ := of_comesTo hentry
  obtain ⟨⟨old, hold⟩, hway, hend⟩ := of_comesTo hpointed
  obtain ⟨⟨before, hbefore⟩, hway', hend'⟩ := of_comesTo hfirst
  obtain ⟨place, a, t, _, hlocate, -, -, -, -, -, hreads⟩ :=
    assignment_changes_one_leaf harises {} true hwrites
  obtain rfl := hplace place _ hlocate
  refine ⟨types, m, m', harises, hwrites, ?_, before, hbefore, ?_⟩
  · obtain ⟨here, c, c', hc, -, hafter⟩ := hreads pointedEntry old hold (by rw [hway]; decide)
    rw [hafter, hend here c hc]
    rfl
  · obtain ⟨here, c, c', hc, -, hafter⟩ := hreads firstEntry before hbefore (by rw [hway']; decide)
    rw [hafter, hend' here c hc]
    rfl

end Chalkboard.Run
