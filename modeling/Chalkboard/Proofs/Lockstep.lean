import Chalkboard.Proofs.CompleteTypes
import Chalkboard.Proofs.Dangling
import Chalkboard.Proofs.Nesting
import Chalkboard.Proofs.SideBySide

/-! Runs over kept types go in step. Two memories stand beside each other: the second has the cells of the
first, and it may have further variables, which the first knows nothing of. An expression has the same value
beside as here, a variable leads to the same place, and a sentence that is performed on both leaves them
beside each other. -/

namespace Chalkboard.Run

open Effects
open Syntax (Expr Step Variable Sentence Action Item)
open Chalkboard.Types (TypeId Graph)
open Memory (MemoryM Address Cell Location Shaped)

/-- Two frames, of which the second keeps the types of the first and knows the same constants. -/
structure Parallel (f f' : Frame) : Prop where
  sound : f.types.graph.Sound
  keeps : f.types.graph.Keeps f'.types.graph
  limits : f'.limits = f.limits
  indexing : f'.indexing = f.indexing
  constant (text : String) : f'.types.registry.constant text = f.types.registry.constant text

/-- A memory that stands beside another: it has the variables of the other and then some more, and the same
blocks. -/
structure Beside (f : Frame) (extra : List (String × Cell)) (shift : Int) (m m' : Memory) : Prop where
  stack : m'.stack = m.stack ++ extra
  heap : m'.heap = m.heap
  nextHeap : m'.nextHeap = m.nextHeap
  nextStack : m'.nextStack = m.nextStack + shift
  fresh : ∀ e ∈ extra, ∀ d ∈ m.stack, d.1 ≠ e.1
  room : Types.exceeds f.limits.stackCells m.stackCount = false →
    Types.exceeds f.limits.stackCells m'.stackCount = false
  built : Built f.types.graph f.types.graph.Complete m

/-- What a variable leads to, here and beside. -/
def Found (f : Frame) (extra : List (String × Cell)) (x y : Location × Cell) : Prop :=
  y = x ∧ (Shaped f.types.graph x.2.type x.2 ∧ f.types.graph.Complete x.2.type) ∧
    ∀ e ∈ extra, x.1.root ≠ .stack e.1

section Beside

variable {f f' : Frame} {extra : List (String × Cell)} {shift : Int} {m m' : Memory}

theorem Beside.stackCell? (h : Beside f extra shift m m') {name : String} {c : Cell}
    (hc : m.stackCell? name = some c) : m'.stackCell? name = some c := by
  rw [Memory.stackCell?] at hc
  rw [Memory.stackCell?, h.stack, List.lookup_append, hc]
  rfl

theorem Beside.heapCell? (h : Beside f extra shift m m') (a : Address) : m'.heapCell? a = m.heapCell? a := by
  rw [Memory.heapCell?, Memory.heapCell?, h.heap]

theorem Beside.found (h : Beside f extra shift m m') {name : String} {c : Cell}
    (hc : m.stackCell? name = some c) : Found f extra (⟨.stack name, []⟩, c) (⟨.stack name, []⟩, c) := by
  have hmem := Memory.mem_of_stackCell? hc
  refine ⟨rfl, h.built c (.inl ⟨name, hmem⟩), fun e he hroot => ?_⟩
  cases hroot
  exact h.fresh e he _ hmem rfl

theorem Beside.write (h : Beside f extra shift m m') {here : Location}
    (hroot : ∀ e ∈ extra, here.root ≠ .stack e.1) (v : Value) :
    Beside f extra shift (m.write here v) (m'.write here v) where
  stack := by
    unfold Memory.write
    split
    · rename_i name hname
      change List.map _ m'.stack = List.map _ m.stack ++ extra
      rw [h.stack, List.map_append]
      congr 1
      refine (List.map_congr_left (g := id) fun entry hentry => ?_).trans (List.map_id extra)
      have hne : entry.1 ≠ name := fun heq => hroot entry hentry (by rw [hname, heq])
      exact Prod.ext rfl (if_neg (by simpa using hne))
    · exact h.stack
  heap := by
    unfold Memory.write
    split
    · exact h.heap
    · change List.map _ m'.heap = List.map _ m.heap
      rw [h.heap]
  nextHeap := by rw [Memory.write_nextHeap, Memory.write_nextHeap, h.nextHeap]
  nextStack := by rw [Memory.write_nextStack, Memory.write_nextStack, h.nextStack]
  fresh := by
    intro e he d hd
    have hname : d.1 ∈ (m.write here v).stack.map (·.1) := List.mem_map_of_mem hd
    rw [Memory.write_names] at hname
    obtain ⟨d', hd', hname'⟩ := List.mem_map.1 hname
    exact hname' ▸ h.fresh e he d' hd'
  room := by
    rw [Memory.stackCount_write, Memory.stackCount_write]
    exact h.room
  built := h.built.write here v

theorem Beside.setHeap (h : Beside f extra shift m m') (n : Int) :
    Beside f extra shift (m.setNext .heap n) (m'.setNext .heap n) :=
  { h with nextHeap := rfl, built := Each.setNext h.built .heap n }

theorem Beside.enter (h : Beside f extra shift m m') (a : Address) {c : Cell}
    (hc : Shaped f.types.graph c.type c) (ht : f.types.graph.Complete c.type) :
    Beside f extra shift { m with heap := Memory.enter a c m.heap }
      { m' with heap := Memory.enter a c m'.heap } :=
  { h with
    heap := by rw [h.heap]
    built := Each.enter h.built a ⟨hc, ht⟩ }

theorem Beside.erase (h : Beside f extra shift m m') (a : Address) :
    Beside f extra shift (m.erase a) (m'.erase a) :=
  { h with
    heap := by
      change List.filter _ m'.heap = List.filter _ m.heap
      rw [h.heap]
    built := Each.erase h.built a }

theorem Beside.checkLimits (h : Beside f extra shift m m') :
    Like (fun _ _ => True) (m.checkLimits f.limits) (m'.checkLimits f.limits) := by
  unfold Memory.checkLimits
  rw [Memory.heapCount, Memory.heapCount, h.heap]
  rcases hstack : Types.exceeds f.limits.stackCells m.stackCount with _ | _
  · rw [h.room hstack]
    split
    · exact .error _
    · trivial
  · exact .error _

end Beside

section Eval

variable {f f' : Frame} {extra : List (String × Cell)} {shift : Int} {m m' : Memory} {here : Location} {c : Cell}

theorem follow_like (h : Parallel f f') (hm : Beside f extra shift m m')
    (hc : Shaped f.types.graph c.type c ∧ f.types.graph.Complete c.type) (v : Variable) :
    Like (Found f extra) (follow f.types.graph m v c)
      (follow f'.types.graph m' v c) := by
  unfold follow
  rw [h.keeps.isPointer_eq hc.2]
  by_cases hpointer : f.types.graph.isPointer c.type = true
  · obtain ⟨a, t, value, rfl⟩ := hc.1.leaf_of_isPointer hpointer
    rw [hpointer, if_neg (by simp), if_neg (by simp), Cell.value, Cell.value, except_ok_bind, except_ok_bind]
    generalize liftMisuse value.plain = shown
    cases value with
    | address b =>
      dsimp only
      rw [hm.heapCell? b]
      rcases hblock : m.heapCell? b with _ | block
      · exact .error _
      · obtain ⟨b', hmem, -⟩ := Memory.mem_of_heapCell? hblock
        exact ⟨rfl, hm.built block (.inr ⟨b', hmem⟩), fun _ _ => nofun⟩
    | _ => exact .after fun _ _ => .error _
  · rw [Bool.eq_false_iff.2 hpointer]
    exact .error _

theorem Found.part (h : Found f extra (here, c) (here, c)) {i : Nat} {part : Cell}
    (hpart : c.part? i = some part) :
    Found f extra (⟨here.root, here.path ++ [i]⟩, part) (⟨here.root, here.path ++ [i]⟩, part) := by
  obtain ⟨-, ⟨hshaped, ht⟩, hroot⟩ := h
  obtain ⟨u, hu, hpart⟩ := hshaped.part hpart
  have htype : part.type = u := hpart.type_eq
  exact ⟨rfl, ⟨htype ▸ hpart, htype ▸ Graph.complete_heritable.inside ht hu⟩, hroot⟩

theorem element_like (h : Parallel f f') (hc : Found f extra (here, c) (here, c)) (indexes : List Value) :
    Like (Found f extra) (element f.types.graph here c indexes) (element f'.types.graph here c indexes) := by
  have ht : f.types.graph.Complete c.type := hc.2.1.2
  unfold element
  rw [h.keeps.node ht]
  split
  · refine .after fun flat _ => .after fun i _ => ?_
    rcases hpart : c.part? i with _ | part
    · exact .error _
    · exact hc.part hpart
  · exact .error _

theorem member_like (hc : Found f extra (here, c) (here, c)) (v : Variable) (field : String) :
    Like (Found f extra) (member f.types.graph v here c field) (member f'.types.graph v here c field) := by
  -- what is no tuple has no fields, and the message shows the cell and its type
  have hother {r : Except Fault (Location × Cell)} : Like (Found f extra)
      (do throw (.memory (.notTuple v.text (← c.display f.types.graph) (← f.types.graph.text c.type) field)))
      r := by
    cases c.display f.types.graph with
    | error e => exact .error _
    | ok shown => cases f.types.graph.text c.type <;> exact .error _
  unfold member
  cases c with
  | leaf a t value => exact hother
  | array t parts => exact hother
  | tuple t parts =>
    dsimp only
    rcases hi : parts.findIdx? fun x => x.1 == field with _ | i
    · rw [hi]
      exact .error _
    · have hlt : i < parts.length := (List.findIdx?_eq_some_iff_getElem.1 hi).1
      have hpart : (Cell.tuple t parts).part? i = some (parts[i]).2 := by simp [Cell.part?, hlt]
      rw [hi]
      dsimp only
      rw [hpart]
      exact hc.part hpart

theorem literalValue_like (h : Parallel f f') (kind : Syntax.LiteralKind) (text : String) :
    literalValue f'.types kind text = literalValue f.types kind text := by
  cases kind with
  | enum =>
    unfold literalValue
    rw [h.constant text]
  | _ => rfl

mutual

theorem evalExpr_like (h : Parallel f f') (hm : Beside f extra shift m m') :
    (e : Expr) → Like (fun v v' => v' = v) (evalExpr (f.env m) e) (evalExpr (f'.env m') e)
  | .literal kind word => by
    rw [evalExpr, evalExpr]
    exact (literalValue_like h kind word.text) ▸ .same _
  | .access name path => by
    rw [evalExpr, evalExpr]
    dsimp only [Frame.env]
    rcases hc : m.stackCell? name.text with _ | c
    · exact .error _
    · rw [hm.stackCell? hc]
      refine (walk_like h hm ⟨name, path⟩ path ⟨.stack name.text, []⟩ c (hm.found hc)).bind
        fun x y _ hfound => ?_
      rw [hfound.1]
      exact .same _
  | .unary op operand => by
    rw [evalExpr, evalExpr]
    refine (evalExpr_like h hm operand).bind fun v v' _ hv => ?_
    rw [hv]
    exact .same _
  | .binary left op right => by
    rw [evalExpr, evalExpr]
    refine (evalExpr_like h hm left).bind fun v v' _ hv => ?_
    rw [hv]
    split
    · exact rfl
    · refine (evalExpr_like h hm right).bind fun w w' _ hw => ?_
      rw [hw]
      exact .same _
  | .lazy body => by
    rw [evalExpr, evalExpr]
    exact rfl
  | .stray line text kind => by
    rw [evalExpr, evalExpr]
    exact .error _

theorem evalAll_like (h : Parallel f f') (hm : Beside f extra shift m m') :
    (es : List Expr) → Like (fun vs vs' => vs' = vs) (evalAll (f.env m) es) (evalAll (f'.env m') es)
  | [] => by
    rw [evalAll, evalAll]
    exact rfl
  | e :: es => by
    rw [evalAll, evalAll]
    refine (evalExpr_like h hm e).bind fun v v' _ hv => (evalAll_like h hm es).bind fun vs vs' _ hvs => ?_
    rw [hv, hvs]
    exact rfl

theorem walk_like (h : Parallel f f') (hm : Beside f extra shift m m') (v : Variable) :
    (steps : List Step) → (here : Location) → (c : Cell) →
      Found f extra (here, c) (here, c) →
      Like (Found f extra) (walk (f.env m) m v here c steps)
        (walk (f'.env m') m' v here c steps)
  | [], here, c, hc => by
    rw [walk, walk]
    exact hc
  | .deref :: steps, here, c, hc => by
    rw [walk, walk]
    refine (follow_like h hm hc.2.1 v).bind fun x y _ hfound => ?_
    obtain ⟨rfl, hrest⟩ := hfound
    exact walk_like h hm v steps y.1 y.2 ⟨rfl, hrest⟩
  | .index indexes :: steps, here, c, hc => by
    have harray : isArray (f'.env m').types.graph c.type = isArray (f.env m).types.graph c.type := by
      dsimp only [Frame.env]
      rw [isArray, isArray, h.keeps.node hc.2.1.2]
    have hindexing : (f'.env m').indexing = (f.env m).indexing := h.indexing
    rw [walk, walk]
    refine .ite (by rw [harray]) (.error _) (.ite (by rw [hindexing]) (.error _) ?_)
    refine (evalAll_like h hm indexes).bind fun values values' _ hvalues => ?_
    rw [hvalues]
    refine (element_like h hc values).bind fun x y _ hfound => ?_
    obtain ⟨rfl, hrest⟩ := hfound
    exact walk_like h hm v steps y.1 y.2 ⟨rfl, hrest⟩
  | .field name :: steps, here, c, hc => by
    rw [walk, walk]
    refine (member_like hc v name).bind fun x y _ hfound => ?_
    obtain ⟨rfl, hrest⟩ := hfound
    exact walk_like h hm v steps y.1 y.2 ⟨rfl, hrest⟩

end

theorem locate_like (h : Parallel f f') (hm : Beside f extra shift m m') (v : Variable) :
    Like (Found f extra) (locate (f.env m) m v) (locate (f'.env m') m' v) := by
  unfold locate
  rcases hc : m.stackCell? v.name.text with _ | c
  · exact .error _
  · rw [hm.stackCell? hc]
    exact walk_like h hm v v.path _ c (hm.found hc)

end Eval

section Store

variable {f f' : Frame} {extra : List (String × Cell)} {shift : Int}

theorem Beside.allocated {g : Graph} {p : Memory.Partition} {t : TypeId} {m m' : Memory}
    (hnext : m'.next p = m.next p)
    (hset : ∀ n, Beside f extra shift (m.setNext p n) (m'.setNext p n)) :
    Together (Beside f extra shift) (fun c c' => c' = c) (Memory.allocate g p t m)
      (Memory.allocate g p t m') := by
  obtain ⟨hresult, n, hm, hm'⟩ := Memory.allocate_moved g t hnext
  rcases hmade : Memory.allocate g p t m with ⟨e | c, m₁⟩
  · exact .error e m₁
  rcases hmade' : Memory.allocate g p t m' with ⟨e | c', m₁'⟩ <;> rw [hmade, hmade'] at hresult
  · cases hresult
  · cases hresult
    rw [hmade] at hm
    rw [hmade'] at hm'
    subst hm hm'
    exact ⟨rfl, hset n⟩

theorem find_tracks (h : Parallel f f') (v : Variable) :
    Tracks (Beside f extra shift) (Found f extra) (find f v) (find f' v) :=
  fun _ _ hm => .of_like (locate_like h hm v) hm

theorem readVariable_tracks (h : Parallel f f') (v : Variable) :
    Tracks (Beside f extra shift) (fun a b => b = a) (readVariable f v) (readVariable f' v) :=
  (find_tracks h v).bind fun x y hfound => by
    rw [hfound.1]
    exact .lift (.same _)

theorem writeVariable_tracks (h : Parallel f f') (v : Variable) (value : Value) :
    Tracks (Beside f extra shift) (fun _ _ => True) (writeVariable f v value)
      (writeVariable f' v value) := by
  refine (find_tracks h v).bind fun x y hfound => ?_
  obtain ⟨rfl, ⟨-, ht⟩, hroot⟩ := hfound
  obtain ⟨place, c⟩ := y
  cases c with
  | tuple t parts => exact .throw _
  | array t parts => exact .throw _
  | leaf a t old =>
    have hadmits : f'.types.graph.admits t value = f.types.graph.admits t value := h.keeps.admits_eq ht value
    dsimp only
    rw [hadmits]
    refine .after fun fits _ => ?_
    cases fits with
    | true => exact .modify fun m m' hm => hm.write hroot value
    | false => exact .of_fails (bind_fails fun _ => bind_fails fun _ m => ⟨_, m, rfl⟩)

/-- A pointer and the block that is made for it, here and beside. -/
def Reserved (f : Frame) (extra : List (String × Cell)) (x y : Location × Address × Cell) : Prop :=
  y = x ∧ (Shaped f.types.graph x.2.2.type x.2.2 ∧ f.types.graph.Complete x.2.2.type) ∧
    ∀ e ∈ extra, x.1.root ≠ .stack e.1

def blockFor (f : Frame) (v : Variable) (place : Location) (t : TypeId) :
    MemoryM (Location × Address × Cell) := do
  let g := f.types.graph
  match g.node (← g.closure t) with
  | .pointer (.settled target) =>
    let block ← Memory.allocate g .heap (← g.closure target)
    return (place, ← block.address, block)
  | .pointer (.deferred ..) => throw (.misuse .missingPart)
  | _ => throw (.typing (.allocNotPointer v.text))

theorem reserve_eq (v : Variable) : reserve f v = find f v >>= fun x => blockFor f v x.1 x.2.type := rfl

theorem blockFor_tracks (h : Parallel f f') (v : Variable) {place : Location} {t : TypeId}
    (ht : f.types.graph.Complete t) (hroot : ∀ e ∈ extra, place.root ≠ .stack e.1) :
    Tracks (Beside f extra shift) (Reserved f extra) (blockFor f v place t) (blockFor f' v place t) := by
  unfold blockFor
  dsimp only
  rw [h.keeps.closure_eq ht]
  refine .after fun u hu => ?_
  have hu' := ht.closure hu
  rw [h.keeps.node hu']
  split
  · rename_i target hnode
    have htarget : f.types.graph.Complete target := hu'.link (by rw [hnode]; exact List.mem_cons_self)
    rw [h.keeps.closure_eq htarget]
    refine .after fun w hw => ?_
    have hcomplete := htarget.closure hw
    rw [Memory.allocate_kept h.keeps hcomplete]
    intro m m' hm
    have hnext : m'.next .heap = m.next .heap := hm.nextHeap
    refine (Beside.allocated hnext fun n => hm.setHeap n).bind fun c c' m₁ m₁' hc hc' hm₁ => ?_
    obtain ⟨htype, hlaid, -⟩ := Memory.allocate_lays h.sound .heap w m c m₁ hc
    subst hc'
    refine Tracks.after (fun a _ => .pure ⟨rfl, ⟨hlaid.shaped, ?_⟩, hroot⟩) m₁ m₁' hm₁
    exact htype ▸ hcomplete
  · exact .throw _
  · exact .throw _

theorem reserve_tracks (h : Parallel f f') (v : Variable) :
    Tracks (Beside f extra shift) (Reserved f extra) (reserve f v)
      (reserve f' v) := by
  rw [reserve_eq, reserve_eq]
  refine (find_tracks h v).bind fun x y hfound => ?_
  obtain ⟨rfl, ⟨-, ht⟩, hroot⟩ := hfound
  exact blockFor_tracks h v ht hroot

theorem alloc_tracks (h : Parallel f f') (v : Variable) :
    Tracks (Beside f extra shift) (fun _ _ => True) (alloc f v) (alloc f' v) := by
  refine (reserve_tracks h v).bind fun x y hreserved => ?_
  obtain ⟨rfl, ⟨hshaped, ht⟩, hroot⟩ := hreserved
  refine (Tracks.modify fun m m' hm => hm.write hroot _).bind fun _ _ _ => ?_
  refine (Tracks.modify fun m m' hm => hm.enter _ hshaped ht).bind fun _ _ _ => ?_
  refine .get_bind fun m m' hm => ?_
  rw [h.limits]
  exact .of_like hm.checkLimits hm

theorem pointed_tracks (h : Parallel f f') (v : Variable) :
    Tracks (Beside f extra shift)
      (fun x y => y = x ∧ ∀ e ∈ extra, x.1.root ≠ .stack e.1) (pointed f v) (pointed f' v) := by
  refine (find_tracks h v).bind fun x y hfound => ?_
  obtain ⟨rfl, ⟨hshaped, ht⟩, hroot⟩ := hfound
  dsimp only
  rw [h.keeps.isPointer_eq ht]
  by_cases hpointer : f.types.graph.isPointer y.2.type = true
  · obtain ⟨place, c⟩ := y
    obtain ⟨a, t, value, rfl⟩ := hshaped.leaf_of_isPointer hpointer
    rw [hpointer, if_neg (by simp), if_neg (by simp), Cell.value, Cell.value]
    refine .after fun value' hvalue => ?_
    cases hvalue
    generalize liftMisuse value.plain = shown
    cases value with
    | address b =>
      refine .get_bind fun m m' hm => ?_
      rw [hm.heapCell? b]
      split
      · exact .error _ _
      · exact ⟨⟨rfl, hroot⟩, hm⟩
    | _ => exact .after fun _ _ => .throw _
  · rw [Bool.eq_false_iff.2 hpointer]
    exact .throw _

theorem free_tracks (h : Parallel f f') (v : Variable) :
    Tracks (Beside f extra shift) (fun _ _ => True) (free f v) (free f' v) := by
  refine (pointed_tracks h v).bind fun x y hpointed => ?_
  obtain ⟨rfl, hroot⟩ := hpointed
  exact .modify fun m m' hm => (hm.erase _).write hroot _

end Store

section Declare

variable {f f' : Frame} {m m' : Memory}

theorem Beside.push (h : Beside f [] 0 m m') (name : String) {c : Cell}
    (hc : Shaped f.types.graph c.type c) (ht : f.types.graph.Complete c.type) :
    Beside f [] 0 { m with stack := m.stack ++ [(name, c)] } { m' with stack := m'.stack ++ [(name, c)] } := by
  have hstack : m'.stack ++ [(name, c)] = m.stack ++ [(name, c)] ++ [] := by
    rw [h.stack, List.append_nil, List.append_nil]
  refine { h with stack := hstack, fresh := nofun, room := fun hroom => ?_, built := Each.push h.built name ⟨hc, ht⟩ }
  rw [Memory.stackCount, hstack, List.append_nil]
  exact hroom

theorem Beside.setStack (h : Beside f [] 0 m m') (n : Int) :
    Beside f [] 0 (m.setNext .stack n) (m'.setNext .stack n) :=
  { h with nextStack := (Int.add_zero n).symm, built := Each.setNext h.built .stack n }

theorem put_together (h : Parallel f f') (hm : Beside f [] 0 m m') (name : String) {t : TypeId}
    (ht : f.types.graph.Complete t) :
    Together (Beside f [] 0) (fun _ _ => True) (put f name t m) (put f' name t m') := by
  have hold : m'.stackCell? name = m.stackCell? name := by
    rw [Memory.stackCell?, Memory.stackCell?, hm.stack, List.append_nil]
  rw [put_apply, put_apply, hold, Memory.allocate_kept h.keeps ht]
  split
  · exact .error _ _
  have hnext : m'.next .stack = m.next .stack := by
    rw [Memory.next, Memory.next, hm.nextStack, Int.add_zero]
  refine (Beside.allocated hnext fun n => hm.setStack n).bind fun c c' m₁ m₁' hc hc' hm₁ => ?_
  obtain ⟨htype, hlaid, -⟩ := Memory.allocate_lays h.sound .stack t m c m₁ hc
  subst hc'
  exact ⟨trivial, hm₁.push name hlaid.shaped (htype ▸ ht)⟩

theorem declare_together (h : Parallel f f') (hm : Beside f [] 0 m m') {d : Syntax.Declaration}
    (ht : f.types.graph.Complete d.type) :
    Together (Beside f [] 0) (fun _ _ => True) (Memory.declare f.types.graph f.limits d.name d.type m)
      (Memory.declare f'.types.graph f'.limits d.name d.type m') := by
  rw [declare_eq, declare_eq]
  refine (put_together h hm d.name ht).bind fun _ _ m₁ m₁' _ _ hm₁ => .of_like ?_ hm₁
  dsimp only [checks]
  rw [h.limits]
  rcases hcheck : f.types.graph.checkLimits f.limits d.type with e | _
  · exact .error _
  · rw [h.keeps.checkLimits_ok ht hcheck]
    exact hm₁.checkLimits

end Declare

/-- Where a link leads when places are renumbered and the end becomes an exit. -/
def rerouted (ρ : Nat → Nat) (exit : Option Nat) : Option Nat → Option Nat
  | none => exit
  | some place => some (ρ place)

theorem rerouted_end (ρ : Nat → Nat) (link : Option Nat) : rerouted ρ none link = link.map ρ := by
  cases link <;> rfl

/-- An entry whose links are those of another, renumbered. -/
structure Rerouted (ρ : Nat → Nat) (exit : Option Nat) (item item' : Item) : Prop where
  next : item'.next = rerouted ρ exit item.next
  inner : item'.inner = item.inner.map ρ
  other : item'.other = item.other.map ρ
  enters : item.action.isLoop = true → item'.inner = rerouted ρ exit item.inner

/-- Situations with one memory beside the other, and the same loops in progress. -/
structure Near (f : Frame) (extra : List (String × Cell)) (shift : Int) (ρ : Nat → Nat)
    (s s' : Situation) : Prop where
  memory : Beside f extra shift s.memory s'.memory
  looping : s'.looping = s.looping.map ρ

section Step

variable {f f' : Frame} {extra : List (String × Cell)} {shift : Int} {ρ : Nat → Nat} {exit : Option Nat} {α β : Type}

variable {Q : α → β → Prop} {work : MemoryM α} {work' : MemoryM β}

theorem onMemory_together {s s' : Situation}
    (hs : Near f extra shift ρ s s')
    (h : Together (Beside f extra shift) Q (work s.memory) (work' s'.memory)) :
    Together (Near f extra shift ρ) Q (onMemory work s) (onMemory work' s') := by
  unfold onMemory
  rcases hwork : work s.memory with ⟨e | a, m⟩
  · exact .error e _
  rcases hwork' : work' s'.memory with ⟨_ | b, m'⟩ <;> rw [hwork, hwork'] at h
  · exact h
  · exact ⟨h.1, h.2, hs.looping⟩

theorem onMemory_tracks
    (h : Tracks (Beside f extra shift) Q work work') :
    Tracks (Near f extra shift ρ) Q (onMemory work) (onMemory work') :=
  fun s s' hs => onMemory_together hs (h s.memory s'.memory hs.memory)

theorem evaluate_tracks (h : Parallel f f') (e : Expr) :
    Tracks (Near f extra shift ρ) (fun v v' => v' = v) (evaluate f e) (evaluate f' e) := by
  refine .get_bind fun s s' hs => ?_
  refine (Together.of_like (evalExpr_like h hs.memory e) hs).bind fun v v' s₁ s₁' _ hv hs₁ => ?_
  subst hv
  exact ⟨rfl, hs₁.memory, hs₁.looping⟩

theorem traceOrigin_tracks (v : Variable) (e : Expr) (value : Value) :
    Tracks (Near f extra shift ρ) (fun _ _ => True) (traceOrigin f v e value)
      (traceOrigin f' v e value) := by
  refine .modify fun s s' hs => ?_
  split
  · exact ⟨hs.memory, hs.looping⟩
  · exact hs

theorem filter_map_ne (hρ : Function.Injective ρ) (place : Nat) (loops : List Nat) :
    (loops.map ρ).filter (· != ρ place) = (loops.filter (· != place)).map ρ := by
  rw [List.filter_map]
  refine congrArg _ (List.filter_congr fun q _ => ?_)
  rw [Function.comp_apply, Bool.eq_iff_iff, bne_iff_ne, bne_iff_ne]
  exact hρ.ne_iff

theorem setLooping_tracks (hρ : Function.Injective ρ) (place : Nat) (on : Bool) :
    Tracks (Near f extra shift ρ) (fun _ _ => True) (setLooping place on)
      (setLooping (ρ place) on) := by
  refine .modify fun s s' hs => ⟨hs.memory, ?_⟩
  dsimp only
  rw [hs.looping, filter_map_ne hρ]
  cases on <;> rfl

theorem nextCount_tracks (h : Parallel f f') (hρ : Function.Injective ρ) (place : Nat) (v : Variable)
    (start : Expr) (up : Bool) :
    Tracks (Near f extra shift ρ) (fun v v' => v' = v) (nextCount f place v start up)
      (nextCount f' (ρ place) v start up) := by
  refine .get_bind fun s s' hs => ?_
  have hloop : s'.looping.contains (ρ place) = s.looping.contains place := by
    rw [Bool.eq_iff_iff, List.contains_iff_mem, List.contains_iff_mem, hs.looping,
      List.mem_map_of_injective hρ]
  rw [hloop]
  split
  · refine (onMemory_tracks (readVariable_tracks h v)).bind (fun a b hab => ?_) s s' hs
    rw [hab]
    exact .lift (.same _)
  · exact evaluate_tracks h start s s' hs

theorem perform_tracks (h : Parallel f f') (hρ : Function.Injective ρ) (place : Nat)
    {item item' : Item} (hitem : Rerouted ρ exit item item') {sentence : Sentence}
    (haction : item.action = .perform sentence) :
    Tracks (Near f extra shift ρ) (fun next next' => next' = rerouted ρ exit next)
      (perform f place item sentence) (perform f' (ρ place) item' sentence) := by
  have henters := hitem.enters
  rw [haction] at henters
  cases sentence with
  | skip line => exact .pure hitem.next
  | assign v e =>
    refine (evaluate_tracks h e).bind fun value value' hvalue => ?_
    subst hvalue
    refine (traceOrigin_tracks v e value').bind fun _ _ _ => ?_
    exact (onMemory_tracks (writeVariable_tracks h v value')).bind fun _ _ _ => .pure hitem.next
  | call builtin line v =>
    cases builtin with
    | alloc => exact (onMemory_tracks (alloc_tracks h v)).bind fun _ _ _ => .pure hitem.next
    | free => exact (onMemory_tracks (free_tracks h v)).bind fun _ _ _ => .pure hitem.next
  | branch guard yes no =>
    refine (evaluate_tracks h guard).bind fun value value' hvalue => .pure ?_
    subst hvalue
    rw [hitem.next, hitem.inner, hitem.other]
    cases value'.truthy with
    | true => cases item.inner <;> rfl
    | false => cases item.other <;> rfl
  | loop guard body =>
    refine (evaluate_tracks h guard).bind fun value value' hvalue => ?_
    subst hvalue
    cases value'.truthy with
    | true => exact .pure (henters rfl)
    | false => exact .pure hitem.next
  | count v start stop up body =>
    refine (nextCount_tracks h hρ place v start up).bind fun value value' hvalue => ?_
    subst hvalue
    refine (evaluate_tracks h stop).bind fun last last' hlast => ?_
    subst hlast
    refine .after fun goes _ => ?_
    cases goes with
    | true =>
      refine (onMemory_tracks (writeVariable_tracks h v value')).bind fun _ _ _ => ?_
      exact (setLooping_tracks hρ place true).bind fun _ _ _ => .pure (henters rfl)
    | false => exact (setLooping_tracks hρ place false).bind fun _ _ _ => .pure hitem.next

end Step

end Chalkboard.Run
