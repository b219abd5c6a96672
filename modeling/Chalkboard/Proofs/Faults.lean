import Chalkboard.Proofs.Places
import Chalkboard.Run.Step

/-! Limits are checked in few places. Evaluating an expression, finding a cell, asking what a type admits
and making a cell can fail in many ways, but never because a limit is exceeded. -/

namespace Chalkboard

def Fault.isLimit : Fault → Bool
  | .limit _ => true
  | _ => false

/-- A result that is there, or a fault that is no exceeded limit. -/
abbrev Unlimited {α : Type} (r : Except Fault α) : Prop := Effects.FailsAs (·.isLimit = false) r

theorem liftMisuse_unlimited {α : Type} (x : Except Misuse α) : Unlimited (liftMisuse x) := by
  cases x with
  | error m => exact .error rfl
  | ok a => exact .ok a

end Chalkboard

namespace Chalkboard.Types

open Effects

section Types

variable (g : Graph)

theorem Limit.value_unlimited (l : Limit) : Unlimited l.value := by
  cases l with
  | known v => exact .ok v
  | pending e => exact .error rfl

theorem Axis.length_unlimited (a : Axis) : Unlimited a.length :=
  (Limit.value_unlimited a.high).bind fun _ _ => (Limit.value_unlimited a.low).bind fun _ _ =>
    liftMisuse_unlimited _

theorem Axis.extent_unlimited (a : Axis) : Unlimited a.extent :=
  (Axis.length_unlimited a).bind fun _ _ => (liftMisuse_unlimited _).bind fun _ _ => .ite (.ok _) (.ok _)

theorem shape_unlimited (axes : List Axis) : Unlimited (shape axes) :=
  .mapM fun a _ => Axis.extent_unlimited a

theorem elementCount_unlimited (axes : List Axis) : Unlimited (elementCount axes) := by
  refine (shape_unlimited axes).bind fun lengths hlengths => ?_
  clear hlengths
  generalize Value.int 1 = product
  induction lengths generalizing product with
  | nil => exact .ok product
  | cons n rest ih =>
    rw [List.foldlM_cons]
    exact (liftMisuse_unlimited _).bind fun next _ => ih next

theorem Axis.holds_unlimited (a : Axis) (index : Value) : Unlimited (a.holds index) := by
  refine (Limit.value_unlimited a.low).bind fun _ _ => (liftMisuse_unlimited _).bind fun _ _ => .ite ?_ ?_
  · exact (Limit.value_unlimited a.high).bind fun _ _ => liftMisuse_unlimited _
  · exact .ok false

theorem flattenFrom_unlimited (pairs : List (Value × Axis)) (flat step : Value) :
    Unlimited (flattenFrom flat step pairs) := by
  induction pairs generalizing flat step with
  | nil => exact .ok flat
  | cons pair rest ih =>
    obtain ⟨index, axis⟩ := pair
    rw [flattenFrom]
    refine (Axis.holds_unlimited axis index).bind fun inside _ => ?_
    split
    · exact (liftMisuse_unlimited _).bind fun _ _ => (liftMisuse_unlimited _).bind fun _ _ => .error rfl
    · exact (Limit.value_unlimited _).bind fun _ _ => (liftMisuse_unlimited _).bind fun _ _ =>
        (liftMisuse_unlimited _).bind fun _ _ => (liftMisuse_unlimited _).bind fun _ _ =>
        (Limit.value_unlimited _).bind fun _ _ => (liftMisuse_unlimited _).bind fun _ _ =>
        (liftMisuse_unlimited _).bind fun _ _ => ih _ _

theorem flatten_unlimited (axes : List Axis) (indexes : List Value) :
    Unlimited (flatten axes indexes) := by
  unfold flatten
  refine .ite (.error rfl) (.ite ?_ (flattenFrom_unlimited _ _ _))
  exact (liftMisuse_unlimited _).bind fun _ _ => .error rfl

theorem Graph.closureFrom_unlimited (fuel : Nat) (t : TypeId) : Unlimited (g.closureFrom fuel t) := by
  induction fuel generalizing t with
  | zero => exact .error rfl
  | succ fuel ih =>
    rw [closureFrom]
    split
    · exact ih _
    · exact .ok t

theorem Graph.closure_unlimited (t : TypeId) : Unlimited (g.closure t) := by
  rw [closure]
  split
  · exact closureFrom_unlimited g _ _
  · exact .ok t

theorem Graph.sizeFrom_unlimited (fuel : Nat) (t : TypeId) : Unlimited (g.sizeFrom fuel t) := by
  induction fuel generalizing t with
  | zero => exact .error rfl
  | succ fuel ih =>
    have helement (k : Nat) (u : TypeId) :
        Unlimited (g.elementSizeFrom (g.sizeFrom fuel) k u) := by
      induction k generalizing u with
      | zero => exact ih u
      | succ k ihk =>
        rw [elementSizeFrom]
        split
        · exact ihk _
        · exact ih u
    rw [sizeFrom]
    split
    · exact .ok _
    · exact (elementCount_unlimited _).bind fun _ _ => (helement _ _).bind fun _ _ =>
        liftMisuse_unlimited _
    · exact .ok _
    · exact ih _
    · exact .ok _

theorem Graph.admitsFrom_unlimited (v : Value) (fuel : Nat) (t : TypeId) :
    Unlimited (g.admitsFrom v fuel t) := by
  induction fuel generalizing t with
  | zero => exact .error rfl
  | succ fuel ih =>
    unfold admitsFrom
    split
    case h_7 => exact ih _
    case h_8 => exact ih _
    case h_9 => exact .error rfl
    all_goals
      split <;> exact .ok _

end Types

end Chalkboard.Types

namespace Chalkboard.Memory

open Effects
open Chalkboard.Types (TypeId Graph)

section Cells

variable (g : Graph)

theorem Cell.countOf_unlimited (v : Value) : Unlimited (Cell.countOf v) := by
  unfold Cell.countOf
  split
  · exact .ok _
  · exact .error rfl

theorem Cell.lengths_unlimited (t : TypeId) : Unlimited (Cell.lengths g t) := by
  unfold Cell.lengths
  split
  · exact (Types.shape_unlimited _).bind fun _ _ => .mapM fun v _ => Cell.countOf_unlimited v
  · exact .error rfl

theorem Cell.nest_unlimited (lengths : List Nat) (items : List Value) :
    Unlimited (Cell.nest lengths items) := by
  induction lengths generalizing items with
  | nil => exact .error rfl
  | cons n rest ih =>
    obtain _ | ⟨k, rest⟩ := rest
    · exact .ok _
    · rw [Cell.nest]
      exact .ite (.error rfl) ((FailsAs.mapM fun piece _ => ih piece).bind fun _ _ => .ok _)

mutual

theorem Cell.value_unlimited : (c : Cell) → Unlimited (c.value g)
  | .leaf a t v => by
    rw [Cell.value]
    exact .ok v
  | .array t parts => by
    rw [Cell.value]
    exact (partValues_unlimited parts).bind fun _ _ => (lengths_unlimited g t).bind fun _ _ =>
      nest_unlimited _ _
  | .tuple t parts => by
    rw [Cell.value]
    exact (fieldValues_unlimited parts).bind fun _ _ => .ok _

theorem Cell.partValues_unlimited : (parts : List Cell) → Unlimited (Cell.partValues g parts)
  | [] => .ok []
  | c :: cs => by
    rw [Cell.partValues]
    exact (value_unlimited c).bind fun _ _ => (partValues_unlimited cs).bind fun _ _ => .ok _

theorem Cell.fieldValues_unlimited :
    (parts : List (String × Cell)) → Unlimited (Cell.fieldValues g parts)
  | [] => .ok []
  | (name, c) :: cs => by
    rw [Cell.fieldValues]
    exact (value_unlimited c).bind fun _ _ => (fieldValues_unlimited cs).bind fun _ _ => .ok _

end

mutual

theorem Cell.display_unlimited : (c : Cell) → Unlimited (c.display g)
  | .leaf a t v => by
    rw [Cell.display]
    exact (liftMisuse_unlimited _).bind fun _ _ => (liftMisuse_unlimited _).bind fun _ _ => .ok _
  | .array t parts => by
    rw [Cell.display]
    exact (liftMisuse_unlimited _).bind fun _ _ => (displayParts_unlimited parts).bind fun _ _ => .ok _
  | .tuple t parts => by
    rw [Cell.display]
    exact (liftMisuse_unlimited _).bind fun _ _ => (fieldValues_unlimited g parts).bind fun _ _ =>
      (liftMisuse_unlimited _).bind fun _ _ => .ok _

theorem Cell.displayParts_unlimited : (parts : List Cell) → Unlimited (Cell.displayParts g parts)
  | [] => .ok []
  | c :: cs => by
    rw [Cell.displayParts]
    exact (display_unlimited c).bind fun _ _ => (displayParts_unlimited cs).bind fun _ _ => .ok _

end

mutual

theorem Cell.address_unlimited : (c : Cell) → Unlimited c.address
  | .leaf a t v => .ok a
  | .array t [] => .error rfl
  | .array t (c :: cs) => by
    rw [Cell.address]
    exact address_unlimited c
  | .tuple t [] => .error rfl
  | .tuple t ((name, c) :: cs) => by
    rw [Cell.address]
    exact (address_unlimited c).bind fun least _ => leastAddress_unlimited cs least

theorem Cell.leastAddress_unlimited :
    (parts : List (String × Cell)) → (least : Address) → Unlimited (Cell.leastAddress least parts)
  | [], least => .ok least
  | (name, c) :: cs, least => by
    rw [Cell.leastAddress]
    exact (address_unlimited c).bind fun _ _ => leastAddress_unlimited cs _

end

end Cells

section Allocate

variable {g : Graph} {p : Partition}

abbrev Free {σ α : Type} (work : Work σ α) : Prop := WorkFailsAs (·.isLimit = false) work

theorem allocateLeaf_free (t : TypeId) : Free (allocateLeaf g p t) := by
  refine .get_bind fun m => (WorkFailsAs.lift (Types.Graph.sizeFrom_unlimited g _ t)).bind fun size => ?_
  split
  · exact (WorkFailsAs.modify _).bind fun _ => .pure _
  · exact .throw rfl

theorem Free.mapM {α β : Type} {f : α → MemoryM β} {xs : List α} (h : ∀ x ∈ xs, Free (f x)) :
    Free (xs.mapM f) :=
  mapM_keeps (fun _ => Free) .pure .bind h

theorem allocateFrom_free (fuel : Nat) (t : TypeId) : Free (allocateFrom g p fuel t) := by
  induction fuel generalizing t with
  | zero => exact .throw rfl
  | succ fuel ih =>
    rw [allocateFrom]
    split
    · refine (WorkFailsAs.lift (Types.elementCount_unlimited _)).bind fun count =>
        (WorkFailsAs.lift (Cell.countOf_unlimited count)).bind fun n => ?_
      rw [allocateMany_eq]
      exact (Free.mapM fun _ _ => ih _).bind fun _ => .pure _
    · exact (Free.mapM fun field _ => (ih _).bind fun _ => .pure _).bind fun _ => .pure _
    · exact allocateLeaf_free t

end Allocate

theorem checkLimits_fails (limits : Types.Limits) (m : Memory) :
    FailsAs (·.isLimit = true) (m.checkLimits limits) := .ite (.error rfl) (.ok ())

end Chalkboard.Memory

namespace Chalkboard.Run

open Effects
open Syntax (Expr Step Variable LiteralKind UnaryOp BinaryOp)
open Memory (Cell Location Free MemoryM)

section Eval

theorem literalValue_unlimited (types : Types) (kind : LiteralKind) (text : String) :
    Unlimited (literalValue types kind text) := by
  cases kind with
  | enum =>
    rw [literalValue, Types.Registry.constant]
    split
    · exact .ok _
    · exact .error rfl
  | boolean => exact .ite (.ok _) (.ite (.ok _) (.error rfl))
  | null | char => exact .ite (.ok _) (.error rfl)
  | integer =>
    refine .ite (.ok _) ?_
    cases Number.readInt? text with
    | none => exact .error rfl
    | some n => exact .ok _
  | real =>
    refine .ite (.ok _) ?_
    cases Number.readReal? text with
    | none => exact .error rfl
    | some x => exact .ok _

theorem unaryValue_unlimited (op : UnaryOp) (v : Value) : Unlimited (unaryValue op v) := by
  cases op with
  | negative | positive => exact liftMisuse_unlimited _
  | not => exact .ok _
  | other text => exact .error rfl

theorem binaryValue_unlimited (op : BinaryOp) (a b : Value) : Unlimited (binaryValue op a b) := by
  unfold binaryValue
  split
  all_goals first | exact liftMisuse_unlimited _ | exact .error rfl

theorem follow_unlimited (g : Types.Graph) (m : Memory) (v : Variable) (c : Cell) :
    Unlimited (follow g m v c) := by
  unfold follow
  split
  · exact .error rfl
  · refine (Cell.value_unlimited g c).bind fun value _ => ?_
    split
    · split
      · exact .ok _
      · exact .error rfl
    · exact (liftMisuse_unlimited _).bind fun _ _ => .error rfl

theorem element_unlimited (g : Types.Graph) (here : Location) (c : Cell) (indexes : List Value) :
    Unlimited (element g here c indexes) := by
  unfold element
  split
  · refine (Types.flatten_unlimited _ _).bind fun flat _ => (Cell.countOf_unlimited flat).bind
      fun i _ => ?_
    split
    · exact .ok _
    · exact .error rfl
  · exact .error rfl

theorem member_unlimited (g : Types.Graph) (v : Variable) (here : Location) (c : Cell)
    (field : String) : Unlimited (member g v here c field) := by
  unfold member
  split
  · split
    · exact .ok _
    · exact .error rfl
  · exact (Cell.display_unlimited g _).bind fun _ _ => (liftMisuse_unlimited _).bind fun _ _ => .error rfl

theorem leafValue_unlimited (c : Cell) : Unlimited (leafValue c) := by
  cases c with
  | leaf a t v => exact .ok v
  | array => exact .error rfl
  | tuple => exact .error rfl

mutual

theorem evalExpr_unlimited (env : Env) : (e : Expr) → Unlimited (evalExpr env e)
  | .literal kind word => by
    rw [evalExpr]
    exact literalValue_unlimited _ _ _
  | .access name path => by
    rw [evalExpr]
    split
    · exact .error rfl
    · split
      · exact .error rfl
      · exact (walk_unlimited env _ _ path _ _).bind fun _ _ => leafValue_unlimited _
  | .unary op operand => by
    rw [evalExpr]
    exact (evalExpr_unlimited env operand).bind fun _ _ => unaryValue_unlimited _ _
  | .binary left op right => by
    rw [evalExpr]
    refine (evalExpr_unlimited env left).bind fun a _ => ?_
    split
    · exact .ok _
    · exact (evalExpr_unlimited env right).bind fun _ _ => .ite (.ok _) (binaryValue_unlimited _ _ _)
  | .lazy body => by
    rw [evalExpr]
    exact .ok _
  | .stray line text kind => by
    rw [evalExpr]
    exact .error rfl

theorem evalAll_unlimited (env : Env) : (es : List Expr) → Unlimited (evalAll env es)
  | [] => by
    rw [evalAll]
    exact .ok []
  | e :: es => by
    rw [evalAll]
    exact (evalExpr_unlimited env e).bind fun _ _ => (evalAll_unlimited env es).bind fun _ _ => .ok _

theorem walk_unlimited (env : Env) (m : Memory) (v : Variable) :
    (steps : List Step) → (here : Location) → (c : Cell) → Unlimited (walk env m v here c steps)
  | [], here, c => by
    rw [walk]
    exact .ok _
  | .deref :: steps, here, c => by
    rw [walk]
    exact (follow_unlimited _ _ _ _).bind fun _ _ => walk_unlimited env m v steps _ _
  | .index indexes :: steps, here, c => by
    rw [walk]
    refine .ite (.error rfl) (.ite (.error rfl) ?_)
    exact (evalAll_unlimited env indexes).bind fun _ _ => (element_unlimited _ _ _ _).bind fun _ _ =>
      walk_unlimited env m v steps _ _
  | .field name :: steps, here, c => by
    rw [walk]
    exact (member_unlimited _ _ _ _ _).bind fun _ _ => walk_unlimited env m v steps _ _

end

theorem locate_unlimited (env : Env) (m : Memory) (v : Variable) : Unlimited (locate env m v) := by
  unfold locate
  split
  · exact .error rfl
  · exact walk_unlimited env m v _ _ _

end Eval

section Store

variable {f : Frame}

theorem find_free (v : Variable) : Free (find f v) := fun m => locate_unlimited _ m v

theorem readVariable_free (v : Variable) : Free (readVariable f v) :=
  (find_free v).bind fun _ => .lift (leafValue_unlimited _)

theorem writeVariable_free (v : Variable) (value : Value) : Free (writeVariable f v value) := by
  refine (find_free v).bind fun found => ?_
  obtain ⟨place, c⟩ := found
  cases c with
  | leaf a t old =>
    refine (WorkFailsAs.lift (Types.Graph.admitsFrom_unlimited _ value _ t)).bind fun fits => .ite ?_ ?_
    · exact .modify _
    · exact (WorkFailsAs.lift (liftMisuse_unlimited _)).bind fun _ =>
        (WorkFailsAs.lift (liftMisuse_unlimited _)).bind fun _ => .throw rfl
  | array => exact .throw rfl
  | tuple => exact .throw rfl

theorem reserve_free (v : Variable) : Free (reserve f v) := by
  refine (find_free v).bind fun found => (WorkFailsAs.lift (Types.Graph.closure_unlimited _ _)).bind
    fun t => ?_
  split
  · exact (WorkFailsAs.lift (Types.Graph.closure_unlimited _ _)).bind fun u =>
      (Memory.allocateFrom_free _ u).bind fun block =>
      (WorkFailsAs.lift (Cell.address_unlimited block)).bind fun _ => .pure _
  · exact .throw rfl
  · exact .throw rfl

theorem pointed_free (v : Variable) : Free (pointed f v) := by
  refine (find_free v).bind fun found => .ite (.throw rfl) ?_
  refine (WorkFailsAs.lift (Cell.value_unlimited _ _)).bind fun value => ?_
  split
  · exact .get_bind fun _ => .ite (.throw rfl) (.pure _)
  · exact (WorkFailsAs.lift (liftMisuse_unlimited _)).bind fun _ => .throw rfl

theorem evaluate_free (e : Expr) : Free (evaluate f e) :=
  .get_bind fun _ => (WorkFailsAs.lift (evalExpr_unlimited _ e)).bind fun _ =>
    (WorkFailsAs.modify _).bind fun _ => .pure _

theorem onMemory_free {α : Type} {work : MemoryM α} (h : Free work) : Free (onMemory work) := fun s =>
  h s.memory

end Store

end Chalkboard.Run
