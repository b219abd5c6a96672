import Chalkboard.Proofs.History

/-! What becomes of a leaf whose address has no block on the heap: whatever goes on from it through the
pointer fails, where it is written to and where it is read, and so does freeing it. -/

namespace Chalkboard.Run

open Effects
open Syntax (Step Variable Lexeme Expr)
open Chalkboard.Types (Graph TypeId)
open Memory (Address Cell Location)

/-- The fault of a dereference that leads nowhere. A leaf may hold an address without being a pointer
when its type is a synonym of an array of pointers. -/
def followFault (g : Graph) (t : TypeId) (v : Variable) (a : Address) : Fault :=
  if g.isPointer t then .memory (.dangling v.text a.text) else .misuse .notPointer

def freeFault (g : Graph) (t : TypeId) (v : Variable) (a : Address) : Fault :=
  if g.isPointer t then .memory (.freeDangling v.text a.text) else .typing (.freeNotPointer v.text)

/-- A variable that goes on from another through a pointer. -/
def through (v : Variable) (rest : List Step) : Variable := { v with path := v.path ++ .deref :: rest }

/-- A variable that leads to an address with no block: every dereference fails and so does freeing. -/
structure Dangles (f : Frame) (m : Memory) (v : Variable) (t : TypeId) (a : Address) : Prop where
  located (rest : List Step) : locate (f.env m) m (through v rest) =
    .error (followFault f.types.graph t (through v rest) a)
  evaluated (rest : List Step) : evalExpr (f.env m) (through v rest).toExpr =
    .error (followFault f.types.graph t (through v rest) a)
  freed : free f v m = (.error (freeFault f.types.graph t v a), m)

section Walk

variable {env : Env} {g : Graph} {m : Memory} {v w : Variable} {here here' : Location} {c c' : Cell}

theorem follow_ok (h : follow g m v c = .ok (here, c')) : follow g m w c = .ok (here, c') := by
  obtain ⟨hpointer, a, hvalue, hblock, rfl⟩ := follow_inv h
  rw [follow, hpointer, hvalue, except_ok_bind]
  dsimp only
  rw [hblock]
  rfl

theorem member_ok {field : String} (h : member g v here c field = .ok (here', c')) :
    member g w here c field = .ok (here', c') := by
  unfold member at h ⊢
  split at h
  · split at h
    · exact h
    · cases h
  · obtain ⟨_, -, h⟩ := except_bind_ok h
    obtain ⟨_, -, h⟩ := except_bind_ok h
    cases h

theorem walk_append (steps rest : List Step) (h : walk env m v here c steps = .ok (here', c')) :
    walk env m w here c (steps ++ rest) = walk env m w here' c' rest := by
  induction steps generalizing here c with
  | nil =>
    rw [walk] at h
    cases h
    rfl
  | cons step steps ih =>
    cases step with
    | deref =>
      rw [walk] at h
      obtain ⟨⟨here₁, c₁⟩, hfollow, h⟩ := except_bind_ok h
      rw [List.cons_append, walk, follow_ok hfollow]
      exact ih h
    | index indexes =>
      rw [walk] at h
      rw [List.cons_append, walk]
      split at h
      · cases h
      rename_i harray
      rw [if_neg harray]
      split at h
      · cases h
      rename_i hindexing
      rw [if_neg hindexing]
      obtain ⟨values, hvalues, h⟩ := except_bind_ok h
      obtain ⟨⟨here₁, c₁⟩, helement, h⟩ := except_bind_ok h
      rw [hvalues]
      change (element env.types.graph here c values >>= fun r =>
        walk env m w r.1 r.2 (steps ++ rest)) = _
      rw [helement]
      exact ih h
    | field name =>
      rw [walk] at h
      obtain ⟨⟨here₁, c₁⟩, hmember, h⟩ := except_bind_ok h
      rw [List.cons_append, walk, member_ok hmember]
      exact ih h

theorem locate_through {rest : List Step} (h : locate env m v = .ok (here, c)) :
    locate env m (through v rest) = walk env m (through v rest) here c (.deref :: rest) := by
  unfold locate at h ⊢
  split at h
  · cases h
  · rename_i owner howner
    rw [show m.stackCell? (through v rest).name.text = some owner from howner]
    exact walk_append v.path (.deref :: rest) h

theorem evalExpr_toExpr {f : Frame} : evalExpr (f.env m) v.toExpr =
    locate (f.env m) m v >>= fun found => leafValue found.2 := by
  rw [Variable.toExpr, evalExpr, locate]
  dsimp only [Frame.env]
  split <;> rfl

end Walk

section Dangling

variable {f : Frame} {m : Memory} {v : Variable} {place : Location} {a b : Address} {t : TypeId}

theorem follow_dangling {g : Graph} (hnone : m.heapCell? a = none) :
    follow g m v (.leaf b t (.address a)) = .error (followFault g t v a) := by
  unfold follow followFault
  rw [Cell.type]
  cases g.isPointer t with
  | false => rfl
  | true =>
    rw [if_neg (by simp), if_pos rfl, Cell.value, except_ok_bind]
    dsimp only
    rw [hnone]
    rfl

theorem pointed_dangling (hnone : m.heapCell? a = none)
    (h : locate (f.env m) m v = .ok (place, .leaf b t (.address a))) :
    pointed f v m = (.error (freeFault f.types.graph t v a), m) := by
  rw [pointed, bind_apply, find_apply, h]
  unfold freeFault
  dsimp only
  by_cases hpointer : f.types.graph.isPointer t = true
  · have hpass : ¬(!f.types.graph.isPointer (Cell.leaf b t (.address a)).type) = true := by
      simp [Cell.type, hpointer]
    rw [if_neg hpass, if_pos hpointer, bind_apply, Cell.value, lift_apply]
    dsimp only
    rw [bind_apply, get_apply]
    dsimp only
    rw [hnone]
    rfl
  · have hstop : (!f.types.graph.isPointer (Cell.leaf b t (.address a)).type) = true := by
      simp [Cell.type, hpointer]
    rw [if_pos hstop, if_neg hpointer]
    rfl

theorem dangles (hnone : m.heapCell? a = none)
    (h : locate (f.env m) m v = .ok (place, .leaf b t (.address a))) : Dangles f m v t a := by
  have hlocated (rest : List Step) : locate (f.env m) m (through v rest) =
      .error (followFault f.types.graph t (through v rest) a) := by
    rw [locate_through h, walk]
    exact congrArg (· >>= _) (follow_dangling hnone)
  refine ⟨hlocated, fun rest => ?_, ?_⟩
  · rw [evalExpr_toExpr, hlocated]
    rfl
  · rw [free, bind_apply, pointed_dangling hnone h]

end Dangling

end Chalkboard.Run
