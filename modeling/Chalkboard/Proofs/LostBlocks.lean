import Chalkboard.Proofs.DoneSteps
import Chalkboard.Proofs.Ranges
import Chalkboard.Proofs.Reaching

/-! Blocks of the heap that nothing leads to. A run cannot tell whether such a block is there: it comes to an
address only by reading it from a cell that it has come to, starting at its variables, and the only address
it makes is that of a new block. So with the block taken away it goes on as before, step by step and fault
for fault. -/

namespace Chalkboard.Effects

variable {σ α β : Type} {R : σ → σ → Prop} {s t : σ}

variable {change : σ → σ} {k : α → Work σ β} {r : Except Fault α} {work : Work σ α}

theorem except_bind_congr {k k' : α → Except Fault β}
    (h : ∀ a, r = .ok a → k a = k' a) : (r >>= k) = (r >>= k') := by
  cases r with
  | error e => rfl
  | ok a => exact h a rfl

/-- Work that comes to the same result, or the same fault, from two states, and leaves them related. -/
def Agrees (R : σ → σ → Prop) (work : Work σ α) (s t : σ) : Prop :=
  (work t).1 = (work s).1 ∧ R (work s).2 (work t).2

theorem Agrees.pure (a : α) (h : R s t) : Agrees R (Pure.pure a : Work σ α) s t := ⟨rfl, h⟩

theorem Agrees.lift (r : Except Fault α) (h : R s t) : Agrees R (liftM r : Work σ α) s t := ⟨rfl, h⟩

theorem Agrees.throw (e : Fault) (h : R s t) : Agrees R (throw e : Work σ α) s t := ⟨rfl, h⟩

theorem Agrees.modify_bind {k : PUnit → Work σ β}
    (h : Agrees R (k ⟨⟩) (change s) (change t)) : Agrees R (modify change >>= k) s t := h

theorem Agrees.modify (h : R (change s) (change t)) :
    Agrees R (modify change : Work σ PUnit) s t := ⟨rfl, h⟩

theorem Agrees.bind (h : Agrees R work s t)
    (hk : ∀ a s₁ t₁, work s = (.ok a, s₁) → R s₁ t₁ → Agrees R (k a) s₁ t₁) :
    Agrees R (work >>= k) s t := by
  obtain ⟨hresult, hstate⟩ := h
  rw [Agrees, bind_apply, bind_apply]
  rcases hs : work s with ⟨r, s₁⟩
  rcases ht : work t with ⟨r', t₁⟩
  rw [hs, ht] at hresult hstate
  obtain rfl : r' = r := hresult
  cases r' with
  | error e => exact ⟨rfl, hstate⟩
  | ok a => exact hk a s₁ t₁ hs hstate

theorem Agrees.after (h : R s t)
    (hk : ∀ a, r = .ok a → Agrees R (k a) s t) : Agrees R (liftM r >>= k) s t := by
  cases r with
  | error e => exact ⟨rfl, h⟩
  | ok a => exact hk a rfl

theorem Agrees.get_bind {k : σ → Work σ β} (hk : k t = k s) (h : Agrees R (k s) s t) :
    Agrees R (get >>= k) s t := by
  have hbind (x : σ) : (get >>= k : Work σ β) x = k x x := rfl
  rw [Agrees, hbind, hbind, hk]
  exact h

theorem Agrees.ite {p : Prop} [Decidable p] {work' : Work σ α} (h : Agrees R work s t)
    (h' : Agrees R work' s t) : Agrees R (if p then work else work') s t := by
  split
  · exact h
  · exact h'

end Chalkboard.Effects

namespace Chalkboard.Run

open Effects
open Syntax (Expr Step Variable Sentence Item)
open Chalkboard.Types (Graph)
open Memory (MemoryM Address Cell Location SameBut Reached)

def Known (m : Memory) (c : Cell) : Prop := ∀ b, c.Shows b → m.Reaches b

section Known

variable {f : Frame} {g : Graph} {m m' : Memory} {a b : Address} {here here' : Location} {c c' : Cell}
  {v : Variable}

theorem known_of_stackCell? {name : String} (h : m.stackCell? name = some c) : Known m c :=
  fun _ hb => .stack (Memory.mem_of_stackCell? h) hb

theorem Known.part (h : Known m c) {i : Nat} (hpart : c.part? i = some c') : Known m c' :=
  fun b hb => h b (hb.of_part hpart)

theorem Known.value (h : Known m c) (hvalue : c.value g = .ok (.address b)) : m.Reaches b := by
  obtain ⟨place, t, rfl⟩ := value_address hvalue
  exact h b ⟨[], place, t, rfl⟩

theorem follow_known (h : Known m c) (hfollow : follow g m v c = .ok (here, c')) : Known m c' := by
  obtain ⟨-, a, hvalue, hblock, -⟩ := follow_inv hfollow
  exact fun b hb => .heap (h.value hvalue) hblock hb

theorem locate_known {env : Env} (h : locate env m v = .ok (here, c)) : Known m c := by
  unfold locate at h
  split at h
  · cases h
  · rename_i owner howner
    exact walk_keeps (P := fun _ c => Known m c) (fun _ _ _ _ hc hstep => follow_known hc hstep)
      (fun _ _ _ _ hc hi => hc.part hi) v.path (known_of_stackCell? howner) h

theorem evalExpr_reached (e : Expr) (m : Memory) (value : Value) (h : evalExpr (f.env m) e = .ok value) :
    m.Reached value := by
  intro b hb
  subst hb
  obtain ⟨v, here, place, t, hlocate⟩ := evalExpr_locates e h
  exact locate_known hlocate b ⟨[], place, t, rfl⟩

end Known

section Eval

variable {f : Frame} {a : Address} {m m' : Memory}

theorem follow_same (h : SameBut a m m') {c : Cell} (hc : Known m c) (v : Variable) :
    follow f.types.graph m' v c = follow f.types.graph m v c := by
  unfold follow
  split
  · rfl
  · cases hvalue : c.value f.types.graph with
    | error e => rfl
    | ok value =>
      cases value with
      | address b =>
        rw [except_ok_bind, except_ok_bind]
        dsimp only
        rw [h.heapCell? (hc.value hvalue)]
      | _ => rfl

mutual

theorem evalExpr_same (h : SameBut a m m') : (e : Expr) → evalExpr (f.env m') e = evalExpr (f.env m) e
  | .literal kind word => by rw [evalExpr, evalExpr]; rfl
  | .access name path => by
    rw [evalExpr, evalExpr]
    dsimp only [Frame.env]
    rw [h.stackCell?]
    cases hc : m.stackCell? name.text with
    | none => rfl
    | some c =>
      have hwalk := walk_same h ⟨name, path⟩ path ⟨.stack name.text, []⟩ c (known_of_stackCell? hc)
      exact congrArg (· >>= fun x => leafValue x.2) hwalk
  | .unary op operand => by rw [evalExpr, evalExpr, evalExpr_same h operand]
  | .binary left op right => by rw [evalExpr, evalExpr, evalExpr_same h left, evalExpr_same h right]
  | .lazy _ | .stray .. => by rw [evalExpr, evalExpr]

theorem evalAll_same (h : SameBut a m m') :
    (es : List Expr) → evalAll (f.env m') es = evalAll (f.env m) es
  | [] => by rw [evalAll, evalAll]
  | e :: es => by rw [evalAll, evalAll, evalExpr_same h e, evalAll_same h es]

theorem walk_same (h : SameBut a m m') (v : Variable) :
    (steps : List Step) → (here : Location) → (c : Cell) → Known m c →
      walk (f.env m') m' v here c steps = walk (f.env m) m v here c steps
  | [], here, c, _ => by rw [walk, walk]
  | .deref :: steps, here, c, hc => by
    rw [walk, walk]
    have hfollow : follow (f.env m').types.graph m' v c = follow (f.env m).types.graph m v c :=
      follow_same h hc v
    rw [hfollow]
    refine except_bind_congr fun x hx => ?_
    exact walk_same h v steps x.1 x.2 (follow_known hc hx)
  | .index indexes :: steps, here, c, hc => by
    rw [walk, walk, evalAll_same h indexes]
    refine if_congr Iff.rfl rfl (if_congr Iff.rfl rfl (except_bind_congr fun values _ => ?_))
    refine except_bind_congr fun x hx => ?_
    obtain ⟨i, -, hi⟩ := element_part hx
    exact walk_same h v steps x.1 x.2 (hc.part hi)
  | .field name :: steps, here, c, hc => by
    rw [walk, walk]
    refine except_bind_congr fun x hx => ?_
    obtain ⟨i, -, hi⟩ := member_part hx
    exact walk_same h v steps x.1 x.2 (hc.part hi)

end

theorem locate_same (h : SameBut a m m') (v : Variable) :
    locate (f.env m') m' v = locate (f.env m) m v := by
  unfold locate
  rw [h.stackCell?]
  cases hc : m.stackCell? v.name.text with
  | none => rfl
  | some c => exact walk_same h v v.path _ c (known_of_stackCell? hc)

theorem leafOf?_same (h : SameBut a m m') (v : Variable) : leafOf? (f.env m') m' v = leafOf? (f.env m) m v := by
  unfold leafOf?
  rw [locate_same h]

theorem handedOn?_same (h : SameBut a m m') :
    (e : Expr) → handedOn? (f.env m') m' e = handedOn? (f.env m) m e
  | .access name path => by rw [handedOn?, handedOn?, leafOf?_same h]
  | .binary left op right => by rw [handedOn?, handedOn?, handedOn?_same h right]
  | .literal .. => rfl
  | .unary .. => rfl
  | .lazy _ => rfl
  | .stray .. => rfl

end Eval

end Chalkboard.Run

namespace Chalkboard.Memory

open Effects
open Chalkboard.Types (TypeId Graph)

section Allocate

variable {R : Memory → Memory → Prop} {p : Partition} {g : Graph}

theorem allocateLeaf_agrees (hnext : ∀ m m', R m m' → m'.next p = m.next p)
    (hset : ∀ m m' n, R m m' → R (m.setNext p n) (m'.setNext p n)) (t : TypeId) {m m' : Memory}
    (h : R m m') : Agrees R (allocateLeaf g p t) m m' := by
  refine .get_bind (by rw [hnext m m' h]) (.after h fun size _ => ?_)
  split
  · exact .modify_bind (.pure _ (hset m m' _ h))
  · exact .throw _ h

theorem mapM_agrees {α β : Type} {one : α → MemoryM β} (hone : ∀ x m m', R m m' → Agrees R (one x) m m')
    (xs : List α) {m m' : Memory} (h : R m m') : Agrees R (xs.mapM one) m m' :=
  mapM_keeps (fun _ work => ∀ m m', R m m' → Agrees R work m m') (fun _ _ _ h => .pure _ h)
    (fun hw hk m m' h => (hw m m' h).bind fun c s t _ hst => hk c s t hst) (fun x _ => hone x) m m' h

theorem allocateFrom_agrees (hnext : ∀ m m', R m m' → m'.next p = m.next p)
    (hset : ∀ m m' n, R m m' → R (m.setNext p n) (m'.setNext p n)) (fuel : Nat) (t : TypeId)
    {m m' : Memory} (h : R m m') : Agrees R (allocateFrom g p fuel t) m m' := by
  induction fuel generalizing t m m' with
  | zero => exact .throw _ h
  | succ fuel ih =>
    rw [allocateFrom]
    split
    · refine .after h fun count _ => .after h fun n _ => ?_
      rw [allocateMany_eq]
      exact (mapM_agrees (fun _ m m' h => ih _ h) _ h).bind fun cs s s' _ hs => .pure _ hs
    · refine (mapM_agrees (fun field m m' h => ?_) _ h).bind fun cs s s' _ hs => .pure _ hs
      exact (ih field.2 h).bind fun c s s' _ hs => .pure _ hs
    · exact allocateLeaf_agrees hnext hset t h

end Allocate

theorem allocate_agrees {a : Address} (g : Graph) (p : Partition) (t : TypeId) {m m' : Memory}
    (h : SameBut a m m') : Agrees (SameBut a) (allocate g p t) m m' :=
  allocateFrom_agrees (fun _ _ h => h.next p) (fun _ _ n h => h.setNext p n) _ t h

end Chalkboard.Memory

namespace Chalkboard.Run

open Effects
open Syntax (Expr Step Variable Sentence Item)
open Chalkboard.Types (Graph)
open Memory (MemoryM Address Cell Location SameBut Reached)

section Store

variable {f : Frame} {a : Address} {m m' : Memory}

theorem find_agrees (h : SameBut a m m') (v : Variable) : Agrees (SameBut a) (find f v) m m' :=
  ⟨locate_same h v, h⟩

theorem writeVariable_agrees (h : SameBut a m m') (v : Variable) {value : Value} (hvalue : m.Reached value) :
    Agrees (SameBut a) (writeVariable f v value) m m' := by
  refine (find_agrees h v).bind fun x m₁ m₁' hfind h₁ => ?_
  obtain ⟨rfl, -⟩ := find_ok hfind
  obtain ⟨place, c⟩ := x
  cases c with
  | leaf b t old =>
    refine .after h₁ fun fits _ => .ite (.modify (h₁.write place hvalue)) ?_
    exact .after h₁ fun type _ => .after h₁ fun text _ => .throw _ h₁
  | array t parts => exact .throw _ h₁
  | tuple t parts => exact .throw _ h₁

theorem reserve_agrees (h : SameBut a m m') (v : Variable) : Agrees (SameBut a) (reserve f v) m m' := by
  refine (find_agrees h v).bind fun x m₁ m₁' _ h₁ => .after h₁ fun t _ => ?_
  split
  · refine .after h₁ fun u _ => ?_
    refine (Memory.allocate_agrees _ _ u h₁).bind fun block m₂ m₂' _ h₂ => ?_
    exact .after h₂ fun b _ => .pure _ h₂
  · exact .throw _ h₁
  · exact .throw _ h₁

theorem checkLimits_same (hlimits : f.limits.heapCells = none) (h : SameBut a m m') :
    m'.checkLimits f.limits = m.checkLimits f.limits := by
  unfold Memory.checkLimits Memory.stackCount
  rw [h.stack, hlimits]
  rfl

theorem alloc_agrees (sound : f.types.graph.Sound) (hlimits : f.limits.heapCells = none)
    (h : SameBut a m m') (v : Variable) : Agrees (SameBut a) (alloc f v) m m' := by
  refine (reserve_agrees h v).bind fun x m₁ m₁' hreserve h₁ => ?_
  obtain ⟨place, b, block⟩ := x
  obtain ⟨-, -, -, -, -, -, -, hlaid, -⟩ := reserve_ok sound hreserve
  have hstored := h₁.stored (b := b) place fun _ => hlaid.not_shows
  -- between the two changes the pointer may lead to an old block
  refine .modify_bind (.modify_bind (.get_bind ?_ (.lift _ hstored)))
  rw [checkLimits_same hlimits hstored]

theorem pointed_agrees (h : SameBut a m m') (v : Variable) : Agrees (SameBut a) (pointed f v) m m' := by
  refine (find_agrees h v).bind fun x m₁ m₁' hfind h₁ => ?_
  rw [find_apply, Prod.mk.injEq] at hfind
  obtain ⟨hlocate, rfl⟩ := hfind
  obtain ⟨place, c⟩ := x
  refine .ite (.throw _ h₁) ?_
  refine .after h₁ fun value hvalue => ?_
  split
  · have hcell := h₁.heapCell? ((locate_known hlocate).value hvalue)
    exact .get_bind (by rw [hcell]) (.ite (.throw _ h₁) (.pure _ h₁))
  · exact .after h₁ fun text _ => .throw _ h₁

theorem free_agrees (h : SameBut a m m') (v : Variable) : Agrees (SameBut a) (free f v) m m' :=
  (pointed_agrees h v).bind fun x _ _ _ h₁ =>
    .modify ((h₁.erase x.2).write x.1 (Memory.reached_of_inert fun b hb => by cases hb))

theorem declare_agrees (sound : f.types.graph.Sound) (hlimits : f.limits.heapCells = none)
    (h : SameBut a m m') (name : String) (t : Types.TypeId) :
    Agrees (SameBut a) (Memory.declare f.types.graph f.limits name t) m m' := by
  refine .get_bind (by rw [h.stackCell?]) (.ite (.throw _ h) ?_)
  refine (Memory.allocate_agrees _ _ t h).bind fun c m₁ m₁' hc h₁ => ?_
  obtain ⟨-, hlaid, -⟩ := Memory.allocate_lays sound .stack t m c m₁ hc
  have hpushed := h₁.push name fun _ => hlaid.not_shows
  refine .modify_bind (.after hpushed fun _ _ => .get_bind ?_ (.lift _ hpushed))
  rw [checkLimits_same hlimits hpushed]

end Store

end Chalkboard.Run

namespace Chalkboard.Run

open Effects
open Syntax (Expr Variable Sentence Item)
open Memory (MemoryM Address Reached)

/-- Two situations that differ in nothing but the memory, and there at most in the block at an address that
nothing leads to. -/
structure Situation.SameBut (a : Address) (s s' : Situation) : Prop where
  rest : s' = { s with memory := s'.memory }
  memory : s.memory.SameBut a s'.memory

/-- The same of two runs under way. -/
structure Course.SameBut (a : Address) (c c' : Course Unit) : Prop where
  rest : c' = { c with situation := c'.situation }
  situation : c.situation.SameBut a c'.situation

section Step

variable {f : Frame} {a : Address} {s s' : Situation}

theorem onMemory_agrees {α : Type} {work : MemoryM α} (h : s.SameBut a s')
    (hwork : Agrees (Memory.SameBut a) work s.memory s'.memory) :
    Agrees (Situation.SameBut a) (onMemory work) s s' := by
  obtain ⟨hresult, hmemory⟩ := hwork
  refine ⟨hresult, ?_, hmemory⟩
  rw [h.rest]
  rfl

theorem evaluate_agrees (h : s.SameBut a s') (e : Expr) :
    Agrees (Situation.SameBut a) (evaluate f e) s s' := by
  refine .get_bind (by rw [evalExpr_same h.memory]) (.after h fun v _ => .modify_bind (.pure v ?_))
  exact ⟨by rw [h.rest], h.memory⟩

theorem traceOrigin_agrees (h : s.SameBut a s') (v : Variable) (e : Expr) (value : Value) :
    Agrees (Situation.SameBut a) (traceOrigin f v e value) s s' := by
  have horigins : s'.origins.write (f.env s'.memory) s'.memory v e =
      s.origins.write (f.env s.memory) s.memory v e := by
    unfold Origins.write
    rw [leafOf?_same h.memory, handedOn?_same h.memory, h.rest]
  refine .modify ?_
  rw [horigins]
  split
  · exact ⟨by rw [h.rest], h.memory⟩
  · exact h

theorem setLooping_agrees (h : s.SameBut a s') (place : Nat) (on : Bool) :
    Agrees (Situation.SameBut a) (setLooping place on) s s' :=
  .modify ⟨by rw [h.rest], h.memory⟩

theorem nextCount_agrees (h : s.SameBut a s') (place : Nat) (v : Variable) (start : Expr) (up : Bool) :
    Agrees (Situation.SameBut a) (nextCount f place v start up) s s' := by
  refine .get_bind (by rw [h.rest]) (.ite ?_ (evaluate_agrees h start))
  have hread : Agrees (Memory.SameBut a) (readVariable f v) s.memory s'.memory :=
    (find_agrees h.memory v).bind fun _ _ _ _ h₁ => .lift _ h₁
  exact (onMemory_agrees h hread).bind fun current s₁ s₁' _ h₁ => .lift _ h₁

theorem evaluate_reached (e : Expr) : Looks (evaluate f e) Reached :=
  evaluate_looks_of e fun m v hv => evalExpr_reached e m v hv

theorem nextCount_reached (place : Nat) (v : Variable) (start : Expr) (up : Bool) :
    Looks (nextCount f place v start up) Reached :=
  nextCount_looks_of (fun _ _ hv => Memory.reached_of_inert hv.inert) place v start
    (fun m w hw => evalExpr_reached start m w hw) up

theorem write_agrees (h : s.SameBut a s') (v : Variable) {value : Value} (hvalue : s.memory.Reached value) :
    Agrees (Situation.SameBut a) (onMemory (writeVariable f v value)) s s' :=
  onMemory_agrees h (writeVariable_agrees h.memory v hvalue)

theorem perform_agrees (h : s.SameBut a s') (sound : f.types.graph.Sound) (hlimits : f.limits.heapCells = none)
    (place : Nat) (item : Item) (sentence : Sentence) :
    Agrees (Situation.SameBut a) (perform f place item sentence) s s' := by
  cases sentence with
  | skip line => exact .pure _ h
  | assign v e =>
    refine (evaluate_agrees h e).bind fun value s₁ s₁' hvalue h₁ => ?_
    refine (traceOrigin_agrees h₁ v e value).bind fun _ s₂ s₂' horigin h₂ => ?_
    have hreached : s₂.memory.Reached value := by
      rw [((traceOrigin_looks v e value).ok horigin).2, ((evaluate_reached e).ok hvalue).2]
      exact ((evaluate_reached e).ok hvalue).1
    exact (write_agrees h₂ v hreached).bind fun _ _ _ _ h₃ => .pure _ h₃
  | call builtin line v =>
    cases builtin with
    | alloc =>
      exact (onMemory_agrees h (alloc_agrees sound hlimits h.memory v)).bind fun _ _ _ _ h₁ => .pure _ h₁
    | free => exact (onMemory_agrees h (free_agrees h.memory v)).bind fun _ _ _ _ h₁ => .pure _ h₁
  | branch guard yes no => exact (evaluate_agrees h guard).bind fun _ _ _ _ h₁ => .pure _ h₁
  | loop guard body =>
    exact (evaluate_agrees h guard).bind fun _ _ _ _ h₁ => .ite (.pure _ h₁) (.pure _ h₁)
  | count v start stop up body =>
    refine (nextCount_agrees h place v start up).bind fun value s₁ s₁' hvalue h₁ => ?_
    refine (evaluate_agrees h₁ stop).bind fun last s₂ s₂' hlast h₂ => .after h₂ fun goes _ => ?_
    have hreached : s₂.memory.Reached value := by
      rw [((evaluate_reached stop).ok hlast).2, ((nextCount_reached place v start up).ok hvalue).2]
      exact ((nextCount_reached place v start up).ok hvalue).1
    refine .ite ?_ ((setLooping_agrees h₂ place false).bind fun _ _ _ _ h₃ => .pure _ h₃)
    refine (write_agrees h₂ v hreached).bind fun _ _ _ _ h₃ => ?_
    exact (setLooping_agrees h₃ place true).bind fun _ _ _ _ h₄ => .pure _ h₄

theorem step_agrees (h : s.SameBut a s') (sound : f.types.graph.Sound)
    (hlimits : f.limits.heapCells = none) (place : Nat) (item : Item) :
    Agrees (Situation.SameBut a) (step f place item) s s' := by
  rw [step]
  split
  · exact (onMemory_agrees h (declare_agrees sound hlimits h.memory _ _)).bind fun _ _ _ _ h₁ => .pure _ h₁
  · exact perform_agrees h sound hlimits place item _

end Step

section Run

variable {f : Frame} {a : Address}

theorem watched_agrees {c c' : Course Unit} (h : c.SameBut a c') (sound : f.types.graph.Sound)
    (hlimits : f.limits.heapCells = none) (place : Nat) (item : Item) :
    Agrees (Course.SameBut a) (watched f.limits {} place (step f place item)) c c' := by
  have hsteps : c'.steps = c.steps := by rw [h.rest]
  obtain ⟨hresult, hrest, hmemory⟩ := step_agrees h.situation sound hlimits place item
  rw [Agrees, watched_apply, watched_apply, hsteps]
  rcases hs : step f place item c.situation with ⟨r, s⟩
  rcases ht : step f place item c'.situation with ⟨r', s'⟩
  rw [hs, ht] at hresult hrest hmemory
  obtain rfl : r' = r := hresult
  cases r' with
  | error e => exact ⟨rfl, by rw [h.rest], hrest, hmemory⟩
  | ok next =>
    refine ⟨rfl, rfl, ?_, hmemory⟩
    dsimp only at hrest ⊢
    rw [hrest]

theorem runFrom_agrees (items : Array Item) (sound : f.types.graph.Sound)
    (hlimits : f.limits.heapCells = none) (n : Nat) (next : Option Nat) {c c' : Course Unit}
    (h : c.SameBut a c') : Agrees (Course.SameBut a) (runFrom f {} items n next) c c' := by
  induction n generalizing next c c' with
  | zero => cases next <;> exact .pure _ h
  | succ n ih =>
    cases next with
    | none => exact .pure _ h
    | some place =>
      rw [runFrom]
      cases items[place]? with
      | none => exact .pure _ h
      | some item =>
        exact (watched_agrees h sound hlimits place item).bind fun next' _ _ _ h₁ => ih next' h₁

theorem runProgram_add (p : Syntax.Program) (loaded : Bool) (n k : Nat) (w : Watch Unit) :
    runProgram f w p loaded (n + k) = runProgram f w p loaded n >>= runFrom f w p.items.toArray k := by
  by_cases hempty : p.items = []
  · cases loaded <;> simp [runProgram, hempty]
  · cases loaded <;> simp [runProgram, hempty, runFrom_add]

end Run

/-- A block that nothing leads to cannot be observed. A program that was read has run for some steps, from
any start and under limits that do not bound the heap; from there it goes on for any number of steps, once
as it is and once with the block at a lost address taken away. Both come to the same place or to the same
fault, after as many steps, with the same loops in progress and the same values noted, and their memories
are the same but for what they have at that address. -/
theorem lost_block_unseen {setting : Reading.Setting} {text : String} {p : Syntax.Program} {types : Types}
    (hread : (Reading.readProgram setting text).run {} = (.ok p, types)) {limits : Types.Limits}
    (hlimits : limits.heapCells = none) (indexing : Bool) (memory : Option Memory) (looping : List Nat)
    {n : Nat} {next : Option Nat} {c : Course Unit}
    (hrun : runProgram ⟨types, limits, indexing⟩ {} p memory.isSome n (.start memory looping ()) =
      (.ok next, c))
    {a : Address} (hlost : c.situation.memory.Lost a) (k : Nat) :
    let whole := runProgram ⟨types, limits, indexing⟩ {} p memory.isSome (n + k) (.start memory looping ())
    let without : Course Unit :=
      { c with situation := { c.situation with memory := c.situation.memory.erase a } }
    let rest := runFrom ⟨types, limits, indexing⟩ {} p.items.toArray k next without
    rest.1 = whole.1 ∧
      rest.2 = { whole.2 with situation :=
        { whole.2.situation with memory := rest.2.situation.memory } } ∧
      rest.2.situation.memory.erase a = whole.2.situation.memory.erase a := by
  intro whole without rest
  have hwhole : whole = runFrom ⟨types, limits, indexing⟩ {} p.items.toArray k next c := by
    change runProgram _ _ _ _ (n + k) _ = _
    rw [runProgram_add, bind_apply, hrun]
  have hstart : c.SameBut a without := ⟨rfl, rfl, .erased hlost⟩
  obtain ⟨hresult, hrest, hsituation, hmemory⟩ := runFrom_agrees (f := ⟨types, limits, indexing⟩)
    p.items.toArray (Reading.readProgram_sound hread).graph hlimits k next hstart
  rw [hwhole]
  refine ⟨hresult, ?_, hmemory.same⟩
  rwa [hsituation] at hrest

/-- A cell that points to itself, and to which the only variable points no more. -/
def lostCell : String :=
  "type c = tuple\n n: pointer of c\nend tuple\nvar p: pointer of c\nalloc(p)\np->n := p\nalloc(p)\nfree(p)\n"

def openHeap : Types.Limits := { heapCells := none }

theorem lostCell_runs :
    passes (Reading.readProgram {} lostCell) {} (fun p types =>
      passes (runProgram ⟨types, openHeap, true⟩ {} p false 4) (.start none [] ()) fun next c =>
        next == some 4 && c.situation.memory.heap.map (·.1) == [⟨.heap, 0⟩, ⟨.heap, 1⟩] &&
          c.situation.memory.covers [⟨.heap, 1⟩]) = true := by
  decide +kernel

theorem lostCell_unseen :
    ∃ p types c, (Reading.readProgram {} lostCell).run {} = (.ok p, types) ∧
      runProgram ⟨types, openHeap, true⟩ {} p false 4 (.start none [] ()) = (.ok (some 4), c) ∧
      c.situation.memory.heap.map (·.1) = [⟨.heap, 0⟩, ⟨.heap, 1⟩] ∧
      c.situation.memory.Lost ⟨.heap, 0⟩ ∧
      ∀ k, (runFrom ⟨types, openHeap, true⟩ {} p.items.toArray k (some 4)
        { c with situation := { c.situation with memory := c.situation.memory.erase ⟨.heap, 0⟩ } }).1 =
          (runProgram ⟨types, openHeap, true⟩ {} p false (4 + k) (.start none [] ())).1 := by
  obtain ⟨p, types, hread, hcheck⟩ := of_passes lostCell_runs
  obtain ⟨next, c, hrun, hc⟩ := of_passes hcheck
  simp only [Bool.and_eq_true, beq_iff_eq] at hc
  obtain ⟨⟨rfl, hheap⟩, hcovers⟩ := hc
  have hlost : c.situation.memory.Lost ⟨.heap, 0⟩ := Memory.lost_of_covers hcovers (by decide)
  exact ⟨p, types, c, hread, hrun, hheap, hlost, fun k =>
    (lost_block_unseen hread rfl true none [] hrun hlost k).1⟩

end Chalkboard.Run
