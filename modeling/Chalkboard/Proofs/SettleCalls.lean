import Chalkboard.Proofs.OpenTargets

/-! Settling as calls inside calls. A call that comes to an end at some depth gives the same result at
every greater depth, and it comes to an end exactly when every call it makes does. What a call changes
are open targets, which become settled; a call that is made because an open target was seen settles at
least one. -/

namespace Chalkboard.Types

open Effects

/-- How work ends that would nest deeper than it may. -/
abbrev tooDeep {α : Type} : Except Fault α := .error (.misuse .endless)

/-- Work that is given a depth comes to an end if some depth is enough. -/
def Ends (work : Nat → TypesM Unit) (s : Types) : Prop := ∃ depth, (work depth s).1 ≠ tooDeep

def Completes (work : Nat → TypesM Unit) (s s' : Types) : Prop :=
  ∃ depth, work depth s = (.ok (), s')

/-- Where a depth is enough, the next one changes nothing. -/
def DeepensAt (work : Nat → TypesM Unit) (depth : Nat) : Prop :=
  ∀ s, (work depth s).1 ≠ tooDeep → work (depth + 1) s = work depth s

def Deepens (work : Nat → TypesM Unit) : Prop := ∀ depth, DeepensAt work depth

section Depth

variable {α : Type} {each : α → Nat → TypesM Unit} {work : Nat → TypesM Unit} {s s' : Types}

variable {depth depth' : Nat}

theorem Deepens.le (h : Deepens work) (hle : depth ≤ depth')
    (hs : (work depth s).1 ≠ tooDeep) : work depth' s = work depth s := by
  induction hle with
  | refl => rfl
  | step _ ih => rw [h _ _ (by rwa [ih]), ih]

theorem Deepens.agree (h : Deepens work) (hs : (work depth s).1 ≠ tooDeep)
    (hs' : (work depth' s).1 ≠ tooDeep) : work depth' s = work depth s := by
  rcases Nat.le_total depth depth' with hle | hle
  · exact h.le hle hs
  · exact (h.le hle hs').symm

theorem Deepens.completes (h : Deepens work) (hle : depth ≤ depth')
    (hs : work depth s = (.ok (), s')) : work depth' s = (.ok (), s') :=
  (h.le hle (by rw [hs]; simp)).trans hs

theorem bind_ne_tooDeep {m : TypesM α} {k : α → TypesM Unit} :
    ((m >>= k) s).1 ≠ tooDeep ↔
      (m s).1 ≠ tooDeep ∧ ∀ a s', m s = (.ok a, s') → (k a s').1 ≠ tooDeep := by
  rw [bind_apply]
  rcases m s with ⟨e | a, s₁⟩
  · have hfault {β γ : Type} (hd : (Except.error e : Except Fault β) = tooDeep) :
        (Except.error e : Except Fault γ) = tooDeep := by
      cases hd
      rfl
    refine ⟨fun h => ⟨fun hd => h (hfault hd), ?_⟩, fun h hd => h.1 (hfault hd)⟩
    intro a s' hm
    cases hm
  · refine ⟨fun h => ⟨by simp, ?_⟩, fun h => h.2 a s₁ rfl⟩
    intro b s' hm
    cases hm
    exact h

/-- The work of each item of a list, one after another, all to the same depth. -/
def inTurn (each : α → Nat → TypesM Unit) (xs : List α) (depth : Nat) : TypesM Unit :=
  xs.forM fun a => each a depth

theorem inTurn_nil (depth : Nat) (s : Types) : inTurn each [] depth s = (.ok (), s) := rfl

theorem inTurn_cons (a : α) (xs : List α) (depth : Nat) :
    inTurn each (a :: xs) depth = (each a depth >>= fun _ => inTurn each xs depth) := rfl

theorem inTurn_one (a : α) (depth : Nat) : inTurn each [a] depth = each a depth :=
  bind_pure_unit

theorem inTurn_append (xs ys : List α) (depth : Nat) :
    inTurn each (xs ++ ys) depth = (inTurn each xs depth >>= fun _ => inTurn each ys depth) :=
  List.forM_append

theorem DeepensAt.inTurn {xs : List α} (h : ∀ a ∈ xs, DeepensAt (each a) depth) :
    DeepensAt (inTurn each xs) depth := by
  induction xs with
  | nil => intro s _; rfl
  | cons a rest ih =>
    intro s hs
    rw [inTurn_cons] at hs
    obtain ⟨hhead, htail⟩ := bind_ne_tooDeep.1 hs
    rw [inTurn_cons, inTurn_cons, bind_apply, bind_apply, h a List.mem_cons_self s hhead]
    rcases hr : each a depth s with ⟨e | _, s'⟩
    · rfl
    · exact ih (fun b hb => h b (List.mem_cons_of_mem _ hb)) s' (htail () s' hr)

theorem Deepens.inTurn (h : ∀ a, Deepens (each a)) (xs : List α) : Deepens (inTurn each xs) :=
  fun depth => .inTurn fun a _ => h a depth

theorem inTurn_cons_apply (h : ∀ a, Deepens (each a)) {a : α} {rest : List α}
    (hhead : each a depth s = (.ok (), s')) (htail : (inTurn each rest depth' s').1 ≠ tooDeep) :
    inTurn each (a :: rest) (max depth depth') s = inTurn each rest depth' s' := by
  rw [inTurn_cons, bind_apply, (h a).completes (Nat.le_max_left _ _) hhead]
  exact (Deepens.inTurn h rest).le (Nat.le_max_right depth depth') htail

theorem ends_inTurn (h : ∀ a, Deepens (each a)) (xs : List α) :
    Ends (inTurn each xs) s ↔
      ∀ before a after s', xs = before ++ a :: after →
        Completes (inTurn each before) s s' → Ends (each a) s' := by
  constructor
  · rintro ⟨depth, hs⟩ before a after s' rfl ⟨depth', hbefore⟩
    rw [inTurn_append] at hs
    obtain ⟨hhead, htail⟩ := bind_ne_tooDeep.1 hs
    have hsame := (Deepens.inTurn h before).agree hhead (by rw [hbefore]; simp)
    have hrest := htail () s' (hsame.symm.trans hbefore)
    rw [inTurn_cons] at hrest
    exact ⟨depth, (bind_ne_tooDeep.1 hrest).1⟩
  · induction xs generalizing s with
    | nil =>
      intro _
      exact ⟨0, by simp [inTurn_nil]⟩
    | cons a rest ih =>
      intro hall
      obtain ⟨depth, hhead⟩ := hall [] a rest s rfl ⟨0, rfl⟩
      rcases hr : each a depth s with ⟨e | _, s'⟩
      · refine ⟨depth, ?_⟩
        rw [inTurn_cons, bind_apply, hr]
        rwa [hr] at hhead
      · have hrest : Ends (inTurn each rest) s' := by
          refine ih fun before b after s₂ hsplit ⟨depth', hdone⟩ => ?_
          refine hall (a :: before) b after s₂ (by rw [hsplit]; rfl) ⟨max depth depth', ?_⟩
          rw [inTurn_cons_apply h hr (by rw [hdone]; simp), hdone]
        obtain ⟨depth', htail⟩ := hrest
        exact ⟨max depth depth', by rwa [inTurn_cons_apply h hr htail]⟩

end Depth

/-- A part that the settling of a type looks at: the trail it is looked at on, and what it is told of
the trail if an open target is seen and the part is entered. -/
structure Visit where
  part : TypeId
  trail : List TypeId
  told : Option (List TypeId)

/-- The parts that the settling of a type looks at, in order. Only behind a pointer is the trail not
told. -/
def Graph.visits (g : Graph) (t : TypeId) (trail? : Option (List TypeId)) : List Visit :=
  let trail := t :: trail?.getD []
  match g.node t with
  | .pointer (.settled target) => [⟨target, trail, none⟩]
  | .array element _ => if trail?.isNone then [] else [⟨element, trail, some trail⟩]
  | .synonym _ of => [⟨of, trail, some trail⟩]
  | .tuple _ fields _ => fields.map fun field => ⟨field.2, trail, some trail⟩
  | _ => []

/-- What the settling of a type does by itself: an open target is looked up, and an array refuses to go
on if it is not told the trail. -/
def settleSelf (t : TypeId) (trail? : Option (List TypeId)) : TypesM Unit := do
  match (← get).graph.node t with
  | .pointer (.deferred side name) =>
    let target ← lookUpIn side name
    modify fun s => { s with graph := s.graph.set t (.pointer (.settled target)) }
  | .array .. => if trail?.isNone then throw (.misuse .noTrail)
  | _ => pure ()

def settleVisit (v : Visit) (depth : Nat) : TypesM Unit := do
  if (← get).graph.hasDeferrals v.part v.trail then settleFrom depth v.part v.told

theorem settleVisit_apply (v : Visit) (depth : Nat) (s : Types) :
    settleVisit v depth s =
      if s.graph.hasDeferrals v.part v.trail then settleFrom depth v.part v.told s
      else (.ok (), s) := by
  rw [settleVisit, bind_apply, get_apply]
  dsimp only
  split <;> rfl

theorem inTurn_map {α β : Type} (g : β → α) (each : α → Nat → TypesM Unit) (xs : List β)
    (depth : Nat) : inTurn each (xs.map g) depth = xs.forM fun b => each (g b) depth := by
  induction xs with
  | nil => rfl
  | cons b rest ih => rw [List.map_cons, inTurn_cons, ih]; rfl

theorem settleFrom_succ (depth : Nat) (t : TypeId) (trail? : Option (List TypeId)) (s : Types) :
    settleFrom (depth + 1) t trail? s =
      (settleSelf t trail? >>= fun _ => inTurn settleVisit (s.graph.visits t trail?) depth) s := by
  rw [settleFrom, settleSelf, bind_apply, get_apply, bind_assoc, bind_apply, get_apply]
  dsimp only
  unfold Graph.visits
  rcases s.graph.node t with _ | _ | _ | _ | ⟨target | ⟨side, name⟩⟩ | _ | ⟨_, fields⟩ | _ | _
  case pointer.settled | synonym =>
    rw [pure_bind, inTurn_one]
    rfl
  case pointer.deferred => exact (congrFun bind_pure_unit s).symm
  case array =>
    cases trail? with
    | none => rfl
    | some trail =>
      change _ = (pure () >>= fun _ => inTurn settleVisit [_] depth) s
      rw [pure_bind, inTurn_one]
      rfl
  case tuple =>
    rw [pure_bind, inTurn_map]
    rfl
  all_goals rfl

theorem lookUpIn_apply (side : Side) (name : String) (s : Types) :
    lookUpIn side name s = (match (s.home side).types.lookup name with
      | some (.settled t) => .ok t
      | some (.deferred ..) => .error (.misuse .operands)
      | none => .error ((s.home side).unknownType name), s) := by
  rw [lookUpIn, bind_apply, get_apply]
  dsimp only
  rw [bind_apply, Registry.entry]
  rcases (s.home side).types.lookup name with _ | ⟨_ | _⟩ <;> rfl

theorem settleSelf_apply (t : TypeId) (trail? : Option (List TypeId)) (s : Types) :
    settleSelf t trail? s = match s.graph.node t with
      | .pointer (.deferred side name) =>
        match (s.home side).types.lookup name with
        | some (.settled target) =>
          (.ok (), { s with graph := s.graph.set t (.pointer (.settled target)) })
        | some (.deferred ..) => (.error (.misuse .operands), s)
        | none => (.error ((s.home side).unknownType name), s)
      | .array .. => if trail?.isNone then (.error (.misuse .noTrail), s) else (.ok (), s)
      | _ => (.ok (), s) := by
  rw [settleSelf, bind_apply, get_apply]
  dsimp only
  rcases s.graph.node t with _ | _ | _ | _ | ⟨target | ⟨side, name⟩⟩ | _ | _ | _ | _
  case pointer.deferred =>
    dsimp only
    rw [bind_apply, lookUpIn_apply]
    rcases (s.home side).types.lookup name with _ | ⟨_ | _⟩ <;> rfl
  case array =>
    dsimp only
    split <;> rfl
  all_goals rfl

theorem settleSelf_ne_tooDeep (t : TypeId) (trail? : Option (List TypeId)) (s : Types) :
    (settleSelf t trail? s).1 ≠ tooDeep := by
  rw [settleSelf_apply]
  intro hdeep
  repeat' split at hdeep
  all_goals cases hdeep

theorem settleSelf_of_visits {t : TypeId} {trail? : Option (List TypeId)} {s : Types}
    (h : s.graph.visits t trail? ≠ []) : settleSelf t trail? s = (.ok (), s) := by
  revert h
  rw [settleSelf_apply, Graph.visits]
  rcases s.graph.node t with _ | _ | _ | _ | ⟨_ | _⟩ | _ | _ | _ | _
  case pointer.deferred => exact fun h => absurd rfl h
  case array =>
    cases trail? with
    | none => exact fun h => absurd rfl h
    | some trail => exact fun _ => rfl
  all_goals exact fun _ => rfl

theorem settleVisit_deepensAt {v : Visit} {depth : Nat}
    (h : DeepensAt (settleFrom · v.part v.told) depth) : DeepensAt (settleVisit v) depth := by
  intro s hs
  rw [settleVisit_apply] at hs
  rw [settleVisit_apply, settleVisit_apply]
  split
  · rename_i hseen
    rw [if_pos hseen] at hs
    exact h s hs
  · rfl

theorem settleFrom_deepens (t : TypeId) (trail? : Option (List TypeId)) :
    Deepens (settleFrom · t trail?) := by
  intro depth
  induction depth generalizing t trail? with
  | zero =>
    intro s hs
    exact absurd rfl hs
  | succ depth ih =>
    intro s hs
    dsimp only at hs ⊢
    rw [settleFrom_succ] at hs
    obtain ⟨-, hvisits⟩ := bind_ne_tooDeep.1 hs
    rw [settleFrom_succ, settleFrom_succ, bind_apply, bind_apply]
    rcases hself : settleSelf t trail? s with ⟨e | _, s'⟩
    · rfl
    · exact DeepensAt.inTurn (fun v _ => settleVisit_deepensAt (ih v.part v.told)) s'
        (hvisits () s' hself)

theorem settleVisit_deepens (v : Visit) : Deepens (settleVisit v) := fun depth =>
  settleVisit_deepensAt (settleFrom_deepens v.part v.told depth)

/-- A call: a type to be settled, what it is told of the trail, and the types at that time. -/
structure Call where
  types : Types
  type : TypeId
  told : Option (List TypeId)

def Call.Ends (c : Call) : Prop := Types.Ends (settleFrom · c.type c.told) c.types

/-- A call makes another: when the parts before are done, an open target is seen behind a part. -/
def Asks (c c' : Call) : Prop :=
  ∃ before v after, c.types.graph.visits c.type c.told = before ++ v :: after ∧
    Completes (inTurn settleVisit before) c.types c'.types ∧
    c'.types.graph.hasDeferrals v.part v.trail = true ∧ c'.type = v.part ∧ c'.told = v.told

theorem Asks.ne_tooDeep {c c' : Call} (h : Asks c c') {depth : Nat}
    (hs : (settleFrom (depth + 1) c.type c.told c.types).1 ≠ tooDeep) :
    (settleFrom depth c'.type c'.told c'.types).1 ≠ tooDeep := by
  obtain ⟨before, v, after, hsplit, ⟨depth', hbefore⟩, hseen, htype, htold⟩ := h
  have hself : settleSelf c.type c.told c.types = (.ok (), c.types) :=
    settleSelf_of_visits (by rw [hsplit]; simp)
  rw [settleFrom_succ, hsplit] at hs
  have hvisits := (bind_ne_tooDeep.1 hs).2 () c.types hself
  rw [inTurn_append] at hvisits
  obtain ⟨hhead, htail⟩ := bind_ne_tooDeep.1 hvisits
  have hsame := (Deepens.inTurn settleVisit_deepens before).agree hhead (by rw [hbefore]; simp)
  have hrest := htail () c'.types (hsame.symm.trans hbefore)
  rw [inTurn_cons] at hrest
  have hvisit := (bind_ne_tooDeep.1 hrest).1
  rw [settleVisit_apply, if_pos hseen] at hvisit
  rwa [htype, htold]

theorem Call.ends_of_asks {c : Call} (h : ∀ c', Asks c c' → c'.Ends) : c.Ends := by
  by_cases hnone : c.types.graph.visits c.type c.told = []
  · refine ⟨0 + 1, ?_⟩
    dsimp only
    rw [settleFrom_succ, hnone]
    exact bind_ne_tooDeep.2 ⟨settleSelf_ne_tooDeep _ _ _, fun _ _ _ => by simp [inTurn_nil]⟩
  · have hvisits : Types.Ends (inTurn settleVisit (c.types.graph.visits c.type c.told)) c.types := by
      rw [ends_inTurn settleVisit_deepens]
      intro before v after s' hsplit hbefore
      by_cases hseen : s'.graph.hasDeferrals v.part v.trail = true
      · obtain ⟨depth, hdepth⟩ := h ⟨s', v.part, v.told⟩
          ⟨before, v, after, hsplit, hbefore, hseen, rfl, rfl⟩
        exact ⟨depth, by rwa [settleVisit_apply, if_pos hseen]⟩
      · exact ⟨0, by rw [settleVisit_apply, if_neg hseen]; simp⟩
    obtain ⟨depth, hdepth⟩ := hvisits
    refine ⟨depth + 1, ?_⟩
    dsimp only
    rw [settleFrom_succ, bind_apply, settleSelf_of_visits hnone]
    exact hdepth

theorem Call.ends_iff_acc (c : Call) : c.Ends ↔ Acc (fun c' c => Asks c c') c := by
  constructor
  · rintro ⟨depth, hs⟩
    induction depth generalizing c with
    | zero => exact absurd rfl hs
    | succ depth ih => exact ⟨c, fun c' hasks => ih c' (hasks.ne_tooDeep hs)⟩
  · intro hacc
    induction hacc with
    | intro c _ ih => exact ends_of_asks ih

end Chalkboard.Types
