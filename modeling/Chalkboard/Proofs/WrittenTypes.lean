import Chalkboard.Proofs.ReadSentences
import Chalkboard.Proofs.GrowingTypes

/-! Variable declarations as they are written. Reading them goes word by word and makes each type as soon
as it is read; but which words are there depends on the types only through the names of constants, and
these stay the same. So a section of variables is read as if all words came first and the declarations
were made afterwards, one by one. -/

namespace Chalkboard.Types

open Effects

section Add

variable {g : Graph} {t : TypeId} {n : Node}

theorem Graph.node_add_self : (g.add n).2.node g.nodes.size = n := by
  simp [Graph.node, Graph.add]

theorem Graph.node_add_ne (h : t ≠ g.nodes.size) : (g.add n).2.node t = g.node t := by
  simp only [Graph.node, Graph.add, Array.getD_eq_getD_getElem?, Array.getElem?_push]
  rw [if_neg h]

theorem Graph.size_add : (g.add n).2.nodes.size = g.nodes.size + 1 := Array.size_push _

end Add

/-- An open target and the type its name stands for. -/
def Means (s : Types) (o u : TypeId) : Prop :=
  ∃ side name, s.graph.node o = .pointer (.deferred side name) ∧
    (s.home side).types.lookup name = some (.settled u)

/-- What declaring variables does to types: types are added, and open targets are settled as their names
say. The names themselves stay. -/
structure Extends (s s' : Types) : Prop where
  size : s.graph.nodes.size ≤ s'.graph.nodes.size
  rest : s' = { s with graph := s'.graph }
  node {t : TypeId} (ht : t < s.graph.nodes.size) :
    s'.graph.node t = s.graph.node t ∨ ∃ u, s.Means t u ∧ s'.graph.node t = .pointer (.settled u)

section Extends

variable {s s' s'' : Types} {t u : TypeId}

theorem Extends.refl (s : Types) : Extends s s := ⟨Nat.le_refl _, rfl, fun _ => .inl rfl⟩

theorem Extends.home (h : Extends s s') (side : Side) : s'.home side = s.home side := by
  rw [h.rest]
  rfl

theorem Extends.registry (h : Extends s s') : s'.registry = s.registry := by
  rw [h.rest]

theorem Extends.registered (h : Extends s s') : s'.Registered t ↔ s.Registered t := by
  rw [h.rest]
  rfl

theorem Extends.means (h : Extends s s') (hnode : s'.graph.node t = s.graph.node t) :
    s'.Means t u ↔ s.Means t u := by
  unfold Means
  rw [hnode]
  simp only [h.home]

theorem Extends.trans (h : Extends s s') (h' : Extends s' s'') : Extends s s'' := by
  refine ⟨Nat.le_trans h.size h'.size, ?_, fun {t} ht => ?_⟩
  · rw [h'.rest, h.rest]
  · rcases h.node ht with hsame | ⟨u, hmeans, hnode⟩
    · rcases h'.node (Nat.lt_of_lt_of_le ht h.size) with hsame' | ⟨u, hmeans', hnode'⟩
      · exact .inl (hsame'.trans hsame)
      · exact .inr ⟨u, (h.means hsame).1 hmeans', hnode'⟩
    · rcases h'.node (Nat.lt_of_lt_of_le ht h.size) with hsame' | ⟨_, ⟨_, _, hopen, -⟩, -⟩
      · exact .inr ⟨u, hmeans, hsame'.trans hnode⟩
      · rw [hnode] at hopen
        cases hopen

theorem Later.extends (h : Later s s') : Extends s s' := by
  refine ⟨Nat.le_of_eq h.settles.size.symm, h.rest, fun {t} _ => ?_⟩
  rcases h.settles.node t with hsame | ⟨hopen, target, hnode⟩
  · exact .inl hsame
  · rcases hwas : s.graph.node t with _ | _ | _ | _ | ⟨_ | ⟨side, name⟩⟩ | _ | _ | _ | _
    case pointer.deferred => exact .inr ⟨target, ⟨side, name, hwas, h.named hwas hnode⟩, hnode⟩
    all_goals
      rw [hwas] at hopen
      cases hopen

theorem extends_add (s : Types) (n : Node) : Extends s { s with graph := (s.graph.add n).2 } := by
  refine ⟨?_, rfl, fun {t} ht => .inl (Graph.node_add_ne (Nat.ne_of_lt ht))⟩
  rw [Graph.size_add]
  exact Nat.le_succ _

theorem Extends.constantNames (h : Extends s s')
    (hnames : ∀ t, s.Registered t → t < s.graph.nodes.size) :
    s'.constantNames = s.constantNames := by
  unfold Types.constantNames
  rw [h.registry]
  refine List.flatMap_congr fun entry hentry => ?_
  obtain ⟨name, t | _⟩ := entry
  · rcases h.node (hnames t ⟨name, hentry⟩) with hsame | ⟨u, ⟨_, _, hopen, -⟩, hnode⟩
    · dsimp only
      rw [hsame]
    · dsimp only
      rw [hnode, hopen]
  · rfl

end Extends

end Chalkboard.Types

namespace Chalkboard.Reading

open Effects Chalkboard.Types
open Syntax (Expr Variable Declaration TypeDeclaration Sentence Program)

/-- A type as it is written. An array has no axes if one of their ends is not a number. -/
inductive TypeForm where
  | named (name : String)
  | pointer (of : TypeForm)
  | array (spans : Option (List (Int × Int))) (of : TypeForm)
  deriving DecidableEq

def endOf : Expr → Option Int
  | .literal _ word => Number.readInt? word.text
  | _ => none

def spanOf : Option Expr × Expr → Option (Int × Int)
  | (some low, high) => do return (← endOf low, ← endOf high)
  | (none, high) => do return (0, ← endOf high)

def axisAlong (span : Int × Int) : Axis := ⟨.known (.int span.1), .known (.int span.2)⟩

/-- Makes the type that is written. A name that is not known is left open. -/
def make : TypeForm → TypesM Target
  | .named name => do return (← get).target name
  | .pointer of => do return .settled (← Types.add (.pointer (← make of)))
  | .array spans of => do
    match ← make of, spans with
    | .deferred .., _ => throw (.misuse .wrongPart)
    | .settled _, none => throw (.misuse .noMemory)
    | .settled element, some spans =>
      return .settled (← Types.add (.array element (spans.map axisAlong)))

/-- A variable with its type, as they are written. -/
abbrev Announced := Variable × TypeForm

def declare (v : Announced) : TypesM Declaration := do
  return ⟨v.1, ← variableType (← make v.2)⟩

def declareEach (vs : List Announced) : TypesM (List Declaration) := vs.mapM declare

section Scan

variable (scope : Scope)

def scanLimit (spot : Spot) : Read Expr := do
  let t ← look
  match t.kind with
  | .int =>
    liftM (checkInt t.lexeme)
    advance spot
    return .literal .integer t.lexeme
  | _ => return (← readVariable scope).toExpr

def scanAxis : Read (Option Expr × Expr) := do
  let first ← scanLimit scope .afterAxisStart
  if (← look).kind == .symbol .dots then
    advance .axis
    return (some first, ← scanLimit scope .afterAxisEnd)
  else return (none, first)

def scanAxes : Nat → Read (List (Option Expr × Expr))
  | 0 => refuse
  | fuel + 1 => do
    let axis ← scanAxis scope
    if (← look).kind == .symbol .comma then
      advance .axis
      return axis :: (← scanAxes fuel)
    else
      let _ ← expect (.symbol .closeBracket) .axesClose
      return [axis]

def scanType : Nat → Read TypeForm
  | 0 => refuse
  | fuel + 1 => do
    let t ← look
    match t.kind with
    | .basicType | .lowerName =>
      advance .afterTypeName
      return .named t.text
    | .word .pointer =>
      advance .pointerOf
      advance .typePlace
      return .pointer (← scanType fuel)
    | .word .array =>
      advance .axesOpen
      advance .axis
      let axes ← scanAxes scope fuel
      advance .typePlace
      return .array (axes.mapM spanOf) (← scanType fuel)
    | _ => refuse

def scanDeclaration : Read Announced := do
  advance .variablePrimary
  let v ← readVariable scope
  let _ ← expect (.symbol .colon) .typePlace
  let fuel ← rounds
  let form ← scanType scope fuel
  if (← look).kind != .separator then refuse
  if reserved.contains v.name.text then throw (.typing (.reservedVariable v.name.text))
  advance .afterVariableDeclaration
  return (v, form)

def scanVariables : Nat → Read (List Announced)
  | 0 => return []
  | fuel + 1 => do
    if (← look).kind == .word .varWord then
      let v ← scanDeclaration scope
      return v :: (← scanVariables fuel)
    else return []

end Scan

/-- A program whose variables are not declared yet. -/
structure Announcement where
  types : List TypeDeclaration
  procedures : Nat
  announced : List Announced
  sentences : List Sentence

def readHead (setting : Setting) : Declare (List TypeDeclaration × Nat) := do
  let types ← readTypeSection setting (← roundsLeft)
  let procedures ← readProcedures (← roundsLeft)
  return (types, procedures)

/-- The sentences of a program, with nothing behind them. -/
def scanEnd (scope : Scope) : Read (List Sentence) := do
  let sentences ← readSentences scope
  if (← look).kind != .finish then refuse
  return sentences

/-- The rest of a program, where its variables are only looked at. -/
def scanRest (scope : Scope) : Read (List Announced × List Sentence) := do
  let announced ← scanVariables scope (← rounds)
  return (announced, ← scanEnd scope)

/-- Reads a program and declares its types, but not its variables. -/
def readAnnounced (setting : Setting) (text : String) : TypesM Announcement := do
  let start ← ({ rest := text.toList : Source }).next .start none
  let ((types, procedures), c) ← (readHead setting).run start
  let s ← get
  let ((announced, sentences), _) ← (scanRest ⟨s.constantNames, setting.environment⟩).run c
  return ⟨types, procedures, announced, sentences⟩

section Follows

variable {α β ω : Type} {s : Types} {c : Cursor}

theorem declare_bind (m : Declare α) (k : α → Declare β) (c : Cursor) (s : Types) :
    (m >>= k) c s = match m c s with
      | (.ok (a, c'), s') => k a c' s'
      | (.error e, s') => (.error e, s') := by
  change (m c >>= fun found => k found.1 found.2) s = _
  rw [bind_apply]
  rcases m c s with ⟨_ | ⟨_, _⟩, _⟩ <;> rfl

variable {k : ω → TypesM α} {m : Declare α} {r : Read α} {r' : β → Read ω}

theorem declare_bind_ok {k : α → Declare β} {c c' : Cursor} {s s' : Types} {b : β}
    (h : (m >>= k) c s = (.ok (b, c'), s')) :
    ∃ a c₁ s₁, m c s = (.ok (a, c₁), s₁) ∧ k a c₁ s₁ = (.ok (b, c'), s') := by
  rw [declare_bind] at h
  rcases hm : m c s with ⟨e | ⟨a, c₁⟩, s₁⟩
  · rw [hm] at h
    cases h
  · rw [hm] at h
    exact ⟨a, c₁, s₁, rfl, h⟩

theorem reading_apply (r : Read α) (c : Cursor) (s : Types) : reading r c s = (r c, s) := by
  unfold reading
  rcases r c with _ | _ <;> rfl

theorem typing_apply (m : TypesM α) (c : Cursor) (s : Types) :
    typing m c s = ((m s).1.map (·, c), (m s).2) := by
  change (m >>= fun a => pure (a, c)) s = _
  rw [bind_apply]
  rcases m s with ⟨_ | _, _⟩ <;> rfl

theorem read_bind (r : Read α) (k : α → Read β) (c : Cursor) :
    (r >>= k) c = match r c with
      | .ok (a, c') => k a c'
      | .error e => .error e := by
  change (r c >>= fun found => k found.1 found.2) = _
  rcases r c with _ | ⟨_, _⟩ <;> rfl

theorem look_apply (c : Cursor) : look c = .ok (c.look, c) := rfl

/-- Reading that only reads words, given the types. -/
def Reads (m : Declare α) (r : Read α) (s : Types) : Prop := ∀ c, m c s = (r c, s)

theorem Reads.reading (r : Read α) : Reads (reading r) r s := fun c => reading_apply r c s

theorem Reads.pure (a : α) : Reads (Pure.pure a) (Pure.pure a) s := fun _ => rfl

theorem Reads.bind {k : α → Declare β} {k' : α → Read β}
    (h : Reads m r s) (hk : ∀ a, Reads (k a) (k' a) s) : Reads (m >>= k) (r >>= k') s := by
  intro c
  rw [declare_bind, read_bind, h c]
  rcases r c with _ | ⟨a, c'⟩
  · rfl
  · exact hk a c'

theorem Reads.ite {p : Prop} [Decidable p] {m' : Declare α} {r' : Read α} (h : Reads m r s)
    (h' : Reads m' r' s) : Reads (if p then m else m') (if p then r else r') s := by
  split
  · exact h
  · exact h'

/-- Reading that makes types comes to reading words and then making what they say. Where the words cannot
be read it fails, though perhaps with the fault of an earlier making. -/
def Follows (m : Declare α) (r : Read ω) (k : ω → TypesM α) (c : Cursor) (s : Types) : Prop :=
  match r c with
  | .ok (w, c') => m c s = ((k w s).1.map (·, c'), (k w s).2)
  | .error _ => ∃ e, (m c s).1 = .error e

theorem Reads.follows {m₀ : Declare β} {r : Read β} (h : Reads m₀ r s) {m : β → Declare α}
    (hk : ∀ b c', Follows (m b) (r' b) k c' s) (c : Cursor) :
    Follows (m₀ >>= m) (r >>= r') k c s := by
  rw [Follows, read_bind, declare_bind, h c]
  rcases r c with e | ⟨b, c'⟩
  · exact ⟨e, rfl⟩
  · exact hk b c'

theorem Follows.read {r : Read β} {m : β → Declare α}
    (h : ∀ b c', Follows (m b) (r' b) k c' s) : Follows (reading r >>= m) (r >>= r') k c s :=
  (Reads.reading r).follows h c

theorem Follows.refuse :
    Follows (reading (Reading.refuse : Read α)) (Reading.refuse : Read ω) k c s := ⟨_, rfl⟩

theorem Follows.pure {a : α} {w : ω} (h : k w s = (.ok a, s)) :
    Follows (Pure.pure a) (Pure.pure w) k c s := by
  change (Except.ok (a, c), s) = ((k w s).1.map (·, c), (k w s).2)
  rw [h]
  rfl

theorem Follows.scope {setting : Setting} {m : Scope → Declare α} {r : Read ω}
    (h : Follows (m ⟨s.constantNames, setting.environment⟩) r k c s) :
    Follows (scopeOf setting >>= m) r k c s := h

theorem Follows.bind {m : Declare β} {r : Read ω} {k : ω → TypesM β} (h : Follows m r k c s)
    {ω' : Type} {f : β → Declare α} {r' : ω → Read ω'} {k' : ω' → TypesM α}
    (hok : ∀ w b c' s', k w s = (.ok b, s') → match r' w c' with
      | .ok (w', c'') => f b c' s' = ((k' w' s).1.map (·, c''), (k' w' s).2)
      | .error _ => ∃ e, (f b c' s').1 = .error e)
    (hfail : ∀ w e s' c' w' c'', k w s = (.error e, s') → r' w c' = .ok (w', c'') →
      k' w' s = (.error e, s')) :
    Follows (m >>= f) (r >>= r') k' c s := by
  rw [Follows] at h ⊢
  rw [read_bind, declare_bind]
  rcases hr : r c with e | ⟨w, c'⟩
  · rw [hr] at h
    obtain ⟨e', he'⟩ := h
    rcases hm : m c s with ⟨e'' | a, s'⟩
    · exact ⟨e'', rfl⟩
    · rw [hm] at he'
      cases he'
  · rw [hr] at h
    dsimp only at h ⊢
    rw [h]
    rcases hk : k w s with ⟨e | b, s'⟩
    · rcases hr' : r' w c' with e' | ⟨w', c''⟩
      · exact ⟨e, rfl⟩
      · dsimp only
        rw [hfail w e s' c' w' c'' hk hr']
        rfl
    · exact hok w b c' s' hk

end Follows

section Axes

variable {s : Types} {c : Cursor}

theorem limitValue_apply (e : Expr) :
    limitValue e c s = (match endOf e with
      | some n => .ok (.known (.int n), c)
      | none => .error (.misuse .noMemory), s) := by
  cases e with
  | literal kind word =>
    unfold limitValue endOf
    dsimp only
    cases Number.readInt? word.text <;> rfl
  | _ => rfl

theorem axisOf_apply (axis : Option Expr × Expr) :
    axisOf axis c s = (match spanOf axis with
      | some span => .ok (axisAlong span, c)
      | none => .error (.misuse .noMemory), s) := by
  obtain ⟨_ | low, high⟩ := axis
  · rw [axisOf, spanOf, declare_bind, limitValue_apply]
    cases endOf high <;> rfl
  · rw [axisOf, spanOf, declare_bind, limitValue_apply]
    cases endOf low with
    | none => rfl
    | some n =>
      dsimp only
      rw [declare_bind, limitValue_apply]
      cases endOf high <;> rfl

theorem axes_apply (axes : List (Option Expr × Expr)) :
    axes.mapM axisOf c s = (match axes.mapM spanOf with
      | some spans => .ok (spans.map axisAlong, c)
      | none => .error (.misuse .noMemory), s) := by
  induction axes generalizing c with
  | nil => rfl
  | cons axis rest ih =>
    rw [List.mapM_cons, List.mapM_cons, declare_bind, axisOf_apply]
    cases spanOf axis with
    | none => rfl
    | some span =>
      dsimp only
      rw [declare_bind, ih]
      cases rest.mapM spanOf <;> rfl

end Axes

/-- What can be read where types are known: the constants they bring and the environment. -/
def scopeIn (setting : Setting) (s : Types) : Scope := ⟨s.constantNames, setting.environment⟩

section Types

variable {setting : Setting} {s : Types}

theorem scope_reads {α : Type} {k : Scope → Declare α} {r : Read α}
    (h : Reads (k (scopeIn setting s)) r s) : Reads (scopeOf setting >>= k) r s := fun c => h c

theorem readLimit_reads (spot : Spot) :
    Reads (readLimit setting spot) (scanLimit (scopeIn setting s) spot) s := by
  refine (Reads.reading look).bind fun t => ?_
  generalize t.kind = kind
  cases kind
  case int => exact (Reads.reading _).bind fun _ => (Reads.reading _).bind fun _ => .pure _
  all_goals exact scope_reads ((Reads.reading _).bind fun _ => .pure _)

theorem readAxis_reads : Reads (readAxis setting) (scanAxis (scopeIn setting s)) s := by
  refine (readLimit_reads _).bind fun first => (Reads.reading look).bind fun t => .ite ?_ (.pure _)
  exact (Reads.reading _).bind fun _ => (readLimit_reads _).bind fun _ => .pure _

theorem readAxes_reads (fuel : Nat) :
    Reads (readAxes setting fuel) (scanAxes (scopeIn setting s) fuel) s := by
  induction fuel with
  | zero => exact .reading _
  | succ fuel ih =>
    refine readAxis_reads.bind fun axis => (Reads.reading look).bind fun t => .ite ?_ ?_
    · exact (Reads.reading _).bind fun _ => ih.bind fun _ => .pure _
    · exact (Reads.reading _).bind fun _ => .pure _

theorem make_pointer (of : TypeForm) :
    make (.pointer of) s = match make of s with
      | (.ok target, s') => (.ok (.settled s'.graph.nodes.size),
          { s' with graph := (s'.graph.add (.pointer target)).2 })
      | (.error e, s') => (.error e, s') := by
  rw [make, bind_apply]
  rcases make of s with ⟨_ | _, _⟩ <;> rfl

theorem make_array (spans : Option (List (Int × Int))) (of : TypeForm) :
    make (.array spans of) s = match make of s, spans with
      | (.ok (.settled element), s'), some spans => (.ok (.settled s'.graph.nodes.size),
          { s' with graph := (s'.graph.add (.array element (spans.map axisAlong))).2 })
      | (.ok (.settled _), s'), none => (.error (.misuse .noMemory), s')
      | (.ok (.deferred ..), s'), _ => (.error (.misuse .wrongPart), s')
      | (.error e, s'), _ => (.error e, s') := by
  rw [make, bind_apply]
  rcases make of s with ⟨_ | ⟨element | _⟩, s'⟩
  case ok.settled => cases spans <;> rfl
  all_goals rfl

theorem readType_follows (fuel : Nat) (c : Cursor) :
    Follows (readType setting fuel) (scanType (scopeIn setting s) fuel) make c s := by
  induction fuel generalizing c with
  | zero => exact .refuse
  | succ fuel ih =>
    refine .read fun t c₁ => ?_
    generalize t.kind = kind
    cases kind
    case basicType | lowerName => exact .read fun _ _ => .pure rfl
    case word word =>
      cases word
      case pointer =>
        refine .read fun _ _ => .read fun _ c₂ => (ih c₂).bind ?_ ?_
        · intro form target c₃ s' hmake
          change _ = ((make (.pointer form) s).1.map (·, c₃), (make (.pointer form) s).2)
          rw [make_pointer, hmake]
          rfl
        · intro form e s' c₃ w c₄ hmake hw
          cases hw
          rw [make_pointer, hmake]
      case array =>
        refine .read fun _ _ => .read fun _ c₂ => (readAxes_reads fuel).follows ?_ c₂
        intro axes c₃
        refine .read fun _ c₄ => (ih c₄).bind ?_ ?_
        · intro form target c₅ s' hmake
          change _ = ((make (.array (axes.mapM spanOf) form) s).1.map (·, c₅),
            (make (.array (axes.mapM spanOf) form) s).2)
          rw [make_array, hmake]
          cases target with
          | deferred side name => rfl
          | settled element =>
            dsimp only
            rw [declare_bind, axes_apply]
            cases axes.mapM spanOf <;> rfl
        · intro form e s' c₅ w c₆ hmake hw
          cases hw
          rw [make_array, hmake]
      all_goals exact .refuse
    all_goals exact .refuse

end Types

section Declare

variable {setting : Setting} {s : Types}

theorem make_keeps {P : Types → Prop} (hadd : ∀ s n, P s → P { s with graph := (s.graph.add n).2 })
    (form : TypeForm) (hs : P s) : P (make form s).2 := by
  induction form with
  | named name => exact hs
  | pointer of ih =>
    rw [make_pointer]
    revert ih
    rcases make of s with ⟨_ | target, s₁⟩
    · exact id
    · exact hadd s₁ _
  | array spans of ih =>
    rw [make_array]
    revert ih
    rcases make of s with ⟨_ | ⟨element | _⟩, s₁⟩
    · exact id
    · cases spans with
      | none => exact id
      | some spans => exact hadd s₁ _
    · exact id

theorem make_induct {s' : Types} {P : TypeForm → Target → Types → Prop}
    (named : ∀ name, P (.named name) (s.target name) s)
    (pointer : ∀ of target s₁, P of target s₁ → P (.pointer of) (.settled s₁.graph.nodes.size)
      { s₁ with graph := (s₁.graph.add (.pointer target)).2 })
    (array : ∀ spans of element s₁, P of (.settled element) s₁ →
      P (.array (some spans) of) (.settled s₁.graph.nodes.size)
        { s₁ with graph := (s₁.graph.add (.array element (spans.map axisAlong))).2 })
    {form : TypeForm} {target : Target} (h : make form s = (.ok target, s')) : P form target s' := by
  induction form generalizing target s' with
  | named name =>
    cases h
    exact named name
  | pointer of ih =>
    rw [make_pointer] at h
    rcases hof : make of s with ⟨e | target₁, s₁⟩
    · rw [hof] at h
      cases h
    · rw [hof] at h
      cases h
      exact pointer of target₁ s₁ (ih hof)
  | array spans of ih =>
    rw [make_array] at h
    rcases hof : make of s with ⟨e | ⟨element | _⟩, s₁⟩
    case ok.settled =>
      rw [hof] at h
      cases spans with
      | none => cases h
      | some spans =>
        cases h
        exact array spans of element s₁ (ih hof)
    all_goals
      rw [hof] at h
      cases h

theorem make_extends (form : TypeForm) (s : Types) : Extends s (make form s).2 :=
  make_keeps (fun s₁ n h => h.trans (extends_add s₁ n)) form (.refl s)

theorem variableType_extends (target : Target) (s : Types) : Extends s (variableType target s).2 := by
  cases target with
  | deferred side name =>
    rw [variableType, lookUpIn_apply]
    exact .refl s
  | settled t =>
    rw [variableType, bind_apply, get_apply]
    dsimp only
    split
    · have hlater := settleFrom_later settleDepth t none s
      rw [bind_apply, settle]
      revert hlater
      rcases settleFrom settleDepth t none s with ⟨_ | _, s'⟩ <;> exact Later.extends
    · exact .refl s

theorem declare_apply (v : Announced) (s : Types) :
    declare v s = match make v.2 s with
      | (.ok target, s₁) => ((variableType target s₁).1.map (⟨v.1, ·⟩), (variableType target s₁).2)
      | (.error e, s₁) => (.error e, s₁) := by
  rw [declare, bind_apply]
  rcases make v.2 s with ⟨_ | target, s₁⟩
  · rfl
  · dsimp only
    rw [bind_apply]
    rcases variableType target s₁ with ⟨_ | _, _⟩ <;> rfl

theorem declare_extends (v : Announced) (s : Types) : Extends s (declare v s).2 := by
  have hmake := make_extends v.2 s
  rw [declare_apply]
  revert hmake
  rcases make v.2 s with ⟨_ | target, s₁⟩
  · exact id
  · exact fun hmake => hmake.trans (variableType_extends target s₁)

theorem readDeclaration_follows (c : Cursor) :
    Follows (readDeclaration setting) (scanDeclaration (scopeIn setting s)) declare c s := by
  refine .read fun _ c₁ => .scope (.read fun v c₂ => .read fun _ c₃ => .read fun fuel c₄ => ?_)
  refine (readType_follows fuel c₄).bind ?_ ?_
  · intro form target c₅ s' hmake
    rw [read_bind, declare_bind, reading_apply, look_apply]
    dsimp only
    by_cases hend : (c₅.look.kind != .separator) = true
    · rw [if_pos hend, if_pos hend]
      exact ⟨_, rfl⟩
    rw [if_neg hend, if_neg hend]
    by_cases hreserved : reserved.contains v.name.text = true
    · rw [if_pos hreserved, if_pos hreserved]
      exact ⟨_, rfl⟩
    rw [if_neg hreserved, if_neg hreserved, read_bind, declare_bind, typing_apply]
    rcases hadvance : advance .afterVariableDeclaration c₅ with e | ⟨_, c₆⟩
    · dsimp only
      rcases variableType target s' with ⟨e' | t, s''⟩
      · exact ⟨e', rfl⟩
      · refine ⟨e, ?_⟩
        dsimp only [Except.map]
        rw [declare_bind, reading_apply, hadvance]
    · change _ = ((declare (v, form) s).1.map (·, c₆), (declare (v, form) s).2)
      rw [declare_apply, hmake]
      dsimp only
      rcases variableType target s' with ⟨e' | t, s''⟩
      · rfl
      · dsimp only [Except.map]
        rw [declare_bind, reading_apply, hadvance]
        rfl
  · intro form e s' c₅ w c₆ hmake hw
    have hform : w.2 = form := by
      rw [read_bind, look_apply] at hw
      dsimp only at hw
      split at hw
      · cases hw
      · split at hw
        · cases hw
        · rw [read_bind] at hw
          split at hw
          · cases hw
            rfl
          · cases hw
    rw [declare_apply, hform, hmake]

theorem declareEach_cons (v : Announced) (vs : List Announced) (s : Types) :
    declareEach (v :: vs) s = match declare v s with
      | (.ok d, s') => ((declareEach vs s').1.map (d :: ·), (declareEach vs s').2)
      | (.error e, s') => (.error e, s') := by
  rw [declareEach, List.mapM_cons, bind_apply]
  rcases declare v s with ⟨_ | d, s'⟩
  · rfl
  · dsimp only
    rw [bind_apply, declareEach]
    rcases List.mapM declare vs s' with ⟨_ | _, _⟩ <;> rfl

theorem declareEach_extends (vs : List Announced) (s : Types) : Extends s (declareEach vs s).2 := by
  induction vs generalizing s with
  | nil => exact .refl s
  | cons v vs ih =>
    have hdeclare := declare_extends v s
    rw [declareEach_cons]
    revert hdeclare
    rcases declare v s with ⟨_ | d, s'⟩
    · exact id
    · exact fun hdeclare => hdeclare.trans (ih s')

theorem readVariableSection_follows (fuel : Nat) (c : Cursor) (s : Types)
    (hnames : ∀ t, s.Registered t → t < s.graph.nodes.size) :
    Follows (readVariableSection setting fuel) (scanVariables (scopeIn setting s) fuel) declareEach
      c s := by
  induction fuel generalizing c s with
  | zero => exact .pure rfl
  | succ fuel ih =>
    refine .read fun t c₁ => ?_
    by_cases hvar : (t.kind == .word .varWord) = true
    · rw [if_pos hvar, if_pos hvar]
      refine (readDeclaration_follows c₁).bind ?_ ?_
      · intro v d c₂ s' hdeclare
        have hext := declare_extends v s
        rw [hdeclare] at hext
        have hscope : scopeIn setting s' = scopeIn setting s := by
          rw [scopeIn, hext.constantNames hnames, scopeIn]
        have hnames' (t : TypeId) (ht : s'.Registered t) : t < s'.graph.nodes.size :=
          Nat.lt_of_lt_of_le (hnames t (hext.registered.1 ht)) hext.size
        have hrest := ih c₂ s' hnames'
        rw [Follows, hscope] at hrest
        rw [read_bind, declare_bind]
        rcases hscan : scanVariables (scopeIn setting s) fuel c₂ with e | ⟨vs, c₃⟩
        · rw [hscan] at hrest
          obtain ⟨e', he'⟩ := hrest
          rcases hread : readVariableSection setting fuel c₂ s' with ⟨e'' | _, s''⟩
          · exact ⟨e'', rfl⟩
          · rw [hread] at he'
            cases he'
        · rw [hscan] at hrest
          change _ = ((declareEach (v :: vs) s).1.map (·, c₃), (declareEach (v :: vs) s).2)
          rw [declareEach_cons, hdeclare]
          dsimp only at hrest ⊢
          rw [hrest]
          rcases declareEach vs s' with ⟨_ | _, _⟩ <;> rfl
      · intro v e s' c₂ vs c₃ hdeclare hvs
        rw [read_bind] at hvs
        split at hvs
        · cases hvs
          rw [declareEach_cons, hdeclare]
        · cases hvs
    · rw [if_neg hvar, if_neg hvar]
      exact .pure rfl

def readEnd (setting : Setting) : Declare (List Sentence) := do
  let sentences ← reading (readSentences (← scopeOf setting))
  if (← reading look).kind != .finish then reading refuse
  return sentences

theorem readEnd_reads : Reads (readEnd setting) (scanEnd (scopeIn setting s)) s :=
  scope_reads ((Reads.reading _).bind fun _ => (Reads.reading look).bind fun _ =>
    .ite ((Reads.reading refuse).bind fun _ => .pure _) (.pure _))

/-- What comes behind the head of a program: its variables are declared, and its sentences read. -/
def readRest (setting : Setting) (head : List TypeDeclaration × Nat) : Declare Program := do
  let declarations ← readVariableSection setting (← roundsLeft)
  return ⟨head.1, head.2, declarations, ← readEnd setting⟩

theorem readSections_eq (setting : Setting) :
    readSections setting = readHead setting >>= readRest setting := by
  have hite (p : Prop) [Decidable p] (k : List Sentence → Declare Program) (sentences : List Sentence) :
      ((if p then reading refuse >>= fun _ : Unit => pure sentences else pure sentences) >>= k) =
        if p then reading refuse >>= fun _ : Unit => k sentences else k sentences := by
    split
    · rw [bind_assoc]
      simp only [pure_bind]
    · rw [pure_bind]
  unfold readSections readHead readRest readEnd
  simp only [bind_assoc, pure_bind, hite]

/-- The program that an announcement becomes, its open targets still open. -/
def declareUnsettled (a : Announcement) : TypesM Program := do
  return ⟨a.types, a.procedures, ← declareEach a.announced, a.sentences⟩

theorem declareUnsettled_apply (a : Announcement) (s : Types) :
    declareUnsettled a s = ((declareEach a.announced s).1.map (⟨a.types, a.procedures, ·, a.sentences⟩),
      (declareEach a.announced s).2) := by
  rw [declareUnsettled, bind_apply]
  rcases declareEach a.announced s with ⟨_ | _, _⟩ <;> rfl

theorem readRest_follows (head : List TypeDeclaration × Nat) (c : Cursor) (s : Types)
    (hnames : ∀ t, s.Registered t → t < s.graph.nodes.size) :
    Follows (readRest setting head) (scanRest (scopeIn setting s))
      (fun found => declareUnsettled ⟨head.1, head.2, found.1, found.2⟩) c s := by
  refine .read fun fuel c₁ => (readVariableSection_follows fuel c₁ s hnames).bind ?_ ?_
  · intro vs ds c₂ s' hdeclare
    have hext := declareEach_extends vs s
    rw [hdeclare] at hext
    have hscope : scopeIn setting s' = scopeIn setting s := by
      rw [scopeIn, hext.constantNames hnames, scopeIn]
    rw [read_bind, declare_bind, readEnd_reads c₂, hscope]
    rcases scanEnd (scopeIn setting s) c₂ with e | ⟨sentences, c₃⟩
    · exact ⟨e, rfl⟩
    · change _ = ((declareUnsettled ⟨head.1, head.2, vs, sentences⟩ s).1.map (·, c₃),
        (declareUnsettled ⟨head.1, head.2, vs, sentences⟩ s).2)
      rw [declareUnsettled_apply, hdeclare]
      rfl
  · intro vs e s' c₂ found c₃ hdeclare hfound
    rw [read_bind] at hfound
    split at hfound
    · cases hfound
      rw [declareUnsettled_apply, hdeclare]
      rfl
    · cases hfound

end Declare

end Chalkboard.Reading
