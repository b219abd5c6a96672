import Chalkboard.Proofs.SideBySide
import Chalkboard.Proofs.WithinLimits

/-! Limits only cut runs short. A limit on steps ends every run one step behind it at the latest, and a limit
on the depth of types ends every check of a type. What is read and done under some limits is read and done
in the same way under looser ones: each check looks at the same types and the same memory, and it has less
to object to. -/

namespace Chalkboard.Effects

variable {σ α β : Type}

/-- What the first brings about the second brings about, too, and it leaves the same state. -/
def Repeats (work work' : Work σ α) : Prop := Tracks Eq Eq work work'

section Repeats

variable {work work' : Work σ α} {s s' : σ}

theorem Repeats.ok (h : Repeats work work') {a : α} (hwork : work s = (.ok a, s')) :
    work' s = (.ok a, s') := by
  have hs := h s s rfl
  rw [hwork] at hs
  rcases hwork' : work' s with ⟨e | b, t⟩ <;> rw [hwork'] at hs
  · exact hs.elim
  · obtain ⟨rfl, rfl⟩ := hs
    rfl

theorem Repeats.of_ok (h : ∀ s a s', work s = (.ok a, s') → work' s = (.ok a, s')) :
    Repeats work work' := by
  rintro s _ rfl
  rcases hwork : work s with ⟨e | a, s'⟩
  · exact .error e s'
  · rw [h s a s' hwork]
    exact ⟨rfl, rfl⟩

theorem Repeats.refl (work : Work σ α) : Repeats work work := .of_ok fun _ _ _ => id

variable {k k' : α → Work σ β}

theorem Repeats.bind (h : Repeats work work') (hk : ∀ a, Repeats (k a) (k' a)) :
    Repeats (work >>= k) (work' >>= k') :=
  Tracks.bind h fun a b hab => by
    subst hab
    exact hk a

theorem Repeats.then (hk : ∀ a, Repeats (k a) (k' a)) :
    Repeats (work >>= k) (work >>= k') := (Repeats.refl work).bind hk

theorem Repeats.ite {p : Prop} [Decidable p] {other other' : Work σ α} (h : Repeats work work')
    (h' : Repeats other other') : Repeats (if p then work else other) (if p then work' else other') := by
  split
  · exact h
  · exact h'

theorem Repeats.lift {r r' : Except Fault α} (h : ∀ a, r = .ok a → r' = .ok a) :
    Repeats (liftM r : Work σ α) (liftM r' : Work σ α) := by
  refine .of_ok fun s a s' hr => ?_
  rw [lift_apply, Prod.mk.injEq] at hr ⊢
  exact ⟨h a hr.1, hr.2⟩

end Repeats

end Chalkboard.Effects

namespace Chalkboard

theorem Numeric.order_ne_gt {m : Numeric} {l l' : Int} (hle : l ≤ l')
    (h : (m.order (.whole l) == some .gt) = false) : (m.order (.whole l') == some .gt) = false := by
  cases m with
  | whole i =>
    simp only [order, beq_eq_false_iff_ne, ne_eq, Option.some.injEq, Int.compare_eq_gt] at h ⊢
    omega
  | real x =>
    simp only [order, Number.compareInt] at h ⊢
    cases hx : Number.exact x with
    | undefined => rfl
    | infinite negative => rwa [hx] at h
    | finite negative mantissa exponent =>
      rw [hx] at h
      have hscaled : l * (Number.fraction negative mantissa exponent).2 ≤
          l' * (Number.fraction negative mantissa exponent).2 :=
        Int.mul_le_mul_of_nonneg_right hle (Int.natCast_nonneg _)
      simp only [Option.map_some, beq_eq_false_iff_ne, ne_eq, Option.some.injEq,
        Ordering.swap_eq_gt, Int.compare_eq_lt] at h ⊢
      omega

theorem Value.more_int (v : Value) (l : Int) :
    v.more (.int l) = match v.numeric? with
      | some m => .ok (m.order (.whole l) == some .gt)
      | none => .error .operands := by
  change (v.order (.int l)).map (· == some .gt) = _
  cases v <;> rfl

theorem Value.more_int_mono {v : Value} {l l' : Int} (hle : l ≤ l') (h : v.more (.int l) = .ok false) :
    v.more (.int l') = .ok false := by
  rw [more_int] at h ⊢
  cases hm : v.numeric? with
  | none =>
    rw [hm] at h
    cases h
  | some m =>
    rw [hm] at h
    exact congrArg _ (Numeric.order_ne_gt hle (Except.ok.inj h))

end Chalkboard

namespace Chalkboard.Types

open Effects

/-- A limit that is at most another; an absent limit is the largest. -/
def AtMost : Option Int → Option Int → Prop
  | _, none => True
  | none, some _ => False
  | some l, some l' => l ≤ l'

/-- Limits that are at most others, each by itself. -/
structure Limits.Tighter (limits limits' : Limits) : Prop where
  steps : AtMost limits.steps limits'.steps
  arrayDimensions : AtMost limits.arrayDimensions limits'.arrayDimensions
  arraySize : AtMost limits.arraySize limits'.arraySize
  tupleSize : AtMost limits.tupleSize limits'.tupleSize
  stackCells : AtMost limits.stackCells limits'.stackCells
  heapCells : AtMost limits.heapCells limits'.heapCells
  typeDepth : AtMost limits.typeDepth limits'.typeDepth

section Checks

variable {limit limit' : Option Int} {limits limits' : Limits} {g : Graph} {t : TypeId}

theorem AtMost.allows (h : AtMost limit limit') {n : Int} (hn : Allows limit n) : Allows limit' n := by
  rintro l' rfl
  cases limit with
  | none => exact h.elim
  | some l => exact Int.le_trans (hn l rfl) h

theorem AtMost.exceeds (h : AtMost limit limit') {n : Int} (hn : exceeds limit n = false) :
    exceeds limit' n = false :=
  exceeds_eq_false.2 (h.allows (exceeds_eq_false.1 hn))

theorem AtMost.valueExceeds (h : AtMost limit limit') {n : Unit → Except Fault Value}
    (hn : valueExceeds limit n = .ok false) : valueExceeds limit' n = .ok false := by
  cases limit' with
  | none => rfl
  | some l' =>
    cases limit with
    | none => exact h.elim
    | some l =>
      obtain ⟨v, hv, hn⟩ := except_bind_ok hn
      rw [Types.valueExceeds, hv, except_ok_bind, Value.more_int_mono h (liftMisuse_ok hn)]
      rfl

theorem measure_looser (h : limits.Tighter limits') {n : Node} (hn : n.measure limits = .ok ()) :
    n.measure limits' = .ok () := by
  cases n with
  | array =>
    dsimp only [Node.measure] at hn ⊢
    split at hn
    · cases hn
    rename_i hdimensions
    rw [if_neg (by simpa using h.arrayDimensions.exceeds (by simpa using hdimensions))]
    obtain ⟨more, hmore, hn⟩ := except_bind_ok hn
    cases more with
    | true => cases hn
    | false => rw [h.arraySize.valueExceeds hmore]; rfl
  | tuple =>
    dsimp only [Node.measure] at hn ⊢
    split at hn
    · cases hn
    rename_i hfields
    rw [if_neg (by simpa using h.tupleSize.exceeds (by simpa using hfields))]
    rfl
  | _ => rfl

theorem checkFrom_looser (h : limits.Tighter limits') {fuel fuel' : Nat} (hfuel : fuel ≤ fuel')
    {depth : Int} {trail : List TypeId} (hcheck : g.checkFrom limits fuel t depth trail = .ok ()) :
    g.checkFrom limits' fuel' t depth trail = .ok () := by
  induction fuel generalizing t fuel' depth trail with
  | zero => cases hcheck
  | succ fuel ih =>
    obtain _ | fuel' := fuel'
    · exact absurd hfuel (Nat.not_succ_le_zero fuel)
    by_cases hback : t ∈ trail
    · rw [Graph.checkFrom, if_pos (by simpa using hback)]
    obtain ⟨hdepth, u, hu, hmeasure, hlinks⟩ := (checkFrom_passes hback).1 hcheck
    exact (checkFrom_passes hback).2 ⟨h.typeDepth.exceeds hdepth, u, hu, measure_looser h hmeasure,
      fun v hv => ih (Nat.le_of_succ_le_succ hfuel) (hlinks v hv)⟩

theorem checkFuel_looser (h : AtMost limits.typeDepth limits'.typeDepth) :
    g.checkFuel limits ≤ g.checkFuel limits' := by
  unfold Graph.checkFuel
  cases hdepth' : limits'.typeDepth with
  | none => cases limits.typeDepth <;> simp
  | some d' =>
    cases hdepth : limits.typeDepth with
    | none =>
      rw [hdepth, hdepth'] at h
      exact h.elim
    | some d =>
      rw [hdepth, hdepth'] at h
      have hle : d.toNat + 2 ≤ d'.toNat + 2 := Nat.add_le_add_right (Int.toNat_le_toNat h) 2
      have hmul := Nat.mul_le_mul_right (g.nodes.size + 2) hle
      dsimp only
      omega

theorem checkLimits_looser (h : limits.Tighter limits') (hcheck : g.checkLimits limits t = .ok ()) :
    g.checkLimits limits' t = .ok () :=
  checkFrom_looser h (checkFuel_looser h.typeDepth) hcheck

theorem register_looser (h : limits.Tighter limits') (name : String) (t : TypeId) :
    Repeats (register limits name t) (register limits' name t) := by
  refine .then fun s => .ite (.refl _) (.ite (.refl _) (.then fun _ => .bind (.lift ?_) fun _ => .refl _))
  exact fun _ => checkLimits_looser h

end Checks

end Chalkboard.Types

namespace Chalkboard.Reading

open Effects Chalkboard.Types

section Read

variable {α β : Type}

/-- What is read the first way is read the second way, too. -/
def ReadsAgain (m m' : Declare α) : Prop := ∀ c, Repeats (m c) (m' c)

theorem ReadsAgain.refl (m : Declare α) : ReadsAgain m m := fun c => .refl (m c)

variable {k k' : α → Declare β} {m m' : Declare α}

theorem ReadsAgain.bind (h : ReadsAgain m m')
    (hk : ∀ a, ReadsAgain (k a) (k' a)) : ReadsAgain (m >>= k) (m' >>= k') :=
  fun c => Repeats.bind (h c) fun found => hk found.1 found.2

theorem ReadsAgain.then (hk : ∀ a, ReadsAgain (k a) (k' a)) :
    ReadsAgain (m >>= k) (m >>= k') := (ReadsAgain.refl m).bind hk

theorem ReadsAgain.ite {p : Prop} [Decidable p] {r r' : Declare α} (h : ReadsAgain m m')
    (h' : ReadsAgain r r') : ReadsAgain (if p then m else r) (if p then m' else r') := by
  split
  · exact h
  · exact h'

theorem ReadsAgain.typing {m m' : TypesM α} (h : Repeats m m') : ReadsAgain (typing m) (typing m') :=
  fun _ => Repeats.bind h fun _ => .refl _

variable (limits limits' : Limits) (environment : List (String × String))

-- only the types that are registered are checked: nothing else that is read depends on the limits

theorem readAxes_limits (fuel : Nat) :
    readAxes ⟨limits, environment⟩ fuel = readAxes ⟨limits', environment⟩ fuel := by
  induction fuel with
  | zero => rfl
  | succ fuel ih =>
    rw [readAxes, readAxes, ih]
    rfl

theorem readType_limits (fuel : Nat) :
    readType ⟨limits, environment⟩ fuel = readType ⟨limits', environment⟩ fuel := by
  induction fuel with
  | zero => rfl
  | succ fuel ih => rw [readType, readType, ih, readAxes_limits limits limits']

theorem readFields_limits (fuel : Nat) :
    readFields ⟨limits, environment⟩ fuel = readFields ⟨limits', environment⟩ fuel := by
  induction fuel with
  | zero => rfl
  | succ fuel ih => rw [readFields, readFields, ih, readType_limits limits limits']

theorem readTypeBody_limits :
    readTypeBody ⟨limits, environment⟩ = readTypeBody ⟨limits', environment⟩ := by
  unfold readTypeBody
  simp only [readFields_limits limits limits', readType_limits limits limits']

theorem readVariableSection_limits (fuel : Nat) :
    readVariableSection ⟨limits, environment⟩ fuel = readVariableSection ⟨limits', environment⟩ fuel := by
  have hone : readDeclaration ⟨limits, environment⟩ = readDeclaration ⟨limits', environment⟩ := by
    unfold readDeclaration
    simp only [readType_limits limits limits']
    rfl
  induction fuel with
  | zero => rfl
  | succ fuel ih => rw [readVariableSection, readVariableSection, ih, hone]

variable {limits limits'} (h : limits.Tighter limits')

include h

theorem readTypeSection_looser (fuel : Nat) :
    ReadsAgain (readTypeSection ⟨limits, environment⟩ fuel)
      (readTypeSection ⟨limits', environment⟩ fuel) := by
  have hone : ReadsAgain (readTypeDeclaration ⟨limits, environment⟩)
      (readTypeDeclaration ⟨limits', environment⟩) := by
    unfold readTypeDeclaration
    rw [readTypeBody_limits limits limits']
    refine .then fun _ => .then fun name => .then fun _ => .then fun _ => .then fun body => .then fun _ => ?_
    have hregister (t : TypeId) : ReadsAgain
        (typing (register limits name.text t) >>= fun _ => do
          reading (advance .start)
          return (⟨name.lexeme, t⟩ : Syntax.TypeDeclaration))
        (typing (register limits' name.text t) >>= fun _ => do
          reading (advance .start)
          return ⟨name.lexeme, t⟩) :=
      .bind (.typing (register_looser h name.text t)) fun _ => .refl _
    exact .ite (.then fun _ => .then fun t => .ite (.then fun _ => hregister t) (hregister t))
      (.then fun t => .ite (.then fun _ => hregister t) (hregister t))
  induction fuel with
  | zero => exact .refl _
  | succ fuel ih => exact .then fun _ => .ite (.bind hone fun _ => .bind ih fun _ => .refl _) (.refl _)

theorem readProgram_looser (text : String) :
    Repeats (readProgram ⟨limits, environment⟩ text) (readProgram ⟨limits', environment⟩ text) := by
  have hsections : ReadsAgain (readSections ⟨limits, environment⟩)
      (readSections ⟨limits', environment⟩) := by
    refine .then fun _ => .bind (readTypeSection_looser environment h _) fun _ => .then fun _ =>
      .then fun _ => .then fun fuel => ?_
    rw [readVariableSection_limits limits limits']
    exact .refl _
  refine .bind (.then fun start => ?_) fun _ => .refl _
  exact .bind (hsections start) fun _ => .refl _

end Read

end Chalkboard.Reading

namespace Chalkboard.Run

open Effects
open Syntax (Item)
open Chalkboard.Types (Limits)

section Looser

variable {σ α : Type} {types : Types} {limits limits' : Limits} {indexing : Bool} {w : Watch σ}

theorem complete_limits (limits limits' : Limits) (place : Nat) (item : Item) :
    complete ⟨types, limits, indexing⟩ place item = complete ⟨types, limits', indexing⟩ place item := by
  obtain ⟨action, next, inner, other⟩ := item
  rcases action with d | ⟨_ | _ | ⟨_ | _⟩ | _ | _ | _⟩ <;> rfl

theorem memoryLimits_looser (h : limits.Tighter limits') {m : Memory}
    (hcheck : m.checkLimits limits = .ok ()) : m.checkLimits limits' = .ok () := by
  unfold Memory.checkLimits at hcheck ⊢
  split at hcheck
  · cases hcheck
  · rename_i hroom
    simp only [Bool.or_eq_true, not_or, Bool.not_eq_true] at hroom
    rw [if_neg (by simp [h.stackCells.exceeds hroom.1, h.heapCells.exceeds hroom.2])]

theorem checks_looser (h : limits.Tighter limits') {m : Memory} {action : Syntax.Action}
    (hchecks : checks ⟨types, limits, indexing⟩ m action = .ok ()) :
    checks ⟨types, limits', indexing⟩ m action = .ok () := by
  unfold checks at hchecks ⊢
  split
  · obtain ⟨_, htype, hmemory⟩ := except_bind_ok hchecks
    rw [Types.checkLimits_looser h htype, except_ok_bind]
    exact memoryLimits_looser h hmemory
  · exact memoryLimits_looser h hchecks
  · rfl

theorem step_looser (h : limits.Tighter limits') (place : Nat) (item : Item) :
    Repeats (step ⟨types, limits, indexing⟩ place item) (step ⟨types, limits', indexing⟩ place item) := by
  refine .of_ok fun s next s' hstep => ?_
  rw [step_eq, complete_limits limits limits'] at hstep
  rw [step_eq]
  rcases hcomplete : complete ⟨types, limits', indexing⟩ place item s with ⟨e | next', done⟩ <;>
    rw [hcomplete] at hstep
  · cases hstep
  · dsimp only at hstep ⊢
    cases hchecks : checks ⟨types, limits, indexing⟩ done.memory item.action with
    | error e =>
      rw [hchecks] at hstep
      cases hstep
    | ok _ =>
      rw [hchecks] at hstep
      rw [checks_looser h hchecks]
      exact hstep

theorem stepping_looser {m m' : StepM α} (h : Repeats m m') :
    Repeats (stepping m : RunM σ α) (stepping m') := by
  refine .of_ok fun c a c' hstep => ?_
  rcases hm : m c.situation with ⟨e | b, s⟩
  · rw [stepping, hm] at hstep
    cases hstep
  · rw [stepping, hm] at hstep
    rw [stepping, h.ok hm]
    exact hstep

theorem watched_looser (h : limits.Tighter limits') {m m' : StepM α} (hm : Repeats m m') (place : Nat) :
    Repeats (watched limits w place m) (watched limits' w place m') := by
  refine .then fun _ => .then fun _ => .then fun _ => .bind (stepping_looser hm) fun a => .then fun _ =>
    .then fun _ => .then fun _ => .then fun c => .of_ok fun c₁ b c₂ hdone => ?_
  cases hexceeds : Types.exceeds limits.steps c.steps with
  | true =>
    rw [if_pos hexceeds] at hdone
    cases hdone
  | false =>
    rw [if_neg (by simp [hexceeds])] at hdone
    rw [if_neg (by simp [h.steps.exceeds hexceeds])]
    exact hdone

theorem runFrom_looser (h : limits.Tighter limits') (items : Array Item) (fuel : Nat) (next : Option Nat) :
    Repeats (runFrom ⟨types, limits, indexing⟩ w items fuel next)
      (runFrom ⟨types, limits', indexing⟩ w items fuel next) := by
  induction fuel generalizing next with
  | zero => cases next <;> exact .refl _
  | succ fuel ih =>
    cases next with
    | none => exact .refl _
    | some place =>
      rw [runFrom, runFrom]
      cases items[place]? with
      | none => exact .refl _
      | some item => exact .bind (watched_looser h (step_looser h place item) place) ih

theorem runProgram_looser (h : limits.Tighter limits') (p : Syntax.Program) (loaded : Bool) (fuel : Nat) :
    Repeats (runProgram ⟨types, limits, indexing⟩ w p loaded fuel)
      (runProgram ⟨types, limits', indexing⟩ w p loaded fuel) := by
  have hrun : Repeats
      (if p.items.toArray.isEmpty then throw (.misuse .emptyProgram)
        else runFrom ⟨types, limits, indexing⟩ w p.items.toArray fuel (some 0) : RunM σ (Option Nat))
      (if p.items.toArray.isEmpty then throw (.misuse .emptyProgram)
        else runFrom ⟨types, limits', indexing⟩ w p.items.toArray fuel (some 0)) :=
    .ite (.refl _) (runFrom_looser h _ fuel _)
  exact .ite (.then fun _ => hrun) hrun

end Looser

section Steps

variable {σ α : Type} {f : Frame} {w : Watch σ} {most : Int}

theorem watched_steps (limits : Limits) (place : Nat) (m : StepM α) (c : Course σ) :
    (watched limits w place m c).2.steps ≤ c.steps + 1 ∧
      ∀ a c', watched limits w place m c = (.ok a, c') →
        c'.steps = c.steps + 1 ∧ Types.exceeds limits.steps c'.steps = false := by
  unfold watched showAfter watching stepping
  simp only [bind_apply, get_apply, set_apply, modify_apply]
  rcases w.before place c.situation c.seen with ⟨e | _, seen⟩
  · exact ⟨Nat.le_succ _, fun a c' h => by cases h⟩
  dsimp only
  rcases m c.situation with ⟨e | a, s⟩
  · exact ⟨Nat.le_succ _, fun a c' h => by cases h⟩
  dsimp only
  rcases w.after (some place) s seen with ⟨e | _, seen'⟩
  · exact ⟨Nat.le_succ _, fun a c' h => by cases h⟩
  dsimp only
  split
  · exact ⟨Nat.le_refl _, fun a c' h => by cases h⟩
  · rename_i hwithin
    refine ⟨Nat.le_refl _, fun a c' h => ?_⟩
    cases h
    exact ⟨rfl, by simpa using hwithin⟩

variable {c : Course σ}

theorem runFrom_steps (hmost : f.limits.steps = some most) (items : Array Item) (n : Nat)
    (next : Option Nat) (hc : c.steps ≤ most.toNat) :
    (runFrom f w items n next c).2.steps ≤ most.toNat + 1 ∧
      ∀ place c', runFrom f w items n next c = (.ok (some place), c') →
        c'.steps = c.steps + n ∧ c'.steps ≤ most.toNat := by
  have hstay : c.steps ≤ most.toNat + 1 := Nat.le_succ_of_le hc
  induction n generalizing next c with
  | zero =>
    cases next with
    | none => exact ⟨hstay, fun place c' h => by cases h⟩
    | some here =>
      refine ⟨hstay, fun place c' h => ?_⟩
      cases h
      exact ⟨rfl, hc⟩
  | succ n ih =>
    cases next with
    | none => exact ⟨hstay, fun place c' h => by cases h⟩
    | some here =>
      rw [runFrom]
      cases items[here]? with
      | none => exact ⟨hstay, fun place c' h => by cases h⟩
      | some item =>
        obtain ⟨honce, hdone⟩ := watched_steps (w := w) f.limits here (step f here item) c
        dsimp only
        rw [bind_apply]
        rcases hstep : watched f.limits w here (step f here item) c with ⟨e | next', c₁⟩
        · rw [hstep] at honce
          exact ⟨Nat.le_trans honce (Nat.succ_le_succ hc), fun place c' h => by cases h⟩
        · obtain ⟨hcount, hwithin⟩ := hdone next' c₁ hstep
          have hc₁ : c₁.steps ≤ most.toNat := by
            simp only [Types.exceeds, hmost, decide_eq_false_iff_not] at hwithin
            omega
          obtain ⟨hall, hgoing⟩ := ih next' hc₁ (Nat.le_succ_of_le hc₁)
          refine ⟨hall, fun place c' h => ?_⟩
          have := hgoing place c' h
          omega

theorem runFrom_enough (hmost : f.limits.steps = some most) (items : Array Item) {n : Nat}
    (hn : most.toNat + 1 ≤ n) (next : Option Nat) (hc : c.steps = 0) :
    runFrom f w items n next c = runFrom f w items (most.toNat + 1) next c := by
  obtain ⟨k, rfl⟩ := Nat.exists_eq_add_of_le hn
  have hgoing := (runFrom_steps (w := w) hmost items (most.toNat + 1) next (c := c) (by omega)).2
  rw [runFrom_add, bind_apply]
  rcases hrun : runFrom f w items (most.toNat + 1) next c with ⟨e | place?, c'⟩
  · rfl
  · cases place? with
    | none => cases k <;> rfl
    | some place =>
      have := hgoing place c' hrun
      omega

theorem runProgram_cases (f : Frame) (w : Watch σ) (p : Syntax.Program) (loaded : Bool) (c : Course σ) :
    ∃ c₁ : Course σ, c₁.steps = c.steps ∧
      ((∃ e, ∀ n, runProgram f w p loaded n c = (.error e, c₁)) ∨
        ∀ n, runProgram f w p loaded n c = runFrom f w p.items.toArray n (some 0) c₁) := by
  have hrest (c₁ : Course σ) :
      (∃ e, ∀ n, runProgram f w p false n c₁ = (.error e, c₁)) ∨
        ∀ n, runProgram f w p false n c₁ = runFrom f w p.items.toArray n (some 0) c₁ := by
    by_cases hempty : p.items.toArray.isEmpty = true
    · refine .inl ⟨.misuse .emptyProgram, fun n => ?_⟩
      rw [runProgram, if_neg Bool.false_ne_true, if_pos hempty]
      rfl
    · refine .inr fun n => ?_
      rw [runProgram, if_neg Bool.false_ne_true, if_neg hempty]
  cases loaded with
  | false => exact ⟨c, rfl, hrest c⟩
  | true =>
    have hkept : (showAfter w c).2.steps = c.steps := rfl
    have hshown (n : Nat) : runProgram f w p true n c = (do showAfter w; runProgram f w p false n) c := rfl
    simp only [hshown, bind_apply]
    rcases hshow : showAfter w c with ⟨e | _, c₁⟩ <;> rw [hshow] at hkept
    · exact ⟨c₁, hkept, .inl ⟨e, fun n => rfl⟩⟩
    · exact ⟨c₁, hkept, hrest c₁⟩

theorem runProgram_steps (hmost : f.limits.steps = some most) (p : Syntax.Program) (loaded : Bool)
    (hc : c.steps = 0) :
    (∀ n, (runProgram f w p loaded n c).2.steps ≤ most.toNat + 1) ∧
      (∀ n place c', runProgram f w p loaded n c = (.ok (some place), c') → n ≤ most.toNat) ∧
      ∀ n, most.toNat + 1 ≤ n →
        runProgram f w p loaded n c = runProgram f w p loaded (most.toNat + 1) c := by
  obtain ⟨c₁, hc₁, ⟨e, he⟩ | hrun⟩ := runProgram_cases f w p loaded c
  · refine ⟨fun n => ?_, fun n place c' h => ?_, fun n _ => ?_⟩
    · rw [he]
      dsimp only
      omega
    · rw [he] at h
      cases h
    · rw [he, he]
  · simp only [hrun]
    have hsteps (n : Nat) := runFrom_steps (w := w) hmost p.items.toArray n (some 0) (c := c₁) (by omega)
    refine ⟨fun n => (hsteps n).1, fun n place c' h => ?_, fun n hn =>
      runFrom_enough hmost _ hn (some 0) (by omega)⟩
    have := (hsteps n).2 place c' h
    omega

end Steps

/-- Limits only cut runs short. With a limit on steps a run of any program, on any memory and whoever
watches, starts at most one step more than the limit: it goes on for no longer, and what it has come to by
then is its end. With a limit on the depth of types the check of every variable's type comes to its end if
it is given time, be it by exceeding a limit. And what is read under some limits is read under looser ones, to
the same tree and the same types; whatever a run comes to under them it comes to under looser ones, its end
included, after as many steps and with the same memory. -/
theorem limits_only_cut_short {s types : Types} (hs : s.Sound) {setting : Reading.Setting} {text : String}
    {p : Syntax.Program} (hread : (Reading.readProgram setting text).run s = (.ok p, types))
    (indexing : Bool) {σ : Type} (w : Watch σ) (memory : Option Memory) (looping : List Nat) (seen : σ) :
    let course (limits : Limits) (n : Nat) :=
      runProgram ⟨types, limits, indexing⟩ w p memory.isSome n (.start memory looping seen)
    (∀ limits most, limits.steps = some most →
      (∀ n, (course limits n).2.steps ≤ most.toNat + 1) ∧
      (∀ n place c, course limits n = (.ok (some place), c) → n ≤ most.toNat) ∧
      (∀ n, most.toNat + 1 ≤ n → course limits n = course limits (most.toNat + 1)) ∧
      ∀ c, run ⟨types, limits, indexing⟩ w p memory looping seen = ⟨c, none⟩ ↔
        course limits (most.toNat + 1) = (.ok none, c)) ∧
    (∀ limits most, limits.typeDepth = some most → ∀ d ∈ p.declarations, ∀ time e,
      (most.toNat + 2) * (types.graph.nodes.size + 2) ≤ time →
      types.graph.checkFrom limits time d.type 1 [] = .error e → e.isLimit = true) ∧
    ∀ limits', setting.limits.Tighter limits' →
      (Reading.readProgram ⟨limits', setting.environment⟩ text).run s = (.ok p, types) ∧
      ∀ n next c, course setting.limits n = (.ok next, c) → course limits' n = (.ok next, c) := by
  intro course
  refine ⟨fun limits most hmost => ?_, fun limits most hmost d hd time e htime hcheck => ?_,
    fun limits' h => ⟨(Reading.readProgram_looser setting.environment h text).ok hread, fun n next c hrun =>
      (runProgram_looser h p _ n).ok hrun⟩⟩
  · obtain ⟨hcount, hgoing, henough⟩ := runProgram_steps (f := ⟨types, limits, indexing⟩) (w := w) hmost p
      memory.isSome (c := .start memory looping seen) rfl
    refine ⟨hcount, hgoing, henough, fun c => ?_⟩
    have hrun : run ⟨types, limits, indexing⟩ w p memory looping seen =
        .of (course limits (most.toNat + 1)) := by
      rw [run, stepFuel, hmost]
      rfl
    rw [hrun]
    rcases hend : course limits (most.toNat + 1) with ⟨e | _ | place, c'⟩
    · exact ⟨fun h => (by cases h), fun h => (by cases h)⟩
    · constructor <;> intro h <;> cases h <;> rfl
    · exact absurd (hgoing _ place c' hend) (by omega)
  · obtain ⟨hsound, -, husable⟩ := Reading.readProgram_shut_from hs hread
    refine hsound.checkFrom_ends hmost time (husable d hd).1 1 [] .nil (by simp) ?_ e hcheck
    rw [Nat.add_mul] at htime
    rw [List.length_nil, show most + 1 - 1 = most by omega]
    omega

/-- A cell of a list, built within limits that leave no room for more. -/
def soleCell : String :=
  "type c = tuple\n v: int\n n: pointer of c\nend tuple\nvar p: pointer of c\nalloc(p)\np->v := 1\n"

def tightLimits : Limits :=
  { steps := some 3, arrayDimensions := some 0, arraySize := some 0, tupleSize := some 2, stackCells := some 1,
    heapCells := some 2, typeDepth := some 2 }

def noLimits : Limits :=
  { steps := none, arrayDimensions := none, arraySize := none, tupleSize := none, stackCells := none,
    heapCells := none, typeDepth := none }

theorem soleCell_ends :
    passes (Reading.readProgram ⟨tightLimits, []⟩ soleCell) {} (fun p types =>
      passes (runProgram ⟨types, tightLimits, true⟩ {} p false 4) (.start none [] ()) fun next c =>
        next == none && c.steps == 3 && c.situation.memory.heapCount == 2) = true := by
  decide +kernel

theorem soleCell_unlimited :
    ∃ p types c, (Reading.readProgram ⟨tightLimits, []⟩ soleCell).run {} = (.ok p, types) ∧
      run ⟨types, tightLimits, true⟩ {} p none [] () = ⟨c, none⟩ ∧ c.steps = 3 ∧
      c.situation.memory.heapCount = 2 ∧
      (Reading.readProgram ⟨noLimits, []⟩ soleCell).run {} = (.ok p, types) ∧
      runProgram ⟨types, noLimits, true⟩ {} p false 4 (.start none [] ()) = (.ok none, c) := by
  obtain ⟨p, types, hread, hcheck⟩ := of_passes soleCell_ends
  obtain ⟨next, c, hrun, hc⟩ := of_passes hcheck
  simp only [Bool.and_eq_true, beq_iff_eq] at hc
  obtain ⟨⟨rfl, hsteps⟩, hcount⟩ := hc
  obtain ⟨hshort, -, hlooser⟩ := limits_only_cut_short Types.sound_basic hread true {} none [] ()
  obtain ⟨hagain, hsame⟩ := hlooser noLimits ⟨trivial, trivial, trivial, trivial, trivial, trivial, trivial⟩
  have hends := (hshort tightLimits 3 rfl).2.2.2 c
  exact ⟨p, types, c, hread, hends.2 hrun, hsteps, hcount, hagain, hsame 4 none c hrun⟩

end Chalkboard.Run
