import Chalkboard.Proofs.Structured

/-! Following the links of the flow does what the structured run does. A sentence that stands in the flow
with a link to `next` is matched, for every number of steps, by its structured execution followed by the
flow from `next`; the loops in progress afterwards are those that were in progress before. -/

namespace Chalkboard.Run

open Effects
open Syntax (Expr Variable Sentence Action Declaration Item Program extents blockItems blockStart
  declarationItems)

variable {α β σ : Type}

theorem budgeted_bind (m : Budgeted α) (g : α → Budgeted β) (k : Nat) (c : Course Trace) :
    (m >>= g) k c = match m k c with
      | (.ok (some (a, k')), c') => g a k' c'
      | (.ok none, c') => (.ok none, c')
      | (.error e, c') => (.error e, c') := by
  have h : (m >>= g) k = OptionT.bind (m k) fun x => g x.1 x.2 := rfl
  rw [h]
  unfold OptionT.bind OptionT.mk
  rw [bind_apply]
  rcases m k c with ⟨_ | _ | _, c'⟩ <;> rfl

theorem spend_succ (f : Frame) (place : Nat) (a : Action) (m : StepM α) (k : Nat) (c : Course Trace) :
    spend f place a m (k + 1) c =
      match watched f.limits (recording (some a)) place m c with
      | (.ok x, c') => (.ok (some (x, k)), c')
      | (.error e, c') => (.error e, c') := by
  have h : spend f place a m (k + 1) = OptionT.lift
    (watched f.limits (recording (some a)) place m >>= fun x => pure (x, k)) := rfl
  rw [h]
  unfold OptionT.lift OptionT.mk
  simp only [bind_apply, pure_apply]
  rcases watched f.limits (recording (some a)) place m c with ⟨_ | _, c'⟩ <;> rfl

/-- The same situation with other loops in progress. -/
def Situation.looped (L : List Nat) (s : Situation) : Situation := { s with looping := L }

def Course.looped (L : List Nat) (c : Course σ) : Course σ :=
  { c with situation := c.situation.looped L }

/-- The moment that a step leaves behind, and the counting of the step. -/
def Course.counted (place : Nat) (action : Option Action) (s : Situation) (c : Course Trace) :
    Course Trace :=
  { situation := { s with noted := [] }
    steps := c.steps + 1
    last := some place
    current := some place
    seen := c.seen ++ [⟨some place, action, s.memory, s.noted⟩] }

theorem watched_recording (limits : Types.Limits) (a : Option Action) (place : Nat) (m : StepM α)
    (c : Course Trace) :
    watched limits (recording a) place m c =
      match m c.situation with
      | (.ok x, s) =>
        (if Types.exceeds limits.steps (c.steps + 1 : Nat) then .error (.limit .steps) else .ok x,
          c.counted place a s)
      | (.error e, s) => (.error e, { c with situation := s, current := some place }) := by
  unfold watched showAfter watching stepping recording
  simp only [bind_apply, get_apply, set_apply, modify_apply, pure_apply]
  rcases m c.situation with ⟨_ | x, s⟩
  · rfl
  · simp only [Course.counted]
    split <;> rfl

variable {body : List Sentence} {extent place start : Nat} {g : α → Budgeted β} {guard : Expr} {item : Item}
  {m : StepM α} {on : α → List Nat × Option Nat} {on' : β → List Nat × Option Nat} {p : Program}

theorem watched_tracer (limits : Types.Limits) (items : Array Item)
    (h : items[place]? = some item) (m : StepM α) (c : Course Trace) :
    watched limits (tracer items) place m c =
      watched limits (recording (some item.action)) place m c := by
  have hw : (tracer items).after (some place) = (recording (some item.action)).after (some place) := by
    funext s
    simp [tracer, h]
  unfold watched showAfter
  simp only [bind_apply, get_apply, set_apply, modify_apply, hw]
  rfl

/-- The same situation with other loops in progress, and with notes before its own. -/
def Situation.under (L : List Nat) (notes : List (Expr × Value)) (s : Situation) : Situation :=
  { s with looping := L, noted := notes ++ s.noted }

/-- Work on a situation that neither reads nor changes which loops are in progress, and does not read the
notes. -/
def Blind (m : StepM α) : Prop := ∀ L notes s, m (s.under L notes) = ((m s).1, (m s).2.under L notes)

theorem Blind.looped (h : Blind m) (L : List Nat) (s : Situation) :
    m (s.looped L) = ((m s).1, (m s).2.looped L) := h L [] s

theorem Blind.pure (a : α) : Blind (Pure.pure a : StepM α) := fun _ _ _ => rfl

theorem Blind.lift (r : Except Fault α) : Blind (liftM r : StepM α) := fun _ _ _ => rfl

theorem Blind.bind {g : α → StepM β} (hm : Blind m) (hg : ∀ a, Blind (g a)) :
    Blind (m >>= g) := by
  intro L notes s
  simp only [bind_apply, hm L notes s]
  rcases m s with ⟨_ | a, s'⟩
  · rfl
  · exact hg a L notes s'

theorem Blind.ite {p : Prop} [Decidable p] {m m' : StepM α} (h : Blind m) (h' : Blind m') :
    Blind (if p then m else m') := by
  split
  · exact h
  · exact h'

theorem Blind.onMemory (m : Memory.MemoryM α) : Blind (onMemory m) := fun _ _ _ => rfl

theorem Blind.evaluate (f : Frame) (e : Expr) : Blind (evaluate f e) := by
  intro L notes s
  simp only [Run.evaluate, bind_apply, get_apply, modify_apply, pure_apply, lift_apply,
    Situation.under]
  rcases evalExpr (f.env s.memory) e with _ | v
  · rfl
  · simp [List.append_assoc]

theorem Blind.traceOrigin (f : Frame) (v : Variable) (e : Expr) (value : Value) :
    Blind (traceOrigin f v e value) := by
  intro L notes s
  simp only [Run.traceOrigin, modify_apply, Situation.under]
  split <;> rfl

theorem Blind.deed (f : Frame) (s : Sentence) : Blind (deed f s) := by
  unfold Run.deed
  split
  · exact (Blind.evaluate f _).bind fun _ => (Blind.traceOrigin f _ _ _).bind fun _ => Blind.onMemory _
  · exact Blind.onMemory _
  · exact Blind.onMemory _
  · exact Blind.pure _

theorem Blind.guardTest (f : Frame) (guard : Expr) : Blind (guardTest f guard) :=
  (Blind.evaluate f guard).bind fun _ => Blind.pure _

theorem Blind.countValue (f : Frame) (v : Variable) (start : Expr) (up first : Bool) :
    Blind (countValue f v start up first) :=
  .ite (Blind.evaluate f start) ((Blind.onMemory _).bind fun _ => Blind.lift _)

/-- In the flow, with the loops `L` in progress, the entry does what `m` does. The result of `m` tells
the loops in progress afterwards and where the flow goes on. -/
def StepsAs (f : Frame) (place : Nat) (item : Item) (L : List Nat) (m : StepM α)
    (on : α → List Nat × Option Nat) : Prop :=
  ∀ s, step f place item (s.looped L) = match m s with
    | (.ok a, s') => (.ok (on a).2, s'.looped (on a).1)
    | (.error e, s') => (.error e, s'.looped L)

theorem StepsAs.of_blind {f : Frame} (L : List Nat)
    {next : α → Option Nat} (hm : Blind m) (h : step f place item = m >>= fun a => pure (next a)) :
    StepsAs f place item L m fun a => (L, next a) := by
  intro s
  rw [h, bind_apply, hm.looped L s]
  rcases m s with ⟨_ | a, s'⟩ <;> rfl

def Plain : Sentence → Prop
  | .branch .. | .loop .. | .count .. => False
  | _ => True

theorem stepsAs_deed (f : Frame) (place : Nat) (item : Item) (L : List Nat) {s : Sentence}
    (h : item.action = .perform s) (hs : Plain s) :
    StepsAs f place item L (deed f s) fun _ => (L, item.next) := by
  refine .of_blind L (Blind.deed f s) ?_
  unfold step
  rw [h]
  match s with
  | .skip _ => rfl
  | .assign v e => simp only [perform, deed, bind_assoc]
  | .call .alloc _ v => rfl
  | .call .free _ v => rfl

theorem stepsAs_declare (f : Frame) (place : Nat) (item : Item) (L : List Nat) {d : Declaration}
    (h : item.action = .declare d) :
    StepsAs f place item L (onMemory (Memory.declare f.types.graph f.limits d.name d.type))
      fun _ => (L, item.next) := by
  refine .of_blind L (Blind.onMemory _) ?_
  unfold step
  rw [h]

theorem stepsAs_branch (f : Frame) (place : Nat) (item : Item) (L : List Nat)
    {yes no : List Sentence} (h : item.action = .perform (.branch guard yes no)) :
    StepsAs f place item L (guardTest f guard)
      fun b => (L, (if b then item.inner else item.other) <|> item.next) := by
  refine .of_blind L (Blind.guardTest f guard) ?_
  unfold step
  rw [h]
  simp only [perform, guardTest, bind_assoc, pure_bind]

theorem stepsAs_loop (f : Frame) (place : Nat) (item : Item) (L : List Nat)
    (h : item.action = .perform (.loop guard body)) :
    StepsAs f place item L (guardTest f guard)
      fun b => (L, if b then item.inner else item.next) := by
  refine .of_blind L (Blind.guardTest f guard) ?_
  unfold step
  rw [h]
  simp only [perform, guardTest, bind_assoc, pure_bind, apply_ite pure]

/-- The loops in progress when a counting loop is tested. -/
def counting (place : Nat) (L : List Nat) (first : Bool) : List Nat := if first then L else place :: L

theorem nextCount_counting (f : Frame) (place : Nat) {L : List Nat} (hL : place ∉ L) (v : Variable)
    (start : Expr) (up first : Bool) (s : Situation) :
    nextCount f place v start up (s.looped (counting place L first)) =
      countValue f v start up first (s.looped (counting place L first)) := by
  unfold nextCount countValue
  rw [bind_apply, get_apply]
  cases first
  · simp [counting, Situation.looped]
  · simp [counting, Situation.looped, hL]

theorem stepsAs_count (f : Frame) (place : Nat) (item : Item) {L : List Nat} (hL : place ∉ L)
    (first : Bool) {v : Variable} {start stop : Expr} {up : Bool}
    (h : item.action = .perform (.count v start stop up body)) :
    StepsAs f place item (counting place L first) (countTest f v start stop up first)
      fun b => if b then (place :: L, item.inner) else (L, item.next) := by
  have hfilter : (counting place L first).filter (· != place) = L := by
    have : L.filter (· != place) = L := List.filter_eq_self.2 fun a ha => by
      have : a ≠ place := fun e => hL (e ▸ ha)
      simpa using this
    cases first <;> simp [counting, this]
  intro s
  unfold step
  rw [h]
  simp only [perform, countTest, bind_apply]
  rw [nextCount_counting f place hL, (Blind.countValue f v start up first).looped _ s]
  rcases countValue f v start up first s with ⟨_ | value, s₁⟩
  · rfl
  simp only
  rw [(Blind.evaluate f stop).looped _ s₁]
  rcases evaluate f stop s₁ with ⟨_ | last, s₂⟩
  · rfl
  simp only [lift_apply]
  rcases liftMisuse (if up then value.lessEqual last else value.moreEqual last) with _ | more
  · rfl
  cases more
  · simp [setLooping, bind_apply, modify_apply, pure_apply, Situation.looped, hfilter]
  · simp only [if_true, bind_apply]
    rw [(Blind.onMemory (writeVariable f v value)).looped _ s₂]
    rcases onMemory (writeVariable f v value) s₂ with ⟨_ | _, s₃⟩
    · rfl
    · simp [setLooping, modify_apply, pure_apply, Situation.looped, hfilter]
/-- The flow followed from a place, for so many steps. -/
def jump (f : Frame) (items : Array Item) (k : Nat) (here : Option Nat) : RunM Trace (Option Nat) :=
  runFrom f (tracer items) items k here

/-- The flow followed from `here`, with the loops `L` in progress, matches work of at most `bound` steps:
both fail with the same fault, or both are cut short, or the work is done and the flow is left to go on
with the steps that remain, from the place and with the loops in progress that the result tells. -/
def Matches (f : Frame) (items : Array Item) (bound : Nat) (L : List Nat) (here : Option Nat)
    (m : Budgeted α) (on : α → List Nat × Option Nat) : Prop :=
  ∀ k ≤ bound, ∀ c, match m k c with
    | (.error e, c') => ∃ L', jump f items k here (c.looped L) = (.error e, c'.looped L')
    | (.ok none, c') => ∃ place L', jump f items k here (c.looped L) = (.ok (some place), c'.looped L')
    | (.ok (some (a, k')), c') =>
      k' ≤ k ∧ jump f items k here (c.looped L) = jump f items k' (on a).2 (c'.looped (on a).1)

variable {f : Frame} {items : Array Item} {N : Nat} {L : List Nat} {here : Option Nat}

theorem Matches.pure (a : α) (h : on a = (L, here)) :
    Matches f items N L here (Pure.pure a) on := by
  intro k _ c
  change k ≤ k ∧ _
  rw [h]
  exact ⟨Nat.le_refl k, rfl⟩

theorem Matches.bind {m : Budgeted α} (hm : Matches f items N L here m on)
    (hg : ∀ a, Matches f items N (on a).1 (on a).2 (g a) on') :
    Matches f items N L here (m >>= g) on' := by
  intro k hk c
  have h := hm k hk c
  rw [budgeted_bind]
  revert h
  rcases m k c with ⟨e | _ | ⟨a, k'⟩, c'⟩
  · exact id
  · exact id
  · rintro ⟨hle, he⟩
    have h := hg a k' (Nat.le_trans hle hk) c'
    simp only [he]
    revert h
    rcases g a k' c' with ⟨e | _ | ⟨b, k''⟩, c''⟩
    · exact id
    · exact id
    · exact fun h => ⟨Nat.le_trans h.1 hle, h.2⟩

theorem jump_spend
    (hi : items[place]? = some item) (hs : StepsAs f place item L m on) (k : Nat) (c : Course Trace) :
    match spend f place item.action m (k + 1) c with
    | (.error e, c') => ∃ L', jump f items (k + 1) (some place) (c.looped L) = (.error e, c'.looped L')
    | (.ok none, _) => False
    | (.ok (some (a, k')), c') =>
      k' = k ∧ jump f items (k + 1) (some place) (c.looped L) =
        jump f items k (on a).2 (c'.looped (on a).1) := by
  have hstep := hs c.situation
  rw [spend_succ, watched_recording]
  unfold jump
  simp only [runFrom, hi, bind_apply, watched_tracer f.limits items hi, watched_recording]
  rw [show (c.looped L).situation = c.situation.looped L from rfl, hstep]
  rcases m c.situation with ⟨e | a, s⟩
  · exact ⟨L, rfl⟩
  · simp only
    rw [show (c.looped L).steps = c.steps from rfl]
    by_cases hlim : Types.exceeds f.limits.steps (c.steps + 1 : Nat)
    · rw [if_pos hlim, if_pos hlim]
      exact ⟨(on a).1, rfl⟩
    · rw [if_neg hlim, if_neg hlim]
      exact ⟨rfl, rfl⟩

theorem Matches.spend
    (hi : items[place]? = some item) (hs : StepsAs f place item L m on) :
    Matches f items N L (some place) (spend f place item.action m) on := by
  intro k _ c
  match k with
  | 0 => exact ⟨place, L, rfl⟩
  | k + 1 =>
    have h := jump_spend hi hs k c
    revert h
    rcases Run.spend f place item.action m (k + 1) c with ⟨e | _ | ⟨a, k'⟩, c'⟩
    · exact id
    · exact False.elim
    · rintro ⟨rfl, h⟩
      exact ⟨Nat.le_succ k', h⟩

theorem Matches.spend_bind
    (hi : items[place]? = some item) (hs : StepsAs f place item L m on)
    (hg : ∀ a, Matches f items N (on a).1 (on a).2 (g a) on') :
    Matches f items (N + 1) L (some place) (Run.spend f place item.action m >>= g) on' := by
  intro k hk c
  rw [budgeted_bind]
  match k with
  | 0 => exact ⟨place, L, rfl⟩
  | k + 1 =>
    have h := jump_spend hi hs k c
    revert h
    rcases Run.spend f place item.action m (k + 1) c with ⟨e | _ | ⟨a, k'⟩, c'⟩
    · exact id
    · exact False.elim
    · rintro ⟨rfl, he⟩
      have h := hg a k' (Nat.le_of_succ_le_succ hk) c'
      simp only [he]
      revert h
      rcases g a k' c' with ⟨e | _ | ⟨b, k''⟩, c''⟩
      · exact id
      · exact id
      · exact fun h => ⟨Nat.le_succ_of_le h.1, h.2⟩

/-- Rounds of a loop: if each test goes into the body or out of the loop, and the body comes back to the
loop, then the rounds take the flow from the loop to where it goes on. -/
theorem Matches.rounds {test : Bool → StepM Bool} {body : Budgeted Unit}
    {during : Bool → List Nat} {on : Bool → List Nat × Option Nat}
    (hi : items[place]? = some item)
    (ht : ∀ first, StepsAs f place item (during first) (test first) on)
    (hb : ∀ N, Matches f items N (on true).1 (on true).2 body fun _ => (during false, some place)) :
    ∀ N first, Matches f items N (during first) (some place)
      (Run.rounds (fun first => Run.spend f place item.action (test first)) body N first)
      fun _ => on false := by
  intro N
  induction N with
  | zero =>
    intro first k hk c
    obtain rfl := Nat.le_zero.1 hk
    exact ⟨place, during first, rfl⟩
  | succ N ih =>
    intro first
    refine .spend_bind hi (ht first) fun more => ?_
    cases more
    · exact .pure _ rfl
    · exact (hb N).bind fun _ => ih false

mutual

/-- Every loop in the sentence has something to repeat. -/
def Filled : Sentence → Prop
  | .branch _ yes no => FilledAll yes ∧ FilledAll no
  | .loop _ body => body ≠ [] ∧ FilledAll body
  | .count _ _ _ _ body => body ≠ [] ∧ FilledAll body
  | _ => True

def FilledAll : List Sentence → Prop
  | [] => True
  | s :: rest => Filled s ∧ FilledAll rest

end

/-- A stretch of entries stands in the flow at a place. -/
def Stands (items : Array Item) (start : Nat) (stretch : List Item) : Prop :=
  ∀ j < stretch.length, items[start + j]? = stretch[j]?

namespace Stands

variable {items : Array Item} {start : Nat} {item : Item} {a b : List Item}

theorem head (h : Stands items start (item :: a)) : items[start]? = some item := by
  simpa using h 0 (by simp)

theorem tail (h : Stands items start (item :: a)) : Stands items (start + 1) a := by
  intro j hj
  simpa [Nat.add_assoc, Nat.add_comm 1 j] using h (j + 1) (by simpa using hj)

theorem left (h : Stands items start (a ++ b)) : Stands items start a := by
  intro j hj
  rw [h j (by simp; omega), List.getElem?_append_left hj]

theorem right (h : Stands items start (a ++ b)) : Stands items (start + a.length) b := by
  intro j hj
  have := h (a.length + j) (by simp; omega)
  rw [List.getElem?_append_right (by omega), ← Nat.add_assoc] at this
  simpa using this

end Stands

mutual

theorem items_length (start : Nat) (next : Option Nat) :
    ∀ s : Sentence, (s.items start next).length = s.extent
  | .skip _ | .assign .. | .call .. => rfl
  | .branch _ yes no => by
    simp only [Sentence.items, Sentence.extent, List.length_cons, List.length_append,
      blockItems_length]
    omega
  | .loop .. | .count .. => by
    simp only [Sentence.items, Sentence.extent, List.length_cons, blockItems_length]
    omega

theorem blockItems_length (start : Nat) (next : Option Nat) :
    ∀ block : List Sentence, (blockItems start next block).length = extents block
  | [] => rfl
  | s :: rest => by
    simp only [blockItems, extents, List.length_append, items_length, blockItems_length]

end

theorem after_eq (start : Nat) (next : Option Nat) (rest : List Sentence) :
    (if rest.isEmpty then next else some start) = (blockStart start rest <|> next) := by
  cases rest <;> rfl

theorem blockStart_of_ne_nil (start : Nat) (next : Option Nat) {block : List Sentence}
    (h : block ≠ []) : (blockStart start block <|> next) = blockStart start block := by
  cases block
  · exact absurd rfl h
  · rfl

/-- No loop of the stretch of places is in progress. -/
def Idle (L : List Nat) (start extent : Nat) : Prop := ∀ q ∈ L, q < start ∨ start + extent ≤ q

theorem Idle.sub {L : List Nat} {start' extent' : Nat} (h : Idle L start extent)
    (h₁ : start ≤ start') (h₂ : start' + extent' ≤ start + extent) : Idle L start' extent' := by
  intro q hq
  have := h q hq
  omega

theorem Idle.not_mem {L : List Nat} (h : Idle L start (1 + extent)) :
    start ∉ L := by
  intro hq
  have := h start hq
  omega

theorem Idle.cons {L : List Nat} (h : Idle L start (1 + extent)) :
    Idle (start :: L) (start + 1) extent := by
  intro q hq
  rcases List.mem_cons.1 hq with rfl | hq
  · omega
  · have := h q hq
    omega

variable {f : Frame} {items : Array Item}

mutual

theorem execute_matches (N : Nat) {L : List Nat} {start : Nat} {next : Option Nat} :
    ∀ {s : Sentence}, Filled s → Stands items start (s.items start next) →
      Idle L start s.extent →
      Matches f items N L (some start) (execute f start s) fun _ => (L, next)
  | .skip _, _, hs, _ | .assign .., _, hs, _ | .call .., _, hs, _ => by
    simp only [Sentence.items] at hs
    simp only [execute]
    have h := Matches.spend (N := N) hs.head (stepsAs_deed f start _ L rfl trivial)
    exact h
  | .branch guard yes no, hf, hs, hL => by
    simp only [Filled] at hf
    simp only [Sentence.items] at hs
    simp only [Sentence.extent] at hL
    simp only [execute]
    have hblocks := hs.tail
    have hno := hblocks.right
    rw [blockItems_length] at hno
    have htest := Matches.spend (N := N) hs.head (stepsAs_branch f start _ L rfl)
    refine htest.bind fun b => ?_
    cases b
    · exact executeAll_matches N hf.2 hno (hL.sub (by omega) (by omega))
    · exact executeAll_matches N hf.1 hblocks.left (hL.sub (by omega) (by omega))
  | .loop guard body, hf, hs, hL => by
    simp only [Filled] at hf
    simp only [Sentence.items] at hs
    simp only [Sentence.extent] at hL
    simp only [execute]
    have hbody (N : Nat) := executeAll_matches N hf.2 hs.tail (hL.sub (by omega) (by omega))
    rw [blockStart_of_ne_nil _ _ hf.1] at hbody
    intro k _
    have h := Matches.rounds hs.head (fun _ => stepsAs_loop f start _ L rfl) hbody k true k
      (Nat.le_refl k)
    exact h
  | .count v first last up body, hf, hs, hL => by
    simp only [Filled] at hf
    simp only [Sentence.items] at hs
    simp only [Sentence.extent] at hL
    simp only [execute]
    have hbody (N : Nat) := executeAll_matches N hf.2 hs.tail hL.cons
    rw [blockStart_of_ne_nil _ _ hf.1] at hbody
    intro k _
    have h := Matches.rounds hs.head (fun b => stepsAs_count f start _ hL.not_mem b rfl) hbody k
      true k (Nat.le_refl k)
    exact h

theorem executeAll_matches (N : Nat) {L : List Nat} {start : Nat} {next : Option Nat} :
    ∀ {block : List Sentence}, FilledAll block → Stands items start (blockItems start next block) →
      Idle L start (extents block) →
      Matches f items N L (blockStart start block <|> next) (executeAll f start block)
        fun _ => (L, next)
  | [], _, _, _ => by
    simp only [executeAll]
    exact .pure _ rfl
  | s :: rest, hf, hs, hL => by
    simp only [FilledAll] at hf
    simp only [blockItems, after_eq] at hs
    simp only [extents] at hL
    simp only [executeAll]
    have hrest := hs.right
    rw [items_length] at hrest
    have hfirst := execute_matches N hf.1 hs.left (hL.sub (by omega) (by omega))
    exact hfirst.bind fun _ => executeAll_matches N hf.2 hrest (hL.sub (by omega) (by omega))

end

theorem declareAll_matches (N : Nat) {L : List Nat} (more : Bool) :
    ∀ {start : Nat} {ds : List Declaration},
      Stands items start (declarationItems start more ds) →
      Matches f items N L (if ds.isEmpty && !more then none else some start) (declareAll f start ds)
        fun _ => (L, if more then some (start + ds.length) else none)
  | start, [], _ => by
    simp only [declareAll]
    exact .pure _ (by cases more <;> rfl)
  | start, d :: rest, hs => by
    simp only [declarationItems] at hs
    simp only [declareAll]
    have h := declareAll_matches N more (L := L) hs.tail
    have hstep := Matches.spend (N := N) hs.head (stepsAs_declare f start _ L rfl)
    rw [List.length_cons, Nat.add_comm rest.length 1, ← Nat.add_assoc]
    exact hstep.bind fun _ => h

theorem Stands.whole (l : List Item) : Stands l.toArray 0 l := by
  intro j _
  simp

theorem declarationItems_length (start : Nat) (more : Bool) (ds : List Declaration) :
    (declarationItems start more ds).length = ds.length := by
  induction ds generalizing start with
  | nil => rfl
  | cons d rest ih => simp [declarationItems, ih]

theorem program_matches (f : Frame) (hf : FilledAll p.sentences) (N : Nat)
    (hne : p.items ≠ []) :
    Matches f p.items.toArray N [] (some 0)
      (do declareAll f 0 p.declarations; executeAll f p.declarations.length p.sentences)
      fun _ => ([], none) := by
  have hwhole := Stands.whole p.items
  have hs := hwhole.right
  rw [declarationItems_length, Nat.zero_add] at hs
  have hd := declareAll_matches (f := f) N (L := []) (!p.sentences.isEmpty) hwhole.left
  have he := executeAll_matches (f := f) N hf hs (L := []) nofun
  cases hsent : p.sentences with
  | nil =>
    rw [hsent] at hd he
    have hdecl : p.declarations.isEmpty = false := by
      cases hdecl : p.declarations
      · simp [Program.items, hsent, hdecl, declarationItems, blockItems] at hne
      · rfl
    simp only [List.isEmpty_nil, Bool.not_true, hdecl] at hd
    exact hd.bind fun _ => he
  | cons s rest =>
    rw [hsent] at hd he
    simp only [List.isEmpty_cons, Bool.not_false, Bool.not_true, Bool.and_false, Bool.false_eq_true,
      if_false, if_true, Nat.zero_add] at hd
    exact hd.bind fun _ => he

theorem items_eq_nil_iff (p : Program) :
    p.items = [] ↔ p.declarations = [] ∧ p.sentences = [] := by
  constructor
  · intro h
    have hlen := congrArg List.length h
    simp only [Program.items, List.length_append, declarationItems_length, blockItems_length] at hlen
    cases hd : p.declarations with
    | cons d ds => simp [hd] at hlen
    | nil =>
      cases hs : p.sentences with
      | nil => exact ⟨rfl, rfl⟩
      | cons s rest => cases s <;> simp [hs, extents, Sentence.extent] at hlen
  · rintro ⟨hd, hs⟩
    simp [Program.items, hd, hs, declarationItems, blockItems]


/-- The first `n` steps of a program by following links, on a new or a loaded memory. -/
def linked (f : Frame) (p : Program) (memory : Option Memory) (n : Nat) :
    Except Fault (Option Nat) × Course Trace :=
  runProgram f (tracer p.items.toArray) p memory.isSome n (.start memory [] [])

/-- The first `n` steps of a program by recursion on its blocks. -/
def nested (f : Frame) (p : Program) (memory : Option Memory) (n : Nat) :
    Except Fault (Option (Unit × Nat)) × Course Trace :=
  structured f p memory.isSome n (.start memory [] [])

/-- The two runs are in step: the same fault, or both cut short, or both done; the same course but for
the loops in progress; and no loop in progress when they are done. -/
def InStep (r : Except Fault (Option Nat) × Course Trace)
    (q : Except Fault (Option (Unit × Nat)) × Course Trace) : Prop :=
  r.1.map Option.isNone = q.1.map Option.isSome ∧ r.2.looped [] = q.2.looped [] ∧
    (r.1 = .ok none → r.2.situation.looping = [])

theorem Matches.inStep {f : Frame} {items : Array Item} {n : Nat} {here : Option Nat}
    {m : Budgeted Unit} (h : Matches f items n [] here m fun _ => ([], none)) (c : Course Trace) :
    InStep (jump f items n here (c.looped [])) (m n c) := by
  have h := h n (Nat.le_refl n) c
  revert h
  rcases m n c with ⟨e | _ | ⟨_, k⟩, c'⟩
  · rintro ⟨L, h⟩
    rw [h]
    exact ⟨rfl, rfl, nofun⟩
  · rintro ⟨place, L, h⟩
    rw [h]
    exact ⟨rfl, rfl, nofun⟩
  · rintro ⟨-, h⟩
    have : jump f items k none (c'.looped []) = (.ok none, c'.looped []) := by cases k <;> rfl
    rw [h, this]
    exact ⟨rfl, rfl, fun _ => rfl⟩

theorem linked_inStep (f : Frame) (hf : FilledAll p.sentences)
    (memory : Option Memory) (n : Nat) : InStep (linked f p memory n) (nested f p memory n) := by
  -- showing a loaded memory is the same for both, since nothing has been performed yet
  obtain ⟨c, hc, hl, hn⟩ : ∃ c : Course Trace, c.looped [] = c ∧
      linked f p memory n = (do
        if p.items.toArray.isEmpty then throw (.misuse .emptyProgram)
        jump f p.items.toArray n (some 0) : RunM Trace _) c ∧
      nested f p memory n = (do
        if p.declarations.isEmpty && p.sentences.isEmpty then throwThe Fault (.misuse .emptyProgram)
        declareAll f 0 p.declarations
        executeAll f p.declarations.length p.sentences : Budgeted Unit) n c := by
    cases memory
    · exact ⟨_, rfl, rfl, rfl⟩
    · exact ⟨_, rfl, rfl, rfl⟩
  rw [hl, hn]
  by_cases hne : p.items = []
  · obtain ⟨hd, hs⟩ := (items_eq_nil_iff p).1 hne
    rw [hne, hd, hs]
    exact ⟨rfl, rfl, nofun⟩
  · have hitems : p.items.toArray.isEmpty = false := by simpa using hne
    have hempty : (p.declarations.isEmpty && p.sentences.isEmpty) = false := by
      rw [items_eq_nil_iff] at hne
      simpa using hne
    rw [hitems, hempty]
    have h := (program_matches f hf n hne).inStep c
    rw [hc] at h
    exact h

end Chalkboard.Run
