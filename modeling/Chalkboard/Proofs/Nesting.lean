import Chalkboard.Proofs.DoneSteps

/-! Which counting loops are in progress while a program runs: those around the place where the run stands,
from the inside out. Every link of the flow stays inside the same loops, goes into the body of the loop it
leaves from, or goes back to the innermost of them. So when a run from a clean start stops, the loops that
it leaves in progress can be read off the place where it stopped. -/

namespace Chalkboard.Syntax

mutual

/-- The counting loops around each place of a sentence, from the inside out; `outer` are those around the
sentence. -/
def Sentence.surroundings (start : Nat) (outer : List Nat) : Sentence → List (List Nat)
  | .branch _ yes no =>
    outer :: (blockSurroundings (start + 1) outer yes ++
      blockSurroundings (start + 1 + extents yes) outer no)
  | .loop _ body => outer :: blockSurroundings (start + 1) outer body
  | .count _ _ _ _ body => outer :: blockSurroundings (start + 1) (start :: outer) body
  | _ => [outer]

def blockSurroundings (start : Nat) (outer : List Nat) : List Sentence → List (List Nat)
  | [] => []
  | s :: rest => s.surroundings start outer ++ blockSurroundings (start + s.extent) outer rest

end

/-- The counting loops around a place of a program, from the inside out. -/
def Program.around (p : Program) (place : Nat) : List Nat :=
  (p.declarations.map (fun _ => []) ++
    blockSurroundings p.declarations.length [] p.sentences).getD place []

def Action.isCount : Action → Bool
  | .perform (.count ..) => true
  | _ => false

def Action.isLoop : Action → Bool
  | .perform (.loop ..) | .perform (.count ..) => true
  | _ => false

/-- A table says what is around the places of a stretch. -/
def Covers (around : Nat → List Nat) (start : Nat) (table : List (List Nat)) : Prop :=
  ∀ j < table.length, table[j]? = some (around (start + j))

namespace Covers

variable {around : Nat → List Nat} {start : Nat} {outer : List Nat} {a b : List (List Nat)}

theorem head (h : Covers around start (outer :: a)) : around start = outer := by
  simpa using (h 0 (by simp)).symm

theorem tail (h : Covers around start (outer :: a)) : Covers around (start + 1) a := by
  intro j hj
  simpa [Nat.add_assoc, Nat.add_comm 1 j] using h (j + 1) (by simpa using hj)

theorem left (h : Covers around start (a ++ b)) : Covers around start a := by
  intro j hj
  rw [← h j (by simp; omega), List.getElem?_append_left hj]

theorem right (h : Covers around start (a ++ b)) : Covers around (start + a.length) b := by
  intro j hj
  have hb := h (a.length + j) (by simp; omega)
  rwa [List.getElem?_append_right (by omega), Nat.add_sub_cancel_left, ← Nat.add_assoc] at hb

end Covers

mutual

theorem surroundings_length (start : Nat) (outer : List Nat) :
    ∀ s : Sentence, (s.surroundings start outer).length = s.extent
  | .skip _ | .assign .. | .call .. => rfl
  | .branch _ yes no => by
    simp only [Sentence.surroundings, Sentence.extent, List.length_cons, List.length_append,
      blockSurroundings_length]
    omega
  | .loop .. | .count .. => by
    simp only [Sentence.surroundings, Sentence.extent, List.length_cons, blockSurroundings_length]
    omega

theorem blockSurroundings_length (start : Nat) (outer : List Nat) :
    ∀ block : List Sentence, (blockSurroundings start outer block).length = extents block
  | [] => rfl
  | s :: rest => by
    simp only [blockSurroundings, extents, List.length_append, surroundings_length,
      blockSurroundings_length]

end

/-- Where a link leads from inside some loops: out of none of them, or back to the innermost. -/
def Leads (items : Array Item) (around : Nat → List Nat) (loops : List Nat) : Option Nat → Prop
  | none => loops = []
  | some place => around place = loops ∨ loops = place :: around place ∧
      ∃ item, items[place]? = some item ∧ item.action.isCount = true

/-- The links of an entry keep to the loops around it, and a loop has a body to go into. -/
structure Nested (items : Array Item) (around : Nat → List Nat) (place : Nat) (item : Item) : Prop where
  before : ∀ q ∈ around place, q < place
  next : Leads items around (around place) item.next
  inner : ∀ q, item.inner = some q →
    around q = if item.action.isCount then place :: around place else around place
  other : ∀ q, item.other = some q → around q = around place
  filled : item.action.isLoop = true → ∃ q, item.inner = some q

def NestedAll (items : Array Item) (around : Nat → List Nat) (start : Nat) (stretch : List Item) : Prop :=
  ∀ j item, stretch[j]? = some item → Nested items around (start + j) item

namespace NestedAll

variable {items : Array Item} {around : Nat → List Nat} {start : Nat} {item : Item} {a b : List Item}

theorem nil : NestedAll items around start [] := by
  intro j item h
  cases h

theorem cons (h : Nested items around start item) (ha : NestedAll items around (start + 1) a) :
    NestedAll items around start (item :: a) := by
  intro j entry hj
  cases j with
  | zero =>
    cases hj
    exact h
  | succ j =>
    have hentry := ha j entry hj
    rwa [Nat.add_assoc, Nat.add_comm 1 j] at hentry

theorem append (ha : NestedAll items around start a) (hb : NestedAll items around (start + a.length) b) :
    NestedAll items around start (a ++ b) := by
  intro j entry hj
  by_cases hlt : j < a.length
  · exact ha j entry (by rwa [List.getElem?_append_left hlt] at hj)
  · rw [List.getElem?_append_right (by omega)] at hj
    have hentry := hb (j - a.length) entry hj
    rwa [show start + a.length + (j - a.length) = start + j by omega] at hentry

end NestedAll

section Links

variable {items : Array Item} {around : Nat → List Nat}

variable {block : List Sentence} {start : Nat}

theorem blockStart_eq_some (h : block ≠ []) :
    blockStart start block = some start := by
  simp [blockStart, h]

theorem Covers.blockStart {outer : List Nat}
    (h : Covers around start (blockSurroundings start outer block)) {q : Nat}
    (hq : blockStart start block = some q) : around q = outer := by
  cases block with
  | nil => cases hq
  | cons s rest =>
    cases hq
    rw [blockSurroundings] at h
    cases s <;> exact h.left.head

mutual

theorem items_nested {start : Nat} {next : Option Nat} {outer : List Nat}
    (hbefore : ∀ q ∈ outer, q < start) (hnext : Leads items around outer next) :
    ∀ s : Sentence, Run.Filled s → Run.Stands items start (s.items start next) →
      Covers around start (s.surroundings start outer) →
      NestedAll items around start (s.items start next)
  | .skip _, _, _, hc | .assign .., _, _, hc | .call .., _, _, hc => by
    simp only [Sentence.surroundings] at hc
    simp only [Sentence.items]
    refine .cons ⟨?_, ?_, nofun, nofun, nofun⟩ .nil
    · rwa [hc.head]
    · rwa [hc.head]
  | .branch guard yes no, hf, hs, hc => by
    simp only [Run.Filled] at hf
    simp only [Sentence.surroundings] at hc
    simp only [Sentence.items] at hs ⊢
    have hyes := hc.tail.left
    have hno := hc.tail.right
    have hnos := hs.tail.right
    rw [blockSurroundings_length] at hno
    rw [Run.blockItems_length] at hnos
    have hinside (k : Nat) : ∀ q ∈ outer, q < start + 1 + k := fun q hq => by
      have := hbefore q hq
      omega
    refine .cons ⟨?_, ?_, fun q hq => ?_, fun q hq => ?_, nofun⟩ (.append ?_ ?_)
    · rwa [hc.head]
    · rwa [hc.head]
    · rw [hc.head]
      exact hyes.blockStart hq
    · rw [hc.head]
      exact hno.blockStart hq
    · exact blockItems_nested (hinside 0) hnext yes hf.1 hs.tail.left hyes
    · rw [Run.blockItems_length]
      exact blockItems_nested (hinside _) hnext no hf.2 hnos hno
  | .loop guard body, hf, hs, hc => by
    simp only [Run.Filled] at hf
    simp only [Sentence.surroundings] at hc
    simp only [Sentence.items] at hs ⊢
    have hback : Leads items around outer (some start) := .inl hc.head
    refine .cons ⟨?_, ?_, fun q hq => ?_, nofun, fun _ => ?_⟩ ?_
    · rwa [hc.head]
    · rwa [hc.head]
    · rw [hc.head]
      exact hc.tail.blockStart hq
    · exact ⟨start + 1, blockStart_eq_some hf.1⟩
    · exact blockItems_nested (fun q hq => Nat.lt_succ_of_lt (hbefore q hq)) hback body hf.2 hs.tail
        hc.tail
  | .count v first last up body, hf, hs, hc => by
    simp only [Run.Filled] at hf
    simp only [Sentence.surroundings] at hc
    simp only [Sentence.items] at hs ⊢
    have hback : Leads items around (start :: outer) (some start) :=
      .inr ⟨by rw [hc.head], _, hs.head, rfl⟩
    refine .cons ⟨?_, ?_, fun q hq => ?_, nofun, fun _ => ?_⟩ ?_
    · rwa [hc.head]
    · rwa [hc.head]
    · rw [hc.head]
      exact hc.tail.blockStart hq
    · exact ⟨start + 1, blockStart_eq_some hf.1⟩
    · refine blockItems_nested ?_ hback body hf.2 hs.tail hc.tail
      refine List.forall_mem_cons.2 ⟨Nat.lt_succ_self start, fun q hq => ?_⟩
      exact Nat.lt_succ_of_lt (hbefore q hq)

theorem blockItems_nested {start : Nat} {next : Option Nat} {outer : List Nat}
    (hbefore : ∀ q ∈ outer, q < start) (hnext : Leads items around outer next) :
    ∀ block : List Sentence, Run.FilledAll block →
      Run.Stands items start (blockItems start next block) →
      Covers around start (blockSurroundings start outer block) →
      NestedAll items around start (blockItems start next block)
  | [], _, _, _ => .nil
  | s :: rest, hf, hs, hc => by
    simp only [Run.FilledAll] at hf
    simp only [blockSurroundings] at hc
    simp only [blockItems] at hs ⊢
    have hrest := hc.right
    have hrests := hs.right
    rw [surroundings_length] at hrest
    rw [Run.items_length] at hrests
    refine .append (items_nested hbefore ?_ s hf.1 hs.left hc.left) ?_
    · split
      · exact hnext
      · rename_i hne
        exact .inl (hrest.blockStart (blockStart_eq_some (by simpa using hne)))
    · rw [Run.items_length]
      refine blockItems_nested (fun q hq => ?_) hnext rest hf.2 hrests hrest
      have := hbefore q hq
      omega

end

end Links

theorem covers_around (p : Program) :
    Covers p.around 0 (p.declarations.map (fun _ => []) ++
      blockSurroundings p.declarations.length [] p.sentences) := by
  intro j hj
  rw [Nat.zero_add, Program.around, List.getD_eq_getElem?_getD, List.getElem?_eq_getElem hj]
  rfl

theorem declarationItems_nested {items : Array Item} {around : Nat → List Nat} {more : Bool}
    {start : Nat} {ds : List Declaration} (hc : Covers around start (ds.map fun _ => []))
    (hlast : more = true → around (start + ds.length) = []) :
    NestedAll items around start (declarationItems start more ds) := by
  induction ds generalizing start with
  | nil => exact .nil
  | cons d rest ih =>
    rw [List.map_cons] at hc
    have hplace : around start = [] := hc.head
    refine .cons ⟨?_, ?_, nofun, nofun, nofun⟩ (ih hc.tail ?_)
    · rw [hplace]
      exact nofun
    · rw [hplace]
      cases rest with
      | nil =>
        cases more with
        | false => exact rfl
        | true => exact .inl (hlast rfl)
      | cons d' rest => exact .inl hc.tail.head
    · rwa [Nat.add_assoc, Nat.add_comm 1]

theorem program_nested {p : Program} (hf : Run.FilledAll p.sentences) {place : Nat} {item : Item}
    (h : p.items[place]? = some item) :
    Nested p.items.toArray p.around place item := by
  have hc := covers_around p
  have hwhole := Run.Stands.whole p.items
  have hs := hwhole.right
  have hcs := hc.right
  rw [Run.declarationItems_length, Nat.zero_add] at hs
  rw [List.length_map, Nat.zero_add] at hcs
  have houtside : Leads p.items.toArray p.around [] none := rfl
  have hall : NestedAll p.items.toArray p.around 0 p.items := by
    rw [Program.items]
    refine .append (declarationItems_nested hc.left fun hmore => ?_) ?_
    · rw [Nat.zero_add]
      exact hcs.blockStart (blockStart_eq_some (by simpa using hmore))
    · rw [Run.declarationItems_length, Nat.zero_add]
      exact blockItems_nested (by simp) houtside p.sentences hf hs hcs
  have hnested := hall place item h
  rwa [Nat.zero_add] at hnested

end Chalkboard.Syntax

namespace Chalkboard.Run

open Effects
open Syntax (Expr Variable Sentence Action Item Program Leads Nested program_nested)

/-- A situation without the loops in progress and the notes of a step. -/
def Situation.bare (s : Situation) : Situation := { s with looping := [], noted := [] }

section Steady

variable {α : Type} {f : Frame} {s s' : Situation}

/-- Blind work does the same from situations that differ in loops and notes, and keeps the loops. -/
theorem Blind.steady {m : StepM α} (h : Blind m) (hbare : s.bare = s'.bare) :
    (m s).1 = (m s').1 ∧ (m s).2.bare = (m s').2.bare ∧ (m s).2.looping = s.looping := by
  have hs (s : Situation) : m s = ((m s.bare).1, (m s.bare).2.under s.looping s.noted) := by
    have hunder := h s.looping s.noted s.bare
    rwa [show s.bare.under s.looping s.noted = s by simp [Situation.under, Situation.bare]] at hunder
  rw [hs s, hs s', hbare]
  exact ⟨rfl, rfl, rfl⟩

theorem Blind.countTest (v : Variable) (start stop : Expr) (up first : Bool) :
    Blind (countTest f v start stop up first) := by
  refine (Blind.countValue f v start up first).bind fun value => (Blind.evaluate f stop).bind fun last =>
    (Blind.lift _).bind fun more => .ite ?_ (.pure _)
  exact (Blind.onMemory _).bind fun _ => .pure _

theorem blind_step (place : Nat) {item : Item} (h : item.action.isCount = false) :
    Blind (step f place item) := by
  obtain ⟨action, next, inner, other⟩ := item
  cases action with
  | declare d => exact (Blind.onMemory _).bind fun _ => .pure _
  | perform sentence =>
    cases sentence with
    | skip line => exact .pure _
    | assign v e =>
      exact (Blind.evaluate f e).bind fun _ => (Blind.traceOrigin f v e _).bind fun _ =>
        (Blind.onMemory _).bind fun _ => .pure _
    | call builtin line v => cases builtin <;> exact (Blind.onMemory _).bind fun _ => .pure _
    | branch guard yes no => exact (Blind.evaluate f guard).bind fun _ => .pure _
    | loop guard body => exact (Blind.evaluate f guard).bind fun _ => .ite (.pure _) (.pure _)
    | count => cases h

theorem step_count {place : Nat} {item : Item} {v : Variable} {start stop : Expr} {up : Bool}
    {body : List Sentence} (h : item.action = .perform (.count v start stop up body)) (s : Situation) :
    step f place item s = match countTest f v start stop up (!s.looping.contains place) s with
      | (.ok more, s') => (.ok (if more then item.inner else item.next),
          { s' with looping := if more then place :: s'.looping.filter (· != place)
                               else s'.looping.filter (· != place) })
      | (.error e, s') => (.error e, s') := by
  have hvalue : nextCount f place v start up s =
      countValue f v start up (!s.looping.contains place) s := by
    rw [nextCount, bind_apply, get_apply, countValue]
    dsimp only
    cases s.looping.contains place <;> rfl
  rw [step, h]
  simp only [perform, countTest, bind_apply, hvalue]
  rcases countValue f v start up (!s.looping.contains place) s with ⟨_ | value, s₁⟩
  · rfl
  dsimp only
  rcases evaluate f stop s₁ with ⟨_ | last, s₂⟩
  · rfl
  dsimp only
  rw [lift_apply]
  rcases liftMisuse (if up then value.lessEqual last else value.moreEqual last) with _ | _ | _
  · rfl
  · rfl
  · dsimp only
    rw [if_pos rfl, if_pos rfl, bind_apply, bind_apply]
    rcases onMemory (writeVariable f v value) s₂ with ⟨_ | _, s₃⟩ <;> rfl

end Steady

/-- Where a run stands, with loops in progress: around the place, and perhaps the loop at the place
itself. -/
def Inside (p : Program) (loops : List Nat) : Option Nat → Prop
  | none => loops = []
  | some place => loops = p.around place ∨ loops = place :: p.around place ∧
      ∃ item, p.items[place]? = some item ∧ item.action.isCount = true

section Inside

variable {f : Frame} {p : Program} {place : Nat} {item : Item} {s s' : Situation}

/-- A step leads on, or into a loop, or into a branch that is not empty. -/
theorem step_next {next : Option Nat} (h : step f place item s = (.ok next, s')) :
    next = item.next ∨ next = item.inner ∧ (item.action.isLoop = true ∨ next.isSome = true) ∨
      next = item.other ∧ next.isSome = true := by
  obtain ⟨action, after, inner, other⟩ := item
  cases action with
  | declare d =>
    obtain ⟨_, _, -, h⟩ := bind_ok h
    cases h
    exact .inl rfl
  | perform sentence =>
    cases sentence with
    | skip line =>
      cases h
      exact .inl rfl
    | assign v e =>
      obtain ⟨_, _, -, h⟩ := bind_ok h
      obtain ⟨_, _, -, h⟩ := bind_ok h
      obtain ⟨_, _, -, h⟩ := bind_ok h
      cases h
      exact .inl rfl
    | call builtin line v =>
      cases builtin <;>
      · obtain ⟨_, _, -, h⟩ := bind_ok h
        cases h
        exact .inl rfl
    | branch guard yes no =>
      obtain ⟨value, _, -, h⟩ := bind_ok h
      cases h
      split
      · cases inner <;> simp
      · cases other <;> simp
    | loop guard body =>
      obtain ⟨value, _, -, h⟩ := bind_ok h
      split at h <;> cases h
      · exact .inr (.inl ⟨rfl, .inl rfl⟩)
      · exact .inl rfl
    | count v start stop up body =>
      obtain ⟨value, _, -, h⟩ := bind_ok h
      obtain ⟨last, _, -, h⟩ := bind_ok h
      obtain ⟨goes, _, -, h⟩ := bind_ok h
      split at h
      · obtain ⟨_, _, -, h⟩ := bind_ok h
        cases h
        exact .inr (.inl ⟨rfl, .inl rfl⟩)
      · cases h
        exact .inl rfl

theorem step_leads {items : Array Item} {around : Nat → List Nat} (hn : Nested items around place item)
    (hcount : item.action.isCount = false) {next : Option Nat}
    (h : step f place item s = (.ok next, s')) : Leads items around (around place) next := by
  rcases step_next h with rfl | ⟨hinner, hgoes⟩ | ⟨hother, hsome⟩
  · exact hn.next
  · obtain ⟨q, hq⟩ : ∃ q, item.inner = some q :=
      hgoes.elim hn.filled fun hsome => hinner ▸ Option.isSome_iff_exists.1 hsome
    rw [hinner, hq]
    refine .inl ((hn.inner q hq).trans ?_)
    rw [hcount]
    rfl
  · obtain ⟨q, rfl⟩ := Option.isSome_iff_exists.1 hsome
    exact .inl (hn.other q hother.symm)

theorem filter_self {loops : List Nat} (h : ∀ q ∈ loops, q < place) :
    loops.filter (· != place) = loops :=
  List.filter_eq_self.2 fun q hq => by simpa using Nat.ne_of_lt (h q hq)

/-- Whatever becomes of a step, it leaves in progress the loops around its place, and perhaps the loop at
its place itself; if it is done, these are in keeping with the place where it leads. -/
theorem step_inside (hf : FilledAll p.sentences) (hitem : p.items[place]? = some item)
    (hs : Inside p s.looping (some place)) :
    ((step f place item s).2.looping = p.around place ∨
      (step f place item s).2.looping = place :: p.around place) ∧
    ∀ next s', step f place item s = (.ok next, s') → Inside p s'.looping next := by
  have hn := program_nested hf hitem
  have hleads (next : Option Nat) (h : Leads p.items.toArray p.around (p.around place) next) :
      Inside p (p.around place) next := by
    cases next with
    | none => exact h
    | some q => exact h.imp Eq.symm fun ⟨heq, hq⟩ => ⟨heq, by simpa using hq⟩
  cases hcount : item.action.isCount with
  | false =>
    have hloops : s.looping = p.around place := by
      rcases hs with heq | ⟨-, item', hitem', hcount'⟩
      · exact heq
      · cases hitem.symm.trans hitem'
        rw [hcount] at hcount'
        cases hcount'
    have hkept := ((blind_step (f := f) place hcount).steady (rfl : s.bare = _)).2.2
    refine ⟨.inl (hkept.trans hloops), fun next s' h => ?_⟩
    rw [h] at hkept
    rw [show s'.looping = s.looping from hkept, hloops]
    exact hleads next (step_leads hn hcount h)
  | true =>
    obtain ⟨action, after, inner, other⟩ := item
    rcases action with _ | ⟨_ | _ | _ | _ | _ | ⟨v, start, stop, up, body⟩⟩
    case perform.count =>
      have hblind := Blind.countTest (f := f) v start stop up (!s.looping.contains place)
      have hkept := (hblind.steady (rfl : s.bare = _)).2.2
      have hfilter : s.looping.filter (· != place) = p.around place := by
        rcases hs with heq | ⟨heq, -⟩
        · rw [heq, filter_self hn.before]
        · rw [heq, List.filter_cons_of_neg (by simp), filter_self hn.before]
      rw [step_count rfl s]
      revert hkept
      rcases countTest f v start stop up (!s.looping.contains place) s with ⟨e | _ | _, t⟩
      all_goals
        intro hkept
        dsimp only at hkept ⊢
        rw [hkept]
      · exact ⟨hs.imp id And.left, nofun⟩
      · rw [hfilter]
        refine ⟨.inl rfl, fun next s' h => ?_⟩
        cases h
        exact hleads after hn.next
      · rw [hfilter]
        refine ⟨.inr rfl, fun next s' h => ?_⟩
        cases h
        obtain ⟨q, hq⟩ := hn.filled rfl
        have haround := hn.inner q hq
        rw [if_pos rfl, show inner = some q from hq]
        exact .inl haround.symm
    all_goals cases hcount

end Inside

section Run

variable {f : Frame} {p : Program}

theorem runFrom_one (items : Array Item) (place : Nat) (c : Course Unit) :
    runFrom f {} items 1 (some place) c = match items[place]? with
      | none => (.ok none, c)
      | some item => match step f place item c.situation with
        | (.ok next, s) =>
          (if Types.exceeds f.limits.steps (c.steps + 1 : Nat) then .error (.limit .steps) else .ok next,
            c.onward place s)
        | (.error e, s) => (.error e, { c with situation := s, current := some place }) := by
  rw [runFrom]
  rcases items[place]? with _ | item
  · rfl
  · dsimp only
    rw [bind_apply, watched_apply]
    rcases step f place item c.situation with ⟨e | next, s⟩
    · rfl
    · cases hlimit : Types.exceeds f.limits.steps (c.steps + 1 : Nat) with
      | true => rfl
      | false => cases next <;> rfl

theorem runProgram_of_ne {n : Nat} {c : Course Unit} (hne : p.items ≠ []) :
    runProgram f {} p false n c = runFrom f {} p.items.toArray n (some 0) c := by
  rw [runProgram, if_neg Bool.false_ne_true]
  dsimp only
  rw [if_neg (by simpa using hne)]

end Run

end Chalkboard.Run
