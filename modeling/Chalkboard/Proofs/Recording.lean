import Chalkboard.Proofs.CellValues
import Chalkboard.Proofs.Nesting

/-! What is recorded while a program runs: a frame for every step that is done, and one before them for a
memory that was loaded. Each frame stands where the run stood after its step, and tells what changed since
the frame before it. A run that is recorded takes the same steps as one that nobody watches. -/

namespace Chalkboard.Timeline

open Effects
open Syntax (Item Program)
open Chalkboard.Types (Graph)
open Memory (Root Cell)
open Run (Situation Lawful Course step watched runFrom runFrom_one runProgram watched_apply)

theorem Frame.cell?_eq (frame : Frame) (k : Root) : frame.cell? k = frame.memory.rootCell? k := by
  cases k <;> rfl

def lastSituation (frames : Timeline) : Situation := (frames.back?.map (·.situation)).getD {}

section Recorder

variable {f : Run.Frame} {p : Program}

theorem record_apply (g : Graph) (items : Array Item) (done : Option Nat) (now : Situation)
    (frames : Timeline) :
    record g items done now frames =
      match diff g (lastSituation frames) now with
      | .ok d => (.ok (), frames.push ⟨done, (done.map (lineOf items)).getD 0, now, d⟩)
      | .error e => (.error e, frames) := by
  rw [record, bind_apply, get_apply]
  dsimp only
  rw [bind_apply, lift_apply, lastSituation]
  cases diff g _ now <;> rfl

theorem watched_recorder (place : Nat) (item : Item) (c : Course Timeline) :
    watched f.limits (recorder f.types.graph p) place (step f place item) c =
      match step f place item c.situation with
      | (.error e, s) => (.error e, { c with situation := s, current := some place })
      | (.ok x, s) =>
        match diff f.types.graph (lastSituation c.seen) s with
        | .error e => (.error e,
            { c with situation := { s with noted := [] }, last := some place, current := some place })
        | .ok d =>
          (if Types.exceeds f.limits.steps (c.steps + 1 : Nat) then .error (.limit .steps) else .ok x,
            { situation := { s with noted := [] }, steps := c.steps + 1, last := some place,
              current := some place,
              seen := c.seen.push ⟨some place, lineOf p.items.toArray place, s, d⟩ }) := by
  unfold watched Run.showAfter Run.watching Run.stepping recorder
  simp only [bind_apply, get_apply, set_apply, modify_apply, pure_apply, record_apply]
  rcases step f place item c.situation with ⟨_ | x, s⟩
  · rfl
  · dsimp only
    rcases diff f.types.graph (lastSituation c.seen) s with _ | d
    · rfl
    · dsimp only
      split <;> rfl

end Recorder

/-- Frames that follow one another from a place and a situation, each recorded after one more step. -/
inductive Chain (f : Run.Frame) (items : Array Item) :
    Option Nat → Situation → Situation → List Frame → Prop
  | nil (next : Option Nat) (before s : Situation) : Chain f items next before s []
  | cons {place : Nat} {item : Item} {next : Option Nat} {before s : Situation} {frame : Frame}
      {rest : List Frame} (hitem : items[place]? = some item)
      (hstep : step f place item s = (.ok next, frame.situation)) (hdone : frame.done = some place)
      (hdiff : diff f.types.graph before frame.situation = .ok frame.diff)
      (hrest : Chain f items next frame.situation { frame.situation with noted := [] } rest) :
      Chain f items (some place) before s (frame :: rest)

theorem Chain.done {f : Run.Frame} {items : Array Item} {next : Option Nat} {before s : Situation}
    {frames : List Frame} (h : Chain f items next before s frames) {k : Nat} {frame : Frame}
    (hk : frames[k]? = some frame) : ∃ place, frame.done = some place := by
  induction h generalizing k with
  | nil => cases hk
  | cons _ _ hdone _ _ ih =>
    cases k with
    | zero =>
      cases hk
      exact ⟨_, hdone⟩
    | succ k => exact ih hk

section Run

variable {f : Run.Frame} {p : Program}

theorem lastSituation_push (frames : Timeline) (frame : Frame) :
    lastSituation (frames.push frame) = frame.situation := by
  rw [lastSituation, Array.back?_push]
  rfl

/-- What a run has recorded when it has come to its end from a place: the frames, one for each step done,
and where each of them stands in a run that nobody watches. -/
structure Records (f : Run.Frame) (items : Array Item) (next : Option Nat) (c : Course Timeline)
    (c' : Course Unit) (r : Except Fault (Option Nat) × Course Timeline) (frames : List Frame) : Prop where
  seen : r.2.seen.toList = c.seen.toList ++ frames
  chain : Chain f items next (lastSituation c.seen) c.situation frames
  steps : r.2.steps = c.steps + frames.length
  memory {next' : Option Nat} (hr : r.1 = .ok next') :
    r.2.situation.memory = (frames.map (·.memory)).getLastD c.situation.memory
  plain {k : Nat} {frame : Frame} (hk : frames[k]? = some frame) :
    let q := (runFrom f {} items (k + 1) next c').2
    q.steps = c.steps + (k + 1) ∧ q.last = frame.done ∧ q.situation.memory = frame.memory

section Records

variable {c : Course Timeline} {c' : Course Unit} {items : Array Item}
  {r : Except Fault (Option Nat) × Course Timeline}

theorem Records.stop {next : Option Nat} (hseen : r.2.seen = c.seen) (hcount : r.2.steps = c.steps)
    (hmemory : ∀ next', r.1 = .ok next' → r.2.situation.memory = c.situation.memory) :
    Records f items next c c' r [] :=
  ⟨by simp [hseen], .nil _ _ _, hcount, hmemory _, fun hk => by cases hk⟩

/-- The course after one more step, with its frame. -/
def recorded (c : Course Timeline) (place : Nat) (frame : Frame) : Course Timeline :=
  { situation := { frame.situation with noted := [] }, steps := c.steps + 1, last := some place,
    current := some place, seen := c.seen.push frame }

theorem Records.step {place : Nat} {item : Item} {next : Option Nat} {frame : Frame} {frames : List Frame}
    (hsituation : c'.situation = c.situation) (hsteps : c'.steps = c.steps)
    (hitem : items[place]? = some item)
    (hstep : Run.step f place item c.situation = (.ok next, frame.situation))
    (hdone : frame.done = some place)
    (hdiff : diff f.types.graph (lastSituation c.seen) frame.situation = .ok frame.diff)
    (hlimit : frames ≠ [] → Types.exceeds f.limits.steps (c.steps + 1 : Nat) = false)
    (hrest : Records f items next (recorded c place frame) (c'.onward place frame.situation) r frames) :
    Records f items (some place) c c' r (frame :: frames) := by
  have hstep' : Run.step f place item c'.situation = (.ok next, frame.situation) := hsituation ▸ hstep
  refine ⟨?_, ?_, ?_, ?_, ?_⟩
  · simpa [recorded] using hrest.seen
  · refine .cons hitem hstep hdone hdiff ?_
    have hchain := hrest.chain
    rwa [recorded, lastSituation_push] at hchain
  · rw [List.length_cons, Nat.add_comm frames.length, ← Nat.add_assoc]
    exact hrest.steps
  · intro next' hr
    rw [List.map_cons, List.getLastD_cons]
    exact hrest.memory hr
  · intro k frame' hk
    cases k with
    | zero =>
      cases hk
      have hone := runFrom_one (f := f) items place c'
      rw [hitem] at hone
      dsimp only at hone
      rw [hstep'] at hone
      rw [hone]
      exact ⟨congrArg (· + 1) hsteps, hdone.symm, rfl⟩
    | succ k =>
      have hplain := hrest.plain (k := k) hk
      rw [runFrom, hitem]
      dsimp only
      rw [bind_apply, watched_apply, hstep']
      dsimp only
      rw [hsteps, hlimit (by rintro rfl; cases hk), ← hsteps]
      refine ⟨hplain.1.trans ?_, hplain.2⟩
      change c.steps + 1 + (k + 1) = _
      omega

end Records

theorem runFrom_records (n : Nat) (next : Option Nat) (c : Course Timeline) (c' : Course Unit)
    (hsituation : c'.situation = c.situation) (hsteps : c'.steps = c.steps) :
    ∃ frames, Records f p.items.toArray next c c'
      (runFrom f (recorder f.types.graph p) p.items.toArray n next c) frames := by
  induction n generalizing next c c' with
  | zero => exact ⟨[], by cases next <;> exact .stop rfl rfl fun _ _ => rfl⟩
  | succ n ih =>
    cases next with
    | none => exact ⟨[], .stop rfl rfl fun _ _ => rfl⟩
    | some place =>
      rw [runFrom]
      rcases hitem : p.items.toArray[place]? with _ | item
      · exact ⟨[], .stop rfl rfl fun _ _ => rfl⟩
      dsimp only
      rw [bind_apply, watched_recorder]
      rcases hstep : step f place item c.situation with ⟨e | x, s⟩
      · exact ⟨[], .stop rfl rfl fun _ h => by cases h⟩
      dsimp only
      rcases hdiff : diff f.types.graph (lastSituation c.seen) s with e | d
      · exact ⟨[], .stop rfl rfl fun _ h => by cases h⟩
      dsimp only
      set frame : Frame := ⟨some place, lineOf p.items.toArray place, s, d⟩ with hframe
      cases hlimit : Types.exceeds f.limits.steps (c.steps + 1 : Nat) with
      | true =>
        refine ⟨[frame], .step hsituation hsteps hitem hstep rfl hdiff (fun h => absurd rfl h) ?_⟩
        exact .stop rfl rfl fun _ h => by cases h
      | false =>
        obtain ⟨frames, hrest⟩ := ih x (recorded c place frame) (c'.onward place s) rfl
          (congrArg (· + 1) hsteps)
        exact ⟨frame :: frames, .step hsituation hsteps hitem hstep rfl hdiff (fun _ => hlimit) hrest⟩

def startOf (memory : Option Memory) (looping : List Nat) : Situation :=
  { memory := memory.getD {}, looping := looping }

/-- The frame of a loaded memory, if there is one. -/
inductive Opening (g : Graph) (looping : List Nat) : Option Memory → List Frame → Prop
  | new : Opening g looping none []
  | loaded {m : Memory} {frame : Frame} (hdone : frame.done = none)
      (hsituation : frame.situation = startOf (some m) looping)
      (hdiff : diff g {} frame.situation = .ok frame.diff) : Opening g looping (some m) [frame]

/-- What a program has recorded: where a memory was loaded, a frame for it, and then one for each step done.
Each stands where a run that nobody watches stands after as many steps. -/
structure Recording (f : Run.Frame) (p : Program) (memory : Option Memory) (looping : List Nat)
    (r : Except Fault (Option Nat) × Course Timeline) (opening frames : List Frame) : Prop where
  seen : r.2.seen.toList = opening ++ frames
  opened : Opening f.types.graph looping memory opening
  chain : Chain f p.items.toArray (some 0) (lastSituation opening.toArray) (startOf memory looping) frames
  steps : r.2.steps = frames.length
  ended {next : Option Nat} (hr : r.1 = .ok next) :
    r.2.situation.memory = (frames.map (·.memory)).getLastD (memory.getD {})
  plain {k : Nat} {frame : Frame} (hk : frames[k]? = some frame) :
    let q := (runProgram f {} p memory.isSome (k + 1) (.start memory looping ())).2
    q.steps = k + 1 ∧ q.last = frame.done ∧ q.situation.memory = frame.memory

section Program

variable {σ : Type} (w : Run.Watch σ)

/-- The steps of a program, once a loaded memory was shown. -/
def runItems (f : Run.Frame) (w : Run.Watch σ) (p : Program) (n : Nat) : Run.RunM σ (Option Nat) :=
  if p.items.toArray.isEmpty then throw (.misuse .emptyProgram)
  else runFrom f w p.items.toArray n (some 0)

theorem runProgram_eq (loaded : Bool) (n : Nat) (c : Course σ) :
    runProgram f w p loaded n c =
      ((if loaded then Run.showAfter w else pure ()) >>= fun _ => runItems f w p n) c := by
  unfold runProgram runItems
  cases loaded with
  | true => simp
  | false => simp

end Program

theorem runItems_recording {memory : Option Memory} {looping : List Nat} {opening : List Frame}
    (hopened : Opening f.types.graph looping memory opening) (n : Nat) :
    ∃ frames, Recording f p memory looping
      (runItems f (recorder f.types.graph p) p n (.start memory looping opening.toArray)) opening frames := by
  have hplain (k : Nat) : runProgram f {} p memory.isSome k (.start memory looping ()) =
      runItems f {} p k (.start memory looping ()) := by
    rw [runProgram_eq]
    cases memory <;> rfl
  by_cases hempty : p.items.toArray.isEmpty = true
  · refine ⟨[], ?_⟩
    rw [runItems, if_pos hempty]
    exact ⟨by simp [Course.start, throw_apply], hopened, .nil _ _ _, rfl, (fun h => by cases h),
      fun hk => by cases hk⟩
  · obtain ⟨frames, hframes⟩ := runFrom_records (f := f) (p := p) n (some 0)
      (.start memory looping opening.toArray) (.start memory looping ()) rfl rfl
    refine ⟨frames, ?_⟩
    rw [runItems, if_neg hempty]
    refine ⟨hframes.seen, hopened, hframes.chain, ?_, hframes.memory, fun {k frame} hk => ?_⟩
    · exact hframes.steps.trans (Nat.zero_add _)
    · rw [hplain, runItems, if_neg hempty]
      have hstands := hframes.plain hk
      exact ⟨hstands.1.trans (Nat.zero_add _), hstands.2⟩

theorem showAfter_recorder (m : Memory) (looping : List Nat) :
    Run.showAfter (recorder f.types.graph p) (.start (some m) looping #[]) =
      match diff f.types.graph {} (startOf (some m) looping) with
      | .ok d => (.ok (), .start (some m) looping #[⟨none, 0, startOf (some m) looping, d⟩])
      | .error e => (.error e, .start (some m) looping #[]) := by
  unfold Run.showAfter Run.watching recorder
  simp only [bind_apply, get_apply, set_apply, record_apply, Course.start]
  rw [show lastSituation #[] = {} from rfl, startOf]
  cases diff f.types.graph {} { memory := (some m).getD {}, looping := looping } <;> rfl

theorem runProgram_recording {memory : Option Memory}
    (hvalued : ∀ {m}, memory = some m → m.Valued f.types.graph) (looping : List Nat) (n : Nat) :
    ∃ opening frames, Recording f p memory looping
      (runProgram f (recorder f.types.graph p) p memory.isSome n (.start memory looping #[])) opening
      frames := by
  rw [runProgram_eq]
  cases memory with
  | none =>
    obtain ⟨frames, hframes⟩ := runItems_recording (f := f) (p := p) (@Opening.new _ looping) n
    exact ⟨[], frames, hframes⟩
  | some m =>
    obtain ⟨d, hdiff⟩ : ∃ d, diff f.types.graph {} (startOf (some m) looping) = .ok d :=
      diff_nothing (hvalued rfl)
    obtain ⟨frames, hframes⟩ := runItems_recording (f := f) (p := p)
      (@Opening.loaded _ _ m ⟨none, 0, startOf (some m) looping, d⟩ rfl rfl hdiff) n
    rw [Option.isSome_some, if_pos rfl, bind_apply, showAfter_recorder, hdiff]
    exact ⟨_, frames, hframes⟩

end Run

/-- Frames in keeping with the types, each of which tells what changed since the one before. -/
def Linked (types : Types) : Situation → List Frame → Prop
  | _, [] => True
  | before, frame :: rest =>
    (Lawful types frame.memory ∧ Compares types.graph before frame.situation frame.diff) ∧
      Linked types frame.situation rest

section Linked

variable {f : Run.Frame} {p : Program} {before s : Situation}

variable {frames opening : List Frame} {looping : List Nat} {memory : Option Memory} {next : Option Nat}
  {r : Except Fault (Option Nat) × Course Timeline}

theorem Chain.linked {items : Array Item}
    (h : Chain f items next before s frames) (hs : f.types.Sound)
    (hdeclared : ∀ (place : Nat) (item : Item) (d : Syntax.Declaration), items[place]? = some item →
      item.action = .declare d → d.type < f.types.graph.nodes.size)
    (hbefore : Lawful f.types before.memory) (hmemory : s.memory = before.memory) :
    Linked f.types before frames := by
  induction h with
  | nil => trivial
  | cons hitem hstep hdone hdiff _ ih =>
    have hlawful := (hmemory ▸ hbefore).step hs (fun d hd => hdeclared _ _ d hitem hd) hstep
    exact ⟨⟨hlawful, diff_compares hbefore.distinct hlawful.distinct hdiff⟩, ih hlawful rfl⟩

theorem Recording.linked
    (h : Recording f p memory looping r opening frames) (hready : Session.Fit f.types memory)
    (hdeclared : ∀ d ∈ p.declarations, d.type < f.types.graph.nodes.size) :
    Linked f.types {} (opening ++ frames) := by
  have hitems (place : Nat) (item : Item) (d : Syntax.Declaration)
      (hitem : p.items.toArray[place]? = some item) (hd : item.action = .declare d) :
      d.type < f.types.graph.nodes.size :=
    hdeclared d (Run.mem_declarations (by simpa using hitem) hd)
  have hstart := hready.start
  obtain ⟨-, hopened, hchain, -, -, -⟩ := h
  cases hopened with
  | new => exact hchain.linked hready.sound hitems hstart rfl
  | @loaded m frame _ hsituation hdiff =>
    have hmemory : frame.memory = m := congrArg (·.memory) hsituation
    have hlawful : Lawful f.types frame.memory := hmemory ▸ hstart
    refine ⟨⟨hlawful, diff_compares (Run.lawful_start f.types).distinct hlawful.distinct hdiff⟩, ?_⟩
    exact hchain.linked hready.sound hitems hlawful hmemory.symm

theorem Linked.last (h : Linked f.types before frames)
    (hbefore : Lawful f.types before.memory ∧ before.memory.Valued f.types.graph) :
    let last := (frames.map (·.memory)).getLastD before.memory
    Lawful f.types last ∧ last.Valued f.types.graph := by
  induction frames generalizing before with
  | nil => exact hbefore
  | cons frame rest ih =>
    rw [List.map_cons, List.getLastD_cons]
    exact ih h.2 ⟨h.1.1, h.1.2.valued⟩

theorem Recording.end_lawful
    (h : Recording f p memory looping r opening frames) (hready : Session.Fit f.types memory)
    (hdeclared : ∀ d ∈ p.declarations, d.type < f.types.graph.nodes.size)
    (hr : r.1 = .ok next) :
    Lawful f.types r.2.situation.memory ∧ r.2.situation.memory.Valued f.types.graph := by
  have hnothing : Memory.Valued f.types.graph {} := fun e he => by cases he
  have hlast := (h.linked hready hdeclared).last ⟨Run.lawful_start f.types, hnothing⟩
  rw [h.ended hr]
  obtain ⟨-, hopened, -, -, -, -⟩ := h
  cases hopened with
  | new => exact hlast
  | @loaded m frame _ hsituation _ =>
    have hmemory : frame.memory = m := congrArg (·.memory) hsituation
    rw [List.singleton_append, List.map_cons, List.getLastD_cons, hmemory] at hlast
    exact hlast

theorem ok_of_fault {α σ : Type} {r : Except Fault α × Course σ}
    (h : (Run.Outcome.of r).fault.isNone = true) : ∃ a, r.1 = .ok a := by
  rcases r with ⟨e | a, c⟩
  · cases h
  · exact ⟨a, rfl⟩

theorem run_lawful (hready : Session.Ready f.types memory)
    (hdeclared : ∀ d ∈ p.declarations, d.type < f.types.graph.nodes.size)
    (hfault : (Run.run f (recorder f.types.graph p) p memory looping #[]).fault.isNone = true) :
    let last := (Run.run f (recorder f.types.graph p) p memory looping #[]).course.situation.memory
    Lawful f.types last ∧ last.Valued f.types.graph := by
  obtain ⟨next, hok⟩ := ok_of_fault hfault
  obtain ⟨opening, frames, hrecording⟩ :=
    runProgram_recording (f := f) (p := p) hready.valued looping (Run.stepFuel f.limits)
  exact hrecording.end_lawful hready.toFit hdeclared hok

end Linked

end Chalkboard.Timeline

namespace Chalkboard.Session

open Effects
open Reading (readProgram)
open Run (Lawful Watch Course watched runFrom)

/-- A program that is read on what was saved, if anything was, in a new registry. -/
def Opens (saved : Option Saved) (setting : Reading.Setting) (text : String) (p : Syntax.Program)
    (types : Types) : Prop :=
  ∃ now, (do
    load saved
    readProgram setting text).run (fresh false saved now) = (.ok p, types)

/-- What can have been saved: nothing, or what is left when a program was run on what was saved before. -/
inductive Reached : Option Saved → Prop
  | nothing : Reached none
  | run {saved : Option Saved} {setting : Reading.Setting} {now types : Types} {source : String} {d : Done}
      (h : Reached saved) (hrun : runOne setting false saved now source = (.ok d, types)) :
      Reached (d.save saved)

section Reached

variable {saved : Option Saved}

theorem Opens.read {setting : Reading.Setting} {text : String} {p : Syntax.Program} {types : Types}
    (h : Opens saved setting text p types) :
    (readProgram setting text).run (saved.elim {} fun kept => restored kept.types) = (.ok p, types) := by
  obtain ⟨now, h⟩ := h
  cases saved with
  | none => exact h
  | some kept =>
    change (load (some kept) >>= fun _ => readProgram setting text) (fresh false (some kept) now) = _ at h
    rwa [bind_apply, load_saved] at h

theorem fit_opened (hsaved : ∀ kept, saved = some kept → Fit kept.types (some kept.memory)) :
    Fit (saved.elim {} fun kept => restored kept.types) (saved.map (·.memory)) := by
  cases saved with
  | none => exact fit_start
  | some kept => exact (hsaved kept rfl).restored

theorem Opens.usable (hsaved : ∀ kept, saved = some kept → Fit kept.types (some kept.memory))
    {setting : Reading.Setting} {text : String} {p : Syntax.Program} {types : Types}
    (h : Opens saved setting text p types) : ∀ d ∈ p.declarations, types.Usable d.type := fun d hd =>
  ((Reading.readProgram_shut_from (fit_opened hsaved).sound h.read).2.2 d hd).1

theorem Opens.fit (hsaved : ∀ kept, saved = some kept → Fit kept.types (some kept.memory))
    {setting : Reading.Setting} {text : String} {p : Syntax.Program} {types : Types}
    (h : Opens saved setting text p types) :
    Fit types (saved.map (·.memory)) ∧ ∀ d ∈ p.declarations, d.type < types.graph.nodes.size :=
  ⟨(fit_opened hsaved).read h.read, fun d hd => (h.usable hsaved d hd).1⟩

theorem Opens.ready (hsaved : ∀ kept, saved = some kept → Ready kept.types (some kept.memory))
    {setting : Reading.Setting} {text : String} {p : Syntax.Program} {types : Types}
    (h : Opens saved setting text p types) :
    Ready types (saved.map (·.memory)) ∧ ∀ d ∈ p.declarations, d.type < types.graph.nodes.size := by
  have hfit (kept : Saved) (hkept : saved = some kept) := (hsaved kept hkept).toFit
  refine ⟨Ready.read ⟨fit_opened hfit, fun hm => ?_⟩ h.read, (h.fit hfit).2⟩
  obtain ⟨kept, rfl, rfl⟩ := Option.map_eq_some_iff.1 hm
  exact (hsaved kept rfl).valued rfl

theorem runOne_ok {setting : Reading.Setting} {now types : Types} {source : String} {d : Done}
    (h : runOne setting false saved now source = (.ok d, types)) :
    Opens saved setting source d.program d.types ∧
      d.outcome = Run.run ⟨d.types, setting.limits, true⟩ (Timeline.recorder d.types.graph d.program)
        d.program (saved.map (·.memory)) [] #[] := by
  rw [runOne] at h
  dsimp only at h
  split at h
  · cases h
  · rename_i p types' hread
    cases h
    exact ⟨⟨now, hread⟩, rfl⟩

theorem Reached.ready (h : Reached saved) :
    ∀ kept, saved = some kept → Ready kept.types (some kept.memory) := by
  induction h with
  | nothing =>
    intro kept hkept
    cases hkept
  | @run saved setting now types source d _ hrun ih =>
    intro kept hkept
    rw [Done.save] at hkept
    split at hkept
    · rename_i hfault
      cases hkept
      obtain ⟨hopens, houtcome⟩ := runOne_ok hrun
      obtain ⟨hready, hdeclared⟩ := hopens.ready ih
      rw [houtcome] at hfault ⊢
      obtain ⟨hlawful, hvalued⟩ :=
        Timeline.run_lawful (f := ⟨d.types, setting.limits, true⟩) hready hdeclared hfault
      exact ⟨⟨hready.sound, hready.named, hready.basic, fun hm => by cases hm; exact hlawful⟩,
        fun hm => by cases hm; exact hvalued⟩
    · exact ih kept hkept

theorem Reached.fit (h : Reached saved) : ∀ kept, saved = some kept → Fit kept.types (some kept.memory) :=
  fun kept hkept => (h.ready kept hkept).toFit

end Reached

section Left

variable {σ : Type} {f : Run.Frame} {w : Watch σ} {c c' : Course σ}

theorem watched_ok {α : Type} {limits : Types.Limits} {place : Nat} {m : Run.StepM α} {a : α}
    (h : watched limits w place m c = (.ok a, c')) :
    ∃ s, m c.situation = (.ok a, s) ∧ c'.situation.memory = s.memory := by
  revert h
  unfold watched Run.showAfter Run.watching Run.stepping
  simp only [bind_apply, get_apply, set_apply, modify_apply]
  rcases w.before place c.situation c.seen with ⟨_ | _, seen⟩
  · exact fun h => by cases h
  dsimp only
  rcases m c.situation with ⟨_ | a', s⟩
  · exact fun h => by cases h
  dsimp only
  rcases w.after (some place) s seen with ⟨_ | _, _⟩
  · exact fun h => by cases h
  dsimp only
  intro h
  split at h <;> cases h
  exact ⟨s, rfl, rfl⟩

theorem runFrom_lawful {items : Array Syntax.Item} (hs : f.types.Sound)
    (hdeclared : ∀ (place : Nat) (item : Syntax.Item) (d : Syntax.Declaration), items[place]? = some item →
      item.action = .declare d → d.type < f.types.graph.nodes.size) {n : Nat} {next r : Option Nat}
    (hc : Lawful f.types c.situation.memory) (h : runFrom f w items n next c = (.ok r, c')) :
    Lawful f.types c'.situation.memory := by
  induction n generalizing next c with
  | zero => cases next <;> cases h <;> exact hc
  | succ n ih =>
    cases next with
    | none =>
      cases h
      exact hc
    | some place =>
      rw [runFrom] at h
      rcases hitem : items[place]? with _ | item <;> rw [hitem] at h
      · cases h
        exact hc
      · obtain ⟨next', c₁, hstep, hrest⟩ := bind_ok h
        obtain ⟨s, hdone, hmemory⟩ := watched_ok hstep
        refine ih ?_ hrest
        rw [hmemory]
        exact hc.step hs (fun d hd => hdeclared place item d hitem hd) hdone

theorem runProgram_lawful {p : Syntax.Program} (hs : f.types.Sound)
    (hdeclared : ∀ d ∈ p.declarations, d.type < f.types.graph.nodes.size) {loaded : Bool} {n : Nat}
    {r : Option Nat} (hc : Lawful f.types c.situation.memory)
    (h : Run.runProgram f w p loaded n c = (.ok r, c')) : Lawful f.types c'.situation.memory := by
  rw [Timeline.runProgram_eq] at h
  obtain ⟨_, c₁, hshown, hrun⟩ := bind_ok h
  have hmemory : c₁.situation.memory = c.situation.memory := by
    cases loaded with
    | true => exact (congrArg (fun r => r.2.situation.memory) hshown).symm
    | false => exact (congrArg (fun r => r.2.situation.memory) hshown).symm
  rw [Timeline.runItems] at hrun
  split at hrun
  · cases hrun
  · refine runFrom_lawful hs (fun place item d hitem hd => hdeclared d ?_) (hmemory ▸ hc) hrun
    exact Run.mem_declarations (by simpa using hitem) hd

/-- What can be loaded: nothing, or what a program left that ended well, run on what could be loaded before,
whoever watched it. -/
inductive Left : Option Saved → Prop
  | nothing : Left none
  | run {saved : Option Saved} {setting : Reading.Setting} {text : String} {p : Syntax.Program}
      {types : Types} {σ : Type} {w : Watch σ} {seen : σ} {outcome : Run.Outcome σ} (h : Left saved)
      (hopens : Opens saved setting text p types)
      (hrun : Run.run ⟨types, setting.limits, true⟩ w p (saved.map (·.memory)) [] seen = outcome)
      (hfault : outcome.fault.isNone = true) : Left (some ⟨outcome.course.situation.memory, types⟩)

variable {saved : Option Saved}

theorem Left.fit (h : Left saved) : ∀ kept, saved = some kept → Fit kept.types (some kept.memory) := by
  induction h with
  | nothing =>
    intro kept hkept
    cases hkept
  | @run saved setting text p types σ w seen outcome _ hopens hrun hfault ih =>
    rintro kept ⟨⟩
    obtain ⟨hfit, hdeclared⟩ := hopens.fit ih
    subst hrun
    obtain ⟨next, hok⟩ := Timeline.ok_of_fault hfault
    refine ⟨hfit.sound, hfit.named, hfit.basic, fun hm => ?_⟩
    cases hm
    exact runProgram_lawful (f := ⟨types, setting.limits, true⟩) hfit.sound hdeclared hfit.start
      (Prod.ext hok rfl)

theorem Reached.left (h : Reached saved) : Left saved := by
  induction h with
  | nothing => exact .nothing
  | @run saved setting now types source d _ hrun ih =>
    rw [Done.save]
    split
    · obtain ⟨hopens, houtcome⟩ := runOne_ok hrun
      exact .run ih hopens houtcome.symm ‹_›
    · exact ih

end Left

section Checks

variable {saved : Option Saved} {text : String} {n : Nat}

/-- Whether a program that runs on nothing ends well, and what it saves passes a check. -/
def savesFrom (text : String) (check : Option Saved → Bool) : Bool :=
  passes (fun now => runOne {} false none now text) {} fun d _ =>
    d.outcome.fault.isNone && check (d.save none)

theorem of_savesFrom {check : Option Saved → Bool} (h : savesFrom text check = true) :
    ∃ kept, Reached (some kept) ∧ check (some kept) = true := by
  obtain ⟨d, _, hrun, h⟩ := of_passes h
  obtain ⟨hfault, hcheck⟩ := Bool.and_eq_true_iff.1 h
  have hreached : Reached (d.save none) := .run .nothing hrun
  rw [Done.save, if_pos hfault] at hreached hcheck
  exact ⟨_, hreached, hcheck⟩

/-- Whether a program is read on what was saved and runs for so many steps, and what is recorded passes a
check. -/
def recordsOn (saved : Option Saved) (text : String) (n : Nat)
    (check : Syntax.Program → Types → Timeline → Bool) : Bool :=
  passes (do
    load saved
    readProgram {} text) (fresh false saved {}) fun p types =>
      passes (Run.runProgram ⟨types, {}, true⟩ (Timeline.recorder types.graph p) p saved.isSome n)
        (.start (saved.map (·.memory)) [] #[]) fun _ c => check p types c.seen

theorem of_recordsOn {check : Syntax.Program → Types → Timeline → Bool}
    (h : recordsOn saved text n check = true) : ∃ p types, Opens saved {} text p types ∧
      check p types (Run.runProgram ⟨types, {}, true⟩ (Timeline.recorder types.graph p) p saved.isSome n
        (.start (saved.map (·.memory)) [] #[])).2.seen = true := by
  obtain ⟨p, types, hread, h⟩ := of_passes h
  obtain ⟨next, c, hrun, h⟩ := of_passes h
  refine ⟨p, types, ⟨{}, hread⟩, ?_⟩
  rw [hrun]
  exact h

end Checks

end Chalkboard.Session
