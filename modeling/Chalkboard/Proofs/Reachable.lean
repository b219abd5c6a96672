import Chalkboard.Proofs.Recording

/-! The memories that programs give rise to: whatever a program that was read leaves after so many steps, on
a new memory or on one that was saved before, also where its last step failed. Every name and every address
stands there once, and every cell is built as its type says. -/

namespace Chalkboard.Run

open Effects
open Syntax (Item Program)

/-- Names and addresses stand there once, and every variable and every block is built as its type says. -/
structure WellBuilt (g : Types.Graph) (m : Memory) : Prop where
  distinct : m.Distinct
  shaped : AllShaped g m

section WellBuilt

variable {f : Frame} {m : Memory}

theorem AllShaped.cellAt? {g : Types.Graph} (h : AllShaped g m) {here : Memory.Location} {c : Memory.Cell}
    (hc : m.cellAt? here = some c) : Memory.Shaped g c.type c := by
  obtain ⟨owner, howner, hat⟩ := Memory.owns_of_cellAt? hc
  have hall : g.Heritable fun _ => True := Types.Graph.heritable_of_links fun _ _ _ _ => trivial
  exact ((h owner howner).at hall trivial hat).1

theorem Lawful.wellBuilt {s : Types} (h : Lawful s m) : WellBuilt s.graph m :=
  ⟨h.distinct, fun c hc => (h.built c hc).1⟩

theorem WellBuilt.setNext {g : Types.Graph} (h : WellBuilt g m) (p : Memory.Partition) (n : Int) :
    WellBuilt g (m.setNext p n) :=
  ⟨distinct_setNext.2 h.distinct, Each.setNext h.shaped p n⟩

theorem WellBuilt.step (sound : f.types.graph.Sound) (place : Nat) (item : Item) {s : Situation}
    (h : WellBuilt f.types.graph s.memory) : WellBuilt f.types.graph (Run.step f place item s).2.memory := by
  rcases step_turn sound place item s with hturn | ⟨-, -, n, -, hvain⟩
  · exact ⟨hturn.distinct h.distinct, h.shaped.turn hturn⟩
  · rw [hvain]
    exact h.setNext .heap n

theorem runFrom_upholds {items : Array Item} {J : Memory → Prop}
    (hstep : ∀ place item s, items[place]? = some item → J s.memory → J (Run.step f place item s).2.memory)
    (n : Nat) (next : Option Nat) (c : Course Unit) (hc : J c.situation.memory) :
    J (runFrom f {} items n next c).2.situation.memory := by
  induction n generalizing next c with
  | zero => cases next <;> exact hc
  | succ n ih =>
    cases next with
    | none => exact hc
    | some place =>
      rw [runFrom]
      rcases hitem : items[place]? with _ | item
      · exact hc
      have hstep := hstep place item c.situation hitem hc
      dsimp only
      rw [bind_apply, watched_apply]
      revert hstep
      rcases step f place item c.situation with ⟨e | x, s⟩
      · exact id
      · intro hstep
        dsimp only
        cases Types.exceeds f.limits.steps (c.steps + 1 : Nat) with
        | true => exact hstep
        | false => exact ih x _ hstep

theorem runFrom_wellBuilt (sound : f.types.graph.Sound) (items : Array Item) (n : Nat) (next : Option Nat)
    (c : Course Unit) (hc : WellBuilt f.types.graph c.situation.memory) :
    WellBuilt f.types.graph (runFrom f {} items n next c).2.situation.memory :=
  runFrom_upholds (fun place item _ _ hs => hs.step sound place item) n next c hc

end WellBuilt

end Chalkboard.Run

namespace Chalkboard.Session

open Run (WellBuilt runProgram)

/-- The memory after so many steps of a program that is read on what was saved, if anything was. -/
inductive Arises (types : Types) : Memory → Prop
  | steps {saved : Option Saved} {setting : Reading.Setting} {text : String} {p : Syntax.Program}
      (hsaved : Reached saved) (hopens : Opens saved setting text p types) (limits : Types.Limits)
      (indexing : Bool) (looping : List Nat) (n : Nat) :
      Arises types (runProgram ⟨types, limits, indexing⟩ {} p (saved.map (·.memory)).isSome n
        (.start (saved.map (·.memory)) looping ())).2.situation.memory

section Arises

variable {types : Types} {m : Memory}

theorem Arises.sound (h : Arises types m) : types.Sound := by
  obtain ⟨hsaved, hopens⟩ := h
  exact (hopens.ready hsaved.ready).1.sound

theorem Arises.wellBuilt (h : Arises types m) : WellBuilt types.graph m := by
  obtain ⟨hsaved, hopens, limits, indexing, looping, n⟩ := h
  obtain ⟨hready, -⟩ := hopens.ready hsaved.ready
  rw [Timeline.runProgram_eq, Effects.bind_apply]
  have hshown (c : Run.Course Unit) (loaded : Bool) :
      ∃ c' : Run.Course Unit, (if loaded then Run.showAfter {} else pure () : Run.RunM Unit Unit) c =
        (.ok (), c') ∧ c'.situation.memory = c.situation.memory := by
    cases loaded <;> exact ⟨_, rfl, rfl⟩
  obtain ⟨c, hc, hmemory⟩ := hshown (.start _ looping ()) _
  rw [hc]
  dsimp only
  have hstart : WellBuilt types.graph c.situation.memory := hmemory ▸ hready.start.wellBuilt
  rw [Timeline.runItems]
  split
  · exact hstart
  · exact Run.runFrom_wellBuilt (f := ⟨types, limits, indexing⟩) hready.sound.graph _ n (some 0) c hstart

/-- Whether a program is read, on nothing, with types that pass a check. -/
def reads (text : String) (check : Syntax.Program → Types → Bool) : Bool :=
  Effects.passes (Reading.readProgram {} text) {} check

theorem of_reads {text : String} {check : Syntax.Program → Types → Bool} (h : reads text check = true) :
    ∃ p types, Opens none {} text p types ∧ check p types = true := by
  obtain ⟨p, types, hread, h⟩ := Effects.of_passes h
  exact ⟨p, types, ⟨{}, hread⟩, h⟩

/-- Whether a program is read, and leaves after so many steps a memory that passes a check. -/
def leadsTo (text : String) (n : Nat) (check : Types → Memory → Bool) : Bool :=
  reads text fun p types =>
    check types (runProgram ⟨types, {}, true⟩ {} p false n (.start none [] ())).2.situation.memory

theorem of_leadsTo {text : String} {n : Nat} {check : Types → Memory → Bool}
    (h : leadsTo text n check = true) : ∃ types m, Arises types m ∧ check types m = true := by
  obtain ⟨p, types, hopens, h⟩ := of_reads h
  exact ⟨types, _, .steps .nothing hopens {} true [] n, h⟩

end Arises

end Chalkboard.Session
