import Chalkboard.Proofs.Ledger
import Chalkboard.Proofs.ReadTypes

/-! What the leaves of a memory hold along a run: nothing yet, or a value that belongs to the type of the
leaf. An address among them is one at which a block was stored, so it lies on the heap and never inside a
block. -/

namespace Chalkboard.Types

/-- The values that belong in a leaf of a type. -/
inductive Fits (g : Graph) : TypeId → Value → Prop
  | whole {t : TypeId} (i : Int) (ht : g.node t = .int) : Fits g t (.int i)
  | boundless {t : TypeId} {x : Float} (ht : g.node t = .int) (hx : (x == Number.infinity) = true) :
      Fits g t (.real x)
  | real {t : TypeId} (x : Float) (ht : g.node t = .real) : Fits g t (.real x)
  | bool {t : TypeId} (b : Bool) (ht : g.node t = .bool) : Fits g t (.bool b)
  | char {t : TypeId} {s : String} (ht : g.node t = .char) (hs : s.length = 1) : Fits g t (.text s)
  | null {t : TypeId} {target : Target} (ht : g.node t = .pointer target) : Fits g t .null
  | address {t : TypeId} {target : Target} (a : Memory.Address) (ht : g.node t = .pointer target) :
      Fits g t (.address a)
  | word {t : TypeId} {name : Option String} {constants : List (String × Nat)} {s : String}
      (ht : g.node t = .enum name constants) (hs : s ∈ constants.map (·.1)) : Fits g t (.text s)
  | constant {t : TypeId} {name : Option String} {constants : List (String × Nat)} {c : Constant}
      (ht : g.node t = .enum name constants) (howner : c.owner = t)
      (hc : c.name ∈ constants.map (·.1)) : Fits g t (.constant c)
  | element {t part : TypeId} {axes : List Axis} {v : Value} (ht : g.node t = .array part axes)
      (hv : Fits g part v) : Fits g t v
  | synonym {t part : TypeId} {name : Option String} {v : Value} (ht : g.node t = .synonym name part)
      (hv : Fits g part v) : Fits g t v

section Fits

variable {g : Graph} {t u : TypeId} {v : Value}

theorem mem_names_of_any {constants : List (String × Nat)} {s : String}
    (h : constants.any (·.1 == s) = true) : s ∈ constants.map (·.1) := by
  obtain ⟨entry, hmem, hname⟩ := List.any_eq_true.1 h
  exact List.mem_map.2 ⟨entry, hmem, eq_of_beq hname⟩

theorem fits_of_admitsFrom (fuel : Nat) (h : g.admitsFrom v fuel t = .ok true) : Fits g t v := by
  induction fuel generalizing t with
  | zero => cases h
  | succ fuel ih =>
    unfold Graph.admitsFrom at h
    split at h
    · rename_i ht
      split at h
      · exact .whole _ ht
      · exact .boundless ht (Except.ok.inj h)
      · cases h
    · rename_i ht
      split at h
      · exact .real _ ht
      · cases h
    · rename_i ht
      split at h
      · exact .bool _ ht
      · cases h
    · rename_i ht
      split at h
      · exact .char ht (eq_of_beq (Except.ok.inj h))
      · cases h
    · rename_i ht
      split at h
      · exact .null ht
      · exact .address _ ht
      · cases h
    · rename_i ht
      split at h
      · exact .word ht (mem_names_of_any (Except.ok.inj h))
      · obtain ⟨howner, hname⟩ := Bool.and_eq_true_iff.1 (Except.ok.inj h)
        exact .constant ht (eq_of_beq howner) (mem_names_of_any hname)
      · cases h
    · rename_i ht
      exact .element ht (ih h)
    · rename_i ht
      exact .synonym ht (ih h)
    · cases h

theorem fits_of_closureFrom (fuel : Nat) (h : g.closureFrom fuel t = .ok u) (hv : Fits g u v) :
    Fits g t v := by
  induction fuel generalizing t with
  | zero => cases h
  | succ fuel ih =>
    rw [Graph.closureFrom] at h
    split at h
    · rename_i ht
      exact .synonym ht (ih h)
    · cases h
      exact hv

theorem fits_of_closure (h : g.closure t = .ok u) (hv : Fits g u v) : Fits g t v := by
  rw [Graph.closure] at h
  split at h
  · rename_i ht
    exact .synonym ht (fits_of_closureFrom _ h hv)
  · cases h
    exact hv

end Fits

end Chalkboard.Types

namespace Chalkboard.Run

open Effects
open Reading (readProgram)
open Chalkboard.Types (Fits)
open Memory (Address Cell Location)

/-- Every leaf holds nothing yet or what fits its type. -/
def WellTyped (g : Types.Graph) (m : Memory) : Prop :=
  ∀ a t v, m.HasLeaf a t v → v = .unknown ∨ Fits g t v

section Turns

variable {g : Types.Graph} {m : Memory}

theorem wellTyped_start : WellTyped g {} := by
  rintro a t v ⟨c, path, ⟨name, hmem⟩ | ⟨key, hmem⟩, -⟩ <;> cases hmem

theorem WellTyped.setNext (h : WellTyped g m) (p : Memory.Partition) (n : Int) :
    WellTyped g (m.setNext p n) := fun a t v hleaf => h a t v (hasLeaf_setNext.1 hleaf)

theorem WellTyped.write (h : WellTyped g m) (hm : m.Distinct) {here : Location} {v : Value}
    (hv : ∀ a t old, m.cellAt? here = some (.leaf a t old) → v = .unknown ∨ Fits g t v) :
    WellTyped g (m.write here v) := by
  intro a t w hleaf
  rcases hleaf.of_write hm with hold | ⟨rfl, old, hat⟩
  · exact h a t w hold
  · exact hv a t old hat

variable {c : Cell} {p : Memory.Partition} {start : Int}

theorem WellTyped.enter (h : WellTyped g m) (b : Address)
    (hlaid : Memory.Laid g p start c) : WellTyped g { m with heap := Memory.enter b c m.heap } := by
  intro a t v hleaf
  rcases hleaf.of_enter with hold | ⟨path, hat⟩
  · exact h a t v hold
  · exact .inl (hlaid.blank hat)

theorem WellTyped.push (h : WellTyped g m) (name : String) (hlaid : Memory.Laid g p start c) :
    WellTyped g { m with stack := m.stack ++ [(name, c)] } := by
  intro a t v hleaf
  rcases hleaf.of_push with hold | ⟨path, hat⟩
  · exact h a t v hold
  · exact .inl (hlaid.blank hat)

theorem WellTyped.erase (h : WellTyped g m) (b : Address) : WellTyped g (m.erase b) :=
  fun a t v hleaf => h a t v hleaf.of_erase

theorem WellTyped.turn {f : Frame} {m m' : Memory} {events : History} (h : WellTyped f.types.graph m)
    (hm : m.Distinct) (hturn : Turn f m events m') : WellTyped f.types.graph m' := by
  cases hturn with
  | still => exact h
  | moved n => exact h.setNext .stack n
  | declared hnew hlaid hn =>
    rename_i name c n
    exact (h.setNext .stack n).push name hlaid
  | wrote hat hfits hheld =>
    refine h.write hm fun a t old hleaf => .inr ?_
    cases hat.symm.trans hleaf
    exact Types.fits_of_admitsFrom _ hfits
  | stored hat hclosure hnode hlaid haddress hm' =>
    subst hm'
    refine ((h.setNext .heap _).write (distinct_setNext.2 hm) fun a t old hleaf => .inr ?_).enter _ hlaid
    rw [cellAt?_setNext] at hleaf
    cases hat.symm.trans hleaf
    exact Types.fits_of_closure hclosure (.address _ hnode)
  | removed hat hpointer hblock =>
    exact (h.erase _).write (hm.erase _) fun _ _ _ _ => .inl rfl

end Turns

/-- A program that was read, after any number of steps on a new memory, also when the last one failed:
every leaf holds nothing yet or a value that fits its type, and every address that is held is one of the
heap at which a block was stored in this run, and not one inside a block. -/
theorem leaves_stay_typed {setting : Reading.Setting} {text : String} {p : Syntax.Program}
    {types : Types} (hread : (readProgram setting text).run {} = (.ok p, types))
    (limits : Types.Limits) (indexing : Bool) (n : Nat) :
    let c := (chronicle ⟨types, limits, indexing⟩ p n).2
    (∀ b t v, c.situation.memory.HasLeaf b t v → v = .unknown ∨ Fits types.graph t v) ∧
      ∀ b t a, c.situation.memory.HasLeaf b t (.address a) →
        a.partition = .heap ∧ a ∈ c.seen.addresses ∧
          ∀ base room, (base, room) ∈ c.seen.blocks →
            ¬(base.number < a.number ∧ a.number < base.number + room) := by
  intro c
  obtain ⟨hkept, htyped⟩ : Kept c.situation.memory c.seen ∧ WellTyped types.graph c.situation.memory :=
    chronicle_kept (K := fun m _ => WellTyped types.graph m) (Reading.readProgram_sound hread).graph
      wellTyped_start (fun m h events m' hkept htyped hturn => htyped.turn hkept.distinct hturn)
      (fun m h n htyped => htyped.setNext .heap n) p n
  refine ⟨htyped, fun b t a hleaf => ?_⟩
  obtain ⟨⟨_, room⟩, hblock, rfl⟩ := List.mem_map.1 (hkept.held hleaf)
  exact ⟨hkept.stacked.heap hblock, hkept.held hleaf, fun base room hbase =>
    hkept.stacked.not_inside hkept.rooms hblock hbase⟩

/-- Two cells of a chain, the first of which is freed while the second still points to it. -/
def chainedCells : String :=
  "type cell = tuple\n value: int\n next: pointer of cell\nend tuple\n" ++
  "var p: pointer of cell\nvar q: pointer of cell\n" ++
  "alloc(p)\np->value := 7\nalloc(q)\nq->next := p\nfree(p)\n"

theorem chainedCells_end :
    passes (readProgram {} chainedCells) {} (fun p types =>
      let c := (chronicle ⟨types, {}, true⟩ p 7).2
      c.seen == [.stored ⟨.heap, 0⟩ 2, .stored ⟨.heap, 2⟩ 2, .removed ⟨.heap, 0⟩] &&
        match c.situation.memory.cellAt? ⟨.heap ⟨.heap, 2⟩, [1]⟩ with
        | some (.leaf _ _ (.address a)) => a == ⟨.heap, 0⟩
        | _ => false) = true := by
  decide +kernel

theorem chainedCells_stay_typed :
    ∃ p types, (readProgram {} chainedCells).run {} = (.ok p, types) ∧
      let c := (chronicle ⟨types, {}, true⟩ p 7).2
      c.seen = [.stored ⟨.heap, 0⟩ 2, .stored ⟨.heap, 2⟩ 2, .removed ⟨.heap, 0⟩] ∧
        ∃ b t, c.situation.memory.HasLeaf b t (.address ⟨.heap, 0⟩) ∧
          Fits types.graph t (.address ⟨.heap, 0⟩) ∧ ⟨.heap, 0⟩ ∈ c.seen.addresses := by
  obtain ⟨p, types, hread, hcheck⟩ := of_passes chainedCells_end
  obtain ⟨hseen, hcell⟩ := Bool.and_eq_true_iff.1 hcheck
  refine ⟨p, types, hread, eq_of_beq hseen, ?_⟩
  split at hcell
  · rename_i b t a hat
    obtain rfl := eq_of_beq hcell
    have hleaf := Memory.hasLeaf_of_cellAt? hat
    obtain ⟨htyped, hheld⟩ := leaves_stay_typed hread {} true 7
    rcases htyped b t _ hleaf with hnone | hfits
    · cases hnone
    · exact ⟨b, t, hleaf, hfits, (hheld b t _ hleaf).2.1⟩
  · cases hcell

end Chalkboard.Run
