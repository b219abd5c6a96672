import Chalkboard.Proofs.Lockstep

/-! Sentences that stand elsewhere. A block that is written at another place of a flow has the same entries
with their links renumbered, and where it came to its end it now goes on to what follows. So a run through
the block is a run through the moved block: it takes as many steps, and from memories that stand beside each
other it leads to memories that do. -/

namespace Chalkboard.Run

open Effects
open Syntax (Sentence Declaration Action Item Program blockItems blockStart declarationItems extents)
open Chalkboard.Types (TypeId)
open Memory (MemoryM Cell)

/-- An entry with its links renumbered; where it led to the end, it leads to an exit. -/
def moved (ρ : Nat → Nat) (exit : Option Nat) (item : Item) : Item :=
  ⟨item.action, rerouted ρ exit item.next, item.inner.map ρ, item.other.map ρ⟩

/-- An entry of a sentence whose links are of a kind. A loop has a body to go into. -/
structure LinksTo (P : Option Nat → Prop) (item : Item) : Prop where
  sentence : ∃ s, item.action = .perform s
  next : P item.next
  inner : P item.inner
  other : P item.other
  filled : item.action.isLoop = true → ∃ q, item.inner = some q

/-- A link to a place of a stretch, or to the end. -/
def Between (low high : Nat) (link : Option Nat) : Prop := ∀ q, link = some q → low ≤ q ∧ q < high

section Block

theorem blockStart_moved (start k : Nat) (block : List Sentence) :
    blockStart (start + k) block = (blockStart start block).map (· + k) := by
  cases block <;> rfl

mutual

theorem items_moved (k : Nat) (exit : Option Nat) (start : Nat) (next : Option Nat) :
    ∀ s : Sentence, s.items (start + k) (rerouted (· + k) exit next) =
      (s.items start next).map (moved (· + k) exit)
  | .skip _ | .assign .. | .call .. => rfl
  | .branch guard yes no => by
    have hno : start + k + 1 + extents yes = start + 1 + extents yes + k := by omega
    rw [Sentence.items, Sentence.items, hno, Nat.add_right_comm start k 1, blockStart_moved (start + 1),
      blockStart_moved (start + 1 + extents yes), blockItems_moved, blockItems_moved, List.map_cons,
      List.map_append]
    rfl
  | .loop _ body | .count _ _ _ _ body => by
    have hbody := blockItems_moved k exit (start + 1) (some start) body
    rw [rerouted] at hbody
    rw [Sentence.items, Sentence.items, Nat.add_right_comm start k 1, blockStart_moved (start + 1), hbody,
      List.map_cons]
    rfl

theorem blockItems_moved (k : Nat) (exit : Option Nat) (start : Nat) (next : Option Nat) :
    ∀ block : List Sentence, blockItems (start + k) (rerouted (· + k) exit next) block =
      (blockItems start next block).map (moved (· + k) exit)
  | [] => rfl
  | s :: rest => by
    have hafter : (if rest.isEmpty then rerouted (· + k) exit next else some (start + k + s.extent)) =
        rerouted (· + k) exit (if rest.isEmpty then next else some (start + s.extent)) := by
      split
      · rfl
      · rw [Nat.add_right_comm, rerouted]
    rw [blockItems, blockItems, hafter, items_moved, Nat.add_right_comm, blockItems_moved, List.map_append]

end

theorem blockItems_append (next : Option Nat) (b : List Sentence) (a : List Sentence) (start : Nat) :
    blockItems start next (a ++ b) =
      blockItems start (if b.isEmpty then next else some (start + extents a)) a ++
        blockItems (start + extents a) next b := by
  induction a generalizing start with
  | nil => rfl
  | cons s rest ih =>
    have hafter : (if (rest ++ b).isEmpty then next else some (start + s.extent)) =
        if rest.isEmpty then (if b.isEmpty then next else some (start + extents (s :: rest)))
          else some (start + s.extent) := by
      cases rest with
      | nil => rw [List.nil_append, extents, extents, Nat.add_zero, List.isEmpty_nil, if_pos rfl]
      | cons => rfl
    rw [List.cons_append, blockItems, hafter, blockItems, ih, extents, Nat.add_assoc, List.append_assoc]

theorem extent_pos (s : Sentence) : 0 < s.extent := by
  cases s <;> simp only [Sentence.extent] <;> omega

theorem blockStart_links {P : Option Nat → Prop} {start : Nat} {block : List Sentence} (hnone : P none)
    (h : ∀ q, start ≤ q → q < start + extents block → P (some q)) : P (blockStart start block) := by
  cases block with
  | nil => exact hnone
  | cons s rest =>
    have hpos := extent_pos s
    exact h start (Nat.le_refl _) (by rw [extents]; omega)

mutual

variable {P : Option Nat → Prop}

theorem items_links (hnone : P none) {start : Nat} {next : Option Nat}
    (hnext : P next) : ∀ s : Sentence, Filled s → (∀ q, start ≤ q → q < start + s.extent → P (some q)) →
      ∀ item ∈ s.items start next, LinksTo P item
  | .skip _, _, _, _, hitem | .assign .., _, _, _, hitem | .call .., _, _, _, hitem => by
    rw [List.mem_singleton.1 hitem]
    exact ⟨⟨_, rfl⟩, hnext, hnone, hnone, nofun⟩
  | .branch guard yes no, hf, h, item, hitem => by
    rw [Sentence.extent] at h
    have hyes (q : Nat) (hlow : start + 1 ≤ q) (hhigh : q < start + 1 + extents yes) : P (some q) :=
      h q (by omega) (by omega)
    have hno (q : Nat) (hlow : start + 1 + extents yes ≤ q)
        (hhigh : q < start + 1 + extents yes + extents no) : P (some q) := h q (by omega) (by omega)
    rw [Sentence.items] at hitem
    rcases List.mem_cons.1 hitem with rfl | hitem
    · exact ⟨⟨_, rfl⟩, hnext, blockStart_links hnone hyes, blockStart_links hnone hno, nofun⟩
    · rcases List.mem_append.1 hitem with hitem | hitem
      · exact blockItems_links hnone hnext yes hf.1 hyes item hitem
      · exact blockItems_links hnone hnext no hf.2 hno item hitem
  | .loop _ body, hf, h, item, hitem | .count _ _ _ _ body, hf, h, item, hitem => by
    rw [Sentence.extent] at h
    have hbody (q : Nat) (hlow : start + 1 ≤ q) (hhigh : q < start + 1 + extents body) : P (some q) :=
      h q (by omega) (by omega)
    rw [Sentence.items] at hitem
    rcases List.mem_cons.1 hitem with rfl | hitem
    · exact ⟨⟨_, rfl⟩, hnext, blockStart_links hnone hbody, hnone, fun _ =>
        ⟨start + 1, Syntax.blockStart_eq_some hf.1⟩⟩
    · exact blockItems_links hnone (h start (Nat.le_refl _) (by omega)) body hf.2 hbody item hitem

theorem blockItems_links (hnone : P none) {start : Nat} {next : Option Nat}
    (hnext : P next) : ∀ block : List Sentence, FilledAll block →
      (∀ q, start ≤ q → q < start + extents block → P (some q)) →
      ∀ item ∈ blockItems start next block, LinksTo P item
  | [], _, _, _, hitem => absurd hitem List.not_mem_nil
  | s :: rest, hf, h, item, hitem => by
    have hpos := extent_pos s
    rw [extents] at h
    rw [blockItems] at hitem
    have hrest (q : Nat) (hlow : start + s.extent ≤ q) (hhigh : q < start + s.extent + extents rest) :
        P (some q) := h q (by omega) (by omega)
    rcases List.mem_append.1 hitem with hitem | hitem
    · refine items_links hnone ?_ s hf.1 (fun q hlow hhigh => h q hlow (by omega)) item hitem
      split
      · exact hnext
      · rename_i hmore
        cases rest with
        | nil => exact absurd rfl hmore
        | cons => exact hrest _ (Nat.le_refl _) (by rw [extents]; have := extent_pos ‹_›; omega)
    · exact blockItems_links hnone hnext rest hf.2 hrest item hitem

end

end Block

section Step

variable {f : Frame} {place : Nat} {item : Item} {s s' : Situation} {next : Option Nat}

theorem step_link {P : Option Nat → Prop} (hlinks : LinksTo P item)
    (h : step f place item s = (.ok next, s')) : P next := by
  rcases step_next h with rfl | ⟨rfl, -⟩ | ⟨rfl, -⟩
  · exact hlinks.next
  · exact hlinks.inner
  · exact hlinks.other

end Step

/-- So many steps lead from one place to another. -/
inductive Goes (f : Frame) (items : Array Item) :
    Nat → Option Nat → Situation → Option Nat → Situation → Prop
  | stay (next : Option Nat) (s : Situation) : Goes f items 0 next s next s
  | step {n place : Nat} {item : Item} {next last : Option Nat} {s s₁ s' : Situation}
      (hitem : items[place]? = some item) (hstep : Run.step f place item s = (.ok next, s₁))
      (hrest : Goes f items n next { s₁ with noted := [] } last s') :
      Goes f items (n + 1) (some place) s last s'

section Goes

variable {f : Frame} {items : Array Item} {k n : Nat} {next last far : Option Nat}
  {s s₁ s' : Situation}

theorem Goes.trans (h : Goes f items n next s last s₁) (h' : Goes f items k last s₁ far s') :
    Goes f items (n + k) next s far s' := by
  induction h with
  | stay => rwa [Nat.zero_add]
  | step hitem hstep _ ih =>
    rw [Nat.add_right_comm]
    exact .step hitem hstep (ih h')

theorem Goes.keeps {J : Memory → Prop}
    (hstep : ∀ place item s next s', items[place]? = some item → J s.memory →
      Run.step f place item s = (.ok next, s') → J s'.memory)
    (h : Goes f items n next s last s') (hs : J s.memory) : J s'.memory := by
  induction h with
  | stay => exact hs
  | step hitem hdone _ ih => exact ih (hstep _ _ _ _ _ hitem hs hdone :)

theorem runFrom_step {place : Nat} {item : Item} {c : Course Unit} (hitem : items[place]? = some item)
    (hstep : step f place item c.situation = (.ok next, s'))
    (hlimit : Types.exceeds f.limits.steps (c.steps + 1 : Nat) = false) :
    runFrom f {} items (n + 1) (some place) c = runFrom f {} items n next (c.onward place s') := by
  rw [runFrom, hitem]
  dsimp only
  rw [bind_apply, watched_apply, hstep]
  dsimp only
  rw [hlimit]
  rfl

theorem Goes.runFrom_ok (h : Goes f items n next s last s') {c : Course Unit} (hc : c.situation = s)
    (hsteps : Types.exceeds f.limits.steps (c.steps + n : Nat) = false) :
    ∃ c', runFrom f {} items n next c = (.ok last, c') ∧ c'.situation = s' ∧ c'.steps = c.steps + n := by
  induction h generalizing c with
  | stay next s => exact ⟨c, by cases next <;> rfl, hc, rfl⟩
  | @step n place item next _ s s₁ s' hitem hdone _ ih =>
    subst hc
    rw [Nat.add_comm n 1, ← Nat.add_assoc] at hsteps
    have hlimit : Types.exceeds f.limits.steps (c.steps + 1 : Nat) = false :=
      Types.exceeds_eq_false.2 ((Types.exceeds_eq_false.1 hsteps).of_le (by omega))
    obtain ⟨c', hrun, hs', hcount⟩ := ih (c := c.onward place s₁) rfl hsteps
    refine ⟨c', (runFrom_step hitem hdone hlimit).trans hrun, hs', ?_⟩
    rw [hcount, Course.onward, Nat.add_assoc, Nat.add_comm 1 n]

end Goes

/-- The places of a stretch hold sentences that lead to each other or to the end. -/
def Enclosed (items : Array Item) (low high : Nat) : Prop :=
  ∀ q, low ≤ q → q < high → ∃ item, items[q]? = some item ∧ LinksTo (Between low high) item

/-- The same sentences stand elsewhere, with another end. -/
structure Moves (items items' : Array Item) (low high : Nat) (ρ : Nat → Nat) (exit : Option Nat) : Prop where
  injective : Function.Injective ρ
  enclosed : Enclosed items low high
  entry {q : Nat} {item : Item} (hlow : low ≤ q) (hhigh : q < high) (hitem : items[q]? = some item) :
    items'[ρ q]? = some (moved ρ exit item)

section Moves

variable {f f' : Frame} {items items' : Array Item} {low high n : Nat} {next r : Option Nat}
  {c c' : Course Unit} {ρ : Nat → Nat} {exit : Option Nat}

theorem Enclosed.keeps {J : Memory → Prop} (henclosed : Enclosed items low high)
    (hstep : ∀ place item sentence s next s', item.action = .perform sentence → J s.memory →
      step f place item s = (.ok next, s') → J s'.memory)
    (hnext : Between low high next) (hc : J c.situation.memory)
    (h : runFrom f {} items n next c = (.ok r, c')) : J c'.situation.memory := by
  induction n generalizing next c with
  | zero => cases next <;> cases h <;> exact hc
  | succ n ih =>
    cases next with
    | none =>
      cases h
      exact hc
    | some place =>
      rcases runFrom_ok h with ⟨-, -, rfl⟩ | ⟨item, next, s, hitem, hs, -, hrest⟩
      · exact hc
      · obtain ⟨hlow, hhigh⟩ := hnext place rfl
        obtain ⟨item', hitem', hlinks⟩ := henclosed place hlow hhigh
        cases hitem.symm.trans hitem'
        obtain ⟨sentence, haction⟩ := hlinks.sentence
        exact ih (step_link hlinks hs) (hstep place item sentence _ next s haction hc hs) hrest

theorem LinksTo.rerouted {item : Item} {P : Option Nat → Prop} (h : LinksTo P item) :
    Rerouted ρ exit item (moved ρ exit item) where
  next := rfl
  inner := rfl
  other := rfl
  enters hloop := by
    obtain ⟨q, hq⟩ := h.filled hloop
    rw [moved, hq]
    rfl

variable {extra : List (String × Cell)} {shift : Int}

theorem Moves.goes (hmoves : Moves items items' low high ρ exit) (h : Parallel f f')
    (hnext : Between low high next) {s : Situation}
    (hs : Near f extra shift ρ c.situation s)
    (hrun : runFrom f {} items n next c = (.ok none, c')) :
    ∃ k s', c'.steps = c.steps + k ∧ Goes f' items' k (rerouted ρ exit next) s exit s' ∧
      Near f extra shift ρ c'.situation s' := by
  induction n generalizing next c s with
  | zero =>
    cases next <;> cases hrun
    exact ⟨0, s, rfl, .stay exit s, hs⟩
  | succ n ih =>
    cases next with
    | none =>
      cases hrun
      exact ⟨0, s, rfl, .stay exit s, hs⟩
    | some place =>
      obtain ⟨hlow, hhigh⟩ := hnext place rfl
      obtain ⟨item, hitem, hlinks⟩ := hmoves.enclosed place hlow hhigh
      rcases runFrom_ok hrun with ⟨hnone, -⟩ | ⟨item', next, s₁, hitem', hstep, -, hrest⟩
      · rw [hitem] at hnone
        cases hnone
      cases hitem.symm.trans hitem'
      obtain ⟨sentence, haction⟩ := hlinks.sentence
      have hnear := step_link hlinks hstep
      have hreroutes : Rerouted ρ exit item (moved ρ exit item) := hlinks.rerouted
      have hperform := perform_tracks h hmoves.injective place hreroutes haction _ _ hs
      rw [step, haction] at hstep
      dsimp only at hstep
      rw [hstep] at hperform
      rcases hstep' : perform f' (ρ place) (moved ρ exit item) sentence s with ⟨e | next', s₁'⟩
      · rw [hstep'] at hperform
        exact hperform.elim
      rw [hstep'] at hperform
      obtain ⟨rfl, hs₁⟩ := hperform
      obtain ⟨k, s', hsteps, hgoes, hs'⟩ := ih (c := c.onward place s₁) (s := { s₁' with noted := [] })
        hnear ⟨hs₁.memory, hs₁.looping⟩ hrest
      refine ⟨k + 1, s', ?_, ?_, hs'⟩
      · rw [hsteps, Course.onward, Nat.add_assoc, Nat.add_comm 1 k]
      · refine .step (hmoves.entry hlow hhigh hitem) ?_ hgoes
        rw [step, moved, haction]
        exact hstep'

end Moves

end Chalkboard.Run
