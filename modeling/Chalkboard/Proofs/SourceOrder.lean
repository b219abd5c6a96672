import Chalkboard.Proofs.ReadBlocks
import Chalkboard.Proofs.WrittenBlocks
import Chalkboard.Syntax.Lister

/-! The listing of a program goes along its text: every declaration and every sentence, inside blocks too,
stands in it once, and whatever is written earlier comes earlier. It is the flow of the program, and it is
brought back as long as the program is not nested deeper than calls may be. -/

namespace Chalkboard.Syntax

/-- The way to a sentence: to the part of the program with a number, to a part of that one, and so on. -/
abbrev Way := List Nat

/-- A way comes before those that go on from it, and before those that turn off later. -/
abbrev Way.Before : Way → Way → Prop := List.Lex (· < ·)

/-- Takes the first turn of a way, and leaves the rest of it to the part that it comes to. -/
def pick : List (Way → Option Action) → Way → Option Action
  | _, [] => none
  | parts, n :: way => parts[n]?.bind (· way)

/-- The sentences inside a sentence. The branch that is written first comes first. -/
def Sentence.inside : Sentence → List Sentence
  | .branch _ yes no => yes ++ no
  | .loop _ body => body
  | .count _ _ _ _ body => body
  | _ => []

def Sentence.at? : Sentence → Way → Option Action
  | s, [] => some (.perform s)
  | s, n :: way => s.inside[n]?.bind (·.at? way)

def Declaration.at? (d : Declaration) : Way → Option Action
  | [] => some (.declare d)
  | _ => none

/-- What a way leads to in a program, whose parts are its declarations and then its sentences. -/
def Program.at? (p : Program) : Way → Option Action :=
  pick (p.declarations.map Declaration.at? ++ p.sentences.map Sentence.at?)

/-- The entries of a listing are what all ways lead to, in the order of the ways. -/
def Lists (find : Way → Option Action) (actions : List Action) : Prop :=
  ∃ ways : List Way, actions.map some = ways.map find ∧
    (∀ way, (find way).isSome → way ∈ ways) ∧ ways.Pairwise Way.Before

section Lists

variable {find : Way → Option Action} {parts : List (Way → Option Action)} {actions actions' : List Action}

theorem Lists.ne_nil {ways : List Way} (h : actions.map some = ways.map (pick parts))
    {way : Way} (hway : way ∈ ways) : way ≠ [] := by
  rintro rfl
  obtain ⟨a, -, ha⟩ := List.mem_map.1 (h ▸ List.mem_map_of_mem hway)
  cases ha

theorem Lists.nil : Lists (pick []) [] := by
  refine ⟨[], rfl, fun way hway => ?_, .nil⟩
  cases way <;> cases hway

theorem Lists.root {a : Action} (h : Lists (pick parts) actions) (hself : find [] = some a)
    (hparts : ∀ n way, find (n :: way) = pick parts (n :: way)) : Lists find (a :: actions) := by
  obtain ⟨ways, hmap, hall, hsorted⟩ := h
  refine ⟨[] :: ways, ?_, fun way hway => ?_, .cons (fun way hway => ?_) hsorted⟩
  · rw [List.map_cons, List.map_cons, hmap, hself]
    refine congrArg _ (List.map_congr_left fun way hway => ?_)
    obtain ⟨n, way, rfl⟩ := List.exists_cons_of_ne_nil (Lists.ne_nil hmap hway)
    exact (hparts n way).symm
  · cases way with
    | nil => exact List.mem_cons_self
    | cons n way => exact List.mem_cons_of_mem _ (hall _ (hparts n way ▸ hway))
  · obtain ⟨n, way, rfl⟩ := List.exists_cons_of_ne_nil (Lists.ne_nil hmap hway)
    exact .nil

/-- The way to the same part when one more stands in front of it. -/
def Way.later : Way → Way
  | [] => []
  | n :: way => (n + 1) :: way

theorem Way.Before.later {way way' : Way} (h : way.Before way') : way.later.Before way'.later := by
  cases h with
  | nil => exact .nil
  | rel hlt => exact .rel (Nat.succ_lt_succ hlt)
  | cons hrest => exact .cons hrest

theorem Lists.cons (h : Lists find actions) (h' : Lists (pick parts) actions') :
    Lists (pick (find :: parts)) (actions ++ actions') := by
  obtain ⟨ways, hmap, hall, hsorted⟩ := h
  obtain ⟨ways', hmap', hall', hsorted'⟩ := h'
  refine ⟨ways.map (0 :: ·) ++ ways'.map Way.later, ?_, fun way hway => List.mem_append.2 ?_,
    List.pairwise_append.2 ⟨hsorted.map _ fun _ _ => .cons, hsorted'.map _ fun _ _ => Way.Before.later, ?_⟩⟩
  · rw [List.map_append, List.map_append, List.map_map, List.map_map, hmap, hmap']
    refine congrArg _ (List.map_congr_left fun way _ => ?_)
    cases way <;> rfl
  · obtain _ | ⟨_ | n, way⟩ := way
    · cases hway
    · exact .inl (List.mem_map_of_mem (hall way hway))
    · exact .inr (List.mem_map.2 ⟨n :: way, hall' _ hway, rfl⟩)
  · intro way hway way' hway'
    obtain ⟨way, -, rfl⟩ := List.mem_map.1 hway
    obtain ⟨way', hmem, rfl⟩ := List.mem_map.1 hway'
    obtain ⟨n, rest, rfl⟩ := List.exists_cons_of_ne_nil (Lists.ne_nil hmap' hmem)
    exact .rel (Nat.succ_pos n)

end Lists

section Actions

mutual

/-- What is done by a sentence and by those inside it. -/
def Sentence.actions : Sentence → List Action
  | .branch guard yes no => .perform (.branch guard yes no) :: (blockActions yes ++ blockActions no)
  | .loop guard body => .perform (.loop guard body) :: blockActions body
  | .count place first last up body => .perform (.count place first last up body) :: blockActions body
  | s => [.perform s]

def blockActions : List Sentence → List Action
  | [] => []
  | s :: rest => s.actions ++ blockActions rest

end

def Program.actions (p : Program) : List Action := p.declarations.map .declare ++ blockActions p.sentences

mutual

theorem items_actions (start : Nat) (next : Option Nat) :
    ∀ s : Sentence, (s.items start next).map (·.action) = s.actions
  | .skip _ => rfl
  | .assign .. => rfl
  | .call .. => rfl
  | .branch _ yes no => by
    rw [Sentence.items, List.map_cons, List.map_append, blockItems_actions, blockItems_actions]
    rfl
  | .loop _ body => by
    rw [Sentence.items, List.map_cons, blockItems_actions]
    rfl
  | .count _ _ _ _ body => by
    rw [Sentence.items, List.map_cons, blockItems_actions]
    rfl

theorem blockItems_actions (start : Nat) (next : Option Nat) :
    ∀ block : List Sentence, (blockItems start next block).map (·.action) = blockActions block
  | [] => rfl
  | s :: rest => by rw [blockItems, List.map_append, items_actions, blockItems_actions, blockActions]

end

end Actions

section Sentences

theorem Sentence.lists (s : Sentence) {actions : List Action}
    (h : Lists (pick (s.inside.map Sentence.at?)) actions) : Lists s.at? (.perform s :: actions) := by
  refine h.root (by rw [Sentence.at?]) fun n way => ?_
  rw [Sentence.at?, pick, List.getElem?_map, Option.bind_map]
  rfl

mutual

theorem sentence_lists : ∀ s : Sentence, Lists s.at? s.actions
  | .skip line => Sentence.lists (.skip line) .nil
  | .assign place value => Sentence.lists (.assign place value) .nil
  | .call builtin line place => Sentence.lists (.call builtin line place) .nil
  | .branch guard yes no => by
    have h := block_lists yes (block_lists no .nil)
    rw [List.append_nil, List.append_nil, ← List.map_append] at h
    exact Sentence.lists (.branch guard yes no) h
  | .loop guard body => by
    have h := block_lists body .nil
    rw [List.append_nil, List.append_nil] at h
    exact Sentence.lists (.loop guard body) h
  | .count place first last up body => by
    have h := block_lists body .nil
    rw [List.append_nil, List.append_nil] at h
    exact Sentence.lists (.count place first last up body) h

theorem block_lists : ∀ (block : List Sentence) {rest : List (Way → Option Action)} {actions : List Action},
    Lists (pick rest) actions →
      Lists (pick (block.map Sentence.at? ++ rest)) (blockActions block ++ actions)
  | [], _, _, h => h
  | s :: block, _, _, h => by
    rw [blockActions, List.append_assoc]
    exact (sentence_lists s).cons (block_lists block h)

end

end Sentences

section Visits

mutual

/-- How many calls inside each other it takes to visit a sentence. -/
def Sentence.levels : Sentence → Nat
  | .branch _ yes no => max (blockLevels yes) (blockLevels no) + 1
  | .loop _ body => blockLevels body + 1
  | .count _ _ _ _ body => blockLevels body + 1
  | _ => 1

def blockLevels : List Sentence → Nat
  | [] => 0
  | s :: rest => max s.levels (blockLevels rest)

end

mutual

theorem levels_unlined : ∀ s : Sentence, s.unlined.levels = s.levels
  | .skip _ => rfl
  | .assign .. => rfl
  | .call .. => rfl
  | .branch _ yes no => by
    rw [Sentence.unlined, Sentence.levels, Sentence.levels, blockLevels_unlined, blockLevels_unlined]
  | .loop _ body => by rw [Sentence.unlined, Sentence.levels, Sentence.levels, blockLevels_unlined]
  | .count _ _ _ _ body => by rw [Sentence.unlined, Sentence.levels, Sentence.levels, blockLevels_unlined]

theorem blockLevels_unlined : ∀ block : List Sentence, blockLevels (unlinedBlock block) = blockLevels block
  | [] => rfl
  | s :: rest => by rw [unlinedBlock, blockLevels, blockLevels, levels_unlined, blockLevels_unlined]

end

namespace Stop

def levels : Stop → Nat
  | body ds sentences => max (if ds.isEmpty then 0 else 1) (blockLevels sentences) + 1
  | action (.declare _) => 1
  | action (.perform s) => s.levels

end Stop

def Program.levels (p : Program) : Nat := Stop.levels (.body p.declarations p.sentences)

end Visits

section Lines

mutual

theorem actions_lines : ∀ s : Sentence, s.actions.map (·.line) = s.lines
  | .skip _ => rfl
  | .assign .. => rfl
  | .call .. => rfl
  | .branch _ yes no => by
    rw [Sentence.actions, List.map_cons, List.map_append, blockActions_lines, blockActions_lines]
    rfl
  | .loop _ body => by
    rw [Sentence.actions, List.map_cons, blockActions_lines]
    rfl
  | .count _ _ _ _ body => by
    rw [Sentence.actions, List.map_cons, blockActions_lines]
    rfl

theorem blockActions_lines : ∀ block : List Sentence, (blockActions block).map (·.line) = blockLines block
  | [] => rfl
  | s :: rest => by rw [blockActions, List.map_append, actions_lines, blockActions_lines, blockLines]

end

end Lines

end Chalkboard.Syntax

namespace Chalkboard.Reading

open Effects

section Lines

variable {c c' : Cursor} {lines : List Nat}

theorem line_le_past (s : Source) (cs : List Char) : s.line ≤ (s.past cs).line := by
  induction cs generalizing s with
  | nil => exact Nat.le_refl _
  | cons c cs ih =>
    refine Nat.le_trans ?_ (ih _)
    dsimp only
    split <;> omega

/-- The text behind the token that is looked at is not on an earlier line, unless none is left. -/
theorem Came.behind (h : Came c) : c.look.line ≤ c.source.line ∨ c.source.rest = [] := by
  obtain ⟨s, spot, before, h⟩ := h
  unfold Source.next at h
  dsimp only at h
  split at h
  · split at h <;> cases h
    exact .inr ‹_›
  · split at h <;> cases h
    exact .inl (line_le_past _ _)

theorem Came.step (hc : Came c) (h : Steps c c') : c.look.line ≤ c'.look.line := by
  obtain ⟨spot, h⟩ := h.next
  unfold Source.next at h
  dsimp only at h
  split at h
  · split at h <;> cases h
    exact Nat.le_refl _
  · rename_i hleft
    split at h <;> cases h
    refine Nat.le_trans (hc.behind.resolve_right fun hnil => hleft ?_) (line_le_past _ _)
    rw [hnil, skipped, Source.past, hnil]

end Lines

/-- A sentence inside so many loops. -/
def loops : Nat → List Syntax.Sentence
  | 0 => [.skip 1]
  | n + 1 => [.loop (.literal .boolean ⟨"true", 1⟩) (loops n)]

end Chalkboard.Reading
