import Chalkboard.Proofs.Effects
import Chalkboard.Reading.Program
import Chalkboard.Timeline.Checkpoint
import Mathlib.Data.List.Induction
import Mathlib.Data.List.TakeWhile

/-! Which items checkpoints mark. A line asks for a checkpoint by a comment that starts with the word, and the
last item of the line gets the mark. Where a line that asks has no item, detection ends with exit code 1; where
its last item is a declaration, which takes no mark, it stops there with a fault. -/

namespace Chalkboard.Timeline

open Effects
open Syntax (Action Item Program)

/-- A comment mark, blanks and the word, which ends there. -/
def Asks (text : List Char) : Prop :=
  ∃ before blanks rest, text = before ++ '/' :: '/' :: (blanks ++ (checkpointWord ++ rest)) ∧
    (∀ c ∈ blanks, Text.isBlank c = true) ∧ ∀ c ∈ rest.head?, Text.isWordChar c = false

/-- The lines of a text are counted from one. -/
def Asked (source : String) (line : Nat) : Prop :=
  1 ≤ line ∧ ∃ text, (Text.fileLines source)[line - 1]? = some text ∧ Asks text.toList

/-- The item at a place, and no later one is on its line. -/
def Last (items : List Item) (place : Nat) (item : Item) : Prop :=
  items[place]? = some item ∧ ∀ later ∈ items.drop (place + 1), later.action.line ≠ item.action.line

def EndsWith (items : List Item) (line : Nat) (action : Action) : Prop :=
  ∃ place item, Last items place item ∧ item.action.line = line ∧ item.action = action

section Text

variable {cs : List Char} {source : String} {line : Nat}

theorem startsWithWord_iff : startsWithWord cs = true ↔
    ∃ blanks rest, cs = blanks ++ (checkpointWord ++ rest) ∧
      (∀ c ∈ blanks, Text.isBlank c = true) ∧ ∀ c ∈ rest.head?, Text.isWordChar c = false := by
  constructor
  · intro h
    simp only [startsWithWord, Bool.and_eq_true, List.isPrefixOf_iff_prefix] at h
    obtain ⟨⟨rest, hrest⟩, hend⟩ := h
    refine ⟨cs.takeWhile Text.isBlank, rest, ?_, fun c hc => List.mem_takeWhile_imp hc, fun c hc => ?_⟩
    · rw [hrest, List.takeWhile_append_dropWhile]
    · rw [← hrest, List.drop_left] at hend
      cases rest with
      | nil => cases hc
      | cons first _ =>
        cases hc
        simpa using hend
  · rintro ⟨blanks, rest, rfl, hblanks, hrest⟩
    have hdrop : (blanks ++ (checkpointWord ++ rest)).dropWhile Text.isBlank = checkpointWord ++ rest := by
      rw [List.dropWhile_append_of_pos hblanks]
      exact List.dropWhile_cons_of_neg (by decide)
    simp only [startsWithWord, hdrop, List.drop_left, Bool.and_eq_true, List.isPrefixOf_iff_prefix]
    refine ⟨List.prefix_append _ _, ?_⟩
    cases rest with
    | nil => rfl
    | cons first _ => simpa using hrest first rfl

theorem asks_cons {c : Char} : Asks (c :: cs) ↔
    (∃ rest, c = '/' ∧ cs = '/' :: rest ∧ startsWithWord rest = true) ∨ Asks cs := by
  constructor
  · rintro ⟨before, blanks, rest, heq, hends⟩
    cases before with
    | nil =>
      obtain ⟨rfl, rfl⟩ := List.cons.inj heq
      exact .inl ⟨_, rfl, rfl, startsWithWord_iff.2 ⟨blanks, rest, rfl, hends⟩⟩
    | cons _ before => exact .inr ⟨before, blanks, rest, (List.cons.inj heq).2, hends⟩
  · rintro (⟨text, rfl, rfl, hword⟩ | ⟨before, blanks, rest, rfl, hends⟩)
    · obtain ⟨blanks, rest, rfl, hends⟩ := startsWithWord_iff.1 hword
      exact ⟨[], blanks, rest, rfl, hends⟩
    · exact ⟨c :: before, blanks, rest, rfl, hends⟩

theorem asksCheckpoint_iff : asksCheckpoint cs = true ↔ Asks cs := by
  fun_induction asksCheckpoint cs with
  | case1 cs ih => simp [asks_cons, ih]
  | case2 c cs hmark ih =>
    rw [asks_cons, ih]
    refine ⟨.inr, fun h => h.resolve_left ?_⟩
    rintro ⟨rest, rfl, rfl, -⟩
    exact hmark rest rfl rfl
  | case3 => simp [Asks]

def askedLines (source : String) : List Nat :=
  (((Text.fileLines source).zipIdx 1).filter fun (l, _) => asksCheckpoint l.toList).map (·.2)

theorem mem_askedLines : line ∈ askedLines source ↔ Asked source line := by
  simp only [askedLines, List.mem_map, List.mem_filter, Prod.exists, List.mem_zipIdx_iff_le_and_getElem?_sub,
    asksCheckpoint_iff, Asked]
  constructor
  · rintro ⟨text, n, ⟨⟨hle, htext⟩, hasks⟩, rfl⟩
    exact ⟨hle, text, htext, hasks⟩
  · rintro ⟨hle, text, htext, hasks⟩
    exact ⟨text, line, ⟨⟨hle, htext⟩, hasks⟩, rfl⟩

end Text

section Items

variable {found : Detection} {items : List Item} {line place : Nat} {lines : List Nat}

theorem lastOnLine_append (item : Item) : lastOnLine (items ++ [item]) line =
    if item.action.line = line then some items.length else lastOnLine items line := by
  simp only [lastOnLine, List.zipIdx_append, List.reverse_append, List.zipIdx_cons, List.zipIdx_nil,
    List.reverse_cons, List.reverse_nil, List.nil_append, List.cons_append, List.find?_cons]
  split <;> simp_all

theorem lastOnLine_eq_none : lastOnLine items line = none ↔ ∀ item ∈ items, item.action.line ≠ line := by
  induction items using List.reverseRecOn with
  | nil => simp [lastOnLine]
  | append_singleton items item ih =>
    rw [lastOnLine_append]
    split <;> simp_all [or_imp, forall_and]

theorem last_append {item x : Item} : Last (items ++ [item]) place x ↔
    place = items.length ∧ x = item ∨ Last items place x ∧ item.action.line ≠ x.action.line := by
  rcases Nat.lt_trichotomy place items.length with hlt | rfl | hlt
  · have hdrop : (items ++ [item]).drop (place + 1) = items.drop (place + 1) ++ [item] :=
      List.drop_append_of_le_length hlt
    simp [Last, List.getElem?_append_left hlt, hdrop, or_imp, forall_and, Nat.ne_of_lt hlt, and_assoc]
  · simp [Last, eq_comm]
  · have hnone : (items ++ [item])[place]? = none := List.getElem?_eq_none (by simpa using Nat.succ_le_of_lt hlt)
    simp [Last, Nat.ne_of_gt hlt, List.getElem?_eq_none (Nat.le_of_lt hlt), hnone]

theorem lastOnLine_eq_some : lastOnLine items line = some place ↔
    ∃ item, Last items place item ∧ item.action.line = line := by
  induction items using List.reverseRecOn with
  | nil => simp [lastOnLine, Last]
  | append_singleton items item ih =>
    rw [lastOnLine_append]
    simp only [last_append]
    split
    · rename_i hline
      constructor
      · intro h
        exact ⟨item, .inl ⟨(Option.some.inj h).symm, rfl⟩, hline⟩
      · rintro ⟨x, ⟨rfl, -⟩ | ⟨-, hne⟩, hx⟩
        · rfl
        · exact absurd (hline.trans hx.symm) hne
    · rename_i hline
      rw [ih]
      constructor
      · rintro ⟨x, hlast, rfl⟩
        exact ⟨x, .inr ⟨hlast, hline⟩, rfl⟩
      · rintro ⟨x, ⟨-, rfl⟩ | ⟨hlast, -⟩, hx⟩
        · exact absurd hx hline
        · exact ⟨x, hlast, hx⟩

theorem Last.unique {place' : Nat} {item item' : Item} (h : Last items place item)
    (h' : Last items place' item') (hline : item.action.line = item'.action.line) :
    place = place' ∧ item = item' := by
  have hplace : place = place' := Option.some.inj
    ((lastOnLine_eq_some.2 ⟨item, h, hline⟩).symm.trans (lastOnLine_eq_some.2 ⟨item', h', rfl⟩))
  subst hplace
  exact ⟨rfl, Option.some.inj (h.1.symm.trans h'.1)⟩

/-- What is found when the lines are gone through: the last item of each is marked, and those without an item
are counted. -/
structure Marks (items : List Item) (found : Detection) (lines : List Nat) (after : Detection) : Prop where
  sentences : ∀ line ∈ lines, ∀ d, ¬EndsWith items line (.declare d)
  errors : after.errors = 0 ↔ found.errors = 0 ∧ ∀ line ∈ lines, ∃ item ∈ items, item.action.line = line
  marked : ∀ place, place ∈ after.marked ↔
    place ∈ found.marked ∨ ∃ item, Last items place item ∧ item.action.line ∈ lines

theorem Marks.nil : Marks items found [] found := by
  constructor <;> simp

theorem Marks.cons {mid after : Detection} (hmid : Marks items found [line] mid)
    (hafter : Marks items mid lines after) : Marks items found (line :: lines) after := by
  refine ⟨fun l hl => ?_, ?_, fun place => ?_⟩
  · rcases List.mem_cons.1 hl with rfl | hl
    · exact hmid.sentences l (.head _)
    · exact hafter.sentences l hl
  · simp only [hafter.errors, hmid.errors, List.forall_mem_cons, List.not_mem_nil, false_imp_iff,
      implies_true, and_true, and_assoc]
  · simp only [hafter.marked, hmid.marked, List.mem_cons, List.not_mem_nil, or_false, and_or_left, exists_or,
      or_assoc]

theorem mark_cases (found : Detection) (line : Nat) :
    (∃ d, EndsWith items line (.declare d)) ∧
        mark items.toArray found line = (found, .error (.misuse .missingPart)) ∨
      ∃ after, mark items.toArray found line = (after, .ok ()) ∧ Marks items found [line] after := by
  rw [mark]
  cases hlast : lastOnLine items.toArray.toList line with
  | none =>
    have hnone := lastOnLine_eq_none.1 hlast
    have hnever {place : Nat} {item : Item} (h : Last items place item) : item.action.line ≠ line :=
      hnone item (List.mem_of_getElem? h.1)
    refine .inr ⟨_, rfl, ?_, ?_, fun place => ?_⟩
    · rintro l hl d ⟨place, item, hitem, hline, -⟩
      exact hnever hitem (hline.trans (List.mem_singleton.1 hl))
    · simpa using fun _ => hnone
    · simpa using fun item hitem hline => absurd hline (hnever hitem)
  | some place =>
    obtain ⟨item, hitem, hline⟩ := lastOnLine_eq_some.1 hlast
    have hget : items.toArray[place]? = some item := by simpa using hitem.1
    obtain ⟨action, next, inner, other⟩ := item
    dsimp only
    rw [hget]
    cases action with
    | declare d => exact .inl ⟨⟨d, place, _, hitem, hline, rfl⟩, rfl⟩
    | perform s =>
      refine .inr ⟨_, rfl, ?_, ?_, fun place' => ?_⟩
      · rintro l hl d ⟨place', item', hitem', hline', haction⟩
        rw [List.mem_singleton.1 hl] at hline'
        obtain ⟨-, rfl⟩ := hitem.unique hitem' (hline.trans hline'.symm)
        cases haction
      · simpa using fun _ => ⟨_, List.mem_of_getElem? hitem.1, hline⟩
      · rw [List.mem_cons, or_comm]
        refine or_congr_right ⟨?_, ?_⟩
        · rintro rfl
          exact ⟨_, hitem, List.mem_singleton.2 hline⟩
        · rintro ⟨item', hitem', hline'⟩
          exact (hitem'.unique hitem ((List.mem_singleton.1 hline').trans hline.symm)).1

/-- Marking stops at the first line that ends with a declaration. -/
theorem markAll_cases (found : Detection) (lines : List Nat) :
    (∃ line ∈ lines, ∃ d, EndsWith items line (.declare d)) ∧
        (markAll items.toArray found lines).2 = .error (.misuse .missingPart) ∨
      ∃ after, markAll items.toArray found lines = (after, .ok ()) ∧ Marks items found lines after := by
  induction lines generalizing found with
  | nil => exact .inr ⟨found, rfl, .nil⟩
  | cons line lines ih =>
    rw [markAll]
    rcases mark_cases found line with ⟨hends, hmark⟩ | ⟨mid, hmark, hmid⟩
    · rw [hmark]
      exact .inl ⟨⟨line, .head _, hends⟩, rfl⟩
    · rw [hmark]
      rcases ih mid with ⟨⟨l, hl, hends⟩, hfails⟩ | ⟨after, hdone, hafter⟩
      · exact .inl ⟨⟨l, .tail _ hl, hends⟩, hfails⟩
      · exact .inr ⟨after, hdone, hmid.cons hafter⟩

end Items

section Detect

variable {p : Program} {source : String}

/-- The three ways in which detection ends. -/
theorem detect_cases (p : Program) (source : String) :
    (∃ line d, Asked source line ∧ EndsWith p.items line (.declare d)) ∧
        (detect p source).2 = .error (.misuse .missingPart) ∨
      (∀ line d, Asked source line → ¬EndsWith p.items line (.declare d)) ∧
        ((∃ line, Asked source line ∧ ∀ item ∈ p.items, item.action.line ≠ line) ∧
            (detect p source).2 = .error (.exit "1") ∨
          (∀ line, Asked source line → ∃ item ∈ p.items, item.action.line = line) ∧
            (detect p source).2 = .ok () ∧
            ∀ place, place ∈ (detect p source).1.marked ↔
              ∃ item, Last p.items place item ∧ Asked source item.action.line) := by
  rw [detect, ← askedLines]
  rcases markAll_cases {} (askedLines source) with ⟨⟨line, hline, d, hends⟩, hfails⟩ | ⟨after, hdone, hafter⟩
  · refine .inl ⟨⟨line, d, mem_askedLines.1 hline, hends⟩, ?_⟩
    generalize markAll p.items.toArray {} (askedLines source) = result at hfails ⊢
    obtain ⟨found, result⟩ := result
    cases hfails
    rfl
  · rw [hdone]
    refine .inr ⟨fun line d hline => hafter.sentences line (mem_askedLines.2 hline) d, ?_⟩
    have herrors := hafter.errors
    simp only [mem_askedLines, true_and] at herrors
    by_cases hzero : after.errors = 0
    · simp only [hzero, beq_self_eq_true, ↓reduceIte]
      refine .inr ⟨herrors.1 hzero, trivial, fun place => ?_⟩
      simp only [hafter.marked, mem_askedLines, List.not_mem_nil, false_or]
    · simp only [beq_iff_eq, hzero, ↓reduceIte]
      refine .inl ⟨?_, trivial⟩
      simpa using mt herrors.2 hzero

theorem EndsWith.unique {items : List Item} {line : Nat} {action action' : Action}
    (h : EndsWith items line action) (h' : EndsWith items line action') : action = action' := by
  obtain ⟨place, item, hlast, hline, rfl⟩ := h
  obtain ⟨place', item', hlast', hline', rfl⟩ := h'
  rw [(hlast.unique hlast' (hline.trans hline'.symm)).2]

theorem exists_endsWith {items : List Item} {line : Nat} :
    (∃ action, EndsWith items line action) ↔ ∃ item ∈ items, item.action.line = line := by
  constructor
  · rintro ⟨action, place, item, hlast, hline, -⟩
    exact ⟨item, List.mem_of_getElem? hlast.1, hline⟩
  · rintro ⟨item, hmem, hline⟩
    cases hlast : lastOnLine items line with
    | none => exact absurd hline (lastOnLine_eq_none.1 hlast item hmem)
    | some place =>
      obtain ⟨last, hlast, hline⟩ := lastOnLine_eq_some.1 hlast
      exact ⟨_, place, last, hlast, hline, rfl⟩

/-- Detection ends well exactly if each line that asks for a checkpoint ends with a sentence; it ends in a fault
exactly if one of them ends with a declaration, and with exit code 1 exactly if none does and one has no item.
When it ends well, the marked places are those of the items that are the last of a line that asks. -/
theorem detect_marks_last_sentences (p : Program) (source : String) :
    ((detect p source).2 = .ok () ↔ ∀ line, Asked source line → ∃ s, EndsWith p.items line (.perform s)) ∧
      ((detect p source).2 = .error (.misuse .missingPart) ↔
        ∃ line d, Asked source line ∧ EndsWith p.items line (.declare d)) ∧
      ((detect p source).2 = .error (.exit "1") ↔
        (∀ line d, Asked source line → ¬EndsWith p.items line (.declare d)) ∧
          ∃ line, Asked source line ∧ ∀ item ∈ p.items, item.action.line ≠ line) ∧
      ((detect p source).2 = .ok () → ∀ place, place ∈ (detect p source).1.marked ↔
        ∃ item, Last p.items place item ∧ Asked source item.action.line) := by
  rcases detect_cases p source with
    ⟨⟨line, d, hline, hends⟩, hresult⟩ | ⟨hnone, ⟨⟨line, hline, hempty⟩, hresult⟩ | ⟨hitems, hresult, hmarked⟩⟩
  · simp only [hresult, reduceCtorEq, false_iff, true_iff, false_imp_iff, and_true, Except.error.injEq]
    refine ⟨fun h => ?_, ⟨line, d, hline, hends⟩, fun h => h.1 line d hline hends⟩
    obtain ⟨s, hs⟩ := h line hline
    cases hs.unique hends
  · simp only [hresult, reduceCtorEq, false_iff, true_iff, false_imp_iff, and_true, Except.error.injEq]
    refine ⟨fun h => ?_, ?_, hnone, line, hline, hempty⟩
    · obtain ⟨s, hs⟩ := h line hline
      obtain ⟨item, hmem, heq⟩ := exists_endsWith.1 ⟨_, hs⟩
      exact hempty item hmem heq
    · rintro ⟨l, d, hl, hends⟩
      exact hnone l d hl hends
  · simp only [hresult, reduceCtorEq, false_iff, true_iff, forall_const]
    refine ⟨fun line hline => ?_, ?_, ?_, hmarked⟩
    · obtain ⟨action, hends⟩ := exists_endsWith.2 (hitems line hline)
      cases action with
      | declare d => exact absurd hends (hnone line d hline)
      | perform s => exact ⟨s, hends⟩
    · rintro ⟨line, d, hline, hends⟩
      exact hnone line d hline hends
    · rintro ⟨-, line, hline, hempty⟩
      obtain ⟨item, hmem, heq⟩ := hitems line hline
      exact hempty item hmem heq

theorem second_sentence_marked :
    let source := "var x: int\nx := 1; skip // checkpoint\nskip // no checkpoint\n"
    ∃ p types, Reading.readProgram {} source {} = (.ok p, types) ∧ (detect p source).2 = .ok () ∧
      (detect p source).1.marked = [2] ∧ ∀ place, place ∈ (detect p source).1.marked ↔
        ∃ item, Last p.items place item ∧ Asked source item.action.line := by
  intro source
  have hpass : passes (Reading.readProgram {} source) {} (fun p _ =>
      (detect p source).2 = .ok () ∧ (detect p source).1.marked = [2]) = true := by decide +kernel
  obtain ⟨p, types, hread, hfound⟩ := of_passes hpass
  obtain ⟨hok, hmarked⟩ := of_decide_eq_true hfound
  exact ⟨p, types, hread, hok, hmarked, (detect_marks_last_sentences p source).2.2.2 hok⟩

/-- Each line that asks has an item, and still detection does not end well. -/
theorem declaration_not_marked :
    let source := "var x: int // checkpoint\nskip\n"
    ∃ p types, Reading.readProgram {} source {} = (.ok p, types) ∧
      (∀ line, Asked source line → ∃ item ∈ p.items, item.action.line = line) ∧
      (detect p source).2 = .error (.misuse .missingPart) := by
  intro source
  have hpass : passes (Reading.readProgram {} source) {} (fun p _ =>
      (∀ line ∈ askedLines source, ∃ item ∈ p.items, item.action.line = line) ∧
        (detect p source).2 = .error (.misuse .missingPart)) = true := by decide +kernel
  obtain ⟨p, types, hread, hfound⟩ := of_passes hpass
  obtain ⟨hitems, hfails⟩ := of_decide_eq_true hfound
  exact ⟨p, types, hread, fun line hline => hitems line (mem_askedLines.2 hline), hfails⟩

end Detect

end Chalkboard.Timeline
