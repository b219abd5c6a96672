import Chalkboard.Picture.Show
import Chalkboard.Proofs.Boards
import Chalkboard.Proofs.Reaching
import Chalkboard.Proofs.SplitRuns

/-! The show of a recorded run goes through the frames in their order: the loaded memory, the declarations,
the sentences. So each of its pictures is that of a board after some of the first frames. No variable is ever
taken from the board, and where the board has no room for blocks there are none in any frame. -/

namespace Chalkboard.Timeline

open Effects
open Syntax (Item Program)
open Chalkboard.Types (Graph)
open Memory (Root Cell)
open Run (Situation Course Turn Between LinksTo FilledAll)

section Order

variable {f : Run.Frame} {p : Program} {next : Option Nat} {before s : Situation} {frames : List Frame}

def Inside (p : Program) : Option Nat → Prop :=
  Between p.declarations.length (p.declarations.length + Syntax.extents p.sentences)

variable {item : Item} {items : Array Item} {place : Nat}

theorem isDeclaration_of_declare {d : Syntax.Declaration}
    (hitem : items[place]? = some item) (haction : item.action = .declare d) :
    isDeclaration items place = true := by
  rw [isDeclaration, hitem]
  dsimp only
  rw [haction]

theorem isDeclaration_of_perform {s : Syntax.Sentence}
    (hitem : items[place]? = some item) (haction : item.action = .perform s) :
    isDeclaration items place = false := by
  rw [isDeclaration, hitem]
  dsimp only
  rw [haction]

theorem links_inside (hf : FilledAll p.sentences)
    (hitem : item ∈ Syntax.blockItems p.declarations.length none p.sentences) :
    LinksTo (Inside p) item := by
  refine Run.blockItems_links (fun q hq => by cases hq) (fun q hq => by cases hq) p.sentences hf
    (fun q hlow hhigh q' hq' => ?_) item hitem
  cases hq'
  exact ⟨hlow, hhigh⟩

theorem Chain.sentences (h : Chain f p.items.toArray next before s frames) (hf : FilledAll p.sentences)
    (hnext : Inside p next) :
    ∀ frame ∈ frames, frame.done.any (fun place => !isDeclaration p.items.toArray place) = true := by
  induction h with
  | nil => simp
  | @cons place item next before s frame rest hitem hstep hdone hdiff _ ih =>
    obtain ⟨hlow, -⟩ := hnext place rfl
    have hmem : item ∈ Syntax.blockItems p.declarations.length none p.sentences := by
      have hitem : p.items[place]? = some item := by simpa using hitem
      rw [Program.items, List.getElem?_append_right
        (by rw [Run.declarationItems_length]; exact hlow)] at hitem
      exact List.mem_of_getElem? hitem
    have hlinks := links_inside hf hmem
    obtain ⟨sentence, haction⟩ := hlinks.sentence
    intro frame' hframe'
    rcases List.mem_cons.1 hframe' with rfl | hframe'
    · rw [hdone]
      simp [isDeclaration_of_perform hitem haction]
    · exact ih (Run.step_link hlinks hstep) frame' hframe'

theorem Chain.order (h : Chain f p.items.toArray next before s frames) (hf : FilledAll p.sentences) :
    frames = (frames.filter fun frame => frame.done.any (isDeclaration p.items.toArray)) ++
      frames.filter fun frame => frame.done.any fun place => !isDeclaration p.items.toArray place := by
  induction h with
  | nil => rfl
  | @cons place item next before s frame rest hitem hstep hdone hdiff hrest ih =>
    cases haction : item.action with
    | declare d =>
      have hdeclaration := isDeclaration_of_declare hitem haction
      rw [List.filter_cons, List.filter_cons, hdone]
      simp only [Option.any_some, hdeclaration, Bool.not_true, Bool.false_eq_true, ↓reduceIte,
        List.cons_append]
      rw [← ih]
    | perform sentence =>
      have hdeclaration := isDeclaration_of_perform hitem haction
      have hmem : item ∈ Syntax.blockItems p.declarations.length none p.sentences := by
        have hitem : p.items[place]? = some item := by simpa using hitem
        rcases List.mem_append.1 (List.mem_of_getElem? hitem) with hmem | hmem
        · obtain ⟨d, -, hdeclare⟩ := Run.mem_declarationItems hmem
          rw [haction] at hdeclare
          cases hdeclare
        · exact hmem
      have hall := hrest.sentences hf (Run.step_link (links_inside hf hmem) hstep)
      have hnone : rest.filter (fun frame => frame.done.any (isDeclaration p.items.toArray)) = [] := by
        refine List.filter_eq_nil_iff.2 fun frame hframe => ?_
        have hsentence := hall frame hframe
        revert hsentence
        cases frame.done <;> simp
      rw [List.filter_cons, List.filter_cons, hdone, hnone, List.filter_eq_self.2 hall]
      simp [hdeclaration]

theorem Recording.order {memory : Option Memory} {looping : List Nat}
    {r : Except Fault (Option Nat) × Course Timeline} {opening : List Frame}
    (h : Recording f p memory looping r opening frames) (hf : FilledAll p.sentences) :
    r.2.seen.toList = (loaded? r.2.seen).toList ++
      (declarations p.items.toArray r.2.seen ++ Timeline.sentences p.items.toArray r.2.seen) := by
  have horder := h.chain.order hf
  have hfirst : loaded? r.2.seen = (opening ++ frames)[0]?.filter (·.done.isNone) := by
    rw [loaded?, ← Array.getElem?_toList, h.seen]
  rw [hfirst, declarations, Timeline.sentences, h.seen]
  obtain ⟨-, hopened, hchain, -, -, -⟩ := h
  cases hopened with
  | new =>
    have hnone : frames[0]?.filter (·.done.isNone) = none := by
      cases hframe : frames[0]? with
      | none => rfl
      | some frame =>
        obtain ⟨place, hdone⟩ := hchain.done hframe
        simp [hdone]
    rw [List.nil_append, hnone]
    exact horder
  | @loaded m frame hdone =>
    have hsome : (some frame).filter (·.done.isNone) = some frame := by simp [hdone]
    rw [List.singleton_append, List.getElem?_cons_zero, hsome, List.filter_cons, List.filter_cons, hdone]
    exact congrArg (frame :: ·) horder

end Order

/-- The memories of frames come from one another by steps. -/
def Turned (f : Run.Frame) : Memory → List Frame → Prop
  | _, [] => True
  | m, frame :: rest => (∃ events, Turn f m events frame.memory) ∧ Turned f frame.memory rest

theorem Chain.turned {f : Run.Frame} {items : Array Item} {next : Option Nat} {before s : Situation}
    {frames : List Frame} (h : Chain f items next before s frames) (hs : f.types.graph.Sound) :
    Turned f s.memory frames := by
  induction h with
  | nil => trivial
  | @cons place item next before s frame rest _ hstep _ _ _ ih =>
    refine ⟨?_, ih⟩
    rcases Run.step_turn hs place item s with hturn | ⟨⟨e, he⟩, -⟩
    · rw [hstep] at hturn
      exact ⟨_, hturn⟩
    · rw [hstep] at he
      cases he

end Chalkboard.Timeline

namespace Chalkboard.Memory

section Roots

variable (m : Memory) (k : Root)

theorem rootCell?_setNext (p : Partition) (n : Int) : (m.setNext p n).rootCell? k = m.rootCell? k := by
  cases p <;> cases k <;> rfl

theorem rootCell?_erase (a : Address) :
    (m.erase a).rootCell? k = if (Root.heap a).same k then none else m.rootCell? k := by
  cases k with
  | stack name => rfl
  | heap b =>
    rw [rootCell?, heapCell?_erase, Address.same_comm b a]
    rfl

theorem rootCell?_enter (a : Address) (c : Cell) :
    ({ m with heap := enter a c m.heap } : Memory).rootCell? k =
      if (Root.heap a).same k then some c else m.rootCell? k := by
  cases k with
  | stack name => rfl
  | heap b =>
    rw [rootCell?, heapCell?_enter, Address.same_comm b a]
    rfl

theorem rootCell?_push (name : String) (c : Cell) :
    ({ m with stack := m.stack ++ [(name, c)] } : Memory).rootCell? k =
      (m.rootCell? k).or (if (Root.stack name).same k then some c else none) := by
  cases k with
  | stack name' =>
    rw [rootCell?, rootCell?, stackCell?, stackCell?, List.lookup_append]
    congr 1
    rw [List.lookup_cons, Root.same, BEq.comm]
    cases name == name' <;> rfl
  | heap b => exact (Option.or_none).symm

end Roots

end Chalkboard.Memory

namespace Chalkboard.Run

open Memory (Root Cell Location Address)

theorem Turn.stack_stays {f : Frame} {m m' : Memory} {events : History} (h : Turn f m events m')
    {name : String} (hname : (m.rootCell? (.stack name)).isSome = true) :
    (m'.rootCell? (.stack name)).isSome = true := by
  cases h with
  | still => exact hname
  | moved => rwa [Memory.rootCell?_setNext]
  | @declared name' c n =>
    change (Memory.rootCell? { m.setNext .stack n with stack := (m.setNext .stack n).stack ++ [(name', c)] }
      (.stack name)).isSome = true
    rw [Memory.rootCell?_push, Memory.rootCell?_setNext]
    simp [hname]
  | wrote =>
    rw [Memory.rootCell?_write, Option.isSome_map]
    exact hname
  | stored _ _ _ _ _ hm' =>
    rw [Memory.rootCell?_enter, hm', if_neg (by simp [Root.same]), Memory.rootCell?_write,
      Memory.rootCell?_setNext, Option.isSome_map]
    exact hname
  | removed =>
    rw [Memory.rootCell?_write, Option.isSome_map, Memory.rootCell?_erase, if_neg (by simp [Root.same])]
    exact hname

end Chalkboard.Run

namespace Chalkboard.Timeline

open Syntax (Program)
open Memory (Root Cell)
open Picture (heapCells inHeap)
open Run (Situation Course)

section Asked

variable {f : Run.Frame} {types : Types} {before : Situation} {frames : List Frame}

theorem among_self {k : Root} {told : List Root} (h : k ∈ told) : among k told = true :=
  among_iff.2 ⟨k, h, Memory.Root.same_refl k⟩

theorem Turned.keeps_stack {m : Memory} (h : Turned f m frames) (hlinked : Linked f.types before frames)
    (hmemory : m = before.memory) :
    ∀ frame ∈ frames, ∀ name, Root.stack name ∉ frame.diff.deleted := by
  induction frames generalizing m before with
  | nil => simp
  | cons first rest ih =>
    obtain ⟨⟨events, hturn⟩, hrest⟩ := h
    intro frame hframe name hdeleted
    rcases List.mem_cons.1 hframe with rfl | hframe
    · obtain ⟨hbefore, hgone⟩ := (hlinked.1.2.deleted _).1 (among_self hdeleted)
      have hstays := hturn.stack_stays (hmemory ▸ hbefore)
      rw [Frame.memory, hgone] at hstays
      cases hstays
    · exact ih hrest hlinked.2 rfl frame hframe name hdeleted

theorem Recording.keeps_stack {p : Program} {memory : Option Memory} {looping : List Nat}
    {r : Except Fault (Option Nat) × Course Timeline} {opening : List Frame}
    (h : Recording f p memory looping r opening frames) (hs : f.types.graph.Sound)
    (hlinked : Linked f.types {} (opening ++ frames)) :
    ∀ frame ∈ opening ++ frames, ∀ name, Root.stack name ∉ frame.diff.deleted := by
  obtain ⟨-, hopened, hchain, -, -, -⟩ := h
  cases hopened with
  | new => exact (hchain.turned hs).keeps_stack hlinked rfl
  | @loaded m frame _ hsituation _ =>
    have hmemory : frame.memory = m := congrArg (·.memory) hsituation
    intro frame' hframe' name hdeleted
    rcases List.mem_cons.1 hframe' with rfl | hframe'
    · obtain ⟨hbefore, -⟩ := (hlinked.1.2.deleted _).1 (among_self hdeleted)
      cases hbefore
    · exact (hchain.turned hs).keeps_stack hlinked.2 hmemory.symm frame' hframe' name hdeleted

theorem Linked.without_blocks (h : Linked types before frames)
    (hbefore : ∀ a, before.memory.heapCell? a = none)
    (hnone : ∀ frame ∈ frames, ∀ a, Root.heap a ∈ frame.diff.new → frame.memory.heapCell? a = none) :
    ∀ frame ∈ frames, ∀ root ∈ frame.diff.new ++ frame.diff.changed ++ frame.diff.deleted,
      inHeap root = false := by
  induction frames generalizing before with
  | nil => simp
  | cons first rest ih =>
    obtain ⟨⟨-, hcompares⟩, hrest⟩ := h
    have hfirst (a : Memory.Address) : first.memory.heapCell? a = none := by
      by_contra hsome
      have hnew : among (.heap a) first.diff.new = true :=
        (hcompares.new _).2 ⟨Option.isSome_iff_ne_none.2 hsome, hbefore a⟩
      obtain ⟨j, hj, hsame⟩ := among_iff.1 hnew
      cases j with
      | stack name => cases hsame
      | heap b =>
        have hb := hnone first (List.mem_cons_self ..) b hj
        exact hsome ((Memory.rootCell?_congr hsame (m := first.memory)).symm.trans hb)
    intro frame hframe root hroot
    rcases List.mem_cons.1 hframe with rfl | hframe
    · cases root with
      | stack name => rfl
      | heap a =>
        rcases List.mem_append.1 hroot with hroot | hroot
        · rcases List.mem_append.1 hroot with hroot | hroot
          · obtain ⟨hsome, -⟩ := (hcompares.new _).1 (among_self hroot)
            rw [Memory.rootCell?, ← Frame.memory, hfirst] at hsome
            cases hsome
          · obtain ⟨c, _, _, _, hc, -⟩ := (hcompares.changed _).1 (among_self hroot)
            cases (hbefore a).symm.trans hc
        · obtain ⟨hsome, -⟩ := (hcompares.deleted _).1 (among_self hroot)
          rw [Memory.rootCell?, hbefore] at hsome
          cases hsome
    · exact ih hrest hfirst (fun frame' hframe' => hnone frame' (List.mem_cons_of_mem _ hframe')) frame hframe
        root hroot

theorem Linked.room {frames : Timeline} (h : Linked types {} frames.toList)
    (hempty : (heapCells frames).isEmpty = true) :
    ∀ frame ∈ frames.toList, ∀ root ∈ frame.diff.new ++ frame.diff.changed ++ frame.diff.deleted,
      inHeap root = false := by
  refine h.without_blocks (fun a => rfl) fun frame hframe a ha => ?_
  rw [List.isEmpty_iff, heapCells, List.flatMap_eq_nil_iff] at hempty
  exact List.filterMap_eq_nil_iff.1 (hempty frame hframe) _ ha

end Asked

end Chalkboard.Timeline

namespace Chalkboard.Picture

open Effects
open Timeline (Frame)

def Script.board (s : Script) : Board := ⟨s.theme.palette, !(heapCells s.frames).isEmpty, []⟩

/-- The board when the first frames have been shown without a fault. -/
def Script.Reaches (s : Script) (k : Nat) (b : Board) : Prop :=
  (s.frames.toList.take k).forM (Board.showFrame s.graph s.theme) s.board = (.ok (), b)

namespace Show

/-- A show whose pictures so far are each that of a board after some of the first frames. -/
def Fair (s : Script) (w : Show) : Prop :=
  ∀ tick ∈ w.ticks, ∃ k b, s.Reaches k b ∧ tick.sprites = b.sprites

/-- A fair show that has come as far as a number of frames. -/
def At (s : Script) (k : Nat) (w : Show) : Prop := Fair s w ∧ s.Reaches k w.board

/-- Work on a show that keeps it fair, and where it does not fail brings it from one stage to another. -/
def Leads {α : Type} (s : Script) (P : Show → Prop) (m : ShowM α) (Q : Show → Prop) : Prop :=
  ∀ w, P w → Fair s (m w).2 ∧ ∀ a w', m w = (.ok a, w') → Q w'

section Stages

variable {α β : Type} {s : Script} {P Q R : Show → Prop}

theorem Leads.bind {m : ShowM α} {next : α → ShowM β} (hm : Leads s P m Q)
    (hnext : ∀ a, Leads s Q (next a) R) : Leads s P (m >>= next) R := by
  intro w hw
  obtain ⟨hfair, hok⟩ := hm w hw
  rw [bind_apply]
  rcases hmw : m w with ⟨e | a, w₁⟩
  · rw [hmw] at hfair
    exact ⟨hfair, fun a w' h => by cases h⟩
  · exact hnext a w₁ (hok a w₁ hmw)

theorem leads_modify {g : Show → Show} (h : ∀ w, P w → Fair s (g w) ∧ Q (g w)) :
    Leads s P (modify g : ShowM Unit) Q := by
  intro w hw
  refine ⟨(h w hw).1, fun a w' hrun => ?_⟩
  cases hrun
  exact (h w hw).2

theorem leads_pure (a : α) {k : Nat} : Leads s (At s k) (pure a) (At s k) := by
  intro w hw
  refine ⟨hw.1, fun a w' hrun => ?_⟩
  cases hrun
  exact hw

theorem leads_markNext {k : Nat} (line : Option Nat) : Leads s (At s k) (markNext line) (At s k) :=
  leads_modify fun _ hw => ⟨hw.1, hw⟩

theorem leads_tick (k : Nat) : Leads s (At s k) tick (At s k) := by
  refine leads_modify fun w hw => ?_
  have hfair : Fair s
      { w with ticks := w.ticks ++ [⟨w.panel.previous, w.panel.next, w.board.sprites⟩] } := by
    intro t ht
    rcases List.mem_append.1 ht with ht | ht
    · exact hw.1 t ht
    · cases List.mem_singleton.1 ht
      exact ⟨k, w.board, hw.2, rfl⟩
  exact ⟨hfair, hfair, hw.2⟩

theorem leads_frame {k : Nat} {f : Frame} (hf : s.frames.toList[k]? = some f) :
    Leads s (At s k) (onBoard (Board.showFrame s.graph s.theme f)) (At s (k + 1)) := by
  intro w hw
  refine ⟨hw.1, fun a w' hrun => ?_⟩
  rcases hboard : (Board.showFrame s.graph s.theme f).run w.board with ⟨r, b⟩
  have hshow : onBoard (Board.showFrame s.graph s.theme f) w = (r, { w with board := b }) := by
    unfold onBoard
    rw [hboard]
  rw [hshow] at hrun
  cases hrun
  refine ⟨hw.1, ?_⟩
  have hreaches := hw.2
  rw [Script.Reaches] at hreaches ⊢
  rw [List.forM_eq_forM] at hreaches ⊢
  rw [List.take_add_one, hf, Option.toList_some, List.forM_append, bind_apply, hreaches]
  dsimp only
  rw [List.forM_cons, bind_apply]
  change (Board.showFrame s.graph s.theme f) w.board = _ at hboard
  rw [hboard]
  rfl

theorem leads_frames {frames rest : List Frame} (hdone : ∀ f ∈ frames, f.done.isNone = false) {k : Nat}
    (hframes : s.frames.toList.drop k = frames ++ rest) :
    Leads s (At s k) (frames.forM fun f => onBoard (Board.follow s.graph s.theme true f))
      (At s (k + frames.length)) := by
  induction frames generalizing k with
  | nil => exact leads_pure ()
  | cons f frames ih =>
    have hf : s.frames.toList[k]? = some f := by
      rw [← List.head?_drop, hframes]
      rfl
    have hfirst := leads_frame hf
    rw [Board.showFrame, hdone f (List.mem_cons_self ..)] at hfirst
    rw [List.length_cons, Nat.add_comm frames.length, ← Nat.add_assoc]
    refine hfirst.bind fun _ => ih (fun f' hf' => hdone f' (List.mem_cons_of_mem _ hf')) ?_
    rw [← List.drop_drop, hframes]
    rfl

theorem leads_sentences {frames : List Frame} (hdone : ∀ f ∈ frames, f.done.isNone = false) {k : Nat}
    (hframes : s.frames.toList.drop k = frames) (number : Nat) :
    Leads s (At s k) (sentences s number frames) fun w => ∃ k, At s k w := by
  induction frames generalizing k number with
  | nil => exact fun w hw => ⟨hw.1, fun a w' hrun => by cases hrun; exact ⟨k, hw⟩⟩
  | cons f frames ih =>
    have hf : s.frames.toList[k]? = some f := by
      rw [← List.head?_drop, hframes]
      rfl
    have hfirst := leads_frame hf
    rw [Board.showFrame, hdone f (List.mem_cons_self ..)] at hfirst
    rw [sentences]
    refine hfirst.bind fun _ => (leads_markNext _).bind fun _ => ?_
    have hlater : Leads s (At s (k + 1))
        (if s.stopAt == toString number then
          modify fun w => { w with printed := w.printed ++ [s!"STOP at {number}"] }
        else sentences s (number + 1) frames) fun w => ∃ k, At s k w := by
      split
      · exact leads_modify fun w hw => ⟨hw.1, k + 1, hw⟩
      · refine ih (fun f' hf' => hdone f' (List.mem_cons_of_mem _ hf')) ?_ (number + 1)
        rw [← List.drop_drop, hframes]
        rfl
    dsimp only
    split
    · exact (leads_tick _).bind fun _ => hlater
    · exact hlater

theorem perform_fair (horder : s.frames.toList = (Timeline.loaded? s.frames).toList ++
      (Timeline.declarations s.items s.frames ++ Timeline.sentences s.items s.frames)) :
    Leads s (At s 0) (perform s) fun w => ∃ k, At s k w := by
  have hdeclarations : ∀ f ∈ Timeline.declarations s.items s.frames, f.done.isNone = false := by
    intro f hf
    obtain ⟨-, hany⟩ := List.mem_filter.1 hf
    cases hdone : f.done <;> simp_all
  have hsentences : ∀ f ∈ Timeline.sentences s.items s.frames, f.done.isNone = false := by
    intro f hf
    obtain ⟨-, hany⟩ := List.mem_filter.1 hf
    cases hdone : f.done <;> simp_all
  have hrest (k : Nat) (hk : s.frames.toList.drop k = Timeline.sentences s.items s.frames) :
      Leads s (At s k) (do
        tick
        sentences s 0 (Timeline.sentences s.items s.frames)
        tick) fun w => ∃ k, At s k w := by
    refine (leads_tick k).bind fun _ => (leads_sentences hsentences hk 0).bind fun _ => ?_
    intro w ⟨k', hw⟩
    obtain ⟨hfair, hat⟩ := leads_tick k' w hw
    exact ⟨hfair, fun a w' hrun => ⟨k', hat a w' hrun⟩⟩
  have hall {rest : ShowM Unit} {k : Nat} (hk : s.frames.toList.drop k =
      Timeline.declarations s.items s.frames ++ Timeline.sentences s.items s.frames)
      (hlast : ∀ k, s.frames.toList.drop k = Timeline.sentences s.items s.frames →
        Leads s (At s k) rest fun w => ∃ k, At s k w) :
      Leads s (At s k) (do
        (Timeline.declarations s.items s.frames).forM fun f => onBoard (Board.follow s.graph s.theme true f)
        rest) fun w => ∃ k, At s k w := by
    refine (leads_frames hdeclarations hk).bind fun _ => hlast _ ?_
    rw [← List.drop_drop, hk, List.drop_left]
  unfold perform
  dsimp only
  cases hloaded : Timeline.loaded? s.frames with
  | none =>
    rw [hloaded] at horder
    refine hall horder fun k hk => ?_
    split
    · exact (leads_markNext _).bind fun _ => hrest k hk
    · exact hrest k hk
  | some f =>
    rw [hloaded] at horder
    have hf : s.frames.toList[0]? = some f := by
      rw [horder]
      rfl
    have hdone : f.done.isNone = true := (Option.filter_eq_some_iff.1 hloaded).2
    have hfirst := leads_frame hf
    rw [Board.showFrame, hdone] at hfirst
    refine hfirst.bind fun _ => hall ?_ fun k hk => ?_
    · rw [horder]
      rfl
    · split
      · exact (leads_markNext _).bind fun _ => hrest k hk
      · exact hrest k hk

end Stages

end Show

theorem Script.run_fair {s : Script} (horder : s.frames.toList = (Timeline.loaded? s.frames).toList ++
      (Timeline.declarations s.items s.frames ++ Timeline.sentences s.items s.frames)) :
    ∀ tick ∈ s.run.2.ticks, ∃ k b, s.Reaches k b ∧ tick.sprites = b.sprites := by
  have hempty : Show.Fair s { board := s.board, panel := CodePanel.make s.theme .absent } := by
    intro tick htick
    cases htick
  have hstart : Show.At s 0 { board := s.board, panel := CodePanel.make s.theme .absent } := ⟨hempty, rfl⟩
  exact (Show.perform_fair horder _ hstart).1

end Chalkboard.Picture

namespace Chalkboard.Timeline

open Syntax (Program)
open Chalkboard.Types (Graph)
open Memory (Root)
open Picture (Board Sprite Theme)
open Picture.Board (Depicts Upheld Sustained keysOf showFrame start)
open Run (Situation Course Lawful Turn)

/-- What is known of the frame of a step and of what stood before it. -/
structure Follows (f : Run.Frame) (before : Situation) (frame : Frame) : Prop where
  old : Lawful f.types before.memory
  now : Lawful f.types frame.memory
  valued : before.memory.Valued f.types.graph
  compares : Compares f.types.graph before frame.situation frame.diff
  turn : ∃ events, Turn f before.memory events frame.memory

section Boards

variable {f : Run.Frame} {before : Situation} {opening frames : List Frame} {D : Memory → Prop}
  {H : List Memory → Root → Sprite → Prop}

theorem Linked.each {types : Types} (h : Linked types before frames) :
    ∀ frame ∈ frames, Lawful types frame.memory ∧ frame.memory.Valued types.graph := by
  induction frames generalizing before with
  | nil => simp
  | cons first rest ih =>
    intro frame hframe
    rcases List.mem_cons.1 hframe with rfl | hframe
    · exact ⟨h.1.1, h.1.2.valued⟩
    · exact ih h.2 frame hframe

variable {frame : Frame} {i : Nat}

theorem last_memory (hi : frames[i]? = some frame) :
    ((frames.take (i + 1)).map (·.memory)).reverse.headD {} = frame.memory := by
  rw [List.take_add_one, hi, Option.toList_some, List.map_append, List.reverse_append]
  rfl

theorem Linked.sustained (h : Linked f.types before frames) {m : Memory} (hturned : Turned f m frames)
    (hdone : ∀ frame ∈ frames, frame.done.isSome = true) (hbefore : Lawful f.types before.memory)
    (hvalued : before.memory.Valued f.types.graph) (hmemory : m = before.memory) {past : List Memory}
    (hpast : past.headD {} = before.memory) (hD : D before.memory) (hall : ∀ frame ∈ frames, D frame.memory)
    (hstep : ∀ past before frame, past.headD {} = before.memory → D before.memory → D frame.memory →
      Follows f before frame → Upheld f.types.graph before frame (H past) (H (frame.memory :: past))) :
    Sustained f.types.graph H past before frames := by
  induction frames generalizing m past before with
  | nil => trivial
  | cons frame rest ih =>
    obtain ⟨⟨hlawful, hcompares⟩, hrest⟩ := h
    obtain ⟨hturn, hturned⟩ := hturned
    have hnow := hall frame List.mem_cons_self
    refine ⟨⟨hdone frame List.mem_cons_self, ?_⟩, ?_⟩
    · exact hstep past before frame hpast hD hnow ⟨hbefore, hlawful, hvalued, hcompares, hmemory ▸ hturn⟩
    · exact ih hrest hturned (fun frame' hframe' => hdone frame' (List.mem_cons_of_mem _ hframe')) hlawful
        hcompares.valued rfl rfl hnow fun frame' hframe' => hall frame' (List.mem_cons_of_mem _ hframe')

theorem Recording.depicts {p : Program} {memory : Option Memory} {looping : List Nat}
    {r : Except Fault (Option Nat) × Course Timeline} {t : Theme}
    (h : Recording f p memory looping r opening frames) (hready : Session.Ready f.types memory)
    (hdeclared : ∀ d ∈ p.declarations, d.type < f.types.graph.nodes.size) (hnothing : D {})
    (hall : ∀ frame ∈ r.2.seen.toList, D frame.memory)
    (hloaded : ∀ frame b b', Lawful f.types frame.memory → D frame.memory →
      Compares f.types.graph {} frame.situation frame.diff → b.sprites = [] →
      start f.types.graph t frame b = (.ok (), b') → b'.Depicts (keysOf frame.memory) (H [frame.memory]))
    (hstep : ∀ past before frame, past.headD {} = before.memory → D before.memory → D frame.memory →
      Follows f before frame → Upheld f.types.graph before frame (H past) (H (frame.memory :: past)))
    {b b' : Board} (hempty : b.sprites = []) (hi : r.2.seen.toList[i]? = some frame)
    (hrun : (r.2.seen.toList.take (i + 1)).forM (showFrame f.types.graph t) b = (.ok (), b')) :
    b'.Depicts (keysOf frame.memory) (H ((r.2.seen.toList.take (i + 1)).map (·.memory)).reverse) := by
  have hlinked := h.linked hready.toFit hdeclared
  rw [h.seen] at hi hrun hall ⊢
  obtain ⟨-, hopened, hchain, -, -, -⟩ := h
  have hturned := hchain.turned hready.sound.graph
  have hdone : ∀ frame ∈ frames, frame.done.isSome = true := by
    intro frame hframe
    obtain ⟨k, hk⟩ := List.getElem?_of_mem hframe
    obtain ⟨place, hplace⟩ := hchain.done hk
    rw [hplace]
    rfl
  cases hopened with
  | new =>
    have hsustained : Sustained f.types.graph H [] {} frames :=
      Linked.sustained hlinked hturned hdone (Run.lawful_start f.types) (fun e he => by cases he) rfl rfl
        hnothing hall hstep
    have hblank : b.Depicts (keysOf {}) (H []) := by
      refine ⟨by rw [hempty]; exact .nil, fun {k} hk => ?_, fun _ => by rw [Board.sprite?, hempty]; rfl⟩
      cases k <;> cases hk
    have hdrawn := hblank.frames hsustained hi hrun
    rwa [List.append_nil] at hdrawn
  | @loaded m first hnone hsituation _ =>
    obtain ⟨⟨hlawful, hcompares⟩, hlinked⟩ := hlinked
    have hmemory : first.memory = m := congrArg (·.memory) hsituation
    have hfirst := hall first List.mem_cons_self
    rw [List.singleton_append, List.take_succ_cons] at hrun ⊢
    obtain ⟨_, b₁, hstart, hrest⟩ := Effects.bind_ok hrun
    rw [showFrame, if_pos (by rw [hnone]; rfl)] at hstart
    have hdrawn := hloaded first b b₁ hlawful hfirst hcompares hempty hstart
    cases i with
    | zero =>
      cases hi
      cases hrest
      exact hdrawn
    | succ i =>
      have hsustained : Sustained f.types.graph H [first.memory] first.situation frames :=
        hlinked.sustained hturned hdone hlawful hcompares.valued hmemory.symm rfl hfirst
          (fun frame hframe => hall frame (List.mem_cons_of_mem _ hframe)) hstep
      have hlater := hdrawn.frames hsustained hi hrest
      rw [List.map_cons, List.reverse_cons]
      exact hlater

end Boards

end Chalkboard.Timeline
