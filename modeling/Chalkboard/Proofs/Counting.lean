import Chalkboard.Proofs.Indexing
import Chalkboard.Proofs.MovedFlow
import Chalkboard.Proofs.RepeatedRuns

/-! Counting loops. A loop is spread over the steps of a run: its test comes round again and again, reads its
variable back from memory and evaluates its bound anew, and in between the body runs, with loops of its own.
A variable that holds whole numbers is written under its own name only, whatever pointers there are. -/

namespace Chalkboard.Run

open Effects
open Syntax (Expr Variable Lexeme Sentence Action Item Program)
open Reading (readProgram)
open Chalkboard.Types (TypeId)
open Memory (Address Cell Location Root)

/-- Whether a step that leads to `next` sets a variable: it assigns to it, or it is a test of a counting loop
over it that goes on to the body. -/
def sets (name : String) (item : Item) (next : Option Nat) : Bool :=
  match item.action with
  | .perform (.assign v _) => v.name.text == name && v.path.isEmpty
  | .perform (.count v ..) => v.name.text == name && v.path.isEmpty && next == item.inner
  | _ => false

section Counter

variable {f : Frame} {m : Memory} {name : String} {a : Address} {t : TypeId} {w : Value} {v : Variable}
  {here : Location} {c : Cell} {s s' : Situation}

theorem isPointer_int (hint : f.types.graph.node t = .int) : f.types.graph.isPointer t = false := by
  simp [Types.Graph.isPointer, Types.Graph.strip, hint]

/-- A variable that leads to one of whole numbers is that one itself. -/
theorem locate_counter (hcell : m.stackCell? name = some (.leaf a t w)) (hint : f.types.graph.node t = .int)
    (h : locate (f.env m) m v = .ok (here, c)) (hroot : here.root = .stack name) :
    v.name.text = name ∧ v.path = [] := by
  obtain ⟨word, path⟩ := v
  unfold locate at h
  split at h
  · cases h
  rename_i owner howner
  have hreached : here.root = .stack word.text ∨ ∃ b, here.root = .heap b := by
    refine walk_keeps (P := fun here _ => here.root = .stack word.text ∨ ∃ b, here.root = .heap b)
      (fun _ _ _ _ _ hfollow => ?_) (fun _ _ _ _ hroot _ => hroot) path (.inl rfl) h
    obtain ⟨-, b, -, -, rfl⟩ := follow_inv hfollow
    exact .inr ⟨b, rfl⟩
  obtain rfl : word.text = name := by
    rcases hreached with hstack | ⟨b, hheap⟩
    · cases hroot.symm.trans hstack
      rfl
    · cases hroot.symm.trans hheap
  cases hcell.symm.trans howner
  cases path with
  | nil => exact ⟨rfl, rfl⟩
  | cons step steps =>
    obtain ⟨_, _, hfollow | ⟨i, -, hi⟩, -⟩ := walk_cons h
    · have hpointer := (follow_inv hfollow).1
      rw [Cell.type, show (f.env m).types.graph.isPointer t = false from isPointer_int hint] at hpointer
      cases hpointer
    · cases hi

theorem stackCell?_write (hcell : m.stackCell? name = some c) (here : Location) (value : Value) :
    (m.write here value).stackCell? name =
      some (if here.root.same (.stack name) then c.write value here.path else c) := by
  have hroot := Memory.rootCell?_write m (.stack name) here value
  rwa [show m.rootCell? (.stack name) = _ from hcell] at hroot

theorem stackCell?_write_ne (hcell : m.stackCell? name = some c) (value : Value)
    (hne : here.root ≠ .stack name) : (m.write here value).stackCell? name = some c := by
  rw [stackCell?_write hcell, if_neg]
  obtain ⟨root, path⟩ := here
  cases root with
  | heap => exact Bool.false_ne_true
  | stack other =>
    intro hsame
    exact hne (congrArg Root.stack (beq_iff_eq.1 hsame))

theorem cellAt?_counter (hcell : m.stackCell? name = some (.leaf a t w)) (hroot : here.root = .stack name)
    (h : m.cellAt? here = some c) : c = .leaf a t w := by
  obtain ⟨root, path⟩ := here
  obtain rfl : root = .stack name := hroot
  rw [Memory.cellAt?_stack, hcell] at h
  cases path with
  | nil =>
    cases h
    rfl
  | cons => cases h

theorem step_counter (sound : f.types.graph.Sound) {place : Nat} {item : Item} {next : Option Nat}
    (hcell : s.memory.stackCell? name = some (.leaf a t w)) (hint : f.types.graph.node t = .int)
    (h : step f place item s = (.ok next, s')) (hsets : sets name item next = false) :
    s'.memory.stackCell? name = some (.leaf a t w) := by
  have hdone := (step_done sound h).1
  generalize s'.memory = m' at hdone
  cases hdone with
  | kept => exact hcell
  | wrote hwrites hlocate _ =>
    refine stackCell?_write_ne hcell _ fun hroot => ?_
    obtain ⟨hname, hpath⟩ := locate_counter hcell hint hlocate hroot
    cases hwrites with
    | assigned haction => simp [sets, haction, hname, hpath] at hsets
    | counted haction hnext => simp [sets, haction, hname, hpath, hnext] at hsets
  | declared =>
    change (s.memory.stack ++ [_]).lookup name = _
    rw [List.lookup_append, show s.memory.stack.lookup name = _ from hcell]
    rfl
  | stored _ hat hp hnode _ _ hm₁ =>
    subst hm₁
    have hmoved (n : Int) : (s.memory.setNext .heap n).stackCell? name = some (.leaf a t w) := hcell
    refine stackCell?_write_ne (hmoved _) _ fun hroot => ?_
    obtain rfl := cellAt?_counter hcell hroot hat
    rw [Cell.type, show f.types.graph.closure t = .ok t by simp [Types.Graph.closure, hint]] at hp
    cases hp
    rw [hint] at hnode
    cases hnode
  | removed hat hpointer =>
    refine stackCell?_write_ne (m := s.memory.erase _) hcell _ fun hroot => ?_
    cases cellAt?_counter hcell hroot hat
    rw [isPointer_int hint] at hpointer
    cases hpointer

end Counter

/-- Whether a number still lies before the end of a range, or at it. -/
def ahead (up : Bool) (k n : Int) : Bool := if up then k ≤ n else n ≤ k

def countOn (up : Bool) (k : Int) : Int := if up then k + 1 else k - 1

/-- How many numbers a range has. -/
def rangeLength (up : Bool) (m n : Int) : Nat := (if up then n - m + 1 else m - n + 1).toNat

/-- The number that the next test tries: the start, or one more or less than the variable holds. -/
def Due (f : Frame) (place : Nat) (i : Lexeme) (start : Expr) (up : Bool) (s : Situation) (k : Int) : Prop :=
  place ∉ s.looping ∧ evalExpr (f.env s.memory) start = .ok (.int k) ∨
    place ∈ s.looping ∧ ∃ a t j, s.memory.stackCell? i.text = some (.leaf a t (.int j)) ∧ countOn up j = k

section Test

variable {f : Frame} {s : Situation} {place : Nat} {item : Item} {i : Lexeme} {start stop : Expr} {up : Bool}
  {body : List Sentence} {a : Address} {t : TypeId} {w : Value} {k n : Int}

theorem compare_ahead (up : Bool) (k n : Int) :
    (if up then (Value.int k).lessEqual (.int n) else (Value.int k).moreEqual (.int n)) =
      .ok (ahead up k n) := by
  cases up with
  | true => exact Types.lessEqual_whole (v := .int n) rfl k
  | false =>
    rw [if_neg Bool.false_ne_true, Value.moreEqual, (Types.order_whole (v := .int n) rfl k).1]
    change Except.ok _ = _
    congr 1
    rcases Int.lt_trichotomy k n with h | rfl | h
    · simp [ahead, Int.compare_eq_lt.2 h, h]
    · simp [ahead]
    · simp [ahead, Int.compare_eq_gt.2 h, Int.le_of_lt h]

theorem writeVariable_int {m : Memory} (hcell : m.stackCell? i.text = some (.leaf a t w))
    (hint : f.types.graph.node t = .int) (k : Int) :
    writeVariable f ⟨i, []⟩ (.int k) m = (.ok (), m.write ⟨.stack i.text, []⟩ (.int k)) := by
  have hlocate : locate (f.env m) m ⟨i, []⟩ = .ok (⟨.stack i.text, []⟩, .leaf a t w) := by
    rw [locate, hcell]
    rfl
  have hadmits : f.types.graph.admits t (.int k) = .ok true := by
    simp [Types.Graph.admits, Types.Graph.admitsFrom, hint]
  rw [writeVariable, bind_apply, find_apply, hlocate]
  dsimp only
  rw [bind_apply, lift_apply, hadmits]
  rfl

theorem evaluate_ok {e : Expr} {v : Value} (h : evalExpr (f.env s.memory) e = .ok v) :
    evaluate f e s = (.ok v, { s with noted := s.noted ++ [(e, v)] }) := by
  rw [evaluate, bind_apply, get_apply]
  dsimp only
  rw [bind_apply, lift_apply, h]
  rfl

theorem nextCount_due (h : Due f place i start up s k) :
    ∃ noted, nextCount f place ⟨i, []⟩ start up s = (.ok (.int k), { s with noted := noted }) := by
  rw [nextCount, bind_apply, get_apply]
  dsimp only
  rcases h with ⟨hidle, hstart⟩ | ⟨hgoing, a, t, j, hcell, rfl⟩
  · rw [if_neg (by simpa using hidle)]
    exact ⟨_, evaluate_ok hstart⟩
  · have hread : readVariable f ⟨i, []⟩ s.memory = (.ok (.int j), s.memory) := by
      rw [readVariable, bind_apply, find_apply, locate, hcell]
      rfl
    rw [if_pos (by simpa using hgoing), bind_apply, onMemory, hread]
    refine ⟨s.noted, ?_⟩
    cases up <;> rfl

theorem test_eq (haction : item.action = .perform (.count ⟨i, []⟩ start stop up body))
    (hcell : s.memory.stackCell? i.text = some (.leaf a t w)) (hint : f.types.graph.node t = .int)
    (hdue : Due f place i start up s k) (hstop : evalExpr (f.env s.memory) stop = .ok (.int n)) :
    ∃ noted, step f place item s = if ahead up k n then
        (.ok item.inner, { s with
          memory := s.memory.write ⟨.stack i.text, []⟩ (.int k)
          looping := place :: s.looping.filter (· != place)
          noted := noted })
      else (.ok item.next, { s with looping := s.looping.filter (· != place), noted := noted }) := by
  obtain ⟨noted, hnext⟩ := nextCount_due hdue
  refine ⟨noted ++ [(stop, .int n)], ?_⟩
  rw [step, haction]
  dsimp only [perform]
  rw [bind_apply, hnext]
  dsimp only
  rw [bind_apply, evaluate_ok (s := { s with noted := noted }) hstop]
  dsimp only
  rw [bind_apply, lift_apply, compare_ahead]
  dsimp only [liftMisuse]
  cases ahead up k n with
  | false => rfl
  | true =>
    rw [if_pos rfl, if_pos rfl, bind_apply, onMemory, writeVariable_int hcell hint]
    rfl

end Test

section Rounds

variable (f : Frame) (items : Array Item) (home entry : Nat) (name : String)

/-- Steps from a place on that are all done, none of which sets the variable, until control is at the loop. -/
inductive Round : Nat → Situation → Situation → Prop
  | last {place : Nat} {item : Item} {s s' : Situation} (hitem : items[place]? = some item)
      (hstep : step f place item s = (.ok (some home), s')) (hsets : sets name item (some home) = false) :
      Round place s { s' with noted := [] }
  | more {place next : Nat} {item : Item} {s s₁ s' : Situation} (hitem : items[place]? = some item)
      (hstep : step f place item s = (.ok (some next), s₁)) (hsets : sets name item (some next) = false)
      (hnext : next ≠ home) (hrest : Round next { s₁ with noted := [] } s') : Round place s s'

/-- The tests that a loop comes to, the first and one after every round of its body, each with the situations
in which the body has started until then. -/
inductive Tested (s₀ : Situation) : List Situation → Situation → Prop
  | first : Tested s₀ [] s₀
  | again {starts : List Situation} {s b s' : Situation} (htested : Tested s₀ starts s)
      (htest : Goes f items 1 (some home) s (some entry) b) (hround : Round f items home name entry b s') :
      Tested s₀ (starts ++ [b]) s'

variable {f items home entry name} {place : Nat} {s s' : Situation}

theorem Round.goes (h : Round f items home name place s s') :
    ∃ n, Goes f items n (some place) s (some home) s' := by
  induction h with
  | last hitem hstep => exact ⟨1, .step hitem hstep (.stay _ _)⟩
  | more hitem hstep _ _ _ ih =>
    obtain ⟨n, hgoes⟩ := ih
    exact ⟨n + 1, .step hitem hstep hgoes⟩

theorem Tested.goes {starts : List Situation} (h : Tested f items home entry name s starts s') :
    ∃ n, Goes f items n (some home) s (some home) s' := by
  induction h with
  | first => exact ⟨0, .stay _ _⟩
  | again _ htest hround ih =>
    obtain ⟨n, hgoes⟩ := ih
    obtain ⟨k, hbody⟩ := hround.goes
    exact ⟨n + (1 + k), hgoes.trans (htest.trans hbody)⟩

theorem Round.keeps {p : Program} (sound : f.types.graph.Sound) (hf : FilledAll p.sentences)
    (h : Round f p.items.toArray home name place s s') (hplace : place ≠ home) {a : Address} {t : TypeId}
    {w : Value} (hint : f.types.graph.node t = .int) (hcell : s.memory.stackCell? name = some (.leaf a t w)) :
    s'.memory.stackCell? name = some (.leaf a t w) ∧ (home ∈ s'.looping ↔ home ∈ s.looping) := by
  induction h with
  | last hitem hstep hsets =>
    rw [List.getElem?_toArray] at hitem
    have hkept := step_counter sound hcell hint hstep hsets
    exact ⟨hkept, (step_looping hf hitem hstep).1 home (.inl hplace.symm)⟩
  | more hitem hstep hsets hnext _ ih =>
    rw [List.getElem?_toArray] at hitem
    have hkept := step_counter sound hcell hint hstep hsets
    obtain ⟨hkept', hlooping⟩ := ih hnext hkept
    exact ⟨hkept', hlooping.trans ((step_looping hf hitem hstep).1 home (.inl hplace.symm))⟩

end Rounds

section Range

variable {up : Bool} {k n : Int} {N : Nat}

theorem ahead_of_length (h : rangeLength up k n = N + 1) :
    ahead up k n = true ∧ rangeLength up (countOn up k) n = N := by
  cases up <;> simp [rangeLength, ahead, countOn] at h ⊢ <;> omega

theorem not_ahead_of_length (h : rangeLength up k n = 0) : ahead up k n = false := by
  cases up <;> simp [rangeLength, ahead] at h ⊢ <;> omega

theorem eq_of_length (h : rangeLength up k n = 1) : k = n := by
  cases up <;> simp [rangeLength] at h <;> omega

theorem countOn_add (up : Bool) (k : Int) (j : Nat) :
    (if up then countOn up k + j else countOn up k - j) =
      if up then k + (j + 1 : Nat) else k - (j + 1 : Nat) := by
  cases up <;> simp [countOn] <;> omega

end Range

theorem rounds_from {f : Frame} {p : Program} {home entry : Nat} {item : Item} {i : Lexeme} {start stop : Expr}
    {up : Bool} {body : List Sentence} {s₀ s : Situation} {a : Address} {t : TypeId} {w : Value} {k n : Int}
    (sound : f.types.graph.Sound) (hf : FilledAll p.sentences) (hitem : p.items[home]? = some item)
    (haction : item.action = .perform (.count ⟨i, []⟩ start stop up body)) (hentry : item.inner = some entry)
    (hint : f.types.graph.node t = .int)
    (hstop : ∀ starts s, Tested f p.items.toArray home entry i.text s₀ starts s →
      evalExpr (f.env s.memory) stop = .ok (.int n))
    (hbody : ∀ starts s b, Tested f p.items.toArray home entry i.text s₀ starts s →
      Goes f p.items.toArray 1 (some home) s (some entry) b →
      ∃ s', Round f p.items.toArray home i.text entry b s')
    (N : Nat) (hlength : rangeLength up k n = N) {starts : List Situation}
    (htested : Tested f p.items.toArray home entry i.text s₀ starts s)
    (hdue : Due f home i start up s k) (hcell : s.memory.stackCell? i.text = some (.leaf a t w)) :
    ∃ more s₁ s', Tested f p.items.toArray home entry i.text s₀ (starts ++ more) s₁ ∧
      Goes f p.items.toArray 1 (some home) s₁ item.next s' ∧ more.length = N ∧
      (∀ (j : Nat) b, more[j]? = some b →
        b.memory.stackCell? i.text = some (.leaf a t (.int (if up then k + j else k - j)))) ∧
      s'.memory.stackCell? i.text = some (.leaf a t (if N = 0 then w else .int n)) ∧ home ∉ s'.looping := by
  have hitem' : p.items.toArray[home]? = some item := by rwa [List.getElem?_toArray]
  obtain ⟨noted, htest⟩ := test_eq haction hcell hint hdue (hstop starts s htested)
  induction N generalizing k s w starts noted with
  | zero =>
    rw [not_ahead_of_length hlength, if_neg Bool.false_ne_true] at htest
    refine ⟨[], s, _, by rwa [List.append_nil], .step hitem' htest (.stay _ _), rfl, ?_, hcell, by simp⟩
    intro j b hb
    cases hb
  | succ N ih =>
    obtain ⟨hahead, hrest⟩ := ahead_of_length hlength
    rw [hahead, if_pos rfl, hentry] at htest
    have hgoes : Goes f p.items.toArray 1 (some home) s (some entry) _ := .step hitem' htest (.stay _ _)
    obtain ⟨s₁, hround⟩ := hbody starts s _ htested hgoes
    have hwritten : (s.memory.write ⟨.stack i.text, []⟩ (.int k)).stackCell? i.text =
        some (.leaf a t (.int k)) := by
      rw [stackCell?_write hcell, if_pos (Memory.Root.same_refl _)]
      rfl
    have hne : entry ≠ home := by
      rintro rfl
      have haround := (Syntax.program_nested hf hitem).inner _ hentry
      rw [haction] at haround
      exact List.ne_cons_self haround
    obtain ⟨hkept, hlooping⟩ := hround.keeps sound hf hne hint hwritten
    have htested₁ := htested.again hgoes hround
    have hdue₁ : Due f home i start up s₁ (countOn up k) :=
      .inr ⟨hlooping.2 List.mem_cons_self, a, t, k, hkept, rfl⟩
    obtain ⟨noted₁, htest₁⟩ := test_eq haction hkept hint hdue₁ (hstop _ s₁ htested₁)
    obtain ⟨more, s₂, s', hend, hexit, hmore, hvalues, hlast, hended⟩ :=
      ih hrest htested₁ hdue₁ hkept noted₁ htest₁
    rw [List.append_assoc] at hend
    refine ⟨_ :: more, s₂, s', hend, hexit, by rw [List.length_cons, hmore], ?_, ?_, hended⟩
    · intro j b hb
      cases j with
      | zero =>
        cases hb
        simpa using hwritten
      | succ j => rw [hvalues j b hb, countOn_add]
    · rw [hlast, if_neg (Nat.succ_ne_zero N)]
      split
      · rename_i hN
        rw [eq_of_length (hlength.trans (congrArg _ hN))]
      · rfl

/-- A counting loop of a program that was read, over a variable of whole numbers, that is not in progress and
starts at `m`. If at each test the bound is `n`, and each time the body starts it is gone through without a
fault and without setting the variable, then the loop comes to its end. Its body starts once for each number
from `m` to `n`, in this order, with the variable holding the number; afterwards the variable holds `n`, or
what it held if there was no number to go through, the loop is not in progress, and control is behind it. This
is what a run does, if the limit of steps allows it. -/
theorem counting_loop_covers_range {setting : Reading.Setting} {text : String} {p : Program} {f : Frame}
    (hread : (readProgram setting text).run {} = (.ok p, f.types)) {place : Nat} {item : Item}
    (hitem : p.items[place]? = some item) {i : Lexeme} {start stop : Expr} {up : Bool} {body : List Sentence}
    (haction : item.action = .perform (.count ⟨i, []⟩ start stop up body)) {entry : Nat}
    (hentry : item.inner = some entry) {s : Situation} (hidle : place ∉ s.looping) {a : Address} {t : TypeId}
    {old : Value} (hcell : s.memory.stackCell? i.text = some (.leaf a t old))
    (hint : f.types.graph.node t = .int) {m n : Int} (hstart : evalExpr (f.env s.memory) start = .ok (.int m))
    (hstop : ∀ starts s', Tested f p.items.toArray place entry i.text s starts s' →
      evalExpr (f.env s'.memory) stop = .ok (.int n))
    (hbody : ∀ starts s' b, Tested f p.items.toArray place entry i.text s starts s' →
      Goes f p.items.toArray 1 (some place) s' (some entry) b →
      ∃ s'', Round f p.items.toArray place i.text entry b s'') :
    ∃ starts s₁ s', Tested f p.items.toArray place entry i.text s starts s₁ ∧
      Goes f p.items.toArray 1 (some place) s₁ item.next s' ∧
      starts.length = (if up then n - m + 1 else m - n + 1).toNat ∧
      (∀ (k : Nat) b, starts[k]? = some b →
        b.memory.stackCell? i.text = some (.leaf a t (.int (if up then m + k else m - k)))) ∧
      s'.memory.stackCell? i.text = some (.leaf a t (if starts.isEmpty then old else .int n)) ∧
      place ∉ s'.looping ∧
      ∃ steps, ∀ c : Course Unit, c.situation = s →
        Types.exceeds f.limits.steps (c.steps + steps : Nat) = false →
        ∃ c', runFrom f {} p.items.toArray steps (some place) c = (.ok item.next, c') ∧ c'.situation = s' := by
  obtain ⟨starts, s₁, s', htested, hexit, hlength, hvalues, hlast, hended⟩ :=
    rounds_from (Reading.readProgram_sound hread).graph (Reading.readProgram_past hread).1 hitem haction hentry
      hint hstop hbody _ rfl .first (.inl ⟨hidle, hstart⟩) hcell
  refine ⟨starts, s₁, s', htested, hexit, hlength, hvalues, ?_, hended, ?_⟩
  · rw [hlast, ← hlength]
    cases starts <;> rfl
  · obtain ⟨n, hgoes⟩ := htested.goes
    refine ⟨n + 1, fun c hc hlimit => ?_⟩
    obtain ⟨c', hrun, hs', -⟩ := (hgoes.trans hexit).runFrom_ok hc hlimit
    exact ⟨c', hrun, hs'⟩

def twoRounds : String := "var i: int\nfor i := 1 to 2 do\nskip\nod\n"

theorem twoRounds_reads :
    passes (readProgram {} twoRounds) {} (fun p types =>
      let s := (runProgram ⟨types, {}, true⟩ {} p false 1 (.start none [] ())).2.situation
      match p.items, s.memory.stackCell? "i" with
      | [_, ⟨.perform (.count ⟨⟨"i", _⟩, []⟩ (.literal .integer ⟨"1", _⟩) (.literal .integer ⟨"2", _⟩) true _),
          none, some 2, _⟩, ⟨.perform (.skip _), some 1, _, _⟩], some (.leaf _ t _) =>
        s.looping == [] && (types.graph.node t matches .int)
      | _, _ => false) = true := by
  decide +kernel

theorem twoRounds_cover_range :
    ∃ p types, (readProgram {} twoRounds).run {} = (.ok p, types) ∧
      let f : Frame := ⟨types, {}, true⟩
      let s := (runProgram f {} p false 1 (.start none [] ())).2.situation
      ∃ starts s₁ s' a t, Tested f p.items.toArray 1 2 "i" s starts s₁ ∧
        Goes f p.items.toArray 1 (some 1) s₁ none s' ∧ starts.length = 2 ∧
        (∀ (k : Nat) b, starts[k]? = some b →
          b.memory.stackCell? "i" = some (.leaf a t (.int (1 + k)))) ∧
        s'.memory.stackCell? "i" = some (.leaf a t (.int 2)) ∧ 1 ∉ s'.looping := by
  obtain ⟨p, types, hread, hcheck⟩ := of_passes twoRounds_reads
  refine ⟨p, types, hread, ?_⟩
  dsimp only at hcheck ⊢
  split at hcheck
  · rename_i a t old hitems hcell
    rw [Bool.and_eq_true, beq_iff_eq] at hcheck
    have hint : types.graph.node t = .int := by
      have hnode := hcheck.2
      split at hnode
      · assumption
      · cases hnode
    have hloop : p.items[1]? = some _ := congrArg (·[1]?) hitems
    have hskip : p.items.toArray[2]? = some _ := congrArg (·.toArray[2]?) hitems
    obtain ⟨starts, s₁, s', htested, hexit, hlength, hvalues, hlast, hended, -⟩ :=
      counting_loop_covers_range (f := ⟨types, {}, true⟩) hread hloop rfl rfl
        (by rw [hcheck.1]; exact List.not_mem_nil) hcell hint (m := 1) (n := 2)
        (by simp [evalExpr, literalValue, show Number.readInt? "1" = some 1 by decide])
        (by simp [evalExpr, literalValue, show Number.readInt? "2" = some 2 by decide])
        (fun _ _ _ _ _ => ⟨_, .last hskip rfl rfl⟩)
    refine ⟨starts, s₁, s', a, t, htested, hexit, hlength, hvalues, ?_, hended⟩
    rw [hlast]
    cases starts with
    | nil => cases hlength
    | cons => rfl
  · cases hcheck

end Chalkboard.Run
