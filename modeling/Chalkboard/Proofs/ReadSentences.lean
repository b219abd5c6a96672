import Chalkboard.Proofs.Jumps
import Chalkboard.Reading.Program

/-! What a sentence that was read owes to its tokens. The reader takes a word for a constant only where a
constant of that name is known, it comes to the lines of sentences in their order, and it lets no loop through
that has nothing to repeat. -/

namespace Chalkboard.Syntax

mutual

/-- The constants written in an expression, indexes included. -/
def Expr.constants : Expr → List Lexeme
  | .literal kind word => if kind = .enum then [word] else []
  | .access _ path => pathConstants path
  | .unary _ operand => operand.constants
  | .binary left _ right => left.constants ++ right.constants
  | .lazy body => body.constants
  | .stray .. => []

def pathConstants : List Step → List Lexeme
  | [] => []
  | .index indexes :: path => itemConstants indexes ++ pathConstants path
  | .deref :: path => pathConstants path
  | .field _ :: path => pathConstants path

def itemConstants : List Expr → List Lexeme
  | [] => []
  | e :: es => e.constants ++ itemConstants es

end

def Variable.constants (v : Variable) : List Lexeme := pathConstants v.path

mutual

/-- The constants written in a sentence and in the sentences inside it. -/
def Sentence.constants : Sentence → List Lexeme
  | .skip _ => []
  | .assign place value => place.constants ++ value.constants
  | .call _ _ place => place.constants
  | .branch guard yes no => guard.constants ++ (blockConstants yes ++ blockConstants no)
  | .loop guard body => guard.constants ++ blockConstants body
  | .count place start stop _ body =>
    place.constants ++ (start.constants ++ (stop.constants ++ blockConstants body))

def blockConstants : List Sentence → List Lexeme
  | [] => []
  | s :: rest => s.constants ++ blockConstants rest

end

mutual

/-- The lines of a sentence and of the sentences inside it, in their order. -/
def Sentence.lines : Sentence → List Nat
  | .branch guard yes no => guard.line :: (blockLines yes ++ blockLines no)
  | .loop guard body => guard.line :: blockLines body
  | .count place _ _ _ body => place.line :: blockLines body
  | s => [s.line]

def blockLines : List Sentence → List Nat
  | [] => []
  | s :: rest => s.lines ++ blockLines rest

end

/-- The constants written anywhere in a program. -/
def Program.constants (p : Program) : List Lexeme :=
  (p.declarations.flatMap fun d => d.place.constants) ++ blockConstants p.sentences

theorem pathConstants_append (path steps : List Step) :
    pathConstants (path ++ steps) = pathConstants path ++ pathConstants steps := by
  induction path with
  | nil => rfl
  | cons step path ih => cases step <;> simp [pathConstants, ih]

end Chalkboard.Syntax

namespace Chalkboard.Reading

open Syntax (Lexeme Expr Variable Step Sentence LiteralKind pathConstants itemConstants blockConstants blockLines)
open Run (Filled FilledAll)

section Yields

variable {α β : Type} {P : β → Cursor → Prop} {Q : α → Cursor → Prop} {c : Cursor} {k : α → Read β} {m : Read α}

/-- The cursor goes on to the next token. -/
def Steps (c c' : Cursor) : Prop := ∃ spot, advance spot c = .ok ((), c')

/-- Whatever is read from a cursor has a property, together with the cursor then. -/
def Yields (m : Read β) (c : Cursor) (P : β → Cursor → Prop) : Prop := ∀ b c', m c = .ok (b, c') → P b c'

theorem Yields.pure {b : β} (h : P b c) : Yields (Pure.pure b) c P := by
  intro b' c' e
  cases e
  exact h

theorem Yields.bind (hm : Yields m c Q) (hk : ∀ a c', Q a c' → Yields (k a) c' P) : Yields (m >>= k) c P := by
  intro b c' e
  obtain ⟨⟨a, c₁⟩, hr, e⟩ := Effects.except_bind_ok (x := m c) (f := fun x => k x.1 x.2) e
  exact hk a c₁ (hm a c₁ hr) b c' e

theorem Yields.then (hk : ∀ a c', Yields (k a) c' P) : Yields (m >>= k) c P :=
  Yields.bind (Q := fun _ _ => True) (fun _ _ _ => trivial) fun a c' _ => hk a c'

theorem Yields.ite {p : Prop} [Decidable p] {m n : Read β} (hm : Yields m c P) (hn : Yields n c P) :
    Yields (if p then m else n) c P := by
  split
  · exact hm
  · exact hn

theorem Yields.never (h : ∀ a c', m c ≠ .ok (a, c')) : Yields (m >>= k) c P :=
  Yields.bind (Q := fun _ _ => False) h fun _ _ => False.elim

theorem refuse_yields : Yields (refuse : Read β) c P := by
  intro b c' e
  cases e

theorem Yields.look {k : Token → Read β} (h : Yields (k c.look) c P) : Yields (Reading.look >>= k) c P := h

theorem Yields.rounds {k : Nat → Read β} (h : ∀ fuel, Yields (k fuel) c P) : Yields (Reading.rounds >>= k) c P := h _

theorem Yields.lift {r : Except Fault α} (hk : ∀ a, Yields (k a) c P) : Yields ((liftM r : Read α) >>= k) c P := by
  refine Yields.bind (Q := fun _ c' => c' = c) (fun _ c' e => ?_) fun a _ hc => hc ▸ hk a
  cases r <;> cases e
  rfl

theorem Yields.nesting {k : Read β} {calls : Nat} (h : Yields k c P) :
    Yields (do nesting calls; k) c P := by
  rw [Reading.nesting]
  split
  · exact h
  · exact fun a c' hdone => by cases hdone

theorem Yields.advance {spot : Spot} {k : Unit → Read β} (h : ∀ c', Steps c c' → Yields (k ()) c' P) :
    Yields (Reading.advance spot >>= k) c P :=
  Yields.bind (Q := fun _ c' => Steps c c') (fun _ _ e => ⟨spot, e⟩) fun _ => h

theorem Yields.expect {kind : Terminal} {spot : Spot} {k : Token → Read β}
    (h : ∀ c', Steps c c' → Yields (k c.look) c' P) : Yields (Reading.expect kind spot >>= k) c P := by
  refine Yields.bind (Q := fun t c' => t = c.look ∧ Steps c c') ?_ fun t c' ⟨ht, hstep⟩ => ht ▸ h c' hstep
  exact .look (.ite (.advance fun c' hstep => .pure ⟨rfl, hstep⟩) refuse_yields)

end Yields

/-- The cursor goes on from token to token; the lines are those of some of the tokens it comes to. -/
inductive Past : Cursor → List Nat → Cursor → Prop
  | stay {c : Cursor} : Past c [] c
  | note {c c' : Cursor} {lines : List Nat} (h : Past c lines c') : Past c (c.look.line :: lines) c'
  | step {c c₁ c' : Cursor} {lines : List Nat} (hstep : Steps c c₁) (h : Past c₁ lines c') : Past c lines c'

theorem Past.append {c c₁ c' : Cursor} {lines more : List Nat} (h : Past c lines c₁) (h' : Past c₁ more c') :
    Past c (lines ++ more) c' := by
  induction h with
  | stay => exact h'
  | note _ ih => exact (ih h').note
  | step hstep _ ih => exact .step hstep (ih h')

theorem Past.skip {c c' : Cursor} {lines : List Nat} (h : Past c lines c') : Past c [] c' := by
  induction h with
  | stay => exact .stay
  | note _ ih => exact ih
  | step hstep _ ih => exact .step hstep ih

variable {scope : Scope} {c c' c₁ : Cursor} {lines more : List Nat} {words others : List Lexeme}

/-- What was read on the way from one cursor to another: words that stand for constants, and lines. -/
structure Took (scope : Scope) (c : Cursor) (words : List Lexeme) (lines : List Nat) (c' : Cursor) : Prop where
  known : ∀ word ∈ words, word.text ∈ scope.constants
  past : Past c lines c'

namespace Took

theorem stay : Took scope c [] [] c := ⟨fun _ h => absurd h List.not_mem_nil, .stay⟩

theorem note (h : Took scope c words lines c') : Took scope c words (c.look.line :: lines) c' :=
  ⟨h.known, h.past.note⟩

theorem step (hstep : Steps c c₁) (h : Took scope c₁ words lines c') : Took scope c words lines c' :=
  ⟨h.known, .step hstep h.past⟩

theorem append (h : Took scope c words lines c₁) (h' : Took scope c₁ others more c') :
    Took scope c (words ++ others) (lines ++ more) c' :=
  ⟨fun word hword => (List.mem_append.1 hword).elim (h.known word) (h'.known word), h.past.append h'.past⟩

theorem go (h : Took scope c words lines c₁) (hstep : Steps c₁ c') : Took scope c words lines c' :=
  ⟨h.known, by simpa using h.past.append (.step hstep .stay)⟩

theorem skip (h : Took scope c words lines c') : Took scope c words [] c' := ⟨h.known, h.past.skip⟩

end Took

section Expressions

variable {e : Expr} {item operand : Read Expr} {v : Variable}

/-- Reads an expression, and comes to its line. -/
def TakesExpr (scope : Scope) (m : Read Expr) : Prop :=
  ∀ c, Yields m c fun e c' => Took scope c e.constants [e.line] c'

def TakesVariable (scope : Scope) (m : Read Variable) : Prop :=
  ∀ c, Yields m c fun v c' => Took scope c v.constants [v.line] c'

theorem readLiteral_takes {kind : LiteralKind} (h : kind ≠ .enum) : TakesExpr scope (readLiteral kind) :=
  fun _ => .look (.advance fun _ hstep => .pure ⟨by simp [Expr.constants, h], .note (.step hstep .stay)⟩)

theorem readConstant_takes : TakesExpr scope (readConstant scope) := by
  refine fun c => .look ?_
  split
  · rename_i hknown
    exact .look (.advance fun c' hstep => .pure
      ⟨by simpa [Expr.constants, Token.lexeme] using hknown, .note (.step hstep .stay)⟩)
  · intro e c' hread
    cases hread

theorem readInt_takes : TakesExpr scope readInt :=
  fun c => .look (.lift fun _ => readLiteral_takes (by decide) c)

theorem readChar_takes : TakesExpr scope readChar :=
  fun _ => .advance fun _ h₁ => .look (.advance fun _ h₂ => .advance fun _ h₃ =>
    .pure (.step h₁ (.note (.go (.go .stay h₂) h₃))))

theorem environmentLiteral_takes {type : String} {word : Lexeme} (h : environmentLiteral type word = .ok e) :
    e.constants = [] ∧ e.line = word.line := by
  unfold environmentLiteral at h
  split at h
  · obtain ⟨_, -, hpure⟩ := Effects.except_bind_ok h
    cases hpure
    exact ⟨rfl, rfl⟩
  · split at h <;> cases h
    exact ⟨rfl, rfl⟩
  · split at h <;> cases h
    exact ⟨rfl, rfl⟩
  · cases h

theorem readGetenv_takes : TakesExpr scope (readGetenv scope) := by
  refine fun c => .advance fun _ h₁ => .advance fun _ h₂ => .advance fun c₃ h₃ => .look (.advance fun _ h₄ =>
    .advance fun _ h₅ => .advance fun _ h₆ => .look (.advance fun _ h₇ => .advance fun c₈ h₈ => ?_))
  split
  · intro e c' hread
    obtain ⟨_, hliteral, hpure⟩ := Effects.except_bind_ok (f := fun e => .ok (e, c₈)) hread
    cases hpure
    obtain ⟨hconstants, hline⟩ := environmentLiteral_takes hliteral
    rw [hconstants, hline]
    exact .step h₁ (.step h₂ (.step h₃ (.note (.go (.go (.go (.go (.go .stay h₄) h₅) h₆) h₇) h₈))))
  · intro e c' hread
    cases hread

theorem readItems_takes (h : TakesExpr scope item) (fuel : Nat) (c : Cursor) :
    Yields (readItems item fuel) c fun es c' => Took scope c (itemConstants es) [] c' := by
  induction fuel generalizing c with
  | zero => exact refuse_yields
  | succ fuel ih =>
    refine (h c).bind fun e c₁ he => .look (.ite ?_ (.pure (.append (.skip he) .stay)))
    exact .advance fun c₂ h₂ => (ih c₂).bind fun es _ hes => .pure (.append (.go (.skip he) h₂) hes)

theorem Took.push {step : Step} (hv : Took scope c v.constants [v.line] c₁)
    (hstep : Took scope c₁ (pathConstants [step]) [] c') :
    Took scope c (v.push step).constants [(v.push step).line] c' := by
  rw [Variable.constants, Variable.push, Syntax.pathConstants_append]
  exact hv.append hstep

theorem readSteps_takes (h : TakesExpr scope item) (fuel : Nat) (hv : Took scope c v.constants [v.line] c₁) :
    Yields (readSteps item fuel v) c₁ fun v c' => Took scope c v.constants [v.line] c' := by
  induction fuel generalizing v c₁ with
  | zero => exact .pure hv
  | succ fuel ih =>
    refine .look ?_
    split
    · refine .advance fun c₂ h₂ => (readItems_takes h fuel c₂).bind fun indexes c₃ hindexes => ?_
      refine .expect fun _ h₄ => ih ?_
      exact hv.push (.go (.step h₂ (.append hindexes .stay)) h₄)
    · exact .advance fun _ h₂ => .expect fun _ h₃ => ih (.push hv (.go (.go .stay h₂) h₃))
    · exact .advance fun _ h₂ => .expect fun _ h₃ => ih (.push (.push hv .stay) (.go (.go .stay h₂) h₃))
    · exact .pure hv

theorem readChain_takes {op : Terminal} (h : TakesExpr scope operand) (fuel operators : Nat)
    (he : Took scope c e.constants [e.line] c₁) :
    Yields (readChain op operand fuel operators e) c₁ fun e c' => Took scope c e.constants [e.line] c' := by
  induction fuel generalizing operators e c₁ with
  | zero => exact .nesting (.pure he)
  | succ fuel ih =>
    refine .look (.ite ?_ (.nesting (.pure he)))
    exact .advance fun c₂ h₂ => (h c₂).bind fun right _ hright => ih _ (.append (.go he h₂) (.skip hright))

theorem readLevels_takes (h : TakesExpr scope operand) (fuel : Nat) (ops : List Terminal) :
    TakesExpr scope (readLevels operand fuel ops) := by
  induction ops with
  | nil => exact h
  | cons op ops ih => exact fun c => (ih c).bind fun e _ he => readChain_takes ih fuel 0 he

theorem readPrimary_readOperand_takes (scope : Scope) (fuel : Nat) :
    TakesVariable scope (readPrimary scope fuel) ∧ TakesExpr scope (readOperand scope fuel) := by
  induction fuel with
  | zero => exact ⟨fun _ => refuse_yields, fun _ => refuse_yields⟩
  | succ fuel ih =>
    obtain ⟨hprimary, hoperand⟩ := ih
    have hinner := readLevels_takes hoperand fuel levels
    have hsteps {v : Variable} {c c₁ : Cursor} (hv : Took scope c v.constants [v.line] c₁) :
        Yields (do return (← readSteps (readLevels (readOperand scope fuel) fuel levels) fuel v).toExpr) c₁
          fun e c' => Took scope c e.constants [e.line] c' :=
      (readSteps_takes hinner fuel hv).bind fun v _ hv => .pure hv
    refine ⟨fun c => .look ?_, fun c => .look ?_⟩
    · split
      · exact .advance fun _ h₁ => .pure (.note (.go .stay h₁))
      · exact .advance fun c₁ h₁ => (hprimary c₁).bind fun v _ hv => .pure (.step h₁ (.push hv .stay))
      · exact .advance fun c₁ h₁ => (hprimary c₁).bind fun v _ hv => (readSteps_takes hinner fuel hv).bind
          fun v _ hv => .expect fun _ h₃ => .pure (.step h₁ (.go hv h₃))
      · exact refuse_yields
    · split
      · exact .advance fun c₁ h₁ => (hoperand c₁).bind fun e _ he => .pure (.step h₁ he)
      · exact readInt_takes c
      iterate 5 exact readLiteral_takes (by decide) c
      · exact readConstant_takes c
      · exact readChar_takes c
      · exact readGetenv_takes c
      · exact .advance fun _ h₁ => hsteps (.note (.go .stay h₁))
      · exact .advance fun c₁ h₁ => (hprimary c₁).bind fun v _ hv => hsteps (.step h₁ (.push hv .stay))
      · refine .advance fun c₁ h₁ => (hinner c₁).bind fun e _ he => ?_
        split
        · exact .expect fun _ h₂ => hsteps (v := ⟨_, _⟩) (.step h₁ (.go he h₂))
        · exact .expect fun _ h₂ => .pure (.step h₁ (.go he h₂))
      · exact refuse_yields

theorem readExpr_takes (scope : Scope) : TakesExpr scope (readExpr scope) :=
  fun c => .rounds fun fuel => readLevels_takes (readPrimary_readOperand_takes scope fuel).2 fuel levels c

theorem readVariable_takes (scope : Scope) : TakesVariable scope (readVariable scope) :=
  fun c => .rounds fun fuel => ((readPrimary_readOperand_takes scope fuel).1 c).bind fun _ _ hv =>
    readSteps_takes (readLevels_takes (readPrimary_readOperand_takes scope fuel).2 fuel levels) fuel hv

end Expressions

section Blocks

variable {block : Read (List Sentence)}

/-- Reads a sentence whose loops are not empty, and comes to the lines of all that is in it. -/
def TakesSentence (scope : Scope) (m : Read Sentence) : Prop :=
  ∀ c, Yields m c fun s c' => Filled s ∧ Took scope c s.constants s.lines c'

def TakesBlock (scope : Scope) (m : Read (List Sentence)) : Prop :=
  ∀ c, Yields m c fun ss c' => FilledAll ss ∧ Took scope c (blockConstants ss) (blockLines ss) c'

theorem readBlock_takes {sentence : Read Sentence} (h : TakesSentence scope sentence) (fuel : Nat) :
    TakesBlock scope (readBlock sentence fuel) := by
  induction fuel with
  | zero => exact fun _ => .pure ⟨trivial, .stay⟩
  | succ fuel ih =>
    refine fun c => .look (.ite ?_ (.pure ⟨trivial, .stay⟩))
    refine (h c).bind fun s _ ⟨hfilled, hs⟩ => .look (.ite ?_ (.pure ⟨⟨hfilled, trivial⟩, .append hs .stay⟩))
    exact .advance fun c₂ h₂ => (ih c₂).bind fun rest _ ⟨hrest, htook⟩ =>
      .pure ⟨⟨hfilled, hrest⟩, .append (.go hs h₂) htook⟩

theorem needSentences_yields (line : Nat) (body : List Sentence) (c : Cursor) :
    Yields (needSentences line body) c fun _ c' => body ≠ [] ∧ c' = c := by
  intro _ c' e
  cases body with
  | nil => cases e
  | cons s rest =>
    cases e
    exact ⟨List.cons_ne_nil _ _, rfl⟩

theorem readCall_takes (builtin : Syntax.Builtin) : TakesSentence scope (readCall scope builtin) :=
  fun _ => .look (.advance fun _ h₁ => .advance fun c₂ h₂ => (readVariable_takes scope c₂).bind
    fun _ _ hv => .expect fun _ h₃ => .pure ⟨trivial, .note (.step h₁ (.step h₂ (.go (.skip hv) h₃)))⟩)

theorem readBranch_takes (h : TakesBlock scope block) : TakesSentence scope (readBranch scope block) := by
  refine fun c => .advance fun c₁ h₁ => (readExpr_takes scope c₁).bind fun guard _ hguard => .expect fun c₂ h₂ =>
    (h c₂).bind fun yes c₃ ⟨hyes, htook⟩ => .look ?_
  have hfi (no : List Sentence) (c₅ : Cursor)
      (hno : FilledAll no ∧ Took scope c₃ (blockConstants no) (blockLines no) c₅) : Yields (do
        let _ ← expect (.word .fi) .afterSentence
        nesting (max (Syntax.blockTails yes) (Syntax.blockTails no))
        return Sentence.branch guard yes no) c₅ fun s c' => Filled s ∧ Took scope c s.constants s.lines c' :=
    .expect fun _ h₆ => .nesting <| .pure
      ⟨⟨hyes, hno.1⟩, .step h₁ (.append (.go hguard h₂) (.append htook (.go hno.2 h₆)))⟩
  refine .ite (.advance fun c₄ h₄ => (h c₄).bind fun no c₅ ⟨hno, hmore⟩ => hfi no c₅ ⟨hno, .step h₄ hmore⟩) ?_
  exact Yields.bind (.pure ⟨trivial, .stay⟩) hfi

theorem readLoop_takes (h : TakesBlock scope block) : TakesSentence scope (readLoop scope block) := by
  refine fun c => .advance fun c₁ h₁ => (readExpr_takes scope c₁).bind fun guard _ hguard => .expect fun c₂ h₂ =>
    (h c₂).bind fun body _ ⟨hbody, htook⟩ => .expect fun c₄ h₄ => (needSentences_yields _ _ c₄).bind ?_
  rintro _ _ ⟨hne, rfl⟩
  exact .pure ⟨⟨hne, hbody⟩, .step h₁ (.append (.go hguard h₂) (.go htook h₄))⟩

theorem readCount_takes (h : TakesBlock scope block) : TakesSentence scope (readCount scope block) := by
  refine fun c => .advance fun c₁ h₁ => .look (.advance fun _ h₂ => .advance fun c₃ h₃ =>
    (readExpr_takes scope c₃).bind fun start c₄ hstart => .look (.look ?_))
  have hrest (up : Bool) : Yields (do
      advance .expression
      let stop ← readExpr scope
      let _ ← expect (.word .doWord) .doBlock
      let body ← block
      let _ ← expect (.word .od) .afterSentence
      needSentences c₁.look.line body
      return Sentence.count ⟨c₁.look.lexeme, []⟩ start stop up body) c₄
        fun s c' => Filled s ∧ Took scope c s.constants s.lines c' := by
    refine .advance fun c₅ h₅ => (readExpr_takes scope c₅).bind fun stop _ hstop => .expect fun c₆ h₆ =>
      (h c₆).bind fun body _ ⟨hbody, htook⟩ => .expect fun c₈ h₈ => (needSentences_yields _ _ c₈).bind ?_
    rintro _ _ ⟨hne, rfl⟩
    exact .pure ⟨⟨hne, hbody⟩, .step h₁ (.note (.step h₂ (.step h₃ (.append (.skip hstart)
      (.step h₅ (.append (.go (.skip hstop) h₆) (.go htook h₈)))))))⟩
  exact .ite (.never refuse_yields) (hrest _)

theorem readSentence_takes (scope : Scope) (fuel : Nat) : TakesSentence scope (readSentence scope fuel) := by
  induction fuel with
  | zero => exact fun _ => refuse_yields
  | succ fuel ih =>
    have hblock := readBlock_takes ih fuel
    refine fun c => .look ?_
    split
    · exact .advance fun _ h₁ => .pure ⟨trivial, .note (.go .stay h₁)⟩
    · exact readCall_takes .alloc c
    · exact readCall_takes .free c
    · exact readBranch_takes hblock c
    · exact readLoop_takes hblock c
    · exact readCount_takes hblock c
    · exact (readVariable_takes scope c).bind fun _ _ hv => .expect fun c₂ h₂ => (readExpr_takes scope c₂).bind
        fun _ _ he => .pure ⟨trivial, .append (.go hv h₂) (.skip he)⟩

theorem readSentences_takes (scope : Scope) : TakesBlock scope (readSentences scope) :=
  fun c => .rounds fun fuel => readBlock_takes (readSentence_takes scope fuel) fuel c

end Blocks

end Chalkboard.Reading
