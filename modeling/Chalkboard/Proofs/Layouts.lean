import Chalkboard.Proofs.Assignments

/-! How blocks are written, and how a block is read from its sentences. A line end is a separator where one
is looked for and a blank elsewhere, so a sentence is described by what may stand behind it, and a block
by the word that closes it. -/

namespace Chalkboard.Syntax

mutual

def Sentence.unlined : Sentence → Sentence
  | .skip _ => .skip 0
  | .assign place value => .assign place.unlined value.unlined
  | .call builtin _ place => .call builtin 0 place.unlined
  | .branch guard yes no => .branch guard.unlined (unlinedBlock yes) (unlinedBlock no)
  | .loop guard body => .loop guard.unlined (unlinedBlock body)
  | .count place start stop up body =>
    .count place.unlined start.unlined stop.unlined up (unlinedBlock body)

def unlinedBlock : List Sentence → List Sentence
  | [] => []
  | sentence :: block => sentence.unlined :: unlinedBlock block

end

mutual

/-- How many sentences there are in a sentence, with itself. -/
def Sentence.size : Sentence → Nat
  | .branch _ yes no => blockSize yes + blockSize no + 1
  | .loop _ body => blockSize body + 1
  | .count _ _ _ _ body => blockSize body + 1
  | _ => 1

def blockSize : List Sentence → Nat
  | [] => 0
  | sentence :: block => sentence.size + blockSize block

end

theorem Sentence.size_pos (sentence : Sentence) : 0 < sentence.size := by
  cases sentence <;> simp [Sentence.size]

mutual

theorem Sentence.tails_unlined : ∀ sentence : Sentence, sentence.unlined.tails = sentence.tails
  | .skip _ => rfl
  | .assign .. => rfl
  | .call .. => rfl
  | .branch _ yes no => by
    rw [Sentence.unlined, Sentence.tails, Sentence.tails, blockTails_unlined, blockTails_unlined]
  | .loop .. => rfl
  | .count .. => rfl

theorem blockTails_unlined : ∀ block : List Sentence, blockTails (unlinedBlock block) = blockTails block
  | [] => rfl
  | sentence :: block => by
    have hempty : (unlinedBlock block).isEmpty = block.isEmpty := by cases block <;> rfl
    rw [unlinedBlock, blockTails, blockTails, hempty, Sentence.tails_unlined, blockTails_unlined]

end

theorem blockTails_congr {block block' : List Sentence} (h : unlinedBlock block' = unlinedBlock block) :
    blockTails block' = blockTails block := by
  rw [← blockTails_unlined, h, blockTails_unlined]

end Chalkboard.Syntax

namespace Chalkboard.Reading

open Syntax (Expr Variable Step Sentence unlinedBlock blockSize blockTails)

/-- Blanks between tokens. -/
structure Gap where
  chars : List Char
  blank : chars.all isBlank = true := by decide

/-- Blanks that part two words. -/
structure Space extends Gap where
  wide : chars ≠ [] := by decide

/-- What separates two sentences: a semicolon, or a line end right behind the last token. -/
inductive Break where
  | semicolon (before : Nat) (behind : Gap)
  | newline (carriage : Bool) (behind : Gap)

def Break.text : Break → List Char
  | semicolon before behind => List.replicate before ' ' ++ ';' :: behind.chars
  | newline true behind => '\r' :: '\n' :: behind.chars
  | newline false behind => '\n' :: behind.chars

/-- How a sentence is laid out. -/
structure Style where
  separator : Break
  /-- Whether it is separated even if it is the last of its block. -/
  final : Bool
  /-- Before its first and its second block. -/
  opening : Space
  middle : Space
  /-- Whether an empty second block is written. -/
  emptyElse : Bool

/-- A style for each sentence. A sentence is found by the turns that lead to it: in a block to its first
sentence or to the others, in a sentence to its first or its second block. -/
abbrev Layout := List Bool → Style

def Layout.first (layout : Layout) : Layout := fun turns => layout (false :: turns)

def Layout.second (layout : Layout) : Layout := fun turns => layout (true :: turns)

def joined : List String → List Char
  | [] => []
  | w :: words => w.toList ++ spaced words

mutual

def sentenceText (layout : Layout) : Sentence → List Char
  | .skip _ => joined ["skip"]
  | .assign place value => joined (place.words ++ ":=" :: value.words)
  | .call builtin _ place => joined (builtin.text :: "(" :: place.words ++ [")"])
  | .branch guard yes no =>
    joined ("if" :: guard.words ++ ["then"]) ++ (layout []).opening.chars ++
      blockText layout.first [' '] yes ++
      (if no.isEmpty && !(layout []).emptyElse then []
        else "else".toList ++ (layout []).middle.chars ++ blockText layout.second [' '] no) ++
      "fi".toList
  | .loop guard body =>
    joined ("while" :: guard.words ++ ["do"]) ++ (layout []).opening.chars ++
      blockText layout.first [' '] body ++ "od".toList
  | .count place start stop up body =>
    joined ("for" :: place.name.text :: ":=" :: start.words ++
        (if up then "to" else "downto") :: stop.words ++ ["do"]) ++
      (layout []).opening.chars ++ blockText layout.first [' '] body ++ "od".toList

/-- A block, and what is written behind its last sentence if that is not separated. -/
def blockText (layout : Layout) (last : List Char) : List Sentence → List Char
  | [] => []
  | [sentence] => sentenceText layout.first sentence ++
      if (layout [false]).final then (layout [false]).separator.text else last
  | sentence :: block => sentenceText layout.first sentence ++ (layout [false]).separator.text ++
      blockText layout.second last block

end

def laidOut (layout : Layout) (block : List Sentence) : String :=
  String.ofList (blockText layout [] block)

def keywords : List String :=
  ["enumerate", "pointer", "getenv", "downto", "alloc", "array", "false", "tuple", "while", "else", "free",
    "null", "skip", "then", "true", "type", "end", "for", "inf", "var", "do", "fi", "if", "od", "of", "to"]

def isVariable (constants : List String) (v : Variable) : Bool :=
  isName v.name.text && !keywords.contains v.name.text && spellablePath constants v.path

mutual

/-- Sentences that can be written. A loop repeats something, and it counts in a variable without steps; not
too many branchings end in one another. -/
def spellableSentence (constants : List String) : Sentence → Bool
  | .skip _ => true
  | .assign place value => isVariable constants place && spellable constants value
  | .call _ _ place => isVariable constants place
  | .branch guard yes no =>
    spellable constants guard && spellableBlock constants yes && spellableBlock constants no &&
      decide (max (blockTails yes) (blockTails no) ≤ safeDepth)
  | .loop guard body => spellable constants guard && !body.isEmpty && spellableBlock constants body
  | .count place start stop _ body =>
    isVariable constants place && place.path.isEmpty && spellable constants start &&
      spellable constants stop && !body.isEmpty && spellableBlock constants body

def spellableBlock (constants : List String) : List Sentence → Bool
  | [] => true
  | sentence :: block => spellableSentence constants sentence && spellableBlock constants block

end

section Breaks

variable {rest tail gap left : List Char} {spot : Spot}

def Unbroken (cs : List Char) : Prop := cs.head? ≠ some '\n' ∧ cs.head? ≠ some '\r'

variable {cs : List Char}

theorem Unbroken.append (h : Unbroken cs) (htail : Unbroken tail) : Unbroken (cs ++ tail) := by
  cases cs with
  | nil => exact htail
  | cons c cs => exact h

theorem Parted.append (h : Parted cs) (hrest : Parted rest) : Parted (cs ++ rest) := by
  cases cs with
  | nil => exact hrest
  | cons c cs => exact h

theorem Space.parted (space : Space) (rest : List Char) : Parted (space.chars ++ rest) := by
  obtain ⟨⟨chars, blank⟩, wide⟩ := space
  cases chars with
  | nil => exact absurd rfl wide
  | cons c cs =>
    have hc : isBlank c = true := by
      rw [List.all_cons, Bool.and_eq_true] at blank
      exact blank.1
    refine .cons ?_ _
    simp only [isBlank, Bool.or_eq_true, beq_iff_eq] at hc
    simp only [stops, List.mem_cons]
    tauto

theorem Break.parted (b : Break) (rest : List Char) : Parted (b.text ++ rest) := by
  rcases b with ⟨_ | n, behind⟩ | ⟨_ | _, behind⟩ <;> exact .cons (by decide) _

theorem lineEnds_none (hline : ∀ r, cs ≠ '\n' :: r) (hreturn : ∀ r, cs ≠ '\r' :: '\n' :: r) :
    lineEnds cs = ([], cs) := by
  unfold lineEnds
  split
  · exact absurd rfl (hreturn _)
  · exact absurd rfl (hline _)
  · rfl

theorem separators_lineEnds {taken : List Char} {c : Char} (h : lineEnds cs = (c :: taken, rest)) :
    separators cs = some (c :: taken, rest) := by
  unfold separators
  split
  · rw [lineEnds_none (by simp) (by simp)] at h
    cases h
  · rw [h]

theorem lineEnds_gap (htail : Unbroken tail) : (gap : List Char) → gap.all isBlank = true →
    ∃ taken behind, gap = taken ++ behind ∧ lineEnds (gap ++ tail) = (taken, behind ++ tail)
  | [], _ => by
    refine ⟨[], [], rfl, lineEnds_none ?_ ?_⟩
    · rintro r rfl
      exact htail.1 rfl
    · rintro r rfl
      exact htail.2 rfl
  | c :: gap, hgap => by
    rw [List.all_cons, Bool.and_eq_true] at hgap
    by_cases hline : c = '\n'
    · subst hline
      obtain ⟨taken, behind, rfl, htaken⟩ := lineEnds_gap htail gap hgap.2
      exact ⟨'\n' :: taken, behind, rfl, by simp only [List.cons_append, lineEnds, htaken]⟩
    · by_cases hreturn : c = '\r' ∧ gap.head? = some '\n'
      · obtain ⟨rfl, hhead⟩ := hreturn
        cases gap with
        | nil => cases hhead
        | cons d gap =>
          cases hhead
          obtain ⟨taken, behind, rfl, htaken⟩ := lineEnds_gap htail gap (by
            have hall := hgap.2
            rw [List.all_cons, Bool.and_eq_true] at hall
            exact hall.2)
          exact ⟨'\r' :: '\n' :: taken, behind, rfl, by simp only [List.cons_append, lineEnds, htaken]⟩
      · refine ⟨[], c :: gap, rfl, lineEnds_none ?_ ?_⟩
        · rintro r hcons
          cases hcons
          exact hline rfl
        · intro r hcons
          rw [List.cons_append, List.cons.injEq] at hcons
          obtain ⟨rfl, hcons⟩ := hcons
          cases gap with
          | nil =>
            subst hcons
            exact htail.1 rfl
          | cons d gap =>
            cases hcons
            exact hreturn ⟨rfl, rfl⟩

/-- The spots at which a sentence can be separated. -/
def breakSpots : List Spot := [.afterLiteral, .afterVariable, .afterSentence]

theorem tried_break : ∀ spot ∈ breakSpots, (tried spot).head? = some .separator := by decide

theorem look_break : ∀ spot ∈ breakSpots, spot.accepts.contains .separator = true := by decide

theorem tokenAt_separators (hspot : spot ∈ breakSpots) (gap : List Char) {m r : List Char}
    (hskip : skipped true .nothing (gap ++ cs) = gap) (h : separators cs = some (m, r))
    (hr : cs.drop m.length = r) :
    tokenAt spot (gap ++ cs) = some (.separator, String.ofList m, r) := by
  have hhead := tried_break spot hspot
  have hfirst : firstMatch spot.accepts cs = some (.separator, m) := by
    rw [firstMatch_tried]
    generalize tried spot = ts at hhead
    cases ts with
    | nil => cases hhead
    | cons t ts =>
      cases hhead
      simp [Terminal.match?, h, asKeyword, Terminal.holdsWords]
  rw [tokenAt, look_break spot hspot, hskip, List.drop_left]
  cases cs with
  | nil => cases h
  | cons c cs =>
    simp only [hfirst, Option.map_some, hr]

theorem tokenAt_semicolon (hspot : spot ∈ breakSpots) (n : Nat) (rest : List Char) :
    tokenAt spot (List.replicate n ' ' ++ ';' :: rest) = some (.separator, ";", rest) := by
  have hstop (mode : Skipping) (hmode : mode = .nothing ∨ mode = .blanks) :
      skipped true mode (';' :: rest) = [] := by
    rcases hmode with rfl | rfl <;> rfl
  refine tokenAt_separators hspot _ ?_ rfl rfl
  cases n with
  | zero => exact hstop .nothing (.inl rfl)
  | succ n =>
    have hgap : isGap true (List.replicate (n + 1) ' ') = true := by
      simp [isGap, List.replicate_succ, isBlank]
    rw [skipped_gap hgap (by simp), hstop .blanks (.inr rfl), List.append_nil]

theorem tokenAt_break (b : Break) (htail : Unbroken tail) : ∃ text gap, gap.all isBlank = true ∧
    ∀ spot ∈ breakSpots, tokenAt spot (b.text ++ tail) = some (.separator, text, gap ++ tail) := by
  rcases b with ⟨n, ⟨behind, hblank⟩⟩ | ⟨carriage, ⟨behind, hblank⟩⟩
  · refine ⟨";", behind, hblank, fun spot hspot => ?_⟩
    rw [Break.text, List.append_assoc, List.cons_append]
    exact tokenAt_semicolon hspot n _
  · obtain ⟨taken, gap, rfl, htaken⟩ := lineEnds_gap htail behind hblank
    rw [List.all_append, Bool.and_eq_true] at hblank
    cases carriage with
    | false =>
      refine ⟨String.ofList ('\n' :: taken), gap, hblank.2, fun spot hspot => ?_⟩
      have hline : lineEnds ('\n' :: (taken ++ gap ++ tail)) = ('\n' :: taken, gap ++ tail) := by
        simp only [lineEnds, htaken]
      exact tokenAt_separators hspot [] rfl (separators_lineEnds hline) (by simp)
    | true =>
      refine ⟨String.ofList ('\r' :: '\n' :: taken), gap, hblank.2, fun spot hspot => ?_⟩
      have hline : lineEnds ('\r' :: '\n' :: (taken ++ gap ++ tail)) =
          ('\r' :: '\n' :: taken, gap ++ tail) := by
        simp only [lineEnds, htaken]
      exact tokenAt_separators hspot [] rfl (separators_lineEnds hline) (by simp)

end Breaks

/-- What stands behind a sentence. It is read the same way whatever the sentence ended with. -/
structure Stops (rest : List Char) (kind : Terminal) (text : String) (left : List Char) : Prop
    extends Ends rest kind text left where
  sentence : tokenAt .afterSentence rest = some (kind, text, left)
  tighter : kind ∉ levels

def blockSpots : List Spot := [.start, .thenBlock, .elseBlock, .doBlock, .afterSeparator]

/-- A text that is read as a sentence: its first word and what stands behind it. -/
structure ReadsSentence (scope : Scope) (w : String) (kind : Terminal) (behind : List Char)
    (sentence : Sentence) : Prop where
  starts : kind ∈ sentenceStarts
  lexes : ∀ spot ∈ blockSpots, Lexes spot w kind
  parted : Parted behind
  small : sentence.size ≤ behind.length + 1
  reads {rest left : List Char} {kind' : Terminal} {text : String} {fuel : Nat} {c : Cursor} :
    Stops rest kind' text left → sentence.size ≤ fuel → At c kind w (behind ++ rest) →
      Gets (readSentence scope fuel) c fun sentence' c' =>
        sentence'.unlined = sentence.unlined ∧ At c' kind' text left

/-- What closes a block, where `last` stands behind the last sentence if that is not separated. -/
structure Closes (last tail : List Char) (kind : Terminal) (text : String) (left : List Char) : Prop where
  stops : Stops (last ++ tail) kind text left
  separated (gap : List Char) : gap.all isBlank = true →
    tokenAt .afterSeparator (gap ++ tail) = some (kind, text, left)
  other : kind ∉ .separator :: sentenceStarts
  unbroken : Unbroken tail

/-- A block is read from its first token to the word that closes it. -/
structure RunsTo (scope : Scope) (block : List Sentence) (first : Terminal × String × List Char)
    (kind : Terminal) (word : String) (left : List Char) : Prop where
  starts : first.1 ∈ kind :: sentenceStarts
  small : blockSize block ≤ first.2.2.length + 1
  reads {c : Cursor} {fuel fuel' : Nat} : At c first.1 first.2.1 first.2.2 → blockSize block ≤ fuel →
    blockSize block ≤ fuel' → Gets (readBlock (readSentence scope fuel) fuel') c fun block' c' =>
      unlinedBlock block' = unlinedBlock block ∧ At c' kind word left

/-- A text that is read as a block, wherever one can begin and whatever closes it. -/
structure ReadsBlock (scope : Scope) (last text : List Char) (block : List Sentence) : Prop where
  small : blockSize block ≤ text.length
  unbroken : Unbroken text
  reads (spot : Spot) (gap : List Char) {tail left : List Char} {kind : Terminal} {word : String} :
    Closes last tail kind word left → spot ∈ blockSpots → gap.all isBlank = true →
      (block = [] → tokenAt spot (gap ++ tail) = some (kind, word, left)) →
      ∃ first, tokenAt spot (gap ++ (text ++ tail)) = some first ∧
        RunsTo scope block first kind word left

section Blocks

variable {scope : Scope} {w word : String} {kind : Terminal} {behind last text tail left gap : List Char}
  {sentence : Sentence} {block : List Sentence} {spot : Spot} {c : Cursor}

theorem isGap_block (hspot : spot ∈ blockSpots) (hgap : gap.all isBlank = true) :
    isGap (spot.accepts.contains .separator) gap = true := by
  have hlook : ∀ spot ∈ blockSpots, spot.accepts.contains .separator = false := by decide
  rw [hlook spot hspot]
  simpa [isGap] using hgap

theorem ReadsSentence.token (h : ReadsSentence scope w kind behind sentence) (hspot : spot ∈ blockSpots)
    (hgap : gap.all isBlank = true) {rest : List Char} (hrest : Parted rest) :
    tokenAt spot (gap ++ (w.toList ++ behind ++ rest)) = some (kind, w, behind ++ rest) := by
  rw [List.append_assoc]
  exact tokenAt_word (isGap_block hspot hgap) (h.lexes spot hspot) (h.parted.append hrest)

theorem ReadsSentence.unbroken (h : ReadsSentence scope w kind behind sentence) (rest : List Char) :
    Unbroken (w.toList ++ rest) ∧ w.toList ≠ [] := by
  have hsolid := (h.lexes .start (by decide)).1
  cases hw : w.toList with
  | nil =>
    rw [hw] at hsolid
    cases hsolid
  | cons c cs =>
    rw [hw] at hsolid
    simp only [isSolid, Bool.and_eq_true, Bool.not_eq_true', List.contains_eq_mem,
      decide_eq_false_iff_not] at hsolid
    refine ⟨?_, List.cons_ne_nil _ _⟩
    constructor <;> rintro hc <;> cases hc <;> exact hsolid.1 (by decide)

theorem readBlock_none {sentence : Read Sentence} {Q : List Sentence → Cursor → Prop}
    (hkind : c.look.kind ∉ sentenceStarts) (h : Q [] c) (fuel : Nat) :
    Gets (readBlock sentence fuel) c Q := by
  cases fuel with
  | zero => exact .pure h
  | succ fuel =>
    rw [readBlock]
    refine Gets.look ?_
    rw [if_neg (by simpa using hkind)]
    exact .pure h

theorem ReadsBlock.nil : ReadsBlock scope last [] [] := by
  refine ⟨Nat.le_refl _, by simp [Unbroken], fun spot gap {tail left kind word} hcloses _ _ htoken =>
    ⟨_, htoken rfl, List.mem_cons_self, Nat.zero_le _, fun {c fuel fuel'} hat _ _ => ?_⟩⟩
  have hother := hcloses.other
  rw [List.mem_cons, not_or] at hother
  exact readBlock_none (hat.kind ▸ hother.2) ⟨rfl, hat⟩ fuel'

theorem ReadsBlock.single (h : ReadsSentence scope w kind behind sentence) :
    ReadsBlock scope last (w.toList ++ behind ++ last) [sentence] := by
  obtain ⟨hunbroken, hne⟩ := h.unbroken (behind ++ last)
  have hword := List.length_pos_iff.2 hne
  have hsmall := h.small
  have hsize : blockSize [sentence] = sentence.size := rfl
  refine ⟨?_, by rwa [List.append_assoc], fun spot gap {tail left kind' word} hcloses hspot hgap _ =>
    ⟨(kind, w, behind ++ (last ++ tail)), ?_, List.mem_cons_of_mem _ h.starts, ?_, ?_⟩⟩
  · simp only [List.length_append, hsize]
    omega
  · rw [List.append_assoc (w.toList ++ behind)]
    exact h.token hspot hgap hcloses.stops.parted
  · simp only [List.length_append, hsize]
    omega
  · intro c fuel fuel' hat hfuel hfuel'
    have hpos := sentence.size_pos
    obtain ⟨m, rfl⟩ : ∃ m, fuel' = m + 1 := ⟨fuel' - 1, by omega⟩
    have hother := hcloses.other
    rw [List.mem_cons, not_or] at hother
    rw [readBlock]
    refine Gets.look ?_
    rw [hat.kind, if_pos (by simpa using h.starts)]
    refine (h.reads hcloses.stops (by omega) hat).bind ?_
    rintro sentence' c' ⟨hsentence, hat'⟩
    refine Gets.look ?_
    rw [hat'.kind, if_neg (by simpa using hother.1)]
    exact .pure ⟨by simp only [unlinedBlock, hsentence], hat'⟩

theorem ReadsBlock.cons (h : ReadsSentence scope w kind behind sentence) (b : Break)
    (hblock : ReadsBlock scope last text block) :
    ReadsBlock scope last (w.toList ++ behind ++ b.text ++ text) (sentence :: block) := by
  obtain ⟨hunbroken, hne⟩ := h.unbroken (behind ++ (b.text ++ text))
  have hword := List.length_pos_iff.2 hne
  have hsmall := h.small
  have hblockSmall := hblock.small
  have hsize : blockSize (sentence :: block) = sentence.size + blockSize block := rfl
  refine ⟨?_, by simpa only [List.append_assoc] using hunbroken,
    fun spot gap {tail left kind' word} hcloses hspot hgap _ => ?_⟩
  · simp only [List.length_append, hsize]
    omega
  obtain ⟨separator, gap', hgap', hbreak⟩ := tokenAt_break b (hblock.unbroken.append hcloses.unbroken)
  have hstops : Stops (b.text ++ (text ++ tail)) .separator separator (gap' ++ (text ++ tail)) :=
    ⟨⟨b.parted _, hbreak _ (by decide), hbreak _ (by decide)⟩, hbreak _ (by decide), by decide⟩
  -- behind a separator even an empty rest of the block is read
  obtain ⟨first, htoken, hruns⟩ := hblock.reads .afterSeparator gap' hcloses (by decide) hgap'
    fun _ => hcloses.separated gap' hgap'
  refine ⟨(kind, w, behind ++ (b.text ++ (text ++ tail))), ?_, List.mem_cons_of_mem _ h.starts, ?_, ?_⟩
  · simpa only [List.append_assoc] using h.token hspot hgap hstops.parted
  · simp only [List.length_append, hsize]
    omega
  · intro c fuel fuel' hat hfuel hfuel'
    have hpos := sentence.size_pos
    obtain ⟨m, rfl⟩ : ∃ m, fuel' = m + 1 := ⟨fuel' - 1, by omega⟩
    rw [readBlock]
    refine Gets.look ?_
    rw [hat.kind, if_pos (by simpa using h.starts)]
    refine (h.reads hstops (by omega) hat).bind ?_
    rintro sentence' c₁ ⟨hsentence, hat₁⟩
    refine Gets.look ?_
    rw [hat₁.kind, if_pos (by decide)]
    refine Gets.advance (hat₁.rest ▸ htoken) fun c₂ hat₂ => ?_
    refine (hruns.reads hat₂ (by omega) (by omega)).bind ?_
    rintro block' c₃ ⟨hblock', hat₃⟩
    exact .pure ⟨by simp only [unlinedBlock, hsentence, hblock'], hat₃⟩

end Blocks

end Chalkboard.Reading
