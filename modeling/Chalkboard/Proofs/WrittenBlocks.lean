import Chalkboard.Proofs.Layouts

/-! Every block that can be written is read back, by induction on its sentences. -/

namespace Chalkboard.Reading

open Syntax (Expr Variable Step Sentence Builtin unlinedBlock blockSize)
open Effects

section Words

variable {w : String} {kind : Terminal} {spot : Spot} {rest : List Char}

/-- The words with which a sentence begins that does not begin with a name. -/
def heads : List (String × Terminal) :=
  [("skip", .word .skip), ("alloc", .word .alloc), ("free", .word .free), ("if", .word .ifWord),
    ("while", .word .whileWord), ("for", .word .forWord), ("*", .symbol .star)]

theorem heads_lex : ∀ x ∈ heads, ∀ spot ∈ blockSpots, Lexes spot x.1 x.2 := by decide

def closers : List (String × Terminal) := [("else", .word .elseWord), ("fi", .word .fi), ("od", .word .od)]

theorem closers_lex : ∀ x ∈ closers, Lexes .afterSentence x.1 x.2 ∧ Lexes .afterSeparator x.1 x.2 := by
  decide

theorem empty_lex : Lexes .thenBlock "else" (.word .elseWord) ∧ Lexes .thenBlock "fi" (.word .fi) ∧
    Lexes .elseBlock "fi" (.word .fi) := by decide

theorem places_lex : Lexes .callOpen "(" (.symbol .openParen) ∧ Lexes .forAssign ":=" (.symbol .assign) := by
  decide

theorem text_mem_keywords (k : Word) : k.text ∈ keywords := by cases k <;> decide

theorem lexes_place (hw : isName w) (hkey : w ∉ keywords) (spot : Spot)
    (hspot : spot ∈ .forName :: blockSpots) :
    Lexes spot w .variableName := by
  have htried : ∀ spot ∈ .forName :: blockSpots,
      ((tried spot).filter (· != .real)).head? = some .variableName := by decide
  refine lexes_name (htried spot hspot) hw ?_
  rintro k - rfl
  exact hkey (text_mem_keywords k)

theorem Closes.word (hw : (w, kind) ∈ closers) (hrest : Parted rest) :
    Closes [' '] (w.toList ++ rest) kind w rest := by
  have hfollows : ∀ x ∈ closers, x ∈ followers ∧ x.2 ∉ levels ∧ x.2 ∉ .separator :: sentenceStarts ∧
      x.1.toList ≠ [] ∧ Unbroken x.1.toList := by
    simp only [Unbroken]
    decide
  obtain ⟨hfollower, hlevel, hother, hne, hunbroken⟩ := hfollows _ hw
  obtain ⟨hsentence, hseparator⟩ := closers_lex _ hw
  have hspaced : spaced [w] ++ rest = [' '] ++ (w.toList ++ rest) := by simp [spaced_cons]
  refine ⟨⟨?_, ?_, hlevel⟩, fun gap hgap => ?_, hother, ?_⟩
  · rw [← hspaced]
    exact .word hfollower [] hrest
  · rw [← hspaced]
    exact tokenAt_spaced hsentence [] hrest
  · exact tokenAt_word (isGap_block (by decide) hgap) hseparator hrest
  · rcases hcs : w.toList with _ | ⟨c, cs⟩
    · exact absurd hcs hne
    · rw [hcs] at hunbroken
      exact hunbroken

theorem Closes.finish : Closes [] [] .finish "" [] :=
  ⟨⟨.finish, tokenAt_finish rfl rfl, by decide⟩,
    fun gap hgap => by
      rw [List.append_nil]
      exact tokenAt_finish (isGap_block (by decide) hgap) rfl,
    by decide, by simp [Unbroken]⟩

end Words

section Sentences

variable {scope : Scope} {w : String} {kind : Terminal} {behind : List Char} {sentence : Sentence}
  {guard start stop e : Expr} {v : Variable} {words : List String} {tight : Bool} {block yes no : List Sentence}
  {text text' : List Char}

theorem ReadsSentence.of (hlex : ∀ spot ∈ blockSpots, Lexes spot w kind) (hstarts : kind ∈ sentenceStarts)
    (hparted : Parted behind) (hsmall : sentence.size ≤ behind.length + 1)
    (h : ∀ {rest left : List Char} {kind' : Terminal} {text : String} {fuel : Nat} {c : Cursor},
      Stops rest kind' text left → sentence.size ≤ fuel + 1 → At c kind w (behind ++ rest) →
      Gets (readSentence scope (fuel + 1)) c fun sentence' c' =>
        sentence'.unlined = sentence.unlined ∧ At c' kind' text left) :
    ReadsSentence scope w kind behind sentence := by
  refine ⟨hstarts, hlex, hparted, hsmall, fun {rest left kind' text fuel c} hstops hfuel hat => ?_⟩
  have hpos := sentence.size_pos
  obtain ⟨m, rfl⟩ : ∃ m, fuel = m + 1 := ⟨fuel - 1, by omega⟩
  exact h hstops hfuel hat

theorem ReadsSentence.skip (line : Nat) : ReadsSentence scope "skip" (.word .skip) [] (.skip line) := by
  have hhead : ("skip", Terminal.word .skip) ∈ heads := by decide
  refine .of (heads_lex _ hhead) (by decide) .nil (by simp [Sentence.size]) fun hstops _ hat => ?_
  rw [readSentence]
  refine Gets.look ?_
  rw [hat.kind]
  exact Gets.advance (hat.rest ▸ hstops.sentence) fun c' hat' => .pure ⟨rfl, hat'⟩

theorem ReadsSentence.assign (hv : Spelled scope true (w :: words) tight v)
    (hkind : frontKind w = .variableName ∨ frontKind w = .symbol .star)
    (hlex : ∀ spot ∈ blockSpots, Lexes spot w (frontKind w)) (he : ReadsBack scope e) :
    ReadsSentence scope w (frontKind w) (spaced words ++ spaced (":=" :: e.words)) (.assign v e) := by
  refine .of hlex ?_ (parted_spaced (.cons (by decide) _) _) (by simp [Sentence.size]) ?_
  · rcases hkind with hkind | hkind <;> rw [hkind] <;> decide
  · intro rest left kind' text fuel c hstops _ hat
    rw [List.append_assoc] at hat
    refine (readSentence_assign hv he hstops.toEnds hstops.tighter ⟨w, words, rfl, hat⟩
      (hat.kind ▸ hkind)).mono ?_
    rintro _ c' ⟨⟨v', e', rfl, hv', he'⟩, hat'⟩
    exact ⟨by simp only [Sentence.unlined, hv', he'], hat'⟩

variable {c : Cursor} {kind' : Terminal} {left rest : List Char} {β : Type} {Q : β → Cursor → Prop}

theorem readCall_gets {text : String}
    (builtin : Builtin) (line : Nat) (hv : Spelled scope true words tight v) (hname : isName v.name.text)
    (hstops : Stops rest kind' text left) (hat : At c kind w (spaced ("(" :: words ++ [")"]) ++ rest)) :
    Gets (readCall scope builtin) c fun sentence c' =>
      sentence.unlined = Sentence.unlined (.call builtin line v) ∧ At c' kind' text left := by
  have hclose : (")", Terminal.symbol .closeParen) ∈ followers := by decide
  have hbehind := Behind.spaced (followers_lex _ hclose).2 [] hstops.parted
  obtain ⟨kind₂, text₂, left₂, htoken₂, hopens⟩ := (hv.primary hname).token hbehind
  have htoken₁ := tokenAt_spaced places_lex.1 (words ++ [")"]) hstops.parted
  rw [readCall]
  refine Gets.look (Gets.advance (hat.rest ▸ htoken₁) fun c₁ hat₁ => ?_)
  have hrest₁ := hat₁.rest
  rw [spaced_append, List.append_assoc] at hrest₁
  refine Gets.advance (hrest₁ ▸ htoken₂) fun c₂ hat₂ => ?_
  refine (hv.variable hbehind (by decide) (hopens c₂ hat₂)).bind ?_
  rintro v' c₃ ⟨hv', hat₃⟩
  refine Gets.expect hat₃ hstops.sentence fun c₄ hat₄ => .pure ⟨?_, hat₄⟩
  simp only [Sentence.unlined, hv']

def builtinKind : Builtin → Terminal
  | .alloc => .word .alloc
  | .free => .word .free

theorem ReadsSentence.call (builtin : Builtin) (line : Nat) (hv : Spelled scope true words tight v)
    (hname : isName v.name.text) :
    ReadsSentence scope builtin.text (builtinKind builtin) (spaced ("(" :: words ++ [")"]))
      (.call builtin line v) := by
  have hhead : (builtin.text, builtinKind builtin) ∈ heads ∧ builtinKind builtin ∈ sentenceStarts := by
    cases builtin <;> decide
  refine .of (heads_lex _ hhead.1) hhead.2 (.cons (by decide) _) (by simp [Sentence.size])
    fun hstops _ hat => ?_
  have hread := readCall_gets builtin line hv hname hstops hat
  rw [readSentence]
  refine Gets.look ?_
  rw [hat.kind]
  cases builtin <;> exact hread

theorem ReadsBack.upto {w' : String} {k : Expr → Read β} (he : ReadsBack scope e) (hw : (w, kind) ∈ followers)
    (hkind : kind ∉ levels) (words : List String) (hrest : Parted rest)
    (hat : At c kind' w' (spaced e.words ++ (spaced (w :: words) ++ rest)))
    (hk : ∀ e' c', e'.unlined = e.unlined → At c' kind w (spaced words ++ rest) → Gets (k e') c' Q) :
    Gets (Reading.advance .expression >>= fun _ => readExpr scope >>= k) c Q := by
  have hends : Ends (spaced (w :: words) ++ rest) kind w (spaced words ++ rest) := .word hw words hrest
  obtain ⟨kind₁, text₁, left₁, htoken⟩ := (he.parses (level_le e)).starts.token hends.parted
  refine Gets.advance (hat.rest ▸ htoken) fun c₁ hat₁ => ?_
  refine (he.expr hends hkind ⟨_, _, _, htoken, hat₁⟩).bind ?_
  rintro e' c₂ ⟨he', hat₂⟩
  exact hk e' c₂ he' hat₂

/-- What stands behind the first block of a branch, up to the word that closes the branch. -/
structure ReadsOtherwise (scope : Scope) (part : List Char) (no : List Sentence) : Prop where
  small : blockSize no ≤ part.length
  reads (fuel : Nat) {rest : List Char} : Parted rest → blockSize no ≤ fuel →
    ∃ kind word left, Closes [' '] (part ++ ("fi".toList ++ rest)) kind word left ∧
      (∀ gap : List Char, gap.all isBlank = true →
        tokenAt .thenBlock (gap ++ (part ++ ("fi".toList ++ rest))) = some (kind, word, left)) ∧
      ∀ {k : List Sentence → Read Sentence} {Q : Sentence → Cursor → Prop} {c : Cursor}, At c kind word left →
        (∀ no' c', unlinedBlock no' = unlinedBlock no → At c' (.word .fi) "fi" rest → Gets (k no') c' Q) →
        Gets (look >>= fun t =>
          if t.kind == .word .elseWord then
            advance .elseBlock >>= fun _ => readBlock (readSentence scope fuel) fuel >>= k
          else Pure.pure [] >>= k) c Q

theorem ReadsOtherwise.absent : ReadsOtherwise scope [] [] := by
  have hfi : ("fi", Terminal.word .fi) ∈ closers := by decide
  refine ⟨Nat.le_refl _, fun _ {rest} hrest _ => ⟨_, _, _, .word hfi hrest, fun gap hgap => ?_, ?_⟩⟩
  · exact tokenAt_word (isGap_block (by decide) hgap) empty_lex.2.1 hrest
  · intro k Q c hat hk
    refine Gets.look ?_
    rw [hat.kind, if_neg (by decide), pure_bind]
    exact hk [] c rfl hat

theorem ReadsOtherwise.written (hno : ReadsBlock scope [' '] text no) (middle : Space) :
    ReadsOtherwise scope ("else".toList ++ (middle.chars ++ text)) no := by
  have hfi : ("fi", Terminal.word .fi) ∈ closers := by decide
  have helse : ("else", Terminal.word .elseWord) ∈ closers := by decide
  have hsmall := hno.small
  refine ⟨?_, fun fuel {rest} hrest hfuel => ?_⟩
  · simp only [List.length_append]
    omega
  · rw [List.append_assoc, List.append_assoc]
    have hparted := middle.parted (text ++ ("fi".toList ++ rest))
    obtain ⟨first, htoken, hruns⟩ := hno.reads .elseBlock middle.chars
      (.word hfi hrest) (by decide) middle.blank
      fun _ => tokenAt_word (isGap_block (by decide) middle.blank) empty_lex.2.2 hrest
    refine ⟨_, _, _, .word helse hparted, fun gap hgap => ?_, ?_⟩
    · exact tokenAt_word (isGap_block (by decide) hgap) empty_lex.1 hparted
    · intro k Q c hat hk
      refine Gets.look ?_
      rw [hat.kind, if_pos (by decide)]
      refine Gets.advance (hat.rest ▸ htoken) fun c₁ hat₁ => ?_
      refine (hruns.reads hat₁ hfuel hfuel).bind ?_
      rintro no' c₂ ⟨hno', hat₂⟩
      exact hk no' c₂ hno' hat₂

theorem ReadsSentence.branch {part : List Char} (hguard : ReadsBack scope guard)
    (hyes : ReadsBlock scope [' '] text yes) (hno : ReadsOtherwise scope part no) (opening : Space)
    (htails : max (Syntax.blockTails yes) (Syntax.blockTails no) ≤ safeDepth) :
    ReadsSentence scope "if" (.word .ifWord)
      (spaced guard.words ++ (spaced ["then"] ++ (opening.chars ++ (text ++ (part ++ "fi".toList)))))
      (.branch guard yes no) := by
  have hhead : ("if", Terminal.word .ifWord) ∈ heads := by decide
  have hthen : ("then", Terminal.word .thenWord) ∈ followers := by decide
  have hsmallYes := hyes.small
  have hsmallNo := hno.small
  refine .of (heads_lex _ hhead) (by decide) (parted_spaced (.cons (by decide) _) _) ?_ ?_
  · simp only [Sentence.size, List.length_append]
    omega
  · intro rest left kind' after fuel c hstops hfuel hat
    simp only [Sentence.size] at hfuel
    simp only [List.append_assoc] at hat
    obtain ⟨kind₁, word₁, left₁, hcloses, hempty, hreadNo⟩ := hno.reads fuel hstops.parted (by omega)
    obtain ⟨first, htoken, hruns⟩ := hyes.reads .thenBlock opening.chars hcloses
      (by decide) opening.blank fun _ => hempty _ opening.blank
    rw [readSentence]
    refine Gets.look ?_
    rw [hat.kind]
    refine hguard.upto hthen (by decide) [] (opening.parted _) hat
      fun guard' c₁ hguard' hat₁ => ?_
    refine Gets.expect hat₁ htoken fun c₂ hat₂ => ?_
    refine (hruns.reads hat₂ (by omega) (by omega)).bind ?_
    rintro yes' c₃ ⟨hyes', hat₃⟩
    refine hreadNo hat₃ fun no' c₄ hno' hat₄ => ?_
    refine Gets.expect hat₄ hstops.sentence fun c₅ hat₅ => nesting_gets ?_ (.pure ⟨?_, hat₅⟩)
    · rw [Syntax.blockTails_congr hyes', Syntax.blockTails_congr hno']
      exact Nat.le_trans htails (by decide)
    · simp only [Sentence.unlined, hguard', hyes', hno']

theorem needSentences_gets {block' : List Sentence} {k : Unit → Read β} (hblock : block ≠ [])
    (h : unlinedBlock block' = unlinedBlock block) (line : Nat) (hk : Gets (k ()) c Q) :
    Gets (needSentences line block' >>= k) c Q := by
  cases block' with
  | nil =>
    cases block with
    | nil => exact absurd rfl hblock
    | cons sentence block => cases h
  | cons sentence' block' => exact hk

theorem ReadsBlock.body {after : String} {fuel : Nat}
    {k : List Sentence → Read Sentence} {Q : Sentence → Cursor → Prop} (h : ReadsBlock scope [' '] text block)
    (hblock : block ≠ []) (opening : Space) (hstops : Stops rest kind' after left)
    (hfuel : blockSize block ≤ fuel)
    (hat : At c (.word .doWord) "do" (opening.chars ++ (text ++ ("od".toList ++ rest))))
    (hk : ∀ block' c', unlinedBlock block' = unlinedBlock block → At c' kind' after left →
      Gets (k block') c' Q) (line : Nat) :
    Gets (do
      let _ ← expect (.word .doWord) .doBlock
      let block' ← readBlock (readSentence scope fuel) fuel
      let _ ← expect (.word .od) .afterSentence
      needSentences line block'
      k block') c Q := by
  have hod : ("od", Terminal.word .od) ∈ closers := by decide
  obtain ⟨first, htoken, hruns⟩ := h.reads .doBlock opening.chars
    (.word hod hstops.parted) (by decide) opening.blank fun hnil => absurd hnil hblock
  refine Gets.expect hat htoken fun c₁ hat₁ => ?_
  refine (hruns.reads hat₁ hfuel hfuel).bind ?_
  rintro block' c₂ ⟨hblock', hat₂⟩
  refine Gets.expect hat₂ hstops.sentence fun c₃ hat₃ => ?_
  exact needSentences_gets hblock hblock' line (hk block' c₃ hblock' hat₃)

theorem ReadsSentence.loop (hguard : ReadsBack scope guard) (h : ReadsBlock scope [' '] text block)
    (hblock : block ≠ []) (opening : Space) :
    ReadsSentence scope "while" (.word .whileWord)
      (spaced guard.words ++ (spaced ["do"] ++ (opening.chars ++ (text ++ "od".toList))))
      (.loop guard block) := by
  have hhead : ("while", Terminal.word .whileWord) ∈ heads := by decide
  have hdo : ("do", Terminal.word .doWord) ∈ followers := by decide
  have hsmall := h.small
  refine .of (heads_lex _ hhead) (by decide) (parted_spaced (.cons (by decide) _) _) ?_ ?_
  · simp only [Sentence.size, List.length_append]
    omega
  · intro rest left kind' after fuel c hstops hfuel hat
    simp only [Sentence.size] at hfuel
    simp only [List.append_assoc] at hat
    rw [readSentence]
    refine Gets.look ?_
    rw [hat.kind]
    refine hguard.upto hdo (by decide) [] (opening.parted _) hat
      fun guard' c₁ hguard' hat₁ => ?_
    refine h.body hblock opening hstops (by omega) hat₁ (fun block' c₂ hblock' hat₂ => .pure ⟨?_, hat₂⟩) _
    simp only [Sentence.unlined, hguard', hblock']

theorem ReadsSentence.count (hname : isName v.name.text) (hkey : v.name.text ∉ keywords) (hpath : v.path = [])
    (hstart : ReadsBack scope start) (hstop : ReadsBack scope stop) (up : Bool)
    (h : ReadsBlock scope [' '] text block) (hblock : block ≠ []) (opening : Space) :
    ReadsSentence scope "for" (.word .forWord)
      (spaced [v.name.text, ":="] ++ (spaced start.words ++ (spaced [if up then "to" else "downto"] ++
        (spaced stop.words ++ (spaced ["do"] ++ (opening.chars ++ (text ++ "od".toList)))))))
      (.count v start stop up block) := by
  have hhead : ("for", Terminal.word .forWord) ∈ heads := by decide
  have hdo : ("do", Terminal.word .doWord) ∈ followers := by decide
  have hup : (if up then "to" else "downto", Terminal.word (if up then .toWord else .downto)) ∈ followers ∧
      Terminal.word (if up then .toWord else .downto) ∉ levels := by cases up <;> decide
  have hsmall := h.small
  refine .of (heads_lex _ hhead) (by decide) (.cons (by decide) _) ?_ ?_
  · simp only [Sentence.size, List.length_append]
    omega
  · intro rest left kind' after fuel c hstops hfuel hat
    simp only [Sentence.size] at hfuel
    simp only [List.append_assoc] at hat
    have hbody := opening.parted (text ++ ("od".toList ++ rest))
    have hlimit := parted_spaced (parted_spaced hbody ["do"]) stop.words
    have hrange := parted_spaced (parted_spaced hlimit [if up then "to" else "downto"]) start.words
    have hplace := tokenAt_spaced (lexes_place hname hkey .forName (by decide)) [":="] hrange
    have hassign := tokenAt_spaced places_lex.2 [] hrange
    rw [readSentence]
    refine Gets.look ?_
    rw [hat.kind]
    refine Gets.advance (hat.rest ▸ hplace) fun c₁ hat₁ => ?_
    refine Gets.look (Gets.advance (hat₁.rest ▸ hassign) fun c₂ hat₂ => ?_)
    refine hstart.upto hup.1 hup.2 [] hlimit hat₂ fun start' c₃ hstart' hat₃ => ?_
    have hdirection : (c₃.look.kind == .word .toWord) = up ∧
        (!up && c₃.look.kind != .word .downto) = false := by
      rw [hat₃.kind]
      cases up <;> decide
    refine Gets.look (Gets.look ?_)
    rw [hdirection.1, hdirection.2, if_neg Bool.false_ne_true]
    refine hstop.upto hdo (by decide) [] hbody hat₃ fun stop' c₄ hstop' hat₄ => ?_
    refine h.body hblock opening hstops (by omega) hat₄ (fun block' c₅ hblock' hat₅ => .pure ⟨?_, hat₅⟩) _
    simp only [Sentence.unlined, Variable.unlined, Syntax.unlinedPath, Token.lexeme, hat₁.text, hpath,
      hstart', hstop', hblock']

theorem RunsTo.sentences {first : Terminal × String × List Char} {word : String}
    (h : RunsTo scope block first kind word left) (hat : At c first.1 first.2.1 first.2.2) :
    Gets (readSentences scope) c fun block' c' =>
      unlinedBlock block' = unlinedBlock block ∧ At c' kind word left := by
  have hsmall := h.small
  rw [← hat.rest] at hsmall
  rw [readSentences]
  exact Gets.rounds (h.reads hat (by omega) (by omega))

theorem spelled_of_isVariable (h : isVariable scope.constants v = true) :
    isName v.name.text = true ∧ v.name.text ∉ keywords ∧ ∃ tight, Spelled scope true v.words tight v := by
  simp only [isVariable, Bool.and_eq_true, Bool.not_eq_true', List.contains_eq_mem,
    decide_eq_false_iff_not] at h
  obtain ⟨⟨hname, hkey⟩, hpath⟩ := h
  obtain ⟨tight, hspelled⟩ := spelledPath v.path (.name hname v.name.line) hname hpath
  exact ⟨hname, hkey, tight, by simpa [Variable.words, Variable.extend] using hspelled⟩

mutual

theorem readsSentence : (sentence : Sentence) → (layout : Layout) →
    spellableSentence scope.constants sentence = true →
    ∃ w kind behind, sentenceText layout sentence = w.toList ++ behind ∧
      ReadsSentence scope w kind behind sentence
  | .skip line, _, _ => ⟨_, _, _, by rw [sentenceText]; rfl, .skip line⟩
  | .assign place value, _, h => by
    simp only [spellableSentence, Bool.and_eq_true] at h
    obtain ⟨hname, hkey, tight, hspelled⟩ := spelled_of_isVariable h.1
    have hstar : ("*", Terminal.symbol .star) ∈ heads := by decide
    obtain ⟨w, words, hwords, hkind, hlex⟩ := hspelled.head hname _
      (fun spot hspot => lexes_place hname hkey spot (List.mem_cons_of_mem _ hspot)) (heads_lex _ hstar)
    rw [hwords] at hspelled
    refine ⟨_, _, _, ?_, .assign hspelled hkind hlex (readsBack value h.2)⟩
    rw [sentenceText, hwords, ← spaced_append]
    rfl
  | .call builtin line place, _, h => by
    obtain ⟨hname, -, tight, hspelled⟩ := spelled_of_isVariable h
    exact ⟨_, _, _, by rw [sentenceText]; rfl, .call builtin line hspelled hname⟩
  | .branch guard yes no, layout, h => by
    simp only [spellableSentence, Bool.and_eq_true, decide_eq_true_eq] at h
    obtain ⟨⟨⟨hguard, hyes⟩, hno⟩, htails⟩ := h
    have hyes := readsBlock yes layout.first [' '] hyes
    have hno := readsBlock no layout.second [' '] hno
    have hotherwise : ReadsOtherwise scope (if no.isEmpty && !(layout []).emptyElse then []
        else "else".toList ++ (layout []).middle.chars ++ blockText layout.second [' '] no) no := by
      split
      · rename_i hempty
        rw [Bool.and_eq_true, List.isEmpty_iff] at hempty
        rw [hempty.1]
        exact .absent
      · rw [List.append_assoc]
        exact .written hno (layout []).middle
    refine ⟨_, _, _, ?_, .branch (readsBack guard hguard) hyes hotherwise (layout []).opening htails⟩
    rw [sentenceText]
    simp only [joined, spaced_append, List.append_assoc, List.cons_append]
  | .loop guard body, layout, h => by
    simp only [spellableSentence, Bool.and_eq_true, Bool.not_eq_true', List.isEmpty_eq_false_iff] at h
    obtain ⟨⟨hguard, hne⟩, hbody⟩ := h
    have hbody := readsBlock body layout.first [' '] hbody
    refine ⟨_, _, _, ?_, .loop (readsBack guard hguard) hbody hne (layout []).opening⟩
    rw [sentenceText]
    simp only [joined, spaced_append, List.append_assoc, List.cons_append]
  | .count place start stop up body, layout, h => by
    simp only [spellableSentence, Bool.and_eq_true, Bool.not_eq_true', List.isEmpty_eq_false_iff,
      List.isEmpty_iff] at h
    obtain ⟨⟨⟨⟨⟨hplace, hpath⟩, hstart⟩, hstop⟩, hne⟩, hbody⟩ := h
    have hbody := readsBlock body layout.first [' '] hbody
    obtain ⟨hname, hkey, -⟩ := spelled_of_isVariable hplace
    refine ⟨_, _, _, ?_, .count hname hkey hpath (readsBack start hstart) (readsBack stop hstop) up hbody hne
      (layout []).opening⟩
    rw [sentenceText]
    simp only [joined, spaced_cons, spaced_append, spaced_nil, List.append_assoc, List.cons_append,
      List.nil_append]

theorem readsBlock : (block : List Sentence) → (layout : Layout) → (last : List Char) →
    spellableBlock scope.constants block = true → ReadsBlock scope last (blockText layout last block) block
  | [], _, _, _ => by
    rw [blockText]
    exact .nil
  | [sentence], layout, last, h => by
    simp only [spellableBlock, Bool.and_eq_true] at h
    obtain ⟨w, kind, behind, htext, hreads⟩ := readsSentence sentence layout.first h.1
    rw [blockText, htext]
    split
    · simpa using ReadsBlock.cons hreads (layout [false]).separator .nil
    · exact .single hreads
  | sentence :: next :: block, layout, last, h => by
    rw [spellableBlock, Bool.and_eq_true] at h
    obtain ⟨w, kind, behind, htext, hreads⟩ := readsSentence sentence layout.first h.1
    have hblock := readsBlock (next :: block) layout.second last h.2
    rw [blockText, htext]
    · exact .cons hreads (layout [false]).separator hblock
    · simp

end

end Sentences

theorem readUnsettled_laidOut (setting : Setting) (s : Types) (layout : Layout) (block : List Sentence)
    (h : spellableBlock s.constantNames block = true) :
    ∃ block', unlinedBlock block' = unlinedBlock block ∧
      readUnsettled setting (laidOut layout block) s = (.ok ⟨[], 0, [], block'⟩, s) := by
  have hblock : ReadsBlock (scopeIn setting s) [] (blockText layout [] block) block :=
    readsBlock block layout [] h
  obtain ⟨⟨kind, word, left⟩, htoken, hruns⟩ := hblock.reads .start [] .finish (by decide)
    rfl fun _ => tokenAt_finish rfl rfl
  have hkind : kind ∉ [.word .typeWord, .procedure, .word .varWord] := by
    have hnone : ∀ k ∈ .finish :: sentenceStarts, k ∉ [.word .typeWord, .procedure, .word .varWord] := by
      decide
    exact hnone kind hruns.starts
  rw [List.nil_append, List.append_nil, ← String.toList_ofList (l := blockText layout [] block)] at htoken
  obtain ⟨block', hread, hblock'⟩ := readUnsettled_sentences setting s
    (P := fun block' => unlinedBlock block' = unlinedBlock block) htoken hkind (by
    intro c hat
    refine (hruns.sentences hat).mono ?_
    rintro block' c' ⟨hblock', hat'⟩
    exact ⟨hblock', hat'.kind⟩)
  exact ⟨block', hblock', hread⟩

/-- A block that can be written is read back, however it is laid out, and nothing else comes with it. The
layout says of each sentence how it is separated, of each block whether its last sentence is, and of each
empty second block whether it is written. -/
theorem written_blocks_read_back (setting : Setting) (s : Types) (layout : Layout) (block : List Sentence)
    (h : spellableBlock s.constantNames block = true) :
    ∃ block', unlinedBlock block' = unlinedBlock block ∧
      readUnsettled setting (laidOut layout block) s = (.ok ⟨[], 0, [], block'⟩, s) ∧
      ∀ s', Types.settleAll s = (.ok (), s') →
        readProgram setting (laidOut layout block) s = (.ok ⟨[], 0, [], block'⟩, s') := by
  obtain ⟨block', hblock', hread⟩ := readUnsettled_laidOut setting s layout block h
  exact ⟨block', hblock', hread, fun s' hsettle => readProgram_settled hread hsettle⟩

def oneLine : Layout := fun _ => ⟨.semicolon 0 ⟨[' '], by decide⟩, false, ⟨⟨[' '], by decide⟩, by decide⟩,
  ⟨⟨[' '], by decide⟩, by decide⟩, false⟩

/-- Separated in all ways, deeper sentences in other ones than those around them. -/
def ragged : Layout := fun turns =>
  ⟨match turns.length % 3 with
    | 0 => .semicolon 2 ⟨['\n', ' '], by decide⟩
    | 1 => .newline false ⟨['\t'], by decide⟩
    | _ => .newline true ⟨['\n', ' ', '\n'], by decide⟩,
    turns.length % 2 == 0, ⟨⟨['\n'], by decide⟩, by decide⟩, ⟨⟨[' ', '\n'], by decide⟩, by decide⟩,
    turns.length % 2 == 1⟩

def errands : List Sentence :=
  let access (name : String) (path : List Step) : Expr := .access ⟨name, 1⟩ path
  let integer (text : String) : Expr := .literal .integer ⟨text, 1⟩
  let assign (name : String) (path : List Step) (value : Expr) : Sentence := .assign ⟨⟨name, 1⟩, path⟩ value
  let inner := .branch (.binary (access "i" []) .less (access "todo" [])) []
    [.call .free 1 ⟨⟨"p", 1⟩, [.field "next"]⟩, .skip 1]
  let counted := .count ⟨⟨"i", 1⟩, []⟩ (integer "1") (.binary (access "n" []) .minus (integer "1")) false
    [inner, .branch (access "fine" []) [] [], assign "p" [.deref, .field "hue"] (.literal .enum ⟨"Red", 1⟩)]
  [.branch (.unary .not (access "fine" [])) [assign "doing" [] (integer "inf")] [],
    .loop (.binary (access "p" []) .notEqual (.literal .null ⟨"null", 1⟩))
      [.call .alloc 1 ⟨⟨"p", 1⟩, []⟩, counted],
    .skip 1]

theorem errands_read_back : spellableBlock hues.constantNames errands = true ∧
    ∃ s' block block', unlinedBlock block = unlinedBlock errands ∧ unlinedBlock block' = unlinedBlock errands ∧
      readProgram {} (laidOut oneLine errands) hues = (.ok ⟨[], 0, [], block⟩, s') ∧
      readProgram {} (laidOut ragged errands) hues = (.ok ⟨[], 0, [], block'⟩, s') := by
  have hspellable : spellableBlock hues.constantNames errands = true := by decide +kernel
  have hsettles : passes Types.settleAll hues (fun _ _ => true) = true := by decide +kernel
  obtain ⟨_, s', hsettle, -⟩ := of_passes hsettles
  obtain ⟨block, hblock, -, hread⟩ := written_blocks_read_back {} hues oneLine errands hspellable
  obtain ⟨block', hblock', -, hread'⟩ := written_blocks_read_back {} hues ragged errands hspellable
  exact ⟨hspellable, s', block, block', hblock, hblock', hread s' hsettle, hread' s' hsettle⟩

example : laidOut ragged errands = "if ! fine then\ndoing := inf else \nfi\n\t" ++
    "while p != null do\nalloc ( p )\n\tfor i := 1 downto n - 1 do\n" ++
    "if i < todo then\nelse \nfree ( p . next )  ;\n skip\n\tfi\n\t" ++
    "if fine then\nfi\r\n\n \n* p . hue := Red od od\r\n\n \nskip" := by decide +kernel

theorem loop_long {setting : Setting} {s : Types} {w : String} (hw : isNumeral w)
    (hlong : Number.longestNumeral < w.toList.length) (layout : Layout) (line : Nat) (body : List Sentence) :
    ∃ line', readProgram setting (laidOut layout [.loop (.literal .integer ⟨w, line⟩) body]) s =
      (.error (.malformed line' (.badLiteral "IntType" w)), s) := by
  have hhead : ("while", Terminal.word .whileWord) ∈ heads := by decide
  have hwords : Expr.words (.literal .integer ⟨w, line⟩) = [w] := by
    rw [Expr.words]
    simp
  obtain ⟨rest, hrest, htext⟩ : ∃ rest, Parted rest ∧
      blockText layout [] [.loop (.literal .integer ⟨w, line⟩) body] =
        "while".toList ++ (spaced [w] ++ rest) := by
    have hjoined : joined ("while" :: [w] ++ ["do"]) = "while".toList ++ (spaced [w] ++ spaced ["do"]) := by
      simp [joined, spaced_cons]
    rw [blockText, sentenceText, hwords, hjoined]
    simp only [List.append_assoc]
    exact ⟨_, parted_spaced ((layout.first []).opening.parted _) ["do"], rfl⟩
  have hwhile : tokenAt .start (laidOut layout [.loop (.literal .integer ⟨w, line⟩) body]).toList =
      some (.word .whileWord, "while", spaced [w] ++ rest) := by
    rw [laidOut, String.toList_ofList, htext]
    exact tokenAt_front (heads_lex _ hhead _ (by decide)) (parted_spaced hrest _)
  obtain ⟨_, hread, line', rfl⟩ := readUnsettled_fails setting s
    (P := fun fault => ∃ line, fault = .malformed line (.badLiteral "IntType" w)) hwhile (by decide) (by
    intro c hat
    have hnumeral := tokenAt_spaced (lexes_numeral hw) [] hrest
    rw [readSentences]
    refine Fails.rounds (Fails.look ?_)
    rw [hat.kind, if_pos (by decide)]
    refine Fails.bind ?_
    rw [readSentence]
    refine Fails.look ?_
    rw [hat.kind]
    refine (Gets.advanced (hat.rest ▸ hnumeral)).fails fun _ c₁ hat₁ => ?_
    exact (readExpr_long hw hlong hat₁).bind)
  exact ⟨line', readProgram_fails hread⟩

/-- A loop that repeats one sentence, guarded by a numeral of one digit more than can be read. -/
theorem overlong_guard_refused :
    (ones 4301).toList.all isDigit = true ∧ (ones 4301).toList.length = 4301 ∧
      ∃ line, readProgram {} (laidOut oneLine [.loop (.literal .integer ⟨ones 4301, 1⟩) [.skip 1]]) {} =
        (.error (.malformed line (.badLiteral "IntType" (ones 4301))), {}) := by
  obtain ⟨hlength, hall, hnumeral⟩ := ones_facts 4301
  refine ⟨hall, hlength, loop_long (hnumeral (by decide)) ?_ oneLine 1 [.skip 1]⟩
  rw [hlength]
  decide

end Chalkboard.Reading
