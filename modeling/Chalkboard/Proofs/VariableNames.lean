import Chalkboard.Proofs.WrittenBlocks

/-! Names of variables. A word may name a variable unless it is reserved, and the list of reserved words is
kept by hand. So there are words that can be declared and are then taken for keywords where the variable
would be used, and these are four. -/

namespace Chalkboard.Reading

open Syntax (Expr Variable Sentence Program Declaration unlinedBlock)
open Effects

section Scan

variable {setting : Setting} {s : Types} {scope : Scope} {c : Cursor} {n text word : String} {kind kind₁ : Terminal}
  {behind left left₁ rest : List Char} {form : TypeForm}

/-- A declaration up to the separator behind it. -/
def announcing (scope : Scope) : Read Announced := do
  advance .variablePrimary
  let v ← readVariable scope
  let _ ← expect (.symbol .colon) .typePlace
  let fuel ← rounds
  return (v, ← scanType scope fuel)

theorem scanDeclaration_eq (scope : Scope) : scanDeclaration scope = (do
    let a ← announcing scope
    if (← look).kind != .separator then refuse
    if reserved.contains a.1.name.text then throw (.typing (.reservedVariable a.1.name.text))
    advance .afterVariableDeclaration
    return a) := by
  simp only [scanDeclaration, announcing, bind_assoc, pure_bind]

theorem readVariable_name (hat : At c .variableName n rest)
    (htoken : tokenAt .afterVariable rest = some (kind, text, left)) (hkind : kind ∉ stepSymbols) :
    Gets (readVariable scope) c fun v c' => v.unlined = ⟨⟨n, 0⟩, []⟩ ∧ At c' kind text left := by
  rw [readVariable]
  refine Gets.rounds (Gets.bind (P := fun v c' => v.unlined = ⟨⟨n, 0⟩, []⟩ ∧ At c' kind text left) ?_ ?_)
  · rw [readPrimary]
    refine Gets.look ?_
    rw [hat.kind]
    refine Gets.advance (hat.rest ▸ htoken) fun c' hat' => .pure ⟨?_, hat'⟩
    simp [Variable.unlined, Token.lexeme, hat.text, Syntax.unlinedPath]
  · rintro v c' ⟨hv, hat'⟩
    exact readSteps_stop (hat'.kind ▸ hkind) ⟨hv, hat'⟩ _

theorem colon_lexes : Lexes .afterVariable ":" (.symbol .colon) := by decide

theorem declared_name (hn : isName n) : Cuts .variablePrimary n [':'] .variableName := by
  refine cuts_name (by decide) hn (fun k hk => ?_) fun d hd => ?_
  · simp [Spot.accepts] at hk
  · cases hd
    decide

theorem announcing_gets (hn : isName n) (hc : c.source.rest = ' ' :: (n.toList ++ ':' :: behind))
    (hbehind : Parted behind) (htoken : tokenAt .typePlace behind = some (kind₁, word, left₁))
    (htype : ∀ c, At c kind₁ word left₁ → Gets (scanType scope (left₁.length + 2)) c fun form' c' =>
      form' = form ∧ At c' kind text left) :
    Gets (announcing scope) c fun a c' =>
      a.1.unlined = ⟨⟨n, 0⟩, []⟩ ∧ a.2 = form ∧ At c' kind text left := by
  have hname : tokenAt .variablePrimary c.source.rest = some (.variableName, n, ':' :: behind) := by
    have hgap : isGap (Spot.variablePrimary.accepts.contains .separator) [' '] := by decide
    have hcut := tokenAt_cut hgap (declared_name hn) hbehind
    simpa [hc] using hcut
  have hcolon : tokenAt .afterVariable (":".toList ++ behind) = some (.symbol .colon, ":", behind) :=
    tokenAt_front colon_lexes hbehind
  rw [announcing]
  refine Gets.advance hname fun c₁ hat₁ => (readVariable_name hat₁ hcolon (by decide)).bind ?_
  rintro v c₂ ⟨hv, hat₂⟩
  refine Gets.expect hat₂ htoken fun c₃ hat₃ => Gets.rounds ?_
  rw [hat₃.rest]
  refine (htype c₃ hat₃).bind ?_
  rintro form' c₄ ⟨hform, hat₄⟩
  exact .pure ⟨hv, hform, hat₄⟩

theorem unbroken_nil : Unbroken [] := ⟨by simp, by simp⟩

theorem tokenAt_line (h : Unbroken rest) :
    tokenAt .afterTypeName ('\n' :: rest) = some (.separator, "\n", rest) := by
  have htried : tried .afterTypeName = [.lowerName, .separator] := by decide
  have hskip : skipped true .nothing ('\n' :: rest) = [] := by simp [skipped]
  have hends : lineEnds rest = ([], rest) := by
    refine lineEnds_none ?_ ?_
    · rintro r rfl
      exact h.1 rfl
    · rintro r rfl
      exact h.2 rfl
  have hline : Terminal.separator.match? ('\n' :: rest) = some (['\n'], rest) := by
    simp [Terminal.match?, separators, lineEnds, hends]
  have hname : Terminal.lowerName.match? ('\n' :: rest) = none := rfl
  rw [tokenAt, show Spot.afterTypeName.accepts.contains .separator = true from rfl, hskip]
  simp [firstMatch_tried, htried, hline, hname, asKeyword, Terminal.holdsWords]

theorem scanVariables_cons (hat : At c (.word .varWord) "var" rest) {fuel : Nat}
    {P : List Announced → Cursor → Prop}
    (hdeclaration : Gets (scanDeclaration scope) c fun a c' =>
      Gets (scanVariables scope fuel) c' fun as c'' => P (a :: as) c'') :
    Gets (scanVariables scope (fuel + 1)) c P := by
  rw [scanVariables]
  refine Gets.look ?_
  rw [hat.kind, if_pos (by decide)]
  exact hdeclaration.bind fun a c' has => has.bind fun as c'' hP => .pure hP

theorem scanVariables_none (hkind : c.look.kind ≠ .word .varWord) {P : List Announced → Cursor → Prop}
    (h : P [] c) (fuel : Nat) : Gets (scanVariables scope fuel) c P := by
  cases fuel with
  | zero => exact .pure h
  | succ fuel =>
    refine Gets.look ?_
    rw [beq_eq_false_iff_ne.2 hkind]
    exact .pure h

theorem scanEnd_none (hkind : c.look.kind = .finish) :
    Gets (scanEnd scope) c fun sentences _ => sentences = [] := by
  have hnone : Gets (readSentences scope) c fun sentences c' => sentences = [] ∧ c'.look.kind = .finish := by
    rw [readSentences]
    exact Gets.rounds (readBlock_none (by rw [hkind]; decide) ⟨rfl, hkind⟩ _)
  rw [scanEnd]
  refine hnone.bind ?_
  rintro sentences c' ⟨hempty, hkind'⟩
  refine Gets.look ?_
  rw [hkind', if_neg (by decide)]
  exact .pure hempty

variable {source : String}

theorem readAnnounced_apply (setting : Setting) (s : Types)
    (htoken : tokenAt .start source.toList = some (.word .varWord, "var", left)) :
    ∃ c, At c (.word .varWord) "var" left ∧ readAnnounced setting source s =
      ((scanRest (scopeIn setting s) c).map fun found => ⟨[], 0, found.1.1, found.1.2⟩, s) := by
  obtain ⟨c, hnext, hat⟩ := next_of_token (s := { rest := source.toList }) htoken none
  have hhead : StateT.run (readHead setting) c s = _ := readHead_none (by rw [hat.kind]; decide)
  refine ⟨c, hat, ?_⟩
  rw [readAnnounced, bind_apply, lift_apply, hnext]
  dsimp only
  rw [bind_apply, hhead]
  dsimp only
  rw [bind_apply, get_apply]
  dsimp only
  rw [bind_apply, lift_apply, show StateT.run (scanRest ⟨s.constantNames, setting.environment⟩) c =
    scanRest (scopeIn setting s) c from rfl]
  rcases scanRest (scopeIn setting s) c with e | ⟨⟨as, sentences⟩, c'⟩ <;> rfl

theorem readProgram_scanned (setting : Setting) (hs : s.Sound)
    (htoken : tokenAt .start source.toList = some (.word .varWord, "var", left))
    {P : List Announced → List Sentence → Prop}
    (hscan : ∀ c, At c (.word .varWord) "var" left → Gets (scanRest (scopeIn setting s)) c fun found _ =>
      P found.1 found.2) :
    ∃ as sentences, P as sentences ∧
      readProgram setting source s = declareAnnounced ⟨[], 0, as, sentences⟩ s := by
  obtain ⟨c, hat, hread⟩ := readAnnounced_apply setting s htoken
  obtain ⟨⟨as, sentences⟩, c', hfound, hP⟩ := hscan c hat
  rw [hfound] at hread
  exact ⟨as, sentences, hP, (readProgram_of_announced hs hread).2⟩

theorem readProgram_unscanned (hs : s.Sound)
    (htoken : tokenAt .start source.toList = some (.word .varWord, "var", left))
    (hscan : ∀ c, At c (.word .varWord) "var" left → Fails (scanRest (scopeIn setting s)) c fun _ => True)
    (p : Program) (s' : Types) : readProgram setting source s ≠ (.ok p, s') := by
  intro hread
  obtain ⟨c, hat, happly⟩ := readAnnounced_apply setting s htoken
  obtain ⟨fault, hfails, -⟩ := hscan c hat
  obtain ⟨a, s₀, hannounced⟩ := announced_of_read hs hread
  rw [hfails] at happly
  cases happly.symm.trans hannounced

end Scan

/-- The text that declares a variable of whole numbers. -/
def declaring (n : String) : String := "var " ++ n ++ ": int\n"

/-- The text that declares a variable and another one, sets the first and copies it to the other. -/
def copying (n : String) : String :=
  declaring n ++ declaring "other" ++ n ++ " := 1\nother := " ++ n

/-- The words that are not reserved and yet are keywords where a sentence or an expression begins. -/
def shadowed : List String := ["var", "skip", "for", "getenv"]

section Names

variable {scope : Scope} {c : Cursor} {n text : String} {kind : Terminal} {left rest : List Char}

theorem toList_declaring (n : String) (rest : List Char) : (declaring n).toList ++ rest =
    "var".toList ++ ' ' :: (n.toList ++ ':' :: (spaced ["int"] ++ '\n' :: rest)) := by
  simp [declaring, spaced_cons]

theorem announcing_whole (hn : isName n) (hrest : Unbroken rest)
    (hc : c.source.rest = ' ' :: (n.toList ++ ':' :: (spaced ["int"] ++ '\n' :: rest))) :
    Gets (announcing scope) c fun a c' =>
      a.1.unlined = ⟨⟨n, 0⟩, []⟩ ∧ a.2 = .named "int" ∧ At c' .separator "\n" rest := by
  have hint : Lexes .typePlace "int" .basicType := by decide
  have hline : Parted ('\n' :: rest) := .cons (by decide) _
  refine announcing_gets hn hc (parted_spaced hline _) (tokenAt_spaced hint [] hline) fun c₁ hat₁ => ?_
  rw [scanType]
  refine Gets.look ?_
  rw [hat₁.kind]
  refine Gets.advance (hat₁.rest ▸ tokenAt_line hrest) fun c₂ hat₂ => .pure ⟨?_, hat₂⟩
  rw [hat₁.text]

theorem scanDeclaration_gets {form : TypeForm} (hfree : n ∉ reserved)
    (hannounce : Gets (announcing scope) c fun a c' =>
      a.1.unlined = ⟨⟨n, 0⟩, []⟩ ∧ a.2 = form ∧ At c' .separator "\n" rest)
    (htoken : tokenAt .afterVariableDeclaration rest = some (kind, text, left)) :
    Gets (scanDeclaration scope) c fun a c' =>
      a.1.unlined = ⟨⟨n, 0⟩, []⟩ ∧ a.2 = form ∧ At c' kind text left := by
  rw [scanDeclaration_eq]
  refine hannounce.bind ?_
  rintro a c' ⟨hname, hform, hat⟩
  have htext : a.1.name.text = n := congrArg (·.name.text) hname
  refine Gets.look ?_
  rw [hat.kind, htext, if_neg (by decide), if_neg (by simpa using hfree)]
  exact Gets.advance (hat.rest ▸ htoken) fun c'' hat' => .pure ⟨hname, hform, hat'⟩

theorem readProgram_declaration (setting : Setting) {s : Types} (hs : s.Sound) {source : String} {form : TypeForm}
    (hfree : n ∉ reserved) (htoken : tokenAt .start source.toList = some (.word .varWord, "var", left))
    (hannounce : ∀ c, c.source.rest = left → Gets (announcing (scopeIn setting s)) c fun a c' =>
      a.1.unlined = ⟨⟨n, 0⟩, []⟩ ∧ a.2 = form ∧ At c' .separator "\n" []) :
    ∃ v, v.unlined = ⟨⟨n, 0⟩, []⟩ ∧
      readProgram setting source s = declareAnnounced ⟨[], 0, [(v, form)], []⟩ s := by
  obtain ⟨as, sentences, ⟨⟨v, rfl, hv⟩, rfl⟩, hread⟩ := readProgram_scanned setting hs htoken
    (P := fun as sentences => (∃ v, as = [(v, form)] ∧ v.unlined = ⟨⟨n, 0⟩, []⟩) ∧ sentences = []) (by
    intro c hat
    rw [scanRest]
    refine Gets.rounds (Gets.bind (P := fun as c' => (∃ v, as = [(v, form)] ∧ v.unlined = ⟨⟨n, 0⟩, []⟩) ∧
      c'.look.kind = .finish) (scanVariables_cons hat ?_) ?_)
    · refine (scanDeclaration_gets hfree (hannounce c hat.rest) (tokenAt_finish rfl rfl)).mono ?_
      rintro ⟨v, _⟩ c' ⟨hv, rfl, hat'⟩
      exact scanVariables_none (by rw [hat'.kind]; decide) ⟨⟨v, rfl, hv⟩, hat'.kind⟩ _
    · rintro as c' ⟨has, hkind⟩
      exact (scanEnd_none hkind).bind fun _ _ hsentences => .pure ⟨has, hsentences⟩)
  exact ⟨v, hv, hread⟩

theorem scanDeclaration_reserved (hn : isName n) (hreserved : n ∈ reserved) (hrest : Unbroken rest)
    (hc : c.source.rest = ' ' :: (n.toList ++ ':' :: (spaced ["int"] ++ '\n' :: rest))) :
    Fails (scanDeclaration scope) c fun _ => True := by
  rw [scanDeclaration_eq]
  refine (announcing_whole hn hrest hc).fails ?_
  rintro a c' ⟨hname, -, hat⟩
  have htext : a.1.name.text = n := congrArg (·.name.text) hname
  refine Fails.look ?_
  rw [hat.kind, htext, if_neg (by decide), if_pos (by simpa using hreserved)]
  exact ⟨_, rfl, trivial⟩

theorem readSentences_copying (hn : isName n) (hlex : ∀ spot ∈ blockSpots, Lexes spot n .variableName)
    (hliteral : n ∉ literalWords)
    (hat : At c .variableName n
      (spaced [":=", "1"] ++ '\n' :: ("other".toList ++ spaced [":=", n]))) :
    Gets (readSentences scope) c fun block c' =>
      unlinedBlock block = [.assign ⟨⟨n, 0⟩, []⟩ (.literal .integer ⟨"1", 0⟩),
        .assign ⟨⟨"other", 0⟩, []⟩ (.access ⟨n, 0⟩ [])] ∧ At c' .finish "" [] := by
  have hassign {w : String} {e : Expr} (hw : isName w) (hlex : ∀ spot ∈ blockSpots, Lexes spot w .variableName)
      (he : ReadsBack scope e) :
      ReadsSentence scope w .variableName (spaced (":=" :: e.words)) (.assign ⟨⟨w, 0⟩, []⟩ e) := by
    have hkind := frontKind_name hw
    rw [← hkind] at hlex ⊢
    exact .assign (.name hw 0) (.inl hkind) hlex he
  have hother : ∀ spot ∈ blockSpots, Lexes spot "other" .variableName := by decide
  have hone : ReadsBack scope (.literal .integer ⟨"1", 0⟩) := readsBack _ (by rfl)
  have hread : ReadsBack scope (.access ⟨n, 0⟩ []) :=
    readsBack _ (by simpa [spellable, spellablePath, hn] using hliteral)
  have hlast : ReadsBlock scope [] _ _ := .single (hassign (by decide) hother hread)
  obtain ⟨first, htoken, hruns⟩ := (ReadsBlock.cons (hassign hn hlex hone) (.newline false ⟨[], rfl⟩)
    hlast).reads .start [] .finish (by decide) rfl nofun
  have hfirst : tokenAt .start (n.toList ++ (spaced [":=", "1"] ++ '\n' ::
    ("other".toList ++ spaced [":=", n]))) = _ := tokenAt_front (hlex .start (by decide)) (.cons (by decide) _)
  simp [Expr.words, Syntax.pathWords, Break.text] at htoken hfirst
  cases htoken.symm.trans hfirst
  exact hruns.sentences hat

end Names

theorem declareAnnounced_whole (as : List Announced) (h : ∀ a ∈ as, a.2 = .named "int")
    (sentences : List Sentence) : declareAnnounced ⟨[], 0, as, sentences⟩ {} =
      (.ok ⟨[], 0, as.map fun a => ⟨a.1, 0⟩, sentences⟩, {}) := by
  have hone (v : Variable) : declare (v, .named "int") {} = (.ok ⟨v, 0⟩, {}) := rfl
  have hall : declareEach as {} = (.ok (as.map fun a => ⟨a.1, 0⟩), {}) := by
    induction as with
    | nil => rfl
    | cons a as ih =>
      obtain ⟨v, form⟩ := a
      obtain rfl : form = .named "int" := h _ List.mem_cons_self
      rw [declareEach_cons, hone]
      dsimp only
      rw [ih fun a ha => h a (List.mem_cons_of_mem _ ha)]
      rfl
  have hsettle : Types.settleAll {} = (.ok (), {}) := rfl
  rw [declareAnnounced, bind_apply, declareUnsettled_apply, hall]
  dsimp only [Except.map]
  rw [bind_apply, hsettle]
  rfl

section Names

variable {setting : Setting} {n : String}

theorem var_lexes : Lexes .start "var" (.word .varWord) ∧
    Lexes .afterVariableDeclaration "var" (.word .varWord) := by decide

theorem tokenAt_var {spot : Spot} (h : Lexes spot "var" (.word .varWord)) (n : String) (rest : List Char) :
    tokenAt spot ((declaring n).toList ++ rest) = some (.word .varWord, "var",
      ' ' :: (n.toList ++ ':' :: (spaced ["int"] ++ '\n' :: rest))) := by
  rw [toList_declaring]
  exact tokenAt_front h (.cons (by decide) _)

theorem declaring_reads (setting : Setting) (hn : isName n) (hfree : n ∉ reserved) :
    ∃ p, readProgram setting (declaring n) {} = (.ok p, {}) := by
  have htoken := tokenAt_var var_lexes.1 n []
  rw [List.append_nil] at htoken
  obtain ⟨v, -, hread⟩ := readProgram_declaration setting Types.sound_basic hfree htoken fun c hc =>
    announcing_whole hn unbroken_nil hc
  exact ⟨_, hread.trans (declareAnnounced_whole _ (by simp) _)⟩

theorem declaring_reserved (hn : isName n) (hreserved : n ∈ reserved) (p : Program) (s : Types) :
    readProgram setting (declaring n) {} ≠ (.ok p, s) := by
  have htoken := tokenAt_var var_lexes.1 n []
  rw [List.append_nil] at htoken
  refine readProgram_unscanned Types.sound_basic htoken (fun c hat => ?_) p s
  rw [scanRest]
  refine Fails.rounds (Fails.bind ?_)
  rw [scanVariables]
  refine Fails.look ?_
  rw [hat.kind, if_pos (by decide)]
  exact (scanDeclaration_reserved hn hreserved unbroken_nil hat.rest).bind

/-- What the text with both assignments is read as. -/
structure Copies (n : String) (p : Program) : Prop where
  types : p.types = []
  declarations : p.declarations.map (fun d => (d.place.unlined, d.type)) =
    [(⟨⟨n, 0⟩, []⟩, 0), (⟨⟨"other", 0⟩, []⟩, 0)]
  sentences : unlinedBlock p.sentences = [.assign ⟨⟨n, 0⟩, []⟩ (.literal .integer ⟨"1", 0⟩),
    .assign ⟨⟨"other", 0⟩, []⟩ (.access ⟨n, 0⟩ [])]

theorem unbroken_name (hn : isName n) (rest : List Char) : Unbroken (n.toList ++ rest) := by
  obtain ⟨c, cs, hcs, hc, -⟩ := all_of_isName hn
  rw [hcs]
  constructor <;> rintro hline <;> cases hline <;> cases hc

theorem copying_reads (hn : isName n) (hfree : n ∉ reserved) (hshadowed : n ∉ shadowed) :
    ∃ p s, readProgram setting (copying n) {} = (.ok p, s) ∧ Copies n p := by
  have hliteral : n ∉ literalWords := fun hmem =>
    have hall : ∀ w ∈ literalWords, w ∈ reserved ∨ w ∈ shadowed := by decide
    (hall n hmem).elim hfree hshadowed
  have hspots : ∀ spot ∈ .afterVariableDeclaration :: blockSpots,
      ((tried spot).filter (· != .real)).head? = some .variableName := by decide
  have hkeys (k : Word) : k.text ∈ reserved ∨ k.text ∈ shadowed ∨
      ∀ spot ∈ .afterVariableDeclaration :: blockSpots, .word k ∉ spot.accepts := by
    cases k <;> decide
  have hlex (spot) (hspot : spot ∈ .afterVariableDeclaration :: blockSpots) : Lexes spot n .variableName :=
    lexes_name (hspots spot hspot) hn fun k hk heq => by
      rcases heq ▸ hkeys k with hmem | hmem | hnone
      · exact hfree hmem
      · exact hshadowed hmem
      · exact hnone spot hspot hk
  let tail := spaced [":=", "1"] ++ '\n' :: ("other".toList ++ spaced [":=", n])
  have htext : (copying n).toList =
      (declaring n).toList ++ ((declaring "other").toList ++ (n.toList ++ tail)) := by
    simp [copying, tail, spaced_cons]
  have htoken := tokenAt_var var_lexes.1 n ((declaring "other").toList ++ (n.toList ++ tail))
  rw [← htext] at htoken
  have htoken' := tokenAt_var var_lexes.2 "other" (n.toList ++ tail)
  have hsentence : tokenAt .afterVariableDeclaration (n.toList ++ tail) = some (.variableName, n, tail) :=
    tokenAt_front (hlex _ List.mem_cons_self) (.cons (by decide) _)
  obtain ⟨as, sentences, ⟨⟨v, v', rfl, hv, hv'⟩, hsentences⟩, hread⟩ :=
    readProgram_scanned setting Types.sound_basic htoken
    (P := fun as sentences => (∃ v v', as = [(v, .named "int"), (v', .named "int")] ∧
        v.unlined = ⟨⟨n, 0⟩, []⟩ ∧ v'.unlined = ⟨⟨"other", 0⟩, []⟩) ∧
      unlinedBlock sentences = [.assign ⟨⟨n, 0⟩, []⟩ (.literal .integer ⟨"1", 0⟩),
        .assign ⟨⟨"other", 0⟩, []⟩ (.access ⟨n, 0⟩ [])]) (by
    intro c hat
    rw [scanRest]
    refine Gets.rounds (Gets.bind (P := fun as c' => (∃ v v', as = [(v, .named "int"), (v', .named "int")] ∧
      v.unlined = ⟨⟨n, 0⟩, []⟩ ∧ v'.unlined = ⟨⟨"other", 0⟩, []⟩) ∧ At c' .variableName n tail)
      (scanVariables_cons hat ?_) ?_)
    · refine (scanDeclaration_gets hfree (announcing_whole hn ⟨by simp [declaring], by simp [declaring]⟩ hat.rest)
        htoken').mono ?_
      rintro ⟨v, _⟩ c₁ ⟨hv, rfl, hat₁⟩
      refine scanVariables_cons hat₁ ((scanDeclaration_gets (by decide) (announcing_whole (by decide)
        (unbroken_name hn tail) hat₁.rest) hsentence).mono ?_)
      rintro ⟨v', _⟩ c₂ ⟨hv', rfl, hat₂⟩
      exact scanVariables_none (by rw [hat₂.kind]; decide) ⟨⟨v, v', rfl, hv, hv'⟩, hat₂⟩ _
    · rintro as c₁ ⟨has, hat₁⟩
      refine Gets.bind (P := fun sentences _ => unlinedBlock sentences = _) ?_
        fun sentences _ hsentences => .pure ⟨has, hsentences⟩
      rw [scanEnd]
      have hblocks (spot : Spot) (hspot : spot ∈ blockSpots) := hlex spot (List.mem_cons_of_mem _ hspot)
      refine (readSentences_copying hn hblocks hliteral hat₁).bind ?_
      rintro sentences c₂ ⟨hsentences, hat₂⟩
      refine Gets.look ?_
      rw [hat₂.kind, if_neg (by decide)]
      exact .pure hsentences)
  rw [declareAnnounced_whole _ (by simp)] at hread
  exact ⟨_, _, hread, rfl, by simp [hv, hv'], hsentences⟩

end Names

theorem shadowed_refused : ∀ n ∈ shadowed, fails (readProgram {} (copying n)) {} (fun _ _ => true) = true := by
  decide +kernel

/-- A name can be declared if and only if it is not reserved. It can then be set and read, and the program is
read as two declarations and two assignments, unless it is one of four words that are not reserved and yet
are keywords where a sentence or an expression begins; with these the program is refused. -/
theorem declared_names_used_unless_shadowed (setting : Setting) (n : String) (hn : isName n = true) :
    ((∃ p s, (readProgram setting (declaring n)).run {} = (.ok p, s)) ↔ n ∉ reserved) ∧
      (n ∉ reserved → n ∉ shadowed →
        ∃ p s, (readProgram setting (copying n)).run {} = (.ok p, s) ∧ Copies n p) ∧
      (n ∈ shadowed → n ∉ reserved ∧ ∀ p s, (readProgram {} (copying n)).run {} ≠ (.ok p, s)) := by
  refine ⟨⟨?_, fun hfree => (declaring_reads setting hn hfree).imp fun _ h => ⟨{}, h⟩⟩,
    fun hfree hshadowed => copying_reads hn hfree hshadowed,
    fun hshadowed => ⟨?_, ?_⟩⟩
  · rintro ⟨p, s, hread⟩ hreserved
    exact declaring_reserved hn hreserved p s hread
  · have hall : ∀ w ∈ shadowed, w ∉ reserved := by decide
    exact hall n hshadowed
  · intro p s hread
    obtain ⟨e, s', hfails, -⟩ := of_fails (shadowed_refused n hshadowed)
    cases hfails.symm.trans hread

/-- The name of a direction of counting is free: it is a keyword only behind an expression. -/
theorem downto_used : ∃ p s, (readProgram {} (copying "downto")).run {} = (.ok p, s) ∧ Copies "downto" p :=
  (declared_names_used_unless_shadowed {} "downto" (by decide)).2.1 (by decide) (by decide)

/-- A variable of this name can be declared, and nothing more. -/
theorem skip_declared_not_used : (∃ p s, (readProgram {} (declaring "skip")).run {} = (.ok p, s)) ∧
    ∀ p s, (readProgram {} (copying "skip")).run {} ≠ (.ok p, s) := by
  refine ⟨(declaring_reads {} (by decide) (by decide)).imp fun _ h => ⟨{}, h⟩, fun p s hread => ?_⟩
  obtain ⟨e, s', hfails, -⟩ := of_fails (shadowed_refused "skip" (by decide))
  cases hfails.symm.trans hread

end Chalkboard.Reading
