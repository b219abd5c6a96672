import Chalkboard.Proofs.ReadBack
import Chalkboard.Proofs.ReadTypes

/-! Assignments that are written are read back, for every expression that can be written. -/

namespace Chalkboard.Reading

open Syntax (Expr Variable Step Sentence)
open Effects

section Programs

variable {setting : Setting} {s : Types} {scope : Scope} {e : Expr} {v : Variable} {words : List String}
  {rest left : List Char} {kind : Terminal} {text : String} {fuel : Nat} {c : Cursor} {blank tight : Bool}

theorem Looks.rounds {spot : Spot} (h : Looks spot (spaced words ++ rest) c) (hstarts : Starts spot words)
    (hrest : Parted rest) : words.length ≤ c.source.rest.length + 1 := by
  obtain ⟨w, words', kind, rfl, hw⟩ := hstarts
  have hat := h.at (tokenAt_spaced hw words' hrest)
  have hlength := length_spaced words'
  rw [hat.rest, List.length_append, List.length_cons]
  omega

theorem ReadsBack.expr (h : ReadsBack scope e) (hends : Ends rest kind text left) (hkind : kind ∉ levels)
    (hlooks : Looks .expression (spaced e.words ++ rest) c) :
    Gets (readExpr scope) c fun e' c' => e'.unlined = e.unlined ∧ At c' kind text left := by
  have hparses : Parses scope levels e.words e := h.within (k := 0) (level_le e) (Nat.zero_le 5)
  have hrounds := hlooks.rounds hparses.starts hends.parted
  rw [readExpr]
  exact Gets.rounds (hparses.reads hends hkind (by omega) hlooks)

theorem ReadsBack.words_ne_nil (h : ReadsBack scope e) : e.words ≠ [] := by
  obtain ⟨w, words', kind, hcons, -⟩ := (h.parses (level_le e)).starts
  rw [hcons]
  exact List.cons_ne_nil _ _

theorem Spelled.rounds (h : Spelled scope blank words tight v) (hopens : Opens blank words rest c) :
    words.length ≤ c.source.rest.length + 1 := by
  obtain ⟨w, words', rfl, hlength, -⟩ := h.front
  obtain ⟨_, _, hcons, hat⟩ := hopens
  cases hcons
  rw [hat.rest, List.length_append, List.length_cons]
  omega

theorem Spelled.variable (h : Spelled scope blank words tight v) (hbehind : Behind rest kind text left)
    (hkind : kind ∉ stepSymbols) (hopens : Opens blank words rest c) :
    Gets (readVariable scope) c fun v' c' => v'.unlined = v.unlined ∧ At c' kind text left := by
  have hrounds := h.rounds hopens
  have hread : Gets (readPrimary scope (c.source.rest.length + 2) >>= fun v =>
      readSteps (readIndex scope (c.source.rest.length + 2)) (c.source.rest.length + 2) v >>= Pure.pure) c
      fun v' c' => v'.unlined = v.unlined ∧ At c' kind text left :=
    h.reads hbehind hkind (by omega) (by omega) (by omega) hopens fun v' c' hv hat => .pure ⟨hv, hat⟩
  simp only [bind_pure] at hread
  rw [readVariable]
  exact Gets.rounds hread

theorem readSentence_assigns {P : Variable → Prop}
    (hv : Gets (readVariable scope) c fun v c' => P v ∧ At c' (.symbol .assign) ":=" (spaced e.words ++ rest))
    (he : ReadsBack scope e) (hends : Ends rest kind text left) (hkind : kind ∉ levels)
    (hfront : c.look.kind = .variableName ∨ c.look.kind = .symbol .star) :
    Gets (readSentence scope (fuel + 1)) c fun sentence c' =>
      (∃ v e', sentence = .assign v e' ∧ P v ∧ e'.unlined = e.unlined) ∧ At c' kind text left := by
  have hparses : Parses scope levels e.words e := he.within (k := 0) (level_le e) (Nat.zero_le 5)
  obtain ⟨kind₁, text₁, left₁, htoken⟩ := hparses.starts.token hends.parted
  have hread : Gets (do
      let v ← readVariable scope
      let _ ← expect (.symbol .assign) .expression
      return Sentence.assign v (← readExpr scope)) c fun sentence c' =>
      (∃ v e', sentence = .assign v e' ∧ P v ∧ e'.unlined = e.unlined) ∧ At c' kind text left := by
    refine hv.bind ?_
    rintro v c₁ ⟨hv, hat₁⟩
    refine Gets.expect hat₁ htoken fun c₂ hat₂ => ?_
    refine (he.expr hends hkind ⟨_, _, _, htoken, hat₂⟩).bind ?_
    rintro e' c₃ ⟨he', hat₃⟩
    exact .pure ⟨⟨v, e', rfl, hv, he'⟩, hat₃⟩
  rw [readSentence]
  refine Gets.look ?_
  rcases hfront with hfront | hfront <;> rw [hfront] <;> exact hread

theorem readSentence_assign (hv : Spelled scope true words tight v) (he : ReadsBack scope e)
    (hends : Ends rest kind text left) (hkind : kind ∉ levels)
    (hopens : Opens true words (spaced (":=" :: e.words) ++ rest) c)
    (hfront : c.look.kind = .variableName ∨ c.look.kind = .symbol .star) :
    Gets (readSentence scope (fuel + 1)) c fun sentence c' =>
      (∃ v' e', sentence = .assign v' e' ∧ v'.unlined = v.unlined ∧ e'.unlined = e.unlined) ∧
        At c' kind text left :=
  readSentence_assigns (hv.variable (.spaced assign_lex _ hends.parted) (by decide) hopens) he hends hkind hfront

theorem roundsLeft_apply (c : Cursor) (s : Types) :
    roundsLeft c s = (.ok (c.source.rest.length + 2, c), s) := by
  rw [roundsLeft, reading_apply]
  rfl

theorem readHead_none (hkind : c.look.kind ∉ [.word .typeWord, .procedure]) :
    readHead setting c s = (.ok (([], 0), c), s) := by
  simp only [List.mem_cons, List.not_mem_nil, or_false, not_or] at hkind
  obtain ⟨htype, hprocedure⟩ := hkind
  have htypes (fuel : Nat) : readTypeSection setting fuel c s = (.ok ([], c), s) := by
    cases fuel with
    | zero => rfl
    | succ fuel =>
      rw [readTypeSection, declare_bind, reading_apply, look_apply]
      simp only [beq_eq_false_iff_ne.2 htype, Bool.false_eq_true, if_false]
      rfl
  have hprocedures (fuel : Nat) : readProcedures fuel c s = (.ok (0, c), s) := by
    cases fuel with
    | zero => rfl
    | succ fuel =>
      rw [readProcedures, declare_bind, reading_apply, look_apply]
      simp only [beq_eq_false_iff_ne.2 hprocedure, Bool.false_eq_true, if_false]
      rfl
  rw [readHead, declare_bind, roundsLeft_apply]
  dsimp only
  rw [declare_bind, htypes]
  dsimp only
  rw [declare_bind, roundsLeft_apply]
  dsimp only
  rw [declare_bind, hprocedures]
  rfl

theorem readSections_sentences
    (hkind : c.look.kind ∉ [.word .typeWord, .procedure, .word .varWord]) :
    readSections setting c s = ((scanEnd (scopeIn setting s) c).map fun found =>
      (⟨[], 0, [], found.1⟩, found.2), s) := by
  simp only [List.mem_cons, List.not_mem_nil, or_false, not_or] at hkind
  obtain ⟨htype, hprocedure, hvar⟩ := hkind
  have hvariables (fuel : Nat) : readVariableSection setting fuel c s = (.ok ([], c), s) := by
    cases fuel with
    | zero => rfl
    | succ fuel =>
      rw [readVariableSection, declare_bind, reading_apply, look_apply]
      simp only [beq_eq_false_iff_ne.2 hvar, Bool.false_eq_true, if_false]
      rfl
  rw [readSections_eq, declare_bind, readHead_none (by simp [htype, hprocedure])]
  dsimp only
  rw [readRest, declare_bind, roundsLeft_apply]
  dsimp only
  rw [declare_bind, hvariables]
  dsimp only
  rw [declare_bind, readEnd_reads c]
  rcases scanEnd (scopeIn setting s) c with _ | ⟨_, _⟩ <;> rfl

variable {source : String}

theorem readUnsettled_apply (setting : Setting) (s : Types)
    (htoken : tokenAt .start source.toList = some (kind, text, left))
    (hkind : kind ∉ [.word .typeWord, .procedure, .word .varWord]) :
    ∃ c, At c kind text left ∧ readUnsettled setting source s =
      ((scanEnd (scopeIn setting s) c).map fun found => ⟨[], 0, [], found.1⟩, s) := by
  obtain ⟨c, hnext, hat⟩ := next_of_token (s := { rest := source.toList }) htoken none
  have hsections : StateT.run (readSections setting) c s = _ := readSections_sentences (hat.kind ▸ hkind)
  refine ⟨c, hat, ?_⟩
  rw [readUnsettled, bind_apply, lift_apply, hnext]
  dsimp only
  rw [bind_apply, hsections]
  rcases scanEnd (scopeIn setting s) c with _ | ⟨_, _⟩ <;> rfl

theorem readUnsettled_sentences (setting : Setting) (s : Types) {P : List Sentence → Prop}
    (htoken : tokenAt .start source.toList = some (kind, text, left))
    (hkind : kind ∉ [.word .typeWord, .procedure, .word .varWord])
    (hread : ∀ c, At c kind text left → Gets (readSentences (scopeIn setting s)) c fun sentences c' =>
      P sentences ∧ c'.look.kind = .finish) :
    ∃ sentences, readUnsettled setting source s = (.ok ⟨[], 0, [], sentences⟩, s) ∧ P sentences := by
  obtain ⟨c, hat, happly⟩ := readUnsettled_apply setting s htoken hkind
  have hscan : Gets (scanEnd (scopeIn setting s)) c fun sentences _ => P sentences := by
    rw [scanEnd]
    refine (hread c hat).bind ?_
    rintro sentences c' ⟨hsentences, hfinish⟩
    refine Gets.look ?_
    rw [hfinish, bne_self_eq_false, if_neg Bool.false_ne_true]
    exact .pure hsentences
  obtain ⟨sentences, c', hscan, hsentences⟩ := hscan
  refine ⟨sentences, ?_, hsentences⟩
  rw [happly, hscan]
  rfl

theorem readUnsettled_fails (setting : Setting) (s : Types) {P : Fault → Prop}
    (htoken : tokenAt .start source.toList = some (kind, text, left))
    (hkind : kind ∉ [.word .typeWord, .procedure, .word .varWord])
    (hread : ∀ c, At c kind text left → Fails (readSentences (scopeIn setting s)) c P) :
    ∃ fault, readUnsettled setting source s = (.error fault, s) ∧ P fault := by
  obtain ⟨c, hat, happly⟩ := readUnsettled_apply setting s htoken hkind
  obtain ⟨fault, hscan, hfault⟩ : Fails (scanEnd (scopeIn setting s)) c P := (hread c hat).bind
  refine ⟨fault, ?_, hfault⟩
  rw [happly, hscan]
  rfl

theorem readProgram_settled {p : Syntax.Program} {s' : Types}
    (h : readUnsettled setting source s = (.ok p, s)) (hsettle : Types.settleAll s = (.ok (), s')) :
    readProgram setting source s = (.ok p, s') := by
  rw [readProgram, bind_apply, h]
  dsimp only
  rw [bind_apply, hsettle]
  rfl

theorem readProgram_fails {fault : Fault}
    (h : readUnsettled setting source s = (.error fault, s)) :
    readProgram setting source s = (.error fault, s) := by
  rw [readProgram, bind_apply, h]

/-- One assignment and nothing else, whatever its destination is read as. -/
theorem readProgram_assigns (setting : Setting) (s : Types) {P : Variable → Prop}
    (he : ReadsBack (scopeIn setting s) e) (htoken : tokenAt .start source.toList = some (kind, text, left))
    (hkind : kind = .variableName ∨ kind = .symbol .star)
    (hv : ∀ c, At c kind text left → Gets (readVariable (scopeIn setting s)) c fun v c' =>
      P v ∧ At c' (.symbol .assign) ":=" (spaced e.words)) :
    ∃ v e', P v ∧ e'.unlined = e.unlined ∧
      readUnsettled setting source s = (.ok ⟨[], 0, [], [.assign v e']⟩, s) ∧
      ∀ s', Types.settleAll s = (.ok (), s') →
        readProgram setting source s = (.ok ⟨[], 0, [], [.assign v e']⟩, s') := by
  have hstart : kind ∉ [.word .typeWord, .procedure, .word .varWord] ∧ sentenceStarts.contains kind = true := by
    rcases hkind with rfl | rfl <;> decide
  obtain ⟨sentences, hread, v, e', rfl, hv, he'⟩ := readUnsettled_sentences setting s
    (P := fun sentences => ∃ v e', sentences = [.assign v e'] ∧ P v ∧ e'.unlined = e.unlined) htoken hstart.1 (by
    intro c hat
    rw [readSentences]
    refine Gets.rounds (Gets.look ?_)
    rw [hat.kind, if_pos hstart.2]
    have hassign := hv c hat
    rw [← List.append_nil (spaced e.words)] at hassign
    refine (readSentence_assigns hassign he .finish (by decide) (hat.kind ▸ hkind)).bind ?_
    rintro _ c' ⟨⟨v, e', rfl, hv, he'⟩, hat'⟩
    refine Gets.look ?_
    rw [hat'.kind, if_neg (by decide)]
    exact .pure ⟨⟨v, e', rfl, hv, he'⟩, hat'.kind⟩)
  exact ⟨v, e', hv, he', hread, fun s' hsettle => readProgram_settled hread hsettle⟩

end Programs

section Assignments

variable {e : Expr}

/-- The text that assigns an expression, its words separated by one blank. -/
def assignment (e : Expr) : String := "zz := " ++ " ".intercalate e.words

theorem toList_intercalate (w : String) (words : List String) :
    (" ".intercalate (w :: words)).toList = w.toList ++ spaced words := by
  rw [String.toList_intercalate]
  induction words generalizing w with
  | nil => simp [List.intercalate]
  | cons w' words ih =>
    rw [List.map_cons, List.map_cons, List.intercalate_cons_cons, ← List.map_cons, ih, spaced_cons]
    simp

theorem toList_assignment (h : e.words ≠ []) :
    (assignment e).toList = "zz".toList ++ spaced (":=" :: e.words) := by
  rcases hwords : e.words with _ | ⟨w, words⟩
  · exact absurd hwords h
  · rw [assignment, String.toList_append, hwords, toList_intercalate, spaced_cons, spaced_cons]
    rfl

theorem assigned_lex : Lexes .start "zz" .variableName := by decide

theorem assigned_opens {words : List String} {c : Cursor} (hat : At c .variableName "zz" (spaced words)) :
    Opens true ["zz"] (spaced words ++ []) c :=
  ⟨"zz", [], rfl, by simpa [strung, frontKind_name (w := "zz") (by decide)] using hat⟩

/-- An expression that can be written is read back, whatever is known beside its constants. Nothing else
comes with it, and the types stay as they are. -/
theorem written_expressions_read_back (setting : Setting) (s : Types) (e : Expr)
    (h : spellable s.constantNames e = true) :
    ∃ v e', v.unlined = ⟨⟨"zz", 0⟩, []⟩ ∧ e'.unlined = e.unlined ∧
      readUnsettled setting (assignment e) s = (.ok ⟨[], 0, [], [.assign v e']⟩, s) ∧
      ∀ s', Types.settleAll s = (.ok (), s') →
        readProgram setting (assignment e) s = (.ok ⟨[], 0, [], [.assign v e']⟩, s') := by
  have he : ReadsBack (scopeIn setting s) e := readsBack e h
  have htoken : tokenAt .start (assignment e).toList =
      some (.variableName, "zz", spaced (":=" :: e.words)) := by
    rw [toList_assignment he.words_ne_nil]
    exact tokenAt_front assigned_lex (.cons (by decide) _)
  refine readProgram_assigns setting s he htoken (.inl rfl) fun c hat => ?_
  have hassign := Behind.spaced assign_lex e.words .nil
  rw [List.append_nil (spaced e.words)] at hassign
  exact Spelled.variable (.name (w := "zz") (by decide) 0) hassign (by decide) (assigned_opens hat)

/-- Types among which there are two constants. -/
def hues : Types := ((do Types.register {} "hue" (← Types.addEnum ["Red", "Green"]) : Types.TypesM Unit).run {}).2

def mixed : Expr :=
  let access (name : String) (path : List Step) : Expr := .access ⟨name, 1⟩ path
  let integer (text : String) : Expr := .literal .integer ⟨text, 1⟩
  let row := access "node" [.deref, .field "next",
    .index [access "i" [], .binary (integer "3") .minus (integer "inf")], .deref]
  let scaled := .binary (.unary .negative (.binary (access "a" []) .sum (integer "2"))) .times row
  let bounded := .binary scaled .lessEqual (.literal .real ⟨"3.50", 1⟩)
  let quoted := .unary .not (.binary (access "c" []) .equal (.literal .char ⟨"'", 1⟩))
  let colored := .binary (access "hue" []) .notEqual (.literal .enum ⟨"Red", 1⟩)
  let ended := .binary (access "p" [.deref, .deref]) .equal (.literal .null ⟨"null", 1⟩)
  .binary (.binary bounded .and quoted) .or (.binary colored .and ended)

theorem mixed_read_back : spellable hues.constantNames mixed = true ∧
    ∃ s' v e', v.unlined = ⟨⟨"zz", 0⟩, []⟩ ∧ e'.unlined = mixed.unlined ∧
      readProgram {} (assignment mixed) hues = (.ok ⟨[], 0, [], [.assign v e']⟩, s') := by
  have hspellable : spellable hues.constantNames mixed = true := by decide +kernel
  have hsettles : passes Types.settleAll hues (fun _ _ => true) = true := by decide +kernel
  obtain ⟨_, s', hsettle, -⟩ := of_passes hsettles
  obtain ⟨v, e', hv, he, -, hread⟩ := written_expressions_read_back {} hues mixed hspellable
  exact ⟨hspellable, s', v, e', hv, he, hread s' hsettle⟩

example : assignment mixed = "zz := - ( a + 2 ) * * ( * node . next [ i , 3 - inf ] ) <= 3.50 && " ++
    "! ( c == ' ' ' ) || ( hue != Red && * * p == null )" := by decide

theorem readLevels_fails {operand : Read Expr} {c : Cursor} {P : Fault → Prop} (h : Fails operand c P)
    (fuel : Nat) (ops : List Terminal) : Fails (readLevels operand fuel ops) c P := by
  induction ops with
  | nil => exact h
  | cons op ops ih => exact ih.bind

theorem readExpr_long {scope : Scope} {w : String} {left : List Char} {c : Cursor} (hw : isNumeral w)
    (hlong : Number.longestNumeral < w.toList.length) (hat : At c .int w left) :
    Fails (readExpr scope) c fun fault => ∃ line, fault = .malformed line (.badLiteral "IntType" w) := by
  have hvalue : (Number.readInt? w).isSome = false := by
    rw [readInt?_numeral hw, decide_eq_false (Nat.not_le.2 hlong)]
  have hinf : (w == "inf") = false := by
    rw [beq_eq_false_iff_ne]
    rintro rfl
    exact absurd hw (by decide)
  rw [readExpr]
  refine Fails.rounds (readLevels_fails ?_ _ _)
  rw [readOperand]
  refine Fails.look ?_
  rw [hat.kind]
  have hcheck : checkInt c.look.lexeme = .error (.malformed c.look.line (.badLiteral "IntType" w)) := by
    simp only [checkInt, Token.lexeme, hat.text, hvalue, hinf, Bool.or_false, Bool.false_eq_true,
      if_false]
    rfl
  exact Fails.look (Fails.lift hcheck ⟨_, rfl⟩)

theorem assignment_long {setting : Setting} {s : Types} {w : String} (hw : isNumeral w)
    (hlong : Number.longestNumeral < w.toList.length) (line : Nat) :
    ∃ line', readProgram setting (assignment (.literal .integer ⟨w, line⟩)) s =
      (.error (.malformed line' (.badLiteral "IntType" w)), s) := by
  have hwords : Expr.words (.literal .integer ⟨w, line⟩) = [w] := by rw [Expr.words]; simp
  have htoken : tokenAt .start (assignment (.literal .integer ⟨w, line⟩)).toList =
      some (.variableName, "zz", spaced [":=", w]) := by
    rw [toList_assignment (by simp [hwords]), hwords]
    exact tokenAt_front assigned_lex (.cons (by decide) _)
  obtain ⟨_, hread, line', rfl⟩ := readUnsettled_fails setting s
    (P := fun fault => ∃ line, fault = .malformed line (.badLiteral "IntType" w)) htoken (by decide) (by
    intro c hat
    have hnumeral := tokenAt_spaced (lexes_numeral hw) [] .nil
    rw [readSentences]
    refine Fails.rounds (Fails.look ?_)
    rw [hat.kind, if_pos (by decide)]
    refine Fails.bind ?_
    rw [readSentence]
    refine Fails.look ?_
    rw [hat.kind]
    refine (Spelled.variable (.name (w := "zz") (by decide) 0) (.spaced assign_lex [w] .nil) (by decide)
      (assigned_opens hat)).fails ?_
    rintro v c₁ ⟨-, hat₁⟩
    refine (Gets.expected hat₁ hnumeral).fails ?_
    rintro t c₂ ⟨-, hat₂⟩
    exact (readExpr_long hw hlong hat₂).bind)
  exact ⟨line', readProgram_fails hread⟩

def ones (n : Nat) : String := String.ofList (List.replicate n '1')

theorem ones_facts (n : Nat) : (ones n).toList.length = n ∧ (ones n).toList.all isDigit = true ∧
    (0 < n → isNumeral (ones n) = true) := by
  have hlength : (ones n).toList.length = n := by rw [ones, String.toList_ofList, List.length_replicate]
  have hall : (ones n).toList.all isDigit = true := by
    rw [ones, String.toList_ofList, List.all_eq_true]
    intro c hc
    rw [List.eq_of_mem_replicate hc]
    decide
  refine ⟨hlength, hall, fun hpos => ?_⟩
  rcases hones : (ones n).toList with _ | ⟨c, cs⟩
  · rw [hones] at hlength
    exact absurd hlength.symm (Nat.ne_of_gt hpos)
  · rw [isNumeral, hall, hones]
    rfl

/-- A numeral of one digit more than can be read is made of digits alone, and yet it is refused. -/
theorem overlong_refused :
    (ones 4301).toList.all isDigit = true ∧ (ones 4301).toList.length = 4301 ∧
      ∃ line, readProgram {} (assignment (.literal .integer ⟨ones 4301, 1⟩)) {} =
        (.error (.malformed line (.badLiteral "IntType" (ones 4301))), {}) := by
  obtain ⟨hlength, hall, hnumeral⟩ := ones_facts 4301
  refine ⟨hall, hlength, assignment_long (hnumeral (by decide)) ?_ 1⟩
  rw [hlength]
  decide

end Assignments

end Chalkboard.Reading
