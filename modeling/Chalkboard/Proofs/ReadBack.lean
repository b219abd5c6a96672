import Chalkboard.Proofs.Spelling

/-! Expressions that are written are read back. The reader goes down the levels of the operators, and at
each level it takes operands as long as operators of that level follow. So reading is described by what
may follow: a text of a level is read up to any word that is no operator of this level or a tighter one,
and a chain of one level is read up to any word that is no tighter operator. -/

namespace Chalkboard.Reading

open Syntax (Expr Step Variable LiteralKind UnaryOp BinaryOp)

/-- What stands behind an expression. It is read the same way whatever the expression ended with. -/
structure Ends (rest : List Char) (kind : Terminal) (text : String) (left : List Char) : Prop where
  parted : Parted rest
  literal : tokenAt .afterLiteral rest = some (kind, text, left)
  access : tokenAt .afterVariable rest = some (kind, text, left)

/-- The cursor looks at the first token of a text. -/
def Looks (spot : Spot) (cs : List Char) (c : Cursor) : Prop :=
  ∃ kind text left, tokenAt spot cs = some (kind, text, left) ∧ At c kind text left

def Starts (spot : Spot) (words : List String) : Prop :=
  ∃ w words' kind, words = w :: words' ∧ Lexes spot w kind

section

variable {rest left : List Char} {kind : Terminal} {text : String} {spot : Spot} {c : Cursor}
  {words words' : List String}

theorem Ends.word {w : String} (hw : (w, kind) ∈ followers) (words : List String) (h : Parted rest) :
    Ends (spaced (w :: words) ++ rest) kind w (spaced words ++ rest) :=
  ⟨parted_spaced h _, tokenAt_spaced (followers_lex _ hw).1 words h,
    tokenAt_spaced (followers_lex _ hw).2 words h⟩

theorem Ends.finish : Ends [] .finish "" [] :=
  ⟨.nil, tokenAt_finish rfl rfl, tokenAt_finish rfl rfl⟩

theorem tokenAt_mem {cs : List Char} (h : tokenAt spot cs = some (kind, text, left)) :
    kind ∈ spot.accepts := by
  unfold tokenAt at h
  split at h
  · split at h
    · rename_i hfinish
      cases h
      simpa using hfinish
    · cases h
  · rename_i c cs' _
    rcases hfirst : firstMatch spot.accepts (c :: cs') with _ | ⟨kind', text'⟩
    · rw [hfirst] at h
      cases h
    · rw [hfirst] at h
      cases h
      obtain ⟨t, ht, hmatch⟩ := List.exists_of_findSome?_eq_some hfirst
      have ht : t ∈ spot.accepts := by
        have hpass := (List.mem_filter.1 ht).2
        rw [Bool.and_eq_true] at hpass
        simpa using hpass.1
      obtain ⟨_, _, hkind⟩ := Option.map_eq_some_iff.1 hmatch
      cases hkind
      unfold asKeyword
      split
      · rcases hfind : spot.accepts.find? _ with _ | u
        · exact ht
        · exact List.mem_of_find?_eq_some hfind
      · exact ht

theorem Looks.at {cs : List Char} (h : Looks spot cs c)
    (htoken : tokenAt spot cs = some (kind, text, left)) : At c kind text left := by
  obtain ⟨kind', text', left', htoken', hat⟩ := h
  rw [htoken] at htoken'
  cases htoken'
  exact hat

theorem Starts.append (h : Starts spot words) (words' : List String) : Starts spot (words ++ words') := by
  obtain ⟨w, words'', kind, rfl, hw⟩ := h
  exact ⟨w, words'' ++ words', kind, rfl, hw⟩

theorem Starts.length (h : Starts spot words) : 0 < words.length := by
  obtain ⟨w, words', kind, rfl, hw⟩ := h
  exact Nat.succ_pos _

theorem Starts.token (h : Starts spot words) (hrest : Parted rest) :
    ∃ kind text left, tokenAt spot (spaced words ++ rest) = some (kind, text, left) := by
  obtain ⟨w, words', kind, rfl, hw⟩ := h
  exact ⟨kind, w, _, tokenAt_spaced hw words' hrest⟩

end

/-- Words that are read as an expression, up to any word that is none of some operators. -/
structure Parses (scope : Scope) (ops : List Terminal) (words : List String) (e : Expr) : Prop where
  starts : Starts .expression words
  reads {rest left : List Char} {kind : Terminal} {text : String} {fuel : Nat} {c : Cursor} :
    Ends rest kind text left → kind ∉ ops → words.length ≤ fuel →
      Looks .expression (spaced words ++ rest) c →
      Gets (readLevels (readOperand scope fuel) fuel ops) c fun e' c' =>
        e'.unlined = e.unlined ∧ At c' kind text left

/-- Words that are read as the beginning of a chain of one kind of operators, so many of them, whatever
follows in the chain. -/
structure Chains (scope : Scope) (op : Terminal) (ops : List Terminal) (words : List String) (e : Expr)
    (operators : Nat) : Prop where
  starts : Starts .expression words
  fewer : operators < words.length
  reads {rest left : List Char} {kind : Terminal} {text : String} {fuel : Nat} {c : Cursor}
    {Q : Expr → Cursor → Prop} :
    Ends rest kind text left → kind ∉ ops → words.length ≤ fuel →
      Looks .expression (spaced words ++ rest) c →
      (∀ e' c', e'.unlined = e.unlined → At c' kind text left →
        Gets (readChain op (readLevels (readOperand scope fuel) fuel ops) (fuel - operators) operators e')
          c' Q) →
      Gets (readLevels (readOperand scope fuel) fuel (op :: ops)) c Q

section Levels

variable {scope : Scope} {op : Terminal} {ops : List Terminal} {words words' : List String} {e l r : Expr}
  {rest left : List Char} {kind : Terminal} {text : String} {fuel n : Nat} {c : Cursor}

theorem Parses.advance {β : Type} {k : Expr → Read β} {Q : β → Cursor → Prop}
    (h : Parses scope ops words e) (hends : Ends rest kind text left) (hkind : kind ∉ ops)
    (hfuel : words.length ≤ fuel) (hc : c.source.rest = spaced words ++ rest)
    (hk : ∀ e' c', e'.unlined = e.unlined → At c' kind text left → Gets (k e') c' Q) :
    Gets (Reading.advance .expression >>= fun _ => readLevels (readOperand scope fuel) fuel ops >>= k) c Q := by
  obtain ⟨kind', text', left', htoken⟩ := h.starts.token hends.parted
  refine Gets.advance (hc ▸ htoken) fun c' hat => ?_
  refine (h.reads hends hkind hfuel ⟨_, _, _, htoken, hat⟩).bind ?_
  rintro e' c'' ⟨he, hat'⟩
  exact hk e' c'' he hat'

theorem Parses.chains (h : Parses scope ops words e) (op : Terminal) : Chains scope op ops words e 0 := by
  refine ⟨h.starts, h.starts.length, fun hends hkind hfuel hlooks hk => ?_⟩
  refine (h.reads hends hkind hfuel hlooks).bind ?_
  rintro e' c' ⟨he, hat⟩
  exact hk e' c' he hat

theorem Chains.extend (hl : Chains scope op ops words l n) (hr : Parses scope ops words' r) {w : String}
    (hw : (w, op) ∈ followers) (hop : op ∉ ops) :
    Chains scope op ops (words ++ w :: words') (.binary l (BinaryOp.ofText w) r) (n + 1) := by
  have hn := hl.fewer
  refine ⟨hl.starts.append _, ?_, fun {rest left kind text fuel c Q} hends hkind hfuel hlooks hk => ?_⟩
  · rw [List.length_append, List.length_cons]
    omega
  rw [spaced_append, List.append_assoc] at hlooks
  rw [List.length_append, List.length_cons] at hfuel
  refine hl.reads (.word hw words' hends.parted) hop (by omega) hlooks fun l' c' hl' hat => ?_
  obtain ⟨m, hm⟩ : ∃ m, fuel - n = m + 1 := ⟨fuel - n - 1, by omega⟩
  rw [hm, readChain]
  refine Gets.look ?_
  rw [hat.kind, beq_self_eq_true, if_pos rfl, hat.text]
  refine hr.advance hends hkind (by omega) hat.rest fun r' c'' hr' hat' => ?_
  have hnext : fuel - (n + 1) = m := by omega
  have hgoal := hk (.binary l' (BinaryOp.ofText w) r') c'' (by
    simp only [Expr.unlined, hl', hr']) hat'
  rwa [hnext] at hgoal

theorem nesting_gets {α : Type} {k : Read α} {Q : α → Cursor → Prop} (hn : n ≤ callDepth) (h : Gets k c Q) :
    Gets (do nesting n; k) c Q := by
  rw [nesting, if_pos hn]
  exact (Gets.pure (Q := fun _ c' => c' = c) rfl).bind fun _ _ heq => heq ▸ h

theorem readChain_stop {operand : Read Expr} {Q : Expr → Cursor → Prop} (hn : n ≤ callDepth)
    (hop : c.look.kind ≠ op) (he : Q e c) (fuel : Nat) : Gets (readChain op operand fuel n e) c Q := by
  cases fuel with
  | zero => exact nesting_gets hn (.pure he)
  | succ fuel =>
    refine Gets.look ?_
    rw [beq_eq_false_iff_ne.2 hop]
    exact nesting_gets hn (.pure he)

theorem Chains.parses (h : Chains scope op ops words e n) (hn : n ≤ callDepth) :
    Parses scope (op :: ops) words e := by
  refine ⟨h.starts, fun hends hkind hfuel hlooks => ?_⟩
  rw [List.mem_cons, not_or] at hkind
  refine h.reads hends hkind.2 hfuel hlooks fun e' c' he hat => ?_
  exact readChain_stop hn (hat.kind ▸ hkind.1) ⟨he, hat⟩ _

theorem Parses.loosen {k d : Nat} (h : Parses scope (levels.drop (k + d)) words e) :
    Parses scope (levels.drop k) words e := by
  induction d with
  | zero => exact h
  | succ d ih =>
    refine ih ?_
    rcases hlevels : levels.drop (k + d) with _ | ⟨op, ops⟩
    · have hnext : levels.drop (k + (d + 1)) = [] := by
        rw [← Nat.add_assoc, ← List.drop_drop, hlevels, List.drop_nil]
      rwa [hnext] at h
    · have hnext : levels.drop (k + (d + 1)) = ops := by
        rw [← Nat.add_assoc, ← List.drop_drop, hlevels]
        rfl
      rw [hnext] at h
      exact (h.chains op).parses (Nat.zero_le _)

end Levels

section Operands

variable {scope : Scope} {words : List String} {e l r : Expr} {rest left : List Char} {kind : Terminal}
  {text : String} {fuel : Nat} {c : Cursor}

variable {kind₀ : Terminal} {w : String}

theorem Parses.operand {words : List String}
    (hw : Lexes .expression w kind₀)
    (h : ∀ {rest left : List Char} {kind : Terminal} {text : String} {fuel : Nat} {c : Cursor},
      Ends rest kind text left → words.length ≤ fuel → At c kind₀ w (spaced words ++ rest) →
      Gets (readOperand scope (fuel + 1)) c fun e' c' =>
        e'.unlined = e.unlined ∧ At c' kind text left) :
    Parses scope [] (w :: words) e := by
  refine ⟨⟨w, words, kind₀, rfl, hw⟩, fun {rest left kind text fuel c} hends _ hfuel hlooks => ?_⟩
  rw [List.length_cons] at hfuel
  obtain ⟨m, rfl⟩ : ∃ m, fuel = m + 1 := ⟨fuel - 1, by omega⟩
  exact h hends (by omega) (hlooks.at (tokenAt_spaced hw words hends.parted))

theorem readLiteral_gets (literal : LiteralKind) (hat : At c kind₀ w rest)
    (hends : Ends rest kind text left) : Gets (readLiteral literal) c fun e' c' =>
      e'.unlined = .literal literal ⟨w, 0⟩ ∧ At c' kind text left := by
  refine Gets.look (Gets.advance (hat.rest ▸ hends.literal) fun c' hat' => .pure ⟨?_, hat'⟩)
  simp only [Token.lexeme, Expr.unlined, hat.text]

/-- The tokens that are taken for literals as they are. -/
def plainLiterals : List (Terminal × LiteralKind) :=
  [(.real, .real), (.word .inf, .integer), (.word .trueWord, .boolean), (.word .falseWord, .boolean),
    (.word .null, .null)]

theorem readOperand_plain {literal : LiteralKind} {Q : Expr → Cursor → Prop}
    (h : (c.look.kind, literal) ∈ plainLiterals) (hread : Gets (readLiteral literal) c Q) :
    Gets (readOperand scope (fuel + 1)) c Q := by
  rw [readOperand]
  refine Gets.look ?_
  simp only [plainLiterals, List.mem_cons, Prod.mk.injEq, List.not_mem_nil, or_false] at h
  rcases h with ⟨hkind, rfl⟩ | ⟨hkind, rfl⟩ | ⟨hkind, rfl⟩ | ⟨hkind, rfl⟩ | ⟨hkind, rfl⟩
  all_goals
    rw [hkind]
    exact hread

theorem Parses.plain {literal : LiteralKind} (hw : Lexes .expression w kind₀)
    (h : (kind₀, literal) ∈ plainLiterals) (line : Nat) :
    Parses scope [] [w] (.literal literal ⟨w, line⟩) :=
  .operand hw fun hends _ hat =>
    readOperand_plain (hat.kind ▸ h) (readLiteral_gets literal hat hends)

theorem Parses.integer (hw : isNumeral w) (hshort : w.toList.length ≤ Number.longestNumeral)
    (line : Nat) : Parses scope [] [w] (.literal .integer ⟨w, line⟩) := by
  refine .operand (lexes_numeral hw) fun {rest left kind text fuel c} hends _ hat => ?_
  have hcheck : checkInt c.look.lexeme = .ok () := by
    have hvalue := readInt?_numeral hw
    simp only [hshort, decide_true] at hvalue
    simp only [checkInt, Token.lexeme, hat.text, hvalue, Bool.or_true, if_true]
    rfl
  rw [readOperand]
  refine Gets.look ?_
  rw [hat.kind]
  exact Gets.look (Gets.lift hcheck (readLiteral_gets .integer hat hends))

theorem Parses.constant (hw : isConstant w) (hknown : scope.constants.contains w) (line : Nat) :
    Parses scope [] [w] (.literal .enum ⟨w, line⟩) := by
  refine .operand (lexes_constant hw) fun {rest left kind text fuel c} hends _ hat => ?_
  rw [readOperand]
  refine Gets.look ?_
  rw [hat.kind]
  refine Gets.look ?_
  rw [hat.text, if_pos hknown]
  exact readLiteral_gets .enum hat hends

theorem Parses.character (hw : isCharacter w) (line : Nat) :
    Parses scope [] ["'", w, "'"] (.literal .char ⟨w, line⟩) := by
  have hopen : ("'", Terminal.symbol .quote) ∈ openers := by decide
  refine .operand (openers_lex _ hopen) fun {rest left kind text fuel c} hends _ hat => ?_
  have hchar := tokenAt_character hw ["'"] hends.parted
  have hquote := tokenAt_spaced quote_lex [] hends.parted
  rw [readOperand]
  refine Gets.look ?_
  rw [hat.kind]
  refine Gets.advance (hat.rest ▸ hchar) fun c₁ hat₁ => Gets.look ?_
  refine Gets.advance (hat₁.rest ▸ hquote) fun c₂ hat₂ => ?_
  refine Gets.advance (hat₂.rest ▸ hends.literal) fun c₃ hat₃ => .pure ⟨?_, hat₃⟩
  simp only [Token.lexeme, Expr.unlined, hat₁.text]

theorem Parses.literal {literal : LiteralKind} (line : Nat)
    (h : isLiteral scope.constants literal w) :
    Parses scope [] (Expr.words (.literal literal ⟨w, line⟩)) (.literal literal ⟨w, line⟩) := by
  cases literal with
  | boolean =>
    simp only [isLiteral, Bool.or_eq_true, beq_iff_eq] at h
    rcases h with rfl | rfl
    · exact .plain (openers_lex ("true", .word .trueWord) (by decide)) (by decide) line
    · exact .plain (openers_lex ("false", .word .falseWord) (by decide)) (by decide) line
  | integer =>
    simp only [isLiteral, Bool.or_eq_true, Bool.and_eq_true, beq_iff_eq, decide_eq_true_eq] at h
    rcases h with rfl | ⟨hw, hshort⟩
    · exact .plain (openers_lex ("inf", .word .inf) (by decide)) (by decide) line
    · exact .integer hw hshort line
  | real =>
    simp only [isLiteral, Bool.or_eq_true] at h
    have hw : isReal w := h.elim isReal_of_isDecimal id
    exact .plain (lexes_real hw) (by decide) line
  | char => exact .character h line
  | null =>
    simp only [isLiteral, beq_iff_eq] at h
    subst h
    exact .plain (openers_lex ("null", .word .null) (by decide)) (by decide) line
  | enum =>
    simp only [isLiteral, Bool.and_eq_true] at h
    exact .constant h.1 h.2 line

theorem Parses.unary {op : UnaryOp} (hop : op = .negative ∨ op = .not) (h : Parses scope [] words e) :
    Parses scope [] (op.text :: words) (.unary op e) := by
  have hopener : (op.text, .unary) ∈ openers := by rcases hop with rfl | rfl <;> decide
  have htext : UnaryOp.ofText op.text = op := by rcases hop with rfl | rfl <;> rfl
  refine .operand (openers_lex _ hopener) fun {rest left kind text fuel c} hends hfuel hat => ?_
  rw [readOperand]
  refine Gets.look ?_
  rw [hat.kind]
  refine h.advance hends List.not_mem_nil hfuel hat.rest fun e' c' he hat' => .pure ⟨?_, hat'⟩
  simp only [Expr.unlined, hat.text, htext, he]

theorem Parses.grouped {op : BinaryOp} (h : Parses scope levels words (.binary l op r)) :
    Parses scope [] (Syntax.grouped words) (.binary l op r) := by
  have hclose : (")", Terminal.symbol .closeParen) ∈ followers := by decide
  have hopen : ("(", Terminal.symbol .openParen) ∈ openers := by decide
  have hwords : Syntax.grouped words = "(" :: (words ++ [")"]) := rfl
  rw [hwords]
  refine .operand (openers_lex _ hopen) fun {rest left kind text fuel c} hends hfuel hat => ?_
  rw [List.length_append, List.length_singleton] at hfuel
  rw [spaced_append, List.append_assoc] at hat
  rw [readOperand]
  refine Gets.look ?_
  rw [hat.kind]
  refine h.advance (.word hclose [] hends.parted) (by decide) (by omega) hat.rest fun e' c' he hat' => ?_
  cases e' with
  | binary l' op' r' =>
    exact Gets.expect hat' hends.literal fun c'' hat'' => .pure ⟨he, hat''⟩
  | _ => simp [Expr.unlined] at he

end Operands

section Variables

variable {scope : Scope} {words words' : List String} {v u : Variable} {steps : List Step}
  {rest left : List Char} {kind : Terminal} {text : String} {fuel : Nat} {c : Cursor} {spot : Spot} {blank : Bool}

def frontKind (w : String) : Terminal :=
  if w == "*" then .symbol .star else if w == "(" then .symbol .openParen else .variableName

/-- What stands behind a variable: a token that is looked for there and that no name goes on into. -/
structure Behind (rest : List Char) (kind : Terminal) (text : String) (left : List Char) : Prop where
  apart : Apart rest
  token : tokenAt .afterVariable rest = some (kind, text, left)

/-- The words of a variable can stand at a spot. -/
def Fronts (spot : Spot) (blank : Bool) (words : List String) : Prop :=
  ∃ w words', words = w :: words' ∧ ∀ {rest kind text left}, Behind rest kind text left →
    Cuts spot w (strung blank words' ++ rest) (frontKind w)

/-- The cursor looks at the first word of a variable. -/
def Opens (blank : Bool) (words : List String) (rest : List Char) (c : Cursor) : Prop :=
  ∃ w words', words = w :: words' ∧ At c (frontKind w) w (strung blank words' ++ rest)

/-- Reading a variable goes on with steps as long as one of these follows. -/
def stepSymbols : List Terminal := [.symbol .openBracket, .symbol .dot, .symbol .arrow]

theorem Ends.no_step (h : Ends rest kind text left) : kind ∉ stepSymbols := by
  have hmem : kind ∈ literalFollowers := tokenAt_mem h.literal
  have hnone : ∀ k ∈ literalFollowers, k ∉ stepSymbols := by decide
  exact hnone kind hmem

theorem Ends.behind (h : Ends rest kind text left) : Behind rest kind text left :=
  ⟨h.parted.none (by decide), h.access⟩

theorem Behind.spaced {w : String} (hw : Lexes .afterVariable w kind) (words : List String) (h : Parted rest) :
    Behind (spaced (w :: words) ++ rest) kind w (Reading.spaced words ++ rest) :=
  ⟨(parted_spaced h _).none (by decide), tokenAt_spaced hw words h⟩

theorem Behind.mark {w : String} (words : List String) (hw : w ∈ [".", ")", "["])
    (h : Cuts .afterVariable w (strung blank words ++ rest) kind) :
    Behind (strung blank (w :: words) ++ rest) kind w (strung blank words ++ rest) := by
  refine ⟨?_, h.first _ _⟩
  simp only [List.mem_cons, List.not_mem_nil, or_false] at hw
  rcases hw with rfl | rfl | rfl
  all_goals
    cases blank
    all_goals
      intro d hd
      cases hd
      decide

/-- One dot is a dot where a name follows, although two dots are looked for first. -/
theorem Behind.dot {f : String} (hf : isName f) (rest : List Char) :
    Behind (strung blank [".", f] ++ rest) (.symbol .dot) "." (strung blank [f] ++ rest) := by
  refine .mark [f] (by decide) ?_
  obtain ⟨c, cs, hcs, hc⟩ : ∃ c cs, strung blank [f] ++ rest = c :: cs ∧ '.' ≠ c := by
    obtain ⟨c, cs, hcs, hc, -⟩ := all_of_isName hf
    cases blank with
    | true => exact ⟨' ', _, rfl, by decide⟩
    | false =>
      refine ⟨c, cs ++ rest, by simp [strung, hcs], ?_⟩
      rintro rfl
      cases hc
  have hdots : (Terminal.symbol .dots).match? ('.' :: c :: cs) = none := by
    simp [Terminal.match?, oneOf, Symbol.text, fixed, hc]
  have hsplit : tried .afterVariable =
      (tried .afterVariable).take 13 ++ .symbol .dots :: (tried .afterVariable).drop 14 := by decide
  rw [hcs]
  refine ⟨rfl, ?_⟩
  change firstMatch _ ('.' :: c :: cs) = _
  rw [firstMatch_tried, hsplit, List.findSome?_append, List.findSome?_cons, hdots]
  rfl

theorem Fronts.token (h : Fronts spot blank words) (hbehind : Behind rest kind text left) :
    ∃ kind text left, tokenAt spot (strung blank words ++ rest) = some (kind, text, left) ∧
      ∀ c, At c kind text left → Opens blank words rest c := by
  obtain ⟨w, words', rfl, hw⟩ := h
  exact ⟨_, _, _, (hw hbehind).first _ _, fun c hat => ⟨w, words', rfl, hat⟩⟩

theorem Opens.append (h : Opens blank (words ++ words') rest c) (hwords : words ≠ []) :
    Opens blank words (strung blank words' ++ rest) c := by
  obtain ⟨w, words'', hcons, hat⟩ := h
  cases words with
  | nil => exact absurd rfl hwords
  | cons w' words =>
    rw [List.cons_append] at hcons
    cases hcons
    rw [strung_append, List.append_assoc] at hat
    exact ⟨_, words, rfl, hat⟩

/-- Words that are read as the part of a variable before its steps. -/
structure ReadsPrimary (scope : Scope) (blank : Bool) (words : List String) (v : Variable) : Prop where
  fronts : Fronts .variablePrimary blank words
  reads {rest left : List Char} {kind : Terminal} {text : String} {fuel : Nat} {c : Cursor} :
    Behind rest kind text left → words.length ≤ fuel → Opens blank words rest c →
      Gets (readPrimary scope fuel) c fun v' c' => v'.unlined = v.unlined ∧ At c' kind text left

def readIndex (scope : Scope) (fuel : Nat) : Read Expr := readLevels (readOperand scope fuel) fuel levels

/-- Words that are read as steps behind a variable, whatever steps follow. -/
structure ReadsSteps (scope : Scope) (blank : Bool) (words : List String) (steps : List Step) : Prop where
  behind {rest left : List Char} {kind : Terminal} {text : String} : Behind rest kind text left →
    ∃ kind text left, Behind (strung blank words ++ rest) kind text left
  reads {rest left : List Char} {kind : Terminal} {text : String} {item fuel : Nat} {v : Variable}
    {c : Cursor} {Q : Variable → Cursor → Prop} :
    Behind rest kind text left → words.length ≤ item → words.length ≤ fuel →
      Looks .afterVariable (strung blank words ++ rest) c →
      (∀ n v' c', n ≤ words.length → v'.unlined = (v.extend steps).unlined → At c' kind text left →
        Gets (readSteps (readIndex scope item) (fuel - n) v') c' Q) →
      Gets (readSteps (readIndex scope item) fuel v) c Q

/-- Words that are read as indexes. -/
structure ReadsItems (scope : Scope) (words : List String) (es : List Expr) : Prop where
  starts : Starts .expression words
  reads {rest left : List Char} {kind : Terminal} {text : String} {item fuel : Nat} {c : Cursor} :
    Ends rest kind text left → kind ∉ .symbol .comma :: levels → words.length ≤ item →
      words.length ≤ fuel → Looks .expression (spaced words ++ rest) c →
      Gets (readItems (readIndex scope item) fuel) c fun es' c' =>
        Syntax.unlinedItems es' = Syntax.unlinedItems es ∧ At c' kind text left

/-- Words that are read as a variable: a part before the steps and steps. They are tight if there are no
steps. -/
structure Spelled (scope : Scope) (blank : Bool) (words : List String) (tight : Bool) (v : Variable) : Prop where
  front : ∃ w words', words = w :: words' ∧ words'.length ≤ (strung blank words').length ∧
    (w = v.name.text ∧ (∀ {rest kind text left}, Behind rest kind text left → Apart (strung blank words' ++ rest)) ∨
      w = "*")
  parts : ∃ first behind steps u, words = first ++ behind ∧ v = u.extend steps ∧
    ReadsPrimary scope blank first u ∧ ReadsSteps scope blank behind steps ∧
    (tight = true → behind = [] ∧ steps = [])

theorem Fronts.ne_nil (h : Fronts spot blank words) : words ≠ [] := by
  obtain ⟨w, words', rfl, -⟩ := h
  exact List.cons_ne_nil _ _

variable {e : Expr} {es : List Expr} {tight : Bool} {w : String}

theorem frontKind_name (hw : isName w) : frontKind w = .variableName := by
  obtain ⟨c, cs, hcs, hc, -⟩ := all_of_isName hw
  have hstar : w ≠ "*" := by
    rintro rfl
    cases hcs
    cases hc
  have hparen : w ≠ "(" := by
    rintro rfl
    cases hcs
    cases hc
  simp [frontKind, hstar, hparen]

theorem readSteps_stop {item : Read Expr} {Q : Variable → Cursor → Prop} (hkind : c.look.kind ∉ stepSymbols)
    (hv : Q v c) (fuel : Nat) : Gets (readSteps item fuel v) c Q := by
  cases fuel with
  | zero => exact .pure hv
  | succ fuel =>
    rw [readSteps]
    refine Gets.look ?_
    split
    case h_4 => exact .pure hv
    all_goals
      rename_i hstep
      exact absurd (hstep ▸ hkind) (by decide)

theorem ReadsSteps.nil : ReadsSteps scope blank [] [] := by
  refine ⟨fun h => ⟨_, _, _, h⟩, fun {rest left kind text item fuel v c Q} hbehind _ _ hlooks hk => ?_⟩
  have hv : v.unlined = (v.extend []).unlined := by simp [Variable.extend]
  exact hk 0 v c (Nat.zero_le _) hv (hlooks.at hbehind.token)

theorem ReadsSteps.field (h : ReadsSteps scope blank words steps) {f : String} (hf : isName f) :
    ReadsSteps scope blank (words ++ [".", f]) (steps ++ [.field f]) := by
  refine ⟨fun _ => ?_, fun {rest left kind text item fuel v c Q} hbehind hitem hfuel hlooks hk => ?_⟩
  · rw [strung_append, List.append_assoc]
    exact h.behind (.dot hf _)
  rw [List.length_append] at hitem hfuel hk
  rw [strung_append, List.append_assoc] at hlooks
  refine h.reads (.dot hf rest) (by omega) (by omega) hlooks fun n v' c' hn hv hat => ?_
  simp only [List.length_cons, List.length_nil] at hfuel hk
  obtain ⟨m, hm⟩ : ∃ m, fuel - n = m + 1 := ⟨fuel - n - 1, by omega⟩
  rw [hm, readSteps]
  refine Gets.look ?_
  rw [hat.kind]
  have hfield := Cuts.first blank [] (cuts_field hf hbehind.apart)
  refine Gets.advance (hat.rest ▸ hfield) fun c₁ hat₁ => ?_
  refine Gets.expect hat₁ hbehind.token fun c₂ hat₂ => ?_
  have hnext : fuel - (n + 1) = m := by omega
  have hstep : Syntax.unlinedPath [.field c₁.look.text] = Syntax.unlinedPath [.field f] := by rw [hat₁.text]
  have hpush := Syntax.unlined_push hv hstep
  rw [Syntax.Variable.extend_push] at hpush
  have hgoal := hk (n + 1) _ c₂ (by omega) hpush hat₂
  rwa [hnext] at hgoal

theorem ReadsSteps.index (h : ReadsSteps scope true words steps)
    (hes : ReadsItems scope words' es) :
    ReadsSteps scope true (words ++ "[" :: words' ++ ["]"]) (steps ++ [.index es]) := by
  have hopen (rest : List Char) : Behind (strung true ("[" :: (words' ++ ["]"])) ++ rest) (.symbol .openBracket) "["
      (strung true (words' ++ ["]"]) ++ rest) := .mark _ (by decide) ⟨rfl, rfl⟩
  rw [List.append_assoc, List.cons_append]
  refine ⟨fun _ => ?_, fun {rest left kind text item fuel v c Q} hbehind hitem hfuel hlooks hk => ?_⟩
  · rw [strung_append, List.append_assoc]
    exact h.behind (hopen _)
  rw [List.length_append] at hitem hfuel hk
  rw [strung_append, List.append_assoc] at hlooks
  refine h.reads (hopen rest) (by omega) (by omega) hlooks fun n v' c' hn hv hat => ?_
  simp only [List.length_append, List.length_cons, List.length_nil] at hitem hfuel hk
  rw [strung_append, List.append_assoc] at hat
  obtain ⟨m, hm⟩ : ∃ m, fuel - n = m + 1 := ⟨fuel - n - 1, by omega⟩
  rw [hm, readSteps]
  refine Gets.look ?_
  rw [hat.kind]
  have hends : Ends (spaced ["]"] ++ rest) (.symbol .closeBracket) "]" rest :=
    ⟨.cons (by decide) _, Cuts.first true [] ⟨rfl, rfl⟩, Cuts.first true [] ⟨rfl, rfl⟩⟩
  obtain ⟨kind₁, text₁, left₁, htoken₁⟩ := hes.starts.token hends.parted
  refine Gets.advance (hat.rest ▸ htoken₁) fun c₁ hat₁ => ?_
  refine (hes.reads hends (by decide) (by omega) (by omega) ⟨_, _, _, htoken₁, hat₁⟩).bind ?_
  rintro es' c₂ ⟨hes', hat₂⟩
  refine Gets.expect hat₂ hbehind.token fun c₃ hat₃ => ?_
  have hnext : fuel - (n + 1) = m := by omega
  have hstep : Syntax.unlinedPath [.index es'] = Syntax.unlinedPath [.index es] := by
    simp only [Syntax.unlinedPath, hes']
  have hpush := Syntax.unlined_push hv hstep
  rw [Syntax.Variable.extend_push] at hpush
  have hgoal := hk (n + 1) _ c₃ (by omega) hpush hat₃
  rwa [hnext] at hgoal

theorem ReadsItems.single (h : Parses scope levels words e) : ReadsItems scope words [e] := by
  refine ⟨h.starts, fun {rest left kind text item fuel c} hends hkind hitem hfuel hlooks => ?_⟩
  have hpos := h.starts.length
  rw [List.mem_cons, not_or] at hkind
  obtain ⟨m, rfl⟩ : ∃ m, fuel = m + 1 := ⟨fuel - 1, by omega⟩
  rw [readItems]
  refine (h.reads hends hkind.2 hitem hlooks).bind ?_
  rintro e' c' ⟨he, hat⟩
  refine Gets.look ?_
  rw [hat.kind, beq_eq_false_iff_ne.2 hkind.1, if_neg Bool.false_ne_true]
  exact .pure ⟨by simp only [Syntax.unlinedItems, he], hat⟩

theorem ReadsItems.cons (h : Parses scope levels words e)
    (hes : ReadsItems scope words' es) : ReadsItems scope (words ++ "," :: words') (e :: es) := by
  have hcomma : (",", Terminal.symbol .comma) ∈ followers := by decide
  refine ⟨h.starts.append _, fun {rest left kind text item fuel c} hends hkind hitem hfuel hlooks => ?_⟩
  rw [List.length_append, List.length_cons] at hitem hfuel
  rw [spaced_append, List.append_assoc] at hlooks
  obtain ⟨m, rfl⟩ : ∃ m, fuel = m + 1 := ⟨fuel - 1, by omega⟩
  rw [readItems]
  refine (h.reads (.word hcomma words' hends.parted) (by decide) (by omega) hlooks).bind ?_
  rintro e' c' ⟨he, hat⟩
  refine Gets.look ?_
  rw [hat.kind, beq_self_eq_true, if_pos rfl]
  obtain ⟨kind₁, text₁, left₁, htoken₁⟩ := hes.starts.token hends.parted
  refine Gets.advance (hat.rest ▸ htoken₁) fun c₁ hat₁ => ?_
  have hpos := h.starts.length
  refine (hes.reads hends hkind (by omega) (by omega) ⟨_, _, _, htoken₁, hat₁⟩).bind ?_
  rintro es' c₂ ⟨hes', hat₂⟩
  exact .pure ⟨by simp only [Syntax.unlinedItems, he, hes'], hat₂⟩

theorem cuts_primary (hw : isName w) (hleft : Apart left) : Cuts .variablePrimary w left .variableName :=
  cuts_name (by decide) hw (by simp [Spot.accepts]) hleft

theorem ReadsPrimary.name (hw : isName w) (line : Nat) :
    ReadsPrimary scope blank [w] ⟨⟨w, line⟩, []⟩ := by
  have hkind := frontKind_name hw
  refine ⟨⟨w, [], rfl, fun hbehind => hkind ▸ cuts_primary hw hbehind.apart⟩,
    fun {rest left kind text fuel c} hbehind hfuel hopens => ?_⟩
  obtain ⟨_, _, hcons, hat⟩ := hopens
  cases hcons
  rw [hkind] at hat
  obtain ⟨m, rfl⟩ : ∃ m, fuel = m + 1 := ⟨fuel - 1, by simp at hfuel; omega⟩
  rw [readPrimary]
  refine Gets.look ?_
  rw [hat.kind]
  refine Gets.advance (hat.rest ▸ hbehind.token) fun c' hat' => .pure ⟨?_, hat'⟩
  simp only [Variable.unlined, Token.lexeme, hat.text]

theorem ReadsPrimary.star (h : ReadsPrimary scope blank words v) :
    ReadsPrimary scope blank ("*" :: words) (v.push .deref) := by
  refine ⟨⟨"*", words, rfl, fun _ => ⟨rfl, rfl⟩⟩,
    fun {rest left kind text fuel c} hbehind hfuel hopens => ?_⟩
  obtain ⟨_, _, hcons, hat⟩ := hopens
  cases hcons
  rw [List.length_cons] at hfuel
  obtain ⟨m, rfl⟩ : ∃ m, fuel = m + 1 := ⟨fuel - 1, by omega⟩
  rw [readPrimary]
  refine Gets.look ?_
  rw [hat.kind]
  obtain ⟨kind₁, text₁, left₁, htoken₁, hopens₁⟩ := h.fronts.token hbehind
  refine Gets.advance (hat.rest ▸ htoken₁) fun c₁ hat₁ => ?_
  refine (h.reads hbehind (by omega) (hopens₁ c₁ hat₁)).bind ?_
  rintro v' c₂ ⟨hv, hat₂⟩
  exact .pure ⟨Syntax.unlined_push hv rfl, hat₂⟩

theorem Spelled.reads (h : Spelled scope blank words tight v) {β : Type} {k : Variable → Read β}
    {Q : β → Cursor → Prop} {primary item : Nat} (hbehind : Behind rest kind text left) (hkind : kind ∉ stepSymbols)
    (hprimary : words.length ≤ primary) (hitem : words.length ≤ item + 1) (hfuel : words.length ≤ fuel + 1)
    (hopens : Opens blank words rest c)
    (hk : ∀ v' c', v'.unlined = v.unlined → At c' kind text left → Gets (k v') c' Q) :
    Gets (readPrimary scope primary >>= fun v => readSteps (readIndex scope item) fuel v >>= k) c Q := by
  obtain ⟨first, behind, steps, u, rfl, rfl, hfirst, hsteps, -⟩ := h.parts
  have hpos : 0 < first.length := List.length_pos_iff.2 hfirst.fronts.ne_nil
  rw [List.length_append] at hprimary hitem hfuel
  obtain ⟨kind₁, text₁, left₁, hbehind₁⟩ := hsteps.behind hbehind
  refine (hfirst.reads hbehind₁ (by omega) (hopens.append hfirst.fronts.ne_nil)).bind ?_
  rintro u' c₁ ⟨hu, hat₁⟩
  have hread : Gets (readSteps (readIndex scope item) fuel u') c₁ fun v' c' =>
      v'.unlined = (u.extend steps).unlined ∧ At c' kind text left := by
    refine hsteps.reads hbehind (by omega) (by omega) ⟨_, _, _, hbehind₁.token, hat₁⟩
      fun n v' c' _ hv hat => ?_
    exact readSteps_stop (hat.kind ▸ hkind) ⟨hv.trans (Syntax.unlined_extend hu steps), hat⟩ _
  refine hread.bind ?_
  rintro v' c' ⟨hv, hat⟩
  exact hk v' c' hv hat

theorem Spelled.fronts (h : Spelled scope blank words tight v) (hname : isName v.name.text)
    (hcuts : ∀ {left}, Apart left → Cuts spot v.name.text left .variableName)
    (hstar : ∀ left, Cuts spot "*" left (.symbol .star)) : Fronts spot blank words := by
  obtain ⟨w, words', rfl, -, ⟨rfl, hapart⟩ | rfl⟩ := h.front
  · exact ⟨_, _, rfl, fun hbehind => frontKind_name hname ▸ hcuts (hapart hbehind)⟩
  · exact ⟨_, _, rfl, fun _ => hstar _⟩

theorem Spelled.primary (h : Spelled scope blank words tight v) (hname : isName v.name.text) :
    Fronts .variablePrimary blank words :=
  h.fronts hname (cuts_primary hname) fun _ => ⟨rfl, rfl⟩

theorem ReadsPrimary.group (h : Spelled scope blank words tight v) (hname : isName v.name.text) :
    ReadsPrimary scope blank (Syntax.grouped words) v := by
  refine ⟨⟨"(", words ++ [")"], rfl, fun _ => ⟨rfl, rfl⟩⟩,
    fun {rest left kind text fuel c} hbehind hfuel hopens => ?_⟩
  obtain ⟨_, _, hcons, hat⟩ := hopens
  cases hcons
  simp only [Syntax.grouped, List.length_append, List.length_cons, List.length_nil] at hfuel
  rw [List.append_eq, strung_append, List.append_assoc] at hat
  obtain ⟨m, rfl⟩ : ∃ m, fuel = m + 1 := ⟨fuel - 1, by omega⟩
  rw [readPrimary]
  refine Gets.look ?_
  rw [hat.kind]
  have hclose : Behind (strung blank [")"] ++ rest) (.symbol .closeParen) ")" rest :=
    .mark [] (by decide) ⟨rfl, rfl⟩
  obtain ⟨kind₁, text₁, left₁, htoken₁, hopens₁⟩ := (h.primary hname).token hclose
  refine Gets.advance (hat.rest ▸ htoken₁) fun c₁ hat₁ => ?_
  refine h.reads hclose (by decide) (by omega) (by omega) (by omega) (hopens₁ c₁ hat₁) fun v' c₂ hv hat₂ => ?_
  exact Gets.expect hat₂ hbehind.token fun c₃ hat₃ => .pure ⟨hv, hat₃⟩

theorem Spelled.name (hw : isName w) (line : Nat) : Spelled scope blank [w] true ⟨⟨w, line⟩, []⟩ :=
  ⟨⟨w, [], rfl, Nat.zero_le _, .inl ⟨rfl, Behind.apart⟩⟩, [w], [], [], _, rfl, rfl, .name hw line, .nil,
    fun _ => ⟨rfl, rfl⟩⟩

theorem Spelled.loose (h : Spelled scope blank words tight v) : Spelled scope blank words false v := by
  obtain ⟨first, behind, steps, u, hwords, hv, hfirst, hsteps, -⟩ := h.parts
  exact ⟨h.front, first, behind, steps, u, hwords, hv, hfirst, hsteps, by simp⟩

theorem Spelled.starred (h : Spelled scope blank words tight v) (hname : isName v.name.text) :
    Spelled scope blank (Syntax.starred words tight) true (v.push .deref) := by
  refine ⟨⟨"*", _, rfl, ?_, .inr rfl⟩, _, [], [], v.push .deref, (List.append_nil _).symm, ?_, ?_, .nil,
    fun _ => ⟨rfl, rfl⟩⟩
  · obtain ⟨w, words', rfl, hlong, hw⟩ := h.front
    have hpos : 0 < w.toList.length := by
      obtain ⟨_, _, hcs, -⟩ := all_of_isName hname
      rcases hw with ⟨rfl, -⟩ | rfl <;> simp [hcs]
    rw [strung] at hlong
    cases tight <;> simp [strung, Syntax.grouped] at hlong ⊢ <;> omega
  · simp [Variable.extend]
  · refine .star ?_
    cases tight with
    | false => exact .group h hname
    | true =>
      obtain ⟨first, behind, steps, u, rfl, rfl, hfirst, -, htight⟩ := h.parts
      obtain ⟨rfl, rfl⟩ := htight rfl
      simpa [Variable.extend] using hfirst

theorem Spelled.behind (h : Spelled scope blank words tight v) {step : Step}
    (hlong : words'.length ≤ (strung blank words').length)
    (hstep : ∀ {before : List String} {steps : List Step}, ReadsSteps scope blank before steps →
      ReadsSteps scope blank (before ++ words') (steps ++ [step])) :
    Spelled scope blank (words ++ words') false (v.push step) := by
  obtain ⟨w, words'', hwords, hlong', hfront⟩ := h.front
  obtain ⟨first, behind, steps, u, rfl, rfl, hfirst, hbehind, -⟩ := h.parts
  refine ⟨⟨w, words'' ++ words', by rw [hwords]; rfl, ?_,
    hfront.imp_left (And.imp_right fun hapart {_ _ _ _} hrest => ?_)⟩,
    first, behind ++ words', steps ++ [step], u, List.append_assoc _ _ _, Syntax.Variable.extend_push _ _ _, hfirst,
    hstep hbehind, by simp⟩
  · rw [strung_append, List.length_append, List.length_append]
    exact Nat.add_le_add hlong' hlong
  · rw [strung_append, List.append_assoc]
    obtain ⟨_, _, _, hnext⟩ := (hstep .nil).behind hrest
    exact hapart hnext

theorem readOperand_variable {Q : Expr → Cursor → Prop}
    (hkind : c.look.kind = .variableName ∨ c.look.kind = .symbol .star)
    (h : Gets (readPrimary scope (fuel + 1) >>= fun v => readSteps (readIndex scope fuel) fuel v >>= fun v =>
      Pure.pure v.toExpr) c Q) : Gets (readOperand scope (fuel + 1)) c Q := by
  rw [readPrimary, bind_assoc] at h
  replace h := Gets.of_look h
  rw [readOperand]
  refine Gets.look ?_
  rcases hkind with hkind | hkind
  all_goals
    rw [hkind] at h ⊢
    simp only [bind_assoc, pure_bind] at h
    exact h

theorem lexes_variable (hw : isName w) (hliteral : w ∉ literalWords) :
    Lexes .expression w .variableName := by
  refine lexes_name (by decide) hw ?_
  rintro k hk rfl
  have hwords : ∀ k, Terminal.word k ∈ Spot.expression.accepts → k.text ∈ literalWords := by
    intro k
    cases k <;> decide
  exact hliteral (hwords k hk)

theorem Spelled.head (h : Spelled scope blank words tight v) (hname : isName v.name.text) (spots : List Spot)
    (hlex : ∀ spot ∈ spots, Lexes spot v.name.text .variableName)
    (hstar : ∀ spot ∈ spots, Lexes spot "*" (.symbol .star)) : ∃ w words', words = w :: words' ∧
      (frontKind w = .variableName ∨ frontKind w = .symbol .star) ∧
      ∀ spot ∈ spots, Lexes spot w (frontKind w) := by
  have hkind := frontKind_name hname
  obtain ⟨w, words', rfl, -, ⟨rfl, -⟩ | rfl⟩ := h.front
  · exact ⟨_, _, rfl, .inl hkind, hkind.symm ▸ hlex⟩
  · exact ⟨_, _, rfl, .inr rfl, hstar⟩

theorem Parses.access (h : Spelled scope true words tight v) (hname : isName v.name.text)
    (hliteral : v.name.text ∉ literalWords) : Parses scope [] words v.toExpr := by
  have hstar : ("*", Terminal.symbol .star) ∈ openers := by decide
  obtain ⟨w, words', rfl, hkind, hw⟩ := h.head hname [.expression]
    (by simpa using lexes_variable hname hliteral) (by simpa using openers_lex _ hstar)
  refine .operand (hw _ List.mem_cons_self) fun {rest left kind text fuel c} hends hfuel hat => ?_
  refine readOperand_variable (hat.kind ▸ hkind) ?_
  refine h.reads hends.behind hends.no_step (by simpa using hfuel) (by simpa using hfuel)
    (by simpa using hfuel) ⟨w, words', rfl, hat⟩ fun v' c' hv hat' => .pure ⟨?_, hat'⟩
  simp only [Variable.unlined, Variable.mk.injEq] at hv
  simp only [Variable.toExpr, Expr.unlined, hv]

end Variables

section Trees

variable {scope : Scope} {e l r : Expr} {k : Nat} {op : Terminal} {ops : List Terminal}

/-- The words of an expression are read back, in a chain of its own level if it is an operation. -/
structure ReadsBack (scope : Scope) (e : Expr) : Prop where
  operand : e.level = 5 → Parses scope [] e.words e
  chain {op : Terminal} {ops : List Terminal} :
    levels.drop e.level = op :: ops → Chains scope op ops e.words e e.operators
  short : e.operators ≤ callDepth

theorem ReadsBack.parses (h : ReadsBack scope e) (hlevel : e.level ≤ 5) :
    Parses scope (levels.drop e.level) e.words e := by
  rcases Nat.lt_or_eq_of_le hlevel with hlt | heq
  · rcases hdrop : levels.drop e.level with _ | ⟨op, ops⟩
    · exact absurd (List.drop_eq_nil_iff.1 hdrop) (Nat.not_le.2 hlt)
    · exact (h.chain hdrop).parses h.short
  · rw [heq]
    exact h.operand heq

theorem ReadsBack.within (h : ReadsBack scope e) (hlevel : e.level ≤ 5) (hk : k ≤ 5) :
    Parses scope (levels.drop k) (Syntax.within k e.level e.words) e := by
  obtain ⟨d, hd⟩ : ∃ d, k + d = 5 := ⟨5 - k, by omega⟩
  unfold Syntax.within
  split
  · rename_i hlt
    have hloose : Parses scope levels e.words e := by
      refine Parses.loosen (k := 0) (d := e.level) ?_
      rw [Nat.zero_add]
      exact h.parses hlevel
    cases e with
    | binary l op r =>
      refine Parses.loosen (d := d) ?_
      rw [hd]
      exact hloose.grouped
    | _ => exact absurd hlt (Nat.not_lt.2 hk)
  · rename_i hge
    refine Parses.loosen (d := e.level - k) ?_
    rw [Nat.add_sub_cancel' (Nat.not_lt.1 hge)]
    exact h.parses hlevel

theorem ReadsBack.leftmost (h : ReadsBack scope e) (hlevel : e.level ≤ 5) (hk : k < 5)
    (hdrop : levels.drop k = op :: ops) :
    Chains scope op ops (Syntax.within k e.level e.words) e (if e.level = k then e.operators else 0) := by
  by_cases heq : e.level = k
  · subst heq
    rw [Syntax.within, if_neg (Nat.lt_irrefl _), if_pos rfl]
    exact h.chain hdrop
  · have hwithin : Syntax.within k e.level e.words = Syntax.within (k + 1) e.level e.words := by
      have hasked : e.level < k ↔ e.level < k + 1 := by omega
      simp only [Syntax.within, hasked]
    have hops : ops = levels.drop (k + 1) := by
      rw [← List.drop_drop, hdrop]
      rfl
    rw [hwithin, hops, if_neg heq]
    exact (h.within hlevel hk).chains op

theorem operator_facts {op : BinaryOp} (h : op.level < 5) :
    ∃ t, levels.drop op.level = t :: levels.drop (op.level + 1) ∧ (op.text, t) ∈ followers ∧
      t ∉ levels.drop (op.level + 1) ∧ BinaryOp.ofText op.text = op := by
  cases op with
  | other text => exact absurd h (Nat.lt_irrefl 5)
  | _ => exact ⟨_, rfl, by decide, by decide, rfl⟩

theorem level_le (e : Expr) : e.level ≤ 5 := by
  cases e with
  | binary l op r => cases op <;> simp [Expr.level, BinaryOp.level]
  | _ => exact Nat.le_refl 5

theorem ReadsBack.binary {op : BinaryOp} (hop : op.level < 5) (hl : ReadsBack scope l)
    (hr : ReadsBack scope r) (hshort : (Expr.binary l op r).operators ≤ callDepth) :
    ReadsBack scope (.binary l op r) := by
  obtain ⟨t, hdrop, hfollows, hloose, htext⟩ := operator_facts hop
  refine ⟨fun h => absurd h (Nat.ne_of_lt hop), fun {op' ops} h => ?_, hshort⟩
  rw [show Expr.level (.binary l op r) = op.level from rfl, hdrop] at h
  cases h
  have hchain := (hl.leftmost (level_le l) hop hdrop).extend (hr.within (level_le r) hop) hfollows hloose
  rwa [htext] at hchain

theorem ReadsBack.of_operand (hlevel : e.level = 5) (h : Parses scope [] e.words e) (hnone : e.operators = 0) :
    ReadsBack scope e := by
  refine ⟨fun _ => h, fun {op ops} hdrop => ?_, hnone ▸ Nat.zero_le _⟩
  rw [hlevel] at hdrop
  cases hdrop

mutual

theorem readsBack : (e : Expr) → spellable scope.constants e = true → ReadsBack scope e
  | .literal kind word, h => .of_operand rfl (.literal word.line h) rfl
  | .access name path, h => by
    simp only [spellable, Bool.and_eq_true, Bool.not_eq_true', List.contains_eq_mem,
      decide_eq_false_iff_not] at h
    obtain ⟨⟨hname, hliteral⟩, hpath⟩ := h
    obtain ⟨tight, hspelled⟩ := spelledPath path (.name hname name.line) hname hpath
    exact .of_operand rfl (.access hspelled hname hliteral) rfl
  | .unary op operand, h => by
    simp only [spellable, Bool.and_eq_true, Bool.or_eq_true, beq_iff_eq] at h
    exact .of_operand rfl (.unary h.1 ((readsBack operand h.2).within (level_le operand) (Nat.le_refl 5))) rfl
  | .binary left op right, h => by
    simp only [spellable, Bool.and_eq_true, decide_eq_true_eq] at h
    obtain ⟨⟨⟨hleft, hop⟩, hright⟩, hshort⟩ := h
    exact .binary hop (readsBack left hleft) (readsBack right hright) (Nat.le_trans hshort (by decide))
  | .lazy _, h => by cases h
  | .stray .., h => by cases h

theorem spelledPath : (path : List Step) → {words : List String} → {tight : Bool} → {v : Variable} →
    Spelled scope true words tight v → isName v.name.text → spellablePath scope.constants path = true →
    ∃ tight', Spelled scope true (Syntax.pathWords words tight path) tight' (v.extend path)
  | [], words, tight, v, hv, _, _ => ⟨tight, by simpa [Syntax.pathWords, Variable.extend] using hv⟩
  | .deref :: path, words, tight, v, hv, hname, h => by
    obtain ⟨tight', hspelled⟩ := spelledPath path (hv.starred hname) hname h
    exact ⟨tight', by simpa [Syntax.pathWords, Variable.extend, Variable.push] using hspelled⟩
  | .index indexes :: path, words, tight, v, hv, hname, h => by
    simp only [spellablePath, Bool.and_eq_true, Bool.not_eq_true'] at h
    have hitems := readsItems indexes h.1.1 h.1.2
    have hstep : Spelled scope true (words ++ "[" :: Syntax.itemWords indexes ++ ["]"]) false
        (v.push (.index indexes)) := by
      rw [List.append_assoc]
      refine hv.behind (length_spaced _) fun hbefore => ?_
      rw [← List.append_assoc]
      exact hbefore.index hitems
    obtain ⟨tight', hspelled⟩ := spelledPath path hstep hname h.2
    exact ⟨tight', by simpa [Syntax.pathWords, Variable.extend, Variable.push] using hspelled⟩
  | .field f :: path, words, tight, v, hv, hname, h => by
    simp only [spellablePath, Bool.and_eq_true] at h
    obtain ⟨tight', hspelled⟩ :=
      spelledPath path (hv.behind (length_spaced _) fun hbefore => hbefore.field h.1) hname h.2
    exact ⟨tight', by simpa [Syntax.pathWords, Variable.extend, Variable.push] using hspelled⟩

theorem readsItems : (es : List Expr) → es.isEmpty = false → spellableItems scope.constants es = true →
    ReadsItems scope (Syntax.itemWords es) es
  | [], hne, _ => by cases hne
  | [e], _, h => by
    simp only [spellableItems, Bool.and_eq_true] at h
    exact .single (Parses.loosen (k := 0) (by
      rw [Nat.zero_add]
      exact (readsBack e h.1).parses (level_le e)))
  | e :: e' :: es, _, h => by
    rw [spellableItems, Bool.and_eq_true] at h
    exact .cons (Parses.loosen (k := 0) (by
      rw [Nat.zero_add]
      exact (readsBack e h.1).parses (level_le e))) (readsItems (e' :: es) rfl h.2)

end

end Trees

end Chalkboard.Reading
