import Chalkboard.Proofs.Tokens

/-! Expressions written as words. Brackets stand only where an operand binds less tightly than its place
asks for; a dereference binds more tightly than a field or an index, so what it is taken of is in
brackets if a field or an index comes last in it. -/

namespace Chalkboard.Syntax

/-- How tightly an operator binds, from the loosest at 0. -/
def BinaryOp.level : BinaryOp → Nat
  | or | and => 0
  | equal | notEqual => 1
  | less | lessEqual | more | moreEqual => 2
  | sum | minus => 3
  | times | divide | remainder => 4
  | other _ => 5

/-- All that is no binary operation is an operand as it stands. -/
def Expr.level : Expr → Nat
  | binary _ op _ => op.level
  | _ => 5

/-- How many operators of one level stand in a row, the last of them outermost. -/
def Expr.operators : Expr → Nat
  | binary left op _ => (if left.level = op.level then left.operators else 0) + 1
  | _ => 0

def grouped (words : List String) : List String := "(" :: words ++ [")"]

/-- Brackets where a level is asked for that is not reached. -/
def within (asked level : Nat) (words : List String) : List String :=
  if level < asked then grouped words else words

def starred (before : List String) (tight : Bool) : List String :=
  "*" :: if tight then before else grouped before

mutual

def Expr.words : Expr → List String
  | .literal .char word => ["'", word.text, "'"]
  | .literal _ word => [word.text]
  | .access name path => pathWords [name.text] true path
  | .unary op operand => op.text :: within 5 operand.level operand.words
  | .binary left op right =>
    within op.level left.level left.words ++ op.text ::
      within (op.level + 1) right.level right.words
  | .lazy body => body.words
  | .stray _ text _ => [text]

/-- Steps written around what stands before them, which is tight if no field or index comes last in it. -/
def pathWords (before : List String) (tight : Bool) : List Step → List String
  | [] => before
  | .deref :: steps => pathWords (starred before tight) true steps
  | .index indexes :: steps => pathWords (before ++ "[" :: itemWords indexes ++ ["]"]) false steps
  | .field f :: steps => pathWords (before ++ [".", f]) false steps

def itemWords : List Expr → List String
  | [] => []
  | [e] => e.words
  | e :: es => e.words ++ "," :: itemWords es

end

def Variable.words (v : Variable) : List String := pathWords [v.name.text] true v.path

mutual

def Expr.unlined : Expr → Expr
  | .literal kind word => .literal kind ⟨word.text, 0⟩
  | .access name path => .access ⟨name.text, 0⟩ (unlinedPath path)
  | .unary op operand => .unary op operand.unlined
  | .binary left op right => .binary left.unlined op right.unlined
  | .lazy body => .lazy body.unlined
  | .stray shown text kind => .stray shown text kind

def unlinedPath : List Step → List Step
  | [] => []
  | .deref :: steps => .deref :: unlinedPath steps
  | .index indexes :: steps => .index (unlinedItems indexes) :: unlinedPath steps
  | .field f :: steps => .field f :: unlinedPath steps

def unlinedItems : List Expr → List Expr
  | [] => []
  | e :: es => e.unlined :: unlinedItems es

end

def Variable.unlined (v : Variable) : Variable := ⟨⟨v.name.text, 0⟩, unlinedPath v.path⟩

theorem unlinedPath_append (p p' : List Step) : unlinedPath (p ++ p') = unlinedPath p ++ unlinedPath p' := by
  induction p with
  | nil => rfl
  | cons step p ih => cases step <;> simp [unlinedPath, ih]

def Variable.extend (v : Variable) (steps : List Step) : Variable := { v with path := v.path ++ steps }

theorem Variable.extend_push (v : Variable) (steps : List Step) (step : Step) :
    (v.extend steps).push step = v.extend (steps ++ [step]) := by
  simp [extend, push]

theorem unlined_extend {v u : Variable} (h : v.unlined = u.unlined) (steps : List Step) :
    (v.extend steps).unlined = (u.extend steps).unlined := by
  simp only [Variable.unlined, Variable.mk.injEq] at h
  simp only [Variable.unlined, Variable.extend, unlinedPath_append, h]

theorem unlined_push {v u : Variable} {step step' : Step} (h : v.unlined = u.unlined)
    (hstep : unlinedPath [step] = unlinedPath [step']) : (v.push step).unlined = (u.push step').unlined := by
  simp only [Variable.unlined, Variable.mk.injEq] at h
  simp only [Variable.unlined, Variable.push, unlinedPath_append, h, hstep]

end Chalkboard.Syntax

namespace Chalkboard.Reading

open Syntax (Expr Step Variable LiteralKind UnaryOp BinaryOp)

def isName (s : String) : Bool :=
  match s.toList with
  | c :: cs => (isLower c || c == '_') && cs.all isNameChar
  | [] => false

def isConstant (s : String) : Bool :=
  match s.toList with
  | c :: cs => isUpper c && cs.all isNameChar
  | [] => false

def isNumeral (s : String) : Bool := !s.toList.isEmpty && s.toList.all isDigit

def isDecimal (s : String) : Bool :=
  match s.toList.takeWhile isDigit, s.toList.dropWhile isDigit with
  | _ :: _, '.' :: d :: ds => (d :: ds).all isDigit
  | _, _ => false

/-- A real number in any form: digits with a point, an exponent or both. -/
def isReal (s : String) : Bool := realNumber s.toList == some (s.toList, [])

def isCharacter (s : String) : Bool :=
  match s.toList with
  | [c] => !isBlank c
  | _ => false

/-- The names that are something else where an expression begins. -/
def literalWords : List String := ["true", "false", "inf", "null", "getenv"]

def isLiteral (constants : List String) (kind : LiteralKind) (text : String) : Bool :=
  match kind with
  | .boolean => text == "true" || text == "false"
  | .integer => text == "inf" || isNumeral text && text.toList.length ≤ Number.longestNumeral
  | .real => isDecimal text || isReal text
  | .char => isCharacter text
  | .null => text == "null"
  | .enum => isConstant text && constants.contains text

/-- How many calls may nest, with as many left for those around. -/
def safeDepth : Nat := callDepth / 2

mutual

/-- Expressions that can be written, where some constants are known. -/
def spellable (constants : List String) : Expr → Bool
  | .literal kind word => isLiteral constants kind word.text
  | .access name path =>
    isName name.text && !literalWords.contains name.text && spellablePath constants path
  | .unary op operand => (op == .negative || op == .not) && spellable constants operand
  | .binary left op right =>
    spellable constants left && decide (op.level < 5) && spellable constants right &&
      decide ((Expr.binary left op right).operators ≤ safeDepth)
  | .lazy _ => false
  | .stray .. => false

def spellablePath (constants : List String) : List Step → Bool
  | [] => true
  | .deref :: steps => spellablePath constants steps
  | .index indexes :: steps =>
    !indexes.isEmpty && spellableItems constants indexes && spellablePath constants steps
  | .field f :: steps => isName f && spellablePath constants steps

def spellableItems (constants : List String) : List Expr → Bool
  | [] => true
  | e :: es => spellable constants e && spellableItems constants es

end

/-! What the words are read as. Only names, constants, numbers and characters are more than finitely
many; the others are looked up. -/

section Lexes

variable {w : String}

variable {c : Char} {cs : List Char} {p : Char → Bool}

theorem isDigit_iff : isDigit c = true ↔ 48 ≤ c.toNat ∧ c.toNat ≤ 57 := by
  simp only [isDigit, Bool.and_eq_true, decide_eq_true_eq]
  rfl

theorem isLower_iff : isLower c = true ↔ 97 ≤ c.toNat ∧ c.toNat ≤ 122 := by
  simp only [isLower, Bool.and_eq_true, decide_eq_true_eq]
  rfl

theorem isUpper_iff : isUpper c = true ↔ 65 ≤ c.toNat ∧ c.toNat ≤ 90 := by
  simp only [isUpper, Bool.and_eq_true, decide_eq_true_eq]
  rfl

def isFront (c : Char) : Bool := isLower c || c == '_'

theorem nameStart_facts (h : isNameStart c = true) : isDigit c = false ∧ c ≠ '.' := by
  simp only [isNameStart, Bool.or_eq_true, isLower_iff, isUpper_iff, beq_iff_eq] at h
  constructor
  · rw [← Bool.not_eq_true, isDigit_iff]
    rcases h with (h | h) | rfl
    · omega
    · omega
    · decide
  · rintro rfl
    revert h
    decide

theorem nameStart_of_front (h : isFront c = true) : isNameStart c = true := by
  simp only [isFront, isNameStart, Bool.or_eq_true] at h ⊢
  exact h.imp .inl id

theorem all_of_isName (h : isName w) : ∃ c cs, w.toList = c :: cs ∧ isFront c = true ∧
    cs.all isNameChar = true := by
  unfold isName at h
  split at h
  · rename_i c cs hw
    simp only [Bool.and_eq_true] at h
    exact ⟨c, cs, hw, h⟩
  · cases h

theorem span_all (h : cs.all p = true) :
    cs.takeWhile p = cs ∧ cs.dropWhile p = [] := by
  have hp : ∀ c ∈ cs, p c = true := List.all_eq_true.1 h
  have htake : (cs ++ []).takeWhile p = cs ++ [].takeWhile p := List.takeWhile_append_of_pos hp
  have hdrop : (cs ++ []).dropWhile p = [].dropWhile p := List.dropWhile_append_of_pos hp
  exact ⟨by simpa using htake, by simpa using hdrop⟩

theorem run_all {first more : Char → Bool} (hc : first c = true)
    (hcs : cs.all more = true) : run first more (c :: cs) = some (c :: cs, []) := by
  simp [run, hc, span_all hcs]

/-- The terminals tried at a spot, in their order. -/
def tried (spot : Spot) : List Terminal :=
  Terminal.order.filter fun t => spot.accepts.contains t && !heldByName spot.accepts t

theorem firstMatch_tried (spot : Spot) (cs : List Char) :
    firstMatch spot.accepts cs = (tried spot).findSome? fun t =>
      (t.match? cs).map fun (m, _) => (asKeyword spot.accepts t (String.ofList m), m) := rfl

theorem tried_expression : tried .expression =
    [.real, .variableName, .constantName, .int, .unary, .symbol .openParen, .symbol .quote,
      .symbol .star] := by decide

theorem isSolid_of (hc : c ∉ stops) (hslash : c ≠ '/') : isSolid (c :: cs) := by
  simp [isSolid, hc, hslash]

theorem isSolid_class (hp : ('/' :: stops).any p = false) (cs : List Char)
    (hc : p c = true) : isSolid (c :: cs) := by
  have hne : ∀ d ∈ '/' :: stops, c ≠ d := by
    rintro d hd rfl
    exact List.any_eq_false.1 hp c hd hc
  exact isSolid_of (fun h => hne c (List.mem_cons_of_mem _ h) rfl) (hne '/' List.mem_cons_self)

theorem realNumber_none (cs : List Char) (hdigit : isDigit c = false) (hdot : c ≠ '.') :
    realNumber (c :: cs) = none := by
  simp [realNumber, hdigit, hdot]

theorem asKeyword_name {accepts : List Terminal} (hkey : ∀ k, .word k ∈ accepts → k.text ≠ w)
    (kind : Terminal) : asKeyword accepts kind w = kind := by
  unfold asKeyword
  split
  · rw [List.find?_eq_none.2]
    · rfl
    · intro t ht
      cases t with
      | word k => simpa using hkey k ht
      | _ => simp
  · rfl

theorem findSome?_after_real {α : Type} {f : Terminal → Option α} (hreal : f .real = none) {t : Terminal}
    (ht : (f t).isSome) {ts : List Terminal} (h : (ts.filter (· != .real)).head? = some t) :
    ts.findSome? f = f t := by
  induction ts with
  | nil => cases h
  | cons u ts ih =>
    rw [List.findSome?_cons]
    by_cases hu : u = .real
    · subst hu
      rw [hreal]
      exact ih h
    · simp only [List.filter_cons, bne_iff_ne, ne_eq, hu, not_false_eq_true, if_true, List.head?_cons,
        Option.some.injEq] at h
      subst h
      rcases hf : f u with _ | a
      · rw [hf] at ht
        cases ht
      · rfl

/-- No name goes on into a text. -/
def Apart (rest : List Char) : Prop := ∀ d ∈ rest.head?, isNameChar d = false

/-- A word of a class of names is read as one at any spot that looks for this class first, unless it is a keyword
there. It ends where something stands that is in no name. -/
theorem cuts_class {spot : Spot} {kind : Terminal} {first : Char → Bool} (hclass : kind.match? = run first isNameChar)
    (hspot : ((tried spot).filter (· != .real)).head? = some kind)
    (hkey : ∀ k, .word k ∈ spot.accepts → k.text ≠ w) (hcs : w.toList = c :: cs) (hc : first c = true)
    (hstart : isNameStart c = true) (hall : cs.all isNameChar = true) {left : List Char}
    (hleft : Apart left) : Cuts spot w left kind := by
  have htake : left.takeWhile isNameChar = [] := by
    cases left with
    | nil => rfl
    | cons d left => rw [List.takeWhile_cons, hleft d rfl, if_neg Bool.false_ne_true]
  have hmatch : ∃ r, kind.match? (w.toList ++ left) = some (w.toList, r) := by
    refine ⟨(cs ++ left).dropWhile isNameChar, ?_⟩
    rw [hclass, hcs, List.cons_append, run, if_pos hc, List.takeWhile_append_of_pos (List.all_eq_true.1 hall), htake,
      List.append_nil]
  obtain ⟨r, hmatch⟩ := hmatch
  have hreal : Terminal.real.match? (w.toList ++ left) = none := by
    rw [hcs]
    exact realNumber_none (cs ++ left) (nameStart_facts hstart).1 (nameStart_facts hstart).2
  refine ⟨?_, ?_⟩
  · rw [hcs]
    exact isSolid_class (p := isNameStart) (by decide) (cs ++ left) hstart
  · rw [firstMatch_tried, findSome?_after_real (by simp [hreal]) (by simp [hmatch]) hspot, hmatch]
    simp [asKeyword_name hkey, String.ofList_toList]

theorem cuts_name {spot : Spot}
    (hspot : ((tried spot).filter (· != .real)).head? = some .variableName) (hw : isName w)
    (hkey : ∀ k, .word k ∈ spot.accepts → k.text ≠ w) {left : List Char}
    (hleft : Apart left) : Cuts spot w left .variableName := by
  obtain ⟨c, cs, hcs, hc, hall⟩ := all_of_isName hw
  exact cuts_class rfl hspot hkey hcs hc (nameStart_of_front hc) hall hleft

theorem cuts_field (hw : isName w) {left : List Char} (hleft : Apart left) :
    Cuts .fieldName w left .lowerName := by
  obtain ⟨c, cs, hcs, hc, hall⟩ := all_of_isName hw
  exact cuts_class rfl (by decide) (by simp [Spot.accepts]) hcs hc (nameStart_of_front hc) hall hleft

theorem lexes_name {spot : Spot}
    (hspot : ((tried spot).filter (· != .real)).head? = some .variableName) (hw : isName w)
    (hkey : ∀ k, .word k ∈ spot.accepts → k.text ≠ w) : Lexes spot w .variableName :=
  (cuts_name hspot hw hkey fun d hd => by cases hd).lexes

theorem lexes_constant (hw : isConstant w) : Lexes .expression w .constantName := by
  unfold isConstant at hw
  split at hw
  · rename_i c cs hcs
    simp only [Bool.and_eq_true] at hw
    obtain ⟨hc, hall⟩ := hw
    have hclass : isDigit c = false ∧ isFront c = false ∧ c ≠ '.' := by
      simp only [← Bool.not_eq_true, isFront, Bool.or_eq_true, isLower_iff, isDigit_iff, beq_iff_eq]
      rw [isUpper_iff] at hc
      refine ⟨by omega, ?_, ?_⟩
      · rintro (h | rfl)
        · omega
        · exact absurd hc (by decide)
      · rintro rfl
        exact absurd hc (by decide)
    have hreal : Terminal.real.match? w.toList = none := by
      rw [hcs]
      exact realNumber_none cs hclass.1 hclass.2.2
    have hname : Terminal.variableName.match? w.toList = none := by
      rw [hcs]
      exact if_neg (by simpa [isFront] using hclass.2.1)
    have hmatch : Terminal.constantName.match? w.toList = some (w.toList, []) := by
      rw [hcs]
      exact run_all hc hall
    refine ⟨?_, ?_⟩
    · rw [hcs]
      exact isSolid_class (p := isUpper) (by decide) cs hc
    · simp [firstMatch_tried, tried_expression, hreal, hname, hmatch, asKeyword, Terminal.holdsWords]
  · cases hw

theorem match?_digit (cs : List Char) (hc : isDigit c = true) :
    Terminal.variableName.match? (c :: cs) = none ∧ Terminal.constantName.match? (c :: cs) = none := by
  rw [isDigit_iff] at hc
  constructor
  · refine if_neg ?_
    simp only [Bool.or_eq_true, isLower_iff, beq_iff_eq]
    rintro (h | rfl)
    · omega
    · exact absurd hc (by decide)
  · refine if_neg ?_
    rw [isUpper_iff]
    omega

theorem tried_axis : tried .axis = [.variableName, .int, .symbol .openParen, .symbol .star] := by decide

theorem lexes_digits {spot : Spot} (hspot : spot = .expression ∨ spot = .axis) (hw : isNumeral w) :
    Lexes spot w .int := by
  unfold isNumeral at hw
  rcases hcs : w.toList with _ | ⟨c, cs⟩
  · rw [hcs] at hw
    cases hw
  · rw [hcs, List.isEmpty_cons, Bool.not_false, Bool.true_and] at hw
    have hreal : Terminal.real.match? (c :: cs) = none := by
      change realNumber (c :: cs) = none
      unfold realNumber
      rw [(span_all hw).1, (span_all hw).2]
      rfl
    rw [List.all_cons, Bool.and_eq_true] at hw
    obtain ⟨hc, hall⟩ := hw
    have hmatch : Terminal.int.match? (c :: cs) = some (c :: cs, []) := run_all hc hall
    refine ⟨?_, ?_⟩
    · rw [hcs]
      exact isSolid_class (p := isDigit) (by decide) cs hc
    · rcases hspot with rfl | rfl <;> simp [hcs, firstMatch_tried, tried_expression, tried_axis, hreal,
        match?_digit cs hc, hmatch, asKeyword, Terminal.holdsWords]

theorem lexes_numeral (hw : isNumeral w) : Lexes .expression w .int := lexes_digits (.inl rfl) hw

theorem isReal_of_isDecimal (hw : isDecimal w) : isReal w := by
  unfold isDecimal at hw
  split at hw
  · rename_i c whole d ds htake hdrop
    have hcs : w.toList = c :: whole ++ '.' :: d :: ds := by
      rw [← htake, ← hdrop, List.takeWhile_append_dropWhile]
    have hmatch : realNumber w.toList = some (w.toList, []) := by
      unfold realNumber
      simp only [htake, hdrop, span_all hw]
      simp [exponentOrNot, exponent, hcs]
    rw [isReal, hmatch, beq_self_eq_true]
  · cases hw

theorem lexes_real (hw : isReal w) : Lexes .expression w .real := by
  have hmatch : Terminal.real.match? w.toList = some (w.toList, []) := by
    rw [isReal, beq_iff_eq] at hw
    exact hw
  refine ⟨?_, ?_⟩
  · rcases hcs : w.toList with _ | ⟨c, cs⟩
    · rw [hcs] at hmatch
      cases hmatch
    · have hc : (isDigit c || c == '.') = true := by
        rw [← Bool.not_eq_false]
        intro hnone
        rw [Bool.or_eq_false_iff, beq_eq_false_iff_ne] at hnone
        rw [hcs] at hmatch
        cases (realNumber_none cs hnone.1 hnone.2).symm.trans hmatch
      exact isSolid_class (p := fun c => isDigit c || c == '.') (by decide) cs hc
  · simp [firstMatch_tried, tried_expression, hmatch, asKeyword, Terminal.holdsWords]

theorem tried_character : tried .character = [.char] := by decide

theorem tokenAt_character (hw : isCharacter w) (words : List String) {rest : List Char} (h : Parted rest) :
    tokenAt .character (spaced (w :: words) ++ rest) = some (.char, w, spaced words ++ rest) := by
  have h := parted_spaced h words
  rw [spaced_cons, List.cons_append, List.append_assoc]
  generalize spaced words ++ rest = rest at h ⊢
  unfold isCharacter at hw
  split at hw
  · rename_i c hc
    rw [Bool.not_eq_true'] at hw
    have hline : c ≠ '\n' := by
      rintro rfl
      cases hw
    have hslash : (rest.head? == some '/') = false := by
      rcases rest with _ | ⟨d, rest⟩
      · rfl
      · exact h.none (p := fun d => some d == some '/') (by decide) d rfl
    have hskip : skipped false .nothing (' ' :: c :: rest) = [' '] := by
      have hgap : skipped false .nothing ([' '] ++ c :: rest) = [' '] ++ skipped false .blanks (c :: rest) :=
        skipped_gap (by decide) (by decide)
      simpa only [List.singleton_append, skipped, hw, hslash, Bool.false_and, Bool.and_false,
        Bool.false_eq_true, if_false] using hgap
    have hsep : Spot.character.accepts.contains .separator = false := by decide
    have htake : rest.takeWhile (fun _ => false) = [] := by cases rest <;> rfl
    have htext : String.ofList [c] = w := by rw [← hc, String.ofList_toList]
    rw [tokenAt, hsep, hc, List.singleton_append, hskip]
    simp [firstMatch_tried, tried_character, Terminal.match?, run, hline, htake, asKeyword,
      Terminal.holdsWords, htext]
  · cases hw

/-- The words that may follow an expression, whatever it ends with. -/
def followers : List (String × Terminal) :=
  [("||", .junction), ("&&", .junction), ("==", .equality), ("!=", .equality), ("<", .comparison),
    ("<=", .comparison), (">", .comparison), (">=", .comparison), ("+", .term), ("-", .term),
    ("*", .factor), ("/", .factor), ("%", .factor), (")", .symbol .closeParen), (",", .symbol .comma),
    ("]", .symbol .closeBracket), ("then", .word .thenWord), ("do", .word .doWord), ("to", .word .toWord),
    ("downto", .word .downto), ("else", .word .elseWord), ("fi", .word .fi), ("od", .word .od)]

theorem followers_lex :
    ∀ x ∈ followers, Lexes .afterLiteral x.1 x.2 ∧ Lexes .afterVariable x.1 x.2 := by
  decide

/-- The words with which an expression begins that is no name, no constant and no number. -/
def openers : List (String × Terminal) :=
  [("true", .word .trueWord), ("false", .word .falseWord), ("inf", .word .inf), ("null", .word .null),
    ("-", .unary), ("!", .unary), ("(", .symbol .openParen), ("'", .symbol .quote), ("*", .symbol .star)]

theorem openers_lex : ∀ x ∈ openers, Lexes .expression x.1 x.2 := by decide

theorem assign_lex : Lexes .afterVariable ":=" (.symbol .assign) := by decide

theorem quote_lex : Lexes .closeCharacter "'" (.symbol .quote) := by decide

end Lexes

section Numerals

variable {w : String}

theorem digit_mem {c : Char} (h : isDigit c = true) :
    c ∈ ['0', '1', '2', '3', '4', '5', '6', '7', '8', '9'] := by
  rw [isDigit_iff] at h
  have hc := Char.ofNat_toNat c
  have hcases : c.toNat = 48 ∨ c.toNat = 49 ∨ c.toNat = 50 ∨ c.toNat = 51 ∨ c.toNat = 52 ∨
      c.toNat = 53 ∨ c.toNat = 54 ∨ c.toNat = 55 ∨ c.toNat = 56 ∨ c.toNat = 57 := by omega
  rcases hcases with h | h | h | h | h | h | h | h | h | h <;> rw [h] at hc <;> rw [← hc] <;> decide

theorem digit_facts : ∀ c ∈ ['0', '1', '2', '3', '4', '5', '6', '7', '8', '9'],
    Number.isMargin c = false ∧ Number.plainDigits [c] = [c] ∧ c ≠ '_' ∧ c.isDigit = true ∧ c ≠ '-' ∧
      c ≠ '+' := by
  intro c hc
  simp only [List.mem_cons, List.not_mem_nil, or_false] at hc
  rcases hc with rfl | rfl | rfl | rfl | rfl | rfl | rfl | rfl | rfl | rfl <;> decide

theorem trimmed_digits {cs : List Char} (h : ∀ c ∈ cs, isDigit c = true) :
    Text.trimmed Number.isMargin cs = cs := by
  have hdrop {ds : List Char} (hds : ∀ c ∈ ds, isDigit c = true) : ds.dropWhile Number.isMargin = ds := by
    cases ds with
    | nil => rfl
    | cons d ds =>
      have hd := (digit_facts d (digit_mem (hds d List.mem_cons_self))).1
      simp [hd]
  unfold Text.trimmed
  rw [hdrop h, hdrop (fun c hc => h c (List.mem_reverse.1 hc)), List.reverse_reverse]

theorem plainDigits_digits {cs : List Char} (h : ∀ c ∈ cs, isDigit c = true) :
    Number.plainDigits cs = cs := by
  induction cs with
  | nil => rfl
  | cons c cs ih =>
    have hc := (digit_facts c (digit_mem (h c List.mem_cons_self))).2.1
    have hcs := ih fun d hd => h d (List.mem_cons_of_mem _ hd)
    simp only [Number.plainDigits, List.map_cons, List.map_nil, List.cons.injEq, and_true] at hc hcs ⊢
    exact ⟨hc, hcs⟩

theorem dropUnderscores_digits {cs : List Char} (h : ∀ c ∈ cs, isDigit c = true) {before : Char}
    (hbefore : before ≠ '_') : Number.dropUnderscores before cs = some cs := by
  induction cs generalizing before with
  | nil => simp [Number.dropUnderscores, hbefore]
  | cons c cs ih =>
    have hc := (digit_facts c (digit_mem (h c List.mem_cons_self))).2.2.1
    have hcs := ih (fun d hd => h d (List.mem_cons_of_mem _ hd)) hc
    simp [Number.dropUnderscores, hbefore, hcs]

theorem readInt?_numeral (h : isNumeral w) :
    (Number.readInt? w).isSome = decide (w.toList.length ≤ Number.longestNumeral) := by
  simp only [isNumeral, Bool.and_eq_true, Bool.not_eq_true', List.all_eq_true] at h
  obtain ⟨hne, hdigits⟩ := h
  have hall : w.toList.all Char.isDigit = true :=
    List.all_eq_true.2 fun c hc => (digit_facts c (digit_mem (hdigits c hc))).2.2.2.1
  have hnumeral : Number.numeral? w = some w.toList := by
    unfold Number.numeral?
    rw [trimmed_digits hdigits, plainDigits_digits hdigits,
      dropUnderscores_digits hdigits (by decide)]
  have hsign : Number.splitSign w.toList = (false, w.toList) := by
    rcases hcs : w.toList with _ | ⟨c, cs⟩
    · rfl
    · have hc := digit_facts c (digit_mem (hdigits c (hcs ▸ List.mem_cons_self)))
      simp [Number.splitSign, hc]
  unfold Number.readInt?
  rw [hnumeral]
  simp only [Option.bind_eq_bind, Option.bind_some, hsign, hne, hall, Bool.false_or, Bool.not_true]
  by_cases hlong : Number.longestNumeral < w.toList.length
  · simp [hlong, Nat.not_le.2 hlong]
  · simp [hlong, Nat.not_lt.1 hlong]

end Numerals

end Chalkboard.Reading
