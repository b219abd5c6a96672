import Chalkboard.Proofs.Assignments
import Mathlib.Data.List.TakeWhile

/-! Values from the environment. A text that is read as a literal has the same value when an environment
variable holds it, if it is a number, with blanks around it or without, or a single character. Any other text
is refused where a program may hold it: a character with a blank beside it, a number with a comment, and every
truth value. -/

namespace Chalkboard.Reading

open Syntax (Expr Lexeme LiteralKind)
open Run (evalExpr literalValue)

def isIdentifier (s : String) : Bool :=
  match s.toList with
  | c :: cs => isNameStart c && cs.all isNameChar
  | [] => false

def basicNames : List String := ["int", "real", "char", "bool"]

/-- What stands behind the word that asks for an environment variable. -/
def request (name type : String) : List Char :=
  '(' :: '"' :: (name.toList ++ '"' :: ':' :: (type.toList ++ [')']))

/-- A literal as it is written; a character stands between quotes. -/
def quoted (type text : String) : List Char :=
  if type == "char" then '\'' :: (text.toList ++ ['\'']) else text.toList

/-- Whether a literal is one of a type. The boundless number is written the same for both types of numbers. -/
def isLiteralOf (type : String) (kind : LiteralKind) (text : String) : Bool :=
  match kind with
  | .integer => type == "int" || type == "real" && text == "inf"
  | .real => type == "real"
  | .char => type == "char"
  | .boolean => type == "bool"
  | .null | .enum => false

/-- Nothing but blanks and comments. -/
def Ignored (cs : List Char) : Prop := skipped false .nothing cs = cs

/-- Somewhere a text is read as a literal of a type, and the literal has a value. The literal is a word of the
text; around it are blanks and comments. -/
def Denotes (scope : Scope) (env : Run.Env) (type text word : String) (value : Value) : Prop :=
  (∃ before after, text.toList = before ++ (word.toList ++ after) ∧ Ignored before ∧ Ignored after) ∧
    ∃ rest c kind line c', Looks .expression (quoted type text ++ rest) c ∧
      readExpr scope c = .ok (.literal kind ⟨word, line⟩, c') ∧ isLiteralOf type kind word = true ∧
      evalExpr env (.literal kind ⟨word, line⟩) = .ok value

/-- Whether a text in the environment is taken for the word in it: for numbers blanks do no harm, unless the
number is the boundless one among the whole ones; comments do. -/
def standsFor (type text word : String) : Bool :=
  text == word || (type == "real" || type == "int" && word != "inf") && !text.toList.contains '/'

section Tokens

variable {name type : String}

theorem cuts_request (name type : String) : Cuts .expression "getenv" (request name type) (.word .getenv) ∧
    Cuts .getenvOpen "(" (request name type).tail (.symbol .openParen) ∧
    Cuts .getenvOpenQuote "\"" ((request name type).drop 2) (.symbol .doubleQuote) :=
  ⟨⟨rfl, rfl⟩, ⟨rfl, rfl⟩, ⟨rfl, rfl⟩⟩

theorem cuts_identifier (hname : isIdentifier name) (left : List Char) :
    Cuts .getenvName name ('"' :: left) .anyName := by
  unfold isIdentifier at hname
  split at hname
  · rename_i c cs hcs
    rw [Bool.and_eq_true] at hname
    refine cuts_class rfl (by decide) (by simp [Spot.accepts]) hcs hname.1 hname.1 hname.2 fun d hd => ?_
    cases hd
    decide
  · cases hname

theorem cuts_type : ∀ type ∈ basicNames,
    Cuts .getenvCloseQuote "\"" (':' :: (type.toList ++ [')'])) (.symbol .doubleQuote) ∧
      Cuts .getenvColon ":" (type.toList ++ [')']) (.symbol .colon) ∧
      Cuts .getenvType type [')'] .basicType ∧ Cuts .getenvClose ")" [] (.symbol .closeParen) := by
  decide

end Tokens

section Read

variable {scope : Scope} {c : Cursor} {name type s text : String} {kind : Terminal} {rest left : List Char}

theorem advance_cut {spot : Spot} {front : String} {behind : List Char}
    (hcut : Cuts spot front behind kind)
    (hc : c.source.rest = front.toList ++ behind ++ rest) (hrest : Parted rest) :
    ∃ c', advance spot c = .ok ((), c') ∧ At c' kind front (behind ++ rest) := by
  have htoken := cut_token hcut hrest
  rw [← hc] at htoken
  obtain ⟨_, c', hread, hat⟩ := Gets.advanced htoken
  exact ⟨c', hread, hat⟩

theorem readGetenv_apply (hname : isIdentifier name) (htype : type ∈ basicNames)
    (hset : scope.environment.lookup name = some s) (hends : Ends rest kind text left)
    (hat : At c (.word .getenv) "getenv" (request name type ++ rest)) :
    ∃ c' line, At c' kind text left ∧
      readGetenv scope c = (environmentLiteral type ⟨s, line⟩).map (·, c') := by
  obtain ⟨-, hopen, hquote⟩ := cuts_request name type
  obtain ⟨hquote', hcolon, hbasic, hclose⟩ := cuts_type type htype
  have hparted := hends.parted
  obtain ⟨c₁, h₁, hat₁⟩ := advance_cut hopen (by rw [hat.rest]; rfl) hparted
  obtain ⟨c₂, h₂, hat₂⟩ := advance_cut hquote (by rw [hat₁.rest]; rfl) hparted
  obtain ⟨c₃, h₃, hat₃⟩ := advance_cut (cuts_identifier hname _) (by rw [hat₂.rest]; rfl) hparted
  obtain ⟨c₄, h₄, hat₄⟩ := advance_cut hquote' (by rw [hat₃.rest]; rfl) hparted
  obtain ⟨c₅, h₅, hat₅⟩ := advance_cut hcolon (by rw [hat₄.rest]; rfl) hparted
  obtain ⟨c₆, h₆, hat₆⟩ := advance_cut hbasic (by rw [hat₅.rest]) hparted
  obtain ⟨c₇, h₇, hat₇⟩ := advance_cut hclose (by rw [hat₆.rest]; rfl) hparted
  obtain ⟨_, c₈, h₈, hat₈⟩ := Gets.advanced (c := c₇) (by rw [hat₇.rest]; exact hends.literal)
  refine ⟨c₈, c₃.look.line, hat₈, ?_⟩
  rw [readGetenv, read_bind, h₁]
  dsimp only
  rw [read_bind, h₂]
  dsimp only
  rw [read_bind, h₃]
  dsimp only
  rw [read_bind, look_apply]
  dsimp only
  rw [read_bind, h₄]
  dsimp only
  rw [read_bind, h₅]
  dsimp only
  rw [read_bind, h₆]
  dsimp only
  rw [read_bind, look_apply]
  dsimp only
  rw [read_bind, h₇]
  dsimp only
  rw [read_bind, h₈]
  dsimp only
  rw [hat₃.text, hset, hat₆.text]
  dsimp only
  rcases environmentLiteral type ⟨s, c₃.look.line⟩ with _ | _ <;> rfl

theorem readLevels_stop {operand : Read Expr} {fuel : Nat} {Q : Expr → Prop} {ops : List Terminal}
    (h : Gets operand c fun e c' => Q e ∧ At c' kind text left) (hkind : kind ∉ ops) :
    Gets (readLevels operand fuel ops) c fun e c' => Q e ∧ At c' kind text left := by
  induction ops with
  | nil => exact h
  | cons op ops ih =>
    rw [List.mem_cons, not_or] at hkind
    refine (ih hkind.2).bind ?_
    rintro e c' ⟨he, hat⟩
    exact readChain_stop (Nat.zero_le _) (hat.kind ▸ hkind.1) ⟨he, hat⟩ fuel

theorem readOperand_getenv (hkind : c.look.kind = .word .getenv) (fuel : Nat) :
    readOperand scope (fuel + 1) c = readGetenv scope c := by
  rw [readOperand, read_bind, look_apply]
  dsimp only
  rw [hkind]

end Read

/-- A literal of a real, be it `inf`, has the value of a real of its text. -/
theorem literalValue_real {types : Types} {s : String} {literal : LiteralKind} {value : Value}
    (hliteral : isLiteralOf "real" literal s = true) (hvalue : literalValue types literal s = .ok value) :
    literalValue types .real s = .ok value := by
  cases literal <;> simp [isLiteralOf] at hliteral
  · subst hliteral
    exact hvalue
  · exact hvalue

theorem environmentLiteral_value {env : Run.Env} {type s : String} {literal : LiteralKind} {line : Nat}
    {value : Value} (htype : type ∈ basicNames) (hother : type ≠ "bool")
    (hliteral : isLiteralOf type literal s = true)
    (hvalue : evalExpr env (.literal literal ⟨s, line⟩) = .ok value) (line' : Nat) :
    ∃ e, environmentLiteral type ⟨s, line'⟩ = .ok e ∧ evalExpr env e = .ok value := by
  rw [evalExpr] at hvalue
  simp only [basicNames, List.mem_cons, List.not_mem_nil, or_false] at htype
  rcases htype with rfl | rfl | rfl | rfl
  · obtain rfl : literal = .integer := by cases literal <;> simp_all [isLiteralOf]
    have hcheck : checkInt ⟨s, line'⟩ = .ok () := by
      refine if_pos ?_
      by_cases hinf : s = "inf"
      · simp [hinf]
      · cases hread : Number.readInt? s <;> simp_all [literalValue]
    exact ⟨.literal .integer ⟨s, line'⟩, by simp only [environmentLiteral, hcheck]; rfl, hvalue⟩
  · have hvalue := literalValue_real hliteral hvalue
    have hcheck : (s == "inf" || (Number.readReal? s).isSome) = true := by
      by_cases hinf : s = "inf"
      · simp [hinf]
      · cases hread : Number.readReal? s <;> simp_all [literalValue]
    exact ⟨.literal .real ⟨s, line'⟩, if_pos hcheck, hvalue⟩
  · obtain rfl : literal = .char := by cases literal <;> simp_all [isLiteralOf]
    have hcheck : (s.length == 1) = true := by
      by_contra hlong
      simp_all [literalValue]
    exact ⟨.literal .char ⟨s, line'⟩, if_pos hcheck, hvalue⟩
  · exact absurd rfl hother

section Margins

variable {before after cs : List Char} {s w : String}

theorem isMargin_of_isBlank {c : Char} (h : isBlank c = true) : Number.isMargin c = true := by
  simp only [isBlank, Bool.or_eq_true, beq_iff_eq] at h
  rcases h with (((rfl | rfl) | rfl) | rfl) | rfl <;> decide

theorem isMargin_of_ignored (h : Ignored cs) (hslash : '/' ∉ cs) : ∀ c ∈ cs, Number.isMargin c = true := by
  unfold Ignored at h
  -- Behind a first blank the skipping goes on among blanks, so both ways of it are followed.
  suffices ∀ mode ∈ [Skipping.nothing, .blanks], skipped false mode cs = cs → ∀ c ∈ cs, Number.isMargin c = true
    from this _ List.mem_cons_self h
  clear h
  induction cs with
  | nil => simp
  | cons c cs ih =>
    rw [List.mem_cons, not_or] at hslash
    intro mode hmode h
    have hopen : skipped false mode (c :: cs) = if isBlank c then c :: skipped false .blanks cs else [] := by
      have hplain : ¬(c == '/' && cs.head? == some '/') = true := by simp [Ne.symm hslash.1]
      simp only [List.mem_cons, List.not_mem_nil, or_false] at hmode
      rcases hmode with rfl | rfl <;> simp [skipped, hplain]
    rw [hopen] at h
    by_cases hblank : isBlank c = true
    · rw [if_pos hblank, List.cons.injEq] at h
      exact List.forall_mem_cons.2 ⟨isMargin_of_isBlank hblank, ih hslash.2 _ (by simp) h.2⟩
    · rw [if_neg hblank] at h
      cases h

theorem trimmed_append {drop : Char → Bool} (hbefore : ∀ c ∈ before, drop c = true)
    (hafter : ∀ c ∈ after, drop c = true) :
    Text.trimmed drop (before ++ (cs ++ after)) = Text.trimmed drop cs := by
  unfold Text.trimmed
  rw [List.dropWhile_append_of_pos hbefore, List.dropWhile_append]
  split
  · rename_i hnone
    rw [List.isEmpty_iff.1 hnone, List.dropWhile_eq_nil_iff.2 hafter]
  · rw [List.reverse_append, List.dropWhile_append_of_pos (by simpa using hafter)]

theorem numeral?_margins (htext : s.toList = before ++ (w.toList ++ after)) (hbefore : Ignored before)
    (hafter : Ignored after) (hslash : '/' ∉ s.toList) : Number.numeral? s = Number.numeral? w := by
  simp only [htext, List.mem_append, not_or] at hslash
  unfold Number.numeral?
  rw [htext, trimmed_append (isMargin_of_ignored hbefore hslash.1)
    (isMargin_of_ignored hafter hslash.2.2)]

end Margins

section Strange

variable {x : Char} {cs : List Char} {s : String}

/-- Neither of the two is at home in a whole number. -/
def strangers : List Char := ['/', 'i']

theorem stranger_facts (hx : x ∈ strangers) : Number.isMargin x = false ∧ Text.digitValue? x = none ∧
    x ≠ '_' ∧ x ≠ '-' ∧ x ≠ '+' ∧ x.isDigit = false := by
  simp only [strangers, List.mem_cons, List.not_mem_nil, or_false] at hx
  rcases hx with rfl | rfl <;> decide +kernel

theorem mem_dropWhile_of_not {p : Char → Bool} (h : x ∈ cs) (hx : p x = false) : x ∈ cs.dropWhile p := by
  rw [← List.takeWhile_append_dropWhile (p := p) (l := cs), List.mem_append] at h
  refine h.resolve_left fun htaken => ?_
  rw [List.mem_takeWhile_imp htaken] at hx
  cases hx

theorem mem_dropUnderscores {before : Char} {left : List Char} (h : x ∈ cs) (hx : x ≠ '_')
    (hdrop : Number.dropUnderscores before cs = some left) : x ∈ left := by
  fun_induction Number.dropUnderscores before cs generalizing left with
  | case1 => cases h
  | case2 => cases h
  | case3 _ _ _ ih => exact ih ((List.mem_cons.1 h).resolve_left hx) hdrop
  | case4 => cases hdrop
  | case5 => cases hdrop
  | case6 before c cs _ _ ih =>
    obtain ⟨left', hleft, rfl⟩ := Option.map_eq_some_iff.1 hdrop
    rcases List.mem_cons.1 h with rfl | h
    · exact List.mem_cons_self
    · exact List.mem_cons_of_mem _ (ih h hleft)

theorem mem_numeral (hx : x ∈ strangers) (h : x ∈ s.toList) (hread : Number.numeral? s = some cs) : x ∈ cs := by
  obtain ⟨hmargin, hdigit, hline, -⟩ := stranger_facts hx
  refine mem_dropUnderscores ?_ hline hread
  refine List.mem_map.2 ⟨x, ?_, by rw [hdigit]⟩
  exact List.mem_reverse.2 (mem_dropWhile_of_not (List.mem_reverse.2 (mem_dropWhile_of_not h hmargin)) hmargin)

theorem mem_splitSign (hx : x ∈ strangers) (h : x ∈ cs) : x ∈ (Number.splitSign cs).2 := by
  obtain ⟨-, -, -, hminus, hplus, -⟩ := stranger_facts hx
  unfold Number.splitSign
  split
  · exact (List.mem_cons.1 h).resolve_left hminus
  · exact (List.mem_cons.1 h).resolve_left hplus
  · exact h

theorem all_isDigit_of_mem (hx : x ∈ strangers) (h : x ∈ cs) : cs.all Char.isDigit = false := by
  rw [List.all_eq_false]
  exact ⟨x, h, by simp [(stranger_facts hx).2.2.2.2.2]⟩

theorem readInt?_stranger (hx : x ∈ strangers) (h : x ∈ s.toList) : Number.readInt? s = none := by
  unfold Number.readInt?
  rcases hread : Number.numeral? s with _ | cs
  · rfl
  · have hall := all_isDigit_of_mem hx (mem_splitSign hx (mem_numeral hx h hread))
    simp only [Option.bind_eq_bind, Option.bind_some, hall]
    simp

theorem readExponent?_slash (h : '/' ∈ cs) : Number.readExponent? cs = none := by
  rcases cs with _ | ⟨e, cs⟩
  · cases h
  rcases List.mem_cons.1 h with rfl | h
  · rfl
  · have hall := all_isDigit_of_mem (by decide) (mem_splitSign (by decide) h)
    simp [Number.readExponent?, hall]

theorem readDecimal?_slash (h : '/' ∈ cs) (negative : Bool) : Number.readDecimal? negative cs = none := by
  have hrest := mem_dropWhile_of_not (p := Char.isDigit) h (by decide)
  unfold Number.readDecimal?
  rcases hcs : cs.dropWhile Char.isDigit with _ | ⟨c, r⟩
  · rw [hcs] at hrest
    cases hrest
  rw [hcs] at hrest
  by_cases hpoint : c = '.'
  · subst hpoint
    have hr := (List.mem_cons.1 hrest).resolve_left (by decide)
    simp [readExponent?_slash (mem_dropWhile_of_not (p := Char.isDigit) hr (by decide))]
  · simp [hpoint, readExponent?_slash hrest]

theorem readReal?_slash (h : '/' ∈ s.toList) : Number.readReal? s = none := by
  unfold Number.readReal?
  rcases hread : Number.numeral? s with _ | cs
  · rfl
  have hmem := mem_splitSign (by decide) (mem_numeral (by decide) h hread)
  have hword : ∀ word ∈ ["inf", "infinity", "nan"],
      String.ofList ((Number.splitSign cs).2.map Char.toLower) ≠ word := by
    intro word hword heq
    have hslash : '/' ∈ word.toList := by
      rw [← heq, String.toList_ofList]
      exact List.mem_map.2 ⟨'/', hmem, rfl⟩
    have hnone : ∀ word ∈ ["inf", "infinity", "nan"], '/' ∉ word.toList := by decide
    exact hnone word hword hslash
  simp at hword
  simp [hword, readDecimal?_slash hmem]

end Strange

section Words

variable {env : Run.Env} {type s w : String} {literal : LiteralKind} {line : Nat} {value : Value}
  {before after : List Char}

theorem literalValue_real_ok {types : Types} : literalValue types .real s = .ok value ↔
    (Number.readReal? s).map .real = some value := by
  by_cases hinf : s = "inf"
  · subst hinf
    have hread : Number.readReal? "inf" = some Number.infinity := rfl
    simp [literalValue, hread]
  · rcases hread : Number.readReal? s with _ | r <;> simp [literalValue, hinf, hread]

theorem literalValue_integer_ok {types : Types} (hinf : s ≠ "inf") :
    literalValue types .integer s = .ok value ↔ (Number.readInt? s).map .int = some value := by
  rcases hread : Number.readInt? s with _ | n <;> simp [literalValue, hinf, hread]

theorem readInt?_inf : Number.readInt? "inf" = none := readInt?_stranger (x := 'i') (by decide) (by decide)

/-- A word's value is that of the text it stands for. -/
theorem environmentLiteral_stands (htype : type ∈ basicNames) (hother : type ≠ "bool")
    (htext : s.toList = before ++ (w.toList ++ after)) (hbefore : Ignored before) (hafter : Ignored after)
    (hliteral : isLiteralOf type literal w = true)
    (hvalue : evalExpr env (.literal literal ⟨w, line⟩) = .ok value) (hstands : standsFor type s w = true)
    (line' : Nat) : ∃ e, environmentLiteral type ⟨s, line'⟩ = .ok e ∧ evalExpr env e = .ok value := by
  by_cases hsame : s = w
  · subst hsame
    exact environmentLiteral_value htype hother hliteral hvalue line'
  simp only [standsFor, hsame, beq_iff_eq, Bool.or_eq_true, Bool.and_eq_true, false_or, bne_iff_ne,
    Bool.not_eq_true', List.contains_eq_mem, decide_eq_false_iff_not] at hstands
  obtain ⟨hnumber, hslash⟩ := hstands
  have hnumeral := numeral?_margins htext hbefore hafter hslash
  rw [evalExpr] at hvalue
  rcases hnumber with rfl | ⟨rfl, hinf⟩
  · have hw := literalValue_real hliteral hvalue
    have hread : Number.readReal? s = Number.readReal? w := by rw [Number.readReal?, hnumeral, Number.readReal?]
    have hs : evalExpr env (.literal .real ⟨s, line'⟩) = .ok value := by
      rw [evalExpr, literalValue_real_ok, hread]
      exact literalValue_real_ok.1 hw
    exact environmentLiteral_value htype hother rfl hs line'
  · obtain rfl : literal = .integer := by cases literal <;> simp_all [isLiteralOf]
    have hread : Number.readInt? s = Number.readInt? w := by rw [Number.readInt?, hnumeral, Number.readInt?]
    have hw := (literalValue_integer_ok hinf).1 hvalue
    have hs : s ≠ "inf" := by
      rintro rfl
      rw [← hread, readInt?_inf] at hw
      cases hw
    have hvalue' : evalExpr env (.literal .integer ⟨s, line'⟩) = .ok value := by
      rw [evalExpr, literalValue_integer_ok hs, hread]
      exact hw
    exact environmentLiteral_value htype hother rfl hvalue' line'

theorem environmentLiteral_strays (htype : type ∈ basicNames) (hother : type ≠ "bool")
    (htext : s.toList = before ++ (w.toList ++ after)) (hliteral : isLiteralOf type literal w = true)
    (hvalue : evalExpr env (.literal literal ⟨w, line⟩) = .ok value) (hstrays : standsFor type s w = false)
    (line' : Nat) : ∃ name, environmentLiteral type ⟨s, line'⟩ = .error (.malformed line' (.badLiteral name s)) := by
  simp only [standsFor, Bool.or_eq_false_iff, beq_eq_false_iff_ne] at hstrays
  obtain ⟨hother', hstrays⟩ := hstrays
  have hinf (h : '/' ∈ s.toList ∨ w = "inf") : s ≠ "inf" := by
    rintro rfl
    rcases h with h | rfl
    · revert h
      decide
    · exact hother' rfl
  simp only [basicNames, List.mem_cons, List.not_mem_nil, or_false] at htype
  rcases htype with rfl | rfl | rfl | rfl
  · have hodd : '/' ∈ s.toList ∨ w = "inf" := by
      by_contra hodd
      rw [not_or] at hodd
      simp [hodd] at hstrays
    have hread : Number.readInt? s = none := by
      rcases hodd with hslash | rfl
      · exact readInt?_stranger (by decide) hslash
      · refine readInt?_stranger (x := 'i') (by decide) ?_
        rw [htext]
        simp
    exact ⟨"IntType", by simp [environmentLiteral, checkInt, hinf hodd, hread]; rfl⟩
  · have hslash : '/' ∈ s.toList := by
      by_contra hslash
      simp [hslash] at hstrays
    exact ⟨"RealType", by simp [environmentLiteral, hinf (.inl hslash), readReal?_slash hslash]; rfl⟩
  · obtain rfl : literal = .char := by cases literal <;> simp_all [isLiteralOf]
    have hone : w.length = 1 := by
      by_contra hlong
      simp_all [evalExpr, literalValue]
    have hlong : s.length ≠ 1 := by
      intro hs
      have hlen := congrArg List.length htext
      simp only [String.length_toList, List.length_append, hs, hone] at hlen
      obtain rfl : before = [] := List.eq_nil_of_length_eq_zero (by omega)
      obtain rfl : after = [] := List.eq_nil_of_length_eq_zero (by omega)
      exact hother' (String.toList_inj.1 (by simpa using htext))
    exact ⟨"CharType", by simp [environmentLiteral, hlong]; rfl⟩
  · exact absurd rfl hother

end Words

section Values

variable {scope : Scope} {env : Run.Env} {c : Cursor} {name type s text : String} {kind : Terminal}
  {rest left : List Char}

theorem getenv_looked (hrest : Parted rest)
    (hlooks : Looks .expression ("getenv".toList ++ request name type ++ rest) c) :
    At c (.word .getenv) "getenv" (request name type ++ rest) :=
  hlooks.at (cut_token (cuts_request name type).1 hrest)

theorem request_refused {P : Fault → Prop} (hname : isIdentifier name) (htype : type ∈ basicNames)
    (hset : scope.environment.lookup name = some s) (hends : Ends rest kind text left)
    (hlooks : Looks .expression ("getenv".toList ++ request name type ++ rest) c)
    (h : ∀ line, ∃ fault, environmentLiteral type ⟨s, line⟩ = .error fault ∧ P fault) :
    Fails (readExpr scope) c P := by
  have hat := getenv_looked hends.parted hlooks
  obtain ⟨c', line, -, hread⟩ := readGetenv_apply hname htype hset hends hat
  obtain ⟨fault, hfault, hP⟩ := h line
  have hoperand (fuel : Nat) : Fails (readOperand scope (fuel + 1)) c P := by
    refine ⟨fault, ?_, hP⟩
    rw [readOperand_getenv hat.kind, hread, hfault]
    rfl
  rw [readExpr]
  exact Fails.rounds (readLevels_fails (hoperand _) _ _)

/-- An environment variable is asked for where an expression begins. If what it holds is read somewhere as a
literal of the type that is asked for, then the value of the expression is that of the literal, if the text
stands for the word that is read, and otherwise it is refused as no literal of the type. For truth values the
expression is refused, whatever the variable holds. -/
theorem environment_agrees_or_refuses (hname : isIdentifier name = true) (htype : type ∈ basicNames)
    (hset : scope.environment.lookup name = some s) (hends : Ends rest kind text left) (hkind : kind ∉ levels)
    (hlooks : Looks .expression ("getenv".toList ++ request name type ++ rest) c) :
    (type ≠ "bool" → ∀ word value, Denotes scope env type s word value →
      (standsFor type s word = true →
        Gets (readExpr scope) c fun e c' => evalExpr env e = .ok value ∧ At c' kind text left) ∧
      (standsFor type s word = false → Fails (readExpr scope) c fun fault =>
        ∃ line name, fault = .malformed line (.badLiteral name s))) ∧
      (type = "bool" → Fails (readExpr scope) c fun fault =>
        fault = .misuse (if s.isEmpty then .noSuchPart else .wrongPart)) := by
  have hat := getenv_looked hends.parted hlooks
  refine ⟨?_, ?_⟩
  · rintro hother word value ⟨⟨_, _, htext, hbefore, hafter⟩, _, _, _, _, _, -, -, hliteral, hvalue⟩
    refine ⟨fun hstands => ?_, fun hstrays => ?_⟩
    · obtain ⟨c', line, hat', hread⟩ := readGetenv_apply hname htype hset hends hat
      obtain ⟨e, he, hvalue⟩ :=
        environmentLiteral_stands htype hother htext hbefore hafter hliteral hvalue hstands line
      rw [readExpr]
      refine Gets.rounds (readLevels_stop ⟨e, c', ?_, hvalue, hat'⟩ hkind)
      rw [readOperand_getenv hat.kind, hread, he]
      rfl
    · refine request_refused hname htype hset hends hlooks fun line => ?_
      obtain ⟨typeName, he⟩ := environmentLiteral_strays htype hother htext hliteral hvalue hstrays line
      exact ⟨_, he, _, _, rfl⟩
  · rintro rfl
    exact request_refused hname htype hset hends hlooks fun _ => ⟨_, rfl, rfl⟩

end Values

theorem exists_looks {spot : Spot} {cs : List Char} {found : Terminal × String × List Char}
    (h : tokenAt spot cs = some found) : ∃ c, Looks spot cs c := by
  obtain ⟨c, -, hat⟩ := next_of_token (s := { rest := cs }) h none
  exact ⟨c, _, _, _, h, hat⟩

theorem denotes_of_words {scope : Scope} {env : Run.Env} {type s word first : String} {words : List String}
    (literal : LiteralKind) {kind : Terminal} {value : Value} (hfirst : Lexes .expression first kind)
    (hwords : Expr.words (.literal literal ⟨word, 0⟩) = first :: words)
    (hquoted : quoted type s = first.toList ++ spaced words)
    (hliteral : isLiteral scope.constants literal word = true) (hof : isLiteralOf type literal word = true)
    (hvalue : evalExpr env (.literal literal ⟨word, 0⟩) = .ok value) (before after : List Char)
    (htext : s.toList = before ++ (word.toList ++ after) ∧ Ignored before ∧ Ignored after) :
    Denotes scope env type s word value := by
  have htoken : tokenAt .expression (first.toList ++ (spaced words ++ [])) = some (kind, first, spaced words ++ []) :=
    tokenAt_front hfirst (parted_spaced .nil words)
  obtain ⟨c, -, hat⟩ := next_of_token (s := { rest := first.toList ++ (spaced words ++ []) }) htoken none
  have hlooks : Looks .expression (spaced (Expr.words (.literal literal ⟨word, 0⟩)) ++ []) c := by
    rw [hwords]
    exact ⟨_, _, _, tokenAt_spaced hfirst words .nil, hat⟩
  obtain ⟨e, c', hread, he, -⟩ :=
    (readsBack (.literal literal ⟨word, 0⟩) hliteral).expr .finish (by decide) hlooks
  cases e <;> simp only [Expr.unlined, reduceCtorEq] at he
  rename_i lexeme
  obtain ⟨w', line⟩ := lexeme
  cases he
  refine ⟨⟨before, after, htext⟩, [], c, literal, line, c', ?_, hread, hof, hvalue⟩
  rw [hquoted, List.append_assoc]
  exact ⟨_, _, _, htoken, hat⟩

/-- A number in the environment, and the same number written. -/
theorem number_agrees : Denotes ⟨[], [("A", "12")]⟩ ⟨{}, none, true⟩ "int" "12" "12" (.int 12) ∧
    ∃ c, Looks .expression ("getenv".toList ++ request "A" "int" ++ []) c ∧
      Gets (readExpr ⟨[], [("A", "12")]⟩) c fun e _ => evalExpr ⟨{}, none, true⟩ e = .ok (.int 12) := by
  have hdenotes : Denotes ⟨[], [("A", "12")]⟩ ⟨{}, none, true⟩ "int" "12" "12" (.int 12) :=
    denotes_of_words .integer (lexes_numeral (by decide)) rfl rfl (by decide) (by decide) rfl [] []
      ⟨rfl, rfl, rfl⟩
  obtain ⟨c, hlooks⟩ := exists_looks (cut_token (cuts_request "A" "int").1 .nil)
  refine ⟨hdenotes, c, hlooks, ?_⟩
  exact (((environment_agrees_or_refuses (by decide) (by decide) rfl .finish (by decide) hlooks).1
    (by decide) _ _ hdenotes).1 (by decide)).mono fun _ _ h => h.1

/-- A truth value is written, but not had from the environment; nor is a character between blanks. -/
theorem written_not_fetched :
    (Denotes ⟨[], [("B", "true")]⟩ ⟨{}, none, true⟩ "bool" "true" "true" (.bool true) ∧
      ∃ c, Looks .expression ("getenv".toList ++ request "B" "bool" ++ []) c ∧
        Fails (readExpr ⟨[], [("B", "true")]⟩) c fun fault => fault = .misuse .wrongPart) ∧
    Denotes ⟨[], [("N", " a ")]⟩ ⟨{}, none, true⟩ "char" " a " "a" (.text "a") ∧
      ∃ c, Looks .expression ("getenv".toList ++ request "N" "char" ++ []) c ∧
        Fails (readExpr ⟨[], [("N", " a ")]⟩) c fun fault =>
          ∃ line, fault = .malformed line (.badLiteral "CharType" " a ") := by
  obtain ⟨c, hlooks⟩ := exists_looks (cut_token (cuts_request "B" "bool").1 .nil)
  obtain ⟨c', hlooks'⟩ := exists_looks (cut_token (cuts_request "N" "char").1 .nil)
  refine ⟨⟨?_, c, hlooks, ?_⟩, ?_, c', hlooks', ?_⟩
  · exact denotes_of_words .boolean (openers_lex ("true", .word .trueWord) (by decide)) rfl rfl (by decide)
      (by decide) rfl [] [] ⟨rfl, rfl, rfl⟩
  · exact request_refused (by decide) (by decide) rfl .finish hlooks fun _ => ⟨_, rfl, rfl⟩
  · exact denotes_of_words .char (openers_lex ("'", .symbol .quote) (by decide)) rfl rfl (by decide)
      (by decide) rfl [' '] [' '] ⟨rfl, rfl, rfl⟩
  · exact request_refused (by decide) (by decide) rfl .finish hlooks' fun line =>
      ⟨_, if_neg (show ¬(" a ".length == 1) = true by decide), line, rfl⟩

end Chalkboard.Reading
