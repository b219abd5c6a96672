import Chalkboard.Proofs.Assignments
import Mathlib.Data.List.Induction

/-! The printed name of a variable. A dereference is printed before what it is taken of, with brackets around this
unless it is the name alone, and a field behind it. As a dereference binds more tightly than a field, the text is
read back with the steps in the order in which they were taken. -/

namespace Chalkboard.Reading

open Syntax (Expr Lexeme Sentence Step Variable pathText)
open Effects

/-- A step through a pointer, or into a tuple by a field that can be written. -/
def isPlain : Step → Bool
  | .deref => true
  | .field f => isName f
  | .index _ => false

/-- A variable whose name is no keyword and whose path takes no indexes. -/
structure Plain (v : Variable) : Prop where
  name : isName v.name.text = true
  free : ∀ k : Word, k.text ≠ v.name.text
  path : v.path.all isPlain = true

theorem pathText_append (name : String) (first : Bool) (path more : List Step) :
    pathText name first (path ++ more) = pathText (pathText name first path) (first && path.isEmpty) more := by
  induction path generalizing name first with
  | nil => simp [pathText]
  | cons step path ih => cases step <;> simp [pathText, ih]

theorem plain_unlined {path path' : List Step} (hpath : path.all isPlain = true)
    (h : Syntax.unlinedPath path' = Syntax.unlinedPath path) : path' = path := by
  induction path generalizing path' with
  | nil => cases path' with
    | nil => rfl
    | cons step path' => cases step <;> cases h
  | cons step path ih =>
    rw [List.all_cons, Bool.and_eq_true] at hpath
    cases path' with
    | nil => cases step <;> cases h
    | cons step' path' =>
      cases step <;> cases step' <;> simp [Syntax.unlinedPath] at h
      case index.index => cases hpath.1
      case deref.deref => rw [ih hpath.2 h]
      case field.field => rw [h.1, ih hpath.2 h.2]

/-- By induction on the path from its end, as each step is printed around those before it. -/
theorem printed_spelled (scope : Scope) {name : String} (hname : isName name) (path : List Step)
    (hpath : path.all isPlain = true) : ∃ words, (pathText name true path).toList = strung false words ∧
      Spelled scope false words path.isEmpty ⟨⟨name, 0⟩, path⟩ := by
  induction path using List.reverseRecOn with
  | nil => exact ⟨[name], by simp [pathText, strung], .name hname 0⟩
  | append_singleton path step ih =>
    simp only [List.all_append, List.all_cons, List.all_nil, Bool.and_true, Bool.and_eq_true] at hpath
    obtain ⟨words, hwords, ih⟩ := ih hpath.1
    have hloose : (path ++ [step]).isEmpty = false := by simp
    rw [pathText_append, hloose]
    cases step with
    | index indexes => cases hpath.2
    | field f =>
      obtain ⟨_, _, hcs, -⟩ := all_of_isName (w := f) hpath.2
      have hlong : [".", f].length ≤ (strung false [".", f]).length := by simp [strung, hcs]
      refine ⟨words ++ [".", f], ?_, ih.behind hlong fun hbefore => hbefore.field hpath.2⟩
      simp [pathText, hwords, strung]
    | deref =>
      refine ⟨Syntax.starred words path.isEmpty, ?_, (ih.starred hname).loose⟩
      cases path with
      | nil =>
        rw [pathText] at hwords
        simp [pathText, hwords, strung, Syntax.starred]
      | cons => simp [pathText, hwords, strung, Syntax.starred, Syntax.grouped]

/-- The text that assigns an expression to a variable, which stands there by its printed name. -/
def assigning (v : Variable) (e : Expr) : String := v.text ++ " := " ++ " ".intercalate e.words

theorem toList_assigning (v : Variable) {e : Expr} (h : e.words ≠ []) :
    (assigning v e).toList = v.text.toList ++ spaced (":=" :: e.words) := by
  obtain ⟨w, words, hwords⟩ := List.exists_cons_of_ne_nil h
  rw [assigning, String.toList_append, String.toList_append, hwords, toList_intercalate, List.append_assoc]
  rfl

theorem assigning_reads (setting : Setting) (s : Types) {v : Variable} (hv : Plain v) {e : Expr}
    (he : spellable s.constantNames e = true) :
    ∃ v' e', (∃ line, v' = ⟨⟨v.name.text, line⟩, v.path⟩) ∧ e'.unlined = e.unlined ∧
      readUnsettled setting (assigning v e) s = (.ok ⟨[], 0, [], [.assign v' e']⟩, s) ∧
      ∀ s', Types.settleAll s = (.ok (), s') →
        readProgram setting (assigning v e) s = (.ok ⟨[], 0, [], [.assign v' e']⟩, s') := by
  have he : ReadsBack (scopeIn setting s) e := readsBack e he
  have hbehind := Behind.spaced assign_lex e.words .nil
  rw [List.append_nil, List.append_nil] at hbehind
  obtain ⟨words, hwords, hspelled⟩ := printed_spelled (scopeIn setting s) hv.name v.path hv.path
  obtain ⟨w, words', rfl, hcuts⟩ := hspelled.fronts hv.name
    (cuts_name (by decide) hv.name fun k _ => hv.free k) (fun _ => ⟨rfl, rfl⟩ : ∀ left, Cuts .start "*" left _)
  obtain ⟨_, _, hcons, hkind, -⟩ := hspelled.head hv.name [] (by simp) (by simp)
  cases hcons
  have htext : (assigning v e).toList = strung false (w :: words') ++ spaced (":=" :: e.words) := by
    rw [toList_assigning v he.words_ne_nil, ← hwords]
    rfl
  refine readProgram_assigns setting s he (htext ▸ (hcuts hbehind).first _ _) hkind fun c hat => ?_
  refine (hspelled.variable hbehind (by decide) ⟨w, words', rfl, hat⟩).mono ?_
  rintro ⟨⟨name, line⟩, path⟩ c' ⟨hread, hat'⟩
  simp only [Variable.unlined, Variable.mk.injEq, Lexeme.mk.injEq, and_true] at hread
  exact ⟨⟨line, by rw [hread.1, plain_unlined hv.path hread.2]⟩, hat'⟩

/-- A variable that is written by its printed name, as the destination of any assignment, is read back with the
same name and the same steps. So the printed name tells the path. -/
theorem printed_name_tells_path (setting : Setting) (s : Types) {v : Variable} (hv : Plain v) :
    (∀ e, spellable s.constantNames e = true → ∃ v' e', (∃ line, v' = ⟨⟨v.name.text, line⟩, v.path⟩) ∧
      e'.unlined = e.unlined ∧
      readUnsettled setting (assigning v e) s = (.ok ⟨[], 0, [], [.assign v' e']⟩, s) ∧
      ∀ s', Types.settleAll s = (.ok (), s') →
        readProgram setting (assigning v e) s = (.ok ⟨[], 0, [], [.assign v' e']⟩, s')) ∧
      ∀ w, Plain w → w.text = v.text → w.name.text = v.name.text ∧ w.path = v.path := by
  refine ⟨fun e he => assigning_reads setting s hv he, fun w hw htext => ?_⟩
  have hnull : spellable s.constantNames (.literal .null ⟨"null", 1⟩) = true := rfl
  obtain ⟨_, _, ⟨_, rfl⟩, -, hreadv, -⟩ := assigning_reads setting s hv hnull
  obtain ⟨_, _, ⟨_, rfl⟩, -, hreadw, -⟩ := assigning_reads setting s hw hnull
  rw [assigning, htext, ← assigning, hreadv] at hreadw
  obtain ⟨hread, -⟩ := Prod.mk.inj hreadw
  simp only [Except.ok.injEq, Syntax.Program.mk.injEq, List.cons.injEq, Sentence.assign.injEq,
    Variable.mk.injEq, Lexeme.mk.injEq] at hread
  obtain ⟨-, -, -, ⟨⟨⟨hname, -⟩, hpath⟩, -⟩, -⟩ := hread
  exact ⟨hname.symm, hpath.symm⟩

/-- A name with brackets inside brackets, and with fields behind a dereference and inside one. -/
def chained : Variable := ⟨⟨"p", 1⟩, [.field "next", .deref, .deref, .field "data", .deref]⟩

theorem chained_tells_path : Plain chained ∧ chained.text = "*(*(*(p.next)).data)" ∧
    (∃ v e' s', (∃ line, v = ⟨⟨"p", line⟩, chained.path⟩) ∧
      readProgram {} "*(*(*(p.next)).data) := null" {} = (.ok ⟨[], 0, [], [.assign v e']⟩, s')) ∧
    ∀ w, Plain w → w.text = "*(*(*(p.next)).data)" → w.name.text = "p" ∧ w.path = chained.path := by
  have hplain : Plain chained := ⟨by decide, fun k => by cases k <;> decide, by decide⟩
  have htext : chained.text = "*(*(*(p.next)).data)" := by decide
  have hsettles : passes Types.settleAll {} (fun _ _ => true) = true := by decide
  obtain ⟨_, s', hsettle, -⟩ := of_passes hsettles
  obtain ⟨hreads, htells⟩ := printed_name_tells_path {} {} hplain
  obtain ⟨v, e', hv, -, -, hread⟩ := hreads (.literal .null ⟨"null", 1⟩) rfl
  refine ⟨hplain, htext, ⟨v, e', s', hv, ?_⟩, htext ▸ htells⟩
  have hassign : assigning chained (.literal .null ⟨"null", 1⟩) = "*(*(*(p.next)).data) := null" := by
    decide
  exact hassign ▸ hread s' hsettle

end Chalkboard.Reading
