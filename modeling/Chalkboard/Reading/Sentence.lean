import Chalkboard.Reading.Expr

/-! Reading sentences and blocks of them. -/

namespace Chalkboard.Reading

open Syntax (Sentence Builtin)

/-- Sentences, each but the last followed by a separator; a last separator may stay. -/
def readBlock (sentence : Read Sentence) : Nat → Read (List Sentence)
  | 0 => return []
  | fuel + 1 => do
    if sentenceStarts.contains (← look).kind then
      let s ← sentence
      if (← look).kind == .separator then
        advance .afterSeparator
        return s :: (← readBlock sentence fuel)
      else return [s]
    else return []

def readCall (scope : Scope) (builtin : Builtin) : Read Sentence := do
  let t ← look
  advance .callOpen
  advance .variablePrimary
  let v ← readVariable scope
  let _ ← expect (.symbol .closeParen) .afterSentence
  return .call builtin t.line v

def needSentences (line : Nat) (body : List Sentence) : Read Unit :=
  if body.isEmpty then throw (.malformed line .emptyBlock) else pure ()

def readBranch (scope : Scope) (block : Read (List Sentence)) : Read Sentence := do
  advance .expression
  let guard ← readExpr scope
  let _ ← expect (.word .thenWord) .thenBlock
  let yes ← block
  let no ← if (← look).kind == .word .elseWord then do
      advance .elseBlock
      block
    else pure []
  let _ ← expect (.word .fi) .afterSentence
  nesting (max (Syntax.blockTails yes) (Syntax.blockTails no))
  return .branch guard yes no

def readLoop (scope : Scope) (block : Read (List Sentence)) : Read Sentence := do
  advance .expression
  let guard ← readExpr scope
  let _ ← expect (.word .doWord) .doBlock
  let body ← block
  let _ ← expect (.word .od) .afterSentence
  needSentences guard.line body
  return .loop guard body

def readCount (scope : Scope) (block : Read (List Sentence)) : Read Sentence := do
  advance .forName
  let name ← look
  advance .forAssign
  advance .expression
  let start ← readExpr scope
  let up := (← look).kind == .word .toWord
  if !up && (← look).kind != .word .downto then refuse
  advance .expression
  let stop ← readExpr scope
  let _ ← expect (.word .doWord) .doBlock
  let body ← block
  let _ ← expect (.word .od) .afterSentence
  needSentences name.line body
  return .count ⟨name.lexeme, []⟩ start stop up body

def readSentence (scope : Scope) : Nat → Read Sentence
  | 0 => refuse
  | fuel + 1 => do
    let t ← look
    match t.kind with
    | .word .skip =>
      advance .afterSentence
      return .skip t.line
    | .word .alloc => readCall scope .alloc
    | .word .free => readCall scope .free
    | .word .ifWord => readBranch scope (readBlock (readSentence scope fuel) fuel)
    | .word .whileWord => readLoop scope (readBlock (readSentence scope fuel) fuel)
    | .word .forWord => readCount scope (readBlock (readSentence scope fuel) fuel)
    | _ => do
      let v ← readVariable scope
      let _ ← expect (.symbol .assign) .expression
      return .assign v (← readExpr scope)

def readSentences (scope : Scope) : Read (List Sentence) := do
  let fuel ← rounds
  readBlock (readSentence scope fuel) fuel

end Chalkboard.Reading
