import Chalkboard.CommandLine.Help
import Chalkboard.Fault

/-! Options and arguments. Options stand anywhere; a long one may be cut short as long as it stays
unmistakable, and its value follows an equals sign or is the next word. -/

namespace Chalkboard.CommandLine

structure OptionKind where
  long : Option String
  short : Option String
  takesValue : Bool
  deriving DecidableEq, Repr

def flagKind (long : String) : OptionKind := ⟨some long, none, false⟩

def valueKind (long : String) : OptionKind := ⟨some long, none, true⟩

def optionKinds : List OptionKind :=
  [valueKind "--movie", flagKind "--autoplay", flagKind "--explicit-frames", flagKind "--no-run",
    flagKind "--no-final-state", flagKind "--showast", valueKind "--save-state",
    valueKind "--load-state", valueKind "--cfg", flagKind "--version",
    ⟨some "--help", some "-h", false⟩]

def OptionKind.name (k : OptionKind) : String := k.long.getD (k.short.getD "")

/-- One word of the command line, or an option with the word behind it. -/
inductive Given where
  | option (name : String) (value : Option String)
  | argument (text : String)
  deriving DecidableEq, Repr

/-- A long option with what follows the first equals sign, if there is one. -/
def splitValue (word : List Char) : String × Option String :=
  let name := word.takeWhile (· != '=')
  let value := match word.dropWhile (· != '=') with
    | [] => none
    | _ :: value => some (String.ofList value)
  (String.ofList name, value)

/-- The kinds a long name may mean: the one of exactly this name, otherwise all that start with it. -/
def meant (known : List OptionKind) (long : String) : List OptionKind :=
  match known.filter (·.long == some long) with
  | [] => known.filter fun k => k.long.any (long.toList.isPrefixOf ·.toList)
  | exact => exact

inductive LongOption where
  | whole (given : Given)
  | waiting (name : String)

/-- Reads a long option. One that is not known is taken as it is, and known from then on. -/
def readLong (known : List OptionKind) (word : String) :
    Except String (LongOption × List OptionKind) :=
  let (long, value) := splitValue word.toList
  match meant known long with
  | [] => .ok (.whole (.option long value), known ++ [⟨some long, none, value.isSome⟩])
  | [k] =>
    match k.takesValue, value with
    | false, some _ => .error s!"{k.name} must not have an argument"
    | true, none => .ok (.waiting k.name, known)
    | _, _ => .ok (.whole (.option k.name value), known)
  | many =>
    let names := ", ".intercalate (many.map (·.name))
    .error s!"{long} is not a unique prefix: {names}?"

def readShorts (known : List OptionKind) : List Char → List Given × List OptionKind
  | [] => ([], known)
  | c :: rest =>
    let short := "-" ++ c.toString
    match known.find? (·.short == some short) with
    | some k =>
      let (given, known) := readShorts known rest
      (.option k.name none :: given, known)
    | none =>
      let (given, known) := readShorts (known ++ [⟨none, some short, false⟩]) rest
      (.option short none :: given, known)

/-- Reads the words of a command line; `waiting` is the option whose value is still to come. -/
def readWords (known : List OptionKind) (waiting : Option String) :
    List String → Except String (List Given)
  | [] =>
    match waiting with
    | some name => .error s!"{name} requires argument"
    | none => .ok []
  | word :: rest =>
    match waiting with
    | some name =>
      if word == "--" then .error s!"{name} requires argument"
      else return .option name (some word) :: (← readWords known none rest)
    | none =>
      if word == "--" then .ok ((word :: rest).map .argument)
      else if "--".toList.isPrefixOf word.toList then do
        let (option, known) ← readLong known word
        match option with
        | .whole given => return given :: (← readWords known none rest)
        | .waiting name => readWords known (some name) rest
      else if word.startsWith "-" && word != "-" then do
        let (given, known) := readShorts known (word.toList.drop 1)
        return given ++ (← readWords known none rest)
      else return .argument word :: (← readWords known none rest)

/-- What a run of a program is asked to do. -/
structure Options where
  source : String
  movie : Option String := none
  autoplay : Bool := false
  explicitFrames : Bool := false
  run : Bool := true
  finalState : Bool := true
  showTree : Bool := false
  saveTo : Option String := none
  loadFrom : Option String := none

inductive Request where
  | help
  | version
  | run (options : Options)

def gave (given : List Given) (name : String) : Bool := given.any fun
  | .option n _ => n == name
  | .argument _ => false

/-- The value given to an option; an empty one counts as none. -/
def valueOf? (given : List Given) (name : String) : Option String :=
  (given.findSome? fun
    | .option n value => if n == name then value else none
    | .argument _ => none).filter (· != "")

/-- The options of a run. All but the last may be given once. -/
def onceOnly : List String :=
  ["--movie", "--autoplay", "--explicit-frames", "--no-run", "--no-final-state", "--showast",
    "--save-state", "--load-state"]

def fits (given : List Given) : Bool :=
  let names := given.filterMap fun
    | .option n _ => some n
    | .argument _ => none
  names.all (fun n => n == "--cfg" || onceOnly.contains n) &&
    onceOnly.all fun n => names.count n ≤ 1

def complaint (problem : String) : Fault :=
  .usage (if problem.isEmpty then usage else problem ++ "\n" ++ usage)

/-- What a command line asks for. Help is given whatever else there is. -/
def readRequest (words : List String) : Except Fault Request := do
  let given ← (readWords optionKinds none words).mapError complaint
  if gave given "--help" then return .help
  if given == [.option "--version" none] then return .version
  let arguments := given.filterMap fun
    | .argument text => some text
    | .option .. => none
  match arguments with
  | [source] =>
    if !fits given then throw (complaint "")
    let autoplay := gave given "--autoplay"
    let movie := match valueOf? given "--movie" with
      | some movie => some movie
      | none => if autoplay then some "movie.mp4" else none
    return .run
      { source, movie, autoplay
        explicitFrames := gave given "--explicit-frames"
        run := movie.isSome || !gave given "--no-run"
        finalState := !gave given "--no-final-state"
        showTree := gave given "--showast"
        saveTo := valueOf? given "--save-state"
        loadFrom := valueOf? given "--load-state" }
  | _ => throw (complaint "")

end Chalkboard.CommandLine
