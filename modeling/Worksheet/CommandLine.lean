import Worksheet.Solve.Document

/-! The command line: options and a file in, the solved document and a report out. Reading the arguments, and
    answering once the files are there, are pure. -/

namespace Worksheet.CommandLine

-- A power here is the one of the numbers themselves, whatever other instances are in scope.
attribute [local instance (high)] instPowNat

/-- What the arguments ask for. -/
structure Request where
  settings : Settings := {}
  constants : Text := []
  functions : Text := []
  /-- The document; `-` for the standard input. -/
  document : Text := []

/-- Why nothing is solved. -/
inductive Refusal where
  /-- The options are explained because the arguments ask for it. -/
  | help
  | noDocument
  | missingValue (option : Text)
  /-- A number of places that is no integer of 32 bits. -/
  | invalidNumber
  | unexpectedArgument (argument : Text)
  | cannotOpen (path : Text)
  | parse (e : ParseError)

/-- What the program ends with. -/
structure Outcome where
  exit : Nat
  out : Text := []
  err : Text := []

def usage : Text :=
  ("usage: mathpad_solve [options] FILE|-\n"
    ++ "  --places N        decimal places (default 4)\n"
    ++ "  --no-strip        keep trailing zeros\n"
    ++ "  --group           group thousands\n"
    ++ "  --sci | --eng     scientific / engineering notation\n"
    ++ "  --degrees         trig functions work in degrees\n"
    ++ "  --no-shadow       local declarations may not reuse constant names\n"
    ++ "  --references      append the reference section\n"
    ++ "  --constants FILE  shared constants\n"
    ++ "  --functions FILE  shared function definitions\n").toList

/-! ### Arguments -/

/-- The integer at the head of a text, behind white space; what follows it does not matter. -/
def readInteger? (t : Text) : Option Int :=
  let t := t.dropWhile Byte.isSpace
  let sign := (t.take 1).filter Decimal.isSign
  let digits := (t.drop sign.length).takeWhile Byte.isDigit
  let n : Int := if sign = ['-'] then -(Text.toNat digits : Int) else Text.toNat digits
  if digits.isEmpty || decide (n < -2 ^ (31 : Nat)) || decide (2 ^ (31 : Nat) ≤ n) then none else some n

/-- An option that takes no value. -/
def flag? (s : Settings) (argument : Text) : Option Settings :=
  if argument = "--no-strip".toList then some { s with stripZeros := false }
  else if argument = "--group".toList then some { s with groupDigits := true }
  else if argument = "--sci".toList then some { s with notated := .scientific }
  else if argument = "--eng".toList then some { s with notated := .engineering }
  else if argument = "--degrees".toList then some { s with degrees := true }
  else if argument = "--no-shadow".toList then some { s with shadowConstants := false }
  else if argument = "--references".toList then some { s with appendReferences := true }
  else none

/-- The options that take a value. -/
def valueOptions : List Text := ["--places".toList, "--constants".toList, "--functions".toList]

/-- An option with its value. -/
def takeValue (r : Request) (option value : Text) : Except Refusal Request :=
  if option = "--constants".toList then .ok { r with constants := value }
  else if option = "--functions".toList then .ok { r with functions := value }
  else match readInteger? value with
    | some n => .ok { r with settings := { r.settings with places := n } }
    | none => .error .invalidNumber

/-- An argument that is no option. There is one document. -/
def takeDocument (r : Request) (argument : Text) : Except Refusal Request :=
  if r.document.isEmpty then .ok { r with document := argument } else .error (.unexpectedArgument argument)

/-- The request that arguments make. `awaiting` is an option whose value comes next. -/
def readArguments (r : Request) (awaiting : Option Text) : List Text → Except Refusal Request
  | [] =>
    match awaiting with
    | some option => .error (.missingValue option)
    | none => if r.document.isEmpty then .error .noDocument else .ok r
  | a :: rest =>
    match awaiting with
    | some option =>
      match takeValue r option a with
      | .ok r => readArguments r none rest
      | .error e => .error e
    | none =>
      if valueOptions.contains a then readArguments r (some a) rest
      else if a = "-h".toList ∨ a = "--help".toList then .error .help
      else match flag? r.settings a with
        | some settings => readArguments { r with settings } none rest
        | none =>
          match takeDocument r a with
          | .ok r => readArguments r none rest
          | .error e => .error e

def parse (arguments : List Text) : Except Refusal Request := readArguments {} none arguments

/-- The files that a request needs. -/
def Request.paths (r : Request) : List Text :=
  (if r.document = ['-'] then [] else [r.document]) ++ [r.constants, r.functions].filter (!·.isEmpty)

/-! ### Answers -/

/-- The contents of a file; no name means no text. -/
def readFile (files : Text → Option Text) (path : Text) : Except Refusal Text :=
  if path.isEmpty then .ok []
  else match files path with
    | some t => .ok t
    | none => .error (.cannotOpen path)

/-- Solves the document of a request. -/
def solveRequest (r : Request) (input : Text) (files : Text → Option Text) (surroundings : Surroundings) :
    Except Refusal Solution := do
  let text ← if r.document = ['-'] then .ok input else readFile files r.document
  let constants ← readFile files r.constants
  let functions ← readFile files r.functions
  match Shared.context constants functions { surroundings with degrees := r.settings.degrees } with
  | .ok c => return solve text c r.settings
  | .error e => .error (.parse e)

/-- A line of a report. -/
def reportLine (t : Text) : Text := t ++ ['\n']

/-- The solved document and what is reported on it. -/
def Outcome.ofSolution (s : Solution) : Outcome where
  exit := if s.issues.isEmpty then 0 else 1
  out := if s.text.getLast? = some '\n' then s.text else reportLine s.text
  err := s.issues.flatMap (fun i => reportLine i.text)
    ++ reportLine (if s.solved = 0 then "Nothing to solve".toList
      else "Solved ".toList ++ Text.ofNat s.solved ++ " equation(s)".toList)

def Outcome.ofRefusal : Refusal → Outcome
  | .help => { exit := 0, err := usage }
  | .noDocument => { exit := 2, err := usage }
  | .missingValue option => { exit := 2, err := reportLine (option ++ " expects a value".toList) }
  | .invalidNumber => { exit := 2, err := reportLine "stoi".toList }
  | .unexpectedArgument argument => { exit := 2, err := reportLine ("Unexpected argument: ".toList ++ argument) }
  | .cannotOpen path => { exit := 2, err := reportLine ("Cannot open ".toList ++ path) }
  | .parse e =>
    { exit := 2
      err := reportLine ("line ".toList ++ Text.ofNat e.line ++ ", col ".toList ++ Text.ofNat e.col ++ ": ".toList
        ++ e.message) }

/-- The answer to arguments, given the standard input and the files. -/
def run (arguments : List Text) (input : Text) (files : Text → Option Text) (surroundings : Surroundings) : Outcome :=
  match parse arguments with
  | .error e => .ofRefusal e
  | .ok r =>
    match solveRequest r input files surroundings with
    | .ok s => .ofSolution s
    | .error e => .ofRefusal e

end Worksheet.CommandLine
