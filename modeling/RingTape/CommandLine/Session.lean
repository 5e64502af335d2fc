import RingTape.CommandLine.Parse
import RingTape.FileTree
import RingTape.Input.Console
import RingTape.Interpretation
import RingTape.Report

/-!
Sessions of the command line: from its arguments to an exit code and what stands on the two standard
outputs. The program is read from a file or, when none is named, from the standard input, of which
nothing is left then. The line ends of a file are unified; those of the standard input are kept or
unified, as the stream was opened. The output of the program goes to the standard output as it is
written; what is told about the run goes to the error output, except for the report on a bracket.
-/

namespace RingTape.CommandLine

/-- Why a session ends without an exit code. -/
inductive Crash
  | failure (f : Failure)
  | file (e : FileError)
  deriving DecidableEq, Repr

def Crash.message : Crash → String
  | .failure f => f.message
  | .file e => e.message

structure Ending where
  /-- The exit code, unless something got in the way. -/
  exit : Except Crash Nat
  out : String := ""
  err : String := ""

inductive Session
  | settled (e : Ending)
  | working (a : Arguments) (source : String) (i : Interpretation Input)

def refusal (e : ArgumentError) : String :=
  unlines (usageLines ++ [s!"tapebf: error: {e.message}"])

namespace Arguments

/-- The path of the program file. An empty one names no file. -/
def path? (a : Arguments) : Option String := a.file.filter (· ≠ "")

def isDebugging (a : Arguments) : Bool := a.verbose || a.trace

def options (a : Arguments) : Options where
  tapeSize := a.tapeSize
  eof := .text a.eof.name
  limit := a.maxSteps
  engine := .text (if a.burst then Engine.burst else .stepwise).name
  trace := a.trace

def shown (a : Arguments) (events : List Event) : String :=
  unlines ((events.filter fun e => e.isShown a.isDebugging).map Event.line)

end Arguments

namespace Session

def written (sink : Output) : String := textOfBytes sink.bytes

/-- The end of a session whose program has come to an answer. A report tells the place of the
bracket in the source, too. -/
def conclude (a : Arguments) (source : String) (answer : Answer Input) : Ending :=
  let out := written answer.sink
  let err := a.shown answer.events
  match answer.result with
  | .error f => { exit := .error (.failure f), out, err }
  | .ok r =>
    match r.error with
    | some (.bracket f) =>
      let places := (Source.stripWithPlaces source).2.map fun (k : Nat) => (k : Int)
      let report := f.report r.program BracketFault.defaultContext (some places)
      { exit := .ok 1, out := out ++ report ++ "\n", err }
    | some (.limit f) => { exit := .ok 2, out, err := err ++ "\n" ++ f.message ++ "\n" }
    | _ => { exit := .ok 0, out := out ++ "\n", err := err ++ a.shown [.executed r.steps] }

def ofInterpretation (a : Arguments) (source : String) (i : Interpretation Input) : Session :=
  match i with
  | .settled answer => .settled (conclude a source answer)
  | i => .working a source i

def interpret (a : Arguments) (source : String) (input : Console) : Session :=
  ofInterpretation a source (.begin source a.options (.console input) (some .emptyStream))

def complain (path : String) : TextFileError → Ending
  | .file .notFound => { exit := .ok 1, err := unlines [s!"Couldn't find file {path}"] }
  | .file .nullCharacter => { exit := .error (.file .nullCharacter) }
  | .file e => { exit := .ok 1, err := unlines [s!"Couldn't read {path}: {e.message}"] }
  | .codec e =>
    { exit := .ok 1, err := unlines [s!"Couldn't decode {path} as utf-8: {e.message}"] }

def sourceOfFile (bytes : List UInt8) : Except TextFileError String :=
  (Text.Encoding.utf8.text .unified bytes).mapError .codec

/-- Goes up to the first step. `read` gives the bytes of a file, and `newlines` is how the standard
input was opened. -/
def begin (argv : List String) (read : String → Except FileError (List UInt8))
    (stdin : List UInt8) (newlines : Text.Newlines := .unified) : Session :=
  match parse argv with
  | .error e => .settled { exit := .ok 2, err := refusal e }
  | .ok .help => .settled { exit := .ok 0, out := unlines helpLines }
  | .ok (.run a) =>
    if a.tapeSize < 1 then
      let complaint := s!"Error: --tape-size must be at least 1, got {a.tapeSize}"
      .settled { exit := .ok 1, err := unlines [complaint] }
    else
      match a.path? with
      | some path =>
        match (read path).mapError TextFileError.file >>= sourceOfFile with
        | .error e => .settled (complain path e)
        | .ok source => interpret a source { unread := stdin, newlines }
      | none =>
        match Text.Encoding.utf8.text newlines stdin with
        | .error e => .settled { exit := .error (.failure (.codec e)) }
        | .ok source => interpret a source { unread := [], newlines }

/-- Whether the bytes of the standard input can matter: they hold the program, or the program asks
for input. -/
def wantsInput (argv : List String) (read : String → Except FileError (List UInt8)) : Bool :=
  match parse argv with
  | .ok (.run a) =>
    match a.path? with
    | none => true
    | some path =>
      match read path with
      | .ok bytes => bytes.contains (UInt8.ofNat Command.read.toChar.toNat)
      | .error _ => false
  | _ => false

def bytes : Session → Array UInt8
  | .settled _ => #[]
  | .working _ _ i => i.bytes

def advance (n : Nat) : Session → Session
  | .settled e => .settled e
  | .working a source i => ofInterpretation a source (i.advance n)

end Session

end RingTape.CommandLine
