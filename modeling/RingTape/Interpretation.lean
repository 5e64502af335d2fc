import RingTape.Execution
import RingTape.Input.Console
import RingTape.Source

/-!
Interpretations: from a source text to its result. The comments are left out, the brackets are
matched, and then the program is run. A source whose brackets do not match is refused before the
options are looked at, and nothing is read or written then. What a program has written by the time
it is stopped belongs to the result. What happens on the way is told as events, for a log; each has
a level, the name of the part that tells of it, and a text.
-/

namespace RingTape

/-! ### Events -/

inductive Event
  | resolved (loops symbols : Nat)
  | refused (f : BracketFault)
  | tracingStepwise
  | started (e : Engine) (symbols : Nat) (tapeSize : Int)
  | logged (entry : LogEntry)
  | ended (e : Engine) (steps : Nat)
  | stopped (f : Fault)
  | executed (steps : Nat)
  deriving DecidableEq

namespace Event

inductive Level
  | debug | warning
  deriving DecidableEq, Repr

def Level.name : Level → String
  | .debug => "DEBUG"
  | .warning => "WARNING"

def level : Event → Level
  | .tracingStepwise => .warning
  | _ => .debug

def channel : Event → String
  | .resolved .. => "tapebf.loops"
  | .refused _ | .tracingStepwise | .stopped _ => "tapebf.api"
  | .started .stepwise .. | .logged _ | .ended .stepwise _ => "tapebf.interpreter"
  | .started .burst .. | .ended .burst _ => "tapebf.jit"
  | .executed _ => "tapebf.cli"

def text : Event → String
  | .resolved loops symbols => s!"Resolved {loops} loop(s) over {symbols} symbols"
  | .refused f => s!"Loop resolution failed: {f.message}"
  | .tracingStepwise =>
    "Tracing is not supported by the jit backend, using the python backend"
  | .started .stepwise symbols size => s!"Running {symbols} symbols on a {size}-cell tape"
  | .started .burst symbols size => s!"JIT run of {symbols} symbols on a {size}-cell tape"
  | .logged entry => entry.line
  | .ended .stepwise steps => s!"Finished after {steps} steps"
  | .ended .burst steps => s!"JIT run finished after {steps} steps"
  | .stopped f => s!"Run stopped: {f.message}"
  | .executed steps => s!"Executed {steps} steps"

def line (e : Event) : String := s!"{e.level.name} {e.channel}: {e.text}"

def isShown (e : Event) (debugging : Bool) : Bool := debugging || e.level == .warning

end Event

/-! ### Results -/

structure Result where
  ok : Bool
  output : Array UInt8
  error : Option Fault := none
  steps : Nat := 0
  /-- The cells of the tape at the end. -/
  tape : Option (Array UInt8) := none
  program : String := ""
  deriving DecidableEq, Repr

namespace Result

/-- Equality of results, which leaves the tape out. -/
def agrees (a b : Result) : Bool :=
  a.ok == b.ok && a.output == b.output && a.error == b.error && a.steps == b.steps &&
    a.program == b.program

def errorPosition? (r : Result) : Option Int := r.error.bind Fault.position?

def text (r : Result) : String := textOfBytes r.output

end Result

structure Answer (ι : Type) where
  result : Except Failure Result
  source : ι
  sink : Output
  events : List Event

inductive Interpretation (ι : Type)
  | settled (a : Answer ι)
  | working (program : String) (before : List Event) (x : Execution ι Output)
      (m : Machine ι Output)

namespace Interpretation

variable {ι : Type}

/-- The sink that a program writes to: a tee in front of the given one, or a buffer. -/
def outermost : Option Output → Output
  | some sink => .teeTo sink
  | none => .emptyBuffer

def begin (text : String) (o : Options) (source : ι) (sink : Option Output) : Interpretation ι :=
  let stripped := Source.strip text
  let program := Program.ofString stripped
  let settle (result : Except Failure Result) (events : List Event) : Interpretation ι :=
    .settled { result, source, sink := outermost sink, events }
  match program.resolve with
  | .error f =>
    let result : Result :=
      { ok := false, output := #[], error := some (.bracket f), program := stripped }
    settle (.ok result) [.refused f]
  | .ok links =>
    let resolved := [.resolved links.size program.length]
    match o.configure with
    | .error e => settle (.error (.setup e)) resolved
    | .ok (engine, settings) =>
      let chosen := if o.wantsTracedBurst then resolved ++ [.tracingStepwise] else resolved
      match Execution.ofLinks engine settings program links source (outermost sink) with
      | .error f => settle (.error f) chosen
      | .ok x =>
        .working stripped (chosen ++ [.started engine program.length settings.tapeSize]) x x.start

/-- Goes up to the first step, with the source that was given or, when none was, with a queue of the
data. -/
def start (text : String) (o : Options := {}) (data : InputData := .bytes [])
    (given : Option Input := none) (sink : Option Output := none) : Interpretation Input :=
  .begin text o (given.getD (.queue (.ofData data))) sink

def conclude (program : String) (before : List Event) (x : Execution ι Output)
    (m : Machine ι Output) (cause : Option Failure) : Answer ι :=
  let logged := before ++ m.log.toList.map .logged
  let answer (result : Except Failure Result) (events : List Event) : Answer ι :=
    { result, source := m.source, sink := m.sink, events := logged ++ events }
  match cause with
  | none =>
    answer (.ok { ok := true, output := m.sink.bytes, steps := m.steps,
                  tape := some m.tape.cells, program })
      [.ended x.worker.engine m.steps]
  | some (.fault f) =>
    answer (.ok { ok := false, output := m.sink.bytes, error := some f, program }) [.stopped f]
  | some f => answer (.error f) []

def bytes : Interpretation ι → Array UInt8
  | .settled a => a.sink.bytes
  | .working _ _ _ m => m.sink.bytes

def advance [ByteSource ι] (n : Nat) : Interpretation ι → Interpretation ι
  | .settled a => .settled a
  | .working program before x m =>
    match x.advance n m with
    | .running m => .working program before x m
    | .finished m => .settled (conclude program before x m none)
    | .failed b => .settled (conclude program before x b.machine (some b.cause))

end Interpretation

end RingTape
