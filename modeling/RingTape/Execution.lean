import RingTape.Burst.Run
import RingTape.Links.Resolve
import RingTape.Options

/-!
Executions: a program with links, an engine made ready for it, and the machine that it starts from.
-/

namespace RingTape

inductive Worker
  | stepwise
  | burst (p : Burst.Prepared)

namespace Worker

def engine : Worker → Engine
  | .stepwise => .stepwise
  | .burst _ => .burst

def prepare (e : Engine) (program : Program) (links : Links) : Except Failure Worker :=
  match e with
  | .stepwise => .ok .stepwise
  | .burst => (Burst.prepare program links).map .burst

/-- The machine after up to `n` rounds of work, a round being a step or a burst. -/
def advance {ι κ : Type} [ByteSource ι] [ByteSink κ] (w : Worker) (j : Job) (n : Nat)
    (m : Machine ι κ) : Progress ι κ :=
  match w with
  | .stepwise => m.advance j n
  | .burst p => Burst.advance j p Burst.batchSize n m

end Worker

structure Execution (ι κ : Type) where
  job : Job
  worker : Worker
  start : Machine ι κ

namespace Execution

variable {ι κ : Type}

/-- Sets up a run on a blank tape. The size of the tape is looked at before the program is. -/
def ofLinks (e : Engine) (s : Settings) (program : Program) (links : Links) (source : ι)
    (sink : κ) : Except Failure (Execution ι κ) :=
  match Tape.blank? s.tapeSize with
  | none => .error (.setup (.tapeSize s.tapeSize))
  | some tape =>
    (Worker.prepare e program links).map fun worker =>
      { job := { program, links, eof := s.eof, limit := s.limit }
        worker
        start := { tape, tracing := s.trace, source, sink } }

/-- Sets up a run of a program on a given engine, with the links given or, when none are, with those
of its matching brackets. Brackets without a partner are told before options that cannot be run. -/
def ofOptions (e : Engine) (o : Options) (program : Program) (links : Option Links) (source : ι)
    (sink : κ) : Except Failure (Execution ι κ) := do
  let links ← match links with
    | some links => .ok links
    | none => program.resolve.mapError fun f => .fault (.bracket f)
  let settings ← (e.configure o).mapError .setup
  ofLinks e settings program links source sink

def advance [ByteSource ι] [ByteSink κ] (x : Execution ι κ) (n : Nat) (m : Machine ι κ) :
    Progress ι κ :=
  x.worker.advance x.job n m

def run [ByteSource ι] [ByteSink κ] (x : Execution ι κ) (n : Nat) : Progress ι κ :=
  x.advance n x.start

end Execution

end RingTape
