import RingTape.Failure
import RingTape.Tape

/-!
Options and jobs. A job is what a machine is set to do: a program with its links, what to do at the
end of the input, and the number of steps that may be taken. Options are what a caller may choose
about a run, as it is asked for and as it is used. There are two engines, the stepwise one and the
one that works in bursts. Only the stepwise engine can trace, and it stands in for the other when a
trace is wanted.
-/

namespace RingTape

/-! ### Jobs -/

inductive EofPolicy
  | zero | keep | max
  deriving DecidableEq, Repr

namespace EofPolicy

def name : EofPolicy → String
  | .zero => "zero"
  | .keep => "keep"
  | .max => "max"

def all : List EofPolicy := [.zero, .keep, .max]

def ofName? (name : String) : Option EofPolicy := all.find? fun p => p.name == name

/-- A policy may be asked for by any scalar, and is known by its name alone. -/
def ofScalar? : Scalar → Option EofPolicy
  | .text name => ofName? name
  | _ => none

def value? : EofPolicy → Option UInt8
  | .zero => some 0
  | .keep => none
  | .max => some 255

@[simp] theorem ofName?_name (p : EofPolicy) : ofName? p.name = some p := by
  cases p <;> rfl

end EofPolicy

structure Job where
  program : Program
  links : Links
  eof : EofPolicy := .zero
  /-- The number of steps that a run may take; below zero counts as zero. -/
  limit : Option Int := none

namespace Job

/-- Whether no step may follow after `steps`. -/
def spent (j : Job) (steps : Nat) : Bool :=
  match j.limit with
  | none => false
  | some n => n ≤ steps

end Job

/-! ### Options -/

inductive Engine
  | stepwise | burst
  deriving DecidableEq, Repr

namespace Engine

def name : Engine → String
  | .stepwise => "python"
  | .burst => "jit"

def all : List Engine := [.stepwise, .burst]

def ofScalar? : Scalar → Option Engine
  | .text name => all.find? fun e => e.name == name
  | _ => none

@[simp] theorem ofScalar?_name (e : Engine) : ofScalar? (.text e.name) = some e := by
  cases e <;> rfl

end Engine

structure Options where
  tapeSize : Int := Tape.defaultSize
  eof : Scalar := .text EofPolicy.zero.name
  limit : Option Int := none
  engine : Scalar := .text Engine.stepwise.name
  trace : Bool := false
  deriving DecidableEq, Repr

/-- Choices as they are used. The size of the tape is looked at only when the tape is made. -/
structure Settings where
  tapeSize : Int
  eof : EofPolicy
  limit : Option Int
  trace : Bool
  deriving DecidableEq, Repr

namespace Engine

/-- The settings under which an engine runs. A trace that the engine cannot make is told before an
unknown policy. -/
def configure (e : Engine) (o : Options) : Except SetupError Settings :=
  if e = .burst ∧ o.trace then .error .untraceable
  else
    match EofPolicy.ofScalar? o.eof with
    | none => .error (.unknownPolicy o.eof)
    | some eof => .ok { tapeSize := o.tapeSize, eof, limit := o.limit, trace := o.trace }

end Engine

namespace Options

def wantsTracedBurst (o : Options) : Bool := Engine.ofScalar? o.engine = some .burst && o.trace

def configure (o : Options) : Except SetupError (Engine × Settings) :=
  match Engine.ofScalar? o.engine with
  | none => .error (.unknownEngine o.engine)
  | some e =>
    let e := if o.trace then .stepwise else e
    (e.configure o).map fun s => (e, s)

end Options

end RingTape
