import RingTape.Links.Slots
import RingTape.Text.Encoding

/-!
Failures: everything that can keep a program from being run to its end. A fault is what a caller is
told when a program is refused or stopped; it keeps the text of its message and the place it speaks
of, and two faults are equal when all of it agrees. A choice that cannot be run is quoted as it was
made, which may be by any scalar.
-/

namespace RingTape

/-! ### Faults -/

structure BracketFault where
  message : String
  position : Int
  symbol : Option String := none
  deriving DecidableEq, Repr

namespace BracketFault

private def withCause (cause : String) (position : Int) (symbol : Option String) :
    BracketFault where
  message := s!"MismatchedBrackets: {cause} (index {position})"
  position := position
  symbol := symbol

/-- A bracket that no bracket of the program matches. Any symbol but the closing one is taken for
an opening bracket. -/
def unmatched (position : Int) (symbol : Option String) : BracketFault :=
  if symbol = some "]" then
    withCause "closing bracket does not have a matching opening bracket" position symbol
  else withCause "opening bracket is never closed" position symbol

/-- A bracket that has to jump and is linked to no place. -/
def unlinked (position : Int) (symbol : Option String) : BracketFault :=
  let shown := symbol.getD "None"
  withCause s!"'{shown}' has no entry in the jump table" position symbol

@[simp] theorem position_unmatched (position : Int) (symbol : Option String) :
    (unmatched position symbol).position = position := by
  unfold unmatched; split <;> rfl

@[simp] theorem symbol_unmatched (position : Int) (symbol : Option String) :
    (unmatched position symbol).symbol = symbol := by
  unfold unmatched; split <;> rfl

end BracketFault

structure LimitFault where
  message : String
  steps : Int
  position : Int
  deriving DecidableEq, Repr

def LimitFault.stopped (steps position : Int) : LimitFault where
  message := s!"StepLimitExceeded: stopped after {steps} steps (index {position})"
  steps := steps
  position := position

inductive Fault
  | general (message : String)
  | bracket (b : BracketFault)
  | limit (l : LimitFault)
  deriving DecidableEq, Repr

namespace Fault

def message : Fault → String
  | .general message => message
  | .bracket b => b.message
  | .limit l => l.message

def position? : Fault → Option Int
  | .general _ => none
  | .bracket b => some b.position
  | .limit l => some l.position

def kind : Fault → String
  | .general _ => "TapeBFError"
  | .bracket _ => "MismatchedBracketsError"
  | .limit _ => "StepLimitExceeded"

def record (f : Fault) : String :=
  let fields := match f with
    | .general _ => ""
    | .bracket b =>
      let symbol := match b.symbol with
        | none => "None"
        | some s => Text.quote s
      s!", position={b.position}, symbol={symbol}"
    | .limit l => s!", steps={l.steps}, position={l.position}"
  s!"{f.kind}(message={Text.quote f.message}{fields})"

end Fault

/-! ### Scalars -/

inductive Scalar
  | null
  | bool (b : Bool)
  | int (n : Int)
  | text (s : String)
  deriving DecidableEq, Repr

namespace Scalar

def quote : Scalar → String
  | .null => "None"
  | .bool true => "True"
  | .bool false => "False"
  | .int n => toString n
  | .text s => Text.quote s

/-- The integer that a scalar counts as; truth counts as 1 and falsehood as 0. -/
def toInt? : Scalar → Option Int
  | .bool b => some (if b then 1 else 0)
  | .int n => some n
  | _ => none

end Scalar

/-! ### Failures -/

inductive SetupError
  | tapeSize (size : Int)
  | unknownPolicy (name : Scalar)
  | unknownEngine (name : Scalar)
  | untraceable
  deriving DecidableEq, Repr

def SetupError.message : SetupError → String
  | .tapeSize size => s!"Tape size must be at least 1, got {size}"
  | .unknownPolicy name => s!"{name.quote} is not a valid EofPolicy"
  | .unknownEngine name =>
    s!"Unknown backend {name.quote}, expected one of ('python', 'jit')"
  | .untraceable => "Tracing is not supported by the jit backend"

inductive Failure
  | fault (f : Fault)
  | setup (e : SetupError)
  | codec (e : Text.CodecError)
  /-- No symbol stands where the next one should be fetched. -/
  | noSymbol (form : Program.Form)
  | slot (e : SlotError)
  /-- A symbol of `length` characters where a single one is needed. -/
  | notCharacter (length : Nat)
  /-- A place outside the program, the slots or the memory. -/
  | strayAccess
  deriving DecidableEq, Repr

namespace Failure

def message : Failure → String
  | .fault f => f.message
  | .setup e => e.message
  | .codec e => e.message
  | .noSymbol .text => "string index out of range"
  | .noSymbol .list => "list index out of range"
  | .slot e => e.message
  | .notCharacter length => s!"ord() expected a character, but string of length {length} found"
  | .strayAccess => "access outside the program or the memory"

end Failure

end RingTape
