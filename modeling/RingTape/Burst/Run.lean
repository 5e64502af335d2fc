import RingTape.Burst
import RingTape.Machine

/-!
Running in bursts. The machine checks the limit, lets a burst work on its tape, and does itself what
the burst stopped for: a byte is read or written, and a missing link ends the run. The size of a
burst shows in no answer.
-/

namespace RingTape.Burst

variable {ι κ : Type}

def batchSize : Nat := 100000

structure Prepared where
  codes : Array Nat
  slots : Array Int

/-- Codes come first, so a symbol without a code is told before a link without a slot. -/
def prepare (program : Program) (links : Links) : Except Failure Prepared :=
  match codes program.symbols.toList with
  | .error length => .error (.notCharacter length)
  | .ok codes =>
    match links.slots program.length with
    | .error e => .error (.slot e)
    | .ok slots => .ok ⟨codes.toArray, slots⟩

def budget (batch : Nat) (limit : Option Int) (steps : Nat) : Nat :=
  match limit with
  | none => batch
  | some n => min batch (n - steps).toNat

def load (m : Machine ι κ) : Registers := ⟨m.ip, m.tape.pointer, m.tape.cells⟩

def store (m : Machine ι κ) (r : Registers) (steps : Nat) : Option (Machine ι κ) :=
  if h : 0 ≤ r.pointer ∧ r.pointer < r.cells.size then
    some { m with
      tape := ⟨r.cells, r.pointer.toNat, by omega⟩
      ip := r.pc
      steps := m.steps + steps }
  else none

def answer [ByteSource ι] [ByteSink κ] (j : Job) (stop : Stop) (m : Machine ι κ) :
    Attempt ι κ :=
  match stop with
  | .ended | .budget => .ok m
  | .output => (m.checkLimit j).map fun m => m.writeByte.next
  | .input => ((m.checkLimit j).bind (Machine.readByte j.eof)).map Machine.next
  | .unlinked =>
    match j.program.fetch? m.ip with
    | some s => m.fail (.fault (.bracket (.unlinked m.ip (some s.text))))
    | none => m.fail .strayAccess
  | .stray => m.fail .strayAccess

def round [ByteSource ι] [ByteSink κ] (j : Job) (p : Prepared) (batch : Nat)
    (m : Machine ι κ) : Attempt ι κ :=
  (m.checkLimit j).bind fun m =>
    let o := run p.codes p.slots (budget batch j.limit m.steps) (load m)
    match store m o.registers o.steps with
    | some m => answer j o.stop m
    | none => m.fail .strayAccess

def advance [ByteSource ι] [ByteSink κ] (j : Job) (p : Prepared) (batch : Nat) :
    Nat → Machine ι κ → Progress ι κ
  | 0, m => if m.isDone j then .finished m else .running m
  | n + 1, m =>
    if m.isDone j then .finished m
    else match round j p batch m with
      | .error b => .failed b
      | .ok m => advance j p batch n m

end RingTape.Burst
