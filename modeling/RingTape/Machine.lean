import RingTape.Input
import RingTape.Options
import RingTape.Output

/-!
The machine: a tape, a place in the program, a count of the steps done, a log, and the two ends that
bytes come from and go to. Whatever can go wrong leaves a machine behind, so that what was done
before can still be seen and the run can go on from there.

In one step the limit is checked first, then the symbol is fetched, then it is logged, and then it
is executed; whatever fails keeps the later ones from happening. A bracket that jumps lands behind
its partner.

A machine is done when its place is behind the program; a place in front of the program, which odd
links may lead to, is not. `advance` does up to a given number of steps and stops when the machine
is done; `stepTimes` steps on regardless.
-/

namespace RingTape

/-- An entry of the log: a step about to be done, or a remark. -/
inductive LogEntry
  | step (steps : Nat) (ip : Int) (symbol : Symbol) (pointer : Nat) (cell : UInt8)
  | remark (text : String)
  deriving DecidableEq

def LogEntry.line : LogEntry → String
  | .step steps ip symbol pointer cell =>
    s!"step={steps} ip={ip} cmd={Text.quote symbol.text} dp={pointer} cell={cell}"
  | .remark text => text

structure Machine (ι κ : Type) where
  tape : Tape
  ip : Int := 0
  steps : Nat := 0
  /-- Whether entries are kept in the log. -/
  tracing : Bool := false
  log : Array LogEntry := #[]
  source : ι
  sink : κ

structure Breakdown (ι κ : Type) where
  cause : Failure
  machine : Machine ι κ

abbrev Attempt (ι κ : Type) := Except (Breakdown ι κ) (Machine ι κ)

namespace Machine

variable {ι κ : Type}

def fail (m : Machine ι κ) (cause : Failure) : Attempt ι κ := .error ⟨cause, m⟩

def note (m : Machine ι κ) (e : LogEntry) : Machine ι κ :=
  if m.tracing then { m with log := m.log.push e } else m

def checkLimit (j : Job) (m : Machine ι κ) : Attempt ι κ :=
  if j.spent m.steps then m.fail (.fault (.limit (.stopped m.steps m.ip))) else .ok m

def readByte [ByteSource ι] (eof : EofPolicy) (m : Machine ι κ) : Attempt ι κ :=
  match ByteSource.read m.source with
  | (.error e, source) => { m with source }.fail (.codec e)
  | (.ok (some b), source) => .ok { m with source, tape := m.tape.put b }
  | (.ok none, source) =>
    match eof.value? with
    | some v => .ok { m with source, tape := m.tape.put v }
    | none => .ok { m with source }

def writeByte [ByteSink κ] (m : Machine ι κ) : Machine ι κ :=
  { m with sink := ByteSink.write m.sink m.tape.current.toNat }

def next (m : Machine ι κ) : Machine ι κ := { m with ip := m.ip + 1, steps := m.steps + 1 }

theorem checkLimit_of_spent {j : Job} {m : Machine ι κ} (h : j.spent m.steps = true) :
    m.checkLimit j = m.fail (.fault (.limit (.stopped m.steps m.ip))) := by
  simp [checkLimit, h]

theorem checkLimit_of_not_spent {j : Job} {m : Machine ι κ} (h : j.spent m.steps = false) :
    m.checkLimit j = .ok m := by
  simp [checkLimit, h]

@[simp] theorem tape_note (m : Machine ι κ) (e : LogEntry) : (m.note e).tape = m.tape := by
  unfold note; split <;> rfl

@[simp] theorem ip_note (m : Machine ι κ) (e : LogEntry) : (m.note e).ip = m.ip := by
  unfold note; split <;> rfl

@[simp] theorem steps_note (m : Machine ι κ) (e : LogEntry) : (m.note e).steps = m.steps := by
  unfold note; split <;> rfl

@[simp] theorem source_note (m : Machine ι κ) (e : LogEntry) : (m.note e).source = m.source := by
  unfold note; split <;> rfl

@[simp] theorem sink_note (m : Machine ι κ) (e : LogEntry) : (m.note e).sink = m.sink := by
  unfold note; split <;> rfl

@[simp] theorem tracing_note (m : Machine ι κ) (e : LogEntry) :
    (m.note e).tracing = m.tracing := by
  unfold note; split <;> simp_all

end Machine

inductive Progress (ι κ : Type)
  | running (m : Machine ι κ)
  | finished (m : Machine ι κ)
  | failed (b : Breakdown ι κ)

namespace Progress

variable {ι κ : Type}

def machine : Progress ι κ → Machine ι κ
  | .running m => m
  | .finished m => m
  | .failed b => b.machine

@[simp] theorem machine_running (m : Machine ι κ) : (running m).machine = m := rfl

@[simp] theorem machine_finished (m : Machine ι κ) : (finished m).machine = m := rfl

@[simp] theorem machine_failed (b : Breakdown ι κ) : (failed b).machine = b.machine := rfl

end Progress

namespace Machine

variable {ι κ : Type}

/-! ### One step -/

def lookup (links : Std.TreeMap Int Int) (place : Int) (symbol : Option String) :
    Except BracketFault Int :=
  match links[place]? with
  | some target => .ok target
  | none => .error (.unlinked place symbol)

def jump (links : Std.TreeMap Int Int) (s : Symbol) (m : Machine ι κ) : Attempt ι κ :=
  match lookup links m.ip (some s.text) with
  | .ok target => .ok { m with ip := target }
  | .error f => m.fail (.fault (.bracket f))

/-- What a symbol does, short of going on to the next. -/
def execute [ByteSource ι] [ByteSink κ] (j : Job) (s : Symbol) (m : Machine ι κ) : Attempt ι κ :=
  match s.command? with
  | none => .ok m
  | some .right => .ok { m with tape := m.tape.right }
  | some .left => .ok { m with tape := m.tape.left }
  | some .increment => .ok { m with tape := m.tape.increment }
  | some .decrement => .ok { m with tape := m.tape.decrement }
  | some .write => .ok m.writeByte
  | some .read => m.readByte j.eof
  | some .openLoop => if m.tape.current = 0 then m.jump j.links.forward s else .ok m
  | some .closeLoop => if m.tape.current = 0 then .ok m else m.jump j.links.backward s

def entry (m : Machine ι κ) (s : Symbol) : LogEntry :=
  .step m.steps m.ip s m.tape.pointer m.tape.current

def step [ByteSource ι] [ByteSink κ] (j : Job) (m : Machine ι κ) : Attempt ι κ :=
  match m.checkLimit j with
  | .error b => .error b
  | .ok m =>
    match j.program.fetch? m.ip with
    | none => m.fail (.noSymbol j.program.form)
    | some s => ((m.note (m.entry s)).execute j s).map next

section Laws

variable [ByteSource ι] [ByteSink κ] {j : Job} {m : Machine ι κ}

theorem step_of_spent (h : j.spent m.steps = true) :
    m.step j = m.fail (.fault (.limit (.stopped m.steps m.ip))) := by
  rw [step, checkLimit_of_spent h]
  rfl

theorem step_of_no_symbol (h : j.spent m.steps = false) (hf : j.program.fetch? m.ip = none) :
    m.step j = m.fail (.noSymbol j.program.form) := by
  simp only [step, checkLimit_of_not_spent h, hf]

theorem step_of_symbol (h : j.spent m.steps = false) {s : Symbol}
    (hf : j.program.fetch? m.ip = some s) :
    m.step j = ((m.note (m.entry s)).execute j s).map next := by
  simp only [step, checkLimit_of_not_spent h, hf]

end Laws

/-! ### Running -/

def isDone (j : Job) (m : Machine ι κ) : Bool := (j.program.length : Int) ≤ m.ip

theorem isDone_iff {j : Job} {m : Machine ι κ} : m.isDone j ↔ (j.program.length : Int) ≤ m.ip := by
  simp [isDone]

def advance [ByteSource ι] [ByteSink κ] (j : Job) : Nat → Machine ι κ → Progress ι κ
  | 0, m => if m.isDone j then .finished m else .running m
  | n + 1, m =>
    if m.isDone j then .finished m
    else match m.step j with
      | .error b => .failed b
      | .ok m => advance j n m

/-- Does `n` steps one after the other, at whatever place, and stops at the first that fails. -/
def stepTimes [ByteSource ι] [ByteSink κ] (j : Job) : Nat → Machine ι κ → Attempt ι κ
  | 0, m => .ok m
  | n + 1, m => match m.step j with
    | .error b => .error b
    | .ok m => stepTimes j n m

section Laws

variable [ByteSource ι] [ByteSink κ] {j : Job} {m m' : Machine ι κ} {b : Breakdown ι κ}

theorem advance_of_isDone (h : m.isDone j) (n : Nat) : m.advance j n = .finished m := by
  cases n <;> simp [advance, h]

theorem advance_zero (h : ¬ m.isDone j) : m.advance j 0 = .running m := by
  simp [advance, h]

theorem advance_succ (h : ¬ m.isDone j) (hs : m.step j = .ok m') (n : Nat) :
    m.advance j (n + 1) = m'.advance j n := by
  simp [advance, h, hs]

theorem advance_succ_error (h : ¬ m.isDone j) (hs : m.step j = .error b) (n : Nat) :
    m.advance j (n + 1) = .failed b := by
  simp [advance, h, hs]

@[simp] theorem stepTimes_zero : m.stepTimes j 0 = .ok m := rfl

theorem stepTimes_add (k n : Nat) :
    m.stepTimes j (k + n) = (m.stepTimes j k).bind (stepTimes j n) := by
  induction k generalizing m with
  | zero => rw [Nat.zero_add]; rfl
  | succ k ih =>
    rw [Nat.succ_add]
    simp only [stepTimes]
    cases m.step j with
    | error b => rfl
    | ok m => exact ih

end Laws

end Machine

end RingTape
