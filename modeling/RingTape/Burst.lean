import RingTape.Program

/-!
Bursts. A burst works on bare numbers: codes for symbols, one row of slots for the jumps of both
directions, and the cells of a tape. It goes on until the program ends, a byte has to be read or
written, its budget is used up, or a bracket has nowhere to jump, and tells which. What it stopped
for is left to the caller: the place is still that of the symbol.
-/

namespace RingTape.Burst

inductive Stop
  | ended | output | input | budget | unlinked
  /-- A place outside the codes, the slots or the cells was asked for. -/
  | stray
  deriving DecidableEq, Repr

/-- What a burst works with. Places and pointer count from either end, and a pointer that is not yet
used may be any integer. -/
structure Registers where
  pc : Int
  pointer : Int
  cells : Array UInt8
  deriving DecidableEq, Repr

structure Outcome where
  stop : Stop
  registers : Registers
  steps : Nat
  deriving DecidableEq, Repr

/-- The codes of a program, or the length of the first symbol that is not a single character. -/
def codes (symbols : List Symbol) : Except Nat (List Nat) :=
  symbols.mapM fun s =>
    match s.code? with
    | some code => .ok code
    | none => .error s.text.length

/-- The registers behind one symbol, or as they were in front of one that stops the burst. -/
abbrev Move := Except (Stop × Registers) Registers

namespace Registers

def move (r : Registers) (d : Int) : Registers :=
  { r with pointer := (r.pointer + d) % r.cells.size }

def add (r : Registers) (v : UInt8) : Move :=
  match Index.locate? r.cells.size r.pointer with
  | some k => .ok { r with cells := r.cells.modify k (· + v) }
  | none => .error (.stray, r)

def jump (r : Registers) (slots : Array Int) : Move :=
  match Index.at? slots r.pc with
  | none => .error (.stray, r)
  | some target => if target < 0 then .error (.unlinked, r) else .ok { r with pc := target }

def branch (r : Registers) (slots : Array Int) (onZero : Bool) : Move :=
  match Index.at? r.cells r.pointer with
  | none => .error (.stray, r)
  | some c => if (c == 0) = onZero then r.jump slots else .ok r

def act (r : Registers) (codes : Array Nat) (slots : Array Int) : Move :=
  match Index.at? codes r.pc with
  | none => .error (.stray, r)
  | some code =>
    match Command.ofChar? (Char.ofNat code) with
    | none => .ok r
    | some .right => .ok (r.move 1)
    | some .left => .ok (r.move (-1))
    | some .increment => r.add 1
    | some .decrement => r.add (-1)
    | some .write => .error (.output, r)
    | some .read => .error (.input, r)
    | some .openLoop => r.branch slots true
    | some .closeLoop => r.branch slots false

/-- Works until there is a reason to stop, `done` steps having been taken before and `budget` being
left. The end of the program comes before the end of the budget. -/
def work (codes : Array Nat) (slots : Array Int) (done : Nat) :
    (budget : Nat) → Registers → Outcome
  | 0, r => ⟨if (codes.size : Int) ≤ r.pc then .ended else .budget, r, done⟩
  | budget + 1, r =>
    if (codes.size : Int) ≤ r.pc then ⟨.ended, r, done⟩
    else match r.act codes slots with
      | .error (stop, r) => ⟨stop, r, done⟩
      | .ok r => work codes slots (done + 1) budget { r with pc := r.pc + 1 }

theorem work_of_ended {codes : Array Nat} {slots : Array Int} {r : Registers}
    (h : (codes.size : Int) ≤ r.pc) (done budget : Nat) :
    r.work codes slots done budget = ⟨.ended, r, done⟩ := by
  cases budget <;> simp [work, h]

theorem work_of_stop {codes : Array Nat} {slots : Array Int} {r r' : Registers} {stop : Stop}
    (h : r.pc < codes.size) (ha : r.act codes slots = .error (stop, r')) (done budget : Nat) :
    r.work codes slots done (budget + 1) = ⟨stop, r', done⟩ := by
  simp [work, Int.not_le.2 h, ha]

theorem work_of_move {codes : Array Nat} {slots : Array Int} {r r' : Registers}
    (h : r.pc < codes.size) (ha : r.act codes slots = .ok r') (done budget : Nat) :
    r.work codes slots done (budget + 1) =
      work codes slots (done + 1) budget { r' with pc := r'.pc + 1 } := by
  simp [work, Int.not_le.2 h, ha]

end Registers

def run (codes : Array Nat) (slots : Array Int) (budget : Nat) (r : Registers) : Outcome :=
  r.work codes slots 0 budget

end RingTape.Burst
