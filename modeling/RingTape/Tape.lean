/-!
The tape: a circle of 8-bit cells, at least one, with a pointer at one of them. A move goes round
the circle, and a value is stored modulo 256. Cells are read at any integer place, which is taken
modulo the size.
-/

namespace RingTape

structure Tape where
  cells : Array UInt8
  pointer : Nat
  pointer_lt : pointer < cells.size

namespace Tape

def defaultSize : Int := 256

def size (t : Tape) : Nat := t.cells.size

theorem size_pos (t : Tape) : 0 < t.size := Nat.lt_of_le_of_lt (Nat.zero_le _) t.pointer_lt

def blank (size : Nat) (h : 0 < size) : Tape where
  cells := Array.replicate size 0
  pointer := 0
  pointer_lt := by simpa using h

def blank? (size : Int) : Option Tape :=
  if h : 1 ≤ size then some (blank size.toNat (by omega)) else none

def index (t : Tape) (i : Int) : Fin t.cells.size :=
  ⟨(i % t.cells.size).toNat, by
    have h : (0 : Int) < t.cells.size := Int.natCast_pos.2 t.size_pos
    have := Int.emod_nonneg i (Int.ne_of_gt h)
    have := Int.emod_lt_of_pos i h
    omega⟩

theorem index_val (t : Tape) (i : Int) : ((t.index i : Nat) : Int) = i % t.size := by
  have h : (0 : Int) < t.cells.size := Int.natCast_pos.2 t.size_pos
  exact Int.toNat_of_nonneg (Int.emod_nonneg i (Int.ne_of_gt h))

def get (t : Tape) (i : Int) : UInt8 := t.cells[t.index i]

def here (t : Tape) : Fin t.cells.size := ⟨t.pointer, t.pointer_lt⟩

def current (t : Tape) : UInt8 := t.cells[t.here]

def move (t : Tape) (d : Int) : Tape :=
  { t with pointer := t.index (t.pointer + d), pointer_lt := (t.index (t.pointer + d)).isLt }

def right (t : Tape) : Tape := t.move 1

def left (t : Tape) : Tape := t.move (-1)

def put (t : Tape) (v : UInt8) : Tape :=
  { t with
    cells := t.cells.set t.pointer v t.pointer_lt
    pointer_lt := by simpa using t.pointer_lt }

def store (t : Tape) (v : Int) : Tape := t.put (UInt8.ofInt v)

def increment (t : Tape) : Tape := t.put (t.current + 1)

def decrement (t : Tape) : Tape := t.put (t.current - 1)

def dump (t : Tape) (start count : Int) : List UInt8 :=
  (List.range count.toNat).map fun (k : Nat) => t.get (start + k)

def describe (t : Tape) : String := s!"Tape(size={t.size}, pointer={t.pointer})"

@[simp] theorem size_blank (size : Nat) (h : 0 < size) : (blank size h).size = size := by
  simp [blank, Tape.size]

@[simp] theorem pointer_blank (size : Nat) (h : 0 < size) : (blank size h).pointer = 0 := rfl

@[simp] theorem current_blank (size : Nat) (h : 0 < size) : (blank size h).current = 0 := by
  simp [blank, current, here]

@[simp] theorem cells_move (t : Tape) (d : Int) : (t.move d).cells = t.cells := rfl

@[simp] theorem size_move (t : Tape) (d : Int) : (t.move d).size = t.size := rfl

theorem pointer_move (t : Tape) (d : Int) :
    ((t.move d).pointer : Int) = (t.pointer + d) % t.size :=
  t.index_val (t.pointer + d)

@[simp] theorem pointer_put (t : Tape) (v : UInt8) : (t.put v).pointer = t.pointer := rfl

@[simp] theorem size_put (t : Tape) (v : UInt8) : (t.put v).size = t.size := by
  simp [put, size]

@[simp] theorem current_put (t : Tape) (v : UInt8) : (t.put v).current = v := by
  simp [put, current, here]

theorem cells_put (t : Tape) (v : UInt8) :
    (t.put v).cells = t.cells.set t.pointer v t.pointer_lt := rfl

end Tape

end RingTape
