import Mathlib.Data.ZMod.Basic
import RingTape.Proofs.Rotation

/-!
Reducing at once or never. A tape reduces at every turn: the pointer modulo the size, and a value
modulo 256. An `UnreducedTape` has a pointer and cells that are any integers and reduces nothing,
however far its pointer goes and however much is added to its cells. Nothing is lost: a tape is the
reduction of the unreduced one after the same operations, and reducing at the end is enough.

`Reduces` is what every operation keeps. It speaks of cells at integers, as `Tape.get` does, so that
nothing has to be said about where the tape goes round.
-/

namespace RingTape

inductive TapeOp
  | move (d : Int) | right | left | increment | decrement | store (v : Int)
  deriving DecidableEq, Repr

/-- Whether an operation is about the cell under the pointer. The others move the pointer. -/
def TapeOp.isOnCell : TapeOp → Bool
  | .move _ | .right | .left => false
  | .increment | .decrement | .store _ => true

namespace Tape

def apply (t : Tape) : TapeOp → Tape
  | .move d => t.move d
  | .right => t.right
  | .left => t.left
  | .increment => t.increment
  | .decrement => t.decrement
  | .store v => t.store v

def applyAll (t : Tape) (ops : List TapeOp) : Tape := ops.foldl apply t

end Tape

/-- A tape that reduces nothing, with a cell for each residue modulo `n`. -/
structure UnreducedTape (n : Nat) where
  pointer : Int
  cells : ZMod n → Int

namespace UnreducedTape

variable {n : Nat}

def blank (n : Nat) : UnreducedTape n := ⟨0, fun _ => 0⟩

def current (u : UnreducedTape n) : Int := u.cells u.pointer

def move (u : UnreducedTape n) (d : Int) : UnreducedTape n := { u with pointer := u.pointer + d }

def put (u : UnreducedTape n) (v : Int) : UnreducedTape n :=
  { u with cells := Function.update u.cells u.pointer v }

def apply (u : UnreducedTape n) : TapeOp → UnreducedTape n
  | .move d => u.move d
  | .right => u.move 1
  | .left => u.move (-1)
  | .increment => u.put (u.current + 1)
  | .decrement => u.put (u.current - 1)
  | .store v => u.put v

def applyAll (u : UnreducedTape n) (ops : List TapeOp) : UnreducedTape n := ops.foldl apply u

theorem cells_put (u : UnreducedTape n) (v : Int) :
    (u.put v).cells = Function.update u.cells u.pointer v := rfl

end UnreducedTape

/-! ### Bytes as integers modulo 256 -/

theorem toNat_add_one (b : UInt8) : ((b + 1).toNat : Int) = (b.toNat + 1) % 256 := by
  simp [UInt8.toNat_add]

theorem toNat_sub_one (b : UInt8) : ((b - 1).toNat : Int) = (b.toNat - 1) % 256 := by
  have := b.toNat_lt
  simp [UInt8.toNat_sub]
  omega

namespace Tape

variable {n : Nat} {t : Tape} {u : UnreducedTape n}

/-- The tape is what is left of the other when its pointer and its cells are reduced. -/
structure Reduces (t : Tape) (u : UnreducedTape n) : Prop where
  size : t.size = n
  pointer : (t.pointer : Int) = u.pointer % n
  get : ∀ i : Int, ((t.get i).toNat : Int) = u.cells i % 256

namespace Reduces

theorem current (h : t.Reduces u) : (t.current.toNat : Int) = u.current % 256 := by
  have hresidue : ((t.pointer : Int) : ZMod n) = (u.pointer : ZMod n) := by
    rw [h.pointer, ZMod.intCast_mod]
  rw [← get_pointer, h.get, hresidue, UnreducedTape.current]

theorem move (h : t.Reduces u) (d : Int) : (t.move d).Reduces (u.move d) where
  size := h.size
  pointer := by
    rw [pointer_move, h.size, h.pointer, Int.emod_add_emod]
    rfl
  get := h.get

theorem put (h : t.Reduces u) {b : UInt8} {v : Int} (hb : (b.toNat : Int) = v % 256) :
    (t.put b).Reduces (u.put v) where
  size := by rw [size_put, h.size]
  pointer := h.pointer
  get i := by
    rw [get_put, h.size, h.pointer]
    -- two integers name the same cell on the one tape just if they do on the other
    by_cases hi : (i : ZMod n) = (u.pointer : ZMod n)
    · rw [if_pos ((ZMod.intCast_eq_intCast_iff' i u.pointer n).1 hi), hb, UnreducedTape.cells_put,
        hi, Function.update_self]
    · rw [if_neg (mt (ZMod.intCast_eq_intCast_iff' i u.pointer n).2 hi), h.get,
        UnreducedTape.cells_put, Function.update_of_ne hi]

theorem apply (h : t.Reduces u) (op : TapeOp) : (t.apply op).Reduces (u.apply op) := by
  cases op with
  | move d => exact h.move d
  | right => exact h.move 1
  | left => exact h.move (-1)
  | increment =>
      refine h.put ?_
      rw [toNat_add_one, h.current, Int.emod_add_emod]
  | decrement =>
      refine h.put ?_
      rw [toNat_sub_one, h.current, Int.emod_sub_emod]
  | store v => exact h.put (toNat_ofInt v)

theorem applyAll (h : t.Reduces u) (ops : List TapeOp) :
    (t.applyAll ops).Reduces (u.applyAll ops) := by
  induction ops generalizing t u with
  | nil => exact h
  | cons op ops ih => exact ih (h.apply op)

end Reduces

theorem reduces_blank (h : 0 < n) : (blank n h).Reduces (.blank n) where
  size := size_blank n h
  pointer := by simp [UnreducedTape.blank]
  get i := by
    obtain ⟨k, hk, hlt⟩ := (blank n h).exists_place i
    rw [get_eq_getElem hk hlt]
    simp [blank, UnreducedTape.blank]

/-- A cell is read at the place that is left of an integer. -/
theorem getElem?_emod (t : Tape) (i : Int) : t.cells[(i % t.size).toNat]? = some (t.get i) := by
  obtain ⟨k, hk, hlt⟩ := t.exists_place i
  rw [get_eq_getElem hk hlt, hk, Int.toNat_natCast, Array.getElem?_eq_getElem hlt]

structure IsRow (t : Tape) (start count : Int) (row : List UInt8) : Prop where
  length : row.length = count.toNat
  getElem? : ∀ k : Nat, k < count → row[k]? = some (t.get (start + k))

theorem isRow_dump (t : Tape) (start count : Int) : t.IsRow start count (t.dump start count) where
  length := by simp [dump]
  getElem? k hk := by
    have hlt : k < count.toNat := by omega
    simp [dump, hlt]

/-- What an operation leaves as it was: the size in any case, the cells if it moves the pointer, and
else the pointer and every cell but the one under it. -/
structure Spares (op : TapeOp) (t t' : Tape) : Prop where
  size : t'.size = t.size
  cells : op.isOnCell = false → t'.cells = t.cells
  pointer : op.isOnCell = true → t'.pointer = t.pointer
  elsewhere : op.isOnCell = true → ∀ i : Int, i % t.size ≠ t.pointer → t'.get i = t.get i

theorem spares_move {op : TapeOp} (hop : op.isOnCell = false) (t : Tape) (d : Int) :
    Spares op t (t.move d) where
  size := rfl
  cells _ := rfl
  pointer h := by simp [hop] at h
  elsewhere h := by simp [hop] at h

theorem spares_put {op : TapeOp} (hop : op.isOnCell = true) (t : Tape) (v : UInt8) :
    Spares op t (t.put v) where
  size := size_put t v
  cells h := by simp [hop] at h
  pointer _ := rfl
  elsewhere _ i hi := by rw [get_put, if_neg hi]

theorem spares_apply (op : TapeOp) (t : Tape) : Spares op t (t.apply op) := by
  cases op with
  | move d => exact spares_move rfl t d
  | right => exact spares_move rfl t 1
  | left => exact spares_move rfl t (-1)
  | increment => exact spares_put rfl t _
  | decrement => exact spares_put rfl t _
  | store v => exact spares_put rfl t _

theorem applyAll_concat (t : Tape) (ops : List TapeOp) (op : TapeOp) :
    t.applyAll (ops ++ [op]) = (t.applyAll ops).apply op :=
  List.foldl_concat apply t op ops

/-- A tape of any size can be run like one that reduces nothing. After any operations, and so after
any first ones of them, its pointer and each of its cells are those of the unreduced tape, reduced.
It is read, cell by cell or in rows of any length, at integers taken modulo its size. No operation
changes the size, and none that is about a cell changes anything but the cell under the pointer. -/
theorem applyAll_reduces {n : Nat} (h : 1 ≤ n) :
    ∃ t, blank? n = some t ∧ ∀ ops : List TapeOp,
      (t.applyAll ops).Reduces ((UnreducedTape.blank n).applyAll ops) ∧
      (∀ (k : Nat) (hk : k < (t.applyAll ops).cells.size), ((t.applyAll ops).cells[k].toNat : Int) =
        ((UnreducedTape.blank n).applyAll ops).cells k % 256) ∧
      (∀ i : Int, (t.applyAll ops).cells[(i % n).toNat]? = some ((t.applyAll ops).get i)) ∧
      (∀ start count, (t.applyAll ops).IsRow start count ((t.applyAll ops).dump start count)) ∧
      ∀ op, Spares op (t.applyAll ops) (t.applyAll (ops ++ [op])) := by
  have hblank : blank? n = some (blank n h) := dif_pos (Int.ofNat_le.2 h)
  refine ⟨blank n h, hblank, fun ops => ?_⟩
  have hreduces := (reduces_blank h).applyAll ops
  refine ⟨hreduces, fun k hk => ?_, fun i => ?_, isRow_dump _, fun op => ?_⟩
  · have hget := hreduces.get k
    rw [get_eq_getElem (emod_natCast hk) hk, Int.cast_natCast] at hget
    exact hget
  · rw [← getElem?_emod, hreduces.size]
  · rw [applyAll_concat]
    exact spares_apply op _

/-- On a tape of three cells a pointer far to the left and a value below zero. -/
theorem far_left_reduced : 1 ≤ 3 ∧ ∃ t, blank? (3 : Nat) = some t ∧
    (t.applyAll [.move (-1000000007), .store (-300), .decrement, .left]).Reduces
      ((UnreducedTape.blank 3).applyAll [.move (-1000000007), .store (-300), .decrement, .left]) ∧
    (t.applyAll [.move (-1000000007), .store (-300), .decrement, .left]).cells = #[0, 211, 0] ∧
    (t.applyAll [.move (-1000000007), .store (-300), .decrement, .left]).dump (-1) 5 =
      [0, 0, 211, 0, 0] := by
  obtain ⟨t, ht, hops⟩ := applyAll_reduces (n := 3) (by decide)
  obtain rfl := Option.some.inj (ht.symm.trans rfl)
  obtain ⟨hreduces, -⟩ := hops [.move (-1000000007), .store (-300), .decrement, .left]
  exact ⟨by decide, _, ht, hreduces, by decide, by decide⟩

end Tape

end RingTape
