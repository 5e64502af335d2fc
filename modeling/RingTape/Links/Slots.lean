import Std.Data.TreeMap
import RingTape.Program

/-!
Links between places. A pair links an opening place to a closing one. `Links` keeps every pair in
the order in which they were added and two maps, one for each direction, in which a later pair wins
over an earlier one with the same place.

The same links may be laid out as a row of slots. Slot `p` holds the partner of place `p`, in
whichever direction, or -1 when `p` has none. Pairs are replayed in order over the same row, so a
later pair overwrites an earlier one, and a place may be counted from the end of the row.
-/

namespace RingTape

structure Links where
  pairs : Array (Int × Int) := #[]
  forward : Std.TreeMap Int Int := ∅
  backward : Std.TreeMap Int Int := ∅

namespace Links

def empty : Links := {}

def add (l : Links) (opening closing : Int) : Links where
  pairs := l.pairs.push (opening, closing)
  forward := l.forward.insert opening closing
  backward := l.backward.insert closing opening

def addAll (l : Links) (ps : List (Int × Int)) : Links :=
  ps.foldl (fun l p => l.add p.1 p.2) l

def ofPairs (ps : List (Int × Int)) : Links := empty.addAll ps

def size (l : Links) : Nat := l.pairs.size

/-- The place linked to `place`. A place that plays both parts counts as an opening one. -/
def partner? (l : Links) (place : Int) : Option Int :=
  match l.forward[place]? with
  | some p => some p
  | none => l.backward[place]?

def contains (l : Links) (place : Int) : Bool :=
  l.forward.contains place || l.backward.contains place

@[simp] theorem pairs_empty : empty.pairs = #[] := rfl

@[simp] theorem getElem?_forward_empty (place : Int) : empty.forward[place]? = none := by
  simp [empty]

@[simp] theorem getElem?_backward_empty (place : Int) : empty.backward[place]? = none := by
  simp [empty]

@[simp] theorem pairs_add (l : Links) (o c : Int) : (l.add o c).pairs = l.pairs.push (o, c) := rfl

theorem getElem?_forward_add (l : Links) (o c place : Int) :
    (l.add o c).forward[place]? = if place = o then some c else l.forward[place]? := by
  simp [add, Std.TreeMap.getElem?_insert, eq_comm (a := place)]

theorem getElem?_backward_add (l : Links) (o c place : Int) :
    (l.add o c).backward[place]? = if place = c then some o else l.backward[place]? := by
  simp [add, Std.TreeMap.getElem?_insert, eq_comm (a := place)]

theorem contains_eq_isSome_partner? (l : Links) (place : Int) :
    l.contains place = (l.partner? place).isSome := by
  simp only [contains, partner?, Std.TreeMap.contains_eq_isSome_getElem?]
  split <;> rename_i h <;> simp [h]

@[simp] theorem addAll_nil (l : Links) : l.addAll [] = l := rfl

@[simp] theorem addAll_cons (l : Links) (p : Int × Int) (ps : List (Int × Int)) :
    l.addAll (p :: ps) = (l.add p.1 p.2).addAll ps := rfl

theorem addAll_append (l : Links) (ps qs : List (Int × Int)) :
    l.addAll (ps ++ qs) = (l.addAll ps).addAll qs := by
  simp [addAll]

@[simp] theorem pairs_addAll (l : Links) (ps : List (Int × Int)) :
    (l.addAll ps).pairs.toList = l.pairs.toList ++ ps := by
  induction ps generalizing l with
  | nil => simp
  | cons p ps ih => simp [ih]

@[simp] theorem pairs_ofPairs (ps : List (Int × Int)) : (ofPairs ps).pairs.toList = ps := by
  simp [ofPairs]

end Links

/-! ### Slots -/

inductive SlotError
  | negativeSize
  | outside (place : Int) (size : Nat)
  deriving DecidableEq, Repr

namespace SlotError

def message : SlotError → String
  | .negativeSize => "negative dimensions are not allowed"
  | .outside place size => s!"index {place} is out of bounds for axis 0 with size {size}"

end SlotError

namespace Links

def setSlot (slots : Array Int) (place value : Int) : Except SlotError (Array Int) :=
  match Index.locate? slots.size place with
  | some k => .ok (slots.set k value k.isLt)
  | none => .error (.outside place slots.size)

def setPair (slots : Array Int) (p : Int × Int) : Except SlotError (Array Int) := do
  setSlot (← setSlot slots p.1 p.2) p.2 p.1

def slots (l : Links) (size : Int) : Except SlotError (Array Int) :=
  if size < 0 then .error .negativeSize
  else l.pairs.toList.foldlM setPair (Array.replicate size.toNat (-1))

theorem size_of_setSlot {a b : Array Int} {place value : Int}
    (h : setSlot a place value = .ok b) : b.size = a.size := by
  unfold setSlot at h
  split at h
  · cases h; simp
  · cases h

theorem size_of_setPair {a b : Array Int} {p : Int × Int} (h : setPair a p = .ok b) :
    b.size = a.size := by
  unfold setPair at h
  cases hs : setSlot a p.1 p.2 with
  | error e => rw [hs] at h; cases h
  | ok c =>
    rw [hs] at h
    exact (size_of_setSlot h).trans (size_of_setSlot hs)

end Links

end RingTape
