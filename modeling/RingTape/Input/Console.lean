import RingTape.Input
import RingTape.Text.Encoding

/-!
The console: lines out of bytes that arrive in blocks. A block is decoded, as UTF-8, only when a
line needs it; the bytes of a character cut off at the end of a block wait for the next one. Line
ends are kept or unified, and when they are unified a carriage return at the end of a block waits,
too, as it may yet turn out to belong to a line feed. Places in a decoding error count from the
first byte that waited.
-/

namespace RingTape

open Text (CodecError Encoding)

structure Console where
  unread : List UInt8
  newlines : Text.Newlines := .unified
  /-- The bytes of a character that is not complete. -/
  carry : List UInt8 := []
  /-- Whether a carriage return waits. -/
  held : Bool := false
  ready : List Char := []
  deriving DecidableEq, Repr

namespace Console

def blockSize : Nat := 8192

/-- Takes in decoded characters: what a line may now show, and whether a carriage return at their
end has to wait for what comes next. -/
def settle (newlines : Text.Newlines) (held final : Bool) (cs : List Char) : List Char × Bool :=
  let cs := if held && (final || !cs.isEmpty) then '\r' :: cs else cs
  if newlines == .unified && !final && cs.getLast? == some '\r' then
    (newlines.apply cs.dropLast, true)
  else (newlines.apply cs, held && cs.isEmpty)

def fetch (c : Console) : Except CodecError Console :=
  match Encoding.utf8.decodePart (c.carry ++ c.unread.take blockSize) with
  | .error e => .error e
  | .ok (cs, carry) =>
    let (shown, held) := settle c.newlines c.held false cs
    .ok { c with unread := c.unread.drop blockSize, carry, held, ready := c.ready ++ shown }

def finish (c : Console) : Except CodecError Console :=
  match Encoding.utf8.decodeAll c.carry with
  | .error e => .error e
  | .ok cs =>
    let shown := (settle c.newlines c.held true cs).1
    .ok { unread := [], newlines := c.newlines, ready := c.ready ++ shown }

theorem unread_of_fetch {c d : Console} (h : c.fetch = .ok d) :
    d.unread = c.unread.drop blockSize := by
  unfold fetch at h
  split at h
  · cases h
  · cases h; rfl

def fill (c : Console) : Except CodecError Console :=
  if c.ready.contains '\n' then .ok c
  else if _unread : c.unread = [] then c.finish
  else
    match _fetched : c.fetch with
    | .error e => .error e
    | .ok d => d.fill
termination_by c.unread.length
decreasing_by
  have := List.length_pos_iff.2 _unread
  rw [unread_of_fetch _fetched, List.length_drop, blockSize]
  omega

theorem fill_of_unread_nil {c : Console} (h : '\n' ∉ c.ready) (hu : c.unread = []) :
    c.fill = c.finish := by
  rw [fill, if_neg (by simpa using h), dif_pos hu]

def read (c : Console) : Except CodecError (Option UInt8) × Console :=
  match c.fill with
  | .error e => (.error e, c)
  | .ok c =>
    if c.ready = [] then (.ok none, c)
    else
      ((Encoding.utf8.encode (firstLine c.ready)).map List.head?,
        { c with ready := afterFirstLine c.ready })

instance : ByteSource Console := ⟨read⟩

end Console

inductive Input
  | queue (q : ByteQueue)
  | lines (r : LineReader)
  | console (c : Console)
  deriving DecidableEq, Repr

namespace Input

def read : Input → Except CodecError (Option UInt8) × Input
  | .queue q => let (b, q) := q.read; (b, .queue q)
  | .lines r => let (b, r) := r.read; (b, .lines r)
  | .console c => let (b, c) := c.read; (b, .console c)

instance : ByteSource Input := ⟨read⟩

def remaining? : Input → Option Nat
  | .queue q => some q.remaining
  | _ => none

end Input

end RingTape
