import RingTape.Text.Encoding

/-!
Input. A source hands out one byte at a time and `none` at its end; a read may fail, and leaves a
source behind either way. A `ByteQueue` hands out its bytes one after the other. A `LineReader`
takes one line of text for each read and hands out the first byte of its encoding; the whole line is
encoded, and is gone even when the encoding fails.
-/

namespace RingTape

open Text (CodecError Encoding)

class ByteSource (ι : Type) where
  read : ι → Except CodecError (Option UInt8) × ι

structure ByteQueue where
  unread : List UInt8
  deriving DecidableEq, Repr

namespace ByteQueue

def remaining (q : ByteQueue) : Nat := q.unread.length

def read (q : ByteQueue) : Except CodecError (Option UInt8) × ByteQueue :=
  match q.unread with
  | [] => (.ok none, q)
  | b :: bs => (.ok (some b), ⟨bs⟩)

instance : ByteSource ByteQueue := ⟨read⟩

@[simp] theorem read_nil : (⟨[]⟩ : ByteQueue).read = (.ok none, ⟨[]⟩) := rfl

@[simp] theorem read_cons (b : UInt8) (bs : List UInt8) :
    (⟨b :: bs⟩ : ByteQueue).read = (.ok (some b), ⟨bs⟩) := rfl

end ByteQueue

/-- What a queue can be made of. A text stands for its bytes in UTF-8. -/
inductive InputData
  | bytes (bs : List UInt8)
  | text (text : String)
  deriving DecidableEq, Repr

def ByteQueue.ofData : InputData → ByteQueue
  | .bytes bs => ⟨bs⟩
  | .text text => ⟨text.toList.flatMap Text.utf8Bytes⟩

/-- The text up to and with the first line feed. -/
def firstLine (cs : List Char) : List Char :=
  cs.takeWhile (· != '\n') ++ (cs.dropWhile (· != '\n')).take 1

def afterFirstLine (cs : List Char) : List Char := (cs.dropWhile (· != '\n')).drop 1

theorem firstLine_eq_nil_iff {cs : List Char} : firstLine cs = [] ↔ cs = [] := by
  constructor
  · intro h
    cases cs with
    | nil => rfl
    | cons c cs => by_cases hc : c = '\n' <;> simp [firstLine, hc] at h
  · rintro rfl
    rfl

structure LineReader where
  unread : List Char
  encoding : String := "utf-8"
  deriving DecidableEq, Repr

namespace LineReader

def firstByte (encoding : String) (line : List Char) : Except CodecError (Option UInt8) :=
  match Encoding.ofName? encoding with
  | none => .error (.unknownEncoding encoding)
  | some e => (e.encode line).map List.head?

def read (r : LineReader) : Except CodecError (Option UInt8) × LineReader :=
  if r.unread = [] then (.ok none, r)
  else
    (firstByte r.encoding (firstLine r.unread), { r with unread := afterFirstLine r.unread })

instance : ByteSource LineReader := ⟨read⟩

end LineReader

end RingTape
