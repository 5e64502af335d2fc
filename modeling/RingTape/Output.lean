/-!
Output. A sink is given integers. A list keeps them as they are; every other sink keeps each modulo
256, as a byte. A stream also writes the byte as a character, and a tee hands the integer itself on
to the sink behind it.
-/

namespace RingTape

class ByteSink (κ : Type) where
  write : κ → Int → κ

def ByteSink.writeAll {κ : Type} [ByteSink κ] (k : κ) (bs : List UInt8) : κ :=
  bs.foldl (fun k b => ByteSink.write k b.toNat) k

theorem ByteSink.writeAll_append {κ : Type} [ByteSink κ] (k : κ) (bs cs : List UInt8) :
    writeAll k (bs ++ cs) = writeAll (writeAll k bs) cs :=
  List.foldl_append

theorem ofInt_toNat (b : UInt8) : UInt8.ofInt b.toNat = b := by
  have := b.toNat_lt
  apply UInt8.toNat_inj.1
  simp [UInt8.ofInt]
  omega

theorem toNat_ofInt (v : Int) : ((UInt8.ofInt v).toNat : Int) = v % 256 := by
  simp [UInt8.ofInt]
  omega

def byteChar (b : UInt8) : Char := Char.ofNat b.toNat

inductive Output
  | list (values : Array Int)
  | buffer (bytes : Array UInt8)
  | stream (bytes : Array UInt8) (text : String)
  | tee (bytes : Array UInt8) (behind : Output)
  deriving DecidableEq, Repr

namespace Output

def write : Output → Int → Output
  | .list values, v => .list (values.push v)
  | .buffer bytes, v => .buffer (bytes.push (UInt8.ofInt v))
  | .stream bytes text, v =>
    .stream (bytes.push (UInt8.ofInt v)) (text.push (byteChar (UInt8.ofInt v)))
  | .tee bytes behind, v => .tee (bytes.push (UInt8.ofInt v)) (behind.write v)

instance : ByteSink Output := ⟨write⟩

def emptyList : Output := .list #[]

def emptyBuffer : Output := .buffer #[]

def emptyStream : Output := .stream #[] ""

def teeTo (behind : Output) : Output := .tee #[] behind

def bytes : Output → Array UInt8
  | .list values => values.map UInt8.ofInt
  | .buffer bytes => bytes
  | .stream bytes _ => bytes
  | .tee bytes _ => bytes

def behind? : Output → Option Output
  | .tee _ behind => some behind
  | _ => none

@[simp] theorem bytes_write (o : Output) (v : Int) :
    (o.write v).bytes = o.bytes.push (UInt8.ofInt v) := by
  cases o <;> simp [write, bytes]

@[simp] theorem bytes_writeAll (o : Output) (bs : List UInt8) :
    (ByteSink.writeAll o bs).bytes.toList = o.bytes.toList ++ bs := by
  induction bs generalizing o with
  | nil => simp [ByteSink.writeAll]
  | cons b bs ih =>
      show (ByteSink.writeAll (o.write b.toNat) bs).bytes.toList = _
      simp [ih, ofInt_toNat]

end Output

def textOfBytes (bytes : Array UInt8) : String := String.ofList (bytes.toList.map byteChar)

end RingTape
