import RingTape.Text.Quoted

/-!
Text and bytes.

An encoding goes by many names, of which the table lists those of the five encodings modelled here.
Any other name is told as unknown, also one that is in use elsewhere, such as `cp1252`, `koi8-r` or
`utf-16` with its byte order mark.

Each decoder takes one character at a time off the front, `Front` being what it finds there;
`decodeAll` goes on to the end of the bytes or to the first fault. Places in a fault count bytes.

A text may be opened with its line ends kept or unified. When they are unified, a carriage return, a
line feed, or the one followed by the other ends a line, and each is read as one line feed.
-/

namespace RingTape.Text

/-! ### Encodings and what goes wrong in them -/

/-- The encodings, the two UTF-16 ones without a byte order mark. -/
inductive Encoding
  | utf8 | latin1 | ascii | utf16le | utf16be
  deriving DecidableEq, Repr

namespace Encoding

def name : Encoding → String
  | .utf8 => "utf-8"
  | .latin1 => "latin-1"
  | .ascii => "ascii"
  | .utf16le => "utf-16-le"
  | .utf16be => "utf-16-be"

/-- The names that an encoding answers to, in the spelling that `plainName` gives. -/
def aliases : Encoding → List String
  | .utf8 => ["utf_8", "u8", "utf", "utf8", "utf8_ucs2", "utf8_ucs4", "cp65001"]
  | .latin1 => ["latin_1", "8859", "cp819", "csisolatin1", "ibm819", "iso8859", "iso8859_1",
      "iso_8859_1", "iso_8859_1_1987", "iso_ir_100", "l1", "latin", "latin1"]
  | .ascii => ["ascii", "646", "ansi_x3.4_1968", "ansi_x3_4_1968", "ansi_x3.4_1986", "cp367",
      "csascii", "ibm367", "iso646_us", "iso_646.irv_1991", "iso_ir_6", "us", "us_ascii"]
  | .utf16le => ["utf_16_le", "unicodelittleunmarked", "utf_16le"]
  | .utf16be => ["utf_16_be", "unicodebigunmarked", "utf_16be"]

def all : List Encoding := [.utf8, .latin1, .ascii, .utf16le, .utf16be]

def isNameChar (c : Char) : Bool := c.isAlphanum || c == '.'

/-- A name in lower case, with one underscore for each stretch between its letters, digits and
dots. -/
def plainName (text : String) : String :=
  let pieces := text.toList.splitBy fun a b => isNameChar a == isNameChar b
  let words := pieces.filter fun w => w.any isNameChar
  String.ofList (List.intercalate ['_'] (words.map fun w => w.map Char.toLower))

def ofName? (text : String) : Option Encoding :=
  all.find? fun e => e.aliases.contains (plainName text)

/-- The number of characters, counted from code 0, that a one-byte encoding has. -/
def limit : Encoding → Nat
  | .latin1 => 256
  | .ascii => 128
  | _ => 0x110000

end Encoding

inductive Malformed
  | startByte | continuationByte | endOfData | range (limit : Nat) | oddByte | loneTrail | loneLead
  deriving DecidableEq, Repr

namespace Malformed

def reason : Malformed → String
  | .startByte => "invalid start byte"
  | .continuationByte => "invalid continuation byte"
  | .endOfData => "unexpected end of data"
  | .range limit => s!"ordinal not in range({limit})"
  | .oddByte => "truncated data"
  | .loneTrail => "illegal encoding"
  | .loneLead => "illegal UTF-16 surrogate"

end Malformed

/-- What goes wrong in an encoding. The characters or bytes to blame are those from place `start`
up to, but not with, place `stop`; the first of them is kept. -/
inductive CodecError
  | unknownEncoding (name : String)
  | cannotEncode (encoding : Encoding) (start stop : Nat) (first : Char)
  | cannotDecode (encoding : Encoding) (start stop : Nat) (first : UInt8) (why : Malformed)
  deriving DecidableEq, Repr

namespace CodecError

def message : CodecError → String
  | .unknownEncoding name => s!"unknown encoding: {name}"
  | .cannotEncode encoding start stop first =>
    let what :=
      if stop = start + 1 then
        s!"character '{String.ofList (codeEscape first)}' in position {start}"
      else s!"characters in position {start}-{stop - 1}"
    s!"'{encoding.name}' codec can't encode {what}: {(Malformed.range encoding.limit).reason}"
  | .cannotDecode encoding start stop first why =>
    let what :=
      if stop = start + 1 then
        s!"byte 0x{String.ofList (hexDigits 2 first.toNat)} in position {start}"
      else s!"bytes in position {start}-{stop - 1}"
    s!"'{encoding.name}' codec can't decode {what}: {why.reason}"

end CodecError

/-! ### Text as bytes -/

def utf8Bytes (c : Char) : List UInt8 := String.utf8EncodeChar c

/-- The 16-bit units of a character: one, or two for a code above U+FFFF. -/
def utf16Units (c : Char) : List UInt16 :=
  if c.toNat < 0x10000 then [UInt16.ofNat c.toNat]
  else
    let n := c.toNat - 0x10000
    [UInt16.ofNat (0xD800 + n / 0x400), UInt16.ofNat (0xDC00 + n % 0x400)]

namespace Encoding

def holds (e : Encoding) (c : Char) : Bool := c.toNat < e.limit

def charBytes : Encoding → Char → List UInt8
  | .utf8, c => utf8Bytes c
  | .latin1, c | .ascii, c => [UInt8.ofNat c.toNat]
  | .utf16le, c => (utf16Units c).flatMap fun u => [(u % 256).toUInt8, (u / 256).toUInt8]
  | .utf16be, c => (utf16Units c).flatMap fun u => [(u / 256).toUInt8, (u % 256).toUInt8]

/-- The bytes of a text, or a complaint about the first stretch of characters that the encoding
does not hold. -/
def encode (e : Encoding) (cs : List Char) : Except CodecError (List UInt8) :=
  match cs.dropWhile e.holds with
  | [] => .ok (cs.flatMap e.charBytes)
  | c :: rest =>
    let start := (cs.takeWhile e.holds).length
    .error (.cannotEncode e start (start + 1 + (rest.takeWhile fun c => !e.holds c).length) c)

theorem encode_eq_ok_iff {e : Encoding} {cs : List Char} {bs : List UInt8} :
    e.encode cs = .ok bs ↔ (∀ c ∈ cs, e.holds c) ∧ bs = cs.flatMap e.charBytes := by
  unfold encode
  split
  · rename_i h
    have hall : ∀ c ∈ cs, e.holds c := by
      intro c hc
      rw [← List.takeWhile_append_dropWhile (p := e.holds) (l := cs), h, List.append_nil] at hc
      exact List.all_eq_true.1 List.all_takeWhile c hc
    simp only [Except.ok.injEq]
    exact ⟨fun h => ⟨hall, h.symm⟩, fun h => h.2.symm⟩
  · rename_i c rest h
    simp only [reduceCtorEq, false_iff, not_and]
    intro hall
    have hc : c ∈ cs := (List.dropWhile_sublist e.holds).subset (h ▸ List.mem_cons_self)
    have hne : cs.dropWhile e.holds ≠ [] := by simp [h]
    have := List.head_dropWhile_not e.holds hne
    simp [h, hall c hc] at this

theorem ofName?_utf8 : ofName? "utf-8" = some .utf8 := by rfl

/-- Every character is in UTF-8. -/
theorem holds_utf8 (c : Char) : utf8.holds c := by
  have hvalid : c.toNat < 0xd800 ∨ 0xdfff < c.toNat ∧ c.toNat < 0x110000 := c.valid
  have hlt : c.toNat < 0x110000 := by omega
  exact decide_eq_true hlt

theorem encode_utf8 (cs : List Char) : utf8.encode cs = .ok (cs.flatMap utf8Bytes) :=
  encode_eq_ok_iff.2 ⟨fun c _ => holds_utf8 c, rfl⟩

end Encoding

/-! ### Bytes as text -/

/-- What stands at the front of a row of bytes. `width` counts the bytes of the character or of the
fault; `incomplete` means that the bytes run out within a character. -/
inductive Front
  | char (c : Char) (width : Nat)
  | fault (width : Nat) (why : Malformed)
  | incomplete
  deriving Repr

/-- The bounds of the bytes that must follow a first byte, or none if it can start no character.
The bounds after E0, ED, F0 and F4 leave out overlong forms, surrogates and codes past U+10FFFF. -/
def utf8Tail? (b : UInt8) : Option (List (UInt8 × UInt8)) :=
  let any : UInt8 × UInt8 := (0x80, 0xBF)
  if b < 0x80 then some []
  else if b < 0xC2 then none
  else if b < 0xE0 then some [any]
  else if b = 0xE0 then some [(0xA0, 0xBF), any]
  else if b = 0xED then some [(0x80, 0x9F), any]
  else if b < 0xF0 then some [any, any]
  else if b = 0xF0 then some [(0x90, 0xBF), any, any]
  else if b < 0xF4 then some [any, any, any]
  else if b = 0xF4 then some [(0x80, 0x8F), any, any]
  else none

/-- The part of a first byte that belongs to the code, when `n` bytes follow. -/
def utf8Lead (b : UInt8) : (n : Nat) → Nat
  | 0 => b.toNat
  | n + 1 => b.toNat % Nat.pow 2 (5 - n)

/-- Goes on with a character of which `width` bytes are read and `code` is the value so far. -/
def utf8Follow (width code : Nat) : List (UInt8 × UInt8) → List UInt8 → Front
  | [], _ => .char (Char.ofNat code) width
  | _ :: _, [] => .incomplete
  | (low, high) :: bounds, b :: bs =>
    if low ≤ b ∧ b ≤ high then utf8Follow (width + 1) (64 * code + b.toNat % 64) bounds bs
    else .fault width .continuationByte

def utf8Front (b : UInt8) (bs : List UInt8) : Front :=
  match utf8Tail? b with
  | none => .fault 1 .startByte
  | some bounds => utf8Follow 1 (utf8Lead b bounds.length) bounds bs

def byteFront (limit : Nat) (b : UInt8) : Front :=
  if b.toNat < limit then .char (Char.ofNat b.toNat) 1 else .fault 1 (.range limit)

abbrev UnitOrder := UInt8 → UInt8 → Nat

def littleEndian : UnitOrder := fun a b => a.toNat + 256 * b.toNat

def bigEndian : UnitOrder := fun a b => 256 * a.toNat + b.toNat

/-- A unit from D800 to DBFF leads a pair and one from DC00 to DFFF trails it; a pair that is cut
off is blamed to the end of the bytes. -/
def utf16Front (unit : UnitOrder) (b : UInt8) : List UInt8 → Front
  | [] => .fault 1 .oddByte
  | b' :: bs =>
    let u := unit b b'
    if u < 0xD800 ∨ 0xE000 ≤ u then .char (Char.ofNat u) 2
    else if 0xDC00 ≤ u then .fault 2 .loneTrail
    else match bs with
      | [] => .incomplete
      | [_] => .incomplete
      | c :: c' :: _ =>
        let v := unit c c'
        if 0xDC00 ≤ v ∧ v < 0xE000 then
          .char (Char.ofNat (0x10000 + 0x400 * (u - 0xD800) + (v - 0xDC00))) 4
        else .fault 2 .loneLead

namespace Encoding

def front (e : Encoding) (b : UInt8) (bs : List UInt8) : Front :=
  match e with
  | .utf8 => utf8Front b bs
  | .latin1 | .ascii => byteFront e.limit b
  | .utf16le => utf16Front littleEndian b bs
  | .utf16be => utf16Front bigEndian b bs

/-- Decodes `bytes`, the first of which has place `place`, behind the characters `done`, which are
in reverse. When bytes run out within a character, the rest is handed back. -/
def decodeFrom (e : Encoding) (bytes : List UInt8) (place : Nat) (done : List Char) :
    Except CodecError (List Char × List UInt8) :=
  match bytes with
  | [] => .ok (done.reverse, [])
  | b :: bs =>
    match e.front b bs with
    | .char c width => decodeFrom e (bs.drop (width - 1)) (place + width) (c :: done)
    | .fault width why => .error (.cannotDecode e place (place + width) b why)
    | .incomplete => .ok (done.reverse, b :: bs)
termination_by bytes.length
decreasing_by simp only [List.length_drop, List.length_cons]; omega

/-- Decodes as many whole characters as there are, and hands back the bytes of one that is cut
off. -/
def decodePart (e : Encoding) (bytes : List UInt8) : Except CodecError (List Char × List UInt8) :=
  e.decodeFrom bytes 0 []

/-- Decodes bytes that nothing follows. -/
def decodeAll (e : Encoding) (bytes : List UInt8) : Except CodecError (List Char) :=
  match e.decodePart bytes with
  | .error err => .error err
  | .ok (cs, []) => .ok cs
  | .ok (_, b :: bs) =>
    .error (.cannotDecode e (bytes.length - (bs.length + 1)) bytes.length b .endOfData)

end Encoding

/-! ### Line ends -/

/-- What becomes of the line ends when a text is opened. -/
inductive Newlines
  | kept | unified
  deriving DecidableEq, Repr

/-- Puts the characters before the text with its line ends unified, in front of which stand the
characters `done`, which are in reverse. -/
def unifyOnto (done : List Char) : List Char → List Char
  | [] => done.reverse
  | '\r' :: '\n' :: cs => unifyOnto ('\n' :: done) cs
  | '\r' :: cs => unifyOnto ('\n' :: done) cs
  | c :: cs => unifyOnto (c :: done) cs

def unifyNewlines (cs : List Char) : List Char := unifyOnto [] cs

def Newlines.apply : Newlines → List Char → List Char
  | .kept, cs => cs
  | .unified, cs => unifyNewlines cs

theorem unifyOnto_append (done early cs : List Char) :
    unifyOnto (done ++ early) cs = early.reverse ++ unifyOnto done cs := by
  fun_induction unifyOnto done cs with
  | case1 => simp [unifyOnto]
  | case2 done cs ih => simpa [unifyOnto] using ih
  | case3 done cs h ih => rw [unifyOnto]; exact ih; exact h
  | case4 done c cs h h' ih => rw [unifyOnto]; exact ih; exact h; exact h'

theorem unifyOnto_eq (done cs : List Char) :
    unifyOnto done cs = done.reverse ++ unifyNewlines cs :=
  unifyOnto_append [] done cs

theorem return_not_mem_unifyOnto {done : List Char} (cs : List Char) (h : '\r' ∉ done) :
    '\r' ∉ unifyOnto done cs := by
  fun_induction unifyOnto done cs with
  | case1 => simpa using h
  | case2 done cs ih => exact ih (by simpa using h)
  | case3 done cs _ ih => exact ih (by simpa using h)
  | case4 done c cs _ hc ih =>
    have hne : '\r' ≠ c := fun e => hc e.symm
    exact ih (by simp [hne, h])

theorem unifyOnto_of_not_mem {cs : List Char} (done : List Char) (h : '\r' ∉ cs) :
    unifyOnto done cs = done.reverse ++ cs := by
  fun_induction unifyOnto done cs with
  | case1 => simp
  | case2 => simp at h
  | case3 => simp at h
  | case4 done c cs _ _ ih => simpa using ih (fun hmem => h (List.mem_cons_of_mem c hmem))

/-- Unified line ends leave no carriage return, and every text without one. -/
theorem Newlines.exists_apply_eq_iff {newlines : Newlines} {cs : List Char} :
    (∃ ds, newlines.apply ds = cs) ↔ (newlines = .unified → '\r' ∉ cs) := by
  cases newlines with
  | kept => simp [apply]
  | unified =>
    constructor
    · rintro ⟨ds, rfl⟩ -
      exact return_not_mem_unifyOnto ds List.not_mem_nil
    · intro h
      exact ⟨cs, unifyOnto_of_not_mem [] (h rfl)⟩

def Encoding.text (e : Encoding) (newlines : Newlines) (bytes : List UInt8) :
    Except CodecError String :=
  (e.decodeAll bytes).map fun cs => String.ofList (newlines.apply cs)

end RingTape.Text
