/-!
Programs. A program is a row of symbols, written as one text, each of whose characters is a symbol,
or as a list of texts. A symbol may be any text; eight symbols of one character are commands, and
every other symbol does nothing.

Places in a program may be counted from either end. In a row of `n` places, `0, …, n - 1` count from
the front and `-n, …, -1` from the back; every other integer names no place.
-/

namespace RingTape

/-! ### Commands and symbols -/

inductive Command
  | right | left | increment | decrement | write | read | openLoop | closeLoop
  deriving DecidableEq, Repr

namespace Command

def toChar : Command → Char
  | .right => '>'
  | .left => '<'
  | .increment => '+'
  | .decrement => '-'
  | .write => '.'
  | .read => ','
  | .openLoop => '['
  | .closeLoop => ']'

def ofChar? : Char → Option Command
  | '>' => some .right
  | '<' => some .left
  | '+' => some .increment
  | '-' => some .decrement
  | '.' => some .write
  | ',' => some .read
  | '[' => some .openLoop
  | ']' => some .closeLoop
  | _ => none

@[simp] theorem ofChar?_toChar (o : Command) : ofChar? o.toChar = some o := by
  cases o <;> rfl

theorem ofChar?_eq_some_iff {c : Char} {o : Command} : ofChar? c = some o ↔ o.toChar = c := by
  constructor
  · intro h
    unfold ofChar? at h
    split at h <;> cases h <;> rfl
  · rintro rfl
    exact ofChar?_toChar o

def all : List Command :=
  [.right, .left, .increment, .decrement, .write, .read, .openLoop, .closeLoop]

@[simp] theorem mem_all (o : Command) : o ∈ all := by
  cases o <;> decide

def alphabet : List Char := all.map toChar

def isCommand (c : Char) : Bool := (ofChar? c).isSome

theorem isCommand_iff {c : Char} : isCommand c ↔ ∃ o : Command, o.toChar = c := by
  simp only [isCommand, Option.isSome_iff_exists, ofChar?_eq_some_iff]

theorem mem_alphabet_iff {c : Char} : c ∈ alphabet ↔ isCommand c := by
  simp [alphabet, isCommand_iff]

def occursIn (part : List Char) : List Char → Bool
  | [] => part.isEmpty
  | c :: whole => part.isPrefixOf (c :: whole) || occursIn part whole

theorem occursIn_iff {part whole : List Char} : occursIn part whole ↔ part <:+: whole := by
  induction whole with
  | nil => simp [occursIn]
  | cons c whole ih => simp [occursIn, ih, List.infix_cons_iff]

/-- A piece of text is a run of the alphabet when it is cut from it without a gap, so the empty
text and `><+` are, and `<>` is not. -/
def isAlphabetRun (text : String) : Bool := occursIn text.toList alphabet

end Command

/-- One place of a program: a character, or a text that is not a single character. -/
inductive Symbol
  | char (c : Char)
  | word (text : String) (length_ne_one : text.length ≠ 1)
  deriving DecidableEq

namespace Symbol

def ofString (text : String) : Symbol :=
  if h : text.length = 1 then .char (text.toList.head (by
    intro hnil; simp [← String.length_toList, hnil] at h))
  else .word text h

def text : Symbol → String
  | .char c => String.singleton c
  | .word text _ => text

/-- Only a single character can be a command. -/
def command? : Symbol → Option Command
  | .char c => Command.ofChar? c
  | .word _ _ => none

def isCommand (s : Symbol) : Bool := s.command?.isSome

theorem command?_eq_some_iff_eq_char {s : Symbol} {o : Command} :
    s.command? = some o ↔ s = .char o.toChar := by
  cases s with
  | char c =>
    rw [command?, Command.ofChar?_eq_some_iff]
    simp [eq_comm]
  | word t h => simp [command?]

/-- The number that a fast loop works on: the code of an ASCII character, and 0, which is no
command, for any other character. A longer text has no code. -/
def code? : Symbol → Option Nat
  | .char c => some (if c.toNat < 128 then c.toNat else 0)
  | .word _ _ => none

def opening : Symbol := .char '['

def closing : Symbol := .char ']'

theorem command?_eq_openLoop_iff {s : Symbol} :
    s.command? = some .openLoop ↔ s = .opening :=
  command?_eq_some_iff_eq_char

theorem command?_eq_closeLoop_iff {s : Symbol} :
    s.command? = some .closeLoop ↔ s = .closing :=
  command?_eq_some_iff_eq_char

theorem opening_ne_closing : Symbol.opening ≠ .closing := by decide

/-- No place bears both brackets. -/
theorem not_closing_of_opening {l : List Symbol} {k : Nat} (h : l[k]? = some .opening) :
    l[k]? ≠ some .closing := by
  rw [h]
  exact fun heq => opening_ne_closing (Option.some.inj heq)

def IsBracket (s : Symbol) : Prop := s = .opening ∨ s = .closing

instance : DecidablePred IsBracket :=
  fun s => inferInstanceAs (Decidable (s = .opening ∨ s = .closing))

theorem ne_of_plain {s : Symbol} (plain : ¬ s.IsBracket) : s ≠ .opening ∧ s ≠ .closing :=
  not_or.1 plain

theorem not_isBracket_of_comment {c : Char} (h : ¬ Command.isCommand c = true) :
    ¬ (Symbol.char c).IsBracket := by
  rintro (heq | heq)
  · obtain rfl : c = '[' := Symbol.char.inj heq
    exact h rfl
  · obtain rfl : c = ']' := Symbol.char.inj heq
    exact h rfl

end Symbol

/-! ### Indices that count from either end -/

namespace Index

/-- The place that `i` names in a row of `n`. -/
def locate? (n : Nat) (i : Int) : Option (Fin n) :=
  if h : 0 ≤ i ∧ i < n then some ⟨i.toNat, by omega⟩
  else if h : -n ≤ i ∧ i < 0 then some ⟨(i + n).toNat, by omega⟩
  else none

theorem locate?_natCast {n k : Nat} (h : k < n) : locate? n (k : Int) = some ⟨k, h⟩ := by
  simp [locate?, h]

theorem locate?_isSome_iff {n : Nat} {i : Int} : (locate? n i).isSome ↔ -n ≤ i ∧ i < n := by
  unfold locate?
  split
  · simp; omega
  · split
    · simp; omega
    · simp; omega

theorem locate?_eq_none_iff {n : Nat} {i : Int} : locate? n i = none ↔ i < -n ∨ (n : Int) ≤ i := by
  rw [← Option.not_isSome_iff_eq_none, locate?_isSome_iff]
  omega

def at? {α : Type} (xs : Array α) (i : Int) : Option α :=
  (locate? xs.size i).map fun k => xs[k]

theorem at?_natCast {α : Type} (xs : Array α) (k : Nat) : at? xs k = xs[k]? := by
  unfold at?
  by_cases h : k < xs.size
  · rw [locate?_natCast h]
    exact (Array.getElem?_eq_getElem h).symm
  · rw [locate?_eq_none_iff.2 (Or.inr (by omega))]
    exact (Array.getElem?_eq_none (Nat.le_of_not_lt h)).symm

theorem at?_eq_none_iff {α : Type} {xs : Array α} {i : Int} :
    at? xs i = none ↔ i < -xs.size ∨ (xs.size : Int) ≤ i := by
  rw [at?, Option.map_eq_none_iff, locate?_eq_none_iff]

end Index

/-! ### Programs -/

inductive Program.Form
  | text | list
  deriving DecidableEq, Repr

structure Program where
  symbols : Array Symbol
  form : Program.Form := .text
  deriving DecidableEq

namespace Program

def ofChars (cs : List Char) : Program := ⟨(cs.map Symbol.char).toArray, .text⟩

def ofString (text : String) : Program := ofChars text.toList

def ofWords (words : List String) : Program := ⟨(words.map Symbol.ofString).toArray, .list⟩

def length (p : Program) : Nat := p.symbols.size

@[simp] theorem length_ofChars (cs : List Char) : (ofChars cs).length = cs.length := by
  simp [length, ofChars]

@[simp] theorem length_ofString (text : String) : (ofString text).length = text.length := by
  simp [ofString, String.length_toList]

theorem toList_symbols_ofString (text : String) :
    (ofString text).symbols.toList = text.toList.map .char := by
  simp [ofString, ofChars]

theorem length_symbols_ofString (text : String) :
    (ofString text).symbols.toList.length = text.length := by
  rw [toList_symbols_ofString, List.length_map, String.length_toList]

def fetch? (p : Program) (i : Int) : Option Symbol := Index.at? p.symbols i

theorem fetch?_natCast (p : Program) (k : Nat) : p.fetch? k = p.symbols[k]? :=
  Index.at?_natCast p.symbols k

theorem fetch?_eq_none_iff {p : Program} {i : Int} :
    p.fetch? i = none ↔ i < -p.length ∨ (p.length : Int) ≤ i :=
  Index.at?_eq_none_iff

theorem fetch?_eq_some_iff {p : Program} {k : Nat} {s : Symbol} :
    p.fetch? k = some s ↔ p.symbols.toList[k]? = some s := by
  rw [fetch?_natCast, Array.getElem?_toList]

theorem lt_of_fetch? {p : Program} {k : Nat} {s : Symbol} (h : p.fetch? k = some s) :
    k < p.length := by
  rw [fetch?_natCast] at h
  exact (Array.getElem?_eq_some_iff.1 h).1

def command? (p : Program) (k : Nat) : Option Command := p.symbols[k]?.bind Symbol.command?

theorem lt_of_command? {p : Program} {k : Nat} {o : Command} (h : p.command? k = some o) :
    k < p.length := by
  obtain ⟨s, hs, -⟩ := Option.bind_eq_some_iff.1 h
  exact (Array.getElem?_eq_some_iff.1 hs).1

theorem command?_eq_some_iff {p : Program} {k : Nat} {o : Command} :
    p.command? k = some o ↔ p.fetch? k = some (.char o.toChar) := by
  simp only [command?, fetch?_natCast, Option.bind_eq_some_iff, Symbol.command?_eq_some_iff_eq_char]
  constructor
  · rintro ⟨s, hs, rfl⟩
    exact hs
  · intro h
    exact ⟨_, h, rfl⟩

theorem command?_of_fetch? {p : Program} {k : Nat} {s : Symbol} (h : p.fetch? k = some s) :
    p.command? k = s.command? := by
  rw [fetch?_natCast] at h
  simp [command?, h]

end Program

end RingTape
