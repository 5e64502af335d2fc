import RingTape.Options
import RingTape.Text.Numeral

/-!
The arguments of the command line: its switches, what is printed about them, and how a row of
arguments is read. First every argument is put into a class, from left to right; then the classes
are read from left to right. A switch may be shortened as long as one switch alone begins like that,
short switches may be written together, and a value may follow its switch or be attached to it by an
equals sign. After `--` nothing is a switch.
-/

namespace RingTape.CommandLine

/-! ### Switches -/

inductive Switch
  | help | tapeSize | eof | maxSteps | burst | trace | verbose
  deriving DecidableEq, Repr

namespace Switch

def all : List Switch := [.help, .tapeSize, .eof, .maxSteps, .burst, .trace, .verbose]

/-- The ways in which a switch may be written, short ones first. -/
def names : Switch → List String
  | .help => ["-h", "--help"]
  | .tapeSize => ["--tape-size"]
  | .eof => ["--eof"]
  | .maxSteps => ["--max-steps"]
  | .burst => ["--jit"]
  | .trace => ["--trace"]
  | .verbose => ["-v", "--verbose"]

def title (s : Switch) : String := "/".intercalate s.names

def takesValue : Switch → Bool
  | .tapeSize | .eof | .maxSteps => true
  | _ => false

/-- Every way of writing a switch, in the order in which they are tried. -/
def spellings : List (String × Switch) := all.flatMap fun s => s.names.map fun n => (n, s)

def ofName? (name : String) : Option Switch := spellings.lookup name

end Switch

def usageLines : List String :=
  ["usage: tapebf [-h] [--tape-size TAPE_SIZE] [--eof \x7bzero,keep,max\x7d]",
   "              [--max-steps MAX_STEPS] [--jit] [--trace] [-v]",
   "              [file]"]

def helpLines : List String :=
  usageLines ++
  ["",
   "Run a program in the 8-symbol tape language.",
   "",
   "positional arguments:",
   "  file                  program file (default: read the program from stdin)",
   "",
   "options:",
   "  -h, --help            show this help message and exit",
   "  --tape-size TAPE_SIZE",
   "                        number of cells (default 256)",
   "  --eof \x7bzero,keep,max\x7d",
   "                        what ',' stores once input is exhausted (default zero)",
   "  --max-steps MAX_STEPS",
   "                        abort after this many steps",
   "  --jit                 use the numba-compiled stepping loop",
   "  --trace               log every executed step (implies -v)",
   "  -v, --verbose         debug logging on stderr"]

def unlines (lines : List String) : String := String.join (lines.map fun l => l ++ "\n")

/-! ### Arguments -/

structure Arguments where
  file : Option String := none
  tapeSize : Int := Tape.defaultSize
  eof : EofPolicy := .zero
  maxSteps : Option Int := none
  burst : Bool := false
  trace : Bool := false
  verbose : Bool := false
  deriving DecidableEq, Repr

inductive ArgumentError
  | ambiguous (argument : String) (candidates : List String)
  | missingValue (s : Switch)
  | unexpectedValue (s : Switch) (value : String)
  | notInteger (s : Switch) (value : String)
  | notPolicy (value : String)
  | unrecognized (arguments : List String)
  deriving DecidableEq, Repr

def ArgumentError.message : ArgumentError → String
  | .ambiguous argument candidates =>
    let names := ", ".intercalate candidates
    s!"ambiguous option: {argument} could match {names}"
  | .missingValue s => s!"argument {s.title}: expected one argument"
  | .unexpectedValue s value =>
    s!"argument {s.title}: ignored explicit argument {Text.quote value}"
  | .notInteger s value => s!"argument {s.title}: invalid int value: {Text.quote value}"
  | .notPolicy value =>
    let names := ", ".intercalate (EofPolicy.all.map fun p => Text.quote p.name)
    s!"argument {Switch.eof.title}: invalid choice: {Text.quote value} (choose from {names})"
  | .unrecognized arguments =>
    let shown := " ".intercalate arguments
    s!"unrecognized arguments: {shown}"

inductive Token
  | word (text : String)
  | separator
  /-- A switch, whether it was written with one dash, and what is attached to it. -/
  | switch (s : Switch) (short : Bool) (attached : Option String)
  | unknown (text : String)
  deriving DecidableEq, Repr

def splitAtEquals (text : String) : String × Option String :=
  let cs := text.toList
  let name := String.ofList (cs.takeWhile (· != '='))
  match cs.dropWhile (· != '=') with
  | [] => (name, none)
  | _ :: rest => (name, some (String.ofList rest))

/-- Whether a text looks like a negative number: a minus sign, then digits of any script with at
most one point among or before them. A line feed at the end does not count. -/
def looksNegative (text : String) : Bool :=
  let isDigit (c : Char) := (Text.digitValue? c).isSome
  match text.toList with
  | '-' :: cs =>
    let cs := if cs.getLast? == some '\n' then cs.dropLast else cs
    match cs.dropWhile isDigit with
    | [] => !cs.isEmpty
    | '.' :: rest => !rest.isEmpty && rest.all isDigit
    | _ => false
  | _ => false

/-- The switches that an argument beginning with a dash may be short for, each with the spelling
that it matches and with what is attached to it. -/
def candidates (text : String) : List (String × Token) :=
  match text.toList with
  | '-' :: '-' :: _ =>
    let (name, attached) := splitAtEquals text
    (Switch.spellings.filter fun p => name.isPrefixOf p.1).map fun p =>
      (p.1, .switch p.2 false attached)
  | '-' :: c :: rest =>
    (Switch.spellings.filter fun p => p.1.toList == ['-', c] || text.isPrefixOf p.1).map fun p =>
      if p.1.toList == ['-', c] then (p.1, .switch p.2 true (some (String.ofList rest)))
      else (p.1, .switch p.2 true none)
  | _ => []

def classify (text : String) : Except ArgumentError Token :=
  if !text.startsWith "-" || text == "-" then .ok (.word text)
  else
    match Switch.ofName? text with
    | some s => .ok (.switch s (!text.startsWith "--") none)
    | none =>
      let (name, attached) := splitAtEquals text
      match attached.bind fun _ => Switch.ofName? name with
      | some s => .ok (.switch s (!text.startsWith "--") attached)
      | none =>
        match candidates text with
        | [(_, t)] => .ok t
        | [] => .ok (if looksNegative text || text.contains ' ' then .word text else .unknown text)
        | several => .error (.ambiguous text (several.map (·.1)))

def tokens : List String → Except ArgumentError (List Token)
  | [] => .ok []
  | text :: rest =>
    if text = "--" then .ok (.separator :: rest.map .word)
    else do return (← classify text) :: (← tokens rest)

/-- The switches that are written together: `s`, and one for each of the letters behind it. -/
def cluster (s : Switch) : List Char → Except ArgumentError (List Switch)
  | [] => .ok [s]
  | c :: cs =>
    match Switch.ofName? (String.ofList ['-', c]) with
    | none => .error (.unexpectedValue s (String.ofList (c :: cs)))
    | some t => (cluster t cs).map (s :: ·)

def flags (s : Switch) (short : Bool) : Option String → Except ArgumentError (List Switch)
  | none => .ok [s]
  | some attached =>
    if short && attached ≠ "" then cluster s attached.toList
    else .error (.unexpectedValue s attached)

inductive Reading
  | help
  | run (a : Arguments)
  deriving DecidableEq, Repr

def Arguments.setValue (a : Arguments) (s : Switch) (value : String) :
    Except ArgumentError Arguments :=
  match s with
  | .eof =>
    match EofPolicy.ofName? value with
    | some eof => .ok { a with eof }
    | none => .error (.notPolicy value)
  | .tapeSize =>
    match Text.integer? value with
    | some tapeSize => .ok { a with tapeSize }
    | none => .error (.notInteger s value)
  | .maxSteps =>
    match Text.integer? value with
    | some n => .ok { a with maxSteps := some n }
    | none => .error (.notInteger s value)
  | _ => .ok a

/-- Sets switches that take no value, unless help is among them. -/
def Arguments.setFlags (a : Arguments) : List Switch → Reading
  | [] => .run a
  | .help :: _ => .help
  | .burst :: rest => setFlags { a with burst := true } rest
  | .trace :: rest => setFlags { a with trace := true } rest
  | .verbose :: rest => setFlags { a with verbose := true } rest
  | _ :: rest => setFlags a rest

/-- Reads the tokens that are left. `fileOpen` tells whether a file may still be named, and `extra`
holds what fits nowhere, the last first. A separator next to the file belongs to it. -/
def read (a : Arguments) (fileOpen : Bool) (extra : List String) :
    List Token → Except ArgumentError Reading
  | [] => if extra.isEmpty then .ok (.run a) else .error (.unrecognized extra.reverse)
  | .word text :: .separator :: rest =>
    if fileOpen then read { a with file := some text } false extra rest
    else read a false ("--" :: text :: extra) rest
  | .word text :: rest =>
    if fileOpen then read { a with file := some text } false extra rest
    else read a false (text :: extra) rest
  | .separator :: .word text :: rest =>
    if fileOpen then read { a with file := some text } false extra rest
    else read a false (text :: "--" :: extra) rest
  | .separator :: rest => read a false (if fileOpen then extra else "--" :: extra) rest
  | .unknown text :: rest => read a fileOpen (text :: extra) rest
  | .switch s short attached :: rest =>
    if s.takesValue then
      match attached, rest with
      | some value, rest => do read (← a.setValue s value) fileOpen extra rest
      | none, .word value :: rest => do read (← a.setValue s value) fileOpen extra rest
      | none, _ => .error (.missingValue s)
    else do
      match a.setFlags (← flags s short attached) with
      | .help => return .help
      | .run a => read a fileOpen extra rest

/-- Reads the command line. An ambiguous switch is told before anything else is looked at. -/
def parse (argv : List String) : Except ArgumentError Reading := do
  read {} true [] (← tokens argv)

end RingTape.CommandLine
