import RingTape.CommandLine.Session

/-!
The program: the command line, with the files and the standard streams of the system. Output is
shown as the program writes it, and all of the standard input is read first if it can matter. Its
line ends are kept, as on every system where a line feed ends a line.
-/

open RingTape RingTape.CommandLine

namespace RingTape.Main

/-- What an error number of the system says about a file. The number may come with its sign turned
round. -/
def fileErrorOfCode (code : UInt32) (reason : String) : FileError :=
  let number := min code (0 - code)
  if number = 20 then .notDirectory
  else if number = 21 then .isDirectory
  else if number = 36 then .nameTooLong
  else .other reason

def fileError : IO.Error → FileError
  | .noFileOrDirectory .. => .notFound
  | .inappropriateType _ code reason | .permissionDenied _ code reason
  | .invalidArgument _ code reason | .resourceExhausted _ code reason
  | .noSuchThing _ code reason | .otherError code reason => fileErrorOfCode code reason
  | e => .other (toString e)

def readFile (path : String) : IO (Except FileError (List UInt8)) := do
  try return .ok (← IO.FS.readBinFile path).toList
  catch e => return .error (fileError e)

def readNamed (argv : List String) : IO (Except FileError (List UInt8)) :=
  match parse argv with
  | .ok (.run a) => match a.path? with
    | some path => readFile path
    | none => return .error .notFound
  | _ => return .error .notFound

/-- Works until the session is over; `shown` characters of the output are on the screen. -/
partial def drive (shown : Nat) (s : Session) : IO UInt32 := do
  let out ← IO.getStdout
  match s with
  | .settled e =>
    out.putStr (String.ofList (e.out.toList.drop shown))
    out.flush
    IO.eprint e.err
    match e.exit with
    | .ok code => return code.toUInt32
    | .error crash =>
      IO.eprintln crash.message
      return 1
  | .working .. =>
    out.putStr (textOfBytes (s.bytes.extract shown s.bytes.size))
    out.flush
    drive s.bytes.size (s.advance 65536)

end RingTape.Main

def main (argv : List String) : IO UInt32 := do
  let file ← Main.readNamed argv
  let read := fun _ => file
  let stdin ← if Session.wantsInput argv read then
      pure (← (← IO.getStdin).readBinToEnd).toList
    else pure []
  Main.drive 0 (.begin argv read stdin .kept)
