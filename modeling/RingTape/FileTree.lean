import RingTape.Text.Encoding

/-!
Files. A tree of files is given by the paths of its files and directories from the directory where
it hangs. A path is walked one name at a time; what stands in the way first is told first.
-/

namespace RingTape

inductive FileError
  | notFound | isDirectory | notDirectory | nameTooLong | nullCharacter
  | other (reason : String)
  deriving DecidableEq, Repr

def FileError.message : FileError → String
  | .notFound => "No such file or directory"
  | .isDirectory => "Is a directory"
  | .notDirectory => "Not a directory"
  | .nameTooLong => "File name too long"
  | .nullCharacter => "embedded null byte"
  | .other reason => reason

inductive FileTree.Node
  | file (bytes : List UInt8)
  | directory
  deriving DecidableEq, Repr

structure FileTree where
  entries : List (List String × FileTree.Node)
  deriving Repr

namespace FileTree

def names (path : String) : List String := path.splitOn "/"

/-- A name has at most this many bytes. -/
def nameLimit : Nat := 255

/-- A path has fewer than this many bytes. -/
def pathLimit : Nat := 4096

/-- What stands at a place of the tree. A directory is there also when only something inside it is
given. -/
def node? (t : FileTree) (place : List String) : Option Node :=
  match t.entries.lookup place with
  | some n => some n
  | none => if t.entries.any fun e => place.isPrefixOf e.1 then some .directory else none

/-- Whether a name leads to no place with a name of its own. -/
def isMark (name : String) : Bool := name == "" || name == "." || name == ".."

/-- Walks on from a directory. `place` holds the names up to it, the last one first. Nothing is
known of what lies above the tree but that it is a directory. -/
def walk (t : FileTree) (place : List String) : List String → Except FileError (List UInt8)
  | [] => .error .isDirectory
  | name :: rest =>
    if name = "" ∨ name = "." then t.walk place rest
    else if name = ".." then
      match place with
      | [] => .error (if rest.all isMark then .isDirectory else .notFound)
      | _ :: place => t.walk place rest
    else if nameLimit < name.utf8ByteSize then .error .nameTooLong
    else
      match t.node? (name :: place).reverse with
      | none => .error .notFound
      | some .directory => t.walk (name :: place) rest
      | some (.file bytes) => if rest.isEmpty then .ok bytes else .error .notDirectory

def read (t : FileTree) (path : String) : Except FileError (List UInt8) :=
  if path.contains '\x00' then .error .nullCharacter
  else if pathLimit ≤ path.utf8ByteSize then .error .nameTooLong
  else
    match names path with
    | [""] => .error .notFound
    | "" :: rest => .error (if rest.all isMark then .isDirectory else .notFound)
    | names => t.walk [] names

def plainPath (path : String) : String :=
  let kept := (names path).filter fun n => n ≠ "" ∧ n ≠ "."
  let root := if path.startsWith "/" then "/" else ""
  if kept.isEmpty ∧ root = "" then "." else root ++ "/".intercalate kept

end FileTree

inductive TextFileError
  | file (e : FileError)
  | codec (e : Text.CodecError)
  deriving DecidableEq, Repr

namespace FileTree

/-- The text of the file at a path, with its line ends unified. The file is opened before the
encoding is looked up. -/
def readText (t : FileTree) (path encoding : String) : Except TextFileError String :=
  match t.read (plainPath path) with
  | .error e => .error (.file e)
  | .ok bytes =>
    match Text.Encoding.ofName? encoding with
    | none => .error (.codec (.unknownEncoding encoding))
    | some e => (e.text .unified bytes).mapError .codec

end FileTree

end RingTape
