import EightBitAsm.CommandLine.System
import EightBitAsm.NameMap
import EightBitAsm.Text.Split

/-!
Trees: a file system of folders that stay and files that come and change. A path is followed name by
name, from the root or from the folder in which a run takes place, and every name but the last has
to lead to a folder. There are no links, so a place has one name only.
-/

namespace EightBitAsm.CommandLine

structure Path where
  absolute : Bool
  names : List String
  /-- Whether a slash stands behind the last name, which only fits a folder. -/
  closed : Bool
  deriving DecidableEq, Repr

/-- Names are what stands between slashes; slashes side by side count as one. -/
def Path.ofChars (cs : List Char) : Path where
  absolute := cs.head? == some '/'
  names := (Text.words (· == '/') cs).map String.ofList
  closed := cs.getLast? == some '/'

def maxNameBytes : Nat := 255

def maxPathBytes : Nat := 4095

def Path.ofText (text : String) : Except FileFault Path :=
  if text.isEmpty then .error .notFound
  else if text.utf8ByteSize ≤ maxPathBytes then .ok (.ofChars text.toList)
  else .error .nameTooLong

/-- The names that lead to a place from the root. -/
abbrev Place := List String

namespace Place

/-- Where a name leads from a folder. The root has nothing above it. -/
def follow (place : Place) (name : String) : Place :=
  if name = "." then place
  else if name = ".." then place.dropLast
  else place ++ [name]

def fileName (place : Place) : String :=
  "/" ++ Text.joinWith "/" place

end Place

abbrev Files := NameMap (List UInt8)

structure Tree where
  home : Place
  isFolder : Place → Bool

namespace Tree

variable (tree : Tree) (files : Files)

def start (path : Path) : Place :=
  if path.absolute then [] else tree.home

def blocked (place : Place) : FileFault :=
  if files.contains place.fileName then .notAFolder else .notFound

def walk (place : Place) : List String → Except FileFault Place
  | [] => .ok place
  | name :: rest =>
    if !tree.isFolder place then .error (blocked files place)
    else if name.utf8ByteSize ≤ maxNameBytes then walk (place.follow name) rest
    else .error .nameTooLong

/-- The name of the file, present or not, to which a path leads. -/
def locate (path : Path) : Except FileFault String := do
  let place ← tree.walk files (tree.start path) path.names
  if tree.isFolder place then .error .isAFolder else .ok place.fileName

def read (text : String) : Except FileFault (List UInt8) := do
  let path ← Path.ofText text
  let name ← tree.locate files path
  match files.find? name with
  | none => .error .notFound
  | some content => if path.closed then .error .notAFolder else .ok content

/-- Why no file can be written at a path that only fits a folder. The names before its last have to
lead to a folder; the last one is not looked at. -/
def refusal (path : Path) : FileFault :=
  match tree.walk files (tree.start path) path.names.dropLast with
  | .error fault => fault
  | .ok place => if tree.isFolder place then .isAFolder else blocked files place

def write (text : String) (content : List UInt8) : Except FileFault Files := do
  let path ← Path.ofText text
  if path.closed then .error (tree.refusal files path)
  else return files.insert (← tree.locate files path) content

def fileSystem : FileSystem Files where
  read files text := tree.read files text
  write files text content := match tree.write files text content with
    | .ok next => (.ok (), next)
    | .error fault => (.error fault, files)
  read_empty _ := ⟨.notFound, rfl⟩

end Tree

end EightBitAsm.CommandLine
