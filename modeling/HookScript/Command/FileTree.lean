import HookScript.Command.Json
import HookScript.Command.Xml
import HookScript.World

/-!
The world of the command: the files below the directory that it is given in, with a JSON and an XML reader. A directory
is there when a file lies under it. Outside the tree there are the directories above it and the places that every system
has; nothing is known of how the two meet, or of what else there is.
-/

namespace HookScript

namespace FileError

def notFound : FileError := ⟨"No such file or directory (os error 2)"⟩

def notADirectory : FileError := ⟨"Not a directory (os error 20)"⟩

def isADirectory : FileError := ⟨"Is a directory (os error 21)"⟩

def nameTooLong : FileError := ⟨"File name too long (os error 36)"⟩

def nulInName : FileError := ⟨"file name contained an unexpected NUL byte"⟩

end FileError

structure FileTree where
  /-- How the top of the tree is written. -/
  root : String
  files : List (List String × List UInt8)

namespace FileTree

inductive Place where
  | inside (path : List String)
  | above
  | system (path : List String)

inductive Kind where
  | file (bytes : List UInt8)
  | directory
  | missing

namespace Place

/-- One step up. The root of the system is above itself. -/
def up : Place → Place
  | inside [] => above
  | inside path => inside path.dropLast
  | above => above
  | system path => system path.dropLast

/-- One step down. There is no telling what lies beside the tree. -/
def child? : Place → String → Option Place
  | inside path, name => some (inside (path ++ [name]))
  | above, _ => none
  | system path, name => some (system (path ++ [name]))

end Place

def pathParts (text : List Char) : List (List Char) :=
  match text with
  | [] => [[]]
  | '/' :: rest => [] :: pathParts rest
  | c :: rest =>
    match pathParts rest with
    | first :: others => (c :: first) :: others
    | [] => [[c]]

def maxNameBytes : Nat := 255

/-- The bytes of a path that the system takes in one piece, without the mark at its end. -/
def maxPathBytes : Nat := 4095

def text (tree : FileTree) : Place → String
  | .inside path => "/".intercalate (tree.root :: path)
  | .above => ".."
  | .system path => "/" ++ "/".intercalate path

def standardDirectories : List String :=
  ["bin", "dev", "etc", "home", "lib", "media", "mnt", "opt", "proc", "root", "run", "sbin", "srv", "sys", "tmp",
    "usr", "var"]

/-- What every system has outside the tree. The null device reads as an empty file. -/
def systemKind : List String → Kind
  | [] => .directory
  | [name] => if name ∈ standardDirectories then .directory else .missing
  | ["dev", "null"] => .file []
  | _ => .missing

def kind (tree : FileTree) : Place → Kind
  | .above => .directory
  | .system path => systemKind path
  | .inside path =>
    match tree.files.lookup path with
    | some bytes => .file bytes
    | none =>
      if path = [] ∨ tree.files.any (fun entry => path.isPrefixOf entry.1) then .directory else .missing

/-- Goes on from `place` by one part of a path. Even an empty part asks for a directory. -/
def step (tree : FileTree) (place : Place) (part : String) : Except FileError Place :=
  match tree.kind place with
  | .file _ => .error .notADirectory
  | .missing => .error .notFound
  | .directory =>
    if part = "" ∨ part = "." then .ok place
    else if part = ".." then .ok place.up
    else if maxNameBytes < part.utf8ByteSize then .error .nameTooLong
    else
      match place.child? part with
      | none => .error .notFound
      | some next =>
        match tree.kind next with
        | .missing => .error .notFound
        | _ => .ok next

def start (tree : FileTree) (path : List Char) : Place × List Char :=
  if path = tree.root.toList ∨ (tree.root.toList ++ ['/']).isPrefixOf path then
    (.inside [], path.drop tree.root.length)
  else if path.head? = some '/' then (.system [], path)
  else (.inside [], path)

def locate (tree : FileTree) (path : Path) : Except FileError Place :=
  let text := path.text.toList
  if '\x00' ∈ text then .error .nulInName
  else if text = [] then .error .notFound
  else
    let (place, rest) := tree.start text
    (pathParts rest).foldlM (fun place part => tree.step place (String.ofList part)) place

def read (tree : FileTree) (place : Place) : Except FileError (List UInt8) :=
  match tree.kind place with
  | .file bytes => .ok bytes
  | .directory => .error .isADirectory
  | .missing => .error .notFound

/-- A path that is too long cannot be opened, whatever it names. -/
def openFile (tree : FileTree) (path : Path) : Except FileError (Except FileError (List UInt8)) := do
  if maxPathBytes < path.bytes.length then .error .nameTooLong
  else return tree.read (← tree.locate path)

def world (tree : FileTree) : World where
  canonicalize path := (tree.locate path).map fun place => .ofText (tree.text place)
  openFile := tree.openFile
  json body :=
    match Json.ofBytes? body with
    | some document => .ok document
    | none => .error Xml.unspecified
  xml := Xml.eventsOfBytes

instance : Coe FileTree World := ⟨world⟩

def ofList (root : String) (files : List (String × List UInt8)) : FileTree :=
  ⟨root, files.map fun (path, bytes) =>
    (((pathParts path.toList).map String.ofList).filter fun part => part ≠ "" ∧ part ≠ ".", bytes)⟩

end FileTree

/-- A path of names from the directory that the command is given in. -/
def Path.inside (names : List String) : Path := .ofText ("/".intercalate ("." :: names))

/-- What is written on its own is seen from that directory. -/
instance : Coe String Path := ⟨fun text => (Path.inside []).join (.ofText text)⟩

def Document.decode (format : BodyFormat) (body : List UInt8) : Except DecodeError Document :=
  (FileTree.world ⟨"", []⟩).decode format body

end HookScript
