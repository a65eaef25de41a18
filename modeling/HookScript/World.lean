import HookScript.Document.Xml.Tree
import HookScript.Path

/-!
The world around the interpreters: the files of the system and the libraries that read JSON and XML. Nothing is known
of what they answer, but they answer the same all the time.
-/

namespace HookScript

structure World where
  /-- The canonical path of what there is at a path, through links and all. -/
  canonicalize : Path → Except FileError Path
  /-- Opening what there is at a path, and reading it once it is open. -/
  openFile : Path → Except FileError (Except FileError (List UInt8))
  /-- The value in a JSON text, or the message of the error. Numbers are rounded as the library does it. -/
  json : List UInt8 → Except String Document
  /-- What the XML reader delivers, one event after another. -/
  xml : List UInt8 → List Xml.Event

namespace World

variable (world : World)

def resolve (directory : Path) (text : String) : Except FileError Path :=
  world.canonicalize (directory.join (.ofText text))

def resolveFrom (directory : Option Path) (text : String) : Except FileError Path :=
  world.resolve (directory.getD ⟨[]⟩) text

def read (path : Path) : Except FileError (List UInt8) := do
  let opened ← world.openFile path
  opened

def readText (path : Path) : Except FileError String := do
  let bytes ← world.read path
  match Text.Utf8.decode? bytes with
  | some text => .ok text
  | none => .error .notText

def decode (format : BodyFormat) (body : List UInt8) : Except DecodeError Document :=
  match format with
  | .json =>
    match world.json body with
    | .ok document => .ok document
    | .error message => .error (.malformed message)
  | .xml => Xml.build (world.xml body) []

end World

end HookScript
