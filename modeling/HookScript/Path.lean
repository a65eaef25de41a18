import HookScript.Text.Utf8

/-!
Paths, as the system takes them: bytes, with slashes between the names.
-/

namespace HookScript

structure Path where
  bytes : List UInt8
  deriving DecidableEq, Repr

namespace Path

def slash : UInt8 := 0x2F

def ofText (text : String) : Path := ⟨Text.Utf8.encode text⟩

def text (path : Path) : String := Text.Utf8.decodeLenient path.bytes

def isAbsolute (path : Path) : Bool := path.bytes.head? = some slash

def join (directory path : Path) : Path :=
  if path.isAbsolute then path
  else if directory.bytes = [] ∨ directory.bytes.getLast? = some slash then ⟨directory.bytes ++ path.bytes⟩
  else ⟨directory.bytes ++ slash :: path.bytes⟩

/-- What stands before the last slash. The directory of a file below the root is the root. -/
def parent (path : Path) : Path :=
  match (path.bytes.reverse.dropWhile (· ≠ slash)).reverse with
  | [] => ⟨[]⟩
  | [root] => ⟨[root]⟩
  | directory => ⟨directory.dropLast⟩

end Path

end HookScript
