import HookScript.Text.Utf8

/-!
Events of an XML reader. Whether names match is up to the reader, which delivers an error where they do not.
-/

namespace HookScript.Xml

inductive Event where
  | start (name : List UInt8) (attributes : List (String × String))
  | empty (name : List UInt8) (attributes : List (String × String))
  | finish
  | text (text : String)
  | cdata (text : String)
  | ignored
  | malformed (message : String)
  deriving DecidableEq, Repr

def colon : UInt8 := 0x3A

/-- The name after the first colon, or all of it. -/
def localName (name : List UInt8) : String :=
  Text.Utf8.decodeLenient (if colon ∈ name then (name.dropWhile (· ≠ colon)).drop 1 else name)

end HookScript.Xml
