import HookScript.Document.Basic
import HookScript.Document.Xml.Event
import HookScript.Text.Blank

/-!
XML documents. An element becomes an object with its attributes under `_attributes`, its text under `_inner`
and its child elements under their local names; children of one name come together in a list. The document
ends with its first element.
-/

namespace HookScript.Xml

structure OpenElement where
  name : List UInt8
  properties : Table Document

def attributesKey : String := "_attributes"

def textKey : String := "_inner"

def ofAttributes (attributes : List (String × String)) : Table Document :=
  let members := attributes.map fun (name, value) => (name, Document.string value)
  Table.empty.insert attributesKey (.object (Table.ofList members).entries)

def document (properties : Table Document) : Document := .object properties.entries

/-- A second value under a name makes a list of the first and the second; a list there takes the value in. -/
def attach (properties : Table Document) (name : String) (child : Document) : Table Document :=
  match properties.get? name with
  | none => properties.insert name child
  | some (.list siblings) => properties.insert name (.list (siblings ++ [child]))
  | some existing => properties.insert name (.list [existing, child])

namespace OpenElement

def attach (element : OpenElement) (name : List UInt8) (child : Table Document) : OpenElement :=
  { element with properties := Xml.attach element.properties (localName name) (document child) }

/-- Text takes the place of whatever is under the key. -/
def putText (element : OpenElement) (text : String) : OpenElement :=
  { element with properties := element.properties.insert textKey (.string text) }

end OpenElement

/-- The first element of the events inside the elements that are `around`, innermost first. -/
def build : List Event → List OpenElement → Except DecodeError Document
  | [], _ => .error .unexpectedEnd
  | .malformed message :: _, _ => .error (.malformed message)
  | .ignored :: rest, around => build rest around
  | .start name attributes :: rest, around => build rest (⟨name, ofAttributes attributes⟩ :: around)
  | .empty _ attributes :: _, [] => .ok (document (ofAttributes attributes))
  | .empty name attributes :: rest, parent :: around =>
    build rest (parent.attach name (ofAttributes attributes) :: around)
  | .finish :: _, [] => .error .unexpectedClosing
  | .finish :: _, [element] => .ok (document element.properties)
  | .finish :: rest, element :: parent :: around =>
    build rest (parent.attach element.name element.properties :: around)
  | .text _ :: rest, [] => build rest []
  | .text text :: rest, element :: around =>
    build rest ((if Text.isAllBlank text then element else element.putText text) :: around)
  | .cdata _ :: rest, [] => build rest []
  | .cdata text :: rest, element :: around => build rest (element.putText text :: around)

end HookScript.Xml
