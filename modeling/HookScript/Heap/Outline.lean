import HookScript.Heap.Basic
import HookScript.Text.Quoted

/-!
What can be seen of a value: the tree of its contents, cut where a list or an object comes up again inside
itself. The text of a value is the text of that tree.
-/

namespace HookScript

inductive Outline where
  | nil
  | number (x : Float)
  | string (s : String)
  | boolean (b : Bool)
  | list (items : List Outline)
  | object (properties : List (String × Outline))
  | method (text : String) (arity : Nat)
  | callable (text : String) (arity : Nat)
  | openList
  | openObject

namespace Outline

instance : Inhabited Outline := ⟨nil⟩

mutual

def text : Outline → String
  | nil => "nil"
  | number x => Number.text x
  | string s => s
  | boolean true => "true"
  | boolean false => "false"
  | list items => "[" ++ ",".intercalate (itemTexts items) ++ "]"
  | object properties => "Object \x7b" ++ ", ".intercalate (propertyTexts properties) ++ "\x7d"
  | method text _ => text
  | callable text _ => text
  | openList => "[...]"
  | openObject => "Object \x7b...\x7d"

def itemTexts : List Outline → List String
  | [] => []
  | first :: rest => first.text :: itemTexts rest

def propertyTexts : List (String × Outline) → List String
  | [] => []
  | (name, value) :: rest => (name ++ ": " ++ value.text) :: propertyTexts rest

end

end Outline

inductive Container where
  | list (id : ListId)
  | object (id : ObjectId)
  deriving DecidableEq, Repr

namespace Heap

/-- No path goes through more containers than this before it meets one again. -/
def containerCount (heap : Heap) : Nat := heap.lists.size + heap.objects.size

/-- The outline of a value inside the containers `around`, at most `depth` containers deep. -/
def outlineWithin (heap : Heap) : Nat → List Container → Value → Outline
  | _, _, .nil => .nil
  | _, _, .number x => .number x
  | _, _, .string s => .string s
  | _, _, .boolean b => .boolean b
  | _, _, .method id =>
    match heap.method? id with
    | some method => .method method.text method.arity
    | none => .nil
  | _, _, .callable id =>
    match heap.callable? id with
    | some callable => .callable callable.text callable.arity
    | none => .nil
  | 0, _, .list _ => .openList
  | 0, _, .object _ => .openObject
  | depth + 1, around, .list id =>
    if .list id ∈ around then .openList
    else .list ((heap.items id).toList.map (outlineWithin heap depth (.list id :: around)))
  | depth + 1, around, .object id =>
    if .object id ∈ around then .openObject
    else
      .object ((heap.properties id).entries.map fun entry =>
        (entry.1, outlineWithin heap depth (.object id :: around) entry.2))

def outline (heap : Heap) (value : Value) : Outline := heap.outlineWithin (heap.containerCount + 1) [] value

def text (heap : Heap) (value : Value) : String := (heap.outline value).text

def listingText (heap : Heap) (value : Value) : String :=
  match value with
  | .nil => "Nil"
  | .number x => "Number(" ++ Number.listing x ++ ")"
  | .string s => "String(" ++ Text.quoted s ++ ")"
  | .boolean true => "Boolean(true)"
  | .boolean false => "Boolean(false)"
  | .list _ => "List(" ++ heap.text value ++ ")"
  | .object _ => "Instance(" ++ heap.text value ++ ")"
  | .method _ | .callable _ => "<" ++ heap.text value ++ ">"

end Heap

end HookScript
