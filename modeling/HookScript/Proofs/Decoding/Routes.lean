import HookScript.Proofs.Contents.Documents
import HookScript.Proofs.Decoding.Parts

/-!
Routes to the elements of a document: through the name of each child element, and through its place in a list where it
is not the only one of its name. No two elements have the same route.
-/

namespace HookScript.Xml

def Event.label? : Event → Option String
  | .start name _ | .empty name _ => some (localName name)
  | .finish | .text _ | .cdata _ | .ignored | .malformed _ => none

/-- No element has the name of a key that elements have anyway. -/
def Plain (events : List Event) : Prop :=
  ∀ event ∈ events, event.label? ≠ some attributesKey ∧ event.label? ≠ some textKey

/-- The way to the document at an index among `count` ones that have come together under a name. -/
def stepsTo (name : String) (count index : Nat) : List Selector :=
  if count = 1 then [.member name] else [.member name, .item index]

namespace Node

variable {node child root : Node} {name : String} {i j : Nat} {path : List Nat}

def placed (node : Node) (name : String) : List (Node × Nat) :=
  node.content.zipIdx.filter fun child => child.1.label? = some name

def step (node : Node) (i : Nat) : List Selector :=
  match node.content[i]?.bind label? with
  | some name => stepsTo name (node.placed name).length (((node.placed name).map (·.2)).idxOf i)
  | none => []

theorem at?_append (there : root.at? path = some node) (path' : List Nat) :
    root.at? (path ++ path') = node.at? path' := by
  induction path generalizing root with
  | nil =>
    cases there
    rfl
  | cons i path ih =>
    obtain ⟨child, content, there⟩ := Option.bind_eq_some_iff.1 there
    rw [List.cons_append, at?, content, Option.bind_some, ih there]

/-! Elements with names of their own -/

end Node

end HookScript.Xml
