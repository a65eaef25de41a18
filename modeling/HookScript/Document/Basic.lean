import HookScript.Heap.Basic

/-!
Decoded documents: plain trees that hold no identity until they are put into a heap, where every list and
every object of the tree becomes a new one.
-/

namespace HookScript

inductive Document where
  | nil
  | boolean (b : Bool)
  | number (x : Float)
  | string (s : String)
  | list (items : List Document)
  | object (members : List (String × Document))

instance : Inhabited Document := ⟨.nil⟩

namespace Heap

mutual

def ofDocument (heap : Heap) : Document → Value × Heap
  | .nil => (.nil, heap)
  | .boolean b => (.boolean b, heap)
  | .number x => (.number x, heap)
  | .string s => (.string s, heap)
  | .list items =>
    let (values, heap) := ofDocuments heap items
    let (id, heap) := heap.newList values.toArray
    (.list id, heap)
  | .object members =>
    let (entries, heap) := ofMembers heap members
    let (id, heap) := heap.newObject (.ofList entries)
    (.object id, heap)

def ofDocuments (heap : Heap) : List Document → List Value × Heap
  | [] => ([], heap)
  | first :: rest =>
    let (value, heap) := ofDocument heap first
    let (values, heap) := ofDocuments heap rest
    (value :: values, heap)

def ofMembers (heap : Heap) : List (String × Document) → List (String × Value) × Heap
  | [] => ([], heap)
  | (name, first) :: rest =>
    let (value, heap) := ofDocument heap first
    let (entries, heap) := ofMembers heap rest
    ((name, value) :: entries, heap)

end

end Heap

end HookScript
