import HookScript.Heap.Outline

/-!
Deep copies. Every list and object that can be reached is copied once, so the copy has the same shape, cycles
and sharing included. Methods and callables are not copied.
-/

namespace HookScript

structure Copying where
  heap : Heap
  lists : List (ListId × ListId)
  objects : List (ObjectId × ObjectId)

namespace Copying

def beginList (c : Copying) (id : ListId) : ListId × Copying :=
  let (copy, heap) := c.heap.newList #[]
  (copy, { c with heap, lists := (id, copy) :: c.lists })

def beginObject (c : Copying) (id : ObjectId) : ObjectId × Copying :=
  let (copy, heap) := c.heap.newObject .empty
  (copy, { c with heap, objects := (id, copy) :: c.objects })

def copyEach (copy : Value → Copying → Value × Copying) : List Value → Copying → List Value × Copying
  | [], c => ([], c)
  | value :: rest, c =>
    let (first, c) := copy value c
    let (others, c) := copyEach copy rest c
    (first :: others, c)

/-- The copy of a value, at most `depth` containers deep. -/
def copyWithin : Nat → Value → Copying → Value × Copying
  | 0, value, c => (value, c)
  | depth + 1, .list id, c =>
    match c.lists.lookup id with
    | some copy => (.list copy, c)
    | none =>
      let (copy, c) := c.beginList id
      let (items, c) := copyEach (copyWithin depth) (c.heap.items id).toList c
      (.list copy, { c with heap := c.heap.setItems copy items.toArray })
  | depth + 1, .object id, c =>
    match c.objects.lookup id with
    | some copy => (.object copy, c)
    | none =>
      let entries := (c.heap.properties id).entries
      let (copy, c) := c.beginObject id
      let (values, c) := copyEach (copyWithin depth) (entries.map (·.2)) c
      let properties := Table.ofList ((entries.map (·.1)).zip values)
      (.object copy, { c with heap := c.heap.setProperties copy properties })
  | _ + 1, value, c => (value, c)

end Copying

namespace Heap

def deepCopy (heap : Heap) (value : Value) : Value × Heap :=
  let (copy, c) := Copying.copyWithin (heap.containerCount + 1) value ⟨heap, [], []⟩
  (copy, c.heap)

end Heap

end HookScript
