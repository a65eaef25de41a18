import HookScript.Proofs.Isolation.Contents

/-!
Which lists and objects are reached from a value, and what changes of lists and objects are seen from it. Whoever
reaches none of the lists and objects that are changed sees no change.
-/

namespace HookScript

def Value.container? : Value → Option Container
  | list id => some (.list id)
  | object id => some (.object id)
  | _ => none

inductive Change where
  | newList (items : Array Value)
  | newObject (properties : Table Value)
  | push (id : ListId) (value : Value)
  | setItem (id : ListId) (index : Nat) (value : Value)
  | removeItem (id : ListId) (index : Nat)
  | putProperty (id : ObjectId) (name : String) (value : Value)

def Change.target? : Change → Option Container
  | newList _ | newObject _ => none
  | push id _ | setItem id _ _ | removeItem id _ => some (.list id)
  | putProperty id _ _ => some (.object id)

namespace Heap

def inside (heap : Heap) : Container → List Value
  | .list id => (heap.items id).toList
  | .object id => (heap.properties id).entries.map (·.2)

inductive Reaches (heap : Heap) (value : Value) : Container → Prop
  | here {k : Container} (is : value.container? = some k) : Reaches heap value k
  | onward {k inner : Container} {held : Value} (reached : Reaches heap value k) (mem : held ∈ heap.inside k)
    (is : held.container? = some inner) : Reaches heap value inner

def SameIn (heap heap' : Heap) : Container → Prop
  | .list id => heap'.items id = heap.items id
  | .object id => heap'.properties id = heap.properties id

structure SameFrom (heap heap' : Heap) (value : Value) : Prop where
  reaches (k : Container) : heap'.Reaches value k ↔ heap.Reaches value k
  same (k : Container) (reached : heap.Reaches value k) : heap.SameIn heap' k

def change (heap : Heap) : Change → Heap
  | .newList items => (heap.newList items).2
  | .newObject properties => (heap.newObject properties).2
  | .push id value => heap.push id value
  | .setItem id index value => heap.setItem id index value
  | .removeItem id index => heap.removeItem id index
  | .putProperty id name value => heap.putProperty id name value

def changeAll (heap : Heap) (changes : List Change) : Heap := changes.foldl change heap

variable {heap heap' heap₁ : Heap} {value : Value} {k : Container}

theorem SameIn.refl (heap : Heap) (k : Container) : heap.SameIn heap k := by
  cases k <;> rfl

theorem SameIn.trans (first : heap.SameIn heap₁ k) (second : heap₁.SameIn heap' k) : heap.SameIn heap' k := by
  cases k with
  | list id => exact Eq.trans second first
  | object id => exact Eq.trans second first

theorem SameIn.inside_eq (same : heap.SameIn heap' k) : heap'.inside k = heap.inside k := by
  cases k with
  | list id => exact congrArg Array.toList same
  | object id => exact congrArg (fun properties => properties.entries.map (·.2)) same

theorem sameFrom_of_sameIn (same : ∀ k, heap.Reaches value k → heap.SameIn heap' k) : heap.SameFrom heap' value := by
  refine ⟨fun k => ⟨fun reached => ?_, fun reached => ?_⟩, same⟩
  · induction reached with
    | here is => exact .here is
    | onward _ mem is ih => exact .onward ih ((same _ ih).inside_eq ▸ mem) is
  · induction reached with
    | here is => exact .here is
    | onward earlier mem is ih => exact .onward ih ((same _ earlier).inside_eq.symm ▸ mem) is

/-! In a closed heap, what is reached from a value of the heap is in the heap. -/

theorem mem_containers_of_container? (within : value.In heap) (is : value.container? = some k) :
    k ∈ heap.containers := by
  cases value with
  | list id =>
    cases is
    exact heap.mem_containers_list.2 within
  | object id =>
    cases is
    exact heap.mem_containers_object.2 within
  | _ => cases is

theorem Closed.inside (closed : heap.Closed) (k : Container) : ∀ held ∈ heap.inside k, held.In heap := by
  cases k with
  | list id => exact fun held mem => closed.items id held (Array.mem_toList_iff.1 mem)
  | object id => exact List.forall_mem_map.2 fun entry mem => closed.properties id entry mem

theorem mem_containers_of_reaches (closed : heap.Closed) (within : value.In heap) (reached : heap.Reaches value k) :
    k ∈ heap.containers := by
  induction reached with
  | here is => exact mem_containers_of_container? within is
  | onward _ mem is _ => exact mem_containers_of_container? (closed.inside _ _ mem) is

/-! Changes -/

theorem Larger.mem_containers (larger : heap.Larger heap') (mem : k ∈ heap.containers) : k ∈ heap'.containers := by
  cases k with
  | list id => exact heap'.mem_containers_list.2 (Nat.lt_of_lt_of_le (heap.mem_containers_list.1 mem) larger.lists)
  | object id =>
    exact heap'.mem_containers_object.2 (Nat.lt_of_lt_of_le (heap.mem_containers_object.1 mem) larger.objects)

theorem larger_change (heap : Heap) (change : Change) : heap.Larger (heap.change change) := by
  cases change with
  | newList items => exact larger_newList heap items
  | newObject properties => exact larger_newObject heap properties
  | push | setItem | removeItem => exact larger_of_size Array.size_modify rfl
  | putProperty => exact larger_of_size rfl Array.size_modify

theorem items_modify_of_ne {id other : ListId} (apart : Container.list other ≠ .list id) (f : Array Value → Array Value) :
    ({ heap with lists := heap.lists.modify other.index f } : Heap).items id = heap.items id := by
  have different : other.index ≠ id.index := fun same => apart (congrArg (fun i => Container.list ⟨i⟩) same)
  simp only [items, Array.getD_eq_getD_getElem?, Array.getElem?_modify, different, if_false]

theorem properties_modify_of_ne {id other : ObjectId} (apart : Container.object other ≠ .object id)
    (f : Table Value → Table Value) :
    ({ heap with objects := heap.objects.modify other.index f } : Heap).properties id = heap.properties id := by
  have different : other.index ≠ id.index := fun same => apart (congrArg (fun i => Container.object ⟨i⟩) same)
  simp only [properties, Array.getD_eq_getD_getElem?, Array.getElem?_modify, different, if_false]

theorem items_newList {id : ListId} (inside : id.index < heap.lists.size) (items : Array Value) :
    (heap.newList items).2.items id = heap.items id := by
  simp only [Heap.items, newList, Array.getD_eq_getD_getElem?, Array.getElem?_push_lt inside,
    Array.getElem?_eq_getElem inside]

theorem properties_newObject {id : ObjectId} (inside : id.index < heap.objects.size) (properties : Table Value) :
    (heap.newObject properties).2.properties id = heap.properties id := by
  simp only [Heap.properties, newObject, Array.getD_eq_getD_getElem?, Array.getElem?_push_lt inside,
    Array.getElem?_eq_getElem inside]

theorem sameIn_change (change : Change) (mem : k ∈ heap.containers) (apart : change.target? ≠ some k) :
    heap.SameIn (heap.change change) k := by
  cases k with
  | list id =>
    cases change with
    | newList items => exact items_newList (heap.mem_containers_list.1 mem) items
    | newObject | putProperty => rfl
    | push | setItem | removeItem => exact items_modify_of_ne (fun same => apart (congrArg some same)) _
  | object id =>
    cases change with
    | newObject properties => exact properties_newObject (heap.mem_containers_object.1 mem) properties
    | putProperty => exact properties_modify_of_ne (fun same => apart (congrArg some same)) _
    | newList | push | setItem | removeItem => rfl

theorem sameIn_changeAll {changes : List Change} (mem : k ∈ heap.containers)
    (apart : ∀ change ∈ changes, change.target? ≠ some k) : heap.SameIn (heap.changeAll changes) k := by
  induction changes generalizing heap with
  | nil => exact .refl heap k
  | cons change rest ih =>
    obtain ⟨here, others⟩ := List.forall_mem_cons.1 apart
    exact (sameIn_change _ mem here).trans (ih ((larger_change heap change).mem_containers mem) others)

theorem sameFrom_changeAll (closed : heap.Closed) (within : value.In heap) {changes : List Change}
    (apart : ∀ change ∈ changes, ∀ k ∈ change.target?, ¬heap.Reaches value k) :
    heap.SameFrom (heap.changeAll changes) value :=
  sameFrom_of_sameIn fun k reached =>
    sameIn_changeAll (mem_containers_of_reaches closed within reached) fun change mem target =>
      apart change mem k target reached

end Heap

end HookScript
