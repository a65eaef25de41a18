import HookScript.Document.Basic
import HookScript.Proofs.Run.Frames

/-!
Closed heaps: whatever list or object a heap refers to is one of its own. Heaps only become larger, so a value of a
heap stays one.
-/

namespace HookScript

structure Heap.Larger (heap heap' : Heap) : Prop where
  lists : heap.lists.size ≤ heap'.lists.size
  objects : heap.objects.size ≤ heap'.objects.size

theorem Heap.Larger.refl (heap : Heap) : heap.Larger heap := ⟨Nat.le_refl _, Nat.le_refl _⟩

theorem Heap.Larger.trans {heap heap₁ heap₂ : Heap} (first : heap.Larger heap₁) (second : heap₁.Larger heap₂) :
    heap.Larger heap₂ :=
  ⟨Nat.le_trans first.lists second.lists, Nat.le_trans first.objects second.objects⟩

def Value.In (heap : Heap) : Value → Prop
  | list id => id.index < heap.lists.size
  | object id => id.index < heap.objects.size
  | _ => True

theorem Value.In.mono {heap heap' : Heap} {value : Value} (within : value.In heap) (larger : heap.Larger heap') :
    value.In heap' := by
  cases value with
  | list id => exact Nat.lt_of_lt_of_le within larger.lists
  | object id => exact Nat.lt_of_lt_of_le within larger.objects
  | _ => trivial

def Table.All (P : Value → Prop) (table : Table Value) : Prop := ∀ entry ∈ table.entries, P entry.2

def Callable.All (P : Value → Prop) : Callable → Prop
  | bound _ receiver => P receiver
  | _ => True

theorem Callable.All.mono {P Q : Value → Prop} {callable : Callable} (all : callable.All P)
    (weaker : ∀ value, P value → Q value) : callable.All Q := by
  cases callable with
  | bound method receiver => exact weaker receiver all
  | _ => trivial

namespace Table.All

variable {P Q : Value → Prop} {table : Table Value} {name : String} {value : Value}

theorem mono (all : table.All P) (weaker : ∀ value, P value → Q value) : table.All Q :=
  fun entry mem => weaker _ (all entry mem)

theorem empty : Table.empty.All P := fun _ mem => nomatch mem

theorem insert (all : table.All P) (here : P value) : (table.insert name value).All P := by
  intro entry mem
  rcases mem_insertEntry mem with rfl | old
  · exact here
  · exact all entry old

theorem ofList {entries : List (String × Value)} (all : ∀ entry ∈ entries, P entry.2) :
    (Table.ofList entries).All P := by
  have foldl (table : Table Value) (start : table.All P) :
      (entries.foldl (fun table entry => table.insert entry.1 entry.2) table).All P := by
    induction entries generalizing table with
    | nil => exact start
    | cons entry rest ih =>
      obtain ⟨first, others⟩ := List.forall_mem_cons.1 all
      exact ih others _ (start.insert first)
  exact foldl .empty empty

theorem get? (all : table.All P) (found : table.get? name = some value) : P value := by
  obtain ⟨before, after, split, -⟩ := List.lookup_eq_some_iff.1 found
  exact all (name, value) (split ▸ by simp)

end Table.All

/-! What holds of every entry of an array, under changes of entries. -/

section

variable {α : Type} {P : α → Prop} {xs : Array α} {x : α} {i : Nat}

theorem forall_mem_push (all : ∀ y ∈ xs, P y) (last : P x) : ∀ y ∈ xs.push x, P y := by
  intro y mem
  rcases Array.mem_push.1 mem with old | rfl
  · exact all y old
  · exact last

theorem forall_mem_setIfInBounds (all : ∀ y ∈ xs, P y) (here : P x) : ∀ y ∈ xs.setIfInBounds i x, P y := by
  intro y mem
  rcases Array.mem_or_eq_of_mem_setIfInBounds mem with old | rfl
  · exact all y old
  · exact here

theorem forall_mem_modify {f : α → α} (all : ∀ y ∈ xs, P y) (kept : ∀ y, P y → P (f y)) :
    ∀ y ∈ xs.modify i f, P y := by
  intro y mem
  obtain ⟨j, found⟩ := Array.mem_iff_getElem?.1 mem
  rw [Array.getElem?_modify] at found
  split at found
  · obtain ⟨z, old, rfl⟩ := Option.map_eq_some_iff.1 found
    exact kept z (all z (Array.mem_of_getElem? old))
  · exact all y (Array.mem_of_getElem? found)

end

namespace Heap

structure All (P : Value → Prop) (heap : Heap) : Prop where
  frames : ∀ frame ∈ heap.frames, frame.names.All P
  lists : ∀ items ∈ heap.lists, ∀ item ∈ items, P item
  objects : ∀ properties ∈ heap.objects, properties.All P
  callables : ∀ callable ∈ heap.callables, callable.All P
  decoders : ∀ decoder ∈ heap.decoders, ∀ value ∈ decoder.decoded, P value

/-- A heap that refers to lists and objects of its own only. -/
def Closed (heap : Heap) : Prop := heap.All (·.In heap)

variable {heap heap' : Heap} {P Q : Value → Prop} {value : Value} {name : String} {frame : FrameId}

namespace All

theorem mono (all : heap.All P) (weaker : ∀ value, P value → Q value) : heap.All Q where
  frames frame mem := (all.frames frame mem).mono weaker
  lists items mem item inside := weaker _ (all.lists items mem item inside)
  objects properties mem := (all.objects properties mem).mono weaker
  callables callable mem := (all.callables callable mem).mono weaker
  decoders decoder mem value decoded := weaker _ (all.decoders decoder mem value decoded)

theorem empty : Heap.empty.All P := by
  constructor <;> exact fun _ mem => absurd mem (Array.not_mem_empty _)

variable (all : heap.All P)
include all

theorem binding? (bound : heap.binding? frame name = some value) : P value := by
  unfold Heap.binding? at bound
  split at bound
  · next f found => exact (all.frames f (Array.mem_of_getElem? found)).get? bound
  · cases bound

theorem get? {level : Nat} (found : heap.get? frame level name = some value) : P value := by
  unfold Heap.get? at found
  split at found
  · next v bound =>
    cases found
    obtain ⟨f, -, bound⟩ := Option.bind_eq_some_iff.1 bound
    exact all.binding? bound
  · obtain ⟨f, -, bound⟩ := List.exists_of_findSome?_eq_some found
    exact all.binding? bound

theorem items (id : ListId) : ∀ item ∈ heap.items id, P item := by
  rw [Heap.items, Array.getD_eq_getD_getElem?]
  cases found : heap.lists[id.index]? with
  | none => exact fun _ mem => absurd mem (Array.not_mem_empty _)
  | some items => exact all.lists items (Array.mem_of_getElem? found)

theorem properties (id : ObjectId) : (heap.properties id).All P := by
  rw [Heap.properties, Array.getD_eq_getD_getElem?]
  cases found : heap.objects[id.index]? with
  | none => exact Table.All.empty
  | some properties => exact all.objects properties (Array.mem_of_getElem? found)

theorem callable? {id : CallableId} {callable : Callable} (found : heap.callable? id = some callable) :
    callable.All P :=
  all.callables callable (Array.mem_of_getElem? found)

theorem decoder? {id : DecoderId} {decoder : Decoder} (found : heap.decoder? id = some decoder) :
    ∀ value ∈ decoder.decoded, P value :=
  all.decoders decoder (Array.mem_of_getElem? found)

theorem newFrame (parent : Option FrameId) : (heap.newFrame parent).2.All P :=
  { all with frames := forall_mem_push all.frames .empty }

theorem declare (here : P value) : (heap.declare frame name value).All P := by
  refine { all with frames := ?_ }
  simp only [Heap.declare]
  exact forall_mem_modify all.frames fun _ names => names.insert here

theorem declareAll {entries : List (String × Value)} (here : ∀ entry ∈ entries, P entry.2) :
    (heap.declareAll frame entries).All P := by
  induction entries generalizing heap with
  | nil => exact all
  | cons entry rest ih =>
    obtain ⟨first, others⟩ := List.forall_mem_cons.1 here
    exact ih (all.declare first) others

theorem newList {items : Array Value} (here : ∀ item ∈ items, P item) : (heap.newList items).2.All P :=
  { all with lists := forall_mem_push all.lists here }

theorem setItems {id : ListId} {items : Array Value} (here : ∀ item ∈ items, P item) :
    (heap.setItems id items).All P :=
  { all with lists := forall_mem_setIfInBounds all.lists here }

theorem push {id : ListId} (here : P value) : (heap.push id value).All P :=
  { all with lists := forall_mem_modify all.lists fun _ items => forall_mem_push items here }

theorem setItem {id : ListId} {index : Nat} (here : P value) : (heap.setItem id index value).All P :=
  { all with lists := forall_mem_modify all.lists fun _ items => forall_mem_setIfInBounds items here }

theorem removeItem {id : ListId} {index : Nat} : (heap.removeItem id index).All P := by
  refine { all with lists := ?_ }
  simp only [Heap.removeItem]
  refine forall_mem_modify all.lists fun items inside item mem => ?_
  rw [← Array.mem_toList_iff, Array.toList_eraseIdxIfInBounds] at mem
  exact inside item (Array.mem_toList_iff.1 (List.mem_of_mem_eraseIdx mem))

theorem newObject {properties : Table Value} (here : properties.All P) : (heap.newObject properties).2.All P :=
  { all with objects := forall_mem_push all.objects here }

theorem setProperties {id : ObjectId} {properties : Table Value} (here : properties.All P) :
    (heap.setProperties id properties).All P :=
  { all with objects := forall_mem_setIfInBounds all.objects here }

theorem putProperty {id : ObjectId} (here : P value) : (heap.putProperty id name value).All P :=
  { all with objects := forall_mem_modify all.objects fun _ properties => properties.insert here }

theorem newMethod (method : Method) : (heap.newMethod method).2.All P := { all with }

theorem newCallable {callable : Callable} (here : callable.All P) : (heap.newCallable callable).2.All P :=
  { all with callables := forall_mem_push all.callables here }

theorem remember {id : DecoderId} (here : P value) : (heap.remember id value).All P := by
  refine { all with decoders := ?_ }
  simp only [Heap.remember]
  refine forall_mem_modify all.decoders fun decoder _ other decoded => ?_
  cases decoded
  exact here

end All

theorem Closed.all (closed : heap.Closed) (larger : heap.Larger heap') : heap.All (·.In heap') :=
  closed.mono fun _ within => within.mono larger

namespace Closed

variable (closed : heap.Closed)
include closed

theorem newFrame (parent : Option FrameId) : (heap.newFrame parent).2.Closed := All.newFrame closed parent

theorem declare (within : value.In heap) : (heap.declare frame name value).Closed := All.declare closed within

theorem newMethod (method : Method) : (heap.newMethod method).2.Closed := All.newMethod closed method

theorem newCallable {callable : Callable} (within : callable.All (·.In heap)) :
    (heap.newCallable callable).2.Closed := All.newCallable closed within

theorem remember {id : DecoderId} (within : value.In heap) : (heap.remember id value).Closed :=
  All.remember closed within

theorem item (id : ListId) (i : Nat) : ((heap.items id).getD i .nil).In heap := by
  rw [Array.getD_eq_getD_getElem?]
  cases found : (heap.items id)[i]? with
  | none => trivial
  | some item => exact closed.items id item (Array.mem_of_getElem? found)

theorem property (id : ObjectId) (name : String) :
    (heap.property id name).In heap := by
  rw [Heap.property]
  cases found : (heap.properties id).get? name with
  | none => trivial
  | some value => exact (closed.properties id).get? found

end Closed

/-! No operation takes a list or an object away. -/

theorem larger_of_size (lists : heap'.lists.size = heap.lists.size) (objects : heap'.objects.size = heap.objects.size) :
    heap.Larger heap' :=
  ⟨Nat.le_of_eq lists.symm, Nat.le_of_eq objects.symm⟩

theorem larger_newFrame (heap : Heap) (parent : Option FrameId) : heap.Larger (heap.newFrame parent).2 :=
  larger_of_size rfl rfl

theorem larger_declare (heap : Heap) (frame : FrameId) (name : String) (value : Value) :
    heap.Larger (heap.declare frame name value) := larger_of_size rfl rfl

theorem larger_newCallable (heap : Heap) (callable : Callable) : heap.Larger (heap.newCallable callable).2 :=
  larger_of_size rfl rfl

theorem larger_newList (heap : Heap) (items : Array Value) : heap.Larger (heap.newList items).2 :=
  ⟨by simp only [newList, Array.size_push, Nat.le_add_right], Nat.le_refl _⟩

theorem larger_newObject (heap : Heap) (properties : Table Value) : heap.Larger (heap.newObject properties).2 :=
  ⟨Nat.le_refl _, by simp only [newObject, Array.size_push, Nat.le_add_right]⟩

theorem larger_declareAll (heap : Heap) (frame : FrameId) (entries : List (String × Value)) :
    heap.Larger (heap.declareAll frame entries) := by
  induction entries generalizing heap with
  | nil => exact .refl heap
  | cons entry rest ih => exact (larger_declare heap frame entry.1 entry.2).trans (ih _)

theorem in_newList (heap : Heap) (items : Array Value) :
    (Value.list (heap.newList items).1).In (heap.newList items).2 := by
  simp only [Value.In, newList, Array.size_push, Nat.lt_succ_self]

theorem in_newObject (heap : Heap) (properties : Table Value) :
    (Value.object (heap.newObject properties).1).In (heap.newObject properties).2 := by
  simp only [Value.In, newObject, Array.size_push, Nat.lt_succ_self]

structure Yields (heap heap' : Heap) (values : List Value) : Prop where
  larger : heap.Larger heap'
  closed : heap'.Closed
  within : ∀ value ∈ values, value.In heap'

namespace Yields

variable {heap₁ heap₂ : Heap} {values others : List Value}

theorem refl (closed : heap.Closed) (within : ∀ value ∈ values, value.In heap) : heap.Yields heap values :=
  ⟨.refl heap, closed, within⟩

theorem append (first : heap.Yields heap₁ values) (second : heap₁.Yields heap₂ others) :
    heap.Yields heap₂ (values ++ others) where
  larger := first.larger.trans second.larger
  closed := second.closed
  within := List.forall_mem_append.2 ⟨fun value mem => (first.within value mem).mono second.larger, second.within⟩

theorem newList {items : Array Value} (given : heap.Yields heap₁ items.toList) :
    heap.Yields (heap₁.newList items).2 [.list (heap₁.newList items).1] where
  larger := given.larger.trans (larger_newList heap₁ items)
  closed := (given.closed.all (larger_newList heap₁ items)).newList fun item mem =>
    (given.within item (Array.mem_toList_iff.2 mem)).mono (larger_newList heap₁ items)
  within := List.forall_mem_singleton.2 (in_newList heap₁ items)

theorem newObject {properties : Table Value} (given : heap.Yields heap₁ []) (all : properties.All (·.In heap₁)) :
    heap.Yields (heap₁.newObject properties).2 [.object (heap₁.newObject properties).1] where
  larger := given.larger.trans (larger_newObject heap₁ properties)
  closed := (given.closed.all (larger_newObject heap₁ properties)).newObject <|
    all.mono fun _ within => within.mono (larger_newObject heap₁ properties)
  within := List.forall_mem_singleton.2 (in_newObject heap₁ properties)

end Yields

mutual

theorem yields_ofDocument {heap : Heap} (closed : heap.Closed) : (document : Document) →
    heap.Yields (heap.ofDocument document).2 [(heap.ofDocument document).1]
  | .nil | .boolean _ | .number _ | .string _ => .refl closed (List.forall_mem_singleton.2 trivial)
  | .list items => (yields_ofDocuments closed items).newList
  | .object members =>
    have given := yields_ofMembers closed members
    .newObject ⟨given.larger, given.closed, List.forall_mem_nil _⟩ (.ofList (List.forall_mem_map.1 given.within))

theorem yields_ofDocuments {heap : Heap} (closed : heap.Closed) : (documents : List Document) →
    heap.Yields (heap.ofDocuments documents).2 (heap.ofDocuments documents).1
  | [] => .refl closed (List.forall_mem_nil _)
  | first :: rest =>
    have given := yields_ofDocument closed first
    given.append (yields_ofDocuments given.closed rest)

theorem yields_ofMembers {heap : Heap} (closed : heap.Closed) : (members : List (String × Document)) →
    heap.Yields (heap.ofMembers members).2 ((heap.ofMembers members).1.map (·.2))
  | [] => .refl closed (List.forall_mem_nil _)
  | (_, first) :: rest =>
    have given := yields_ofDocument closed first
    given.append (yields_ofMembers given.closed rest)

end

end Heap

end HookScript
