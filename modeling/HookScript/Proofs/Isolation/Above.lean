import HookScript.Document.Basic
import HookScript.Proofs.Run.Frames
import Mathlib.Data.List.InsertIdx

/-!
Heaps on top of other heaps. What a heap refers to can be moved as a whole above the cells of another heap, which
stays as it is. The operations of the heap do not see the difference: what they do above another heap is what they
do alone, moved.
-/

namespace HookScript

namespace Table

variable {α β : Type}

def map (f : α → β) (table : Table α) : Table β :=
  ⟨table.entries.map fun entry => (entry.1, f entry.2), List.pairwise_map.2 table.sorted⟩

theorem get?_map (f : α → β) (table : Table α) (name : String) : (table.map f).get? name = (table.get? name).map f := by
  obtain ⟨entries, sorted⟩ := table
  simp only [get?, map]
  clear sorted
  induction entries with
  | nil => rfl
  | cons entry rest ih =>
    rw [List.map_cons, List.lookup_cons, List.lookup_cons, ih]
    cases name == entry.1 <;> rfl

theorem names_map (f : α → β) (table : Table α) :
    (table.map f).entries.map (·.1) = table.entries.map (·.1) := by
  rw [map, List.map_map]
  rfl

theorem values_map (f : α → β) (table : Table α) :
    (table.map f).entries.map (·.2) = (table.entries.map (·.2)).map f := by
  rw [map, List.map_map, List.map_map]
  rfl

theorem map_empty (f : α → β) : (empty : Table α).map f = empty := rfl

theorem map_insert (f : α → β) (table : Table α) (name : String) (value : α) :
    (table.insert name value).map f = (table.map f).insert name (f value) := by
  refine ext_get? fun other => ?_
  rw [get?_map, get?_insert, get?_insert, get?_map]
  split <;> rfl

theorem map_ofList (f : α → β) (entries : List (String × α)) :
    (ofList entries).map f = ofList (entries.map fun entry => (entry.1, f entry.2)) := by
  have foldl (table : Table α) : (entries.foldl (fun table entry => table.insert entry.1 entry.2) table).map f =
      (entries.map fun entry => (entry.1, f entry.2)).foldl (fun table entry => table.insert entry.1 entry.2)
        (table.map f) := by
    induction entries generalizing table with
    | nil => rfl
    | cons entry rest ih => rw [List.foldl_cons, ih, map_insert, List.map_cons, List.foldl_cons]
  exact foldl empty

theorem zip_map (f : α → β) (names : List String) (values : List α) :
    names.zip (values.map f) = (names.zip values).map fun entry => (entry.1, f entry.2) :=
  List.zip_map_right

end Table

/-! Identities and values of a heap, when the heap stands above `base`. -/

def FrameId.above (base : Heap) (id : FrameId) : FrameId := ⟨base.frames.size + id.index⟩

def ListId.above (base : Heap) (id : ListId) : ListId := ⟨base.lists.size + id.index⟩

def ObjectId.above (base : Heap) (id : ObjectId) : ObjectId := ⟨base.objects.size + id.index⟩

def MethodId.above (base : Heap) (id : MethodId) : MethodId := ⟨base.methods.size + id.index⟩

def CallableId.above (base : Heap) (id : CallableId) : CallableId := ⟨base.callables.size + id.index⟩

def DecoderId.above (base : Heap) (id : DecoderId) : DecoderId := ⟨base.decoders.size + id.index⟩

def Value.above (base : Heap) : Value → Value
  | list id => list (id.above base)
  | object id => object (id.above base)
  | method id => method (id.above base)
  | callable id => callable (id.above base)
  | nil => nil
  | number x => number x
  | string s => string s
  | boolean b => boolean b

def Method.above (base : Heap) : Method → Method
  | script params body globals => script params body (globals.above base)
  | list method => list method
  | decoder format id => decoder format (id.above base)

def Callable.above (base : Heap) : Callable → Callable
  | function name params body closure => function name params body (closure.above base)
  | bound method receiver => bound (method.above base) (receiver.above base)
  | builtin b => builtin b

def Frame.above (base : Heap) (frame : Frame) : Frame :=
  ⟨frame.names.map (·.above base), frame.parent.map (·.above base)⟩

def Decoder.above (base : Heap) (decoder : Decoder) : Decoder :=
  ⟨decoder.format, decoder.body, decoder.decoded.map (·.above base)⟩

/-- The heap above the cells of another one. -/
def Heap.above (heap base : Heap) : Heap where
  frames := base.frames ++ heap.frames.map (·.above base)
  lists := base.lists ++ heap.lists.map (·.map (·.above base))
  objects := base.objects ++ heap.objects.map (·.map (·.above base))
  methods := base.methods ++ heap.methods.map (·.above base)
  callables := base.callables ++ heap.callables.map (·.above base)
  decoders := base.decoders ++ heap.decoders.map (·.above base)

theorem ListId.above_inj {base : Heap} {a b : ListId} : a.above base = b.above base ↔ a = b := by
  obtain ⟨i⟩ := a
  obtain ⟨j⟩ := b
  simp only [above, ListId.mk.injEq, Nat.add_left_cancel_iff]

theorem ObjectId.above_inj {base : Heap} {a b : ObjectId} : a.above base = b.above base ↔ a = b := by
  obtain ⟨i⟩ := a
  obtain ⟨j⟩ := b
  simp only [above, ObjectId.mk.injEq, Nat.add_left_cancel_iff]

namespace Value

theorem above_list (base : Heap) (id : ListId) : (list id).above base = list (id.above base) := rfl

theorem above_object (base : Heap) (id : ObjectId) : (object id).above base = object (id.above base) := rfl

variable (base : Heap) (value other : Value)

theorem isTruthy_above : (value.above base).isTruthy = value.isTruthy := by
  cases value <;> rfl

theorem equals_above : (value.above base).equals (other.above base) = value.equals other := by
  rcases value with _ | _ | _ | _ | ⟨⟨i⟩⟩ | ⟨⟨i⟩⟩ | ⟨⟨i⟩⟩ | ⟨⟨i⟩⟩ <;>
    rcases other with _ | _ | _ | _ | ⟨⟨j⟩⟩ | ⟨⟨j⟩⟩ | ⟨⟨j⟩⟩ | ⟨⟨j⟩⟩ <;>
    simp [above, equals, ListId.above, ObjectId.above, MethodId.above, CallableId.above]

end Value

namespace Callable

variable (base : Heap) (callable : Callable)

theorem arity_above : (callable.above base).arity = callable.arity := by
  rcases callable with _ | ⟨_ | _ | _⟩ | _ <;> rfl

theorem text_above : (callable.above base).text = callable.text := by
  rcases callable with _ | ⟨_ | _ | _⟩ | _ <;> rfl

end Callable

/-! Arrays with moved entries behind those of another array. -/

section

variable {α β : Type} (xs : Array β) (ys : Array α) (f : α → β)

theorem getElem?_append_map (i : Nat) : (xs ++ ys.map f)[xs.size + i]? = ys[i]?.map f := by
  rw [Array.getElem?_append_right (Nat.le_add_right _ _), Nat.add_sub_cancel_left, Array.getElem?_map]

theorem getD_append_map (i : Nat) (default : α) :
    (xs ++ ys.map f).getD (xs.size + i) (f default) = f (ys.getD i default) := by
  rw [Array.getD_eq_getD_getElem?, Array.getD_eq_getD_getElem?, getElem?_append_map, Option.getD_map]

theorem size_append_map : (xs ++ ys.map f).size = xs.size + ys.size := by
  rw [Array.size_append, Array.size_map]

theorem push_append_map (y : α) : (xs ++ ys.map f).push (f y) = xs ++ (ys.push y).map f := by
  rw [Array.map_push, Array.push_eq_append, Array.push_eq_append, Array.append_assoc]

theorem eq_append_map {zs : Array β} (before : ∀ j, j < xs.size → zs[j]? = xs[j]?)
    (after : ∀ k, zs[xs.size + k]? = ys[k]?.map f) : zs = xs ++ ys.map f := by
  refine Array.ext_getElem? fun j => ?_
  by_cases below : j < xs.size
  · rw [before j below, Array.getElem?_append_left below]
  · obtain ⟨k, rfl⟩ : ∃ k, j = xs.size + k := ⟨j - xs.size, by omega⟩
    rw [after, getElem?_append_map]

theorem modify_append_map {g : β → β} {h : α → α} (moved : ∀ y, g (f y) = f (h y)) (i : Nat) :
    (xs ++ ys.map f).modify (xs.size + i) g = xs ++ (ys.modify i h).map f := by
  refine eq_append_map _ _ _ (fun j below => ?_) fun k => ?_
  · rw [Array.getElem?_modify, if_neg (by omega), Array.getElem?_append_left below]
  · simp only [Array.getElem?_modify, getElem?_append_map, Nat.add_left_cancel_iff]
    split
    · simp only [Option.map_map, Function.comp_def, moved]
    · rfl

theorem set_append_map (i : Nat) (y : α) :
    (xs ++ ys.map f).setIfInBounds (xs.size + i) (f y) = xs ++ (ys.setIfInBounds i y).map f := by
  refine eq_append_map _ _ _ (fun j below => ?_) fun k => ?_
  · rw [Array.getElem?_setIfInBounds_ne (by omega), Array.getElem?_append_left below]
  · simp only [Array.getElem?_setIfInBounds, getElem?_append_map, size_append_map, Nat.add_left_cancel_iff,
      Nat.add_lt_add_iff_left]
    split
    · split <;> rfl
    · rfl

end

namespace Heap

variable (base heap : Heap)

section Frames

variable (frame : FrameId) (level : Nat) (name : String) (value : Value)

theorem newFrame_above (parent : Option FrameId) :
    (heap.above base).newFrame (parent.map (·.above base)) =
      ((heap.newFrame parent).1.above base, (heap.newFrame parent).2.above base) := by
  refine Prod.ext ?_ ?_
  · simp only [newFrame, above, FrameId.above, size_append_map]
  · have pushed := push_append_map base.frames heap.frames (·.above base) ⟨.empty, parent⟩
    exact congrArg (fun frames => { heap.above base with frames }) pushed

theorem declare_above : (heap.above base).declare (frame.above base) name (value.above base) =
    (heap.declare frame name value).above base := by
  have modified := modify_append_map base.frames heap.frames (·.above base)
    (g := fun f => { f with names := f.names.insert name (value.above base) })
    (h := fun f => { f with names := f.names.insert name value })
    (fun f => by simp only [Frame.above, Table.map_insert]) frame.index
  exact congrArg (fun frames => { heap.above base with frames }) modified

theorem declareAll_above (entries : List (String × Value)) :
    (heap.above base).declareAll (frame.above base) (entries.map fun entry => (entry.1, entry.2.above base)) =
      (heap.declareAll frame entries).above base := by
  induction entries generalizing heap with
  | nil => rfl
  | cons entry rest ih => rw [List.map_cons, declareAll, declare_above, ih, declareAll]

theorem frames_above : (heap.above base).frames[(frame.above base).index]? =
    heap.frames[frame.index]?.map (·.above base) :=
  getElem?_append_map _ _ _ _

theorem binding?_above : (heap.above base).binding? (frame.above base) name =
    (heap.binding? frame name).map (·.above base) := by
  rw [binding?, binding?, frames_above]
  cases heap.frames[frame.index]? with
  | none => rfl
  | some f => exact Table.get?_map _ _ _

theorem parent?_above : (heap.above base).parent? (frame.above base) =
    (heap.parent? frame).map (·.above base) := by
  rw [parent?, parent?, frames_above]
  cases heap.frames[frame.index]? with
  | none => rfl
  | some f =>
    change (f.parent.map (·.above base)).filter _ = (f.parent.filter _).map (·.above base)
    cases f.parent with
    | none => rfl
    | some parent =>
      simp only [Option.map_some, Option.filter_some, FrameId.above, Nat.add_lt_add_iff_left]
      split <;> rfl

theorem chain_above : (heap.above base).chain (frame.above base) = (heap.chain frame).map (·.above base) := by
  obtain ⟨i⟩ := frame
  induction i using Nat.strongRecOn with
  | ind i ih =>
    rw [chain_eq, parent?_above, chain_eq heap]
    cases outer : heap.parent? ⟨i⟩ with
    | none => rfl
    | some parent => exact congrArg _ (ih parent.index (parent?_index_lt outer))

theorem ancestor?_above : (heap.above base).ancestor? (frame.above base) level =
    (heap.ancestor? frame level).map (·.above base) := by
  rw [ancestor?, ancestor?, chain_above, List.getElem?_map]

theorem lookup?_above : (heap.above base).lookup? (frame.above base) name =
    (heap.lookup? frame name).map (·.above base) := by
  rw [lookup?, lookup?, chain_above]
  induction heap.chain frame with
  | nil => rfl
  | cons first rest ih =>
    rw [List.map_cons, List.findSome?_cons, List.findSome?_cons, binding?_above, ih]
    cases heap.binding? first name <;> rfl

theorem get?_above : (heap.above base).get? (frame.above base) level name =
    (heap.get? frame level name).map (·.above base) := by
  have found : ((heap.above base).ancestor? (frame.above base) level).bind
      (fun f => (heap.above base).binding? f name) =
        ((heap.ancestor? frame level).bind fun f => heap.binding? f name).map (·.above base) := by
    rw [ancestor?_above]
    cases heap.ancestor? frame level with
    | none => rfl
    | some f => exact binding?_above base heap f name
  rw [get?, get?, found, lookup?_above]
  cases (heap.ancestor? frame level).bind fun f => heap.binding? f name <;> rfl

theorem assignee?_above : (heap.above base).assignee? (frame.above base) level name =
    (heap.assignee? frame level name).map (·.above base) := by
  have bound (f : FrameId) :
      ((heap.above base).binding? (f.above base) name).isSome = (heap.binding? f name).isSome := by
    rw [binding?_above, Option.isSome_map]
  have target : ((heap.above base).ancestor? (frame.above base) level).filter
      (fun f => ((heap.above base).binding? f name).isSome) =
        ((heap.ancestor? frame level).filter fun f => (heap.binding? f name).isSome).map (·.above base) := by
    rw [ancestor?_above]
    cases heap.ancestor? frame level with
    | none => rfl
    | some f =>
      simp only [Option.map_some, Option.filter_some, bound]
      split <;> rfl
  rw [assignee?, assignee?, target, chain_above]
  cases (heap.ancestor? frame level).filter fun f => (heap.binding? f name).isSome with
  | some f => rfl
  | none =>
    simp only [Option.map_none]
    rw [List.find?_map]
    exact congrArg (fun test => ((heap.chain frame).find? test).map _) (funext bound)

end Frames

section Data

theorem newList_above (items : Array Value) : (heap.above base).newList (items.map (·.above base)) =
    ((heap.newList items).1.above base, (heap.newList items).2.above base) := by
  have size := size_append_map base.lists heap.lists (·.map (·.above base))
  have pushed := push_append_map base.lists heap.lists (·.map (·.above base)) items
  exact Prod.ext (congrArg ListId.mk size) (congrArg (fun lists => { heap.above base with lists }) pushed)

theorem newObject_above (properties : Table Value) : (heap.above base).newObject (properties.map (·.above base)) =
    ((heap.newObject properties).1.above base, (heap.newObject properties).2.above base) := by
  have size := size_append_map base.objects heap.objects (·.map (·.above base))
  have pushed := push_append_map base.objects heap.objects (·.map (·.above base)) properties
  exact Prod.ext (congrArg ObjectId.mk size) (congrArg (fun objects => { heap.above base with objects }) pushed)

theorem newMethod_above (method : Method) : (heap.above base).newMethod (method.above base) =
    ((heap.newMethod method).1.above base, (heap.newMethod method).2.above base) := by
  have size := size_append_map base.methods heap.methods (·.above base)
  have pushed := push_append_map base.methods heap.methods (·.above base) method
  exact Prod.ext (congrArg MethodId.mk size) (congrArg (fun methods => { heap.above base with methods }) pushed)

theorem newCallable_above (callable : Callable) : (heap.above base).newCallable (callable.above base) =
    ((heap.newCallable callable).1.above base, (heap.newCallable callable).2.above base) := by
  have size := size_append_map base.callables heap.callables (·.above base)
  have pushed := push_append_map base.callables heap.callables (·.above base) callable
  exact Prod.ext (congrArg CallableId.mk size)
    (congrArg (fun callables => { heap.above base with callables }) pushed)

theorem method?_above (id : MethodId) :
    (heap.above base).method? (id.above base) = (heap.method? id).map (·.above base) :=
  getElem?_append_map _ _ _ _

theorem callable?_above (id : CallableId) :
    (heap.above base).callable? (id.above base) = (heap.callable? id).map (·.above base) :=
  getElem?_append_map _ _ _ _

theorem decoder?_above (id : DecoderId) :
    (heap.above base).decoder? (id.above base) = (heap.decoder? id).map (·.above base) :=
  getElem?_append_map _ _ _ _

theorem items_above (id : ListId) :
    (heap.above base).items (id.above base) = (heap.items id).map (·.above base) := by
  have moved := getD_append_map base.lists heap.lists (·.map (Value.above base)) id.index #[]
  rwa [Array.map_empty] at moved

theorem item_above (id : ListId) (i : Nat) :
    ((heap.above base).items (id.above base)).getD i .nil = ((heap.items id).getD i .nil).above base := by
  rw [items_above, Array.getD_eq_getD_getElem?, Array.getD_eq_getD_getElem?, Array.getElem?_map]
  cases (heap.items id)[i]? <;> rfl

theorem properties_above (id : ObjectId) :
    (heap.above base).properties (id.above base) = (heap.properties id).map (·.above base) :=
  getD_append_map base.objects heap.objects (·.map (Value.above base)) id.index .empty

theorem property_above (id : ObjectId) (name : String) :
    (heap.above base).property (id.above base) name = (heap.property id name).above base := by
  rw [property, property, properties_above, Table.get?_map]
  cases (heap.properties id).get? name <;> rfl

theorem modifyList_above {g h : Array Value → Array Value}
    (moved : ∀ items : Array Value, g (items.map (·.above base)) = (h items).map (·.above base)) (id : ListId) :
    { heap.above base with lists := (heap.above base).lists.modify (id.above base).index g } =
      Heap.above { heap with lists := heap.lists.modify id.index h } base :=
  congrArg (fun lists => { heap.above base with lists }) (modify_append_map _ _ _ moved id.index)

theorem push_above (id : ListId) (value : Value) :
    (heap.above base).push (id.above base) (value.above base) = (heap.push id value).above base :=
  modifyList_above base heap (fun _ => Array.map_push.symm) id

theorem setItem_above (id : ListId) (index : Nat) (value : Value) :
    (heap.above base).setItem (id.above base) index (value.above base) =
      (heap.setItem id index value).above base :=
  modifyList_above base heap (fun _ => Array.map_setIfInBounds.symm) id

theorem removeItem_above (id : ListId) (index : Nat) :
    (heap.above base).removeItem (id.above base) index = (heap.removeItem id index).above base := by
  refine modifyList_above base heap (fun items => Array.toList_inj.1 ?_) id
  simp only [Array.toList_eraseIdxIfInBounds, Array.toList_map, List.eraseIdx_map]

theorem setItems_above (id : ListId) (items : Array Value) :
    (heap.above base).setItems (id.above base) (items.map (·.above base)) = (heap.setItems id items).above base :=
  congrArg (fun lists => { heap.above base with lists })
    (set_append_map base.lists heap.lists (·.map (·.above base)) id.index items)

theorem setProperties_above (id : ObjectId) (properties : Table Value) :
    (heap.above base).setProperties (id.above base) (properties.map (·.above base)) =
      (heap.setProperties id properties).above base :=
  congrArg (fun objects => { heap.above base with objects })
    (set_append_map base.objects heap.objects (·.map (·.above base)) id.index properties)

theorem putProperty_above (id : ObjectId) (name : String) (value : Value) :
    (heap.above base).putProperty (id.above base) name (value.above base) =
      (heap.putProperty id name value).above base :=
  congrArg (fun objects => { heap.above base with objects })
    (modify_append_map base.objects heap.objects (Table.map (Value.above base))
      (g := (·.insert name (value.above base))) (h := (·.insert name value))
      (fun properties => (Table.map_insert _ properties name value).symm) id.index)

theorem remember_above (id : DecoderId) (value : Value) :
    (heap.above base).remember (id.above base) (value.above base) = (heap.remember id value).above base :=
  congrArg (fun decoders => { heap.above base with decoders })
    (modify_append_map base.decoders heap.decoders (·.above base)
      (h := fun decoder => { decoder with decoded := some value }) (fun _ => rfl) id.index)

mutual

theorem ofDocument_above (heap : Heap) : (document : Document) → (heap.above base).ofDocument document =
    ((heap.ofDocument document).1.above base, (heap.ofDocument document).2.above base)
  | .nil | .boolean _ | .number _ | .string _ => rfl
  | .list items => by
    simp only [ofDocument, ofDocuments_above, ← List.map_toArray, newList_above]
    rfl
  | .object members => by
    simp only [ofDocument, ofMembers_above, ← Table.map_ofList, newObject_above]
    rfl

theorem ofDocuments_above (heap : Heap) : (documents : List Document) → (heap.above base).ofDocuments documents =
    ((heap.ofDocuments documents).1.map (·.above base), (heap.ofDocuments documents).2.above base)
  | [] => rfl
  | first :: rest => by
    simp only [ofDocuments, ofDocument_above heap first, ofDocuments_above _ rest, List.map_cons]

theorem ofMembers_above (heap : Heap) : (members : List (String × Document)) → (heap.above base).ofMembers members =
    ((heap.ofMembers members).1.map fun entry => (entry.1, entry.2.above base),
      (heap.ofMembers members).2.above base)
  | [] => rfl
  | (name, first) :: rest => by
    simp only [ofMembers, ofDocument_above heap first, ofMembers_above _ rest, List.map_cons]

end

end Data

end Heap

end HookScript
