import HookScript.Proofs.Isolation.Above
import HookScript.Proofs.Isolation.Closed
import HookScript.Machine
import Mathlib.Data.List.Basic

/-!
Outlines and copies of what a value contains. Both go through lists and objects down to a depth that no path
reaches, so it does not matter that the depth counts the containers of the whole heap: above another heap a value
has the same text, and its copy is the moved copy.
-/

namespace HookScript

def Container.above (base : Heap) : Container → Container
  | list id => list (id.above base)
  | object id => object (id.above base)

theorem Container.above_inj {base : Heap} {a b : Container} : a.above base = b.above base ↔ a = b := by
  cases a <;> cases b <;> simp [above, ListId.above_inj, ObjectId.above_inj]

theorem Container.mem_above {base : Heap} {c : Container} {around : List Container} :
    c.above base ∈ around.map (·.above base) ↔ c ∈ around :=
  List.mem_map_of_injective fun _ _ => Container.above_inj.1

namespace Heap

variable (heap : Heap)

def containers : List Container :=
  (List.range heap.lists.size).map (fun i => .list ⟨i⟩) ++ (List.range heap.objects.size).map fun i => .object ⟨i⟩

theorem mem_containers_list {id : ListId} : .list id ∈ heap.containers ↔ id.index < heap.lists.size := by
  obtain ⟨i⟩ := id
  simp [containers]

theorem mem_containers_object {id : ObjectId} : .object id ∈ heap.containers ↔ id.index < heap.objects.size := by
  obtain ⟨i⟩ := id
  simp [containers]

def unmet (met : Container → Bool) : Nat := heap.containers.countP fun c => !met c

variable {met met' : Container → Bool}

theorem unmet_le_containerCount : heap.unmet met ≤ heap.containerCount := by
  refine Nat.le_trans List.countP_le_length (Nat.le_of_eq ?_)
  simp [containers, containerCount]

theorem countP_unmet_le (more : ∀ c, met c → met' c) (part : List Container) :
    part.countP (fun c => !met' c) ≤ part.countP fun c => !met c :=
  List.countP_mono_left fun c _ fresh => by
    cases had : met c with
    | false => rfl
    | true => simp [more c had] at fresh

theorem unmet_le (more : ∀ c, met c → met' c) : heap.unmet met' ≤ heap.unmet met :=
  countP_unmet_le more heap.containers

theorem unmet_lt {c : Container} (mem : c ∈ heap.containers) (fresh : met c = false) (now : met' c)
    (more : ∀ c, met c → met' c) : heap.unmet met' < heap.unmet met := by
  obtain ⟨before, after, split⟩ := List.append_of_mem mem
  have here := countP_unmet_le more before
  have there := countP_unmet_le more after
  simp only [unmet, split, List.countP_append, List.countP_cons, fresh, now, Bool.not_true, Bool.not_false,
    if_true, Bool.false_eq_true, if_false]
  omega

theorem items_outside {id : ListId} (outside : ¬id.index < heap.lists.size) : heap.items id = #[] := by
  rw [items, Array.getD_eq_getD_getElem?, Array.getElem?_eq_none (Nat.not_lt.1 outside), Option.getD_none]

theorem properties_outside {id : ObjectId} (outside : ¬id.index < heap.objects.size) :
    heap.properties id = .empty := by
  rw [properties, Array.getD_eq_getD_getElem?, Array.getElem?_eq_none (Nat.not_lt.1 outside), Option.getD_none]

/-- Depths that leave room for every container outside show the same. -/
theorem outlineWithin_eq {depth depth' : Nat} (around : List Container) (value : Value)
    (enough : heap.unmet (fun c => decide (c ∈ around)) < depth)
    (enough' : heap.unmet (fun c => decide (c ∈ around)) < depth') :
    heap.outlineWithin depth around value = heap.outlineWithin depth' around value := by
  induction depth generalizing depth' around value with
  | zero => omega
  | succ depth ih =>
    obtain ⟨depth', rfl⟩ : ∃ k, depth' = k + 1 := ⟨depth' - 1, by omega⟩
    have inner {c : Container} (mem : c ∈ heap.containers) (fresh : c ∉ around) (value : Value) :
        heap.outlineWithin depth (c :: around) value = heap.outlineWithin depth' (c :: around) value := by
      have less : heap.unmet (fun k => decide (k ∈ c :: around)) < heap.unmet fun k => decide (k ∈ around) :=
        heap.unmet_lt mem (by simpa using fresh) (by simp) fun k had => by simpa using .inr (by simpa using had)
      exact ih (c :: around) value (by omega) (by omega)
    cases value with
    | list id =>
      simp only [outlineWithin]
      split
      · rfl
      · next fresh =>
        -- An identity that the heap does not have contains nothing, so only the others take a step of the depth.
        by_cases inside : id.index < heap.lists.size
        · rw [funext (inner (heap.mem_containers_list.2 inside) fresh)]
        · rw [heap.items_outside inside]
          rfl
    | object id =>
      simp only [outlineWithin]
      split
      · rfl
      · next fresh =>
        by_cases inside : id.index < heap.objects.size
        · simp only [inner (heap.mem_containers_object.2 inside) fresh]
        · rw [heap.properties_outside inside]
          rfl
    | _ => rfl

variable (base : Heap)

theorem containerCount_le_above : heap.containerCount ≤ (heap.above base).containerCount := by
  simp only [containerCount, above, size_append_map]
  omega

theorem outlineWithin_method_above (depth : Nat) (around : List Container) (id : MethodId) :
    (heap.above base).outlineWithin depth (around.map (·.above base)) (.method (id.above base)) =
      heap.outlineWithin depth around (.method id) := by
  simp only [outlineWithin, method?_above]
  rcases heap.method? id with _ | ⟨_ | _ | _⟩ <;> rfl

theorem outlineWithin_callable_above (depth : Nat) (around : List Container) (id : CallableId) :
    (heap.above base).outlineWithin depth (around.map (·.above base)) (.callable (id.above base)) =
      heap.outlineWithin depth around (.callable id) := by
  simp only [outlineWithin, callable?_above]
  cases heap.callable? id with
  | none => rfl
  | some callable => simp only [Option.map_some, Callable.text_above, Callable.arity_above]

theorem outlineWithin_above (depth : Nat) (around : List Container) (value : Value) :
    (heap.above base).outlineWithin depth (around.map (·.above base)) (value.above base) =
      heap.outlineWithin depth around value := by
  induction depth generalizing around value with
  | zero =>
    cases value with
    | method id => exact outlineWithin_method_above heap base 0 around id
    | callable id => exact outlineWithin_callable_above heap base 0 around id
    | _ => rfl
  | succ depth ih =>
    cases value with
    | method id => exact outlineWithin_method_above heap base _ around id
    | callable id => exact outlineWithin_callable_above heap base _ around id
    | list id =>
      have met : Container.list (id.above base) ∈ around.map (·.above base) ↔ .list id ∈ around :=
        Container.mem_above (c := .list id)
      have inner (item : Value) : (heap.above base).outlineWithin depth
          (.list (id.above base) :: around.map (·.above base)) (item.above base) =
            heap.outlineWithin depth (.list id :: around) item := ih (.list id :: around) item
      simp only [Value.above_list, outlineWithin, met, items_above, Array.toList_map, List.map_map,
        Function.comp_def, inner]
    | object id =>
      have met : Container.object (id.above base) ∈ around.map (·.above base) ↔ .object id ∈ around :=
        Container.mem_above (c := .object id)
      have inner (value : Value) : (heap.above base).outlineWithin depth
          (.object (id.above base) :: around.map (·.above base)) (value.above base) =
            heap.outlineWithin depth (.object id :: around) value := ih (.object id :: around) value
      simp only [Value.above_object, outlineWithin, met, properties_above, Table.map, List.map_map,
        Function.comp_def, inner]
    | _ => rfl

theorem outline_above (value : Value) : (heap.above base).outline (value.above base) = heap.outline value := by
  have moved := heap.outlineWithin_above base ((heap.above base).containerCount + 1) [] value
  have started : heap.unmet (fun c => decide (c ∈ [])) ≤ heap.containerCount := heap.unmet_le_containerCount
  have larger := heap.containerCount_le_above base
  exact moved.trans (heap.outlineWithin_eq [] value (by omega) (by omega))

theorem text_above (value : Value) : (heap.above base).text (value.above base) = heap.text value :=
  congrArg Outline.text (heap.outline_above base value)

end Heap

namespace Copying

def above (base : Heap) (c : Copying) : Copying where
  heap := c.heap.above base
  lists := c.lists.map fun entry => (entry.1.above base, entry.2.above base)
  objects := c.objects.map fun entry => (entry.1.above base, entry.2.above base)

section

variable (base : Heap)

theorem lookup_map {α β : Type} [DecidableEq α] {f : α → α} {g : β → β} (injective : ∀ {a b}, f a = f b ↔ a = b)
    (entries : List (α × β)) (key : α) :
    (entries.map fun entry => (f entry.1, g entry.2)).lookup (f key) = (entries.lookup key).map g := by
  induction entries with
  | nil => rfl
  | cons entry rest ih =>
    have same : (f key == f entry.1) = (key == entry.1) := by
      rw [Bool.eq_iff_iff, beq_iff_eq, beq_iff_eq, injective]
    rw [List.map_cons, List.lookup_cons, List.lookup_cons, same, ih]
    cases key == entry.1 <;> rfl

theorem lookup_lists_above (c : Copying) (id : ListId) :
    (c.above base).lists.lookup (id.above base) = (c.lists.lookup id).map (·.above base) :=
  lookup_map ListId.above_inj c.lists id

theorem lookup_objects_above (c : Copying) (id : ObjectId) :
    (c.above base).objects.lookup (id.above base) = (c.objects.lookup id).map (·.above base) :=
  lookup_map ObjectId.above_inj c.objects id

theorem beginList_above (c : Copying) (id : ListId) : (c.above base).beginList (id.above base) =
    ((c.beginList id).1.above base, (c.beginList id).2.above base) := by
  have made := Heap.newList_above base c.heap #[]
  rw [Array.map_empty] at made
  simp only [beginList, above, made, List.map_cons]

theorem beginObject_above (c : Copying) (id : ObjectId) : (c.above base).beginObject (id.above base) =
    ((c.beginObject id).1.above base, (c.beginObject id).2.above base) := by
  have made := Heap.newObject_above base c.heap .empty
  rw [Table.map_empty] at made
  simp only [beginObject, above, made, List.map_cons]

theorem copyEach_above {copy : Value → Copying → Value × Copying}
    (each : ∀ value c, copy (value.above base) (c.above base) =
      ((copy value c).1.above base, (copy value c).2.above base))
    (values : List Value) (c : Copying) : copyEach copy (values.map (·.above base)) (c.above base) =
      ((copyEach copy values c).1.map (·.above base), (copyEach copy values c).2.above base) := by
  induction values generalizing c with
  | nil => rfl
  | cons value rest ih => simp only [List.map_cons, copyEach, each, ih]

theorem copyWithin_above (depth : Nat) (value : Value) (c : Copying) :
    copyWithin depth (value.above base) (c.above base) =
      ((copyWithin depth value c).1.above base, (copyWithin depth value c).2.above base) := by
  induction depth generalizing value c with
  | zero => simp only [copyWithin]
  | succ depth ih =>
    cases value with
    | list id =>
      simp only [Value.above_list, copyWithin, lookup_lists_above]
      cases c.lists.lookup id with
      | some copy => rfl
      | none =>
        have items : ((c.beginList id).2.above base).heap.items (id.above base) =
            ((c.beginList id).2.heap.items id).map (·.above base) := Heap.items_above base _ id
        simp only [Option.map_none, beginList_above, items, Array.toList_map, copyEach_above base ih]
        rw [← List.map_toArray]
        exact congrArg (fun heap => (_, Copying.mk heap _ _)) (Heap.setItems_above base _ _ _)
    | object id =>
      simp only [Value.above_object, copyWithin, lookup_objects_above]
      cases c.objects.lookup id with
      | some copy => rfl
      | none =>
        have properties : (c.above base).heap.properties (id.above base) =
            (c.heap.properties id).map (·.above base) := Heap.properties_above base c.heap id
        simp only [Option.map_none, properties, Table.names_map, Table.values_map, beginObject_above,
          copyEach_above base ih, Table.zip_map, ← Table.map_ofList]
        exact congrArg (fun heap => (_, Copying.mk heap _ _)) (Heap.setProperties_above base _ _ _)
    | _ => rfl

end

def met (c : Copying) : Container → Bool
  | .list id => (c.lists.lookup id).isSome
  | .object id => (c.objects.lookup id).isSome

structure Keeps (heap : Heap) (c : Copying) : Prop where
  larger : heap.Larger c.heap
  items {id : ListId} (inside : id.index < heap.lists.size) : c.heap.items id = heap.items id
  properties {id : ObjectId} (inside : id.index < heap.objects.size) : c.heap.properties id = heap.properties id

structure Later (heap : Heap) (c c' : Copying) : Prop where
  keeps : c'.Keeps heap
  met (k : Container) (had : c.met k) : c'.met k

section

variable {heap : Heap} {c c₁ c₂ : Copying}

theorem Later.trans (first : Later heap c c₁) (second : Later heap c₁ c₂) : Later heap c c₂ :=
  ⟨second.keeps, fun k had => second.met k (first.met k had)⟩

theorem later_copyEach {copy : Value → Copying → Value × Copying}
    (each : ∀ value c, c.Keeps heap → Later heap c (copy value c).2) (values : List Value) (keeps : c.Keeps heap) :
    Later heap c (copyEach copy values c).2 := by
  induction values generalizing c with
  | nil => exact ⟨keeps, fun _ had => had⟩
  | cons value rest ih =>
    have first := each value c keeps
    exact first.trans (ih first.keeps)

theorem later_beginList (keeps : c.Keeps heap) (id : ListId) : Later heap c (c.beginList id).2 where
  keeps := by
    refine ⟨keeps.larger.trans (Heap.larger_newList c.heap #[]), fun {id'} inside => ?_, keeps.properties⟩
    have below : id'.index < c.heap.lists.size := Nat.lt_of_lt_of_le inside keeps.larger.lists
    rw [← keeps.items inside]
    simp only [Heap.items, beginList, Heap.newList, Array.getD_eq_getD_getElem?, Array.getElem?_push_lt below,
      Array.getElem?_eq_getElem below]
  met k had := by
    cases k with
    | list other =>
      simp only [met, beginList, List.lookup_cons] at had ⊢
      split
      · rfl
      · exact had
    | object other => exact had

theorem later_beginObject (keeps : c.Keeps heap) (id : ObjectId) : Later heap c (c.beginObject id).2 where
  keeps := by
    refine ⟨keeps.larger.trans (Heap.larger_newObject c.heap .empty), keeps.items, fun {id'} inside => ?_⟩
    have below : id'.index < c.heap.objects.size := Nat.lt_of_lt_of_le inside keeps.larger.objects
    rw [← keeps.properties inside]
    simp only [Heap.properties, beginObject, Heap.newObject, Array.getD_eq_getD_getElem?,
      Array.getElem?_push_lt below, Array.getElem?_eq_getElem below]
  met k had := by
    cases k with
    | list other => exact had
    | object other =>
      simp only [met, beginObject, List.lookup_cons] at had ⊢
      split
      · rfl
      · exact had

theorem later_setItems (keeps : c.Keeps heap) {copy : ListId} (apart : heap.lists.size ≤ copy.index)
    (items : Array Value) : Later heap c { c with heap := c.heap.setItems copy items } where
  keeps := by
    refine ⟨keeps.larger.trans (Heap.larger_of_size Array.size_setIfInBounds rfl), fun {id} inside => ?_,
      keeps.properties⟩
    have other : copy.index ≠ id.index := by omega
    rw [← keeps.items inside]
    simp only [Heap.items, Heap.setItems, Array.getD_eq_getD_getElem?, Array.getElem?_setIfInBounds_ne other]
  met k had := by cases k <;> exact had

theorem later_setProperties (keeps : c.Keeps heap) {copy : ObjectId} (apart : heap.objects.size ≤ copy.index)
    (properties : Table Value) : Later heap c { c with heap := c.heap.setProperties copy properties } where
  keeps := by
    refine ⟨keeps.larger.trans (Heap.larger_of_size rfl Array.size_setIfInBounds), keeps.items,
      fun {id} inside => ?_⟩
    have other : copy.index ≠ id.index := by omega
    rw [← keeps.properties inside]
    simp only [Heap.properties, Heap.setProperties, Array.getD_eq_getD_getElem?,
      Array.getElem?_setIfInBounds_ne other]
  met k had := by cases k <;> exact had

theorem later_copyWithin (depth : Nat) (value : Value) (c : Copying) (keeps : c.Keeps heap) :
    Later heap c (copyWithin depth value c).2 := by
  induction depth generalizing value c with
  | zero => exact ⟨keeps, fun _ had => had⟩
  | succ depth ih =>
    cases value with
    | list id =>
      rw [copyWithin]
      split
      · exact ⟨keeps, fun _ had => had⟩
      · have begun := later_beginList keeps id
        have inner := later_copyEach ih ((c.beginList id).2.heap.items id).toList begun.keeps
        exact begun.trans (inner.trans (later_setItems inner.keeps keeps.larger.lists _))
    | object id =>
      rw [copyWithin]
      split
      · exact ⟨keeps, fun _ had => had⟩
      · have begun := later_beginObject keeps id
        have inner := later_copyEach ih ((c.heap.properties id).entries.map (·.2)) begun.keeps
        exact begun.trans (inner.trans (later_setProperties inner.keeps keeps.larger.objects _))
    | _ => exact ⟨keeps, fun _ had => had⟩

theorem copyEach_congr {copy copy' : Value → Copying → Value × Copying} {values : List Value} (bound : Nat)
    (later : ∀ value c, c.Keeps heap → Later heap c (copy value c).2)
    (same : ∀ value ∈ values, ∀ c, c.Keeps heap → heap.unmet c.met < bound → copy value c = copy' value c)
    (keeps : c.Keeps heap) (room : heap.unmet c.met < bound) : copyEach copy values c = copyEach copy' values c := by
  induction values generalizing c with
  | nil => rfl
  | cons value rest ih =>
    obtain ⟨here, others⟩ := List.forall_mem_cons.1 same
    have first := later value c keeps
    have left := Nat.lt_of_le_of_lt (heap.unmet_le first.met) room
    simp only [copyEach, ← here c keeps room, ih others first.keeps left]

theorem copyWithin_eq (closed : heap.Closed) {depth depth' : Nat} {value : Value} (within : value.In heap)
    (keeps : c.Keeps heap) (enough : heap.unmet c.met < depth) (enough' : heap.unmet c.met < depth') :
    copyWithin depth value c = copyWithin depth' value c := by
  induction depth generalizing depth' value c with
  | zero => omega
  | succ depth ih =>
    obtain ⟨depth', rfl⟩ : ∃ k, depth' = k + 1 := ⟨depth' - 1, by omega⟩
    cases value with
    | list id =>
      rw [copyWithin, copyWithin]
      split
      · rfl
      · next fresh =>
        have begun := later_beginList keeps id
        have less : heap.unmet (c.beginList id).2.met < heap.unmet c.met :=
          heap.unmet_lt (heap.mem_containers_list.2 within) (by simp [met, fresh]) (by simp [met, beginList]) begun.met
        have inner : copyEach (copyWithin depth) (heap.items id).toList (c.beginList id).2 =
            copyEach (copyWithin depth') (heap.items id).toList (c.beginList id).2 := by
          refine copyEach_congr (min depth depth') (later_copyWithin depth) ?_ begun.keeps (by omega)
          intro item mem c' keeps room
          exact ih (closed.items id item (Array.mem_toList_iff.1 mem)) keeps (by omega) (by omega)
        simp only [begun.keeps.items within, inner]
    | object id =>
      rw [copyWithin, copyWithin]
      split
      · rfl
      · next fresh =>
        have begun := later_beginObject keeps id
        have less : heap.unmet (c.beginObject id).2.met < heap.unmet c.met :=
          heap.unmet_lt (heap.mem_containers_object.2 within) (by simp [met, fresh]) (by simp [met, beginObject])
            begun.met
        have inner : copyEach (copyWithin depth) ((heap.properties id).entries.map (·.2)) (c.beginObject id).2 =
            copyEach (copyWithin depth') ((heap.properties id).entries.map (·.2)) (c.beginObject id).2 := by
          refine copyEach_congr (min depth depth') (later_copyWithin depth) ?_ begun.keeps (by omega)
          intro value mem c' keeps room
          obtain ⟨entry, held, rfl⟩ := List.mem_map.1 mem
          exact ih (closed.properties id entry held) keeps (by omega) (by omega)
        simp only [keeps.properties within, inner]
    | _ => rfl

structure Sound (c : Copying) : Prop where
  closed : c.heap.Closed
  lists {id copy : ListId} (had : c.lists.lookup id = some copy) : (Value.list copy).In c.heap
  objects {id copy : ObjectId} (had : c.objects.lookup id = some copy) : (Value.object copy).In c.heap

structure Gives (c c' : Copying) (values : List Value) : Prop where
  larger : c.heap.Larger c'.heap
  sound : c'.Sound
  within : ∀ value ∈ values, value.In c'.heap

theorem Sound.beginList (sound : c.Sound) (id : ListId) :
    c.Gives (c.beginList id).2 [.list (c.beginList id).1] := by
  have larger : c.heap.Larger (c.beginList id).2.heap := Heap.larger_newList c.heap #[]
  have here : (Value.list (c.beginList id).1).In (c.beginList id).2.heap := Heap.in_newList c.heap #[]
  refine ⟨larger, ⟨?_, fun {other copy} had => ?_, fun had => (sound.objects had).mono larger⟩,
    List.forall_mem_singleton.2 here⟩
  · exact (sound.closed.all larger).newList fun _ mem => absurd mem (Array.not_mem_empty _)
  · simp only [Copying.beginList, List.lookup_cons] at had
    split at had
    · cases had
      exact here
    · exact (sound.lists had).mono larger

theorem Sound.beginObject (sound : c.Sound) (id : ObjectId) :
    c.Gives (c.beginObject id).2 [.object (c.beginObject id).1] := by
  have larger : c.heap.Larger (c.beginObject id).2.heap := Heap.larger_newObject c.heap .empty
  have here : (Value.object (c.beginObject id).1).In (c.beginObject id).2.heap := Heap.in_newObject c.heap .empty
  refine ⟨larger, ⟨?_, fun had => (sound.lists had).mono larger, fun {other copy} had => ?_⟩,
    List.forall_mem_singleton.2 here⟩
  · exact (sound.closed.all larger).newObject .empty
  · simp only [Copying.beginObject, List.lookup_cons] at had
    split at had
    · cases had
      exact here
    · exact (sound.objects had).mono larger

theorem Sound.withHeap (sound : c.Sound) (closed : heap.Closed) (larger : c.heap.Larger heap) :
    ({ c with heap } : Copying).Sound :=
  ⟨closed, fun had => (sound.lists had).mono larger, fun had => (sound.objects had).mono larger⟩

namespace Gives

variable {values others : List Value}

theorem trans (first : c.Gives c₁ values) (second : c₁.Gives c₂ others) : c.Gives c₂ others :=
  ⟨first.larger.trans second.larger, second.sound, second.within⟩

theorem setItems (given : c.Gives c₁ values) {copy : ListId} (begun : (Value.list copy).In c.heap) :
    c.Gives { c₁ with heap := c₁.heap.setItems copy values.toArray } [.list copy] := by
  have larger : c₁.heap.Larger (c₁.heap.setItems copy values.toArray) :=
    Heap.larger_of_size Array.size_setIfInBounds rfl
  refine ⟨given.larger.trans larger, given.sound.withHeap ?_ larger, List.forall_mem_singleton.2 ?_⟩
  · exact (given.sound.closed.all larger).setItems fun item mem =>
      (given.within item (List.mem_toArray.1 mem)).mono larger
  · exact begun.mono (given.larger.trans larger)

theorem setProperties (given : c.Gives c₁ values) {copy : ObjectId} (begun : (Value.object copy).In c.heap)
    (names : List String) :
    c.Gives { c₁ with heap := c₁.heap.setProperties copy (.ofList (names.zip values)) } [.object copy] := by
  have larger : c₁.heap.Larger (c₁.heap.setProperties copy (.ofList (names.zip values))) :=
    Heap.larger_of_size rfl Array.size_setIfInBounds
  refine ⟨given.larger.trans larger, given.sound.withHeap ?_ larger, List.forall_mem_singleton.2 ?_⟩
  · exact (given.sound.closed.all larger).setProperties <| .ofList fun entry mem =>
      (given.within entry.2 (List.of_mem_zip mem).2).mono larger
  · exact begun.mono (given.larger.trans larger)

end Gives

theorem gives_copyEach {copy : Value → Copying → Value × Copying}
    (each : ∀ value c, Sound c → value.In c.heap → c.Gives (copy value c).2 [(copy value c).1]) {values : List Value}
    (sound : c.Sound) (within : ∀ value ∈ values, value.In c.heap) :
    c.Gives (copyEach copy values c).2 (copyEach copy values c).1 := by
  induction values generalizing c with
  | nil => exact ⟨.refl _, sound, within⟩
  | cons value rest ih =>
    obtain ⟨here, others⟩ := List.forall_mem_cons.1 within
    have first := each value c sound here
    have last := ih first.sound fun value mem => (others value mem).mono first.larger
    refine ⟨first.larger.trans last.larger, last.sound, List.forall_mem_cons.2 ⟨?_, last.within⟩⟩
    exact (first.within _ List.mem_cons_self).mono last.larger

theorem gives_copyWithin (depth : Nat) (value : Value) (c : Copying) (sound : c.Sound) (within : value.In c.heap) :
    c.Gives (copyWithin depth value c).2 [(copyWithin depth value c).1] := by
  have same : c.Gives c [value] := ⟨.refl _, sound, List.forall_mem_singleton.2 within⟩
  induction depth generalizing value c with
  | zero => exact same
  | succ depth ih =>
    have each (value : Value) (c : Copying) (sound : c.Sound) (within : value.In c.heap) :=
      ih value c sound within ⟨.refl _, sound, List.forall_mem_singleton.2 within⟩
    cases value with
    | list id =>
      rw [copyWithin]
      split
      · next copy had => exact ⟨.refl _, sound, List.forall_mem_singleton.2 (sound.lists had)⟩
      · have begun := sound.beginList id
        have items : ∀ item ∈ ((c.beginList id).2.heap.items id).toList, item.In (c.beginList id).2.heap :=
          fun item mem => begun.sound.closed.items id item (Array.mem_toList_iff.1 mem)
        exact begun.trans ((gives_copyEach each begun.sound items).setItems (begun.within _ List.mem_cons_self))
    | object id =>
      rw [copyWithin]
      split
      · next copy had => exact ⟨.refl _, sound, List.forall_mem_singleton.2 (sound.objects had)⟩
      · have begun := sound.beginObject id
        have values : ∀ value ∈ (c.heap.properties id).entries.map (·.2), value.In (c.beginObject id).2.heap :=
          List.forall_mem_map.2 fun entry mem => (sound.closed.properties id entry mem).mono begun.larger
        exact begun.trans ((gives_copyEach each begun.sound values).setProperties
          (begun.within _ List.mem_cons_self) _)
    | _ => exact same

end

end Copying

namespace Heap

variable {heap : Heap} {value : Value} (closed : heap.Closed) (within : value.In heap)
include closed within

theorem yields_deepCopy : heap.Yields (heap.deepCopy value).2 [(heap.deepCopy value).1] := by
  have started : Copying.Sound ⟨heap, [], []⟩ := by
    refine ⟨closed, ?_, ?_⟩ <;> exact fun had => by cases had
  have copied := Copying.gives_copyWithin (heap.containerCount + 1) value _ started within
  exact ⟨copied.larger, copied.sound.closed, copied.within⟩

theorem deepCopy_above (base : Heap) : (heap.above base).deepCopy (value.above base) =
    ((heap.deepCopy value).1.above base, (heap.deepCopy value).2.above base) := by
  have keeps : Copying.Keeps heap ⟨heap, [], []⟩ := ⟨.refl heap, fun _ => rfl, fun _ => rfl⟩
  have started : heap.unmet (Copying.met ⟨heap, [], []⟩) ≤ heap.containerCount := heap.unmet_le_containerCount
  have larger := heap.containerCount_le_above base
  have same : Copying.copyWithin ((heap.above base).containerCount + 1) value ⟨heap, [], []⟩ =
      Copying.copyWithin (heap.containerCount + 1) value ⟨heap, [], []⟩ :=
    Copying.copyWithin_eq closed within keeps (by omega) (by omega)
  have moved := Copying.copyWithin_above base ((heap.above base).containerCount + 1) value ⟨heap, [], []⟩
  rw [same] at moved
  exact congrArg (fun copied => (copied.1, copied.2.heap)) moved

end Heap

end HookScript
