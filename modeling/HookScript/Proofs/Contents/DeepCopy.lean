import HookScript.Proofs.Contents.Reach
import HookScript.Proofs.Contents.Tables
import HookScript.Proofs.Run.Growth

/-!
Deep copies have the shape of what they are copies of and share no list and no object with it. A list or an object
is entered among the copies before its copy has anything in it, so what is known of the copies at any moment is which
of them are there, and that those that are complete match what they are copies of.
-/

namespace HookScript

structure Renaming where
  list : ListId → ListId
  object : ObjectId → ObjectId

namespace Renaming

variable (ρ : Renaming)

def container : Container → Container
  | .list id => .list (ρ.list id)
  | .object id => .object (ρ.object id)

def value : Value → Value
  | .list id => .list (ρ.list id)
  | .object id => .object (ρ.object id)
  | other => other

theorem container?_value (value : Value) : (ρ.value value).container? = value.container?.map ρ.container := by
  cases value <;> rfl

end Renaming

namespace Heap

/-- What has taken the place of a list or an object holds the same, up to the renaming. -/
def TwinIn (heap heap' : Heap) (ρ : Renaming) : Container → Prop
  | .list id => heap'.items (ρ.list id) = (heap.items id).map ρ.value
  | .object id => heap'.properties (ρ.object id) = (heap.properties id).map ρ.value

structure Twins (heap heap' : Heap) (ρ : Renaming) (value value' : Value) : Prop where
  value_eq : value' = ρ.value value
  reaches (k : Container) : heap'.Reaches value' k ↔ ∃ k', heap.Reaches value k' ∧ k = ρ.container k'
  injective {k k' : Container} (reached : heap.Reaches value k) (reached' : heap.Reaches value k')
    (same : ρ.container k = ρ.container k') : k = k'
  twin {k : Container} (reached : heap.Reaches value k) : heap.TwinIn heap' ρ k

variable {heap heap' : Heap} {ρ : Renaming} {value : Value} {k : Container}

theorem TwinIn.inside_eq (twin : heap.TwinIn heap' ρ k) :
    heap'.inside (ρ.container k) = (heap.inside k).map ρ.value := by
  cases k with
  | list id => exact (congrArg Array.toList twin).trans Array.toList_map
  | object id =>
    have values := Table.values_map ρ.value (heap.properties id)
    rwa [← show heap'.properties (ρ.object id) = _ from twin] at values

theorem reaches_value_iff (twin : ∀ k, heap.Reaches value k → heap.TwinIn heap' ρ k) :
    heap'.Reaches (ρ.value value) k ↔ ∃ k', heap.Reaches value k' ∧ k = ρ.container k' := by
  refine ⟨fun reached => ?_, ?_⟩
  · induction reached with
    | here is =>
      obtain ⟨k', is', rfl⟩ := Option.map_eq_some_iff.1 ((ρ.container?_value value).symm.trans is)
      exact ⟨k', .here is', rfl⟩
    | onward _ mem is ih =>
      obtain ⟨k', reached, rfl⟩ := ih
      rw [(twin k' reached).inside_eq] at mem
      obtain ⟨held, mem', rfl⟩ := List.mem_map.1 mem
      obtain ⟨inner, is', rfl⟩ := Option.map_eq_some_iff.1 ((ρ.container?_value held).symm.trans is)
      exact ⟨inner, .onward reached mem' is', rfl⟩
  · rintro ⟨k', reached, rfl⟩
    induction reached with
    | here is => exact .here (by rw [ρ.container?_value, is, Option.map_some])
    | @onward k₀ inner held reached mem is ih =>
      have moved : ρ.value held ∈ heap'.inside (ρ.container k₀) := by
        rw [(twin k₀ reached).inside_eq]
        exact List.mem_map_of_mem mem
      exact .onward ih moved (by rw [ρ.container?_value, is, Option.map_some])

end Heap

namespace Copying

def twins (c : Copying) : Renaming where
  list id := (c.lists.lookup id).getD id
  object id := (c.objects.lookup id).getD id

def Has (c : Copying) (value : Value) : Prop := ∀ k ∈ value.container?, c.met k

structure Filled (heap : Heap) (c : Copying) (k : Container) : Prop where
  twin : heap.TwinIn c.heap c.twins k
  met : ∀ held ∈ heap.inside k, c.Has held

structure Apart (heap : Heap) (c : Copying) : Prop where
  keeps : c.Keeps heap
  present {k : Container} (had : c.met k) : c.twins.container k ∈ c.heap.containers
  fresh {k : Container} (had : c.met k) : c.twins.container k ∉ heap.containers
  injective {k k' : Container} (had : c.met k) (had' : c.met k')
    (same : c.twins.container k = c.twins.container k') : k = k'

structure Onward (c c' : Copying) : Prop where
  keeps : c'.Keeps c.heap
  met {k : Container} (had : c.met k) : c'.met k
  twin {k : Container} (had : c.met k) : c'.twins.container k = c.twins.container k

structure Makes (heap : Heap) (c c' : Copying) (values copies : List Value) : Prop where
  onward : Onward c c'
  apart : c'.Apart heap
  has : ∀ value ∈ values, c'.Has value
  copies_eq : copies = values.map c'.twins.value
  filled {k : Container} (now : c'.met k) : c.met k ∨ c'.Filled heap k

section

variable {heap : Heap} {c c₁ c₂ : Copying} {k : Container}

theorem Keeps.sameIn (keeps : c.Keeps heap) (mem : k ∈ heap.containers) : heap.SameIn c.heap k := by
  cases k with
  | list id => exact keeps.items (heap.mem_containers_list.1 mem)
  | object id => exact keeps.properties (heap.mem_containers_object.1 mem)

theorem keeps_of_sameIn (larger : heap.Larger c.heap) (same : ∀ k ∈ heap.containers, heap.SameIn c.heap k) :
    c.Keeps heap where
  larger := larger
  items inside := same _ (heap.mem_containers_list.2 inside)
  properties inside := same _ (heap.mem_containers_object.2 inside)

theorem Keeps.trans (first : c.Keeps heap) (second : c₁.Keeps c.heap) : c₁.Keeps heap :=
  keeps_of_sameIn (first.larger.trans second.larger) fun _ mem =>
    (first.sameIn mem).trans (second.sameIn (first.larger.mem_containers mem))

namespace Onward

theorem refl (c : Copying) : Onward c c := ⟨⟨.refl _, fun _ => rfl, fun _ => rfl⟩, id, fun _ => rfl⟩

theorem trans (first : Onward c c₁) (second : Onward c₁ c₂) : Onward c c₂ where
  keeps := first.keeps.trans second.keeps
  met had := second.met (first.met had)
  twin had := (second.twin (first.met had)).trans (first.twin had)

variable (onward : Onward c c₁)
include onward

theorem has {value : Value} (had : c.Has value) : c₁.Has value := fun k is => onward.met (had k is)

theorem value_eq {value : Value} (had : c.Has value) : c₁.twins.value value = c.twins.value value := by
  cases value with
  | list id =>
    have same := onward.twin (had (.list id) rfl)
    exact congrArg Value.list (Container.list.inj same)
  | object id =>
    have same := onward.twin (had (.object id) rfl)
    exact congrArg Value.object (Container.object.inj same)
  | _ => rfl

theorem filled (apart : c.Apart heap) (had : c.met k) (filled : c.Filled heap k) : c₁.Filled heap k := by
  refine ⟨?_, fun held mem => onward.has (filled.met held mem)⟩
  have there := onward.keeps.sameIn (apart.present had)
  have same := onward.twin had
  cases k with
  | list id =>
    have items : ∀ item ∈ heap.items id, c.twins.value item = c₁.twins.value item := fun item mem =>
      (onward.value_eq (filled.met item (Array.mem_toList_iff.2 mem))).symm
    simp only [Renaming.container, Container.list.injEq] at same
    exact ((congrArg c₁.heap.items same).trans there).trans
      ((show c.heap.items _ = _ from filled.twin).trans (Array.map_congr_left items))
  | object id =>
    have entries : ∀ entry ∈ (heap.properties id).entries, c.twins.value entry.2 = c₁.twins.value entry.2 :=
      fun entry mem => (onward.value_eq (filled.met entry.2 (List.mem_map_of_mem mem))).symm
    simp only [Renaming.container, Container.object.injEq] at same
    have tables : (heap.properties id).map c.twins.value = (heap.properties id).map c₁.twins.value := by
      simp only [Table.map, Table.mk.injEq]
      exact List.map_congr_left fun entry mem => by rw [entries entry mem]
    exact ((congrArg c₁.heap.properties same).trans there).trans
      ((show c.heap.properties _ = _ from filled.twin).trans tables)

end Onward

theorem Makes.append {values values' copies copies' : List Value} (first : Makes heap c c₁ values copies)
    (second : Makes heap c₁ c₂ values' copies') : Makes heap c c₂ (values ++ values') (copies ++ copies') where
  onward := first.onward.trans second.onward
  apart := second.apart
  has := List.forall_mem_append.2 ⟨fun value mem => second.onward.has (first.has value mem), second.has⟩
  copies_eq := by
    have kept : values.map c₁.twins.value = values.map c₂.twins.value :=
      List.map_congr_left fun value mem => (second.onward.value_eq (first.has value mem)).symm
    rw [first.copies_eq, second.copies_eq, kept, List.map_append]
  filled now := by
    rcases second.filled now with earlier | filled
    · rcases first.filled earlier with had | filled
      · exact .inl had
      · exact .inr (second.onward.filled first.apart earlier filled)
    · exact .inr filled

theorem makes_nothing (apart : c.Apart heap) {value : Value} (had : c.Has value) :
    Makes heap c c [value] [c.twins.value value] where
  onward := .refl c
  apart := apart
  has := List.forall_mem_singleton.2 had
  copies_eq := rfl
  filled := .inl

structure Begins (c c₁ : Copying) (k : Container) : Prop where
  keeps : c₁.Keeps c.heap
  met_iff (k' : Container) : c₁.met k' ↔ k' = k ∨ c.met k'
  twin {k' : Container} (other : k' ≠ k) : c₁.twins.container k' = c.twins.container k'
  present : c₁.twins.container k ∈ c₁.heap.containers
  fresh : c₁.twins.container k ∉ c.heap.containers

theorem begins_list {id : ListId} : Begins c (c.beginList id).2 (.list id) where
  keeps := (later_beginList ⟨.refl _, fun _ => rfl, fun _ => rfl⟩ id).keeps
  met_iff k' := by
    cases k' with
    | list other =>
      simp only [met, beginList, List.lookup_cons, Container.list.injEq]
      cases same : other == id with
      | true => simp [beq_iff_eq.1 same]
      | false => simp [beq_eq_false_iff_ne.1 same]
    | object other => simp [met, beginList]
  twin {k'} other := by
    cases k' with
    | list other' =>
      have different : (other' == id) = false := beq_eq_false_iff_ne.2 fun same => other (congrArg _ same)
      simp only [Renaming.container, twins, beginList, List.lookup_cons, different]
    | object other' => rfl
  present := by
    simp [Renaming.container, twins, beginList, Heap.newList, Heap.mem_containers_list]
  fresh := by
    simp [Renaming.container, twins, beginList, Heap.newList, Heap.mem_containers_list]

theorem begins_object {id : ObjectId} : Begins c (c.beginObject id).2 (.object id) where
  keeps := (later_beginObject ⟨.refl _, fun _ => rfl, fun _ => rfl⟩ id).keeps
  met_iff k' := by
    cases k' with
    | list other => simp [met, beginObject]
    | object other =>
      simp only [met, beginObject, List.lookup_cons, Container.object.injEq]
      cases same : other == id with
      | true => simp [beq_iff_eq.1 same]
      | false => simp [beq_eq_false_iff_ne.1 same]
  twin {k'} other := by
    cases k' with
    | list other' => rfl
    | object other' =>
      have different : (other' == id) = false := beq_eq_false_iff_ne.2 fun same => other (congrArg _ same)
      simp only [Renaming.container, twins, beginObject, List.lookup_cons, different]
  present := by
    simp [Renaming.container, twins, beginObject, Heap.newObject, Heap.mem_containers_object]
  fresh := by
    simp [Renaming.container, twins, beginObject, Heap.newObject, Heap.mem_containers_object]

namespace Begins

variable (begins : Begins c c₁ k) (new : ¬c.met k)
include begins new

theorem onward : Onward c c₁ where
  keeps := begins.keeps
  met had := (begins.met_iff _).2 (.inr had)
  twin had := begins.twin fun same => new (same ▸ had)

theorem apart (apart : c.Apart heap) : c₁.Apart heap := by
  have kept {k' : Container} (had : c.met k') := (begins.onward new).twin had
  refine ⟨apart.keeps.trans begins.keeps, fun {k'} had => ?_, fun {k'} had => ?_, fun {k₁ k₂} had had' same => ?_⟩
  · rcases (begins.met_iff k').1 had with rfl | before
    · exact begins.present
    · rw [kept before]
      exact begins.keeps.larger.mem_containers (apart.present before)
  · rcases (begins.met_iff k').1 had with rfl | before
    · exact fun mem => begins.fresh (apart.keeps.larger.mem_containers mem)
    · rw [kept before]
      exact apart.fresh before
  · rcases (begins.met_iff k₁).1 had with rfl | before <;> rcases (begins.met_iff k₂).1 had' with rfl | before'
    · rfl
    · rw [kept before'] at same
      exact absurd (same ▸ apart.present before') begins.fresh
    · rw [kept before] at same
      exact absurd (same ▸ apart.present before) begins.fresh
    · rw [kept before, kept before'] at same
      exact apart.injective before before' same

theorem unmet_lt (mem : k ∈ heap.containers) : heap.unmet c₁.met < heap.unmet c.met :=
  heap.unmet_lt mem (Bool.eq_false_iff.2 new) ((begins.met_iff k).2 (.inl rfl)) fun _ had =>
    (begins.onward new).met had

theorem makes {values : List Value} {filledHeap : Heap} {value : Value} (is : value.container? = some k)
    (inner : Makes heap c₁ c₂ (heap.inside k) values) (larger : c₂.heap.Larger filledHeap)
    (others : ∀ k' ∈ c₂.heap.containers, k' ≠ c₂.twins.container k → c₂.heap.SameIn filledHeap k')
    (twin : heap.TwinIn filledHeap c₂.twins k) :
    Makes heap c { c₂ with heap := filledHeap } [value] [c₂.twins.value value] := by
  have entered : c₁.met k := (begins.met_iff k).2 (.inl rfl)
  have now : c₂.met k := inner.onward.met entered
  have itsCopy : c₂.twins.container k = c₁.twins.container k := inner.onward.twin entered
  have onward : Onward c c₂ := (begins.onward new).trans inner.onward
  have kept {base : Heap} (keeps : c₂.Keeps base) (apart : c₂.twins.container k ∉ base.containers) :
      Keeps base { c₂ with heap := filledHeap } :=
    keeps_of_sameIn (keeps.larger.trans larger) fun k' mem =>
      (keeps.sameIn mem).trans (others k' (keeps.larger.mem_containers mem) fun same => apart (same ▸ mem))
  refine ⟨⟨kept onward.keeps (itsCopy ▸ begins.fresh), onward.met, onward.twin⟩, ?_, ?_, rfl, fun {k'} met => ?_⟩
  · exact ⟨kept inner.apart.keeps (inner.apart.fresh now), fun had => larger.mem_containers (inner.apart.present had),
      inner.apart.fresh, inner.apart.injective⟩
  · refine List.forall_mem_singleton.2 fun k' is' => ?_
    cases is.symm.trans is'
    exact now
  · by_cases here : k' = k
    · subst here
      exact .inr ⟨twin, inner.has⟩
    · rcases inner.filled met with earlier | filled
      · exact .inl (((begins.met_iff k').1 earlier).resolve_left here)
      · refine .inr ⟨?_, filled.met⟩
        have same := others _ (inner.apart.present met) fun same => here (inner.apart.injective met now same)
        cases k' with
        | list id => exact Eq.trans same filled.twin
        | object id => exact Eq.trans same filled.twin

end Begins

theorem makes_copyEach {copy : Value → Copying → Value × Copying} (bound : Nat)
    (each : ∀ value c, value.In heap → c.Apart heap → heap.unmet c.met < bound →
      Makes heap c (copy value c).2 [value] [(copy value c).1])
    {values : List Value} (within : ∀ value ∈ values, value.In heap) (apart : c.Apart heap)
    (room : heap.unmet c.met < bound) :
    Makes heap c (copyEach copy values c).2 values (copyEach copy values c).1 := by
  induction values generalizing c with
  | nil => exact ⟨.refl c, apart, List.forall_mem_nil _, rfl, .inl⟩
  | cons value rest ih =>
    obtain ⟨here, others⟩ := List.forall_mem_cons.1 within
    have first := each value c here apart room
    have left : heap.unmet (copy value c).2.met ≤ heap.unmet c.met := heap.unmet_le fun _ had => first.onward.met had
    exact first.append (ih others first.apart (Nat.lt_of_le_of_lt left room))

theorem sameIn_setItems {copy : ListId} (items : Array Value) {k' : Container} (other : k' ≠ .list copy) :
    c.heap.SameIn (c.heap.setItems copy items) k' := by
  cases k' with
  | list id =>
    have different : copy.index ≠ id.index := fun same => other (congrArg (fun i => Container.list ⟨i⟩) same.symm)
    simp only [Heap.SameIn, Heap.items, Heap.setItems, Array.getD_eq_getD_getElem?,
      Array.getElem?_setIfInBounds_ne different]
  | object id => rfl

theorem sameIn_setProperties {copy : ObjectId} (properties : Table Value) {k' : Container}
    (other : k' ≠ .object copy) : c.heap.SameIn (c.heap.setProperties copy properties) k' := by
  cases k' with
  | list id => rfl
  | object id =>
    have different : copy.index ≠ id.index := fun same => other (congrArg (fun i => Container.object ⟨i⟩) same.symm)
    simp only [Heap.SameIn, Heap.properties, Heap.setProperties, Array.getD_eq_getD_getElem?,
      Array.getElem?_setIfInBounds_ne different]

theorem items_setItems {copy : ListId} (inside : copy.index < c.heap.lists.size) (items : Array Value) :
    (c.heap.setItems copy items).items copy = items := by
  simp only [Heap.items, Heap.setItems, Array.getD_eq_getD_getElem?, Array.getElem?_setIfInBounds_self_of_lt inside,
    Option.getD_some]

theorem properties_setProperties {copy : ObjectId} (inside : copy.index < c.heap.objects.size)
    (properties : Table Value) : (c.heap.setProperties copy properties).properties copy = properties := by
  simp only [Heap.properties, Heap.setProperties, Array.getD_eq_getD_getElem?,
    Array.getElem?_setIfInBounds_self_of_lt inside, Option.getD_some]

section

variable {copy : Value → Copying → Value × Copying} {bound : Nat} (closed : heap.Closed) (apart : c.Apart heap)
  (each : ∀ value c, value.In heap → c.Apart heap → heap.unmet c.met < bound →
    Makes heap c (copy value c).2 [value] [(copy value c).1])
  (room : heap.unmet c.met ≤ bound)
include closed apart each room

theorem makes_list {id : ListId} {values : List Value} (within : (Value.list id).In heap)
    (new : c.lists.lookup id = none)
    (copied : copyEach copy ((c.beginList id).2.heap.items id).toList (c.beginList id).2 = (values, c₂)) :
    Makes heap c { c₂ with heap := c₂.heap.setItems (c.beginList id).1 values.toArray } [.list id]
      [.list (c.beginList id).1] := by
  have noCopy : ¬c.met (.list id) := by simp [met, new]
  have begins : Begins c (c.beginList id).2 (.list id) := begins_list
  have apart₁ := begins.apart noCopy apart
  have less := begins.unmet_lt noCopy (heap.mem_containers_list.2 within)
  have contents : heap.inside (.list id) = ((c.beginList id).2.heap.items id).toList :=
    congrArg Array.toList (apart₁.keeps.items within).symm
  have inner : Makes heap (c.beginList id).2 c₂ (heap.inside (.list id)) values := by
    have made := makes_copyEach bound each (closed.inside (.list id)) apart₁ (by omega)
    rw [contents, copied] at made
    exact contents ▸ made
  have now : c₂.met (.list id) := inner.onward.met ((begins.met_iff _).2 (.inl rfl))
  have itsCopy : c₂.twins.list id = (c.beginList id).1 := by
    have kept := inner.onward.twin ((begins.met_iff (.list id)).2 (.inl rfl))
    simpa only [Renaming.container, Container.list.injEq, twins, beginList, List.lookup_cons_self,
      Option.getD_some] using kept
  have present : (c.beginList id).1.index < c₂.heap.lists.size :=
    itsCopy ▸ c₂.heap.mem_containers_list.1 (inner.apart.present now)
  have twin : heap.TwinIn (c₂.heap.setItems (c.beginList id).1 values.toArray) c₂.twins (.list id) := by
    rw [Heap.TwinIn, itsCopy, items_setItems present, inner.copies_eq]
    exact (List.map_toArray).symm
  have larger : c₂.heap.Larger (c₂.heap.setItems (c.beginList id).1 values.toArray) :=
    Heap.larger_of_size Array.size_setIfInBounds rfl
  have made := begins.makes noCopy (rfl : (Value.list id).container? = some (.list id)) inner larger
    (fun k' _ other => sameIn_setItems _ (by rwa [Renaming.container, itsCopy] at other)) twin
  rwa [Renaming.value, itsCopy] at made

theorem makes_object {id : ObjectId} {values : List Value} (within : (Value.object id).In heap)
    (new : c.objects.lookup id = none)
    (copied : copyEach copy ((c.heap.properties id).entries.map (·.2)) (c.beginObject id).2 = (values, c₂)) :
    Makes heap c
      { c₂ with
        heap := c₂.heap.setProperties (c.beginObject id).1
          (.ofList (((c.heap.properties id).entries.map (·.1)).zip values)) }
      [.object id] [.object (c.beginObject id).1] := by
  have noCopy : ¬c.met (.object id) := by simp [met, new]
  have begins : Begins c (c.beginObject id).2 (.object id) := begins_object
  have apart₁ := begins.apart noCopy apart
  have less := begins.unmet_lt noCopy (heap.mem_containers_object.2 within)
  rw [apart.keeps.properties within] at copied ⊢
  have inner : Makes heap (c.beginObject id).2 c₂ (heap.inside (.object id)) values := by
    have made := makes_copyEach bound each (closed.inside (.object id)) apart₁ (by omega)
    rw [Heap.inside, copied] at made
    exact made
  have now : c₂.met (.object id) := inner.onward.met ((begins.met_iff _).2 (.inl rfl))
  have itsCopy : c₂.twins.object id = (c.beginObject id).1 := by
    have kept := inner.onward.twin ((begins.met_iff (.object id)).2 (.inl rfl))
    simpa only [Renaming.container, Container.object.injEq, twins, beginObject, List.lookup_cons_self,
      Option.getD_some] using kept
  have present : (c.beginObject id).1.index < c₂.heap.objects.size :=
    itsCopy ▸ c₂.heap.mem_containers_object.1 (inner.apart.present now)
  have twin : heap.TwinIn (c₂.heap.setProperties (c.beginObject id).1
      (.ofList (((heap.properties id).entries.map (·.1)).zip values))) c₂.twins (.object id) := by
    rw [Heap.TwinIn, itsCopy, properties_setProperties present, inner.copies_eq, Heap.inside, Table.zip_map,
      ← Table.map_ofList, Table.ofList_zip]
  have larger (properties : Table Value) : c₂.heap.Larger (c₂.heap.setProperties (c.beginObject id).1 properties) :=
    Heap.larger_of_size rfl Array.size_setIfInBounds
  have made := begins.makes noCopy (rfl : (Value.object id).container? = some (.object id)) inner (larger _)
    (fun k' _ other => sameIn_setProperties _ (by rwa [Renaming.container, itsCopy] at other)) twin
  rwa [Renaming.value, itsCopy] at made

end

/-- With room for every container that has no copy yet, a copy is made of everything that is reached. -/
theorem makes_copyWithin (closed : heap.Closed) {depth : Nat} {value : Value} (within : value.In heap)
    (apart : c.Apart heap) (room : heap.unmet c.met < depth) :
    Makes heap c (copyWithin depth value c).2 [value] [(copyWithin depth value c).1] := by
  induction depth generalizing value c with
  | zero => omega
  | succ depth ih =>
    have each (value : Value) (c : Copying) (within : value.In heap) (apart : c.Apart heap)
        (room : heap.unmet c.met < depth) := ih within apart room
    cases value with
    | list id =>
      rw [copyWithin]
      split
      · next copy had =>
        have made : Makes heap c c [.list id] _ := makes_nothing apart fun k is => by cases is; simp [met, had]
        simpa only [Renaming.value, twins, had, Option.getD_some] using made
      · next new => exact makes_list closed apart each (Nat.le_of_lt_succ room) within new rfl
    | object id =>
      rw [copyWithin]
      split
      · next copy had =>
        have made : Makes heap c c [.object id] _ := makes_nothing apart fun k is => by cases is; simp [met, had]
        simpa only [Renaming.value, twins, had, Option.getD_some] using made
      · next new => exact makes_object closed apart each (Nat.le_of_lt_succ room) within new rfl
    | _ =>
      refine makes_nothing apart fun _ is => ?_
      cases is

end

/-! All the copies, made when there were none before. -/

def start (heap : Heap) : Copying := ⟨heap, [], []⟩

theorem keeps_start (heap : Heap) : (start heap).Keeps heap := ⟨.refl heap, fun _ => rfl, fun _ => rfl⟩

theorem not_met_start (heap : Heap) (k : Container) : ¬(start heap).met k := by
  cases k <;> exact Bool.false_ne_true

theorem apart_start (heap : Heap) : (start heap).Apart heap := by
  refine ⟨keeps_start heap, ?_, ?_, ?_⟩ <;> exact fun had => absurd had (not_met_start heap _)

section

variable {heap : Heap} {c : Copying} {value copy : Value} (made : Makes heap (start heap) c [value] [copy])
include made

theorem Makes.copy_eq : copy = c.twins.value value := (List.cons.inj made.copies_eq).1

theorem Makes.met_of_reaches {k : Container} (reached : heap.Reaches value k) : c.met k := by
  induction reached with
  | here is => exact made.has value List.mem_cons_self _ is
  | onward _ mem is ih =>
    have filled := (made.filled ih).resolve_left (not_met_start heap _)
    exact filled.met _ mem _ is

theorem Makes.twin {k : Container} (reached : heap.Reaches value k) : heap.TwinIn c.heap c.twins k :=
  ((made.filled (made.met_of_reaches reached)).resolve_left (not_met_start heap k)).twin

theorem Makes.twins : heap.Twins c.heap c.twins value copy where
  value_eq := made.copy_eq
  reaches _ := made.copy_eq ▸ Heap.reaches_value_iff fun _ reached => made.twin reached
  injective reached reached' same :=
    made.apart.injective (made.met_of_reaches reached) (made.met_of_reaches reached') same
  twin reached := made.twin reached

theorem Makes.new_of_reaches {k : Container} (reached : c.heap.Reaches copy k) :
    k ∈ c.heap.containers ∧ k ∉ heap.containers := by
  obtain ⟨k', reached', rfl⟩ := (made.twins.reaches k).1 reached
  have had := made.met_of_reaches reached'
  exact ⟨made.apart.present had, made.apart.fresh had⟩

theorem Makes.old_of_reaches (closed : heap.Closed) (within : value.In heap) {k : Container}
    (reached : c.heap.Reaches value k) : k ∈ heap.containers := by
  have same : heap.SameFrom c.heap value := Heap.sameFrom_of_sameIn fun k reached =>
    made.apart.keeps.sameIn (Heap.mem_containers_of_reaches closed within reached)
  exact Heap.mem_containers_of_reaches closed within ((same.reaches k).1 reached)

end

end Copying

namespace Heap

variable {heap heap' : Heap} {value copy : Value}

/-- Copying goes no deeper than there are lists and objects, and leaves them as they are. What is reached from the
copy is new, and it matches what is reached from the value, one to one. So whatever is done later to the lists and
objects of one side, and to others, is not seen from the other side. -/
theorem deepCopy_twins (closed : heap.Closed) (within : value.In heap) (copied : heap.deepCopy value = (copy, heap')) :
    (∀ depth, heap.containerCount < depth →
      ∃ c, Copying.copyWithin depth value (.start heap) = (copy, c) ∧ c.heap = heap') ∧
    heap.SameCode heap' ∧ (∀ k ∈ heap.containers, heap.SameIn heap' k) ∧
    (∃ ρ, heap.Twins heap' ρ value copy) ∧
    (∀ k, heap'.Reaches copy k → k ∈ heap'.containers ∧ k ∉ heap.containers) ∧
    (∀ k, heap'.Reaches value k → k ∈ heap.containers) ∧
    ∀ changes,
      ((∀ change ∈ changes, ∀ k ∈ change.target?, ¬heap'.Reaches copy k) →
        heap'.SameFrom (heap'.changeAll changes) copy) ∧
      ((∀ change ∈ changes, ∀ k ∈ change.target?, ¬heap'.Reaches value k) →
        heap'.SameFrom (heap'.changeAll changes) value) := by
  have keeps := Copying.keeps_start heap
  have room : heap.unmet (Copying.start heap).met ≤ heap.containerCount := heap.unmet_le_containerCount
  have first : (Copying.copyWithin (heap.containerCount + 1) value (.start heap)).1 = copy := congrArg Prod.fst copied
  have second : (Copying.copyWithin (heap.containerCount + 1) value (.start heap)).2.heap = heap' :=
    congrArg Prod.snd copied
  obtain ⟨c, ran, rfl⟩ : ∃ c, Copying.copyWithin (heap.containerCount + 1) value (.start heap) = (copy, c) ∧
      c.heap = heap' := ⟨_, Prod.ext first rfl, second⟩
  have made : Copying.Makes heap (.start heap) c [value] [copy] := by
    have made := Copying.makes_copyWithin closed within (Copying.apart_start heap) (Nat.lt_succ_of_le room)
    rw [ran] at made
    exact made
  have yields : heap.Yields c.heap [copy] := by
    have yields := yields_deepCopy closed within
    rw [copied] at yields
    exact yields
  refine ⟨fun depth enough => ⟨c, ?_, rfl⟩, ?_, fun k mem => made.apart.keeps.sameIn mem, ⟨c.twins, made.twins⟩,
    fun k => made.new_of_reaches, fun k => made.old_of_reaches closed within, fun changes => ⟨?_, ?_⟩⟩
  · rw [Copying.copyWithin_eq closed within keeps (Nat.lt_of_le_of_lt room enough) (Nat.lt_succ_of_le room), ran]
  · have same := sameCode_deepCopy heap value
    rwa [copied] at same
  · exact sameFrom_changeAll yields.closed (yields.within copy List.mem_cons_self)
  · exact sameFrom_changeAll yields.closed (within.mono yields.larger)

def knot : Heap := { empty with
  lists := #[#[.object ⟨0⟩, .object ⟨0⟩]], objects := #[.ofList [("around", .list ⟨0⟩)]] }

theorem closed_knot : knot.Closed where
  frames := All.empty.frames
  lists := by
    intro items mem item inside
    obtain rfl := Array.eq_of_mem_singleton mem
    simp only [List.mem_toArray, List.mem_cons, List.not_mem_nil, or_false, or_self] at inside
    subst inside
    exact Nat.zero_lt_one
  objects := by
    intro properties mem
    obtain rfl := Array.eq_of_mem_singleton mem
    exact .ofList (List.forall_mem_singleton.2 Nat.zero_lt_one)
  callables := All.empty.callables
  decoders := All.empty.decoders

/-- The copy is a knot of its own, also after it has been put into the list that it is a copy of. -/
theorem deepCopy_twins_of_knot :
    ∃ copy heap', knot.Closed ∧ (Value.list ⟨0⟩).In knot ∧ knot.deepCopy (.list ⟨0⟩) = (copy, heap') ∧
      copy = .list ⟨1⟩ ∧ heap'.items ⟨1⟩ = #[.object ⟨1⟩, .object ⟨1⟩] ∧
      heap'.SameFrom (heap'.changeAll [.push ⟨0⟩ (.list ⟨1⟩)]) copy := by
  have within : (Value.list ⟨0⟩).In knot := Nat.zero_lt_one
  obtain ⟨-, -, -, -, new, -, later⟩ := deepCopy_twins closed_knot within rfl
  refine ⟨_, _, closed_knot, within, rfl, rfl, rfl, (later [.push ⟨0⟩ (.list ⟨1⟩)]).1 ?_⟩
  refine List.forall_mem_singleton.2 fun k target reached => (new k reached).2 ?_
  cases target
  exact knot.mem_containers_list.2 within

end Heap

end HookScript
