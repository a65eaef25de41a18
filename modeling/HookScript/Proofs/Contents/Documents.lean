import HookScript.Document.Basic
import HookScript.Proofs.Contents.Reach
import HookScript.Proofs.Contents.Tables

/-!
Documents in a heap. Wherever a path of items and members leads in a document, it leads to the like of it in the heap
that the document has been put into, and every list and every object on the way is a new one that no other path
leads to.
-/

namespace HookScript

inductive Selector where
  | item (index : Nat)
  | member (name : String)
  deriving DecidableEq

namespace Document

def child? : Document → Selector → Option Document
  | .list items, .item i => items[i]?
  | .object members, .member name => (Table.ofList members).get? name
  | _, _ => none

def at? (document : Document) : List Selector → Option Document
  | [] => some document
  | step :: path => (document.child? step).bind (·.at? path)

theorem at?_append {document : Document} {path path' : List Selector} :
    document.at? (path ++ path') = (document.at? path).bind (·.at? path') := by
  induction path generalizing document with
  | nil => rfl
  | cons step path ih =>
    rw [List.cons_append, at?, at?, Option.bind_assoc]
    exact congrArg _ (funext fun _ => ih)

end Document

namespace Heap

def child? (heap : Heap) : Value → Selector → Option Value
  | .list id, .item i => (heap.items id)[i]?
  | .object id, .member name => (heap.properties id).get? name
  | _, _ => none

def at? (heap : Heap) (value : Value) : List Selector → Option Value
  | [] => some value
  | step :: path => (heap.child? value step).bind (heap.at? · path)

theorem at?_append {heap : Heap} {value : Value} {path path' : List Selector} :
    heap.at? value (path ++ path') = (heap.at? value path).bind (heap.at? · path') := by
  induction path generalizing value with
  | nil => rfl
  | cons step path ih =>
    rw [List.cons_append, at?, at?, Option.bind_assoc]
    exact congrArg _ (funext fun _ => ih)

end Heap

inductive Value.Like : Value → Document → Prop
  | nil : Like .nil .nil
  | boolean (b : Bool) : Like (.boolean b) (.boolean b)
  | number (x : Float) : Like (.number x) (.number x)
  | string (s : String) : Like (.string s) (.string s)
  | list (id : ListId) (items : List Document) : Like (.list id) (.list items)
  | object (id : ObjectId) (members : List (String × Document)) : Like (.object id) (.object members)

namespace Heap

structure Holds (heap heap' : Heap) (value : Value) (document : Document) : Prop where
  like (path : List Selector) : Option.Rel Value.Like (heap'.at? value path) (document.at? path)
  new {path : List Selector} {v : Value} {k : Container} (there : heap'.at? value path = some v)
    (is : v.container? = some k) : k ∈ heap'.containers ∧ k ∉ heap.containers
  apart {path path' : List Selector} {v v' : Value} {k : Container} (there : heap'.at? value path = some v)
    (there' : heap'.at? value path' = some v') (is : v.container? = some k) (is' : v'.container? = some k) :
    path = path'

def among? (heap : Heap) (values : List Value) (i : Nat) (path : List Selector) : Option Value :=
  values[i]?.bind (heap.at? · path)

structure HoldsAll (heap heap' : Heap) (values : List Value) (documents : List Document) : Prop where
  larger : heap.Larger heap'
  keeps : ∀ k ∈ heap.containers, heap.SameIn heap' k
  length_eq : values.length = documents.length
  like (i : Nat) (path : List Selector) :
    Option.Rel Value.Like (heap'.among? values i path) (documents[i]?.bind (·.at? path))
  new {i : Nat} {path : List Selector} {v : Value} {k : Container} (there : heap'.among? values i path = some v)
    (is : v.container? = some k) : k ∈ heap'.containers ∧ k ∉ heap.containers
  apart {i i' : Nat} {path path' : List Selector} {v v' : Value} {k : Container}
    (there : heap'.among? values i path = some v) (there' : heap'.among? values i' path' = some v')
    (is : v.container? = some k) (is' : v'.container? = some k) : i = i' ∧ path = path'

variable {heap heap₁ heap₂ : Heap} {value : Value} {document : Document}

theorem child?_congr (same : ∀ k ∈ value.container?, heap₁.SameIn heap₂ k) (step : Selector) :
    heap₂.child? value step = heap₁.child? value step := by
  cases value with
  | list id =>
    have items : heap₂.items id = heap₁.items id := same (.list id) rfl
    cases step <;> simp only [child?, items]
  | object id =>
    have properties : heap₂.properties id = heap₁.properties id := same (.object id) rfl
    cases step <;> simp only [child?, properties]
  | _ => rfl

theorem at?_congr (same : ∀ path v k, heap₁.at? value path = some v → v.container? = some k → heap₁.SameIn heap₂ k)
    (path : List Selector) : heap₂.at? value path = heap₁.at? value path := by
  induction path generalizing value with
  | nil => rfl
  | cons step path ih =>
    rw [at?, at?, child?_congr (fun k is => same [] value k rfl is)]
    cases found : heap₁.child? value step with
    | none => rfl
    | some inner =>
      refine ih fun path v k there is => same (step :: path) v k ?_ is
      rw [at?, found, Option.bind_some, there]

theorem Holds.exists_like {inner : Document} {path : List Selector} (holds : heap.Holds heap₁ value document)
    (there : document.at? path = some inner) : ∃ v, heap₁.at? value path = some v ∧ v.Like inner := by
  have like := holds.like path
  rw [there] at like
  generalize heap₁.at? value path = found at like ⊢
  cases like with
  | some like => exact ⟨_, rfl, like⟩

theorem Holds.at?_eq_none {path : List Selector} (holds : heap.Holds heap₁ value document)
    (nowhere : document.at? path = none) : heap₁.at? value path = none := by
  have like := holds.like path
  rw [nowhere] at like
  generalize heap₁.at? value path = found at like ⊢
  cases like
  rfl

theorem Holds.single (holds : heap.Holds heap₁ value document) (larger : heap.Larger heap₁)
    (keeps : ∀ k ∈ heap.containers, heap.SameIn heap₁ k) : heap.HoldsAll heap₁ [value] [document] where
  larger := larger
  keeps := keeps
  length_eq := rfl
  like i path := by
    cases i with
    | zero => exact holds.like path
    | succ i => exact .none
  new {i path v k} there is := by
    cases i with
    | zero => exact holds.new there is
    | succ i => cases there
  apart {i i' path path' v v' k} there there' is is' := by
    cases i with
    | succ i => cases there
    | zero =>
      cases i' with
      | succ i' => cases there'
      | zero => exact ⟨rfl, holds.apart there there' is is'⟩

theorem HoldsAll.holds (all : heap.HoldsAll heap₁ [value] [document]) : heap.Holds heap₁ value document where
  like path := all.like 0 path
  new there is := all.new (i := 0) there is
  apart {path path' v v' k} there there' is is' := by
    have among : heap₁.among? [value] 0 path = some v := there
    have among' : heap₁.among? [value] 0 path' = some v' := there'
    exact (all.apart among among' is is').2

namespace HoldsAll

variable {values others : List Value} {documents rest : List Document}

theorem nil (heap : Heap) : heap.HoldsAll heap [] [] where
  larger := .refl heap
  keeps k _ := .refl heap k
  length_eq := rfl
  like _ _ := .none
  new there := nomatch there
  apart there := nomatch there

theorem among?_congr (first : heap.HoldsAll heap₁ values documents) (keeps : ∀ k ∈ heap₁.containers, heap₁.SameIn heap₂ k)
    (i : Nat) (path : List Selector) : heap₂.among? values i path = heap₁.among? values i path := by
  rw [among?, among?]
  cases found : values[i]? with
  | none => rfl
  | some value =>
    refine at?_congr (fun path v k there is => ?_) path
    have there : heap₁.among? values i path = some v := by rw [among?, found, Option.bind_some, there]
    exact keeps k (first.new there is).1

theorem among?_append (i : Nat) (path : List Selector) : heap.among? (values ++ others) i path =
    if i < values.length then heap.among? values i path else heap.among? others (i - values.length) path := by
  rw [among?, List.getElem?_append]
  split <;> rfl

theorem append (first : heap.HoldsAll heap₁ values documents) (second : heap₁.HoldsAll heap₂ others rest) :
    heap.HoldsAll heap₂ (values ++ others) (documents ++ rest) where
  larger := first.larger.trans second.larger
  keeps k mem := (first.keeps k mem).trans (second.keeps k (first.larger.mem_containers mem))
  length_eq := by rw [List.length_append, List.length_append, first.length_eq, second.length_eq]
  like i path := by
    rw [among?_append, List.getElem?_append, ← first.length_eq]
    split
    · rw [first.among?_congr second.keeps]
      exact first.like i path
    · exact second.like (i - values.length) path
  new {i path v k} there is := by
    rw [among?_append] at there
    split at there
    · rw [first.among?_congr second.keeps] at there
      have new := first.new there is
      exact ⟨second.larger.mem_containers new.1, new.2⟩
    · have new := second.new there is
      exact ⟨new.1, fun old => new.2 (first.larger.mem_containers old)⟩
  apart {i i' path path' v v' k} there there' is is' := by
    rw [among?_append] at there there'
    split at there <;> split at there'
    · rw [first.among?_congr second.keeps] at there there'
      exact first.apart there there' is is'
    · rw [first.among?_congr second.keeps] at there
      exact absurd (first.new there is).1 (second.new there' is').2
    · rw [first.among?_congr second.keeps] at there'
      exact absurd (first.new there' is').1 (second.new there is).2
    · obtain ⟨same, paths⟩ := second.apart there there' is is'
      exact ⟨by omega, paths⟩

end HoldsAll

theorem HoldsAll.around {values : List Value} {documents : List Document} (index : Selector → Option Nat) {k₀ : Container}
    (inner : heap.HoldsAll heap₁ values documents) (like : value.Like document)
    (is₀ : value.container? = some k₀) (keeps : ∀ k ∈ heap₁.containers, heap₁.SameIn heap₂ k)
    (larger : heap₁.Larger heap₂) (fresh : k₀ ∉ heap₁.containers) (present : k₀ ∈ heap₂.containers)
    (children : ∀ step, heap₂.child? value step = (index step).bind (values[·]?))
    (members : ∀ step, document.child? step = (index step).bind (documents[·]?))
    (injective : ∀ step step' i, index step = some i → index step' = some i → step = step') :
    heap.Holds heap₂ value document := by
  have inside (step : Selector) (path : List Selector) :
      heap₂.at? value (step :: path) = (index step).bind (heap₁.among? values · path) := by
    rw [at?, children]
    cases index step with
    | none => rfl
    | some i => exact inner.among?_congr keeps i path
  have within {step : Selector} {path : List Selector} {v : Value} (there : heap₂.at? value (step :: path) = some v) :
      ∃ i, index step = some i ∧ heap₁.among? values i path = some v :=
    Option.bind_eq_some_iff.1 ((inside step path).symm.trans there)
  refine ⟨fun path => ?_, fun {path v k} there is => ?_, fun {path path' v v' k} there there' is is' => ?_⟩
  · cases path with
    | nil => exact .some like
    | cons step path =>
      rw [inside, Document.at?, members]
      cases index step with
      | none => exact .none
      | some i => exact inner.like i path
  · cases path with
    | nil =>
      cases there
      cases is₀.symm.trans is
      exact ⟨present, fun old => fresh (inner.larger.mem_containers old)⟩
    | cons step path =>
      obtain ⟨i, -, there⟩ := within there
      have new := inner.new there is
      exact ⟨larger.mem_containers new.1, new.2⟩
  · cases path with
    | nil =>
      cases there
      cases is₀.symm.trans is
      cases path' with
      | nil => rfl
      | cons step' path' =>
        obtain ⟨i, -, there'⟩ := within there'
        exact absurd (inner.new there' is').1 fresh
    | cons step path =>
      obtain ⟨i, atI, there⟩ := within there
      cases path' with
      | nil =>
        cases there'
        cases is₀.symm.trans is'
        exact absurd (inner.new there is).1 fresh
      | cons step' path' =>
        obtain ⟨i', atI', there'⟩ := within there'
        obtain ⟨rfl, rfl⟩ := inner.apart there there' is is'
        rw [injective step step' i atI atI']

theorem ofMembers_eq (heap : Heap) (members : List (String × Document)) :
    heap.ofMembers members = ((members.map (·.1)).zip (heap.ofDocuments (members.map (·.2))).1,
      (heap.ofDocuments (members.map (·.2))).2) := by
  induction members generalizing heap with
  | nil => rfl
  | cons member rest ih => simp only [ofMembers, ih, List.map_cons, ofDocuments, List.zip_cons_cons]

theorem holds_plain (plain : value.container? = none) (like : value.Like document) : heap.Holds heap value document := by
  have children (step : Selector) : heap.child? value step = none ∧ document.child? step = none := by
    cases like with
    | list id | object id => cases plain
    | _ => exact ⟨rfl, rfl⟩
  have outside {step : Selector} {path : List Selector} : heap.at? value (step :: path) = none := by
    rw [at?, (children step).1, Option.bind_none]
  have nothing {path : List Selector} {v : Value} {k : Container} (there : heap.at? value path = some v)
      (is : v.container? = some k) : False := by
    cases path with
    | nil =>
      cases there
      cases plain.symm.trans is
    | cons step path => cases outside.symm.trans there
  refine ⟨fun path => ?_, fun there is => (nothing there is).elim, fun there _ is _ => (nothing there is).elim⟩
  cases path with
  | nil => exact .some like
  | cons step path =>
    rw [outside, Document.at?, (children step).2, Option.bind_none]
    exact .none

theorem keeps_newList (heap : Heap) (items : Array Value) {k : Container} (mem : k ∈ heap.containers) :
    heap.SameIn (heap.newList items).2 k :=
  sameIn_change (.newList items) mem (Option.some_ne_none k).symm

theorem keeps_newObject (heap : Heap) (properties : Table Value) {k : Container} (mem : k ∈ heap.containers) :
    heap.SameIn (heap.newObject properties).2 k :=
  sameIn_change (.newObject properties) mem (Option.some_ne_none k).symm

variable {values : List Value} {documents : List Document}

theorem HoldsAll.newList (inner : heap.HoldsAll heap₁ values documents) :
    heap.HoldsAll (heap₁.newList values.toArray).2 [.list (heap₁.newList values.toArray).1] [.list documents] := by
  have keeps {k : Container} (mem : k ∈ heap₁.containers) := keeps_newList heap₁ values.toArray mem
  have larger := larger_newList heap₁ values.toArray
  let index : Selector → Option Nat
    | .item i => some i
    | .member _ => none
  refine (inner.around index (.list _ _) rfl (fun _ => keeps) larger ?_ ?_ ?_ ?_ ?_).single
    (inner.larger.trans larger) fun k mem => (inner.keeps k mem).trans (keeps (inner.larger.mem_containers mem))
  · simp [mem_containers_list, Heap.newList]
  · simp [mem_containers_list, Heap.newList]
  · rintro (i | name)
    · simp [child?, Heap.newList, items, index]
    · rfl
  · rintro (i | name) <;> rfl
  · rintro (i | name) (i' | name') j here there
    · cases here
      cases there
      rfl
    · cases there
    · cases here
    · cases here

theorem HoldsAll.newObject {members : List (String × Document)}
    (inner : heap.HoldsAll heap₁ values (members.map (·.2))) :
    let properties := Table.ofList ((members.map (·.1)).zip values)
    heap.HoldsAll (heap₁.newObject properties).2 [.object (heap₁.newObject properties).1] [.object members] := by
  intro properties
  have keeps {k : Container} (mem : k ∈ heap₁.containers) := keeps_newObject heap₁ properties mem
  have larger := larger_newObject heap₁ properties
  have lengths : values.length = (members.map (·.1)).length := by
    rw [inner.length_eq, List.length_map, List.length_map]
  let index : Selector → Option Nat
    | .item _ => none
    | .member name => (Table.places (members.map (·.1))).get? name
  refine (inner.around index (.object _ _) rfl (fun _ => keeps) larger ?_ ?_ ?_ ?_ ?_).single
    (inner.larger.trans larger) fun k mem => (inner.keeps k mem).trans (keeps (inner.larger.mem_containers mem))
  · simp [mem_containers_object, Heap.newObject]
  · simp [mem_containers_object, Heap.newObject]
  · rintro (i | name)
    · rfl
    · have found : (Table.ofList ((members.map (·.1)).zip values)).get? name =
          ((Table.places (members.map (·.1))).get? name).bind (values[·]?) := Table.get?_ofList_zip lengths
      simpa [child?, Heap.newObject, Heap.properties, index] using found
  · rintro (i | name)
    · rfl
    · have entries : members = (members.map (·.1)).zip (members.map (·.2)) := by
        rw [List.zip_map', List.map_id']
      have found : (Table.ofList ((members.map (·.1)).zip (members.map (·.2)))).get? name =
          ((Table.places (members.map (·.1))).get? name).bind ((members.map (·.2))[·]?) :=
        Table.get?_ofList_zip (by rw [List.length_map, List.length_map])
      rwa [← entries] at found
  · rintro (i | name) (i' | name') j here there
    · cases here
    · cases here
    · cases there
    · have named := (Table.getElem?_of_places here).symm.trans (Table.getElem?_of_places there)
      rw [Option.some.inj named]

mutual

theorem holds_ofDocument (heap : Heap) : (document : Document) →
    heap.HoldsAll (heap.ofDocument document).2 [(heap.ofDocument document).1] [document]
  | .nil => (holds_plain rfl .nil).single (.refl heap) fun k _ => .refl heap k
  | .boolean b => (holds_plain rfl (.boolean b)).single (.refl heap) fun k _ => .refl heap k
  | .number x => (holds_plain rfl (.number x)).single (.refl heap) fun k _ => .refl heap k
  | .string s => (holds_plain rfl (.string s)).single (.refl heap) fun k _ => .refl heap k
  | .list items => (holds_ofDocuments heap items).newList
  | .object members => by
    have inner := holds_ofMembers heap members
    simp only [ofDocument, ofMembers_eq]
    exact inner.newObject

theorem holds_ofDocuments (heap : Heap) : (documents : List Document) →
    heap.HoldsAll (heap.ofDocuments documents).2 (heap.ofDocuments documents).1 documents
  | [] => .nil heap
  | first :: rest => (holds_ofDocument heap first).append (holds_ofDocuments _ rest)

theorem holds_ofMembers (heap : Heap) : (members : List (String × Document)) →
    heap.HoldsAll (heap.ofDocuments (members.map (·.2))).2 (heap.ofDocuments (members.map (·.2))).1
      (members.map (·.2))
  | [] => .nil heap
  | (_, first) :: rest => (holds_ofDocument heap first).append (holds_ofMembers _ rest)

end

end Heap

end HookScript
