import HookScript.Proofs.Contents.Documents
import HookScript.Proofs.Lists.Slots

/-!
Decoded documents as scripts see them. Going into the value of a document by properties and indexes comes to what
stands there in the document, and a change of a list or an object in it is seen on the paths that go through there and
on no others.
-/

namespace HookScript

inductive Access where
  | property (name : String)
  | item (index : Literal)

/-- The step that it takes, if the literal of an index stands for a place. -/
def Access.selector? : Access → Option Selector
  | property name => some (.member name)
  | item index =>
    match Run.literalValue index with
    | .number x => (Value.position? x).map .item
    | _ => none

def Selects : List Access → List Selector → Prop := List.Forall₂ fun access step => access.selector? = some step

namespace Expr

def access (start : Expr) : Access → Expr
  | .property name => .property start name
  | .item index => .item start (.literal index)

def along (start : Expr) : List Access → Expr
  | [] => start
  | first :: rest => (start.access first).along rest

end Expr

namespace Heap

inductive Shows (heap : Heap) : Value → Document → Prop
  | nil : Shows heap .nil .nil
  | boolean (b : Bool) : Shows heap (.boolean b) (.boolean b)
  | number (x : Float) : Shows heap (.number x) (.number x)
  | string (s : String) : Shows heap (.string s) (.string s)
  | list {id : ListId} {items : List Document} (size_eq : (heap.items id).size = items.length) :
    Shows heap (.list id) (.list items)
  | object {id : ObjectId} {members : List (String × Document)}
    (keys : ∀ name, name ∈ (heap.properties id).keys ↔ name ∈ members.map (·.1)) :
    Shows heap (.object id) (.object members)

def childAfter? (heap : Heap) : Change → Selector → Option Value
  | .push id value, .item i => if i = (heap.items id).size then some value else (heap.items id)[i]?
  | .setItem id index value, .item i =>
    if i = index ∧ i < (heap.items id).size then some value else (heap.items id)[i]?
  | .removeItem id index, .item i =>
    if index ≤ i ∧ index < (heap.items id).size then (heap.items id)[i + 1]? else (heap.items id)[i]?
  | .putProperty id name value, .member other =>
    if other = name then some value else (heap.properties id).get? other
  | _, _ => none

/-- Some path goes on from where another one ends. -/
def PassesThrough (through path : List Selector) : Prop := ∃ step rest, path = through ++ step :: rest

structure SeenThere (heap : Heap) (value : Value) : Prop where
  unseen (changes : List Change) (path : List Selector)
    (apart : ∀ change ∈ changes, ∀ through v k, heap.at? value through = some v → v.container? = some k →
      change.target? = some k → ¬PassesThrough through path) :
    (heap.changeAll changes).at? value path = heap.at? value path
  seen (change : Change) (through : List Selector) (v : Value) (k : Container)
    (there : heap.at? value through = some v) (is : v.container? = some k) (target : change.target? = some k)
    (step : Selector) (rest : List Selector) :
    (heap.change change).at? value (through ++ step :: rest) =
      (heap.childAfter? change step).bind ((heap.change change).at? · rest)

variable {heap heap₁ : Heap} {value v : Value} {document inner : Document} {k : Container}

theorem mem_keys_ofList {α : Type} {members : List (String × α)} {name : String} :
    name ∈ (Table.ofList members).keys ↔ name ∈ members.map (·.1) := by
  rw [Table.mem_keys_iff, Table.contains, Table.get?_ofList, List.lookup_isSome_iff]
  constructor
  · rintro ⟨entry, mem, same⟩
    exact List.mem_map.2 ⟨entry, List.mem_reverse.1 mem, (beq_iff_eq.1 same).symm⟩
  · intro mem
    obtain ⟨entry, inside, rfl⟩ := List.mem_map.1 mem
    exact ⟨entry, List.mem_reverse.2 inside, beq_self_eq_true _⟩

theorem at?_snoc {path : List Selector} {step : Selector} (there : heap.at? value path = some v) :
    heap.at? value (path ++ [step]) = heap.child? v step := by
  rw [at?_append, there, Option.bind_some, at?]
  exact Option.bind_fun_some _

theorem Holds.isSome_child? {path : List Selector} (holds : heap.Holds heap₁ value document)
    (there : heap₁.at? value path = some v) (inside : document.at? path = some inner) (step : Selector) :
    (heap₁.child? v step).isSome = (inner.child? step).isSome := by
  have like := holds.like (path ++ [step])
  rw [at?_snoc there, Document.at?_append, inside, Option.bind_some, Document.at?] at like
  have same : (inner.child? step).bind (·.at? []) = inner.child? step := Option.bind_fun_some _
  rw [same] at like
  generalize heap₁.child? v step = found, inner.child? step = expected at like ⊢
  cases like <;> rfl

theorem Holds.shows_of_like {path : List Selector} (holds : heap.Holds heap₁ value document)
    (there : heap₁.at? value path = some v) (inside : document.at? path = some inner) (like : v.Like inner) :
    heap₁.Shows v inner := by
  have steps := holds.isSome_child? there inside
  cases like with
  | list id items =>
    refine .list (Nat.le_antisymm (Nat.not_lt.1 fun more => ?_) (Nat.not_lt.1 fun more => ?_))
    · have step := steps (.item items.length)
      simp [child?, Document.child?, more] at step
    · have step := steps (.item (heap₁.items id).size)
      simp [child?, Document.child?, more] at step
  | object id members =>
    refine .object fun name => ?_
    rw [← mem_keys_ofList, Table.mem_keys_iff, Table.mem_keys_iff]
    exact Eq.congr_left (steps (.member name))
  | _ => constructor

theorem Shows.congr (shows : heap.Shows v inner) (same : ∀ k, heap.SameIn heap₁ k) : heap₁.Shows v inner := by
  cases shows with
  | list size_eq => exact .list (Eq.trans (congrArg Array.size (same (.list _))) size_eq)
  | object keys =>
    refine .object fun name => ?_
    rw [show heap₁.properties _ = heap.properties _ from same (.object _)]
    exact keys name
  | _ => constructor

theorem exists_of_rel {α β : Type} {related : α → β → Prop} {a : Option α} {b : β}
    (rel : Option.Rel related a (some b)) :
    ∃ x, a = some x ∧ related x b := by
  cases rel with
  | some here => exact ⟨_, rfl, here⟩

theorem Holds.shows (holds : heap.Holds heap₁ value document) (path : List Selector) :
    Option.Rel heap₁.Shows (heap₁.at? value path) (document.at? path) := by
  cases inside : document.at? path with
  | none =>
    rw [holds.at?_eq_none inside]
    exact .none
  | some inner =>
    obtain ⟨v, there, like⟩ := holds.exists_like inside
    rw [there]
    exact .some (holds.shows_of_like there inside like)

theorem child?_change {change : Change} (mem : k ∈ heap.containers) (is : v.container? = some k)
    (target : change.target? = some k) (step : Selector) :
    (heap.change change).child? v step = heap.childAfter? change step := by
  cases v with
  | list id =>
    cases is
    have inside := heap.mem_containers_list.1 mem
    have items (f : Array Value → Array Value) :
        ({ heap with lists := heap.lists.modify id.index f } : Heap).items id = f (heap.items id) := by
      simp only [Heap.items, Array.getD_eq_getD_getElem?, Array.getElem?_modify, if_true,
        Array.getElem?_eq_getElem inside, Option.map_some, Option.getD_some]
    cases change with
    | push id' value =>
      cases target
      cases step with
      | item i => simp only [child?, Heap.change, push, items, childAfter?, Array.getElem?_push]
      | member name => rfl
    | setItem id' index value =>
      cases target
      cases step with
      | item i =>
        simp only [child?, Heap.change, setItem, items, childAfter?, Array.getElem?_setIfInBounds]
        by_cases same : index = i
        · subst same
          by_cases within : index < (heap.items id).size <;> simp [within]
        · simp [same, Ne.symm same]
      | member name => rfl
    | removeItem id' index =>
      cases target
      cases step with
      | item i =>
        simp only [child?, Heap.change, removeItem, items, childAfter?, Array.eraseIdxIfInBounds]
        by_cases within : index < (heap.items id).size
        · rw [dif_pos within, Array.getElem?_eraseIdx]
          by_cases before : i < index
          · rw [if_pos before, if_neg fun after => Nat.not_lt.2 after.1 before]
          · rw [if_neg before, if_pos ⟨Nat.not_lt.1 before, within⟩]
        · rw [dif_neg within, if_neg fun after => within after.2]
      | member name => rfl
    | _ => cases target
  | object id =>
    cases is
    have inside := heap.mem_containers_object.1 mem
    cases change with
    | putProperty id' name value =>
      cases target
      cases step with
      | item i => rfl
      | member other =>
        have properties : (heap.putProperty id name value).properties id = (heap.properties id).insert name value := by
          simp only [putProperty, Heap.properties, Array.getD_eq_getD_getElem?, Array.getElem?_modify, if_true,
            Array.getElem?_eq_getElem inside, Option.map_some, Option.getD_some]
        simp only [child?, Heap.change, properties, childAfter?, Table.get?_insert]
    | _ => cases target
  | _ => cases is

theorem at?_congr_through {path : List Selector}
    (same : ∀ through v k, PassesThrough through path → heap.at? value through = some v → v.container? = some k →
      heap.SameIn heap₁ k) : heap₁.at? value path = heap.at? value path := by
  induction path generalizing value with
  | nil => rfl
  | cons step path ih =>
    rw [at?, at?, child?_congr fun k is => same [] value k ⟨step, path, rfl⟩ rfl is]
    cases found : heap.child? value step with
    | none => rfl
    | some inner =>
      refine ih fun through v k passes there is => same (step :: through) v k ?_ ?_ is
      · obtain ⟨step', rest, rfl⟩ := passes
        exact ⟨step', rest, rfl⟩
      · rw [at?, found, Option.bind_some, there]

theorem Holds.seenThere (holds : heap.Holds heap₁ value document) : heap₁.SeenThere value := by
  have unseen (changes : List Change) (path : List Selector)
      (apart : ∀ change ∈ changes, ∀ through v k, heap₁.at? value through = some v → v.container? = some k →
        change.target? = some k → ¬PassesThrough through path) :
      (heap₁.changeAll changes).at? value path = heap₁.at? value path :=
    at?_congr_through fun through v k passes there is =>
      sameIn_changeAll (holds.new there is).1 fun change mem target =>
        apart change mem through v k there is target passes
  refine ⟨unseen, fun change through v k there is target step rest => ?_⟩
  have before : (heap₁.change change).at? value through = some v := by
    refine (unseen [change] through ?_).trans there
    rintro _ (_ | _) through' v' k' there' is' target' ⟨step', rest', longer⟩
    · cases target.symm.trans target'
      obtain rfl := holds.apart there there' is is'
      simp at longer
    · contradiction
  rw [at?_append, before, Option.bind_some, at?, child?_change (holds.new there is).1 is target]

end Heap

namespace Run

structure ReadsAs (world : World) (m : Machine) (value : Value) (document : Document) : Prop where
  found {n before start accesses path inner} (begun : evaluate world (n + 1) start before = .ok value m)
    (selects : Selects accesses path) (there : document.at? path = some inner) :
    ∃ v, m.heap.at? value path = some v ∧ m.heap.Shows v inner ∧
      evaluate world (n + accesses.length + 1) (start.along accesses) before = .ok v m
  absent {n before start accesses path members name} (begun : evaluate world (n + 1) start before = .ok value m)
    (selects : Selects accesses path) (there : document.at? path = some (.object members))
    (unknown : name ∉ members.map (·.1)) :
    evaluate world (n + accesses.length + 2) (.property (start.along accesses) name) before = .ok .nil m
  beyond {n before start accesses path items index x} (begun : evaluate world (n + 1) start before = .ok value m)
    (selects : Selects accesses path) (there : document.at? path = some (.list items))
    (number : literalValue index = .number x) (outside : ∀ i, Value.position? x = some i → items.length ≤ i) :
    evaluate world (n + accesses.length + 2) (.item (start.along accesses) (.literal index)) before =
      .error (.fault (.outOfRange x)) m

variable {world : World} {n : Nat} {m before : Machine} {start : Expr} {value v w : Value}
  {document inner : Document}
  {accesses : List Access} {path : List Selector}

theorem evaluate_literal {index : Literal} {x : Float} (number : literalValue index = .number x) (m : Machine) :
    evaluate world (n + 1) (.literal index) m = .ok (.number x) m := by
  rw [evaluate, number]
  rfl

theorem evaluate_access {access : Access} {step : Selector}
    (begun : evaluate world (n + 1) start before = .ok v m) (selects : access.selector? = some step)
    (child : m.heap.child? v step = some w) (shows : m.heap.Shows w inner) :
    evaluate world (n + 2) (start.access access) before = .ok w m := by
  cases access with
  | property name =>
    cases selects
    cases v with
    | object id =>
      have property : m.heap.property id name = w := by
        rw [Heap.property, show (m.heap.properties id).get? name = some w from child, Option.getD_some]
      rw [Expr.access, evaluate]
      simp only [Bind.bind, EStateM.bind, begun, getProperty, readHeap, property]
      cases shows <;> rfl
    | _ => cases child
  | item index =>
    rw [Access.selector?] at selects
    split at selects
    · next x isNumber =>
      obtain ⟨i, at_i, rfl⟩ := Option.map_eq_some_iff.1 selects
      cases v with
      | list id =>
        have there : (m.heap.items id)[i]? = some w := child
        have operands : Operands world (n + 1) [start, .literal index] before [.list id, .number x] m :=
          .cons begun (.cons (evaluate_literal isNumber m) .nil)
        have located : slot world (n + 1) start (.literal index) before = .ok (id, i) m :=
          slot_eq_ok_iff.2 ⟨x, operands, at_i, (Array.getElem?_eq_some_iff.1 there).1⟩
        rw [Expr.access, evaluate_item_eq]
        refine bind_eq_ok_iff.2 ⟨_, _, located, ?_⟩
        simp [readHeap, Array.getD_eq_getD_getElem?, there]
      | _ => cases child
    · cases selects

section

variable (shows : ∀ path, Option.Rel m.heap.Shows (m.heap.at? value path) (document.at? path))
  (begun : evaluate world (n + 1) start before = .ok value m) (selects : Selects accesses path)
include shows begun selects

theorem evaluate_along (there : document.at? path = some inner) :
    ∃ v, m.heap.at? value path = some v ∧ m.heap.Shows v inner ∧
      evaluate world (n + accesses.length + 1) (start.along accesses) before = .ok v m := by
  induction selects generalizing n start value document with
  | nil =>
    cases there
    obtain ⟨_, ⟨⟩, shown⟩ := Heap.exists_of_rel (shows [])
    exact ⟨value, rfl, shown, begun⟩
  | @cons access step accesses path selects _ ih =>
    obtain ⟨outer, child, there⟩ := Option.bind_eq_some_iff.1 there
    obtain ⟨w, there', shown⟩ : ∃ w, m.heap.child? value step = some w ∧ m.heap.Shows w outer := by
      have here := shows [step]
      rw [Heap.at?, Document.at?, child] at here
      obtain ⟨w, there, shown⟩ := Heap.exists_of_rel here
      exact ⟨w, (Option.bind_fun_some _).symm.trans there, shown⟩
    have further (path : List Selector) : Option.Rel m.heap.Shows (m.heap.at? w path) (outer.at? path) := by
      have here := shows (step :: path)
      rwa [Heap.at?, Document.at?, child, there'] at here
    obtain ⟨v, found, shows, ran⟩ := ih further (evaluate_access begun selects there' shown) there
    refine ⟨v, by rw [Heap.at?, there', Option.bind_some, found], shows, ?_⟩
    rw [List.length_cons, Expr.along, ← ran]
    congr 1
    omega

end

theorem evaluate_absent {id : ObjectId} {name : String} (begun : evaluate world n start before = .ok (.object id) m)
    (unknown : name ∉ (m.heap.properties id).keys) :
    evaluate world (n + 1) (.property start name) before = .ok .nil m := by
  have missing : (m.heap.properties id).get? name = none := by
    rw [← Option.not_isSome_iff_eq_none]
    exact fun there => unknown ((Table.mem_keys_iff _).2 there)
  rw [evaluate]
  simp only [Bind.bind, EStateM.bind, begun, getProperty, readHeap, Heap.property, missing]
  rfl

theorem evaluate_beyond {id : ListId} {index : Literal} {x : Float}
    (begun : evaluate world (n + 1) start before = .ok (.list id) m) (number : literalValue index = .number x)
    (outside : ∀ i, Value.position? x = some i → (m.heap.items id).size ≤ i) :
    evaluate world (n + 2) (.item start (.literal index)) before = .error (.fault (.outOfRange x)) m := by
  have nowhere : (Value.position? x).filter (· < (m.heap.items id).size) = none := by
    rw [Option.filter_eq_none_iff]
    exact fun i at_i inside => Nat.not_lt.2 (outside i at_i) (of_decide_eq_true inside)
  have isList : asList (.list id) m = .ok id m := rfl
  rw [evaluate_item_eq, bind_eq_error_iff]
  refine .inl ?_
  simp only [slot, Bind.bind, EStateM.bind, begun, isList, evaluate_literal number m, position, readHeap, nowhere]
  rfl

theorem readsAs_of_shows (shows : ∀ path, Option.Rel m.heap.Shows (m.heap.at? value path) (document.at? path)) :
    ReadsAs world m value document where
  found begun selects there := evaluate_along shows begun selects there
  absent begun selects there unknown := by
    obtain ⟨v, -, shown, ran⟩ := evaluate_along shows begun selects there
    cases shown with
    | object keys => exact evaluate_absent ran fun known => unknown ((keys _).1 known)
  beyond begun selects there number outside := by
    obtain ⟨v, -, shown, ran⟩ := evaluate_along shows begun selects there
    cases shown with
    | list size_eq => exact evaluate_beyond ran number (size_eq ▸ outside)

theorem callDecoder_document {id : DecoderId} {body : List UInt8}
    (fresh : m.heap.decoder? id = some ⟨.json, body, none⟩) (something : body ≠ [])
    (read : world.json body = .ok document) :
    callDecoder world id m = .ok (m.heap.ofDocument document).1
      { m with heap := (m.heap.ofDocument document).2.remember id (m.heap.ofDocument document).1 } := by
  have decoded : world.decode .json body = .ok document := by rw [World.decode, read]
  simp only [callDecoder, Bind.bind, EStateM.bind, readHeap, fresh, if_neg something, decoded]
  rfl

/-- Wherever a path leads in a document, accesses lead to the same of the value that is made of it, and to nothing else.
No two paths lead to the same list or object, and none to one that was there before; so a change of one of them is seen
on the paths that go through it and on no others. -/
theorem paths_of_document (world : World) (m : Machine) (document : Document) :
    let value := (m.heap.ofDocument document).1
    let heap := (m.heap.ofDocument document).2
    (∀ id body, m.heap.decoder? id = some ⟨.json, body, none⟩ → body ≠ [] → world.json body = .ok document →
      callDecoder world id m = .ok value { m with heap := heap.remember id value }) ∧
    (∀ path, Option.Rel heap.Shows (heap.at? value path) (document.at? path)) ∧
    (∀ m', (∀ k, heap.SameIn m'.heap k) → ReadsAs world m' value document) ∧
    (∀ path v k, heap.at? value path = some v → v.container? = some k → k ∈ heap.containers ∧ k ∉ m.heap.containers) ∧
    (∀ path path' v v' k, heap.at? value path = some v → heap.at? value path' = some v' → v.container? = some k →
      v'.container? = some k → path = path') ∧
    (∀ k ∈ m.heap.containers, m.heap.SameIn heap k) ∧ heap.SeenThere value := by
  have all := Heap.holds_ofDocument m.heap document
  have holds := all.holds
  refine ⟨fun id body => callDecoder_document, holds.shows, fun m' same => readsAs_of_shows fun path => ?_,
    fun path v k => holds.new, fun path path' v v' k => holds.apart, all.keeps, holds.seenThere⟩
  rw [Heap.at?_congr fun _ _ k _ _ => same k]
  have shows := holds.shows path
  generalize (m.heap.ofDocument document).2.at? (m.heap.ofDocument document).1 path = found,
    document.at? path = expected at shows ⊢
  cases shows with
  | none => exact .none
  | some shown => exact .some (shown.congr same)

def twoLists : List UInt8 := "\x7b\"a\": null, \"a\": [[], []]\x7d".toUTF8.toList

def twoListsReading : World :=
  { World.ofFiles [] with
    json body :=
      if body = twoLists then .ok (.object [("a", .list [.list [], .list []])])
      else .error "expected value at line 1 column 1" }

/-- What is added to the first of the lists does not come into the second one. -/
theorem paths_of_document_of_twoLists : ∃ (m : Machine) (document : Document) (value : Value) (heap : Heap)
    (list : ListId), m.heap.decoder? ⟨0⟩ = some ⟨.json, twoLists, none⟩ ∧
      twoLists ≠ [] ∧ twoListsReading.json twoLists = .ok document ∧
      callDecoder twoListsReading ⟨0⟩ m = .ok value { m with heap := heap.remember ⟨0⟩ value } ∧
      heap.at? value [.member "a", .item 0] = some (.list list) ∧
      (heap.change (.push list .nil)).at? value [.member "a", .item 0, .item 0] = some .nil ∧
      (heap.changeAll [.push list .nil]).at? value [.member "a", .item 1, .item 0] = none := by
  let m : Machine := { Machine.start none with
    heap := ((Machine.start none).heap.newDecoder .json twoLists).2 }
  let document : Document := .object [("a", .list [.list [], .list []])]
  have something : twoLists ≠ [] := by decide +kernel
  have read : twoListsReading.json twoLists = .ok document := if_pos rfl
  obtain ⟨called, -, -, -, apart, -, unseen, seen⟩ := paths_of_document twoListsReading m document
  have first : (m.heap.ofDocument document).2.at? (m.heap.ofDocument document).1 [.member "a", .item 0] =
      some (.list ⟨0⟩) := by cbv
  refine ⟨m, document, _, _, ⟨0⟩, rfl, something, read, called ⟨0⟩ twoLists rfl something read, first, ?_, ?_⟩
  · exact seen (.push ⟨0⟩ .nil) _ _ _ first rfl rfl (.item 0) []
  · refine (unseen [.push ⟨0⟩ .nil] _ ?_).trans (by cbv)
    rintro _ (_ | _) through v k there is target ⟨step, rest, longer⟩
    · obtain rfl := apart _ _ _ _ k there first is target
      cases longer
    · contradiction

end Run

end HookScript
