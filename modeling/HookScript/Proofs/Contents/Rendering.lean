import HookScript.Proofs.Contents.DeepCopy
import HookScript.Proofs.Contents.Tables
import Mathlib.Data.List.Forall2

/-!
Texts of values. The text of a value is that of the tree that one gets by unfolding its contents, cut wherever a list or an
object comes up inside itself. Of the heap, only the shape of what is reached counts for it: not where the lists and objects
are, and not when their properties were put there.
-/

namespace HookScript

namespace Heap

/-- The text of a value with nothing inside. An identity that the heap does not know reads as nil. -/
def plainText? (heap : Heap) : Value → Option String
  | .nil => some "nil"
  | .number x => some (Number.text x)
  | .string s => some s
  | .boolean b => some (if b then "true" else "false")
  | .method id => some (((heap.method? id).map Method.text).getD "nil")
  | .callable id => some (((heap.callable? id).map Callable.text).getD "nil")
  | .list _ | .object _ => none

/-- What a value is written as inside the containers `around`. A container that is still being written is cut short. Any
other one is written in full: a list item by item, an object property by property in the order of their names. -/
inductive Prints (heap : Heap) : List Container → Value → String → Prop
  | plain {around value text} (known : heap.plainText? value = some text) : Prints heap around value text
  | openList {around id} (met : .list id ∈ around) : Prints heap around (.list id) "[...]"
  | openObject {around id} (met : .object id ∈ around) : Prints heap around (.object id) "Object \x7b...\x7d"
  | list {around id} {texts : List String} (fresh : .list id ∉ around) (size : texts.length = (heap.items id).size)
    (each : ∀ (i : Nat) item text, (heap.items id)[i]? = some item → texts[i]? = some text →
      Prints heap (.list id :: around) item text) :
    Prints heap around (.list id) ("[" ++ ",".intercalate texts ++ "]")
  | object {around id} {texts : List (String × String)} (fresh : .object id ∉ around)
    (sorted : texts.Pairwise fun a b => a.1 < b.1)
    (names : ∀ name, name ∈ texts.map Prod.fst ↔ (heap.properties id).contains name = true)
    (each : ∀ name text, (name, text) ∈ texts → Prints heap (.object id :: around) (heap.property id name) text) :
    Prints heap around (.object id)
      ("Object \x7b" ++ ", ".intercalate (texts.map fun entry => entry.1 ++ ": " ++ entry.2) ++ "\x7d")

inductive Matches (heap heap' : Heap) (link : Container → Container → Prop) : Value → Value → Prop
  | plain {value value' text} (known : heap.plainText? value = some text) (known' : heap'.plainText? value' = some text) :
    Matches heap heap' link value value'
  | linked {value value' k k'} (is : value.container? = some k) (is' : value'.container? = some k') (linked : link k k') :
    Matches heap heap' link value value'

structure Isomorphic (heap heap' : Heap) (link : Container → Container → Prop) : Prop where
  oneToOne {k₁ k₂ k₁' k₂'} (first : link k₁ k₁') (second : link k₂ k₂') : k₁ = k₂ ↔ k₁' = k₂'
  list {id k'} (linked : link (.list id) k') : ∃ id', k' = .list id' ∧
    List.Forall₂ (heap.Matches heap' link) (heap.items id).toList (heap'.items id').toList
  object {id k'} (linked : link (.object id) k') : ∃ id', k' = .object id' ∧
    ∀ name, Option.Rel (heap.Matches heap' link) ((heap.properties id).get? name) ((heap'.properties id').get? name)

end Heap

namespace Outline

theorem itemTexts_eq_map (items : List Outline) : itemTexts items = items.map text := by
  induction items with
  | nil => rfl
  | cons first rest ih => rw [itemTexts, ih, List.map_cons]

theorem propertyTexts_eq_map (properties : List (String × Outline)) :
    propertyTexts properties = properties.map fun entry => entry.1 ++ ": " ++ entry.2.text := by
  induction properties with
  | nil => rfl
  | cons first rest ih => rw [propertyTexts, ih, List.map_cons]

end Outline

namespace Heap

variable (heap : Heap)

/-- The text of a value inside the containers `around`, as far down as the depth allows. -/
def textWithin (depth : Nat) (around : List Container) (value : Value) : String :=
  (heap.outlineWithin depth around value).text

section

variable {heap} {depth : Nat} {around : List Container} {value : Value} {text : String} {id : ListId} {object : ObjectId}

theorem textWithin_plain (known : heap.plainText? value = some text) : heap.textWithin depth around value = text := by
  cases value with
  | list | object => cases known
  | boolean b => cases b <;> cases known <;> cases depth <;> rfl
  | method id =>
    cases known
    cases depth <;> simp only [textWithin, outlineWithin] <;> cases heap.method? id <;> rfl
  | callable id =>
    cases known
    cases depth <;> simp only [textWithin, outlineWithin] <;> cases heap.callable? id <;> rfl
  | _ => cases known; cases depth <;> rfl

theorem textWithin_list (fresh : .list id ∉ around) : heap.textWithin (depth + 1) around (.list id) =
    "[" ++ ",".intercalate ((heap.items id).toList.map (heap.textWithin depth (.list id :: around))) ++ "]" := by
  simp only [textWithin, outlineWithin, fresh, if_false, Outline.text, Outline.itemTexts_eq_map, List.map_map]
  rfl

theorem textWithin_object (fresh : .object object ∉ around) : heap.textWithin (depth + 1) around (.object object) =
    "Object \x7b" ++ ", ".intercalate (((heap.properties object).map
      (heap.textWithin depth (.object object :: around))).entries.map fun entry => entry.1 ++ ": " ++ entry.2) ++ "\x7d" := by
  simp only [textWithin, outlineWithin, fresh, if_false, Outline.text, Outline.propertyTexts_eq_map, List.map_map, Table.map]
  rfl

theorem mem_containers_of_item {i : Nat} (found : (heap.items id)[i]? = some value) : .list id ∈ heap.containers := by
  rw [mem_containers_list]
  by_contra outside
  rw [heap.items_outside outside] at found
  cases found

theorem mem_containers_of_property {name : String} (found : (heap.properties object).get? name = some value) :
    .object object ∈ heap.containers := by
  rw [mem_containers_object]
  by_contra outside
  rw [heap.properties_outside outside] at found
  cases found

theorem unmet_cons_lt {k : Container} (mem : k ∈ heap.containers) (fresh : k ∉ around)
    (enough : heap.unmet (fun c => decide (c ∈ around)) < depth + 1) :
    heap.unmet (fun c => decide (c ∈ k :: around)) < depth := by
  have less : heap.unmet (fun c => decide (c ∈ k :: around)) < heap.unmet fun c => decide (c ∈ around) :=
    heap.unmet_lt mem (by simpa using fresh) (by simp) fun c had => by simpa using .inr (by simpa using had)
  omega

theorem Prints.textWithin_eq (prints : heap.Prints around value text)
    (enough : heap.unmet (fun c => decide (c ∈ around)) < depth) : heap.textWithin depth around value = text := by
  induction prints generalizing depth with
  | plain known => exact textWithin_plain known
  | openList met =>
    obtain ⟨depth, rfl⟩ := Nat.exists_eq_add_one_of_ne_zero (Nat.ne_of_gt (Nat.zero_lt_of_lt enough))
    simp only [textWithin, outlineWithin, met, if_true, Outline.text]
  | openObject met =>
    obtain ⟨depth, rfl⟩ := Nat.exists_eq_add_one_of_ne_zero (Nat.ne_of_gt (Nat.zero_lt_of_lt enough))
    simp only [textWithin, outlineWithin, met, if_true, Outline.text]
  | @list around id texts fresh size each ih =>
    obtain ⟨depth, rfl⟩ := Nat.exists_eq_add_one_of_ne_zero (Nat.ne_of_gt (Nat.zero_lt_of_lt enough))
    have same : (heap.items id).toList.map (heap.textWithin depth (.list id :: around)) = texts := by
      refine List.ext_getElem (by simp [size]) fun i inside inside' => ?_
      have found : (heap.items id)[i]? = some (heap.items id)[i] := Array.getElem?_eq_getElem (size ▸ inside')
      have room := unmet_cons_lt (mem_containers_of_item found) fresh enough
      simpa using ih i _ _ found (List.getElem?_eq_getElem inside') room
    rw [textWithin_list fresh, same]
  | @object around id texts fresh sorted names each ih =>
    obtain ⟨depth, rfl⟩ := Nat.exists_eq_add_one_of_ne_zero (Nat.ne_of_gt (Nat.zero_lt_of_lt enough))
    have same : (heap.properties id).map (heap.textWithin depth (.object id :: around)) = ⟨texts, sorted⟩ := by
      refine Table.ext_get? fun name => ?_
      have known : (Table.mk texts sorted).contains name = true ↔ (heap.properties id).contains name = true :=
        (Table.mem_keys_iff _).symm.trans (names name)
      rw [Table.get?_map]
      cases found : (heap.properties id).get? name with
      | none =>
        have other : (Table.mk texts sorted).contains name = false := by
          rw [← Bool.not_eq_true, known, Table.contains, found]
          exact Bool.false_ne_true
        exact (Option.not_isSome_iff_eq_none.1 (ne_true_of_eq_false other)).symm
      | some value =>
        have there : (Table.mk texts sorted).contains name = true := by
          rw [known, Table.contains, found]
          rfl
        obtain ⟨text, written⟩ := Option.isSome_iff_exists.1 there
        have room := unmet_cons_lt (mem_containers_of_property found) fresh enough
        have held : heap.property id name = value := by rw [property, found, Option.getD_some]
        have same := ih name text ((Table.mem_entries_iff _).2 written) room
        rw [written, Option.map_some, ← held, same]
    rw [textWithin_object fresh, same]

theorem prints_textWithin (value : Value) (enough : heap.unmet (fun c => decide (c ∈ around)) < depth) :
    heap.Prints around value (heap.textWithin depth around value) := by
  induction depth generalizing around value with
  | zero => omega
  | succ depth ih =>
    have plain {value : Value} {text : String} (known : heap.plainText? value = some text) :
        heap.Prints around value (heap.textWithin (depth + 1) around value) := by
      rw [textWithin_plain known]
      exact .plain known
    cases value with
    | list id =>
      by_cases met : .list id ∈ around
      · simp only [textWithin, outlineWithin, met, if_true, Outline.text]
        exact .openList met
      · rw [textWithin_list met]
        refine .list met (by simp) fun i item text found written => ?_
        have room := unmet_cons_lt (mem_containers_of_item found) met enough
        have same : heap.textWithin depth (.list id :: around) item = text := by
          rw [List.getElem?_map, Array.getElem?_toList, found] at written
          exact Option.some.inj written
        exact same ▸ ih item room
    | object id =>
      by_cases met : .object id ∈ around
      · simp only [textWithin, outlineWithin, met, if_true, Outline.text]
        exact .openObject met
      · rw [textWithin_object met]
        refine .object met (Table.sorted _) (fun name => ?_) fun name text written => ?_
        · refine (Table.mem_keys_iff _).trans ?_
          rw [Table.contains, Table.get?_map, Option.isSome_map, Table.contains]
        · rw [Table.mem_entries_iff, Table.get?_map] at written
          obtain ⟨value, found, rfl⟩ := Option.map_eq_some_iff.1 written
          have held : heap.property id name = value := by rw [property, found, Option.getD_some]
          rw [held]
          exact ih value (unmet_cons_lt (mem_containers_of_property found) met enough)
    | _ => exact plain rfl

theorem textWithin_eq_text (enough : heap.containerCount < depth) (value : Value) :
    heap.textWithin depth [] value = heap.text value := by
  have room : heap.unmet (fun c => decide (c ∈ [])) ≤ heap.containerCount := heap.unmet_le_containerCount
  exact congrArg Outline.text (heap.outlineWithin_eq [] value (by omega) (by omega))

theorem prints_text (value : Value) : heap.Prints [] value (heap.text value) := by
  rw [← textWithin_eq_text (Nat.lt_succ_self _)]
  exact prints_textWithin value (Nat.lt_succ_of_le heap.unmet_le_containerCount)

theorem Prints.text_eq (prints : heap.Prints [] value text) : text = heap.text value := by
  rw [← textWithin_eq_text (Nat.lt_succ_self _)]
  exact (prints.textWithin_eq (Nat.lt_succ_of_le heap.unmet_le_containerCount)).symm

end

/-! ### Containers that match -/

section

variable {heap heap' : Heap} {link : Container → Container → Prop} {around around' : List Container} {value value' : Value}

theorem eq_list_of_container? {id : ListId} (is : value.container? = some (.list id)) : value = .list id := by
  cases value <;> cases is
  rfl

theorem eq_object_of_container? {id : ObjectId} (is : value.container? = some (.object id)) : value = .object id := by
  cases value <;> cases is
  rfl

theorem Isomorphic.textWithin_eq (isomorphic : heap.Isomorphic heap' link) {depth : Nat}
    (open_iff : ∀ {k k'}, link k k' → (k ∈ around ↔ k' ∈ around')) (alike : heap.Matches heap' link value value') :
    heap'.textWithin depth around' value' = heap.textWithin depth around value := by
  induction depth generalizing around around' value value' with
  | zero =>
    cases alike with
    | plain known known' => rw [textWithin_plain known, textWithin_plain known']
    | @linked k k' is is' linked =>
      cases k with
      | list id =>
        obtain ⟨id', rfl, -⟩ := isomorphic.list linked
        rw [eq_list_of_container? is, eq_list_of_container? is']
        rfl
      | object id =>
        obtain ⟨id', rfl, -⟩ := isomorphic.object linked
        rw [eq_object_of_container? is, eq_object_of_container? is']
        rfl
  | succ depth ih =>
    cases alike with
    | plain known known' => rw [textWithin_plain known, textWithin_plain known']
    | @linked k k' is is' linked =>
      have inner {value value' : Value} (alike : heap.Matches heap' link value value') :
          heap'.textWithin depth (k' :: around') value' = heap.textWithin depth (k :: around) value :=
        ih (fun linked' => by rw [List.mem_cons, List.mem_cons, isomorphic.oneToOne linked' linked, open_iff linked']) alike
      cases k with
      | list id =>
        obtain ⟨id', rfl, items⟩ := isomorphic.list linked
        rw [eq_list_of_container? is, eq_list_of_container? is']
        by_cases met : .list id ∈ around
        · simp only [textWithin, outlineWithin, met, (open_iff linked).1 met, if_true]
        · have same : (heap'.items id').toList.map (heap'.textWithin depth (.list id' :: around')) =
              (heap.items id).toList.map (heap.textWithin depth (.list id :: around)) := by
            rw [eq_comm, ← List.forall₂_eq_eq_eq, List.forall₂_map_left_iff, List.forall₂_map_right_iff]
            exact items.imp fun _ _ alike => (inner alike).symm
          rw [textWithin_list met, textWithin_list (mt (open_iff linked).2 met), same]
      | object id =>
        obtain ⟨id', rfl, properties⟩ := isomorphic.object linked
        rw [eq_object_of_container? is, eq_object_of_container? is']
        by_cases met : .object id ∈ around
        · simp only [textWithin, outlineWithin, met, (open_iff linked).1 met, if_true]
        · have same : (heap'.properties id').map (heap'.textWithin depth (.object id' :: around')) =
              (heap.properties id).map (heap.textWithin depth (.object id :: around)) := by
            refine Table.ext_get? fun name => ?_
            rw [Table.get?_map, Table.get?_map]
            have entry := properties name
            generalize (heap.properties id).get? name = held, (heap'.properties id').get? name = held' at entry
            cases entry with
            | none => rfl
            | some alike => exact congrArg some (inner alike)
          rw [textWithin_object met, textWithin_object (mt (open_iff linked).2 met), same]

theorem Isomorphic.text_eq (isomorphic : heap.Isomorphic heap' link) (alike : heap.Matches heap' link value value') :
    heap'.text value' = heap.text value := by
  have same : heap'.textWithin (heap.containerCount + heap'.containerCount + 1) [] value' =
      heap.textWithin (heap.containerCount + heap'.containerCount + 1) [] value :=
    isomorphic.textWithin_eq (by simp) alike
  rwa [textWithin_eq_text (by omega), textWithin_eq_text (by omega)] at same

end

/-! ### Copies -/

section

variable {heap heap' : Heap} {link : Container → Container → Prop} {ρ : Renaming} {value copy : Value}

theorem exists_plainText (code : heap.SameCode heap') (none : value.container? = none) :
    ∃ text, heap.plainText? value = some text ∧ heap'.plainText? value = some text := by
  cases value with
  | list | object => cases none
  | method id => exact ⟨_, rfl, by rw [plainText?, method?, code.methods]; rfl⟩
  | callable id => exact ⟨_, rfl, by rw [plainText?, callable?, code.callables]; rfl⟩
  | _ => exact ⟨_, rfl, rfl⟩

theorem matches_value (code : heap.SameCode heap') (linked : ∀ k ∈ value.container?, link k (ρ.container k)) :
    heap.Matches heap' link value (ρ.value value) := by
  cases is : value.container? with
  | none =>
    obtain ⟨text, known, known'⟩ := exists_plainText code is
    have same : ρ.value value = value := by
      cases value <;> first | rfl | cases is
    exact .plain known (same.symm ▸ known')
  | some k => exact .linked is (by rw [ρ.container?_value, is, Option.map_some]) (linked k is)

theorem isomorphic_of_twinIn (code : heap.SameCode heap')
    (injective : ∀ {k k'}, heap.Reaches value k → heap.Reaches value k' → ρ.container k = ρ.container k' → k = k')
    (twin : ∀ {k}, heap.Reaches value k → heap.TwinIn heap' ρ k) :
    heap.Isomorphic heap' fun k k' => heap.Reaches value k ∧ k' = ρ.container k where
  oneToOne := by
    rintro k₁ k₂ _ _ ⟨reached₁, rfl⟩ ⟨reached₂, rfl⟩
    exact ⟨congrArg ρ.container, injective reached₁ reached₂⟩
  list := by
    rintro id _ ⟨reached, rfl⟩
    refine ⟨ρ.list id, rfl, ?_⟩
    have twin : heap'.items (ρ.list id) = (heap.items id).map ρ.value := twin reached
    rw [twin, Array.toList_map, List.forall₂_map_right_iff, List.forall₂_same]
    exact fun item mem => matches_value code fun k is => ⟨reached.onward mem is, rfl⟩
  object := by
    rintro id _ ⟨reached, rfl⟩
    refine ⟨ρ.object id, rfl, fun name => ?_⟩
    have twin : heap'.properties (ρ.object id) = (heap.properties id).map ρ.value := twin reached
    rw [twin, Table.get?_map]
    cases found : (heap.properties id).get? name with
    | none => exact .none
    | some held =>
      have mem : held ∈ heap.inside (.object id) :=
        List.mem_map.2 ⟨(name, held), (Table.mem_entries_iff _).2 found, rfl⟩
      exact .some (matches_value code fun k is => ⟨reached.onward mem is, rfl⟩)

theorem text_of_twinIn (code : heap.SameCode heap')
    (injective : ∀ {k k'}, heap.Reaches value k → heap.Reaches value k' → ρ.container k = ρ.container k' → k = k')
    (twin : ∀ {k}, heap.Reaches value k → heap.TwinIn heap' ρ k) : heap'.text (ρ.value value) = heap.text value :=
  (isomorphic_of_twinIn code injective twin).text_eq (matches_value code fun _ is => ⟨.here is, rfl⟩)

theorem text_of_sameIn (code : heap.SameCode heap') (same : ∀ k, heap.Reaches value k → heap.SameIn heap' k) :
    heap'.text value = heap.text value := by
  have stays (value : Value) : (Renaming.mk id id).value value = value := by cases value <;> rfl
  have kept (k : Container) : (Renaming.mk id id).container k = k := by cases k <;> rfl
  have twin {k : Container} (reached : heap.Reaches value k) : heap.TwinIn heap' ⟨id, id⟩ k := by
    have here := same k reached
    cases k with
    | list list =>
      refine Eq.trans here ?_
      rw [funext stays, Array.map_id']
    | object object =>
      refine Eq.trans here (Table.ext_get? fun name => ?_)
      rw [Table.get?_map, funext stays, Option.map_id']
  have text := text_of_twinIn code (fun _ _ same => by rwa [kept, kept] at same) twin
  rwa [stays] at text

theorem text_deepCopy (closed : heap.Closed) (within : value.In heap) (copied : heap.deepCopy value = (copy, heap')) :
    heap'.text copy = heap.text value ∧ heap'.text value = heap.text value := by
  have room : heap.unmet (Copying.start heap).met < heap.containerCount + 1 :=
    Nat.lt_succ_of_le heap.unmet_le_containerCount
  have made := Copying.makes_copyWithin closed within (Copying.apart_start heap) room
  have code := sameCode_deepCopy heap value
  rw [copied] at code
  have ran : (Copying.copyWithin (heap.containerCount + 1) value (.start heap)).1 = copy ∧
      (Copying.copyWithin (heap.containerCount + 1) value (.start heap)).2.heap = heap' :=
    ⟨congrArg Prod.fst copied, congrArg Prod.snd copied⟩
  generalize Copying.copyWithin (heap.containerCount + 1) value (.start heap) = result at made ran
  obtain ⟨rfl, rfl⟩ := ran
  constructor
  · rw [made.copy_eq]
    exact text_of_twinIn code made.twins.injective made.twins.twin
  · exact text_of_sameIn code fun k reached =>
      made.apart.keeps.sameIn (mem_containers_of_reaches closed within reached)

end

/-- Rendering ends on every heap, whatever is shared in it and whatever comes around in it, and it writes the unfolded tree
cut where a container comes up inside itself. So the text depends on the shape of what is reached only. A copy has the
text of what it is a copy of, which copying does not change. -/
theorem text_of_shape (heap : Heap) (value : Value) :
    heap.Prints [] value (heap.text value) ∧ (∀ text, heap.Prints [] value text → text = heap.text value) ∧
    (∀ depth, heap.containerCount < depth → (heap.outlineWithin depth [] value).text = heap.text value) ∧
    (∀ heap' link value', heap.Isomorphic heap' link → heap.Matches heap' link value value' →
      heap'.text value' = heap.text value) ∧
    (heap.Closed → value.In heap → ∀ copy heap', heap.deepCopy value = (copy, heap') →
      heap'.text copy = heap.text value ∧ heap'.text value = heap.text value) :=
  ⟨prints_text value, fun _ prints => prints.text_eq, fun _ enough => textWithin_eq_text enough value,
    fun _ _ _ isomorphic alike => isomorphic.text_eq alike, fun closed within _ _ copied =>
      text_deepCopy closed within copied⟩

def movedKnot : Heap := { empty with
  lists := #[#[], #[.object ⟨1⟩, .object ⟨1⟩]], objects := #[.empty, .ofList [("around", .list ⟨1⟩)]] }

def knotLink (k k' : Container) : Prop :=
  k = .list ⟨0⟩ ∧ k' = .list ⟨1⟩ ∨ k = .object ⟨0⟩ ∧ k' = .object ⟨1⟩

theorem isomorphic_movedKnot : knot.Isomorphic movedKnot knotLink where
  oneToOne := by
    rintro _ _ _ _ (⟨rfl, rfl⟩ | ⟨rfl, rfl⟩) (⟨rfl, rfl⟩ | ⟨rfl, rfl⟩) <;> decide
  list := by
    rintro _ _ (⟨⟨⟩, rfl⟩ | ⟨⟨⟩, -⟩)
    have object : knot.Matches movedKnot knotLink (.object ⟨0⟩) (.object ⟨1⟩) := .linked rfl rfl (.inr ⟨rfl, rfl⟩)
    exact ⟨_, rfl, .cons object (.cons object .nil)⟩
  object := by
    rintro _ _ (⟨⟨⟩, -⟩ | ⟨⟨⟩, rfl⟩)
    refine ⟨_, rfl, fun name => ?_⟩
    have inside {id : ListId} : (Table.ofList [("around", Value.list id)]).get? name =
        if name = "around" then some (.list id) else none := (Table.get?_insert _ _ _ _).trans rfl
    have held : (knot.properties ⟨0⟩).get? name = _ := inside
    have held' : (movedKnot.properties ⟨1⟩).get? name = _ := inside
    rw [held, held']
    split
    · exact .some (.linked rfl rfl (.inl ⟨rfl, rfl⟩))
    · exact .none

theorem text_of_shape_of_knot :
    knot.text (.list ⟨0⟩) = "[Object {around: [...]},Object {around: [...]}]" ∧
      movedKnot.text (.list ⟨1⟩) = knot.text (.list ⟨0⟩) ∧ knot.Closed ∧ (Value.list ⟨0⟩).In knot ∧
      (knot.deepCopy (.list ⟨0⟩)).2.text (.list ⟨1⟩) = knot.text (.list ⟨0⟩) := by
  have within : (Value.list ⟨0⟩).In knot := Nat.zero_lt_one
  obtain ⟨-, -, -, moved, copied⟩ := text_of_shape knot (.list ⟨0⟩)
  refine ⟨by decide, ?_, closed_knot, within, (copied closed_knot within _ _ rfl).1⟩
  exact moved movedKnot knotLink _ isomorphic_movedKnot (.linked rfl rfl (.inl ⟨rfl, rfl⟩))

end Heap

end HookScript
