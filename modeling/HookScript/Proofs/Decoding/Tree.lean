import Mathlib
import HookScript.Proofs.Decoding.Routes

/-!
The tree of elements in a heap. Every element has an object of its own, with its attributes in an object under their
key and with the objects of its child elements under their names.
-/

namespace HookScript

namespace Heap

/-- What objects come to under a name: nothing, the only one, or a list of several. -/
def Together (heap : Heap) (found : Option Value) : List ObjectId → Prop
  | [] => found = none
  | [only] => found = some (.object only)
  | several => ∃ id, found = some (.list id) ∧ heap.items id = (several.map Value.object).toArray

variable {heap heap' : Heap} {value : Value} {document inner : Document} {path : List Selector} {name : String}
  {parts : List Document} {id : ObjectId} {objects : List ObjectId}

theorem at?_member (there : heap.at? value path = some (.object id)) (name : String) (rest : List Selector) :
    heap.at? value (path ++ .member name :: rest) = ((heap.properties id).get? name).bind (heap.at? · rest) := by
  rw [at?_append, there]
  rfl

namespace Holds

theorem together (holds : heap.Holds heap' value document) (there : heap'.at? value path = some (.object id))
    (inside : document.at? path = some inner) (is : inner.child? (.member name) = Xml.together parts)
    (lengths : objects.length = parts.length) (each : ∀ i object, objects[i]? = some object →
      heap'.at? value (path ++ Xml.stepsTo name parts.length i) = some (.object object)) :
    heap'.Together ((heap'.properties id).get? name) objects := by
  have leads := at?_member there name
  have follows (rest : List Selector) : document.at? (path ++ .member name :: rest) =
      (Xml.together parts).bind (·.at? rest) := by
    rw [Document.at?_append, inside, Option.bind_some, Document.at?, is]
  rcases parts with _ | ⟨first, _ | ⟨second, others⟩⟩
  · obtain rfl := List.length_eq_zero_iff.1 lengths
    have nothing := holds.at?_eq_none (follows [])
    rw [leads] at nothing
    cases found : (heap'.properties id).get? name with
    | none => rfl
    | some v => cases Option.bind_eq_none_iff.1 nothing v found
  · obtain ⟨only, rfl⟩ := List.length_eq_one_iff.1 lengths
    have first := each 0 only rfl
    rw [List.length_singleton, Xml.stepsTo, if_pos rfl, leads] at first
    obtain ⟨v, found, is⟩ := Option.bind_eq_some_iff.1 first
    exact found.trans is
  · obtain ⟨a, b, rest, rfl⟩ : ∃ a b rest, objects = a :: b :: rest := by
      rcases objects with _ | ⟨a, _ | ⟨b, rest⟩⟩
      · cases lengths
      · cases lengths
      · exact ⟨a, b, rest, rfl⟩
    obtain ⟨v, found, like⟩ := holds.exists_like (follows [])
    rw [leads] at found
    obtain ⟨v', found, is⟩ := Option.bind_eq_some_iff.1 found
    cases is
    cases like with
    | list listId _ =>
    refine ⟨listId, found, Array.ext_getElem? fun i => ?_⟩
    have items : heap'.at? value (path ++ [.member name, .item i]) = (heap'.items listId)[i]? := by
      rw [leads, found]
      simp [at?, child?]
    rw [← items, List.getElem?_toArray, List.getElem?_map]
    cases at_i : (a :: b :: rest)[i]? with
    | some object =>
      have each := each i object at_i
      rwa [Xml.stepsTo, if_neg (by simp)] at each
    | none =>
      refine holds.at?_eq_none ?_
      have outside : (first :: second :: others)[i]? = none := by
        rw [List.getElem?_eq_none_iff] at at_i ⊢
        exact lengths ▸ at_i
      rw [follows]
      exact congrArg (Option.bind · _) outside

end Holds

end Heap

namespace Xml

variable {events : List Event}

def siblings : Node := .element [0x61] [("k", "1"), ("k", "2")] [.empty [0x62] [], .text "x", .empty [0x62] []]

end Xml

end HookScript
