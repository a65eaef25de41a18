import HookScript.Proofs.Contents.Reach
import HookScript.Proofs.Lists.Asked

/-!
What happens to lists in the course of time. A history tells which lists were made and what scripts asked of them, in
order and with the answers; sequences replay it without the program.
-/

namespace HookScript

inductive ListEvent where
  | made (list : ListId) (items : List Value)
  | asked (list : ListId) (request : ListRequest) (answer : Except FaultKind Value)

/-- Sequences under the identities of lists, changed by events one after another. The list that is asked answers from
its sequence, if that settles the answer, and the others stay as they are. -/
inductive Replays (start : ListId → Option (List Value)) : List ListEvent → (ListId → Option (List Value)) → Prop
  | start : Replays start [] start
  | made {events now list items} (replays : Replays start events now) (new : now list = none) :
    Replays start (events ++ [.made list items]) (Function.update now list (some items))
  | asked {events now list items items' request answer} (replays : Replays start events now)
    (there : now list = some items)
    (answers : request.Definite items → request.answer list items = (answer, items')) :
    Replays start (events ++ [.asked list request answer]) (Function.update now list (some items'))

namespace Run

/-- How the machine came to be what it is, as far as lists are concerned. Whatever else was done meanwhile, lists were
only made, and asked by tasks that came up. -/
inductive History (world : World) (comes : Nat → Task → Machine → Prop) (start : Machine) :
    List ListEvent → Machine → Prop
  | start : History world comes start [] start
  | elsewhere {events m m'} (history : History world comes start events m) (same : m'.heap.lists = m.heap.lists) :
    History world comes start events m'
  | made {events m m' items} (history : History world comes start events m)
    (new : m'.heap.lists = m.heap.lists.push items) :
    History world comes start (events ++ [.made ⟨m.heap.lists.size⟩ items.toList]) m'
  | asked {events n t m₀ list request m result answer m'} (history : History world comes start events m)
    (inside : list.index < m.heap.lists.size) (came : comes n t m₀)
    (asks : Asks world n t m₀ list request m result) (answers : Answers result m' answer) :
    History world comes start (events ++ [.asked list request answer]) m'

end Run

namespace Heap

variable {heap heap' : Heap}

theorem sequence?_congr (same : heap'.lists = heap.lists) : heap'.sequence? = heap.sequence? := by
  funext list
  rw [sequence?, sequence?, same]

theorem sequence?_push {items : Array Value} (new : heap'.lists = heap.lists.push items) :
    heap'.sequence? = Function.update heap.sequence? ⟨heap.lists.size⟩ (some items.toList) := by
  funext list
  rw [sequence?, new, Array.getElem?_push]
  by_cases last : list.index = heap.lists.size
  · obtain rfl : list = ⟨heap.lists.size⟩ := congrArg ListId.mk last
    simp
  · have other : list ≠ ⟨heap.lists.size⟩ := fun same => last (congrArg ListId.index same)
    rw [if_neg last, Function.update_of_ne other, sequence?]

theorem sequence?_size (heap : Heap) : heap.sequence? ⟨heap.lists.size⟩ = none := by
  rw [sequence?, Array.getElem?_eq_none (Nat.le_refl _), Option.map_none]

theorem items_newList_self (heap : Heap) (items : Array Value) :
    (heap.newList items).2.items (heap.newList items).1 = items := by
  simp [newList, Heap.items]

structure KeepsLists (heap heap' : Heap) : Prop where
  size : heap.lists.size ≤ heap'.lists.size
  items {list : ListId} (inside : list.index < heap.lists.size) : heap'.items list = heap.items list

theorem KeepsLists.of_eq (same : heap'.lists = heap.lists) : heap.KeepsLists heap' :=
  ⟨Nat.le_of_eq (congrArg Array.size same.symm), fun _ => by rw [Heap.items, Heap.items, same]⟩

end Heap

namespace Run.History

variable {world : World} {comes : Nat → Task → Machine → Prop} {m m₁ m₂ : Machine}
  {events first second : List ListEvent}

theorem trans (begun : History world comes m first m₁) (rest : History world comes m₁ second m₂) :
    History world comes m (first ++ second) m₂ := by
  induction rest with
  | start => simpa using begun
  | elsewhere _ same ih => exact .elsewhere ih same
  | made _ new ih =>
    rw [← List.append_assoc]
    exact .made ih new
  | asked _ inside came asks answers ih =>
    rw [← List.append_assoc]
    exact .asked ih inside came asks answers

theorem of_keepsLists (keeps : m.heap.KeepsLists m₁.heap) : ∃ events, History world comes m events m₁ := by
  obtain ⟨more, size⟩ := Nat.exists_eq_add_of_le keeps.size
  induction more generalizing m with
  | zero =>
    refine ⟨[], .elsewhere .start (Array.ext size fun i inside₁ inside => ?_)⟩
    have kept : m₁.heap.items ⟨i⟩ = m.heap.items ⟨i⟩ := keeps.items inside
    simpa [Heap.items, Array.getD, inside, inside₁] using kept
  | succ more ih =>
    let items := m₁.heap.items ⟨m.heap.lists.size⟩
    let m' : Machine := { m with heap := (m.heap.newList items).2 }
    have size' : m'.heap.lists.size = m.heap.lists.size + 1 := Array.size_push items
    have keeps' : m'.heap.KeepsLists m₁.heap := by
      refine ⟨by omega, fun {list} inside => ?_⟩
      obtain old | last := Nat.lt_succ_iff_lt_or_eq.1 (size' ▸ inside)
      · rw [keeps.items old, Heap.items_newList old]
      · obtain rfl : list = ⟨m.heap.lists.size⟩ := congrArg ListId.mk last
        exact (Heap.items_newList_self m.heap items).symm
    obtain ⟨events, rest⟩ := ih keeps' (by omega)
    have made : History world comes m [.made ⟨m.heap.lists.size⟩ items.toList] m' := .made .start rfl
    exact ⟨_, made.trans rest⟩

/-- Sequences that replay a history come to what the lists have become, with the same answers. -/
theorem replays (history : History world comes m events m₁) : Replays m.heap.sequence? events m₁.heap.sequence? := by
  induction history with
  | start => exact .start
  | elsewhere _ same ih => rwa [Heap.sequence?_congr same]
  | made _ new ih =>
    rw [Heap.sequence?_push new]
    exact .made ih (Heap.sequence?_size _)
  | asked _ inside _ asks answers ih =>
    obtain ⟨rfl, rfl⟩ := answers.unique (asks.answers inside)
    rw [Machine.withItems, Heap.sequence?_setItems inside]
    exact .asked ih (Heap.sequence?_eq inside) fun definite => definite.reply_eq.symm

end Run.History

end HookScript
