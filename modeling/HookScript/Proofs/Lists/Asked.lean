import HookScript.Proofs.Lists.Requests
import HookScript.Proofs.Run.Later
import HookScript.Proofs.Run.Task
import Mathlib.Logic.Function.Basic

/-!
Requests that scripts make of lists: by calling a method of the list, and by an item or an assignment to one. Whatever
the expressions are that lead to the list, the answer is that of its sequence, and nothing else changes.
-/

namespace HookScript

namespace Heap

variable {heap : Heap} {list : ListId}

def sequence? (heap : Heap) (list : ListId) : Option (List Value) := heap.lists[list.index]?.map (·.toList)

theorem sequence?_eq (inside : list.index < heap.lists.size) :
    heap.sequence? list = some (heap.items list).toList := by
  rw [sequence?, items, Array.getD_eq_getD_getElem?, Array.getElem?_eq_getElem inside]
  rfl

theorem sequence?_setItems (inside : list.index < heap.lists.size) (items : List Value) :
    (heap.setItems list items.toArray).sequence? = Function.update heap.sequence? list (some items) := by
  funext other
  by_cases same : other = list
  · subst same
    simp [sequence?, setItems, inside]
  · have apart : list.index ≠ other.index := fun h => same (congrArg ListId.mk h.symm)
    simp [sequence?, setItems, Function.update_of_ne same, Array.getElem?_setIfInBounds_ne apart]

theorem modify_eq (inside : list.index < heap.lists.size) (f : Array Value → Array Value) :
    { heap with lists := heap.lists.modify list.index f } = heap.setItems list (f (heap.items list)) := by
  have same : heap.lists.modify list.index f = heap.lists.setIfInBounds list.index (f (heap.items list)) := by
    apply Array.ext_getElem?
    intro i
    by_cases here : list.index = i
    · subst here
      rw [Array.getElem?_modify, if_pos rfl, Array.getElem?_setIfInBounds_self_of_lt inside, items,
        Array.getD_eq_getD_getElem?, Array.getElem?_eq_getElem inside]
      rfl
    · simp [Array.getElem?_modify, here, Array.getElem?_setIfInBounds_ne here]
  rw [setItems, same]

theorem setItems_items (heap : Heap) (list : ListId) : heap.setItems list (heap.items list) = heap := by
  have same : heap.lists.setIfInBounds list.index (heap.items list) = heap.lists := by
    apply Array.ext_getElem?
    intro i
    by_cases here : list.index = i
    · subst here
      by_cases inside : list.index < heap.lists.size
      · simp [items, inside]
      · simp [inside]
    · rw [Array.getElem?_setIfInBounds_ne here]
  rw [setItems, same]

end Heap

def Machine.withItems (m : Machine) (list : ListId) (items : List Value) : Machine :=
  { m with heap := m.heap.setItems list items.toArray }

theorem Machine.withItems_modify {m : Machine} {list : ListId} (inside : list.index < m.heap.lists.size)
    (f : Array Value → Array Value) :
    { m with heap := { m.heap with lists := m.heap.lists.modify list.index f } } =
      m.withItems list (f (m.heap.items list)).toList := by
  rw [withItems, Array.toArray_toList, Heap.modify_eq inside]

theorem Machine.withItems_self (m : Machine) (list : ListId) : m.withItems list (m.heap.items list).toList = m := by
  rw [withItems, Array.toArray_toList, Heap.setItems_items]

namespace Run

/-- The answer that a run comes to and the machine that it leaves. Of a fault, scripts are told the kind. -/
def Answers (result : EStateM.Result Stop Machine Value) (m : Machine) : Except FaultKind Value → Prop
  | .ok value => result = .ok value m
  | .error kind => ∃ f, f.kind = kind ∧ result = .error (.fault f) m

theorem Answers.unique {result : EStateM.Result Stop Machine Value} {m m' : Machine} {a a' : Except FaultKind Value}
    (first : Answers result m a) (second : Answers result m' a') : a = a' ∧ m = m' := by
  cases a with
  | ok value =>
    cases a' with
    | ok value' => cases first.symm.trans second; exact ⟨rfl, rfl⟩
    | error kind =>
      obtain ⟨f, -, failed⟩ := second
      cases first.symm.trans failed
  | error kind =>
    obtain ⟨f, rfl, failed⟩ := first
    cases a' with
    | ok value => cases failed.symm.trans second
    | error kind' =>
      obtain ⟨f', rfl, failed'⟩ := second
      cases failed.symm.trans failed'
      exact ⟨rfl, rfl⟩

theorem Answers.refused {result : EStateM.Result Stop Machine Value} {m : Machine} (list : ListId) {f : Fault}
    (kind : f.kind = .illegalArgument) (failed : result = .error (.fault f) m) :
    Answers result (m.withItems list (m.heap.items list).toList) (.error .illegalArgument) :=
  ⟨f, kind, by rw [m.withItems_self, failed]⟩

/-- The task, begun on the first machine, asks this of a list when the machine has become the second one; by then it has
evaluated what the request consists of. `result` is how the task ends. -/
inductive Asks (world : World) : Nat → Task → Machine → ListId → ListRequest → Machine →
    EStateM.Result Stop Machine Value → Prop
  | called {n method list args m} : Asks world (n + 1) (.call (.bound (.list method) (.list list)) args) m list
    (.call method (args.headD .nil)) m (call world (n + 1) (.bound (.list method) (.list list)) args m)
  | read {n target index list i m m₁ m₂} (ht : evaluate world n target m = .ok (.list list) m₁)
    (hi : evaluate world n index m₁ = .ok i m₂) :
    Asks world (n + 1) (.evaluate (.item target index)) m list (.read i) m₂
      (evaluate world (n + 1) (.item target index) m)
  | written {n target index value v list i m m₁ m₂ m₃} (hv : evaluate world n value m = .ok v m₁)
    (ht : evaluate world n target m₁ = .ok (.list list) m₂) (hi : evaluate world n index m₂ = .ok i m₃) :
    Asks world (n + 1) (.evaluate (.setItem target index value)) m list (.write i v) m₃
      (evaluate world (n + 1) (.setItem target index value) m)

section

variable {world : World} {n : Nat} {list : ListId} {m m₁ m₂ m₃ : Machine}

def takeItem (list : ListId) (index : Value) : Run Value := do
  let i ← position list index
  readHeap fun heap => (heap.items list).getD i .nil

def putItem (list : ListId) (index value : Value) : Run Value := do
  let i ← position list index
  changeHeap fun heap => (value, heap.setItem list i value)

theorem evaluate_item {target index : Expr} {i : Value} (ht : evaluate world n target m = .ok (.list list) m₁)
    (hi : evaluate world n index m₁ = .ok i m₂) :
    evaluate world (n + 1) (.item target index) m = takeItem list i m₂ := by
  have here : asList (.list list) m₁ = .ok list m₁ := rfl
  rw [evaluate]
  simp only [Bind.bind, EStateM.bind, ht, here, hi, takeItem]

theorem evaluate_setItem {target index value : Expr} {v i : Value} (hv : evaluate world n value m = .ok v m₁)
    (ht : evaluate world n target m₁ = .ok (.list list) m₂) (hi : evaluate world n index m₂ = .ok i m₃) :
    evaluate world (n + 1) (.setItem target index value) m = putItem list i v m₃ := by
  have here : asList (.list list) m₂ = .ok list m₂ := rfl
  rw [evaluate]
  simp only [Bind.bind, EStateM.bind, hv, ht, here, hi, putItem]

theorem position_eq (list : ListId) (index : Value) (m : Machine) :
    (∃ i, index.reached? (m.heap.items list).size = some i ∧ position list index m = .ok i m) ∨
      index.reached? (m.heap.items list).size = none ∧
        ∃ f, f.kind = .illegalArgument ∧ position list index m = .error (.fault f) m := by
  cases index with
  | number x =>
    simp only [position, Bind.bind, EStateM.bind, readHeap, Value.reached?]
    cases found : (Value.position? x).filter (· < (m.heap.items list).size) with
    | some i => exact .inl ⟨i, rfl, rfl⟩
    | none => exact .inr ⟨rfl, .outOfRange x, rfl, rfl⟩
  | _ => exact .inr ⟨rfl, _, rfl, rfl⟩

theorem callListMethod_answers (inside : list.index < m.heap.lists.size) (method : ListMethod) (argument : Value) :
    Answers (callListMethod method (.list list) argument m)
      (m.withItems list ((ListRequest.call method argument).reply list (m.heap.items list).toList).2)
      ((ListRequest.call method argument).reply list (m.heap.items list).toList).1 := by
  have found : findItem (m.heap.items list) argument = (m.heap.items list).toList.findIdx? (·.equals argument) := by
    rw [findItem, ← List.findIdx?_toArray, Array.toArray_toList]
  cases method with
  | add =>
    have added := Machine.withItems_modify inside (·.push argument)
    rw [Array.toList_push] at added
    exact congrArg (EStateM.Result.ok (Value.list list)) added
  | length =>
    have counted : (m.heap.items list).toList.length = (m.heap.items list).size := Array.length_toList
    simp only [ListRequest.reply, ListRequest.answerAt, Machine.withItems_self, counted]
    rfl
  | find =>
    simp only [ListRequest.reply, ListRequest.answerAt, Machine.withItems_self, ← found]
    simp only [callListMethod, readHeap, Bind.bind, EStateM.bind]
    cases findItem (m.heap.items list) argument <;> rfl
  | contains =>
    simp only [ListRequest.reply, ListRequest.answerAt, Machine.withItems_self, ← List.findIdx?_isSome, ← found]
    rfl
  | remove =>
    cases argument with
    | number x =>
      simp only [ListRequest.reply, ListRequest.answerAt, ListRequest.index?, Option.bind_some, Value.reached?,
        Array.length_toList]
      simp only [callListMethod, readHeap, Bind.bind, EStateM.bind]
      cases (Value.position? x).filter (· < (m.heap.items list).size) with
      | none => exact .refused list (f := .outOfRange x) rfl rfl
      | some i =>
        have removed := Machine.withItems_modify inside (·.eraseIdxIfInBounds i)
        rw [Array.toList_eraseIdxIfInBounds] at removed
        exact congrArg (EStateM.Result.ok (Value.list list)) removed
    | _ => exact .refused list (f := .removalIndex) rfl rfl

theorem takeItem_answers (list : ListId) (index : Value) (m : Machine) :
    Answers (takeItem list index m)
      (m.withItems list ((ListRequest.read index).reply list (m.heap.items list).toList).2)
      ((ListRequest.read index).reply list (m.heap.items list).toList).1 := by
  have item (i : Nat) : (m.heap.items list).getD i .nil = (m.heap.items list).toList.getD i .nil := by
    rw [Array.getD_eq_getD_getElem?, List.getD_eq_getElem?_getD, Array.getElem?_toList]
  simp only [ListRequest.reply, ListRequest.answerAt, ListRequest.index?, Option.bind_some, Array.length_toList]
  simp only [takeItem, Bind.bind, EStateM.bind]
  rcases position_eq list index m with ⟨i, reached, taken⟩ | ⟨reached, f, kind, failed⟩
  · rw [reached, taken]
    simp only [ListRequest.atPlace, Machine.withItems_self, ← item]
    rfl
  · rw [reached, failed]
    exact .refused list kind rfl

theorem putItem_answers (inside : list.index < m.heap.lists.size) (index value : Value) :
    Answers (putItem list index value m)
      (m.withItems list ((ListRequest.write index value).reply list (m.heap.items list).toList).2)
      ((ListRequest.write index value).reply list (m.heap.items list).toList).1 := by
  simp only [ListRequest.reply, ListRequest.answerAt, ListRequest.index?, Option.bind_some, Array.length_toList]
  simp only [putItem, Bind.bind, EStateM.bind]
  rcases position_eq list index m with ⟨i, reached, taken⟩ | ⟨reached, f, kind, failed⟩
  · have written := Machine.withItems_modify inside (·.setIfInBounds i value)
    rw [Array.toList_setIfInBounds] at written
    rw [reached, taken]
    exact congrArg (EStateM.Result.ok value) written
  · rw [reached, failed]
    exact .refused list kind rfl

theorem Asks.answers {t : Task} {request : ListRequest} {result : EStateM.Result Stop Machine Value}
    (asks : Asks world n t m₁ list request m result) (inside : list.index < m.heap.lists.size) :
    Answers result (m.withItems list (request.reply list (m.heap.items list).toList).2)
      (request.reply list (m.heap.items list).toList).1 := by
  cases asks with
  | called => exact callListMethod_answers inside _ _
  | read ht hi =>
    rw [evaluate_item ht hi]
    exact takeItem_answers list _ m
  | written hv ht hi =>
    rw [evaluate_setItem hv ht hi]
    exact putItem_answers inside _ _

theorem evaluate_listMethod {target : Expr} (method : ListMethod)
    (ht : evaluate world n target m = .ok (.list list) m₁) : ∃ id m₂,
      evaluate world (n + 1) (.property target method.name) m = .ok (.callable id) m₂ ∧
      m₂.heap.callable? id = some (.bound (.list method) (.list list)) ∧ m₂.heap.sequence? = m₁.heap.sequence? := by
  have known : ListMethod.ofName? method.name = some method := by cases method <;> rfl
  have looked : evaluate world (n + 1) (.property target method.name) m = .ok (.callable ⟨m₁.heap.callables.size⟩)
      { m₁ with heap := (m₁.heap.newCallable (.bound (.list method) (.list list))).2 } := by
    rw [evaluate]
    simp only [Bind.bind, EStateM.bind, ht, getProperty, known]
    rfl
  exact ⟨_, _, looked, Array.getElem?_push_size, rfl⟩

end

end Run

end HookScript
