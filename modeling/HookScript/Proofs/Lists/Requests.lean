import HookScript.Evaluation
import HookScript.Proofs.Numbers.Whole

/-!
Lists as sequences. A request is answered from the items of the list alone; the answer comes with the items that the
list has afterwards.
-/

namespace HookScript

namespace Value

/-- The place among so many items that a value stands for as an index. -/
def place? : Value → Nat → Option Nat
  | number x, count => Number.place? x count
  | _, _ => none

def reached? : Value → Nat → Option Nat
  | number x, count => (position? x).filter (· < count)
  | _, _ => none

theorem reached?_eq {index : Value} {count : Nat} (few : count < 2 ^ 64)
    (number : ∀ x, index = .number x → x.isNaN = false) : index.reached? count = index.place? count := by
  cases index with
  | number x => exact Number.position?_filter (number x rfl) few
  | _ => rfl

end Value

inductive ListRequest where
  | call (method : ListMethod) (argument : Value)
  | read (index : Value)
  | write (index value : Value)

namespace ListRequest

def index? : ListRequest → Option Value
  | call .remove index | read index | write index _ => some index
  | call _ _ => none

def atPlace (items : List Value) (place : Option Nat) (act : Nat → Value × List Value) :
    Except FaultKind Value × List Value :=
  match place with
  | some i => (.ok (act i).1, (act i).2)
  | none => (.error .illegalArgument, items)

/-- The answer of a list with these items, and the items that it has then, if the index stands for `place`. -/
def answerAt (list : ListId) (items : List Value) (place : Option Nat) :
    ListRequest → Except FaultKind Value × List Value
  | call .add item => (.ok (.list list), items ++ [item])
  | call .length _ => (.ok (.number (Float.ofNat items.length)), items)
  | call .find item => (.ok (.number ((items.findIdx? (·.equals item)).elim (-1) Float.ofNat)), items)
  | call .contains item => (.ok (.boolean (items.any (·.equals item))), items)
  | call .remove _ => atPlace items place fun i => (.list list, items.eraseIdx i)
  | read _ => atPlace items place fun i => (items.getD i .nil, items)
  | write _ value => atPlace items place fun i => (value, items.set i value)

def answer (list : ListId) (items : List Value) (request : ListRequest) : Except FaultKind Value × List Value :=
  request.answerAt list items (request.index?.bind (·.place? items.length))

/-- The answer at the place that scripts come to. -/
def reply (list : ListId) (items : List Value) (request : ListRequest) : Except FaultKind Value × List Value :=
  request.answerAt list items (request.index?.bind (·.reached? items.length))

structure Definite (items : List Value) (request : ListRequest) : Prop where
  few : items.length < 2 ^ 64
  number {x : Float} (index : request.index? = some (.number x)) : x.isNaN = false

variable {list : ListId} {items : List Value} {request : ListRequest}

theorem Definite.reply_eq (definite : request.Definite items) :
    request.reply list items = request.answer list items := by
  have same : request.index?.bind (·.reached? items.length) = request.index?.bind (·.place? items.length) :=
    Option.bind_congr fun index is => Value.reached?_eq definite.few fun x here => definite.number (here ▸ is)
  rw [reply, answer, same]

theorem answerAt_of_error {place : Option Nat} {kind : FaultKind}
    (failed : (request.answerAt list items place).1 = .error kind) :
    kind = .illegalArgument ∧ (request.answerAt list items place).2 = items := by
  have refused {act : Nat → Value × List Value} (failed : (atPlace items place act).1 = .error kind) :
      kind = .illegalArgument ∧ (atPlace items place act).2 = items := by
    cases place with
    | none =>
      cases failed
      exact ⟨rfl, rfl⟩
    | some i => cases failed
  cases request with
  | call method argument =>
    cases method with
    | remove => exact refused failed
    | _ => nomatch failed
  | read index => exact refused failed
  | write index value => exact refused failed

theorem answer_length (list : ListId) (few : items.length ≤ 2 ^ 53) (argument : Value) : ∃ x,
    (call .length argument).answer list items = (.ok (.number x), items) ∧
      Number.value? x = some (items.length : ℚ) :=
  ⟨Float.ofNat items.length, rfl, Number.value?_ofNat few⟩

structure FindsFirst (list : ListId) (items : List Value) (item : Value) (x : Float) : Prop where
  found : (call .find item).answer list items = (.ok (.number x), items)
  number : x.isNaN = false
  value : Number.value? x = some ((items.findIdx? (·.equals item)).elim (-1) fun i => (i : ℚ))
  contained : (call .contains item).answer list items = (.ok (.boolean (Number.value? x ≠ some (-1))), items)
  removed : (call .remove (.number x)).answer list items =
    if items.any (·.equals item) then (.ok (.list list), items.eraseP (·.equals item))
    else (.error .illegalArgument, items)

theorem findsFirst (list : ListId) (few : items.length ≤ 2 ^ 53) (item : Value) :
    ∃ x, FindsFirst list items item x := by
  refine ⟨(items.findIdx? (·.equals item)).elim (-1) Float.ofNat, ?_⟩
  have any : items.any (·.equals item) = (items.findIdx? (·.equals item)).isSome := List.findIdx?_isSome.symm
  cases found : items.findIdx? (·.equals item) with
  | none =>
    refine ⟨by rw [answer, answerAt, found], Number.isNaN_of_value? Number.value?_neg_one, ?_, ?_, ?_⟩
    · rw [found]
      exact Number.value?_neg_one
    · simp [answer, answerAt, any, found, Number.value?_neg_one]
    · simp [answer, answerAt, atPlace, any, found, index?, Value.place?, Number.place?_neg_one]
  | some i =>
    have inside : i < items.length := (List.findIdx?_eq_some_iff_getElem.1 found).1
    have small : i ≤ 2 ^ 53 := by omega
    have whole := Number.value?_ofNat small
    have apart : (i : ℚ) ≠ -1 := by
      have := Nat.cast_nonneg (α := ℚ) i
      linarith
    refine ⟨by rw [answer, answerAt, found], Number.isNaN_of_value? whole, by rw [found]; exact whole, ?_, ?_⟩
    · simp [answer, answerAt, any, found, whole, apart]
    · simp [answer, answerAt, atPlace, any, found, index?, Value.place?, Number.place?_ofNat inside small,
        List.eraseP_eq_eraseIdx]

end ListRequest

end HookScript
