import HookScript.Host
import HookScript.Proofs.Lists.Asked

/-!
Which numbers stand for items of a list. Those in range stand for the item at their floor and all others for none, in
reading, writing and removing alike. NaN is the exception: no comparison keeps it out, and it is converted to zero.
-/

namespace HookScript

namespace Number

open Float.Model

/-- The place among so many items that scripts come to with a number. -/
def index? (x : Float) (count : Nat) : Option Nat :=
  if x.isNaN then if 0 < count then some 0 else none else place? x count

theorem position?_of_isNaN {x : Float} (nan : x.isNaN) : Value.position? x = some 0 := by
  have nan : x.toModel.unpack.isNaN = true := nan
  rw [position?_eq]
  cases form : x.toModel.unpack with
  | notANumber => rfl
  | _ =>
    rw [form] at nan
    cases nan

theorem filter_position? {count : Nat} (few : count < 2 ^ 64) (x : Float) :
    (Value.position? x).filter (· < count) = index? x count := by
  rw [index?]
  split
  · next nan =>
    rw [position?_of_isNaN nan, Option.filter_some]
    simp only [decide_eq_true_eq]
  · next number => exact position?_filter (Bool.not_eq_true _ ▸ number) few

theorem index?_eq_some_iff {x : Float} {count i : Nat} (number : x.isNaN = false) :
    index? x count = some i ↔ ∃ q, value? x = some q ∧ 0 ≤ q ∧ q < count ∧ ⌊q⌋₊ = i := by
  rw [index?, number, if_neg nofun, place?, Option.bind_eq_some_iff]
  refine exists_congr fun q => and_congr_right fun _ => ?_
  split
  · next within => simp [within]
  · next outside => simp only [reduceCtorEq, ← and_assoc, outside, false_and]

theorem index?_lt {x : Float} {count i : Nat} (here : index? x count = some i) : i < count := by
  cases number : x.isNaN with
  | false =>
    obtain ⟨q, -, least, below, rfl⟩ := (index?_eq_some_iff number).1 here
    exact (Nat.floor_lt least).2 below
  | true =>
    rw [index?, number, if_pos rfl] at here
    split at here
    · cases here
      assumption
    · cases here

end Number

namespace Run

variable {world : World} {n : Nat} {list : ListId} {x : Float} {m : Machine}

/-- The end of a request at a number: one thing at the place that the number stands for, if there is one, and otherwise
a refusal on the machine as it is. -/
def atIndex (x : Float) (list : ListId) (m : Machine) (act : Nat → Value × Machine) :
    EStateM.Result Stop Machine Value :=
  match Number.index? x (m.heap.items list).size with
  | some i => .ok (act i).1 (act i).2
  | none => .error (.fault (.outOfRange x)) m

theorem position_number (few : (m.heap.items list).size < 2 ^ 64) : position list (.number x) m =
    match Number.index? x (m.heap.items list).size with
    | some i => .ok i m
    | none => .error (.fault (.outOfRange x)) m := by
  rw [← Number.filter_position? few x]
  simp only [position, Bind.bind, EStateM.bind, readHeap]
  cases (Value.position? x).filter (· < (m.heap.items list).size) <;> rfl

theorem inside_of_index? {i : Nat} (here : Number.index? x (m.heap.items list).size = some i) :
    list.index < m.heap.lists.size := by
  by_contra outside
  have none : m.heap.items list = #[] := by
    rw [Heap.items, Array.getD_eq_getD_getElem?, Array.getElem?_eq_none (Nat.le_of_not_lt outside)]
    rfl
  have bound := Number.index?_lt here
  rw [none] at bound
  exact Nat.not_lt_zero i bound

theorem takeItem_number (few : (m.heap.items list).size < 2 ^ 64) : takeItem list (.number x) m =
    atIndex x list m fun i => ((m.heap.items list).getD i .nil, m) := by
  simp only [takeItem, Bind.bind, EStateM.bind, position_number few, atIndex]
  cases Number.index? x (m.heap.items list).size <;> rfl

theorem putItem_number (few : (m.heap.items list).size < 2 ^ 64) (value : Value) : putItem list (.number x) value m =
    atIndex x list m fun i => (value, m.withItems list ((m.heap.items list).toList.set i value)) := by
  simp only [putItem, Bind.bind, EStateM.bind, position_number few, atIndex]
  cases here : Number.index? x (m.heap.items list).size with
  | none => rfl
  | some i =>
    have written := Machine.withItems_modify (inside_of_index? here) (·.setIfInBounds i value)
    rw [Array.toList_setIfInBounds] at written
    exact congrArg (EStateM.Result.ok value) written

theorem remove_number (few : (m.heap.items list).size < 2 ^ 64) :
    callListMethod .remove (.list list) (.number x) m =
      atIndex x list m fun i => (.list list, m.withItems list ((m.heap.items list).toList.eraseIdx i)) := by
  simp only [callListMethod, readHeap, Bind.bind, EStateM.bind, Number.filter_position? few, atIndex]
  cases here : Number.index? x (m.heap.items list).size with
  | none => rfl
  | some i =>
    have removed := Machine.withItems_modify (inside_of_index? here) (·.eraseIdxIfInBounds i)
    rw [Array.toList_eraseIdxIfInBounds] at removed
    exact congrArg (EStateM.Result.ok (Value.list list)) removed

/-- The item at a number is read, replaced or removed at the floor of the number if that is the place of an item, and
at the first place if the number is NaN and there are items. With any other number each of these is refused, and the
machine stays as it is. -/
theorem items_at_number (few : (m.heap.items list).size < 2 ^ 64) (x : Float) :
    (∀ {target index m₀ m₁}, evaluate world n target m₀ = .ok (.list list) m₁ →
      evaluate world n index m₁ = .ok (.number x) m →
      evaluate world (n + 1) (.item target index) m₀ =
        atIndex x list m fun i => ((m.heap.items list).getD i .nil, m)) ∧
    (∀ {target index value v m₀ m₁ m₂}, evaluate world n value m₀ = .ok v m₁ →
      evaluate world n target m₁ = .ok (.list list) m₂ → evaluate world n index m₂ = .ok (.number x) m →
      evaluate world (n + 1) (.setItem target index value) m₀ =
        atIndex x list m fun i => (v, m.withItems list ((m.heap.items list).toList.set i v))) ∧
    (∀ {callee index id m₀ m₁}, evaluate world (n + 1) callee m₀ = .ok (.callable id) m₁ →
      m₁.heap.callable? id = some (.bound (.list .remove) (.list list)) →
      evaluateAll world (n + 1) [index] m₁ = .ok [.number x] m →
      evaluate world (n + 2) (.call callee [index]) m₀ =
        atIndex x list m fun i => (.list list, m.withItems list ((m.heap.items list).toList.eraseIdx i))) ∧
    (x.isNaN = false → ∀ i, Number.index? x (m.heap.items list).size = some i ↔
      ∃ q, Number.value? x = some q ∧ 0 ≤ q ∧ q < (m.heap.items list).size ∧ ⌊q⌋₊ = i) ∧
    (Fault.outOfRange x).kind = .illegalArgument := by
  refine ⟨fun ht hi => ?read, fun hv ht hi => ?written, fun hc bound ha => ?removed,
    fun number i => Number.index?_eq_some_iff number, rfl⟩
  case read => rw [evaluate_item ht hi, takeItem_number few]
  case written => rw [evaluate_setItem hv ht hi, putItem_number few]
  case removed =>
    rw [evaluate_call hc bound rfl ha]
    exact remove_number few

theorem items_at_number_of_half : ∃ m : Machine, (m.heap.items ⟨0⟩).size < 2 ^ 64 ∧
    evaluate (.ofFiles []) 4 (.setItem (.list [.literal (.boolean true)]) (.literal (.float 0.5)) (.literal .nil))
      (Machine.start none) = .ok .nil (m.withItems ⟨0⟩ [.nil]) := by
  obtain ⟨m, made, items⟩ : ∃ m, evaluate (.ofFiles []) 3 (.list [.literal (.boolean true)]) (Machine.start none) =
      .ok (.list ⟨0⟩) m ∧ m.heap.items ⟨0⟩ = #[.boolean true] := ⟨_, rfl, rfl⟩
  have few : (m.heap.items ⟨0⟩).size < 2 ^ 64 := by rw [items]; decide
  have half : Number.value? 0.5 = some (1 / 2) := by
    have here : Number.Binary.ofFloat 0.5 = .finite false (2 ^ 52) (-53) := rfl
    rw [Number.value?, here]
    norm_num [Number.Binary.value?]
  have first : Number.index? 0.5 1 = some 0 :=
    (Number.index?_eq_some_iff (Number.isNaN_of_value? half)).2 ⟨_, half, by norm_num, by norm_num, by norm_num⟩
  refine ⟨m, few, ((items_at_number few 0.5).2.1 rfl made rfl).trans ?_⟩
  simp only [atIndex, items, List.size_toArray, List.length_singleton, first]
  rfl

/-- What a script exports under a name when it is run by itself. -/
def exported? (script name : String) : Option Value :=
  match Host.runText (.ofFiles []) 30 script (Machine.start none) with
  | .ok () m => m.interpreter.exports.get? name
  | .error _ _ => none

def infiniteDifference : String :=
  "var x = 9000000000000000000; x = x * x; x = x * x; x = x * x; x = x * x; x = x * x; " ++
    "export x - x as n; export [true][x - x] as r;"

def isNotANumber : Option Value → Bool
  | some (.number x) => x.isNaN
  | _ => false

def isTrue : Option Value → Bool
  | some (.boolean b) => b
  | _ => false

theorem exists_of_isNotANumber {value : Option Value} (holds : isNotANumber value = true) :
    ∃ x, value = some (.number x) ∧ x.isNaN = true := by
  cases value with
  | none => cases holds
  | some v =>
    cases v with
    | number x => exact ⟨x, rfl, holds⟩
    | _ => cases holds

theorem eq_of_isTrue {value : Option Value} (holds : isTrue value = true) : value = some (.boolean true) := by
  cases value with
  | none => cases holds
  | some v =>
    cases v with
    | boolean b => exact congrArg (some ∘ Value.boolean) holds
    | _ => cases holds

/-- Not a number stands for the first item. -/
theorem first_item_at_nan : (∃ x, exported? infiniteDifference "n" = some (.number x) ∧ x.isNaN = true) ∧
    exported? infiniteDifference "r" = some (.boolean true) := by
  let x : Expr := .lookup "x" 0
  let squared : Stmt := .expression (.assign "x" 0 (.binary x .times x))
  let difference : Expr := .binary x .minus x
  have accepted : Program.ofText infiniteDifference =
      .ok [.declare "x" (some (.literal (.integer 9000000000000000000))), squared, squared, squared, squared, squared,
        .exportAs "n" difference, .exportAs "r" (.item (.list [.literal (.boolean true)]) difference)] := by cbv
  have lost : isNotANumber (exported? infiniteDifference "n") = true := by
    rw [exported?, Host.runText, accepted]
    decide +kernel
  have found : isTrue (exported? infiniteDifference "r") = true := by
    rw [exported?, Host.runText, accepted]
    decide +kernel
  exact ⟨exists_of_isNotANumber lost, eq_of_isTrue found⟩

end Run

end HookScript
