import HookScript.Proofs.Contents.Reach
import HookScript.Proofs.Lists.Asked
import HookScript.Proofs.Run.Later

/-!
Items in the midst of a run. The operands of an index expression can do anything to the list that it is about, so the
place of the item is looked for when all of them have been evaluated. Nothing happens between that look and the item:
an expression that goes well has read or replaced an item that is there, and one that fails by itself has changed
nothing.
-/

namespace HookScript

theorem Value.reached?_eq_some_iff {index : Value} {count k : Nat} : index.reached? count = some k ↔
    ∃ x, index = .number x ∧ position? x = some k ∧ k < count := by
  cases index with
  | number x => simp [reached?, Option.filter_eq_some_iff]
  | _ => simp [reached?]

namespace Run

inductive Operands (world : World) (n : Nat) : List Expr → Machine → List Value → Machine → Prop
  | nil {m} : Operands world n [] m [] m
  | cons {operand others v values m m₁ m₂} (first : evaluate world n operand m = .ok v m₁)
    (rest : Operands world n others m₁ values m₂) : Operands world n (operand :: others) m (v :: values) m₂

inductive OperandFails (world : World) (n : Nat) : List Expr → Machine → Stop → Machine → Prop
  | here {operand others m e m'} (failed : evaluate world n operand m = .error e m') :
    OperandFails world n (operand :: others) m e m'
  | later {operand others v m m₁ e m'} (first : evaluate world n operand m = .ok v m₁)
    (rest : OperandFails world n others m₁ e m') : OperandFails world n (operand :: others) m e m'

inductive Refused (world : World) (n : Nat) (operands : List Expr) (m : Machine) : Stop → Machine → Prop
  | intro {first values f m'} (among : first <+: operands) (evaluated : Operands world n first m values m')
    (kind : f.kind = .illegalArgument) : Refused world n operands m (.fault f) m'

structure Replaced (m m' : Machine) (list : ListId) (k : Nat) (v : Value) : Prop where
  here : (m'.heap.items list)[k]? = some v
  size_eq : (m'.heap.items list).size = (m.heap.items list).size
  others {j : Nat} (other : j ≠ k) : (m'.heap.items list)[j]? = (m.heap.items list)[j]?
  elsewhere {other : ListId} (apart : other ≠ list) : m'.heap.items other = m.heap.items other

/-- The list and the place in it that an index expression is about. -/
def slot (world : World) (n : Nat) (target index : Expr) : Run (ListId × Nat) := do
  let list ← asList (← evaluate world n target)
  let i ← position list (← evaluate world n index)
  return (list, i)

theorem evaluate_item_eq (world : World) (n : Nat) (target index : Expr) :
    evaluate world (n + 1) (.item target index) =
      slot world n target index >>= fun place => readHeap fun heap => (heap.items place.1).getD place.2 .nil := by
  rw [evaluate]
  simp only [slot, bind_assoc, pure_bind]

theorem evaluate_setItem_eq (world : World) (n : Nat) (target index value : Expr) :
    evaluate world (n + 1) (.setItem target index value) =
      evaluate world n value >>= fun v => slot world n target index >>= fun place =>
        changeHeap fun heap => (v, heap.setItem place.1 place.2 v) := by
  rw [evaluate]
  simp only [slot, bind_assoc, pure_bind]

section

variable {α β : Type} {act : Run α} {rest : α → Run β} {m m' : Machine}

theorem bind_eq_ok_iff {b : β} :
    (act >>= rest) m = .ok b m' ↔ ∃ a m₁, act m = .ok a m₁ ∧ rest a m₁ = .ok b m' := by
  simp only [Bind.bind, EStateM.bind]
  cases act m <;> simp

theorem bind_eq_error_iff {e : Stop} :
    (act >>= rest) m = .error e m' ↔
      act m = .error e m' ∨ ∃ a m₁, act m = .ok a m₁ ∧ rest a m₁ = .error e m' := by
  simp only [Bind.bind, EStateM.bind]
  cases act m <;> simp

end

variable {world : World} {n : Nat} {target index value : Expr} {m m' m₁ : Machine} {e : Stop} {v : Value}
  {list : ListId} {k : Nat}

theorem asList_cases (v : Value) (m : Machine) :
    (∃ list, v = .list list ∧ asList v m = .ok list m) ∨
      ∃ f, f.kind = .illegalArgument ∧ asList v m = .error (.fault f) m := by
  cases v with
  | list id => exact .inl ⟨id, rfl, rfl⟩
  | _ => exact .inr ⟨_, rfl, rfl⟩

theorem slot_cases (world : World) (n : Nat) (target index : Expr) (m : Machine) :
    (∃ list k m' x, slot world n target index m = .ok (list, k) m' ∧
      Operands world n [target, index] m [.list list, .number x] m' ∧ Value.position? x = some k ∧
        k < (m'.heap.items list).size) ∨
    ∃ e m', slot world n target index m = .error e m' ∧
      (OperandFails world n [target, index] m e m' ∨ Refused world n [target, index] m e m') := by
  cases ht : evaluate world n target m with
  | error e m₁ => exact .inr ⟨e, m₁, by simp only [slot, Bind.bind, EStateM.bind, ht], .inl (.here ht)⟩
  | ok w m₁ =>
    rcases asList_cases w m₁ with ⟨list, rfl, isList⟩ | ⟨f, kind, other⟩
    · cases hi : evaluate world n index m₁ with
      | error e m₂ =>
        refine .inr ⟨e, m₂, ?_, .inl (.later ht (.here hi))⟩
        simp only [slot, Bind.bind, EStateM.bind, ht, isList, hi]
      | ok i m₂ =>
        have operands : Operands world n [target, index] m [.list list, i] m₂ := .cons ht (.cons hi .nil)
        rcases position_eq list i m₂ with ⟨k, reached, here⟩ | ⟨-, f, kind, outside⟩
        · obtain ⟨x, rfl, at_k, inside⟩ := Value.reached?_eq_some_iff.1 reached
          refine .inl ⟨list, k, m₂, x, ?_, operands, at_k, inside⟩
          simp only [slot, Bind.bind, EStateM.bind, ht, isList, hi, here]
          rfl
        · refine .inr ⟨.fault f, m₂, ?_, .inr (.intro (List.prefix_refl _) operands kind)⟩
          simp only [slot, Bind.bind, EStateM.bind, ht, isList, hi, outside]
    · refine .inr ⟨.fault f, m₁, ?_, .inr (.intro (List.prefix_append [target] [index]) (.cons ht .nil) kind)⟩
      simp only [slot, Bind.bind, EStateM.bind, ht, other]

theorem slot_eq_ok_iff {place : ListId × Nat} : slot world n target index m = .ok place m' ↔
    ∃ x, Operands world n [target, index] m [.list place.1, .number x] m' ∧ Value.position? x = some place.2 ∧
      place.2 < (m'.heap.items place.1).size := by
  constructor
  · intro here
    rcases slot_cases world n target index m with ⟨list, k, m₁, x, found, all⟩ | ⟨e, m₁, failed, -⟩
    · cases found.symm.trans here
      exact ⟨x, all⟩
    · cases failed.symm.trans here
  · obtain ⟨list, k⟩ := place
    rintro ⟨x, operands, at_k, inside⟩
    cases operands with
    | @cons _ _ _ _ _ m₁ _ ht rest =>
    cases rest with
    | cons hi rest =>
    cases rest
    have isList : asList (.list list) m₁ = .ok list m₁ := rfl
    have reached : (Value.number x).reached? (m'.heap.items list).size = some k :=
      Value.reached?_eq_some_iff.2 ⟨x, rfl, at_k, inside⟩
    rcases position_eq list (.number x) m' with ⟨j, reached', here⟩ | ⟨outside, -⟩
    · obtain rfl : k = j := Option.some.inj (reached.symm.trans reached')
      simp only [slot, Bind.bind, EStateM.bind, ht, isList, hi, here]
      rfl
    · rw [reached] at outside
      cases outside

theorem slot_error (failed : slot world n target index m = .error e m') :
    OperandFails world n [target, index] m e m' ∨ Refused world n [target, index] m e m' := by
  rcases slot_cases world n target index m with ⟨_, _, _, _, here, -⟩ | ⟨_, _, here, why⟩
  · cases here.symm.trans failed
  · cases here.symm.trans failed
    exact why

theorem Refused.cons {operand : Expr} {others : List Expr} (first : evaluate world n operand m = .ok v m₁)
    (refused : Refused world n others m₁ e m') : Refused world n (operand :: others) m e m' := by
  obtain ⟨among, evaluated, kind⟩ := refused
  exact .intro (List.prefix_cons_inj operand |>.2 among) (.cons first evaluated) kind

theorem replaced_setItem (inside : k < (m.heap.items list).size) (v : Value) :
    Replaced m { m with heap := m.heap.setItem list k v } list k v := by
  have items : (m.heap.setItem list k v).items list = (m.heap.items list).setIfInBounds k v := by
    simp only [Heap.setItem, Heap.items, Array.getD_eq_getD_getElem?, Array.getElem?_modify, if_true]
    cases m.heap.lists[list.index]? <;> rfl
  refine ⟨?_, ?_, fun {j} other => ?_, fun {other} apart => ?_⟩
  · rw [items, Array.getElem?_setIfInBounds_self_of_lt inside]
  · rw [items, Array.size_setIfInBounds]
  · rw [items, Array.getElem?_setIfInBounds_ne (Ne.symm other)]
  · exact Heap.items_modify_of_ne (fun same => apart (Container.list.inj same).symm) _

/-- An index expression goes well if and only if its operands are a list and an index of an item that the list has when
all of them have been evaluated. A read gives that item, and an assignment replaces it and nothing else. If one fails,
it is because an operand does, or it leaves the machine as the operands have left it. -/
theorem slots_of_index (world : World) (n : Nat) (target index value : Expr) (m m' : Machine) :
    (∀ v, evaluate world (n + 1) (.item target index) m = .ok v m' ↔
      ∃ list x k, Operands world n [target, index] m [.list list, .number x] m' ∧ Value.position? x = some k ∧
        (m'.heap.items list)[k]? = some v) ∧
    (∀ v, evaluate world (n + 1) (.setItem target index value) m = .ok v m' ↔
      ∃ list x k m₁, Operands world n [value, target, index] m [v, .list list, .number x] m₁ ∧
        Value.position? x = some k ∧ k < (m₁.heap.items list).size ∧
        m' = { m₁ with heap := m₁.heap.setItem list k v } ∧ Replaced m₁ m' list k v) ∧
    (∀ e, evaluate world (n + 1) (.item target index) m = .error e m' →
      OperandFails world n [target, index] m e m' ∨ Refused world n [target, index] m e m') ∧
    ∀ e, evaluate world (n + 1) (.setItem target index value) m = .error e m' →
      OperandFails world n [value, target, index] m e m' ∨ Refused world n [value, target, index] m e m' := by
  refine ⟨fun v => ?read, fun v => ?written, fun e failed => ?unread, fun e failed => ?unwritten⟩
  case read =>
    rw [evaluate_item_eq, bind_eq_ok_iff]
    constructor
    · rintro ⟨⟨list, k⟩, m₁, found, same⟩
      cases same
      obtain ⟨x, operands, at_k, inside⟩ := slot_eq_ok_iff.1 found
      refine ⟨list, x, k, operands, at_k, ?_⟩
      simp [Array.getD_eq_getD_getElem?, inside]
    · rintro ⟨list, x, k, operands, at_k, here⟩
      have inside : k < (m'.heap.items list).size := (Array.getElem?_eq_some_iff.1 here).1
      refine ⟨(list, k), m', slot_eq_ok_iff.2 ⟨x, operands, at_k, inside⟩, ?_⟩
      simp [readHeap, Array.getD_eq_getD_getElem?, here]
  case written =>
    rw [evaluate_setItem_eq, bind_eq_ok_iff]
    constructor
    · rintro ⟨w, m₁, hv, found⟩
      obtain ⟨⟨list, k⟩, m₂, located, same⟩ := bind_eq_ok_iff.1 found
      cases same
      obtain ⟨x, operands, at_k, inside⟩ := slot_eq_ok_iff.1 located
      exact ⟨list, x, k, m₂, .cons hv operands, at_k, inside, rfl, replaced_setItem inside _⟩
    · rintro ⟨list, x, k, m₂, operands, at_k, inside, rfl, -⟩
      cases operands with
      | cons hv rest =>
      refine ⟨v, _, hv, bind_eq_ok_iff.2 ⟨(list, k), m₂, slot_eq_ok_iff.2 ⟨x, rest, at_k, inside⟩, rfl⟩⟩
  case unread =>
    rw [evaluate_item_eq, bind_eq_error_iff] at failed
    rcases failed with failed | ⟨place, m₁, -, failed⟩
    · exact slot_error failed
    · cases failed
  case unwritten =>
    rw [evaluate_setItem_eq, bind_eq_error_iff] at failed
    rcases failed with failed | ⟨w, m₁, hv, failed⟩
    · exact .inl (.here failed)
    · rcases bind_eq_error_iff.1 failed with failed | ⟨place, m₂, -, failed⟩
      · exact (slot_error failed).imp (.later hv) (.cons hv)
      · cases failed

def twoItems : Machine :=
  match execute (.ofFiles []) 5 (.declare "l" (some (.list [.literal (.boolean true), .literal .nil])))
      (Machine.start none) with
  | .ok _ m | .error _ m => m

def shrinking : Expr :=
  .call (.property (.call (.property (.lookup "l" 0) "remove") [.literal (.integer 0)]) "find") [.literal .nil]

def leavesOne (index : Expr) (m : Machine) : Bool :=
  match evaluate (.ofFiles []) 11 index m with
  | .ok (.number x) m₁ => decide (Value.position? x = some 0 ∧ (m₁.heap.items ⟨0⟩).size = 1)
  | _ => false

/-- The list has become shorter when its item is replaced. -/
theorem slots_of_index_shrinking : ∃ m₁ m', (twoItems.heap.items ⟨0⟩).size = 2 ∧
    evaluate (.ofFiles []) 12 (.setItem (.lookup "l" 0) shrinking (.literal (.boolean true))) twoItems =
      .ok (.boolean true) m' ∧
    Replaced m₁ m' ⟨0⟩ 0 (.boolean true) ∧ (m'.heap.items ⟨0⟩).size = 1 := by
  obtain ⟨x, m₁, shrunk, first, size⟩ : ∃ x m₁, evaluate (.ofFiles []) 11 shrinking twoItems = .ok (.number x) m₁ ∧
      Value.position? x = some 0 ∧ (m₁.heap.items ⟨0⟩).size = 1 := by
    have holds : leavesOne shrinking twoItems = true := by decide +kernel
    unfold leavesOne at holds
    split at holds
    · exact ⟨_, _, ‹_›, of_decide_eq_true holds⟩
    · cases holds
  have target : evaluate (.ofFiles []) 11 (.lookup "l" 0) twoItems = .ok (.list ⟨0⟩) twoItems := by cbv
  have operands : Operands (.ofFiles []) 11 [.literal (.boolean true), .lookup "l" 0, shrinking] twoItems
      [.boolean true, .list ⟨0⟩, .number x] m₁ := .cons rfl (.cons target (.cons shrunk .nil))
  have inside : 0 < (m₁.heap.items ⟨0⟩).size := by omega
  have replaced := replaced_setItem inside (.boolean true)
  refine ⟨m₁, _, rfl, ((slots_of_index ..).2.1 _).2 ⟨⟨0⟩, x, 0, m₁, operands, first, inside, rfl, replaced⟩,
    replaced, ?_⟩
  rw [replaced.size_eq, size]

end Run

end HookScript
