import HookScript.Proofs.Isolation.Lockstep

/-!
The steps of the evaluator that run nothing else, in lockstep: operators, properties, items, and the callables that
scripts do not write.
-/

namespace HookScript

/-- A value that no heap is needed for. -/
def Value.Plain : Value → Prop
  | nil | number _ | string _ | boolean _ => True
  | _ => False

namespace Value

variable {value left right : Value} (base : Heap)

theorem Plain.above_eq (plain : value.Plain) : value.above base = value := by
  cases value <;> first | rfl | cases plain

theorem Plain.in (plain : value.Plain) (heap : Heap) : value.In heap := by
  cases value <;> trivial

theorem asNumber_above : (value.above base).asNumber = value.asNumber := by
  cases value <;> rfl

theorem plus_above : (left.above base).plus (right.above base) = left.plus right := by
  cases left <;> cases right <;> rfl

theorem plus_plain (done : left.plus right = .ok value) : value.Plain := by
  cases left <;> cases right <;> cases done <;> trivial

end Value

namespace BinaryOp

variable {op : BinaryOp} {left right value : Value}

theorem apply_above (base : Heap) (op : BinaryOp) (left right : Value) :
    op.apply (left.above base) (right.above base) = op.apply left right := by
  cases op <;> simp only [apply, Value.arithmetic, Value.divide, Value.isLess, Value.plus_above, Value.asNumber_above,
    Value.equals_above]

theorem apply_plain (done : op.apply left right = .ok value) : value.Plain := by
  cases op with
  | plus => exact Value.plus_plain done
  | equal | notEqual =>
    cases done
    trivial
  | _ =>
    simp only [apply, Value.arithmetic, Value.divide, Value.isLess] at done
    cases hl : left.asNumber with
    | error f =>
      rw [hl] at done
      cases done
    | ok x =>
      cases hr : right.asNumber with
      | error f =>
        rw [hl, hr] at done
        cases done
      | ok y =>
        rw [hl, hr] at done
        simp only [bind, Except.bind, pure, Except.pure] at done
        first
        | cases done
          trivial
        | split at done <;> cases done
          trivial

end BinaryOp

namespace UnaryOp

variable {op : UnaryOp} {operand value : Value}

theorem apply_above (base : Heap) (op : UnaryOp) (operand : Value) :
    op.apply (operand.above base) = op.apply operand := by
  cases op with
  | not => simp only [apply, Value.isTruthy_above]
  | negate => simp only [apply, Value.arithmetic, Value.asNumber_above]

theorem apply_plain (done : op.apply operand = .ok value) : value.Plain := by
  cases op with
  | not =>
    cases done
    trivial
  | negate => cases operand <;> cases done; trivial

end UnaryOp

theorem Method.bind_above (base : Heap) (method : Method) (receiver : Value) :
    (method.above base).bind (receiver.above base) = (method.bind receiver).map (·.above base) := by
  rcases method with _ | _ | _ <;> cases receiver <;> rfl

theorem Callable.checkArity_above (base : Heap) (callable : Callable) (given : Nat) :
    (callable.above base).checkArity given = (callable.checkArity given).map id := by
  rw [checkArity, checkArity, arity_above, text_above]
  split <;> rfl

namespace Run

theorem literalValue_plain (literal : Literal) : (literalValue literal).Plain := by
  cases literal <;> trivial

theorem findItem_above (base : Heap) (items : Array Value) (value : Value) :
    findItem (items.map (·.above base)) (value.above base) = findItem items value := by
  simp only [findItem, Array.findIdx?_map, Function.comp_def, Value.equals_above]

section

variable {base m : Machine} (sound : m.Sound)
include sound

theorem Lifts.plain {value : Value} (plain : value.Plain) : Lifts base m (Pure.pure value) (Pure.pure value) := by
  have moved : Movable.above base.heap value = value := plain.above_eq base.heap
  refine .of_ok rfl ?_ ⟨.refl _, sound, plain.in m.heap⟩
  rw [moved]
  rfl

theorem Lifts.ofExcept {result result' : Except Fault Value} (same : result' = result)
    (plain : ∀ value, result = .ok value → value.Plain) :
    Lifts base m (Run.ofExcept result) (Run.ofExcept result') := by
  subst same
  cases result' with
  | ok value => exact .plain sound (plain value rfl)
  | error f => exact .fault f

theorem lifts_setProperty {target value : Value} (name : String) (within : value.In m.heap) :
    Lifts base m (setProperty target name value)
      (setProperty (target.above base.heap) name (value.above base.heap)) := by
  cases target with
  | object id =>
    have larger : m.heap.Larger (m.heap.putProperty id name value) := Heap.larger_of_size rfl Array.size_modify
    have closed : (m.heap.putProperty id name value).Closed := (sound.closed.all larger).putProperty (within.mono larger)
    refine .bind (.changeHeap sound ?_ larger closed trivial) fun _ m₁ ran leads => .pure leads.sound ?_
    · exact congrArg (Prod.mk ()) (Heap.putProperty_above base.heap m.heap id name value)
    · cases ran
      exact within.mono larger
  | _ => exact .fault _

theorem lifts_newCallable {callable : Callable} (within : callable.All (·.In m.heap)) :
    Lifts base m (do return .callable (← Run.changeHeap (·.newCallable callable)) : Run Value)
      (do return .callable (← Run.changeHeap (·.newCallable (callable.above base.heap)))) := by
  have larger : m.heap.Larger (m.heap.newCallable callable).2 := Heap.larger_of_size rfl rfl
  have closed : (m.heap.newCallable callable).2.Closed := sound.closed.newCallable within
  refine .bindChange (Heap.newCallable_above base.heap m.heap callable) larger ?_
  exact .pure (sound.withHeap closed larger) trivial

theorem lifts_getProperty {target : Value} (name : String) (within : target.In m.heap) :
    Lifts base m (getProperty target name) (getProperty (target.above base.heap) name) := by
  cases target with
  | object id =>
    refine .bindRead ?_
    have held := sound.closed.property id name
    rw [Heap.property_above]
    cases found : m.heap.property id name with
    | method methodId =>
      refine .bindRead ?_
      rw [Heap.method?_above]
      cases m.heap.method? methodId with
      | none => exact .pure sound trivial
      | some method =>
        refine .bindExcept (Method.bind_above base.heap method (.object id)) fun callable bound => ?_
        obtain rfl := Method.bind_ok bound
        exact lifts_newCallable sound within
    | list | object => exact .pure sound (found ▸ held)
    | _ => exact .pure sound trivial
  | list id =>
    unfold getProperty
    cases ListMethod.ofName? name with
    | none => exact .pure sound trivial
    | some method => exact lifts_newCallable sound within
  | _ => exact .fault _

theorem lifts_asCallable (value : Value) :
    Lifts base m (asCallable value) (asCallable (value.above base.heap)) := by
  cases value with
  | callable id =>
    refine .bindRead ?_
    rw [Heap.callable?_above]
    cases found : m.heap.callable? id with
    | none => exact .bindText (.fault _)
    | some callable => exact .pure sound (sound.closed.callable? found)
  | _ => exact .bindText (.fault _)

theorem lifts_callBuiltin (builtin : Builtin) {argument : Value} (within : argument.In m.heap) :
    Lifts base m (callBuiltin builtin argument) (callBuiltin builtin (argument.above base.heap)) := by
  cases builtin with
  | print => exact .bindText (.bind (.print sound _) fun _ _ _ leads => .pure leads.sound trivial)
  | println => exact .bindText (.bind (.print sound _) fun _ _ _ leads => .pure leads.sound trivial)
  | clone =>
    change Lifts base m (Run.changeHeap (·.deepCopy argument)) (Run.changeHeap (·.deepCopy (argument.above base.heap)))
    have copied := Heap.yields_deepCopy sound.closed within
    exact .changeHeap sound (Heap.deepCopy_above sound.closed within base.heap) copied.larger copied.closed
      (copied.within _ List.mem_cons_self)
  | panic => exact .bindText (.fault _)
  | assert => exact .ite (argument.isTruthy_above base.heap) (fun _ => .pure sound trivial) fun _ => .fault _

theorem lifts_callListMethod (method : ListMethod) {receiver argument : Value} (here : receiver.In m.heap)
    (within : argument.In m.heap) : Lifts base m (callListMethod method receiver argument)
      (callListMethod method (receiver.above base.heap) (argument.above base.heap)) := by
  cases receiver with
  | list id =>
    unfold callListMethod
    cases method with
    | add =>
      have larger : m.heap.Larger (m.heap.push id argument) := Heap.larger_of_size Array.size_modify rfl
      have closed : (m.heap.push id argument).Closed := (sound.closed.all larger).push (within.mono larger)
      refine .bindChange (congrArg (Prod.mk ()) (Heap.push_above base.heap m.heap id argument)) larger ?_
      exact .pure (sound.withHeap closed larger) (here.mono larger)
    | length =>
      refine .bindRead ?_
      rw [Heap.items_above, Array.size_map]
      exact .pure sound trivial
    | find =>
      refine .bindRead ?_
      rw [Heap.items_above, findItem_above]
      cases findItem (m.heap.items id) argument <;> exact .pure sound trivial
    | contains =>
      refine .bindRead ?_
      rw [Heap.items_above, findItem_above]
      exact .pure sound trivial
    | remove =>
      cases argument with
      | number x =>
        refine .bindRead ?_
        dsimp only
        rw [Heap.items_above, Array.size_map]
        cases (Value.position? x).filter (· < (m.heap.items id).size) with
        | none => exact .fault _
        | some index =>
          have larger : m.heap.Larger (m.heap.removeItem id index) := Heap.larger_of_size Array.size_modify rfl
          have closed : (m.heap.removeItem id index).Closed := (sound.closed.all larger).removeItem
          have moved := congrArg (Prod.mk (Value.list (id.above base.heap)))
            (Heap.removeItem_above base.heap m.heap id index)
          exact .changeHeap sound moved larger closed (here.mono larger)
      | _ => exact .fault _
  | _ => exact .fault _

theorem lifts_callDecoder (world : World) (id : DecoderId) :
    Lifts base m (callDecoder world id) (callDecoder world (id.above base.heap)) := by
  refine .bindRead ?_
  rw [Heap.decoder?_above]
  cases found : m.heap.decoder? id with
  | none => exact .pure sound trivial
  | some decoder =>
    have known := sound.closed.decoder? found
    obtain ⟨format, body, decoded⟩ := decoder
    cases decoded with
    | some value => exact .pure sound (known value rfl)
    | none =>
      dsimp only [Option.map_some, Decoder.above, Option.map_none]
      split
      · have moved := congrArg (Prod.mk Value.nil) (Heap.remember_above base.heap m.heap id .nil)
        exact .changeHeap sound moved (Heap.larger_of_size rfl rfl) (sound.closed.remember trivial) trivial
      · cases world.decode format body with
        | error error => exact .fault _
        | ok document =>
          have given := Heap.yields_ofDocument sound.closed document
          have made := given.within _ List.mem_cons_self
          refine .changeHeap sound ?_ ⟨given.larger.lists, given.larger.objects⟩ (given.closed.remember made) made
          simp only [Heap.ofDocument_above, Heap.remember_above]
          rfl

theorem lifts_asList {value : Value} (within : value.In m.heap) :
    Lifts base m (asList value) (asList (value.above base.heap)) := by
  cases value with
  | list id => exact .pure sound within
  | _ => exact .fault _

theorem lifts_position (list : ListId) (index : Value) :
    Lifts base m (position list index) (position (list.above base.heap) (index.above base.heap)) := by
  cases index with
  | number x =>
    refine .bindRead ?_
    dsimp only
    rw [Heap.items_above, Array.size_map]
    cases (Value.position? x).filter (· < (m.heap.items list).size) with
    | none => exact .fault _
    | some i => exact .pure sound trivial
  | _ => exact .fault _

theorem lifts_readItem (list : ListId) (i : Nat) :
    Lifts base m (readHeap fun heap => (heap.items list).getD i .nil)
      (readHeap fun heap => (heap.items (list.above base.heap)).getD i .nil) := by
  refine .of_ok rfl ?_ ⟨.refl _, sound, sound.closed.item list i⟩
  exact congrArg (EStateM.Result.ok · _) (Heap.item_above base.heap m.heap list i)

theorem lifts_setItem (list : ListId) (i : Nat) {value : Value} (within : value.In m.heap) :
    Lifts base m (Run.changeHeap fun heap => (value, heap.setItem list i value))
      (Run.changeHeap fun heap =>
        (value.above base.heap, heap.setItem (list.above base.heap) i (value.above base.heap))) := by
  have larger : m.heap.Larger (m.heap.setItem list i value) := Heap.larger_of_size Array.size_modify rfl
  have moved := congrArg (Prod.mk (value.above base.heap)) (Heap.setItem_above base.heap m.heap list i value)
  exact .changeHeap sound moved larger ((sound.closed.all larger).setItem (within.mono larger)) (within.mono larger)

theorem lifts_newList {values : List Value} (within : ∀ value ∈ values, value.In m.heap) :
    Lifts base m (do return .list (← Run.changeHeap (·.newList values.toArray)) : Run Value)
      (do return .list (← Run.changeHeap (·.newList (values.map (·.above base.heap)).toArray))) := by
  have made : m.heap.Yields (m.heap.newList values.toArray).2 [.list (m.heap.newList values.toArray).1] :=
    .newList (.refl sound.closed within)
  refine .bindChange ?_ made.larger
    (.pure (sound.withHeap made.closed made.larger) (made.within _ List.mem_cons_self))
  rw [← List.map_toArray, Heap.newList_above]

theorem lifts_newObject (names : List String) {values : List Value} (within : ∀ value ∈ values, value.In m.heap) :
    Lifts base m (do return .object (← Run.changeHeap (·.newObject (.ofList (names.zip values)))) : Run Value)
      (do return .object (← Run.changeHeap
        (·.newObject (.ofList (names.zip (values.map (·.above base.heap))))))) := by
  have made : m.heap.Yields (m.heap.newObject (.ofList (names.zip values))).2
      [.object (m.heap.newObject (.ofList (names.zip values))).1] :=
    .newObject (.refl sound.closed (List.forall_mem_nil _)) (.ofList fun entry mem => within entry.2 (List.of_mem_zip mem).2)
  refine .bindChange ?_ made.larger
    (.pure (sound.withHeap made.closed made.larger) (made.within _ List.mem_cons_self))
  rw [Table.zip_map, ← Table.map_ofList, Heap.newObject_above]

end

end Run

end HookScript
