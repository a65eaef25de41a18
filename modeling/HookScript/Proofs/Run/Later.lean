import HookScript.Proofs.Run.Growth

/-!
What a part of a run leaves behind, however it ends: the interpreter with at most other exports, and a heap that
has grown. The rules follow the operations that the evaluator is put together from.
-/

namespace HookScript

structure Machine.Later (S : Nat → Task → Machine → Prop) (m m' : Machine) : Prop where
  grows : m.heap.Grows S m'.heap
  interpreter : m'.interpreter = { m.interpreter with exports := m'.interpreter.exports }

namespace Machine.Later

variable {S : Nat → Task → Machine → Prop} {m m₁ m₂ : Machine}

theorem refl (m : Machine) : m.Later S m := ⟨.refl _, rfl⟩

theorem trans (first : m.Later S m₁) (second : m₁.Later S m₂) : m.Later S m₂ where
  grows := first.grows.trans second.grows
  interpreter := by rw [second.interpreter, first.interpreter]

theorem scope_eq (later : m.Later S m₁) : m₁.interpreter.scope = m.interpreter.scope := by
  rw [later.interpreter]

theorem globals_eq (later : m.Later S m₁) : m₁.interpreter.globals = m.interpreter.globals := by
  rw [later.interpreter]

theorem builtins_eq (later : m.Later S m₁) : m₁.interpreter.builtins = m.interpreter.builtins := by
  rw [later.interpreter]

end Machine.Later

theorem Method.bind_ok {method : Method} {receiver : Value} {callable : Callable}
    (h : method.bind receiver = .ok callable) : callable = .bound method receiver := by
  unfold Method.bind at h
  split at h
  · exact (Except.ok.inj h).symm
  · cases h
  · exact (Except.ok.inj h).symm

theorem Callable.checkArity_ok {callable : Callable} {given : Nat} (h : callable.checkArity given = .ok ()) :
    given = callable.arity := by
  unfold checkArity at h
  split at h
  · assumption
  · cases h

/-- A reason to stop that an operation can have by itself. A jump that is out of place, or the end of the fuel, has
to come from elsewhere. -/
def Stop.Plain : Stop → Prop
  | fault f => f.kind ≠ .stray
  | outOfFuel => False

def Run.Plain {α : Type} : Except Fault α → Prop
  | .ok _ => True
  | .error f => f.kind ≠ .stray

def Fault.OfOperands : Fault → Prop
  | notAString _ | notAddable _ | notANumber _ | divisionByZero | arity _ _ _ => True
  | _ => False

theorem Fault.OfOperands.kind_ne {f : Fault} (operands : f.OfOperands) : f.kind ≠ .stray := by
  cases f with
  | stray jump => cases operands
  | _ => nofun

def Run.ByOperands {α : Type} : Except Fault α → Prop
  | .ok _ => True
  | .error f => f.OfOperands

section Operands

variable {α β : Type}

theorem Run.ByOperands.bind {result : Except Fault α} {rest : α → Except Fault β} (first : Run.ByOperands result)
    (second : ∀ a, Run.ByOperands (rest a)) : Run.ByOperands (result >>= rest) := by
  cases result with
  | ok a => exact second a
  | error f => exact first

theorem Run.ByOperands.plain {result : Except Fault α} (operands : Run.ByOperands result) : Run.Plain result := by
  cases result with
  | ok a => trivial
  | error f => exact operands.kind_ne

theorem Callable.byOperands_checkArity (callable : Callable) (given : Nat) :
    Run.ByOperands (callable.checkArity given) := by
  unfold checkArity
  split
  · trivial
  · trivial

namespace Value

theorem byOperands_asNumber (value : Value) : Run.ByOperands value.asNumber := by
  cases value <;> trivial

theorem byOperands_plus (left right : Value) : Run.ByOperands (left.plus right) := by
  unfold plus
  split
  · trivial
  · trivial
  · exact right.byOperands_asNumber.bind fun _ => trivial
  · trivial

theorem byOperands_arithmetic (f : Float → Float → Float) (left right : Value) :
    Run.ByOperands (left.arithmetic f right) :=
  left.byOperands_asNumber.bind fun _ => right.byOperands_asNumber.bind fun _ => trivial

theorem byOperands_divide (left right : Value) : Run.ByOperands (left.divide right) := by
  refine left.byOperands_asNumber.bind fun x => right.byOperands_asNumber.bind fun y => ?_
  split
  · trivial
  · trivial

theorem byOperands_isLess (left right : Value) : Run.ByOperands (left.isLess right) :=
  left.byOperands_asNumber.bind fun _ => right.byOperands_asNumber.bind fun _ => trivial

end Value

theorem BinaryOp.byOperands_apply (op : BinaryOp) (left right : Value) : Run.ByOperands (op.apply left right) := by
  cases op with
  | plus => exact left.byOperands_plus right
  | minus | times => exact left.byOperands_arithmetic _ right
  | divide => exact left.byOperands_divide right
  | less | lessEqual => exact (left.byOperands_isLess right).bind fun _ => trivial
  | greater | greaterEqual =>
    exact left.byOperands_asNumber.bind fun _ => right.byOperands_asNumber.bind fun _ => trivial
  | equal | notEqual => trivial

theorem UnaryOp.byOperands_apply (op : UnaryOp) (operand : Value) : Run.ByOperands (op.apply operand) := by
  cases op with
  | not => trivial
  | negate => exact operand.byOperands_arithmetic _ _

end Operands

theorem Method.plain_bind (method : Method) (receiver : Value) : Run.Plain (method.bind receiver) := by
  unfold Method.bind
  split
  · trivial
  · nofun
  · trivial

namespace Run

variable {α β : Type} {S : Nat → Task → Machine → Prop} {P : Stop → Prop} {m m₁ : Machine}

structure Keeps (S : Nat → Task → Machine → Prop) (P : Stop → Prop) (m : Machine) (act : Run α) : Prop where
  later : m.Later S (m.after act)
  reason {e : Stop} (fails : Fails act m e) : e.Plain ∨ P e

theorem Keeps.of_ok {act : Run α} {a : α} (ran : act m = .ok a m₁) (later : m.Later S m₁) : Keeps S P m act where
  later := by rwa [Machine.after_of_ok ran]
  reason fails := by
    obtain ⟨m', failed⟩ := fails
    rw [ran] at failed
    cases failed

theorem Keeps.of_error {act : Run α} {e : Stop} (ran : act m = .error e m₁) (later : m.Later S m₁)
    (reason : e.Plain ∨ P e) : Keeps S P m act where
  later := by rwa [Machine.after_of_error ran]
  reason fails := by
    obtain ⟨m', failed⟩ := fails
    rw [ran] at failed
    cases failed
    exact reason

theorem Keeps.bind {act : Run α} {rest : α → Run β} (first : Keeps S P m act)
    (second : ∀ a m₁, act m = .ok a m₁ → m.Later S m₁ → Keeps S P m₁ (rest a)) : Keeps S P m (act >>= rest) := by
  obtain ⟨later₁, reason₁⟩ := first
  cases run : act m with
  | ok a m₁ =>
    rw [Machine.after_of_ok run] at later₁
    obtain ⟨later₂, reason₂⟩ := second a m₁ run later₁
    have same : (act >>= rest) m = rest a m₁ := by simp only [Bind.bind, EStateM.bind, run]
    have after : m.after (act >>= rest) = m₁.after (rest a) := by rw [Machine.after, same, Machine.after]
    refine ⟨after ▸ later₁.trans later₂, fun fails => reason₂ ?_⟩
    rwa [Fails, same] at fails
  | error e m₁ =>
    rw [Machine.after_of_error run] at later₁
    have same : (act >>= rest) m = .error e m₁ := by simp only [Bind.bind, EStateM.bind, run]
    exact .of_error same later₁ (reason₁ ⟨m₁, run⟩)

theorem Keeps.bindRead {f : Heap → α} {rest : α → Run β} (second : Keeps S P m (rest (f m.heap))) :
    Keeps S P m (Run.readHeap f >>= rest) := ⟨second.later, second.reason⟩

theorem Keeps.bindInterpreter {rest : Interpreter → Run β} (second : Keeps S P m (rest m.interpreter)) :
    Keeps S P m (Run.interpreter >>= rest) := ⟨second.later, second.reason⟩

theorem Keeps.changeHeap {f : Heap → α × Heap} (grows : m.heap.Grows S (f m.heap).2) :
    Keeps S P m (Run.changeHeap f) := .of_ok rfl ⟨grows, rfl⟩

theorem Keeps.bindChange {f : Heap → α × Heap} {rest : α → Run β} (grows : m.heap.Grows S (f m.heap).2)
    (second : Keeps S P { m with heap := (f m.heap).2 } (rest (f m.heap).1)) :
    Keeps S P m (Run.changeHeap f >>= rest) := by
  refine .bind (.changeHeap grows) fun a m₁ changed _ => ?_
  cases changed
  exact second

theorem Keeps.pure (a : α) : Keeps S P m (Pure.pure a) := .of_ok rfl (.refl m)

theorem Keeps.fault (f : Fault) (plain : f.kind ≠ .stray) : Keeps S P m (Run.fault f : Run α) :=
  .of_error rfl (.refl m) (.inl plain)

theorem Keeps.ofExcept {result : Except Fault α} (plain : Plain result) : Keeps S P m (Run.ofExcept result) := by
  cases result with
  | ok a => exact .of_ok rfl (.refl m)
  | error f => exact .fault f plain

theorem Keeps.bindExcept {result : Except Fault α} {rest : α → Run β} (plain : Plain result)
    (second : ∀ a, result = .ok a → Keeps S P m (rest a)) : Keeps S P m (Run.ofExcept result >>= rest) := by
  cases result with
  | ok a => exact second a rfl
  | error f => exact .fault f plain

theorem Keeps.readHeap (f : Heap → α) : Keeps S P m (Run.readHeap f) := .of_ok rfl (.refl m)

theorem Keeps.text (value : Value) : Keeps S P m (Run.text value) := .of_ok rfl (.refl m)

theorem Keeps.changeOnly {f : Heap → Heap} (grows : m.heap.Grows S (f m.heap)) :
    Keeps S P m (Run.changeHeap fun heap => ((), f heap)) := .of_ok rfl ⟨grows, rfl⟩

theorem Keeps.changeData {f : Heap → α × Heap} (same : m.heap.SameCode (f m.heap).2) :
    Keeps S P m (Run.changeHeap f) := .changeHeap same.grows

theorem Keeps.lookup? (level : Nat) (name : String) : Keeps S P m (Run.lookup? level name) := .of_ok rfl (.refl m)

theorem Keeps.print (text : String) : Keeps S P m (Run.print text) := .of_ok rfl ⟨.refl _, rfl⟩

theorem Keeps.addExport (name : String) (value : Value) : Keeps S P m (Run.addExport name value) :=
  .of_ok rfl ⟨.refl _, rfl⟩

theorem Keeps.declare (name : String) (value : Value) : Keeps S P m (Run.declare name value) :=
  .bindInterpreter (.changeHeap (Heap.grows_declare _ _ name value))

theorem Keeps.bindParams (frame : FrameId) (params : List String) (args : List Value) :
    Keeps S P m (Run.bindParams frame params args) := .changeHeap (Heap.grows_declareAll _ frame _)

theorem changeHeap_eq (f : Heap → α × Heap) :
    changeHeap f = fun m => .ok (f m.heap).1 { m with heap := (f m.heap).2 } := rfl

theorem withScope_eq (scope : FrameId) (act : Run α) (m : Machine) : withScope scope act m =
    match act (m.inFrame scope) with
    | .ok a m' => .ok a (m'.inFrame m.interpreter.scope)
    | .error e m' => .error e (m'.inFrame m.interpreter.scope) := rfl

theorem Keeps.withScope {scope : FrameId} {act : Run α} (inside : Keeps S P (m.inFrame scope) act) :
    Keeps S P m (Run.withScope scope act) := by
  obtain ⟨later, reason⟩ := inside
  have back (m₁ : Machine) (later : (m.inFrame scope).Later S m₁) : m.Later S (m₁.inFrame m.interpreter.scope) :=
    ⟨later.grows, congrArg (fun i : Interpreter => { i with scope := m.interpreter.scope }) later.interpreter⟩
  cases run : act (m.inFrame scope) with
  | ok a m₁ =>
    rw [Machine.after_of_ok run] at later
    have same : Run.withScope scope act m = .ok a (m₁.inFrame m.interpreter.scope) := by rw [withScope_eq, run]
    exact .of_ok same (back m₁ later)
  | error e m₁ =>
    rw [Machine.after_of_error run] at later
    have same : Run.withScope scope act m = .error e (m₁.inFrame m.interpreter.scope) := by rw [withScope_eq, run]
    exact .of_error same (back m₁ later) (reason ⟨m₁, run⟩)

theorem withInterpreter_eq (other : Interpreter) (act : Run Unit) (m : Machine) : withInterpreter other act m =
    match act { m with interpreter := other } with
    | .ok () m' => .ok m'.interpreter.exports { m' with interpreter := m.interpreter }
    | .error e m' => .error e { m' with interpreter := m.interpreter } := rfl

theorem Keeps.withInterpreter {other : Interpreter} {act : Run Unit}
    (inside : Keeps S P { m with interpreter := other } act) : Keeps S P m (Run.withInterpreter other act) := by
  obtain ⟨later, reason⟩ := inside
  cases run : act { m with interpreter := other } with
  | ok u m₁ =>
    rw [Machine.after_of_ok run] at later
    have same : Run.withInterpreter other act m =
        .ok m₁.interpreter.exports { m₁ with interpreter := m.interpreter } := by rw [withInterpreter_eq, run]
    exact .of_ok same ⟨later.grows, rfl⟩
  | error e m₁ =>
    rw [Machine.after_of_error run] at later
    have same : Run.withInterpreter other act m = .error e { m₁ with interpreter := m.interpreter } := by
      rw [withInterpreter_eq, run]
    exact .of_error same ⟨later.grows, rfl⟩ (reason ⟨m₁, run⟩)

theorem keeps_getProperty (target : Value) (name : String) : Keeps S P m (getProperty target name) := by
  unfold getProperty
  split
  · next id =>
    refine .bindRead ?_
    split
    · next methodId _ =>
      refine .bindRead ?_
      split
      · next method found =>
        refine .bindExcept (Method.plain_bind _ _) fun callable bound => ?_
        obtain rfl := Method.bind_ok bound
        exact .bindChange (Heap.grows_newBound _ (.inl ⟨methodId, found⟩) _) (.pure _)
      · exact .pure _
    · exact .pure _
  · next id =>
    split
    · next method _ =>
      refine .bindExcept (Method.plain_bind _ _) fun callable bound => ?_
      exact .bindChange (Heap.grows_newNative _ (.inr ⟨method, .list id, Method.bind_ok bound⟩)) (.pure _)
    · exact .pure _
  · exact .fault _ nofun

theorem keeps_setProperty (target : Value) (name : String) (value : Value) :
    Keeps S P m (setProperty target name value) := by
  unfold setProperty
  split
  · exact .bindChange (Heap.SameCode.grows ⟨rfl, rfl, rfl⟩) (.pure _)
  · exact .fault _ nofun
  · exact .fault _ nofun

theorem asCallable_eq (value : Value) (m : Machine) :
    (∃ id callable, value = .callable id ∧ m.heap.callable? id = some callable ∧
      asCallable value m = .ok callable m) ∨
      ∃ shown, asCallable value m = .error (.fault (.notCallable shown)) m := by
  cases value with
  | callable id =>
    simp only [asCallable, Run.readHeap, Bind.bind, EStateM.bind]
    cases found : m.heap.callable? id with
    | none => exact .inr ⟨_, rfl⟩
    | some callable => exact .inl ⟨id, callable, rfl, found, rfl⟩
  | _ => exact .inr ⟨_, rfl⟩

theorem keeps_asCallable (value : Value) : Keeps S P m (asCallable value) := by
  rcases asCallable_eq value m with ⟨id, callable, -, -, run⟩ | ⟨f, run⟩
  · exact .of_ok run (.refl m)
  · exact .of_error run (.refl m) (.inl nofun)

theorem keeps_callBuiltin (builtin : Builtin) (argument : Value) : Keeps S P m (callBuiltin builtin argument) := by
  cases builtin with
  | print => exact .bind (.text _) fun _ _ _ _ => .bind (.print _) fun _ _ _ _ => .pure _
  | println => exact .bind (.text _) fun _ _ _ _ => .bind (.print _) fun _ _ _ _ => .pure _
  | clone =>
    change Keeps S P m (Run.changeHeap fun heap => heap.deepCopy argument)
    exact .changeData (Heap.sameCode_deepCopy m.heap argument)
  | panic => exact .bind (.text _) fun _ _ _ _ => .fault _ nofun
  | assert =>
    unfold callBuiltin
    dsimp only
    split
    · exact .pure _
    · exact .fault _ nofun

theorem keeps_callListMethod (method : ListMethod) (receiver argument : Value) :
    Keeps S P m (callListMethod method receiver argument) := by
  unfold callListMethod
  split
  · split
    · exact .bindChange (Heap.SameCode.grows ⟨rfl, rfl, rfl⟩) (.pure _)
    · exact .bindRead (.pure _)
    · refine .bindRead ?_
      split <;> exact .pure _
    · exact .bindRead (.pure _)
    · split
      · refine .bindRead ?_
        dsimp only
        split
        · exact .changeData ⟨rfl, rfl, rfl⟩
        · exact .fault _ nofun
      · exact .fault _ nofun
  · exact .fault _ nofun

theorem keeps_callDecoder (world : World) (id : DecoderId) : Keeps S P m (callDecoder world id) := by
  unfold callDecoder
  refine .bindRead ?_
  split
  · exact .pure _
  · split
    · exact .pure _
    · split
      · exact .changeData ⟨rfl, rfl, rfl⟩
      · split
        · exact .fault _ nofun
        · next document _ =>
          exact .changeData ((Heap.sameCode_ofDocument _ document).trans ⟨rfl, rfl, rfl⟩)

theorem keeps_asList (value : Value) : Keeps S P m (asList value) := by
  cases value with
  | list id => exact .of_ok rfl (.refl m)
  | _ => exact .fault _ nofun

theorem keeps_position (list : ListId) (index : Value) : Keeps S P m (position list index) := by
  unfold position
  split
  · refine .bindRead ?_
    dsimp only
    split
    · exact .pure _
    · exact .fault _ nofun
  · exact .fault _ nofun

theorem asList_ok {value : Value} {list : ListId} {m₁ : Machine} (h : asList value m = .ok list m₁) :
    value = .list list ∧ m₁ = m := by
  cases value with
  | list id =>
    cases h
    exact ⟨rfl, rfl⟩
  | _ => cases h

theorem asCallable_ok {value : Value} {callable : Callable} {m₁ : Machine}
    (h : asCallable value m = .ok callable m₁) :
    ∃ id, value = .callable id ∧ m.heap.callable? id = some callable ∧ m₁ = m := by
  rcases asCallable_eq value m with ⟨id, other, isId, found, run⟩ | ⟨f, run⟩
  · rw [run] at h
    cases h
    exact ⟨id, isId, found, rfl⟩
  · rw [run] at h
    cases h

theorem ofExcept_ok {result : Except Fault α} {a : α} (h : ofExcept result m = .ok a m₁) :
    result = .ok a ∧ m₁ = m := by
  cases result with
  | ok b =>
    cases h
    exact ⟨rfl, rfl⟩
  | error f => cases h

theorem withScope_ok {scope : FrameId} {act : Run α} {a : α} {m₁ : Machine}
    (h : withScope scope act m = .ok a m₁) :
    ∃ m₂, act (m.inFrame scope) = .ok a m₂ ∧ m₁ = m₂.inFrame m.interpreter.scope := by
  rw [withScope_eq] at h
  cases run : act (m.inFrame scope) with
  | ok b m₂ =>
    rw [run] at h
    cases h
    exact ⟨m₂, rfl, rfl⟩
  | error e m₂ =>
    rw [run] at h
    cases h

end Run

end HookScript
