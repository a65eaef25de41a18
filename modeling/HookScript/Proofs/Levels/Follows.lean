import HookScript.Proofs.Levels.Code
import HookScript.Proofs.Run.Later

/-!
Runs that follow each other. Two runs on machines with alike code take the same steps if they end in the same way and
leave such machines again. The operations that run no body do so.
-/

namespace HookScript

structure Machine.Alike (m m' : Machine) : Prop where
  out : m'.out = m.out
  interpreter : m'.interpreter = m.interpreter
  heap : m.heap.Alike m'.heap

theorem Machine.Alike.refl (m : Machine) : m.Alike m := ⟨rfl, rfl, Heap.alike_refl _⟩

theorem Machine.Alike.inFrame {m m' : Machine} (alike : m.Alike m') (scope : FrameId) :
    (m.inFrame scope).Alike (m'.inFrame scope) :=
  ⟨alike.out, congrArg (fun i : Interpreter => { i with scope }) alike.interpreter, alike.heap⟩

namespace Heap.Alike

variable {heap heap' : Heap}

theorem declare (alike : heap.Alike heap') (frame : FrameId) (name : String) (value : Value) :
    (heap.declare frame name value).Alike (heap'.declare frame name value) := by
  have blind : Blind fun heap => ((), heap.declare frame name value) := fun _ _ _ => rfl
  exact (blind.alike alike).2

theorem declareAll (alike : heap.Alike heap') (frame : FrameId) (entries : List (String × Value)) :
    (heap.declareAll frame entries).Alike (heap'.declareAll frame entries) := by
  induction entries generalizing heap heap' with
  | nil => exact alike
  | cons entry rest ih => exact ih (alike.declare frame entry.1 entry.2)

theorem newFrame (alike : heap.Alike heap') (parent : Option FrameId) :
    (heap'.newFrame parent).1 = (heap.newFrame parent).1 ∧ (heap.newFrame parent).2.Alike (heap'.newFrame parent).2 := by
  have blind : Blind (·.newFrame parent) := fun _ _ _ => rfl
  exact blind.alike alike

theorem frameWith (alike : heap.Alike heap') (parent : FrameId) (entries : List (String × Value)) :
    (heap'.frameWith parent entries).1 = (heap.frameWith parent entries).1 ∧
      (heap.frameWith parent entries).2.Alike (heap'.frameWith parent entries).2 := by
  obtain ⟨same, opened⟩ := alike.newFrame (some parent)
  refine ⟨same, ?_⟩
  simp only [Heap.frameWith, same]
  exact opened.declareAll _ entries

theorem declareBuiltins (alike : heap.Alike heap') (frame : FrameId) (builtins : List Builtin) :
    (Interpreter.declareBuiltins frame builtins heap).Alike (Interpreter.declareBuiltins frame builtins heap') := by
  induction builtins generalizing heap heap' with
  | nil => exact alike
  | cons b rest ih =>
    obtain ⟨same, made⟩ := alike.newCallable (Callable.alike_refl (.builtin b))
    simp only [Interpreter.declareBuiltins, same]
    exact ih (made.declare _ _ _)

theorem start (alike : heap.Alike heap') (directory : Option Path) (imports : List Path) :
    (Interpreter.start heap' directory imports).1 = (Interpreter.start heap directory imports).1 ∧
      (Interpreter.start heap directory imports).2.Alike (Interpreter.start heap' directory imports).2 := by
  obtain ⟨outermost, opened⟩ := alike.newFrame none
  have declared := opened.declareBuiltins (heap.newFrame none).1 Builtin.all
  obtain ⟨global, whole⟩ := declared.newFrame (some (heap.newFrame none).1)
  simp only [Interpreter.start, outermost, global]
  exact ⟨trivial, whole⟩

end Heap.Alike

namespace Run

variable {α α' β β' : Type} {R : α → α' → Prop} {S : β → β' → Prop} {m m' : Machine}

inductive Follows {ε : Type} (R : α → α' → Prop) : EStateM.Result ε Machine α → EStateM.Result ε Machine α' → Prop
  | ok {a a' m m'} : R a a' → m.Alike m' → Follows R (.ok a m) (.ok a' m')
  | error {e m m'} : m.Alike m' → Follows R (.error e m) (.error e m')

namespace Follows

theorem bindRelated {act : Run α} {act' : Run α'} {next : α → Run β} {next' : α' → Run β'}
    (first : Follows R (act m) (act' m'))
    (onward : ∀ a a' m₁ m₁', act m = .ok a m₁ → R a a' → m₁.Alike m₁' → Follows S (next a m₁) (next' a' m₁')) :
    Follows S ((act >>= next) m) ((act' >>= next') m') := by
  simp only [Bind.bind, EStateM.bind]
  generalize ran : act m = result, act' m' = result' at first ⊢
  cases first with
  | ok related alike => exact onward _ _ _ _ ran related alike
  | error alike => exact .error alike

theorem bind {act act' : Run α} {next : α → Run β} {next' : α → Run β'} (first : Follows Eq (act m) (act' m'))
    (onward : ∀ a m₁ m₁', act m = .ok a m₁ → m₁.Alike m₁' → Follows S (next a m₁) (next' a m₁')) :
    Follows S ((act >>= next) m) ((act' >>= next') m') :=
  first.bindRelated fun a _ m₁ m₁' ran same alike => same ▸ onward a m₁ m₁' ran alike

variable (alike : m.Alike m')
include alike

theorem pure (a : α) : Follows Eq ((Pure.pure a : Run α) m) ((Pure.pure a : Run α) m') := .ok rfl alike

theorem fault (f : Fault) : Follows R ((Run.fault f : Run α) m) ((Run.fault f : Run α') m') := .error alike

theorem ofExcept (result : Except Fault α) : Follows Eq (Run.ofExcept result m) (Run.ofExcept result m') := by
  cases result with
  | ok a => exact .pure alike a
  | error f => exact .fault alike f

theorem bindInterpreter {next : Interpreter → Run β} {next' : Interpreter → Run β'}
    (onward : Follows S (next m.interpreter m) (next' m.interpreter m')) :
    Follows S ((interpreter >>= next) m) ((interpreter >>= next') m') := by
  change Follows S (next m.interpreter m) (next' m'.interpreter m')
  rwa [alike.interpreter]

omit alike in
theorem bindRead {f f' : Heap → α} {next : α → Run β} {next' : α → Run β'} (same : f' m'.heap = f m.heap)
    (onward : Follows S (next (f m.heap) m) (next' (f m.heap) m')) :
    Follows S ((readHeap f >>= next) m) ((readHeap f' >>= next') m') := by
  change Follows S (next (f m.heap) m) (next' (f' m'.heap) m')
  rwa [same]

omit alike in
theorem bindReadRelated {f : Heap → α} {next : α → Run β} {next' : α → Run β'} {Q : α → α → Prop}
    (related : Q (f m.heap) (f m'.heap)) (onward : ∀ a a', Q a a' → Follows S (next a m) (next' a' m')) :
    Follows S ((Run.readHeap f >>= next) m) ((Run.readHeap f >>= next') m') := onward _ _ related

theorem readHeap {f f' : Heap → α} (same : f' m'.heap = f m.heap) :
    Follows Eq (Run.readHeap f m) (Run.readHeap f' m') := .ok same.symm alike

theorem changeHeap {f : Heap → α × Heap} {f' : Heap → α' × Heap} (related : R (f m.heap).1 (f' m'.heap).1)
    (changed : (f m.heap).2.Alike (f' m'.heap).2) : Follows R (Run.changeHeap f m) (Run.changeHeap f' m') :=
  .ok related ⟨alike.out, alike.interpreter, changed⟩

theorem changeData {f : Heap → α × Heap} (blind : Heap.Blind f) :
    Follows Eq (Run.changeHeap f m) (Run.changeHeap f m') :=
  have ⟨same, changed⟩ := blind.alike alike.heap
  .changeHeap alike same.symm changed

theorem withScope {act : Run α} {act' : Run α'} (scope : FrameId)
    (inside : Follows R (act (m.inFrame scope)) (act' (m'.inFrame scope))) :
    Follows R (Run.withScope scope act m) (Run.withScope scope act' m') := by
  rw [withScope_eq, withScope_eq, alike.interpreter]
  generalize act (m.inFrame scope) = result, act' (m'.inFrame scope) = result' at inside ⊢
  cases inside with
  | ok related alike => exact .ok related (alike.inFrame _)
  | error alike => exact .error (alike.inFrame _)

theorem withInterpreter {act act' : Run Unit} (other : Interpreter)
    (inside : Follows Eq (act { m with interpreter := other }) (act' { m' with interpreter := other })) :
    Follows Eq (Run.withInterpreter other act m) (Run.withInterpreter other act' m') := by
  rw [withInterpreter_eq, withInterpreter_eq, alike.interpreter]
  generalize act { m with interpreter := other } = result, act' { m' with interpreter := other } = result' at inside ⊢
  cases inside with
  | ok _ alike => exact .ok (congrArg Interpreter.exports alike.interpreter.symm) ⟨alike.out, rfl, alike.heap⟩
  | error alike => exact .error ⟨alike.out, rfl, alike.heap⟩

theorem text (value : Value) : Follows Eq (Run.text value m) (Run.text value m') :=
  .readHeap alike (alike.heap.text_eq value)

theorem faultText (value : Value) (f : String → Fault) :
    Follows R ((Run.text value >>= fun shown => (Run.fault (f shown) : Run α)) m)
      ((Run.text value >>= fun shown => (Run.fault (f shown) : Run α')) m') :=
  .bind (.text alike value) fun _ _ _ _ alike => .fault alike _

theorem print (shown : String) : Follows Eq (Run.print shown m) (Run.print shown m') :=
  .ok rfl ⟨congrArg (· ++ shown) alike.out, alike.interpreter, alike.heap⟩

theorem addExport (name : String) (value : Value) :
    Follows Eq (Run.addExport name value m) (Run.addExport name value m') :=
  .ok rfl ⟨alike.out, congrArg (fun i : Interpreter => { i with exports := i.exports.insert name value }) alike.interpreter,
    alike.heap⟩

theorem declare (name : String) (value : Value) : Follows Eq (Run.declare name value m) (Run.declare name value m') := by
  refine .bindInterpreter alike (.changeData alike fun _ _ _ => rfl)

theorem innerFrame : Follows Eq (Run.innerFrame m) (Run.innerFrame m') := by
  refine .bindInterpreter alike (.changeData alike fun _ _ _ => rfl)

theorem frameWith (parent : FrameId) (params : List String) (args : List Value) {next : FrameId → Run β}
    {next' : FrameId → Run β'} (onward : ∀ frame heap m₁', m.heap.frameWith parent (params.zip args) = (frame, heap) →
      Machine.Alike { m with heap } m₁' → Follows S (next frame { m with heap }) (next' frame m₁')) :
    Follows S ((Run.changeHeap (·.newFrame (some parent)) >>= fun frame => bindParams frame params args >>= fun _ =>
        next frame) m)
      ((Run.changeHeap (·.newFrame (some parent)) >>= fun frame => bindParams frame params args >>= fun _ =>
        next' frame) m') := by
  obtain ⟨same, opened⟩ := alike.heap.frameWith parent (params.zip args)
  change Follows S (next (m.heap.frameWith parent (params.zip args)).1
      { m with heap := (m.heap.frameWith parent (params.zip args)).2 })
    (next' (m'.heap.frameWith parent (params.zip args)).1
      { m' with heap := (m'.heap.frameWith parent (params.zip args)).2 })
  rw [same]
  exact onward _ _ _ rfl ⟨alike.out, alike.interpreter, opened⟩

theorem newMethod {method method' : Method} (made : method.Alike method') :
    Follows Eq (Run.changeHeap (·.newMethod method) m) (Run.changeHeap (·.newMethod method') m') :=
  have ⟨same, changed⟩ := alike.heap.newMethod made
  .changeHeap alike same.symm changed

theorem newCallable {callable callable' : Callable} (made : callable.Alike callable') :
    Follows Eq (Run.changeHeap (·.newCallable callable) m) (Run.changeHeap (·.newCallable callable') m') :=
  have ⟨same, changed⟩ := alike.heap.newCallable made
  .changeHeap alike same.symm changed

end Follows

/-! The operations -/

section

variable (alike : m.Alike m')
include alike

theorem follows_bindMethod {method method' : Method} (same : method.Alike method') (receiver : Value) :
    Follows Callable.Alike (Run.ofExcept (method.bind receiver) m) (Run.ofExcept (method'.bind receiver) m') := by
  cases same with
  | script body =>
    cases receiver with
    | object => exact .ok (.bound (.script body)) alike
    | _ => exact .fault alike _
  | list => cases receiver <;> exact .ok (.bound .list) alike
  | decoder => cases receiver <;> exact .ok (.bound .decoder) alike

theorem follows_getProperty (target : Value) (name : String) :
    Follows Eq (getProperty target name m) (getProperty target name m') := by
  have boundTo {method method' : Method} (same : method.Alike method') : Follows Eq
      ((Run.ofExcept (method.bind target) >>= fun callable => changeHeap (·.newCallable callable) >>= fun bound =>
        Pure.pure (Value.callable bound)) m)
      ((Run.ofExcept (method'.bind target) >>= fun callable => changeHeap (·.newCallable callable) >>= fun bound =>
        Pure.pure (Value.callable bound)) m') := by
    refine .bindRelated (follows_bindMethod alike same target) fun callable callable' m₁ m₁' _ made alike => ?_
    exact .bind (.newCallable alike made) fun _ _ _ _ alike => .pure alike _
  cases target with
  | object id =>
    have same : m'.heap.property id name = m.heap.property id name := by
      rw [Heap.property, Heap.property, alike.heap.properties_eq]
    refine .bindRead same ?_
    cases m.heap.property id name with
    | method methodId =>
      refine .bindReadRelated (alike.heap.method? methodId) fun method method' found => ?_
      cases found with
      | none => exact .pure alike _
      | some same => exact boundTo same
    | _ => exact .pure alike _
  | list id =>
    simp only [getProperty]
    cases ListMethod.ofName? name with
    | some method => exact boundTo .list
    | none => exact .pure alike _
  | _ => exact .fault alike _

theorem follows_setProperty (target : Value) (name : String) (value : Value) :
    Follows Eq (setProperty target name value m) (setProperty target name value m') := by
  cases target with
  | object id => exact .bind (.changeData alike fun _ _ _ => rfl) fun _ _ _ _ alike => .pure alike value
  | _ => exact .fault alike _

theorem follows_asCallable (value : Value) : Follows Callable.Alike (asCallable value m) (asCallable value m') := by
  cases value with
  | callable id =>
    refine .bindReadRelated (alike.heap.callable? id) fun callable callable' found => ?_
    cases found with
    | none => exact .faultText alike _ _
    | some same => exact .ok same alike
  | _ => exact .faultText alike _ _

theorem follows_callBuiltin (builtin : Builtin) (argument : Value) :
    Follows Eq (callBuiltin builtin argument m) (callBuiltin builtin argument m') := by
  cases builtin with
  | print | println =>
    refine .bind (.text alike argument) fun shown m₁ m₁' _ alike => ?_
    exact .bind (.print alike _) fun _ _ _ _ alike => .pure alike _
  | clone => exact .changeData alike (Heap.blind_deepCopy argument)
  | panic => exact .faultText alike _ _
  | assert =>
    simp only [callBuiltin]
    split
    · exact .pure alike _
    · exact .fault alike _

theorem follows_callListMethod (method : ListMethod) (receiver argument : Value) :
    Follows Eq (callListMethod method receiver argument m) (callListMethod method receiver argument m') := by
  cases receiver with
  | list id =>
    have same := alike.heap.items_eq id
    cases method with
    | add => exact .bind (.changeData alike fun _ _ _ => rfl) fun _ _ _ _ alike => .pure alike _
    | length => exact .bindRead same (.pure alike _)
    | find =>
      refine .bindRead same ?_
      cases findItem (m.heap.items id) argument <;> exact .pure alike _
    | contains => exact .bindRead same (.pure alike _)
    | remove =>
      cases argument with
      | number x =>
        refine .bindRead same ?_
        cases (Value.position? x).filter (· < (m.heap.items id).size) with
        | some index => exact .changeData alike fun _ _ _ => rfl
        | none => exact .fault alike _
      | _ => exact .fault alike _
  | _ => exact .fault alike _

theorem follows_callDecoder (world : World) (id : DecoderId) :
    Follows Eq (callDecoder world id m) (callDecoder world id m') := by
  have same : m'.heap.decoder? id = m.heap.decoder? id := by rw [Heap.decoder?, Heap.decoder?, alike.heap.decoders]
  refine .bindRead same ?_
  cases m.heap.decoder? id with
  | none => exact .pure alike _
  | some decoder =>
    dsimp only
    cases decoder.decoded with
    | some value => exact .pure alike _
    | none =>
      dsimp only
      split
      · exact .changeData alike fun _ _ _ => rfl
      · cases world.decode decoder.format decoder.body with
        | error error => exact .fault alike _
        | ok document =>
          refine .changeData alike fun heap methods callables => ?_
          have made := Heap.blind_ofDocument document heap methods callables
          simp only [made]
          rfl

theorem follows_asList (value : Value) : Follows Eq (asList value m) (asList value m') := by
  cases value with
  | list id => exact .ok rfl alike
  | _ => exact .fault alike _

theorem follows_position (list : ListId) (index : Value) : Follows Eq (position list index m) (position list index m') := by
  cases index with
  | number x =>
    refine .bindRead (alike.heap.items_eq list) ?_
    cases (Value.position? x).filter (· < (m.heap.items list).size) with
    | some i => exact .pure alike _
    | none => exact .fault alike _
  | _ => exact .fault alike _

end

end Run

end HookScript
