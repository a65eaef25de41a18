import HookScript.Proofs.Run.Later
import Mathlib.Logic.Relation

/-!
What a run does to the heap, and how it fails. A deed is what a task does to the heap by itself, apart from the tasks
that it calls on; it comes with what has gone before in the task. All that happens to the heap in a run is a course of
deeds of its tasks.
-/

namespace HookScript

def Fault.AboutReceiver : Fault → Prop
  | methodReceiver _ | listReceiver _ => True
  | _ => False

theorem Fault.OfOperands.not_aboutReceiver {f : Fault} (operands : f.OfOperands) : ¬f.AboutReceiver := by
  cases f with
  | methodReceiver | listReceiver => cases operands
  | _ => exact id

namespace Run

inductive Deed (world : World) : Nat → Task → Machine → Heap → Heap → Prop
  | assign {n name level value v frame m m₁} (hv : evaluate world n value m = .ok v m₁)
    (found : m₁.heap.assignee? m₁.interpreter.scope level name = some frame) :
    Deed world (n + 1) (.evaluate (.assign name level value)) m m₁.heap (m₁.heap.declare frame name v)
  | setItem {n target index value v list i k m m₁ m₂ m₃} (hv : evaluate world n value m = .ok v m₁)
    (ht : evaluate world n target m₁ = .ok (.list list) m₂) (hi : evaluate world n index m₂ = .ok i m₃)
    (hk : position list i m₃ = .ok k m₃) :
    Deed world (n + 1) (.evaluate (.setItem target index value)) m m₃.heap (m₃.heap.setItem list k v)
  | readMethod {n target name id methodId method m m₁} (ht : evaluate world n target m = .ok (.object id) m₁)
    (holds : m₁.heap.property id name = .method methodId) (found : m₁.heap.method? methodId = some method) :
    Deed world (n + 1) (.evaluate (.property target name)) m m₁.heap
      (m₁.heap.newCallable (.bound method (.object id))).2
  | readListMethod {n target name id method m m₁} (ht : evaluate world n target m = .ok (.list id) m₁)
    (known : ListMethod.ofName? name = some method) :
    Deed world (n + 1) (.evaluate (.property target name)) m m₁.heap
      (m₁.heap.newCallable (.bound (.list method) (.list id))).2
  | setProperty {n target name value v id m m₁ m₂} (hv : evaluate world n value m = .ok v m₁)
    (ht : evaluate world n target m₁ = .ok (.object id) m₂) :
    Deed world (n + 1) (.evaluate (.setProperty target name value)) m m₂.heap (m₂.heap.putProperty id name v)
  | list {n items values m m₁} (hi : evaluateAll world n items m = .ok values m₁) :
    Deed world (n + 1) (.evaluate (.list items)) m m₁.heap (m₁.heap.newList values.toArray).2
  | object {n properties values m m₁} (hp : evaluateAll world n (properties.map (·.2)) m = .ok values m₁) :
    Deed world (n + 1) (.evaluate (.object properties)) m m₁.heap
      (m₁.heap.newObject (.ofList ((properties.map (·.1)).zip values))).2
  | method {n params body m} :
    Deed world (n + 1) (.evaluate (.method params body)) m m.heap
      (m.heap.newMethod (.script params body m.interpreter.globals)).2
  | callFunction {n name params body closure args m} :
    Deed world (n + 1) (.call (.function name params body closure) args) m m.heap
      (m.heap.frameWith closure (params.zip args)).2
  | callMethod {n params body globals receiver args around heap₁ m}
    (outer : m.heap.frameWith globals [("this", receiver)] = (around, heap₁)) :
    Deed world (n + 1) (.call (.bound (.script params body globals) receiver) args) m m.heap
      (heap₁.frameWith around (params.zip args)).2
  | callListMethod {n method list args m} :
    Deed world (n + 1) (.call (.bound (.list method) (.list list)) args) m m.heap
      (m.after (callListMethod method (.list list) (args.headD .nil))).heap
  | callDecoder {n format id receiver args m} :
    Deed world (n + 1) (.call (.bound (.decoder format id) receiver) args) m m.heap
      (m.after (callDecoder world id)).heap
  | clone {n args m} :
    Deed world (n + 1) (.call (.builtin .clone) args) m m.heap (m.heap.deepCopy (args.headD .nil)).2
  | declare {n name m} :
    Deed world (n + 1) (.execute (.declare name none)) m m.heap (m.heap.declare m.interpreter.scope name .nil)
  | declareAs {n name initial v m m₁} (hv : evaluate world n initial m = .ok v m₁) :
    Deed world (n + 1) (.execute (.declare name (some initial))) m m₁.heap
      (m₁.heap.declare m₁.interpreter.scope name v)
  | function {n name params body m} :
    Deed world (n + 1) (.execute (.function name params body)) m m.heap
      (m.heap.withFunction m.interpreter.scope name params body)
  | block {n body m} : Deed world (n + 1) (.execute (.block body)) m m.heap m.opened.heap
  | round {n condition body v m m₁} (hc : evaluate world n condition m = .ok v m₁) (truthy : v.isTruthy = true) :
    Deed world (n + 1) (.loop condition body) m m₁.heap m₁.opened.heap
  | begin {n path place text program m} (found : world.resolveFrom m.interpreter.directory path = .ok place)
    (fresh : place ∉ m.interpreter.imports) (read : world.readText place = .ok text)
    (accepted : Program.ofText text = .ok program) :
    Deed world (n + 1) (.importFile (.string path)) m m.heap (m.importing place).heap
  | bindExports {n path place text program m m₁} (found : world.resolveFrom m.interpreter.directory path = .ok place)
    (fresh : place ∉ m.interpreter.imports) (read : world.readText place = .ok text)
    (accepted : Program.ofText text = .ok program)
    (ran : executeProgram world n program (m.importing place) = .ok () m₁) :
    Deed world (n + 1) (.importFile (.string path)) m m₁.heap
      (m₁.heap.declareAll m.interpreter.scope m₁.interpreter.exports.entries)

/-- The second heap is what the first one becomes by deeds of the given tasks. -/
def Course (world : World) (comes : Nat → Task → Machine → Prop) : Heap → Heap → Prop :=
  Relation.ReflTransGen fun heap heap' => ∃ n t m, comes n t m ∧ Deed world n t m heap heap'

/-- One of the tasks calls a method of lists on something else. -/
def Misuses (comes : Nat → Task → Machine → Prop) : Prop :=
  ∃ n method receiver args m, comes n (.call (.bound (.list method) receiver) args) m ∧ ∀ list, receiver ≠ .list list

structure Does {α : Type} (world : World) (comes : Nat → Task → Machine → Prop) (m : Machine) (act : Run α) :
    Prop where
  course : Course world comes m.heap (m.after act).heap
  blame {f : Fault} (fails : Fails act m (.fault f)) (about : f.AboutReceiver) : Misuses comes

variable {α β : Type} {world : World} {comes : Nat → Task → Machine → Prop} {n : Nat} {m m₁ : Machine}

theorem Course.trans {heap heap₁ heap₂ : Heap} (first : Course world comes heap heap₁)
    (second : Course world comes heap₁ heap₂) : Course world comes heap heap₂ :=
  Relation.ReflTransGen.trans first second

theorem Course.deed {t : Task} {heap heap' : Heap} (came : comes n t m) (deed : Deed world n t m heap heap') :
    Course world comes heap heap' := .single ⟨n, t, m, came, deed⟩

theorem withInterpreter_ok {other : Interpreter} {act : Run Unit} {exports : Table Value}
    (h : withInterpreter other act m = .ok exports m₁) : ∃ m₂, act { m with interpreter := other } = .ok () m₂ ∧
      exports = m₂.interpreter.exports ∧ m₁ = { m₂ with interpreter := m.interpreter } := by
  rw [withInterpreter_eq] at h
  cases ran : act { m with interpreter := other } with
  | ok u m₂ =>
    rw [ran] at h
    cases h
    exact ⟨m₂, rfl, rfl, rfl⟩
  | error e m₂ =>
    rw [ran] at h
    cases h

namespace Does

theorem of_ok {act : Run α} {a : α} (ran : act m = .ok a m₁) (course : Course world comes m.heap m₁.heap) :
    Does world comes m act where
  course := by rwa [Machine.after_of_ok ran]
  blame fails := by
    obtain ⟨m', failed⟩ := fails
    rw [ran] at failed
    cases failed

theorem of_error {act : Run α} {e : Stop} (ran : act m = .error e m₁) (course : Course world comes m.heap m₁.heap)
    (blame : ∀ f, e = .fault f → f.AboutReceiver → Misuses comes) : Does world comes m act where
  course := by rwa [Machine.after_of_error ran]
  blame fails := by
    obtain ⟨m', failed⟩ := fails
    rw [ran] at failed
    cases failed
    exact blame _ rfl

theorem pure (a : α) : Does world comes m (Pure.pure a) := of_ok rfl .refl

theorem fault (f : Fault) (harmless : ¬f.AboutReceiver) : Does world comes m (Run.fault f : Run α) :=
  of_error rfl .refl fun _ same about => by
    cases same
    exact (harmless about).elim

theorem ofExcept {result : Except Fault α} (operands : ByOperands result) :
    Does world comes m (Run.ofExcept result) := by
  cases result with
  | ok a => exact .pure a
  | error f => exact .fault f operands.not_aboutReceiver

theorem bind {act : Run α} {rest : α → Run β} (first : Does world comes m act)
    (second : ∀ a m₁, act m = .ok a m₁ → Does world comes m₁ (rest a)) : Does world comes m (act >>= rest) := by
  obtain ⟨course, blame⟩ := first
  cases ran : act m with
  | ok a m₁ =>
    rw [Machine.after_of_ok ran] at course
    obtain ⟨course', blame'⟩ := second a m₁ ran
    have same : (act >>= rest) m = rest a m₁ := by simp only [Bind.bind, EStateM.bind, ran]
    have after : m.after (act >>= rest) = m₁.after (rest a) := by rw [Machine.after, same, Machine.after]
    refine ⟨after ▸ course.trans course', fun fails => blame' ?_⟩
    rwa [Fails, same] at fails
  | error e m₁ =>
    rw [Machine.after_of_error ran] at course
    have same : (act >>= rest) m = .error e m₁ := by simp only [Bind.bind, EStateM.bind, ran]
    exact of_error same course fun f isFault about => blame ⟨m₁, isFault ▸ ran⟩ about

theorem bindRead {f : Heap → α} {rest : α → Run β} (second : Does world comes m (rest (f m.heap))) :
    Does world comes m (Run.readHeap f >>= rest) := ⟨second.course, second.blame⟩

theorem bindInterpreter {rest : Interpreter → Run β} (second : Does world comes m (rest m.interpreter)) :
    Does world comes m (Run.interpreter >>= rest) := ⟨second.course, second.blame⟩

theorem bindExcept {result : Except Fault α} {rest : α → Run β} (operands : ByOperands result)
    (second : ∀ a, result = .ok a → Does world comes m (rest a)) :
    Does world comes m (Run.ofExcept result >>= rest) := by
  cases result with
  | ok a => exact second a rfl
  | error f => exact .fault f operands.not_aboutReceiver

theorem changeHeap {f : Heap → α × Heap} (course : Course world comes m.heap (f m.heap).2) :
    Does world comes m (Run.changeHeap f) := of_ok rfl course

theorem bindChange {f : Heap → α × Heap} {rest : α → Run β} (course : Course world comes m.heap (f m.heap).2)
    (second : Does world comes { m with heap := (f m.heap).2 } (rest (f m.heap).1)) :
    Does world comes m (Run.changeHeap f >>= rest) := by
  refine .bind (.changeHeap course) fun a m₁ changed => ?_
  cases changed
  exact second

theorem withScope {scope : FrameId} {act : Run α} (inside : Does world comes (m.inFrame scope) act) :
    Does world comes m (Run.withScope scope act) := by
  obtain ⟨course, blame⟩ := inside
  cases ran : act (m.inFrame scope) with
  | ok a m₁ =>
    rw [Machine.after_of_ok ran] at course
    have same : Run.withScope scope act m = .ok a (m₁.inFrame m.interpreter.scope) := by rw [withScope_eq, ran]
    exact of_ok same course
  | error e m₁ =>
    rw [Machine.after_of_error ran] at course
    have same : Run.withScope scope act m = .error e (m₁.inFrame m.interpreter.scope) := by rw [withScope_eq, ran]
    exact of_error same course fun f isFault about => blame ⟨m₁, isFault ▸ ran⟩ about

theorem withInterpreter {other : Interpreter} {act : Run Unit}
    (inside : Does world comes { m with interpreter := other } act) :
    Does world comes m (Run.withInterpreter other act) := by
  obtain ⟨course, blame⟩ := inside
  cases ran : act { m with interpreter := other } with
  | ok u m₁ =>
    rw [Machine.after_of_ok ran] at course
    have same : Run.withInterpreter other act m =
        .ok m₁.interpreter.exports { m₁ with interpreter := m.interpreter } := by rw [withInterpreter_eq, ran]
    exact of_ok same course
  | error e m₁ =>
    rw [Machine.after_of_error ran] at course
    have same : Run.withInterpreter other act m = .error e { m₁ with interpreter := m.interpreter } := by
      rw [withInterpreter_eq, ran]
    exact of_error same course fun f isFault about => blame ⟨m₁, isFault ▸ ran⟩ about

end Does

theorem does_asCallable (value : Value) : Does world comes m (asCallable value) := by
  rcases asCallable_eq value m with ⟨id, callable, -, -, ran⟩ | ⟨shown, ran⟩
  · exact .of_ok ran .refl
  · exact .of_error ran .refl (by rintro _ ⟨⟩ ⟨⟩)

theorem does_asList (value : Value) : Does world comes m (asList value) := by
  cases value with
  | list id => exact .of_ok rfl .refl
  | _ => exact .fault _ id

theorem does_position (list : ListId) (index : Value) : Does world comes m (position list index) := by
  unfold position
  split
  · refine .bindRead ?_
    dsimp only
    split
    · exact .pure _
    · exact .fault _ id
  · exact .fault _ id

theorem position_ok {list : ListId} {index : Value} {k : Nat} (ran : position list index m = .ok k m₁) : m₁ = m := by
  cases index with
  | number x =>
    simp only [position, Bind.bind, EStateM.bind, readHeap] at ran
    cases found : (Value.position? x).filter (· < (m.heap.items list).size) with
    | some i =>
      rw [found] at ran
      cases ran
      rfl
    | none =>
      rw [found] at ran
      cases ran
  | _ => cases ran

section

variable {v : Value} {target : Expr} {name : String}

theorem does_getProperty (came : comes (n + 1) (.evaluate (.property target name)) m)
    (ht : evaluate world n target m = .ok v m₁) : Does world comes m₁ (getProperty v name) := by
  unfold getProperty
  split
  · next id =>
    refine .bindRead ?_
    split
    · next methodId holds =>
      refine .bindRead ?_
      split
      · next method found =>
        have binds : method.bind (.object id) = .ok (.bound method (.object id)) := by cases method <;> rfl
        rw [binds]
        refine .bindExcept trivial fun callable same => ?_
        cases same
        exact .bindChange (.deed came (.readMethod ht holds found)) (.pure _)
      · exact .pure _
    · exact .pure _
  · split
    · next method known =>
      refine .bindExcept trivial fun callable same => ?_
      cases same
      exact .bindChange (.deed came (.readListMethod ht known)) (.pure _)
    · exact .pure _
  · exact .fault _ id

theorem does_setProperty {value : Expr} {w : Value} {m₂ : Machine}
    (came : comes (n + 1) (.evaluate (.setProperty target name value)) m) (hv : evaluate world n value m = .ok v m₁)
    (ht : evaluate world n target m₁ = .ok w m₂) : Does world comes m₂ (setProperty w name v) := by
  unfold setProperty
  split
  · exact .bindChange (.deed came (.setProperty hv ht)) (.pure _)
  · exact .fault _ id
  · exact .fault _ id

end

section

variable {args : List Value}

theorem does_callListMethod {method : ListMethod} {receiver : Value}
    (came : comes (n + 1) (.call (.bound (.list method) receiver) args) m) :
    Does world comes m (callListMethod method receiver (args.headD .nil)) := by
  cases receiver with
  | list id =>
    refine ⟨.deed came .callListMethod, fun fails about => ?_⟩
    obtain ⟨m', failed⟩ := fails
    cases method with
    | remove =>
      unfold callListMethod at failed
      cases argument : args.headD .nil with
      | number x =>
        simp only [argument, Bind.bind, EStateM.bind, readHeap] at failed
        cases found : (Value.position? x).filter (· < (m.heap.items id).size) with
        | some i =>
          rw [found] at failed
          cases failed
        | none =>
          rw [found] at failed
          cases failed
          cases about
      | _ =>
        simp only [argument] at failed
        cases failed
        cases about
    | find =>
      simp only [callListMethod, Bind.bind, EStateM.bind, readHeap] at failed
      cases found : findItem (m.heap.items id) (args.headD .nil) <;> (rw [found] at failed; cases failed)
    | _ => cases failed
  | _ => exact .of_error rfl .refl fun _ _ _ => ⟨_, _, _, _, _, came, by rintro list ⟨⟩⟩

theorem callDecoder_eq (id : DecoderId) (m : Machine) :
    (∃ value heap, m.heap.SameCode heap ∧ callDecoder world id m = .ok value { m with heap }) ∨
      ∃ error, callDecoder world id m = .error (.fault (.decoding error)) m := by
  simp only [callDecoder, Bind.bind, EStateM.bind, readHeap]
  cases m.heap.decoder? id with
  | none => exact .inl ⟨.nil, m.heap, .refl _, rfl⟩
  | some decoder =>
    cases decoded : decoder.decoded with
    | some value => exact .inl ⟨value, m.heap, .refl _, by simp only [decoded]; rfl⟩
    | none =>
      by_cases empty : decoder.body = []
      · exact .inl ⟨.nil, m.heap.remember id .nil, ⟨rfl, rfl, rfl⟩, by simp only [decoded, if_pos empty]; rfl⟩
      · cases read : world.decode decoder.format decoder.body with
        | error error => exact .inr ⟨error, by simp only [decoded, if_neg empty, read]; rfl⟩
        | ok document =>
          have made : m.heap.SameCode ((m.heap.ofDocument document).2.remember id (m.heap.ofDocument document).1) :=
            (Heap.sameCode_ofDocument m.heap document).trans ⟨rfl, rfl, rfl⟩
          exact .inl ⟨_, _, made, by simp only [decoded, if_neg empty, read]; rfl⟩

theorem does_callDecoder {format : BodyFormat} {id : DecoderId} {receiver : Value}
    (came : comes (n + 1) (.call (.bound (.decoder format id) receiver) args) m) :
    Does world comes m (callDecoder world id) := by
  rcases callDecoder_eq id m with ⟨value, heap, -, ran⟩ | ⟨error, ran⟩
  · exact ⟨.deed came .callDecoder, fun ⟨m', failed⟩ => by rw [ran] at failed; cases failed⟩
  · exact .of_error ran .refl (by rintro _ ⟨⟩ ⟨⟩)

theorem does_callBuiltin {builtin : Builtin} (came : comes (n + 1) (.call (.builtin builtin) args) m) :
    Does world comes m (callBuiltin builtin (args.headD .nil)) := by
  cases builtin with
  | print | println => exact .of_ok rfl .refl
  | clone =>
    change Does world comes m (Run.changeHeap (·.deepCopy (args.headD .nil)))
    exact .changeHeap (.deed came .clone)
  | panic => exact .bindRead (.fault _ id)
  | assert =>
    unfold callBuiltin
    dsimp only
    split
    · exact .pure _
    · exact .fault _ id

end

end Run

end HookScript
