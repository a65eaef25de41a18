import HookScript.Proofs.Isolation.Contents
import HookScript.Proofs.Run.Later

/-!
Runs in lockstep. A run on a machine and a run on the same machine above another one take the same steps: they end
in the same way, what the second leaves is what the first leaves, moved, and the machine below it stays as it is.
-/

namespace HookScript

class Movable (α : Type) where
  above (base : Heap) : α → α
  /-- Every list and object in it is one of the heap. -/
  In (heap : Heap) : α → Prop

namespace Movable

instance : Movable Unit := ⟨fun _ u => u, fun _ _ => True⟩

instance : Movable Nat := ⟨fun _ n => n, fun _ _ => True⟩

instance : Movable FrameId := ⟨FrameId.above, fun _ _ => True⟩

instance : Movable ListId := ⟨ListId.above, fun heap id => (Value.list id).In heap⟩

instance : Movable Value := ⟨Value.above, fun heap value => value.In heap⟩

instance : Movable (Option Value) := ⟨fun base => .map (·.above base), fun heap found => ∀ value ∈ found, value.In heap⟩

instance : Movable (List Value) := ⟨fun base => .map (·.above base), fun heap values => ∀ value ∈ values, value.In heap⟩

instance : Movable (Table Value) := ⟨fun base => .map (·.above base), fun heap table => table.All (·.In heap)⟩

instance : Movable Callable := ⟨Callable.above, fun heap callable => callable.All (·.In heap)⟩

instance : Movable Completion where
  above base
    | .returned value => .returned (value.above base)
    | other => other
  In heap
    | .returned value => value.In heap
    | _ => True

end Movable

def Interpreter.above (base : Heap) (interpreter : Interpreter) : Interpreter where
  directory := interpreter.directory
  exports := interpreter.exports.map (·.above base)
  builtins := interpreter.builtins.above base
  globals := interpreter.globals.above base
  scope := interpreter.scope.above base
  imports := interpreter.imports

namespace Interpreter

section

variable (base : Heap) (interpreter : Interpreter)

theorem directory_above : (interpreter.above base).directory = interpreter.directory := rfl

theorem scope_above : (interpreter.above base).scope = interpreter.scope.above base := rfl

theorem imports_above : (interpreter.above base).imports = interpreter.imports := rfl

end

theorem declareBuiltins_above (base heap : Heap) (frame : FrameId) (builtins : List Builtin) :
    declareBuiltins (frame.above base) builtins (heap.above base) =
      (declareBuiltins frame builtins heap).above base := by
  induction builtins generalizing heap with
  | nil => rfl
  | cons b rest ih =>
    have made : (heap.above base).newCallable (.builtin b) = ((heap.newCallable (.builtin b)).1.above base,
        (heap.newCallable (.builtin b)).2.above base) := Heap.newCallable_above base heap (.builtin b)
    have declared := Heap.declare_above base (heap.newCallable (.builtin b)).2 frame b.name
      (.callable (heap.newCallable (.builtin b)).1)
    rw [declareBuiltins, declareBuiltins, made, ← ih, ← declared]
    rfl

theorem start_above (base heap : Heap) (directory : Option Path) (imports : List Path) :
    start (heap.above base) directory imports =
      ((start heap directory imports).1.above base, (start heap directory imports).2.above base) := by
  have builtins := Heap.newFrame_above base heap none
  have globals (h : Heap) (outer : FrameId) := Heap.newFrame_above base h (some outer)
  rw [Option.map_none] at builtins
  simp only [Option.map_some] at globals
  simp only [start, builtins, declareBuiltins_above, globals]
  rfl

theorem larger_declareBuiltins (heap : Heap) (frame : FrameId) (builtins : List Builtin) :
    heap.Larger (declareBuiltins frame builtins heap) := by
  induction builtins generalizing heap with
  | nil => exact .refl heap
  | cons b rest ih =>
    exact ((Heap.larger_newCallable heap (.builtin b)).trans (Heap.larger_declare _ _ _ _)).trans (ih _)

theorem closed_declareBuiltins {heap : Heap} (closed : heap.Closed) (frame : FrameId) (builtins : List Builtin) :
    (declareBuiltins frame builtins heap).Closed := by
  induction builtins generalizing heap with
  | nil => exact closed
  | cons b rest ih =>
    have made : (heap.newCallable (.builtin b)).2.Closed := closed.newCallable trivial
    exact ih (made.declare trivial)

theorem larger_start (heap : Heap) (directory : Option Path) (imports : List Path) :
    heap.Larger (start heap directory imports).2 :=
  ((Heap.larger_newFrame heap none).trans (larger_declareBuiltins _ _ _)).trans (Heap.larger_newFrame _ _)

theorem closed_start {heap : Heap} (closed : heap.Closed) (directory : Option Path) (imports : List Path) :
    (start heap directory imports).2.Closed :=
  (closed_declareBuiltins (closed.newFrame none) _ _).newFrame _

end Interpreter

def Machine.above (m base : Machine) : Machine :=
  ⟨m.heap.above base.heap, base.out ++ m.out, m.interpreter.above base.heap⟩

structure Machine.Sound (m : Machine) : Prop where
  closed : m.heap.Closed
  exports : m.interpreter.exports.All (·.In m.heap)

theorem Machine.Sound.withHeap {m : Machine} {heap : Heap} (sound : m.Sound) (closed : heap.Closed)
    (larger : m.heap.Larger heap) : ({ m with heap } : Machine).Sound :=
  ⟨closed, sound.exports.mono fun _ had => had.mono larger⟩

theorem Machine.Sound.inFrame {m : Machine} (sound : m.Sound) (frame : FrameId) : (m.inFrame frame).Sound :=
  ⟨sound.closed, sound.exports⟩

theorem Interpreter.sound_start {heap : Heap} (closed : heap.Closed) (out : String) (directory : Option Path)
    (imports : List Path) :
    Machine.Sound ⟨(start heap directory imports).2, out, (start heap directory imports).1⟩ := by
  have exports : (start heap directory imports).1.exports = .empty := by rw [start]
  refine ⟨closed_start closed directory imports, ?_⟩
  rw [exports]
  exact .empty

namespace Run

section

variable {α β : Type} [Movable α] [Movable β] {base m m₁ m₂ : Machine}

def moved (base : Machine) : EStateM.Result Stop Machine α → EStateM.Result Stop Machine α
  | .ok a m => .ok (Movable.above base.heap a) (m.above base)
  | .error e m => .error e (m.above base)

structure Leads (m m' : Machine) (a : α) : Prop where
  larger : m.heap.Larger m'.heap
  sound : m'.Sound
  within : Movable.In m'.heap a

structure Lifts (base m : Machine) (act act' : Run α) : Prop where
  same : act' (m.above base) = moved base (act m)
  leads {a : α} {m' : Machine} (ran : act m = .ok a m') : Leads m m' a

theorem Lifts.of_ok {act act' : Run α} {a : α} (ran : act m = .ok a m₁)
    (same : act' (m.above base) = .ok (Movable.above base.heap a) (m₁.above base)) (leads : Leads m m₁ a) :
    Lifts base m act act' where
  same := by rw [same, ran, moved]
  leads ran' := by
    cases ran.symm.trans ran'
    exact leads

theorem Lifts.of_error {act act' : Run α} {e : Stop} (ran : act m = .error e m₁)
    (same : act' (m.above base) = .error e (m₁.above base)) : Lifts base m act act' where
  same := by rw [same, ran, moved]
  leads ran' := by cases ran.symm.trans ran'

theorem Lifts.bind {act act' : Run α} {rest rest' : α → Run β} (first : Lifts base m act act')
    (second : ∀ a m₁, act m = .ok a m₁ → Leads m m₁ a →
      Lifts base m₁ (rest a) (rest' (Movable.above base.heap a))) :
    Lifts base m (act >>= rest) (act' >>= rest') := by
  cases run : act m with
  | ok a m₁ =>
    have leads := first.leads run
    have next := second a m₁ run leads
    have ran : (act >>= rest) m = rest a m₁ := by simp only [Bind.bind, EStateM.bind, run]
    have ran' : (act' >>= rest') (m.above base) = rest' (Movable.above base.heap a) (m₁.above base) := by
      simp only [Bind.bind, EStateM.bind, first.same, run, moved]
    refine ⟨by rw [ran, ran', next.same], fun {b m'} done => ?_⟩
    have last := next.leads (ran ▸ done)
    exact ⟨leads.larger.trans last.larger, last.sound, last.within⟩
  | error e m₁ =>
    have ran : (act >>= rest) m = .error e m₁ := by simp only [Bind.bind, EStateM.bind, run]
    have ran' : (act' >>= rest') (m.above base) = .error e (m₁.above base) := by
      simp only [Bind.bind, EStateM.bind, first.same, run, moved]
    exact .of_error ran ran'

theorem Lifts.bindInterpreter {rest rest' : Interpreter → Run β}
    (second : Lifts base m (rest m.interpreter) (rest' (m.interpreter.above base.heap))) :
    Lifts base m (Run.interpreter >>= rest) (Run.interpreter >>= rest') := ⟨second.same, second.leads⟩

theorem Lifts.bindRead {γ : Type} {f f' : Heap → γ} {rest rest' : γ → Run β}
    (second : Lifts base m (rest (f m.heap)) (rest' (f' (m.heap.above base.heap)))) :
    Lifts base m (Run.readHeap f >>= rest) (Run.readHeap f' >>= rest') := ⟨second.same, second.leads⟩

theorem Lifts.bindChange {γ : Type} {f f' : Heap → γ × Heap} {c : γ} {rest rest' : γ → Run β}
    (changed : f' (m.heap.above base.heap) = (c, (f m.heap).2.above base.heap)) (larger : m.heap.Larger (f m.heap).2)
    (second : Lifts base { m with heap := (f m.heap).2 } (rest (f m.heap).1) (rest' c)) :
    Lifts base m (Run.changeHeap f >>= rest) (Run.changeHeap f' >>= rest') := by
  have ran : (Run.changeHeap f' >>= rest') (m.above base) =
      rest' c (Machine.above { m with heap := (f m.heap).2 } base) := by
    simp only [Bind.bind, EStateM.bind, changeHeap_eq, Machine.above, changed]
  refine ⟨ran.trans second.same, fun {b m'} done => ?_⟩
  have last := second.leads done
  exact ⟨larger.trans last.larger, last.sound, last.within⟩

theorem Lifts.bindExcept {γ : Type} {result result' : Except Fault γ} {g : γ → γ} {rest rest' : γ → Run β}
    (same : result' = result.map g) (second : ∀ c, result = .ok c → Lifts base m (rest c) (rest' (g c))) :
    Lifts base m (Run.ofExcept result >>= rest) (Run.ofExcept result' >>= rest') := by
  subst same
  cases result with
  | ok c => exact second c rfl
  | error f => exact .of_error rfl rfl

theorem Lifts.fault (f : Fault) : Lifts base m (Run.fault f : Run α) (Run.fault f) := .of_error rfl rfl

theorem Lifts.outOfFuel : Lifts base m (Run.outOfFuel : Run α) Run.outOfFuel := .of_error rfl rfl

theorem Lifts.ite {b b' : Bool} {act act' other other' : Run α} (same : b' = b)
    (yes : b = true → Lifts base m act act') (no : b = false → Lifts base m other other') :
    Lifts base m (if b then act else other) (if b' then act' else other') := by
  subst same
  cases b' with
  | true => exact yes rfl
  | false => exact no rfl

variable (sound : m.Sound)
include sound

theorem Lifts.pure {a : α} (within : Movable.In m.heap a) :
    Lifts base m (Pure.pure a) (Pure.pure (Movable.above base.heap a)) :=
  .of_ok rfl rfl ⟨.refl _, sound, within⟩

theorem Lifts.changeHeap {f f' : Heap → α × Heap}
    (changed : f' (m.heap.above base.heap) = (Movable.above base.heap (f m.heap).1, (f m.heap).2.above base.heap))
    (larger : m.heap.Larger (f m.heap).2) (closed : (f m.heap).2.Closed)
    (within : Movable.In (f m.heap).2 (f m.heap).1) :
    Lifts base m (Run.changeHeap f) (Run.changeHeap f') := by
  refine .of_ok rfl ?_ ⟨larger, sound.withHeap closed larger, within⟩
  simp only [changeHeap_eq, Machine.above, changed]

omit sound in
theorem Lifts.withScope {scope : FrameId} {act act' : Run α} (inside : Lifts base (m.inFrame scope) act act') :
    Lifts base m (Run.withScope scope act) (Run.withScope (scope.above base.heap) act') := by
  have same : act' ((m.above base).inFrame (scope.above base.heap)) = moved base (act (m.inFrame scope)) := inside.same
  cases run : act (m.inFrame scope) with
  | ok a m₁ =>
    have leads := inside.leads run
    have ran : Run.withScope scope act m = .ok a (m₁.inFrame m.interpreter.scope) := by rw [withScope_eq, run]
    refine .of_ok ran ?_ ⟨leads.larger, leads.sound.inFrame m.interpreter.scope, leads.within⟩
    rw [withScope_eq, same, run]
    rfl
  | error e m₁ =>
    have ran : Run.withScope scope act m = .error e (m₁.inFrame m.interpreter.scope) := by rw [withScope_eq, run]
    refine .of_error ran ?_
    rw [withScope_eq, same, run]
    rfl

theorem Lifts.withInterpreter {other : Interpreter} {act act' : Run Unit}
    (inside : Lifts base { m with interpreter := other } act act') :
    Lifts base m (Run.withInterpreter other act) (Run.withInterpreter (other.above base.heap) act') := by
  have same : act' { m.above base with interpreter := other.above base.heap } =
      moved base (act { m with interpreter := other }) := inside.same
  cases run : act { m with interpreter := other } with
  | ok u m₁ =>
    have leads := inside.leads run
    have after : ({ m₁ with interpreter := m.interpreter } : Machine).Sound :=
      ⟨leads.sound.closed, sound.exports.mono fun _ had => had.mono leads.larger⟩
    have ran : Run.withInterpreter other act m =
        .ok m₁.interpreter.exports { m₁ with interpreter := m.interpreter } := by rw [withInterpreter_eq, run]
    refine .of_ok ran ?_ ⟨leads.larger, after, leads.sound.exports⟩
    rw [withInterpreter_eq, same, run]
    rfl
  | error e m₁ =>
    have ran : Run.withInterpreter other act m = .error e { m₁ with interpreter := m.interpreter } := by
      rw [withInterpreter_eq, run]
    refine .of_error ran ?_
    rw [withInterpreter_eq, same, run]
    rfl

theorem Lifts.print (text : String) : Lifts base m (Run.print text) (Run.print text) := by
  have ran : Run.print text m = .ok () { m with out := m.out ++ text } := rfl
  refine .of_ok ran ?_ ⟨.refl _, ⟨sound.closed, sound.exports⟩, trivial⟩
  exact congrArg (fun out => EStateM.Result.ok () { m.above base with out }) String.append_assoc

omit sound in
theorem Lifts.bindText {value : Value} {rest rest' : String → Run β}
    (second : Lifts base m (rest (m.heap.text value)) (rest' (m.heap.text value))) :
    Lifts base m (Run.text value >>= rest) (Run.text (value.above base.heap) >>= rest') := by
  refine .bindRead ?_
  rwa [Heap.text_above]

theorem Lifts.lookup? (level : Nat) (name : String) :
    Lifts base m (Run.lookup? level name) (Run.lookup? level name) := by
  refine .of_ok (a := m.heap.get? m.interpreter.scope level name) rfl ?_ ⟨.refl _, sound, ?_⟩
  · exact congrArg (EStateM.Result.ok · _) (Heap.get?_above base.heap m.heap _ level name)
  · exact fun value found => sound.closed.get? found

theorem Lifts.declare {value : Value} (name : String) (within : value.In m.heap) :
    Lifts base m (Run.declare name value) (Run.declare name (value.above base.heap)) := by
  refine .bindInterpreter (.changeHeap sound ?_ (Heap.larger_of_size rfl rfl) (sound.closed.declare within) trivial)
  exact congrArg (Prod.mk ()) (Heap.declare_above base.heap m.heap _ name value)

theorem Lifts.innerFrame : Lifts base m Run.innerFrame Run.innerFrame := by
  refine .bindInterpreter (.changeHeap sound ?_ (Heap.larger_of_size rfl rfl) (sound.closed.newFrame _) trivial)
  exact Heap.newFrame_above base.heap m.heap (some m.interpreter.scope)

theorem lifts_declareAll (frame : FrameId) {entries : List (String × Value)}
    (within : ∀ entry ∈ entries, entry.2.In m.heap) :
    Lifts base m (Run.changeHeap fun heap => ((), heap.declareAll frame entries))
      (Run.changeHeap fun heap => ((), heap.declareAll (frame.above base.heap)
        (entries.map fun entry => (entry.1, entry.2.above base.heap)))) := by
  have larger := Heap.larger_declareAll m.heap frame entries
  have moved := congrArg (Prod.mk ()) (Heap.declareAll_above base.heap m.heap frame entries)
  refine .changeHeap sound moved larger ((sound.closed.all larger).declareAll fun entry mem => ?_) trivial
  exact (within entry mem).mono larger

theorem Lifts.bindParams (frame : FrameId) (params : List String) {args : List Value}
    (within : ∀ value ∈ args, value.In m.heap) :
    Lifts base m (Run.bindParams frame params args)
      (Run.bindParams (frame.above base.heap) params (args.map (·.above base.heap))) := by
  rw [Run.bindParams, Run.bindParams, Table.zip_map]
  exact lifts_declareAll sound frame fun entry mem => within entry.2 (List.of_mem_zip mem).2

theorem Lifts.frameWith {parent : FrameId} {names : List String} {values : List Value}
    {rest rest' : FrameId → Run β} (within : ∀ value ∈ values, value.In m.heap)
    (second : ∀ frame m₁, m₁.Sound → m.heap.Larger m₁.heap →
      Lifts base m₁ (rest frame) (rest' (frame.above base.heap))) :
    Lifts base m
      (do
        let frame ← Run.changeHeap (·.newFrame (some parent))
        Run.bindParams frame names values
        rest frame)
      (do
        let frame ← Run.changeHeap (·.newFrame (some (parent.above base.heap)))
        Run.bindParams frame names (values.map (·.above base.heap))
        rest' frame) := by
  have larger := Heap.larger_newFrame m.heap (some parent)
  refine .bindChange (Heap.newFrame_above base.heap m.heap (some parent)) larger ?_
  have opened := sound.withHeap (sound.closed.newFrame (some parent)) larger
  refine .bind (.bindParams opened _ names within) fun _ m₁ _ leads => ?_
  exact second _ m₁ leads.sound (larger.trans leads.larger)

theorem Lifts.addExport {value : Value} (name : String) (within : value.In m.heap) :
    Lifts base m (Run.addExport name value) (Run.addExport name (value.above base.heap)) := by
  refine .of_ok (a := ()) rfl ?_ ⟨.refl _, ⟨sound.closed, sound.exports.insert within⟩, trivial⟩
  exact congrArg (fun exports => EStateM.Result.ok () { m.above base with interpreter :=
    { m.interpreter.above base.heap with exports } }) (Table.map_insert _ _ name value).symm

end

end Run

end HookScript
