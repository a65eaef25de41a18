import HookScript.Document.Basic
import HookScript.Proofs.Run.Frames
import HookScript.Proofs.Run.Task

/-!
How a heap grows while scripts run. Frames keep the frames around them and the names that they bind, and what a
callable or a method is never changes. What is new has a source: a function comes from a function statement that
was executed, and a method of a script from a method literal that was evaluated.
-/

namespace HookScript

namespace Heap

structure Extends (heap heap' : Heap) : Prop where
  hasFrame {frame : FrameId} (inside : heap.HasFrame frame) : heap'.HasFrame frame
  parent?_eq {frame : FrameId} (inside : heap.HasFrame frame) : heap'.parent? frame = heap.parent? frame
  binds {frame : FrameId} {name : String} (bound : heap.Binds frame name) : heap'.Binds frame name
  callable {id : CallableId} {callable : Callable} (found : heap.callable? id = some callable) :
    heap'.callable? id = some callable
  method {id : MethodId} {method : Method} (found : heap.method? id = some method) :
    heap'.method? id = some method

namespace Extends

variable {heap heap₁ heap₂ : Heap}

theorem refl (heap : Heap) : heap.Extends heap := ⟨id, fun _ => rfl, id, id, id⟩

theorem trans (first : heap.Extends heap₁) (second : heap₁.Extends heap₂) : heap.Extends heap₂ where
  hasFrame inside := second.hasFrame (first.hasFrame inside)
  parent?_eq inside := (second.parent?_eq (first.hasFrame inside)).trans (first.parent?_eq inside)
  binds bound := second.binds (first.binds bound)
  callable found := second.callable (first.callable found)
  method found := second.method (first.method found)

theorem chain_eq (extends_heap : heap.Extends heap₁) {frame : FrameId} (inside : heap.HasFrame frame) :
    heap₁.chain frame = heap.chain frame := by
  obtain ⟨i⟩ := frame
  induction i using Nat.strongRecOn with
  | ind i ih =>
    cases around : heap.parent? ⟨i⟩ with
    | none =>
      rw [Heap.chain_eq, Heap.chain_eq heap, extends_heap.parent?_eq inside, around]
      rfl
    | some parent =>
      have older := parent?_index_lt around
      have parentInside : heap.HasFrame parent := Nat.lt_trans older inside
      rw [chain_of_parent around, chain_of_parent ((extends_heap.parent?_eq inside).trans around)]
      rw [ih parent.index older parentInside]

end Extends

def withFunction (heap : Heap) (scope : FrameId) (name : String) (params : List String) (body : List Stmt) : Heap :=
  let (id, heap) := heap.newCallable (.function name params body scope)
  heap.declare scope name (.callable id)

def HoldsFunction (heap : Heap) (name : String) (params : List String) (body : List Stmt) (closure : FrameId) :
    Prop :=
  ∃ id, heap.callable? id = some (.function name params body closure)

def HoldsMethod (heap : Heap) (method : Method) : Prop :=
  (∃ id, heap.method? id = some method) ∨ ∃ id receiver, heap.callable? id = some (.bound method receiver)

structure Grows (S : Nat → Task → Machine → Prop) (heap heap' : Heap) : Prop where
  extended : heap.Extends heap'
  function {name params body closure} (held : heap'.HoldsFunction name params body closure) :
    heap.HoldsFunction name params body closure ∨
      ∃ n m, S (n + 1) (.execute (.function name params body)) m ∧ m.interpreter.scope = closure ∧
        (m.heap.withFunction closure name params body).Extends heap'
  method {params body globals} (held : heap'.HoldsMethod (.script params body globals)) :
    heap.HoldsMethod (.script params body globals) ∨
      ∃ n m, S (n + 1) (.evaluate (.method params body)) m ∧ m.interpreter.globals = globals ∧
        m.heap.Extends heap'

namespace Grows

variable {S : Nat → Task → Machine → Prop} {heap heap₁ heap₂ : Heap}

theorem refl (heap : Heap) : heap.Grows S heap := ⟨.refl heap, .inl, .inl⟩

theorem trans (first : heap.Grows S heap₁) (second : heap₁.Grows S heap₂) : heap.Grows S heap₂ where
  extended := first.extended.trans second.extended
  function held := by
    rcases second.function held with old | source
    · rcases first.function old with older | ⟨n, m, source, scope, made⟩
      · exact .inl older
      · exact .inr ⟨n, m, source, scope, made.trans second.extended⟩
    · exact .inr source
  method held := by
    rcases second.method held with old | source
    · rcases first.method old with older | ⟨n, m, source, globals, made⟩
      · exact .inl older
      · exact .inr ⟨n, m, source, globals, made.trans second.extended⟩
    · exact .inr source

theorem of_extends (extends_heap : heap.Extends heap₁) (callables : heap₁.callables = heap.callables)
    (methods : heap₁.methods = heap.methods) : heap.Grows S heap₁ where
  extended := extends_heap
  function held := by
    simp only [HoldsFunction, callable?, callables] at held
    exact .inl held
  method held := by
    simp only [HoldsMethod, callable?, method?, callables, methods] at held
    exact .inl held

end Grows

structure SameCode (heap heap' : Heap) : Prop where
  frames : heap'.frames = heap.frames
  callables : heap'.callables = heap.callables
  methods : heap'.methods = heap.methods

namespace SameCode

variable {S : Nat → Task → Machine → Prop} {heap heap₁ heap₂ : Heap}

theorem refl (heap : Heap) : heap.SameCode heap := ⟨rfl, rfl, rfl⟩

theorem trans (first : heap.SameCode heap₁) (second : heap₁.SameCode heap₂) : heap.SameCode heap₂ :=
  ⟨second.frames.trans first.frames, second.callables.trans first.callables, second.methods.trans first.methods⟩

theorem grows (same : heap.SameCode heap₁) : heap.Grows S heap₁ := by
  obtain ⟨frames, callables, methods⟩ := same
  refine .of_extends ⟨?_, ?_, ?_, ?_, ?_⟩ callables methods
  · intro frame inside
    rwa [HasFrame, frames]
  · intro frame _
    simp only [parent?, frames]
  · intro frame name bound
    rwa [Binds, binding?, frames]
  · intro id callable found
    rwa [callable?, callables]
  · intro id method found
    rwa [method?, methods]

end SameCode

section Operations

variable {S : Nat → Task → Machine → Prop} (heap : Heap)

theorem extends_declare (frame : FrameId) (name : String) (value : Value) :
    heap.Extends (heap.declare frame name value) := by
  refine ⟨?_, ?_, ?_, id, id⟩
  · intro other inside
    rwa [HasFrame, size_declare]
  · intro other _
    exact parent?_declare heap frame other name value
  · intro other key bound
    exact bound.declare

theorem grows_declare (frame : FrameId) (name : String) (value : Value) :
    heap.Grows S (heap.declare frame name value) :=
  .of_extends (extends_declare heap frame name value) rfl rfl

theorem extends_declareAll (frame : FrameId) (entries : List (String × Value)) :
    heap.Extends (heap.declareAll frame entries) := by
  induction entries generalizing heap with
  | nil => exact .refl heap
  | cons entry rest ih => exact (extends_declare heap frame entry.1 entry.2).trans (ih _)

theorem grows_declareAll (frame : FrameId) (entries : List (String × Value)) :
    heap.Grows S (heap.declareAll frame entries) := by
  induction entries generalizing heap with
  | nil => exact .refl heap
  | cons entry rest ih => exact (grows_declare heap frame entry.1 entry.2).trans (ih _)

theorem extends_newFrame (parent : Option FrameId) : heap.Extends (heap.newFrame parent).2 := by
  refine ⟨?_, ?_, ?_, id, id⟩
  · intro frame inside
    simp only [HasFrame, newFrame, Array.size_push] at inside ⊢
    omega
  · intro frame inside
    exact parent?_newFrame heap parent inside
  · intro frame name bound
    rw [Binds, binding?_newFrame heap parent name (hasFrame_of_binds bound)]
    exact bound

theorem grows_newFrame (parent : Option FrameId) : heap.Grows S (heap.newFrame parent).2 :=
  .of_extends (extends_newFrame heap parent) rfl rfl

theorem grows_frameWith {heap heap' : Heap} {parent frame : FrameId} {entries : List (String × Value)}
    (entry : heap.frameWith parent entries = (frame, heap')) : heap.Grows S heap' := by
  cases entry
  exact (grows_newFrame heap (some parent)).trans (grows_declareAll _ _ entries)

theorem extends_newCallable (callable : Callable) : heap.Extends (heap.newCallable callable).2 := by
  refine ⟨id, fun _ => rfl, id, ?_, id⟩
  intro id other found
  simp only [callable?, newCallable] at *
  rw [Array.getElem?_push, if_neg fun h => ?_]
  · exact found
  · rw [h, Array.getElem?_eq_none (Nat.le_refl _)] at found
    cases found

theorem callable?_newCallable {callable other : Callable} {id : CallableId}
    (found : (heap.newCallable callable).2.callable? id = some other) :
    heap.callable? id = some other ∨ other = callable := by
  simp only [callable?, newCallable, Array.getElem?_push] at *
  split at found
  · exact .inr (Option.some.inj found).symm
  · exact .inl found

theorem callable?_newCallable_self (callable : Callable) :
    (heap.newCallable callable).2.callable? (heap.newCallable callable).1 = some callable :=
  Array.getElem?_push_size

theorem grows_newBound {method : Method} (held : heap.HoldsMethod method) (receiver : Value) :
    heap.Grows S (heap.newCallable (.bound method receiver)).2 where
  extended := extends_newCallable heap _
  function := by
    rintro name params body closure ⟨id, found⟩
    rcases callable?_newCallable heap found with old | new
    · exact .inl ⟨id, old⟩
    · cases new
  method := by
    rintro params body globals (⟨id, found⟩ | ⟨id, other, found⟩)
    · exact .inl (.inl ⟨id, found⟩)
    · rcases callable?_newCallable heap found with old | new
      · exact .inl (.inr ⟨id, other, old⟩)
      · cases new
        exact .inl held

theorem grows_newNative {callable : Callable}
    (native : (∃ b, callable = .builtin b) ∨ ∃ method receiver, callable = .bound (.list method) receiver) :
    heap.Grows S (heap.newCallable callable).2 where
  extended := extends_newCallable heap callable
  function := by
    rintro name params body closure ⟨id, found⟩
    rcases callable?_newCallable heap found with old | rfl
    · exact .inl ⟨id, old⟩
    · simp at native
  method := by
    rintro params body globals (⟨id, found⟩ | ⟨id, receiver, found⟩)
    · exact .inl (.inl ⟨id, found⟩)
    · rcases callable?_newCallable heap found with old | rfl
      · exact .inl (.inr ⟨id, receiver, old⟩)
      · simp at native

theorem extends_withFunction (scope : FrameId) (name : String) (params : List String) (body : List Stmt) :
    heap.Extends (heap.withFunction scope name params body) :=
  (extends_newCallable heap _).trans (extends_declare _ _ _ _)

theorem callable?_withFunction (scope : FrameId) (name : String) (params : List String) (body : List Stmt) :
    (heap.withFunction scope name params body).callable? ⟨heap.callables.size⟩ =
      some (.function name params body scope) :=
  callable?_newCallable_self heap _

theorem grows_withFunction {name : String} {params : List String} {body : List Stmt} {n : Nat} {m : Machine}
    (source : S (n + 1) (.execute (.function name params body)) m) :
    m.heap.Grows S (m.heap.withFunction m.interpreter.scope name params body) where
  extended := extends_withFunction m.heap _ name params body
  function := by
    rintro name' params' body' closure ⟨id, found⟩
    rcases callable?_newCallable m.heap found with old | new
    · exact .inl ⟨id, old⟩
    · cases new
      exact .inr ⟨n, m, source, rfl, .refl _⟩
  method := by
    rintro params' body' globals (⟨id, found⟩ | ⟨id, receiver, found⟩)
    · exact .inl (.inl ⟨id, found⟩)
    · rcases callable?_newCallable m.heap found with old | new
      · exact .inl (.inr ⟨id, receiver, old⟩)
      · cases new

theorem extends_newMethod (method : Method) : heap.Extends (heap.newMethod method).2 := by
  refine ⟨id, fun _ => rfl, id, id, ?_⟩
  intro id other found
  simp only [method?, newMethod] at *
  rw [Array.getElem?_push, if_neg fun h => ?_]
  · exact found
  · rw [h, Array.getElem?_eq_none (Nat.le_refl _)] at found
    cases found

theorem method?_newMethod {method other : Method} {id : MethodId}
    (found : (heap.newMethod method).2.method? id = some other) :
    heap.method? id = some other ∨ other = method := by
  simp only [method?, newMethod, Array.getElem?_push] at *
  split at found
  · exact .inr (Option.some.inj found).symm
  · exact .inl found

theorem grows_newMethod {params : List String} {body : List Stmt} {n : Nat} {m : Machine}
    (source : S (n + 1) (.evaluate (.method params body)) m) :
    m.heap.Grows S (m.heap.newMethod (.script params body m.interpreter.globals)).2 where
  extended := extends_newMethod m.heap _
  function held := .inl held
  method := by
    rintro params' body' globals (⟨id, found⟩ | held)
    · rcases method?_newMethod m.heap found with old | new
      · exact .inl (.inl ⟨id, old⟩)
      · cases new
        exact .inr ⟨n, m, source, rfl, extends_newMethod m.heap _⟩
    · exact .inl (.inr held)

end Operations

theorem sameCode_copyEach {copy : Value → Copying → Value × Copying}
    (each : ∀ value (c : Copying), c.heap.SameCode (copy value c).2.heap) (values : List Value) (c : Copying) :
    c.heap.SameCode (Copying.copyEach copy values c).2.heap := by
  induction values generalizing c with
  | nil => exact .refl _
  | cons value rest ih => exact (each value c).trans (ih (copy value c).2)

theorem sameCode_copyWithin (depth : Nat) (value : Value) (c : Copying) :
    c.heap.SameCode (Copying.copyWithin depth value c).2.heap := by
  induction depth generalizing value c with
  | zero => exact .refl _
  | succ depth ih =>
    cases value with
    | list id =>
      rw [Copying.copyWithin]
      split
      · exact .refl _
      · have begun : c.heap.SameCode (c.beginList id).2.heap := ⟨rfl, rfl, rfl⟩
        exact (begun.trans (sameCode_copyEach ih ((c.beginList id).2.heap.items id).toList _)).trans
          ⟨rfl, rfl, rfl⟩
    | object id =>
      rw [Copying.copyWithin]
      split
      · exact .refl _
      · have begun : c.heap.SameCode (c.beginObject id).2.heap := ⟨rfl, rfl, rfl⟩
        exact (begun.trans (sameCode_copyEach ih ((c.heap.properties id).entries.map (·.2)) _)).trans
          ⟨rfl, rfl, rfl⟩
    | _ => exact .refl _

theorem sameCode_deepCopy (heap : Heap) (value : Value) : heap.SameCode (heap.deepCopy value).2 :=
  sameCode_copyWithin _ value ⟨heap, [], []⟩

mutual

theorem sameCode_ofDocument (heap : Heap) : (document : Document) → heap.SameCode (heap.ofDocument document).2
  | .nil | .boolean _ | .number _ | .string _ => .refl _
  | .list items => (sameCode_ofDocuments heap items).trans ⟨rfl, rfl, rfl⟩
  | .object members => (sameCode_ofMembers heap members).trans ⟨rfl, rfl, rfl⟩

theorem sameCode_ofDocuments (heap : Heap) :
    (documents : List Document) → heap.SameCode (heap.ofDocuments documents).2
  | [] => .refl _
  | first :: rest => (sameCode_ofDocument heap first).trans (sameCode_ofDocuments _ rest)

theorem sameCode_ofMembers (heap : Heap) :
    (members : List (String × Document)) → heap.SameCode (heap.ofMembers members).2
  | [] => .refl _
  | (_, first) :: rest => (sameCode_ofDocument heap first).trans (sameCode_ofMembers _ rest)

end

end Heap

namespace Interpreter

variable {S : Nat → Task → Machine → Prop}

theorem grows_declareBuiltins (frame : FrameId) (builtins : List Builtin) (heap : Heap) :
    heap.Grows S (declareBuiltins frame builtins heap) := by
  induction builtins generalizing heap with
  | nil => exact .refl heap
  | cons b rest ih =>
    exact ((Heap.grows_newNative heap (.inl ⟨b, rfl⟩)).trans (Heap.grows_declare _ _ _ _)).trans (ih _)

theorem extends_declareBuiltins (frame : FrameId) (builtins : List Builtin) (heap : Heap) :
    heap.Extends (declareBuiltins frame builtins heap) := by
  induction builtins generalizing heap with
  | nil => exact .refl heap
  | cons b rest ih =>
    exact ((Heap.extends_newCallable heap (.builtin b)).trans (Heap.extends_declare _ _ _ _)).trans (ih _)

theorem grows_start (heap : Heap) (directory : Option Path) (imports : List Path) :
    heap.Grows S (start heap directory imports).2 :=
  ((Heap.grows_newFrame heap none).trans (grows_declareBuiltins _ _ _)).trans (Heap.grows_newFrame _ _)

end Interpreter

end HookScript
