import HookScript.Evaluation

/-!
Frames under the operations of the heap. Going outwards from a frame gives the same frames for as long as the
heap lives, and a name that is bound in a frame stays bound there.
-/

namespace HookScript

namespace Heap

variable {heap heap' : Heap} {frame other : FrameId} {name : String} {value : Value}

def HasFrame (heap : Heap) (frame : FrameId) : Prop := frame.index < heap.frames.size

instance : Decidable (heap.HasFrame frame) := inferInstanceAs (Decidable (_ < _))

def Binds (heap : Heap) (frame : FrameId) (name : String) : Prop := (heap.binding? frame name).isSome

theorem chain_eq (heap : Heap) (frame : FrameId) :
    heap.chain frame = frame :: ((heap.parent? frame).map heap.chain).getD [] := by
  rw [chain]
  split
  · next parent outer => simp only [outer, Option.map_some, Option.getD_some]
  · next outer => simp only [outer, Option.map_none, Option.getD_none]

theorem chain_of_parent {parent : FrameId} (h : heap.parent? frame = some parent) :
    heap.chain frame = frame :: heap.chain parent := by
  rw [chain_eq, h, Option.map_some, Option.getD_some]

theorem binding?_declare (heap : Heap) (frame other : FrameId) (name key : String) (value : Value) :
    (heap.declare frame name value).binding? other key =
      if other = frame ∧ heap.HasFrame frame ∧ key = name then some value else heap.binding? other key := by
  obtain ⟨i⟩ := frame
  obtain ⟨j⟩ := other
  simp only [binding?, declare, HasFrame, FrameId.mk.injEq, Array.getElem?_modify]
  by_cases same : i = j
  · subst same
    by_cases inside : i < heap.frames.size <;> simp [inside, Table.get?_insert]
  · simp [same, Ne.symm same]

theorem parent?_declare (heap : Heap) (frame other : FrameId) (name : String) (value : Value) :
    (heap.declare frame name value).parent? other = heap.parent? other := by
  simp only [parent?, declare, Array.getElem?_modify]
  by_cases same : frame.index = other.index
  · cases heap.frames[other.index]? <;> simp [same]
  · simp [same]

theorem size_declare (heap : Heap) (frame : FrameId) (name : String) (value : Value) :
    (heap.declare frame name value).frames.size = heap.frames.size := by
  simp [declare]

theorem binds_declare_self (inside : heap.HasFrame frame) : (heap.declare frame name value).Binds frame name := by
  simp [Binds, binding?_declare, inside]

theorem Binds.declare {key : String} (bound : heap.Binds other key) :
    (heap.declare frame name value).Binds other key := by
  simp only [Binds, binding?_declare]
  split
  · rfl
  · exact bound

theorem binding?_newFrame (heap : Heap) (parent : Option FrameId) (name : String) (inside : heap.HasFrame frame) :
    (heap.newFrame parent).2.binding? frame name = heap.binding? frame name := by
  simp only [binding?, newFrame, HasFrame] at *
  rw [Array.getElem?_push_lt inside, Array.getElem?_eq_getElem inside]

theorem parent?_newFrame (heap : Heap) (parent : Option FrameId) (inside : heap.HasFrame frame) :
    (heap.newFrame parent).2.parent? frame = heap.parent? frame := by
  simp only [parent?, newFrame, HasFrame] at *
  rw [Array.getElem?_push_lt inside, Array.getElem?_eq_getElem inside]

theorem parent?_newFrame_self {parent : FrameId} (inside : heap.HasFrame parent) :
    (heap.newFrame (some parent)).2.parent? (heap.newFrame (some parent)).1 = some parent := by
  simp only [HasFrame] at inside
  simp [parent?, newFrame, inside]

theorem hasFrame_of_binds (bound : heap.Binds frame name) : heap.HasFrame frame := by
  simp only [Binds, binding?, HasFrame] at *
  refine Nat.lt_of_not_le fun outside => ?_
  rw [Array.getElem?_eq_none outside] at bound
  cases bound

theorem binding?_declareAll {entries : List (String × Value)} (sorted : entries.Pairwise fun a b => a.1 < b.1)
    (inside : heap.HasFrame frame) :
    (heap.declareAll frame entries).binding? frame name = (entries.lookup name).or (heap.binding? frame name) := by
  induction entries generalizing heap with
  | nil => rfl
  | cons entry rest ih =>
    obtain ⟨key, value⟩ := entry
    obtain ⟨after, sorted⟩ := List.pairwise_cons.1 sorted
    have still : (heap.declare frame key value).HasFrame frame := by rwa [HasFrame, size_declare]
    rw [declareAll, ih sorted still, binding?_declare, List.lookup_cons]
    by_cases same : name = key
    · subst same
      rw [Table.lookup_eq_none_of_lt after]
      simp [inside]
    · have apart : (name == key) = false := by simpa using same
      simp [apart, same]

theorem binding?_declareAll_of_ne (apart : frame ≠ other) (entries : List (String × Value)) :
    (heap.declareAll other entries).binding? frame name = heap.binding? frame name := by
  induction entries generalizing heap with
  | nil => rfl
  | cons entry rest ih =>
    obtain ⟨key, value⟩ := entry
    rw [declareAll, ih, binding?_declare, if_neg fun same => apart same.1]

theorem get?_of_binds {scope : FrameId} {level : Nat} (found : heap.ancestor? scope level = some frame)
    (bound : heap.Binds frame name) : heap.get? scope level name = heap.binding? frame name := by
  obtain ⟨value, binding⟩ := Option.isSome_iff_exists.1 bound
  simp only [get?, found, Option.bind_some, binding]

theorem get?_of_not_bound {scope : FrameId} {level : Nat} (found : heap.ancestor? scope level = some frame)
    (free : heap.binding? frame name = none) (here : heap.binding? scope name = some value) :
    heap.get? scope level name = some value := by
  simp only [get?, found, Option.bind_some, free, lookup?]
  rw [chain_eq, List.findSome?_cons, here]

theorem assignee?_of_binds {scope : FrameId} {level : Nat} (found : heap.ancestor? scope level = some frame)
    (bound : heap.Binds frame name) : heap.assignee? scope level name = some frame := by
  unfold Binds at bound
  simp only [assignee?, found, Option.filter_some, bound, if_true]

end Heap

namespace Run

variable {world : World} {n level : Nat} {name : String} {m m₁ m₂ : Machine} {v : Value}

theorem evaluate_lookup (found : m.heap.get? m.interpreter.scope level name = some v) :
    evaluate world (n + 1) (.lookup name level) m = .ok v m := by
  simp only [evaluate, lookup?, interpreter, readHeap, bind, EStateM.bind, found]
  rfl

theorem evaluate_assign {value : Expr} {frame : FrameId} (ran : evaluate world n value m = .ok v m₁)
    (found : m₁.heap.assignee? m₁.interpreter.scope level name = some frame) :
    evaluate world (n + 1) (.assign name level value) m =
      .ok v { m₁ with heap := m₁.heap.declare frame name v } := by
  simp only [evaluate, interpreter, readHeap, bind, EStateM.bind, ran, found]
  rfl

theorem evaluate_call {callee : Expr} {args : List Expr} {id : CallableId} {callable : Callable} {values : List Value}
    (hc : evaluate world n callee m = .ok (.callable id) m₁) (found : m₁.heap.callable? id = some callable)
    (arity : args.length = callable.arity) (ha : evaluateAll world n args m₁ = .ok values m₂) :
    evaluate world (n + 1) (.call callee args) m = call world n callable values m₂ := by
  simp only [evaluate, bind, EStateM.bind, hc, asCallable, readHeap, found, Callable.checkArity, arity, if_true,
    ofExcept, pure, EStateM.pure, ha]

theorem evaluate_method {target : Expr} {id : ObjectId} {methodId : MethodId} {params : List String}
    {body : List Stmt} {globals : FrameId} (ht : evaluate world n target m = .ok (.object id) m₁)
    (held : m₁.heap.property id name = .method methodId)
    (found : m₁.heap.method? methodId = some (.script params body globals)) :
    evaluate world (n + 1) (.property target name) m = .ok (.callable ⟨m₁.heap.callables.size⟩) { m₁ with
      heap := (m₁.heap.newCallable (.bound (.script params body globals) (.object id))).2 } := by
  simp only [evaluate, bind, EStateM.bind, ht, getProperty, readHeap, held, found, Method.bind, ofExcept]
  rfl

theorem executeProgram_cons {first : Stmt} {rest : List Stmt} (hf : execute world n first m = .ok .normal m₁) :
    executeProgram world (n + 1) (first :: rest) m = executeProgram world n rest m₁ := by
  simp only [executeProgram, bind, EStateM.bind, hf, Completion.jump?]

theorem execute_exportAs {value : Expr} (hv : evaluate world n value m = .ok v m₁) :
    execute world (n + 1) (.exportAs name value) m = .ok .normal { m₁ with interpreter :=
      { m₁.interpreter with exports := m₁.interpreter.exports.insert name v } } := by
  simp only [execute, bind, EStateM.bind, hv]
  rfl

end Run

end HookScript
