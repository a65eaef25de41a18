import HookScript.Proofs.Run.Session
import HookScript.Proofs.Scoping.Context

/-!
Places in the text that runs come to. A visit is a task that comes up in a session together with the place where
its code stands: the scopes that the text shows around it, and the frame that each of them has in this run. A body
that is called stands where its statement or literal was when the function or method was made, whoever calls it.
-/

namespace HookScript

/-- A place in the text with the frames of the scopes around it, from the innermost one on; the frames of the
globals and of the builtins come last. -/
structure Point where
  context : Context
  instances : List FrameId

namespace Point

def top (i : Interpreter) : Point := ⟨.start, i.home⟩

/-- The place after a move, by the interpreter then at work. A call may lead to any text. -/
def move (p : Point) (i : Interpreter) : Move → Option Point
  | .stay => some p
  | .enter => some ⟨p.context.enter, i.scope :: p.instances⟩
  | .initial name => some ⟨p.context.declare name, p.instances⟩
  | .past stmt => some ⟨p.context.after stmt, p.instances⟩
  | .otherwise yes => some ⟨p.context.declareAll yes.declares, p.instances⟩
  | .call => none
  | .file => some (top i)

def functionBody (p : Point) (name : String) (params : List String) (frame : FrameId) : Point :=
  ⟨p.context.functionBody name params, frame :: p.instances⟩

/-- The body of a method whose literal is at `p`, in a frame of its own and one for the receiver around it. Beyond
these it has the globals of the interpreter that made it. -/
def methodBody (p : Point) (params : List String) (maker : Interpreter) (frame around : FrameId) : Point :=
  ⟨p.context.methodBody params, frame :: around :: maker.home⟩

end Point

inductive Visits (world : World) (sources : Program → Prop) : Point → Nat → Task → Machine → Prop
  | start {n t m} (starts : Run.Starts world sources n t m) : Visits world sources (.top m.interpreter) n t m
  | step {p p' n move t m t' m'} (visits : Visits world sources p (n + 1) t m)
    (enters : Run.Enters world n move t m t' m') (near : p.move m'.interpreter move = some p') :
    Visits world sources p' n t' m'
  | functionBody {p p₀ n k name params body closure args frame heap m m₀}
    (visits : Visits world sources p (n + 1) (.call (.function name params body closure) args) m)
    (entry : m.heap.frameWith closure (params.zip args) = (frame, heap))
    (made : Visits world sources p₀ (k + 1) (.execute (.function name params body)) m₀)
    (there : m₀.interpreter.scope = closure)
    (since : (m₀.heap.withFunction closure name params body).Extends m.heap) :
    Visits world sources (p₀.functionBody name params frame) n (.runBody frame body) { m with heap }
  | methodBody {p p₀ n k params body globals receiver args around heap₁ frame heap₂ m m₀}
    (visits : Visits world sources p (n + 1) (.call (.bound (.script params body globals) receiver) args) m)
    (outer : m.heap.frameWith globals [("this", receiver)] = (around, heap₁))
    (entry : heap₁.frameWith around (params.zip args) = (frame, heap₂))
    (made : Visits world sources p₀ (k + 1) (.evaluate (.method params body)) m₀)
    (there : m₀.interpreter.globals = globals) (since : m₀.heap.Extends m.heap) :
    Visits world sources (p₀.methodBody params m₀.interpreter frame around) n (.runBody frame body)
      { m with heap := heap₂ }

structure Sourced (world : World) (sources : Program → Prop) (heap : Heap) : Prop where
  function {name params body closure} (held : heap.HoldsFunction name params body closure) :
    ∃ p n m, Visits world sources p (n + 1) (.execute (.function name params body)) m ∧
      m.interpreter.scope = closure ∧ (m.heap.withFunction closure name params body).Extends heap
  method {params body globals} (held : heap.HoldsMethod (.script params body globals)) :
    ∃ p n m, Visits world sources p (n + 1) (.evaluate (.method params body)) m ∧
      m.interpreter.globals = globals ∧ m.heap.Extends heap

def Task.Held (heap : Heap) : Task → Prop
  | call (.function name params body closure) _ => heap.HoldsFunction name params body closure
  | call (.bound method _) _ => heap.HoldsMethod method
  | _ => True

structure Seen (world : World) (sources : Program → Prop) (n : Nat) (t : Task) (m : Machine) : Prop where
  visited : ∃ p, Visits world sources p n t m
  sourced : Sourced world sources m.heap
  held : t.Held m.heap

variable {world : World} {sources : Program → Prop}

namespace Sourced

variable {heap heap' : Heap}

theorem of_grows (sourced : Sourced world sources heap) (grows : heap.Grows (Seen world sources) heap') :
    Sourced world sources heap' where
  function held := by
    rcases grows.function held with old | ⟨n, m, seen, there, since⟩
    · obtain ⟨p, n, m, made, there, since⟩ := sourced.function old
      exact ⟨p, n, m, made, there, since.trans grows.extended⟩
    · obtain ⟨p, made⟩ := seen.visited
      exact ⟨p, n, m, made, there, since⟩
  method held := by
    rcases grows.method held with old | ⟨n, m, seen, there, since⟩
    · obtain ⟨p, n, m, made, there, since⟩ := sourced.method old
      exact ⟨p, n, m, made, there, since.trans grows.extended⟩
    · obtain ⟨p, made⟩ := seen.visited
      exact ⟨p, n, m, made, there, since⟩

theorem of_grows_false (sourced : Sourced world sources heap) (grows : heap.Grows (fun _ _ _ => False) heap') :
    Sourced world sources heap' := by
  refine sourced.of_grows ⟨grows.extended, fun held => ?_, fun held => ?_⟩
  · rcases grows.function held with old | ⟨_, _, none, _⟩
    · exact .inl old
    · exact none.elim
  · rcases grows.method held with old | ⟨_, _, none, _⟩
    · exact .inl old
    · exact none.elim

end Sourced

theorem Task.held_of_callable? {heap : Heap} {id : CallableId} {callable : Callable} (args : List Value)
    (found : heap.callable? id = some callable) : Task.Held heap (.call callable args) := by
  cases callable with
  | function name params body closure => exact ⟨id, found⟩
  | bound method receiver => exact .inr ⟨id, receiver, found⟩
  | builtin b => trivial

theorem Run.Enters.held {n : Nat} {move : Move} {t t' : Task} {m m' : Machine}
    (enters : Run.Enters world n move t m t' m') : t'.Held m'.heap := by
  cases enters with
  | called hc found arity ha =>
    have later := Run.later_of_ran (.evaluateAll _) ha rfl
    exact Task.held_of_callable? _ (later.grows.extended.callable found)
  | _ => trivial

/-- A task at a place leads to tasks at places. -/
theorem Seen.closed : Run.Closed world (Seen world sources) := by
  intro n move t m t' m' seen enters grows
  obtain ⟨p, visits⟩ := seen.visited
  refine ⟨?_, seen.sourced.of_grows grows, enters.held⟩
  cases near : p.move m'.interpreter move with
  | some p' => exact ⟨p', .step visits enters near⟩
  | none =>
    -- Only a call leaves its place. What it calls is in the heap, so it was made at a place.
    cases enters with
    | functionBody entry =>
      obtain ⟨p₀, k, m₀, made, there, since⟩ := seen.sourced.function seen.held
      exact ⟨_, .functionBody visits entry made there since⟩
    | methodBody outer entry =>
      obtain ⟨p₀, k, m₀, made, there, since⟩ := seen.sourced.method seen.held
      exact ⟨_, .methodBody visits outer entry made there since⟩
    | _ => cases near

theorem Run.Starts.seen {n : Nat} {t : Task} {m : Machine} (starts : Run.Starts world sources n t m)
    (sourced : Sourced world sources m.heap) : Seen world sources n t m := by
  refine ⟨⟨_, .start starts⟩, sourced, ?_⟩
  cases starts with
  | text | file => trivial
  | call between found arity => exact Task.held_of_callable? _ found
  | callOn between held arity => exact held

theorem sourced_empty : Sourced world sources .empty where
  function := by
    rintro name params body closure ⟨id, found⟩
    simp [Heap.callable?, Heap.empty] at found
  method := by
    rintro params body globals (⟨id, found⟩ | ⟨id, receiver, found⟩)
    · simp [Heap.method?, Heap.empty] at found
    · simp [Heap.callable?, Heap.empty] at found

theorem Session.sourced {m : Machine} (session : Session world sources m) : Sourced world sources m.heap := by
  refine session.induction (P := fun m => Sourced world sources m.heap) (fun directory => ?_)
    (fun n t m sourced starts => ?_) (fun _ _ _ sourced => sourced)
    fun m heap sourced grows => sourced.of_grows_false grows
  · exact sourced_empty.of_grows_false (Interpreter.grows_start _ directory [])
  · have later : m.Later (Seen world sources) (t.after world n m) :=
      Task.later Seen.closed _ _ (starts.seen sourced)
    exact sourced.of_grows later.grows

theorem Run.Reached.seen {n : Nat} {t : Task} {m : Machine} (reached : Run.Reached world sources n t m) :
    Seen world sources n t m := by
  induction reached with
  | start starts =>
    refine starts.seen ?_
    cases starts with
    | text between | file between | call between | callOn between => exact between.sourced
  | enter reached enters ih => exact Seen.closed ih enters (enters.grows Seen.closed ih)

end HookScript
