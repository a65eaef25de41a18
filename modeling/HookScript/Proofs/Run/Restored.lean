import Mathlib
import HookScript.Proofs.Run.Session

/-!
What execution gives back. However a statement, an expression, a call or a program ends, the interpreter is in the
scope it was in and works on what it worked on, and every frame lies inside the frame that it lay in. So the next
program of a session begins at the global scope, whatever became of the one before.
-/

namespace HookScript

structure Machine.Restored (m m' : Machine) : Prop where
  scope : m'.interpreter.scope = m.interpreter.scope
  stays : m.interpreter.Stays m'.interpreter
  hasFrame {frame : FrameId} (inside : m.heap.HasFrame frame) : m'.heap.HasFrame frame
  parent {frame : FrameId} (inside : m.heap.HasFrame frame) : m'.heap.parent? frame = m.heap.parent? frame

namespace Machine.Restored

theorem refl (m : Machine) : m.Restored m := ⟨rfl, .refl _, id, fun _ => rfl⟩

theorem of_later {S : Nat → Task → Machine → Prop} {m m' : Machine} (later : m.Later S m') : m.Restored m' where
  scope := later.scope_eq
  stays := later.stays
  hasFrame inside := later.grows.extended.hasFrame inside
  parent inside := later.grows.extended.parent?_eq inside

end Machine.Restored

theorem Task.restored (world : World) (n : Nat) (t : Task) (m : Machine) : m.Restored (t.after world n m) :=
  .of_later (S := fun _ _ _ => True) (Task.later Run.closed_true t m trivial)

namespace Host

variable (world : World) (fuel : Nat) (m : Machine)

theorem restored_runText (text : String) : m.Restored (Host.after (runText world fuel text) m) := by
  rcases after_runText world fuel m text with same | ⟨program, -, ran⟩
  · rw [same]
    exact .refl m
  · rw [ran]
    exact Task.restored world fuel _ m

theorem restored_call (callable : Callable) (args : List Value) :
    m.Restored (Host.after (call world fuel callable args) m) := by
  rcases after_call world fuel m callable args with same | ⟨-, called⟩
  · rw [same]
    exact .refl m
  · rw [called]
    exact Task.restored world fuel _ m

theorem restored_callValue (value : Value) (args : List Value) :
    m.Restored (Host.after (callValue world fuel value args) m) := by
  rcases after_callValue world fuel m value args with same | ⟨id, callable, -, -, called⟩
  · rw [same]
    exact .refl m
  · rw [called]
    exact Task.restored world fuel _ m

theorem restored_callOn (value receiver : Value) (args : List Value) :
    m.Restored (Host.after (callOn world fuel value receiver args) m) := by
  rcases after_callOn world fuel m value receiver args with same | ⟨method, -, -, called⟩
  · rw [same]
    exact .refl m
  · rw [called]
    exact Task.restored world fuel _ m

end Host

/-- Every task, from a single expression to a program, and every call by the host leaves the interpreter and the
frames as they were, whether it succeeds or fails, on any machine. A session goes on at the global scope after every
program, also after one that has failed. -/
theorem execution_restores (world : World) (fuel : Nat) (m : Machine) :
    (∀ t : Task, m.Restored (t.after world fuel m)) ∧
      (∀ text, m.Restored (Host.after (Host.runText world fuel text) m)) ∧
      (∀ callable args, m.Restored (Host.after (Host.call world fuel callable args) m)) ∧
      (∀ value args, m.Restored (Host.after (Host.callValue world fuel value args) m)) ∧
      (∀ value receiver args, m.Restored (Host.after (Host.callOn world fuel value receiver args) m)) ∧
      ∀ sources, Session world sources m → m.interpreter.scope = m.interpreter.globals ∧
        ∀ text e m', Host.runText world fuel text m = .error e m' →
          m'.interpreter.scope = m.interpreter.globals ∧ m'.interpreter.globals = m.interpreter.globals := by
  refine ⟨fun t => t.restored world fuel m, Host.restored_runText world fuel m, Host.restored_call world fuel m,
    Host.restored_callValue world fuel m, Host.restored_callOn world fuel m, ?sessions⟩
  intro sources session
  refine ⟨session.idle.scope_eq, fun text e m' failed => ?_⟩
  have restored := Host.restored_runText world fuel m text
  rw [Host.after, failed] at restored
  exact ⟨restored.scope.trans session.idle.scope_eq, restored.stays.globals⟩

/-- A failure in a loop in a function is followed by a program at the global scope. -/
theorem execution_restores_of_failed_call :
    ∃ e m, Host.runText (.ofFiles []) 30 "function f() \x7b while true \x7b y; \x7d \x7d f();" (Machine.start none) =
        .error e m ∧ e.message = "variable not declared: y" ∧
      m.interpreter.scope = ⟨1⟩ ∧ m.interpreter.globals = ⟨1⟩ := by
  have message : (match Host.runText (.ofFiles []) 30 "function f() \x7b while true \x7b y; \x7d \x7d f();"
      (Machine.start none) with
      | .ok _ _ => none
      | .error e _ => some e.message) = some "variable not declared: y" := by cbv
  obtain ⟨-, -, -, -, -, sessions⟩ := execution_restores (.ofFiles []) 30 (Machine.start none)
  obtain ⟨-, after⟩ := sessions (fun _ => True) (.start none)
  cases ran : Host.runText (.ofFiles []) 30 "function f() \x7b while true \x7b y; \x7d \x7d f();"
      (Machine.start none) with
  | ok u m =>
    rw [ran] at message
    cases message
  | error e m =>
    rw [ran] at message
    obtain ⟨scope, globals⟩ := after _ e m ran
    exact ⟨e, m, rfl, Option.some.inj message, scope, globals⟩

end HookScript
