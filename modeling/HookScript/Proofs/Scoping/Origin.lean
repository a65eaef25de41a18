import HookScript.Proofs.Scoping.Visit

/-!
Where code comes from and who runs it. Code is written in a file and stands in what one interpreter has run of
it; a call can bring it to another interpreter, that of a file which imports it or is imported by it.
-/

namespace HookScript

structure Runner where
  file : Option Path
  globals : FrameId

inductive Session.Last (world : World) (sources : Program → Prop) : Option Path → Machine → Prop
  | start (directory : Option Path) : Last world sources none (Machine.start directory)
  | ran {last n t m} (before : Last world sources last m) (starts : Run.Starts world sources n t m) :
    Last world sources last (t.after world n m)
  | file {last n program place m} (before : Last world sources last m)
    (starts : Run.Starts world sources n (.executeProgram program) (m.running place)) :
    Last world sources (some place) (Task.after world n (.executeProgram program) (m.running place)).done
  | grown {last m heap} (before : Last world sources last m)
    (grows : m.heap.Grows (fun _ _ _ => False) heap) : Last world sources last { m with heap }

/-- The visits with the runner whose text it is and the runner at work. They part where a function or a method is
called, which belongs to the runner that its statement or literal belongs to. -/
inductive Written (world : World) (sources : Program → Prop) : Runner → Runner → Point → Nat → Task → Machine → Prop
  | start {last n t m} (starts : Run.Starts world sources n t m) (before : Session.Last world sources last m) :
    Written world sources ⟨none, m.interpreter.globals⟩ ⟨last, m.interpreter.globals⟩ (.top m.interpreter) n t m
  | file {n program place} {m : Machine}
    (starts : Run.Starts world sources n (.executeProgram program) (m.running place)) :
    Written world sources ⟨some place, m.interpreter.globals⟩ ⟨some place, m.interpreter.globals⟩
      (.top (m.running place).interpreter) n (.executeProgram program) (m.running place)
  | step {author worker p p' n move t m t' m'} (written : Written world sources author worker p (n + 1) t m)
    (enters : Run.Enters world n move t m t' m') (near : p.move m'.interpreter move = some p')
    (here : move ≠ .file) : Written world sources author worker p' n t' m'
  | imported {author worker p n path place text program m}
    (written : Written world sources author worker p (n + 1) (.importFile (.string path)) m)
    (found : world.resolveFrom m.interpreter.directory path = .ok place) (fresh : place ∉ m.interpreter.imports)
    (read : world.readText place = .ok text) (accepted : Program.ofText text = .ok program) :
    Written world sources ⟨some place, (m.importing place).interpreter.globals⟩
      ⟨some place, (m.importing place).interpreter.globals⟩ (.top (m.importing place).interpreter) n
      (.executeProgram program) (m.importing place)
  | functionBody {author maker caller worker p p₀ n k name params body closure args frame heap m m₀}
    (written : Written world sources caller worker p (n + 1) (.call (.function name params body closure) args) m)
    (entry : m.heap.frameWith closure (params.zip args) = (frame, heap))
    (made : Written world sources author maker p₀ (k + 1) (.execute (.function name params body)) m₀)
    (there : m₀.interpreter.scope = closure)
    (since : (m₀.heap.withFunction closure name params body).Extends m.heap) :
    Written world sources author worker (p₀.functionBody name params frame) n (.runBody frame body) { m with heap }
  | methodBody {author maker caller worker p p₀ n k params body globals receiver args around heap₁ frame heap₂ m m₀}
    (written : Written world sources caller worker p (n + 1)
      (.call (.bound (.script params body globals) receiver) args) m)
    (outer : m.heap.frameWith globals [("this", receiver)] = (around, heap₁))
    (entry : heap₁.frameWith around (params.zip args) = (frame, heap₂))
    (made : Written world sources author maker p₀ (k + 1) (.evaluate (.method params body)) m₀)
    (there : m₀.interpreter.globals = globals) (since : m₀.heap.Extends m.heap) :
    Written world sources author worker (p₀.methodBody params m₀.interpreter frame around) n (.runBody frame body)
      { m with heap := heap₂ }

section

variable {world : World} {sources : Program → Prop} {m : Machine}

theorem Session.last (session : Session world sources m) : ∃ last, Session.Last world sources last m := by
  induction session with
  | start directory => exact ⟨_, .start directory⟩
  | runText between fuel text source ih =>
    rcases Host.after_runText world fuel _ text with same | ⟨program, accepted, after⟩
    · rwa [same]
    · rw [after]
      obtain ⟨last, before⟩ := ih
      exact ⟨last, before.ran (.text between accepted (source program accepted))⟩
  | runFile between fuel path source ih =>
    rcases Host.after_runFile world fuel _ path with
      same | ⟨place, text, program, found, read, accepted, after⟩
    · rwa [same]
    · rw [after]
      obtain ⟨last, before⟩ := ih
      exact ⟨some place, before.file (.file between accepted (source place text program found read accepted))⟩
  | declare between name value ih =>
    obtain ⟨last, before⟩ := ih
    exact ⟨last, before.grown (Heap.grows_declare _ _ _ _)⟩
  | callValue between fuel value args ih =>
    rcases Host.after_callValue world fuel _ value args with
      same | ⟨id, callable, found, arity, after⟩
    · rwa [same]
    · rw [after]
      obtain ⟨last, before⟩ := ih
      exact ⟨last, before.ran (.call between found arity)⟩
  | callOn between fuel value receiver args ih =>
    rcases Host.after_callOn world fuel _ value receiver args with
      same | ⟨method, held, arity, after⟩
    · rwa [same]
    · rw [after]
      obtain ⟨last, before⟩ := ih
      exact ⟨last, before.ran (.callOn between held arity)⟩
  | exchange between exchange ih =>
    obtain ⟨last, before⟩ := ih
    exact ⟨last, before.grown (exchange.grows_toObject _)⟩

theorem Session.Last.directory_eq {place : Path} (last : Session.Last world sources (some place) m) :
    m.interpreter.directory = some place.parent := by
  generalize isLast : some place = file at last
  induction last with
  | start => cases isLast
  | @ran _ n t m _ _ ih =>
    have later : m.Later (fun _ _ _ => True) (t.after world n m) := Task.later Run.closed_true _ _ trivial
    rw [later.interpreter]
    exact ih isLast
  | @file _ n program other m =>
    cases isLast
    have later : (m.running place).Later (fun _ _ _ => True)
        (Task.after world n (.executeProgram program) (m.running place)) := Task.later Run.closed_true _ _ trivial
    change (Task.after world n (.executeProgram program) (m.running place)).interpreter.directory = _
    rw [later.interpreter]
    rfl
  | grown _ _ ih => exact ih isLast

end

namespace Written

variable {world : World} {sources : Program → Prop} {author worker : Runner} {p : Point} {n : Nat} {t : Task}
  {m : Machine}

theorem stay {t' : Task} {m' : Machine} (written : Written world sources author worker p (n + 1) t m)
    (enters : Run.Enters world n .stay t m t' m') : Written world sources author worker p n t' m' :=
  written.step enters rfl Move.noConfusion

theorem past {stmt : Stmt} {t' : Task} {m' : Machine} (written : Written world sources author worker p (n + 1) t m)
    (enters : Run.Enters world n (.past stmt) t m t' m') :
    Written world sources author worker ⟨p.context.after stmt, p.instances⟩ n t' m' :=
  written.step enters rfl Move.noConfusion

theorem visits (written : Written world sources author worker p n t m) : Visits world sources p n t m := by
  induction written with
  | start starts | file starts => exact .start starts
  | step _ enters near _ ih => exact .step ih enters near
  | imported _ found fresh read accepted ih => exact .step ih (.program found fresh read accepted) rfl
  | functionBody _ entry _ there since ih ih₀ => exact .functionBody ih entry ih₀ there since
  | methodBody _ outer entry _ there since ih ih₀ => exact .methodBody ih outer entry ih₀ there since

theorem of_visits (visits : Visits world sources p n t m) :
    ∃ author worker, Written world sources author worker p n t m := by
  induction visits with
  | start starts =>
    cases starts with
    | text between accepted source =>
      obtain ⟨last, before⟩ := between.last
      exact ⟨_, _, .start (.text between accepted source) before⟩
    | file between accepted source => exact ⟨_, _, .file (.file between accepted source)⟩
    | call between found arity =>
      obtain ⟨last, before⟩ := between.last
      exact ⟨_, _, .start (.call between found arity) before⟩
    | callOn between held arity =>
      obtain ⟨last, before⟩ := between.last
      exact ⟨_, _, .start (.callOn between held arity) before⟩
  | @step p p' n move t m t' m' _ enters near ih =>
    obtain ⟨author, worker, written⟩ := ih
    by_cases file : move = .file
    · subst file
      cases enters with
      | program found fresh read accepted =>
        cases near
        exact ⟨_, _, .imported written found fresh read accepted⟩
    · exact ⟨author, worker, .step written enters near file⟩
  | functionBody _ entry _ there since ih ih₀ =>
    obtain ⟨caller, worker, written⟩ := ih
    obtain ⟨author, maker, made⟩ := ih₀
    exact ⟨author, worker, .functionBody written entry made there since⟩
  | methodBody _ outer entry _ there since ih ih₀ =>
    obtain ⟨caller, worker, written⟩ := ih
    obtain ⟨author, maker, made⟩ := ih₀
    exact ⟨author, worker, .methodBody written outer entry made there since⟩

theorem globals_eq (written : Written world sources author worker p n t m) :
    m.interpreter.globals = worker.globals := by
  induction written with
  | start | file | imported => rfl
  | step _ enters _ here ih => exact (enters.stays here).globals.trans ih
  | functionBody _ _ _ _ _ ih | methodBody _ _ _ _ _ _ ih => exact ih

/-- Imports start from the directory of the file that the interpreter at work has begun last. -/
theorem directory_eq (written : Written world sources author worker p n t m) {place : Path}
    (running : worker.file = some place) : m.interpreter.directory = some place.parent := by
  induction written with
  | start _ before =>
    subst running
    exact before.directory_eq
  | file | imported =>
    cases running
    rfl
  | step _ enters _ here ih => exact (enters.stays here).directory.trans (ih running)
  | functionBody _ _ _ _ _ ih | methodBody _ _ _ _ _ _ ih => exact ih running

end Written

end HookScript
