import HookScript.Host

/-!
More fuel. A run that has enough fuel ends with any more of it as it ends already, so how much there was cannot be
told from the end.
-/

namespace HookScript

namespace Run

variable {α β : Type}

/-- The run from the machine ends by itself. -/
def Enough (act : Run α) (m : Machine) : Prop := ∀ m', act m ≠ .error .outOfFuel m'

/-- Wherever the first run has enough fuel, the second one is the same. -/
def Lasts (act act' : Run α) : Prop := ∀ m, Enough act m → act' m = act m

theorem Lasts.refl (act : Run α) : Lasts act act := fun _ _ => rfl

theorem Lasts.outOfFuel (act : Run α) : Lasts Run.outOfFuel act := fun m enough => absurd rfl (enough m)

theorem Lasts.bind {act act' : Run α} {next next' : α → Run β} (first : Lasts act act')
    (onward : ∀ a, Lasts (next a) (next' a)) : Lasts (act >>= next) (act' >>= next') := by
  intro m enough
  simp only [Enough, Bind.bind, EStateM.bind] at enough ⊢
  have began : Enough act m := fun m' starved => enough m' (by rw [starved])
  rw [first m began]
  cases ran : act m with
  | ok a m₁ =>
    rw [ran] at enough
    exact onward a m₁ enough
  | error e m₁ => rfl

theorem Lasts.withScope {act act' : Run α} (scope : FrameId) (inside : Lasts act act') :
    Lasts (withScope scope act) (withScope scope act') := by
  intro m enough
  simp only [Enough, Run.withScope] at enough ⊢
  rw [inside _ fun m' starved => enough _ (by rw [starved])]

theorem Lasts.withInterpreter {act act' : Run Unit} (other : Interpreter) (inside : Lasts act act') :
    Lasts (withInterpreter other act) (withInterpreter other act') := by
  intro m enough
  simp only [Enough, Run.withInterpreter] at enough ⊢
  rw [inside _ fun m' starved => enough _ (by rw [starved])]

structure LastsCalls (world : World) (n k : Nat) : Prop where
  evaluate (expr : Expr) : Lasts (Run.evaluate world n expr) (Run.evaluate world k expr)
  evaluateAll (exprs : List Expr) : Lasts (Run.evaluateAll world n exprs) (Run.evaluateAll world k exprs)
  call (callable : Callable) (args : List Value) :
    Lasts (Run.call world n callable args) (Run.call world k callable args)
  runBody (frame : FrameId) (body : List Stmt) : Lasts (Run.runBody world n frame body) (Run.runBody world k frame body)
  execute (stmt : Stmt) : Lasts (Run.execute world n stmt) (Run.execute world k stmt)
  executeAll (stmts : List Stmt) : Lasts (Run.executeAll world n stmts) (Run.executeAll world k stmts)
  loop (condition : Expr) (body : List Stmt) : Lasts (Run.loop world n condition body) (Run.loop world k condition body)
  executeProgram (stmts : List Stmt) : Lasts (Run.executeProgram world n stmts) (Run.executeProgram world k stmts)
  importFile (path : Value) : Lasts (Run.importFile world n path) (Run.importFile world k path)

variable {world : World} {n k : Nat}

theorem LastsCalls.zero : LastsCalls world 0 k := by
  constructor <;> intros <;> exact .outOfFuel _

variable (ih : LastsCalls world n k)
include ih

theorem LastsCalls.evaluate_succ (expr : Expr) :
    Lasts (Run.evaluate world (n + 1) expr) (Run.evaluate world (k + 1) expr) := by
  rw [Run.evaluate.eq_def world (n + 1), Run.evaluate.eq_def world (k + 1)]
  cases expr with
  | literal | lookup | method => exact .refl _
  | group inner => exact ih.evaluate inner
  | assign name level value => exact .bind (ih.evaluate value) fun _ => .refl _
  | item target index =>
    refine .bind (ih.evaluate target) fun v => .bind (.refl _) fun list => ?_
    exact .bind (ih.evaluate index) fun _ => .refl _
  | setItem target index value =>
    refine .bind (ih.evaluate value) fun v => .bind (ih.evaluate target) fun w => .bind (.refl _) fun list => ?_
    exact .bind (ih.evaluate index) fun _ => .refl _
  | property target name => exact .bind (ih.evaluate target) fun _ => .refl _
  | setProperty target name value =>
    exact .bind (ih.evaluate value) fun _ => .bind (ih.evaluate target) fun _ => .refl _
  | unary op operand => exact .bind (ih.evaluate operand) fun _ => .refl _
  | binary left op right => exact .bind (ih.evaluate left) fun _ => .bind (ih.evaluate right) fun _ => .refl _
  | logical left op right =>
    refine .bind (ih.evaluate left) fun v => ?_
    cases op with
    | and =>
      dsimp only
      split
      · exact ih.evaluate right
      · exact .refl _
    | or =>
      dsimp only
      split
      · exact .refl _
      · exact ih.evaluate right
  | call callee args =>
    refine .bind (ih.evaluate callee) fun v => .bind (.refl _) fun callable => .bind (.refl _) fun _ => ?_
    exact .bind (ih.evaluateAll args) fun values => ih.call callable values
  | list items => exact .bind (ih.evaluateAll items) fun _ => .refl _
  | object properties => exact .bind (ih.evaluateAll _) fun _ => .refl _

theorem LastsCalls.evaluateAll_succ (exprs : List Expr) :
    Lasts (Run.evaluateAll world (n + 1) exprs) (Run.evaluateAll world (k + 1) exprs) := by
  rw [Run.evaluateAll.eq_def world (n + 1), Run.evaluateAll.eq_def world (k + 1)]
  cases exprs with
  | nil => exact .refl _
  | cons first rest => exact .bind (ih.evaluate first) fun _ => .bind (ih.evaluateAll rest) fun _ => .refl _

theorem LastsCalls.call_succ (callable : Callable) (args : List Value) :
    Lasts (Run.call world (n + 1) callable args) (Run.call world (k + 1) callable args) := by
  rw [Run.call.eq_def world (n + 1), Run.call.eq_def world (k + 1)]
  cases callable with
  | function name params body closure =>
    exact .bind (.refl _) fun frame => .bind (.refl _) fun _ => ih.runBody frame body
  | bound method receiver =>
    cases method with
    | script params body globals =>
      refine .bind (.refl _) fun around => .bind (.refl _) fun _ => .bind (.refl _) fun frame => ?_
      exact .bind (.refl _) fun _ => ih.runBody frame body
    | list | decoder => exact .refl _
  | builtin => exact .refl _

theorem LastsCalls.runBody_succ (frame : FrameId) (body : List Stmt) :
    Lasts (Run.runBody world (n + 1) frame body) (Run.runBody world (k + 1) frame body) := by
  rw [Run.runBody.eq_def world (n + 1), Run.runBody.eq_def world (k + 1)]
  exact .bind (.withScope frame (ih.executeAll body)) fun _ => .refl _

theorem LastsCalls.execute_succ (stmt : Stmt) :
    Lasts (Run.execute world (n + 1) stmt) (Run.execute world (k + 1) stmt) := by
  rw [Run.execute.eq_def world (n + 1), Run.execute.eq_def world (k + 1)]
  cases stmt with
  | expression value => exact .bind (ih.evaluate value) fun _ => .refl _
  | declare name initial =>
    cases initial with
    | none => exact .refl _
    | some initial => exact .bind (ih.evaluate initial) fun _ => .refl _
  | block body => exact .bind (.refl _) fun frame => .withScope frame (ih.executeAll body)
  | branch condition yes no =>
    refine .bind (ih.evaluate condition) fun v => ?_
    split
    · exact ih.execute yes
    · cases no with
      | none => exact .refl _
      | some no => exact ih.execute no
  | loop condition body => exact ih.loop condition body
  | giveBack value =>
    cases value with
    | none => exact .refl _
    | some value => exact .bind (ih.evaluate value) fun _ => .refl _
  | importFrom source => exact .bind (ih.evaluate source) fun path => .bind (ih.importFile path) fun _ => .refl _
  | exportAs name value => exact .bind (ih.evaluate value) fun _ => .refl _
  | function | leaveLoop | nextRound | empty => exact .refl _

theorem LastsCalls.executeAll_succ (stmts : List Stmt) :
    Lasts (Run.executeAll world (n + 1) stmts) (Run.executeAll world (k + 1) stmts) := by
  rw [Run.executeAll.eq_def world (n + 1), Run.executeAll.eq_def world (k + 1)]
  cases stmts with
  | nil => exact .refl _
  | cons first rest =>
    refine .bind (ih.execute first) fun done => ?_
    cases done with
    | normal => exact ih.executeAll rest
    | _ => exact .refl _

theorem LastsCalls.loop_succ (condition : Expr) (body : List Stmt) :
    Lasts (Run.loop world (n + 1) condition body) (Run.loop world (k + 1) condition body) := by
  rw [Run.loop.eq_def world (n + 1), Run.loop.eq_def world (k + 1)]
  refine .bind (ih.evaluate condition) fun v => ?_
  split
  · refine .bind (.refl _) fun frame => .bind (.withScope frame (ih.executeAll body)) fun done => ?_
    cases done with
    | leftLoop | returned => exact .refl _
    | normal | nextRound => exact ih.loop condition body
  · exact .refl _

theorem LastsCalls.executeProgram_succ (stmts : List Stmt) :
    Lasts (Run.executeProgram world (n + 1) stmts) (Run.executeProgram world (k + 1) stmts) := by
  rw [Run.executeProgram.eq_def world (n + 1), Run.executeProgram.eq_def world (k + 1)]
  cases stmts with
  | nil => exact .refl _
  | cons first rest =>
    refine .bind (ih.execute first) fun done => ?_
    cases done with
    | normal => exact ih.executeProgram rest
    | _ => exact .refl _

theorem LastsCalls.importFile_succ (path : Value) :
    Lasts (Run.importFile world (n + 1) path) (Run.importFile world (k + 1) path) := by
  rw [Run.importFile.eq_def world (n + 1), Run.importFile.eq_def world (k + 1)]
  cases path with
  | string path =>
    refine .bind (.refl _) fun own => ?_
    cases world.resolveFrom own.directory path with
    | error error => exact .refl _
    | ok place =>
      dsimp only
      split
      · exact .refl _
      · cases world.readText place with
        | error error => exact .refl _
        | ok text =>
          dsimp only
          cases Program.ofText text with
          | error errors => exact .refl _
          | ok program =>
            refine .bind (.refl _) fun imported => ?_
            exact .bind (.withInterpreter imported (ih.executeProgram program)) fun _ => .refl _
  | _ => exact .refl _

omit ih in
theorem lasts_calls (world : World) (more : n ≤ k) : LastsCalls world n k := by
  induction n generalizing k with
  | zero => exact .zero
  | succ n ih =>
    obtain ⟨k, rfl⟩ := Nat.exists_eq_add_one_of_ne_zero (Nat.ne_of_gt (Nat.lt_of_lt_of_le n.succ_pos more))
    have before := ih (Nat.le_of_succ_le_succ more)
    exact ⟨before.evaluate_succ, before.evaluateAll_succ, before.call_succ, before.runBody_succ, before.execute_succ,
      before.executeAll_succ, before.loop_succ, before.executeProgram_succ, before.importFile_succ⟩

end Run

end HookScript
