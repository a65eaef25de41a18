import HookScript.Proofs.Run.Deeds

/-!
What is left of a task when one that it has called on is at its end, however that one has ended. It is a course of deeds
as well, so what deeds leave as it is lasts from then on until the whole run is over.
-/

namespace HookScript

theorem Machine.after_bind_ok {α β : Type} {m m₁ : Machine} {act : Run α} {rest : α → Run β} {a : α}
    (ran : act m = .ok a m₁) : m.after (act >>= rest) = m₁.after (rest a) := by
  simp only [after, Bind.bind, EStateM.bind, ran]

namespace Run

variable {α β : Type} {world : World} {comes : Nat → Task → Machine → Prop} {n : Nat} {t t' : Task} {move : Move}
  {m m' m₁ : Machine}

theorem Course.rest {act : Run α} {rest : α → Run β}
    (second : ∀ a m₁, act m = .ok a m₁ → Does world comes m₁ (rest a)) :
    Course world comes (m.after act).heap (m.after (act >>= rest)).heap := by
  cases ran : act m with
  | ok a m₁ =>
    rw [Machine.after_bind_ok ran, Machine.after_of_ok ran]
    exact (second a m₁ ran).course
  | error e m₁ =>
    have same : (act >>= rest) m = .error e m₁ := by simp only [Bind.bind, EStateM.bind, ran]
    rw [Machine.after_of_error ran, Machine.after_of_error same]
    exact .refl

theorem heap_after_withScope (scope : FrameId) (act : Run α) (m : Machine) :
    (m.after (Run.withScope scope act)).heap = ((m.inFrame scope).after act).heap := by
  simp only [Machine.after, withScope_eq]
  cases act (m.inFrame scope) <;> rfl

theorem inNewScope_eq (act : Run α) (m : Machine) : (innerFrame >>= fun frame => Run.withScope frame act) m =
    match act m.opened with
    | .ok a m' => .ok a (m'.inFrame m.interpreter.scope)
    | .error e m' => .error e (m'.inFrame m.interpreter.scope) := rfl

theorem heap_after_inNewScope (act : Run α) (m : Machine) :
    (m.after (innerFrame >>= fun frame => Run.withScope frame act)).heap = (m.opened.after act).heap := by
  simp only [Machine.after, inNewScope_eq]
  cases act m.opened <;> rfl

theorem inNewScope_ok {act : Run α} {a : α} (ran : (innerFrame >>= fun frame => Run.withScope frame act) m = .ok a m₁) :
    ∃ m₂, act m.opened = .ok a m₂ ∧ m₁ = m₂.inFrame m.interpreter.scope := by
  rw [inNewScope_eq] at ran
  cases done : act m.opened with
  | ok b m₂ =>
    rw [done] at ran
    cases ran
    exact ⟨m₂, rfl, rfl⟩
  | error e m₂ =>
    rw [done] at ran
    cases ran

theorem heap_after_withInterpreter (other : Interpreter) (act : Run Unit) (m : Machine) :
    (m.after (Run.withInterpreter other act)).heap = (({ m with interpreter := other } : Machine).after act).heap := by
  simp only [Machine.after, withInterpreter_eq]
  cases act { m with interpreter := other } <;> rfl

theorem after_call {callee : Expr} {args : List Expr} {id : CallableId} {callable : Callable}
    (hc : Run.evaluate world n callee m = .ok (.callable id) m₁) (found : m₁.heap.callable? id = some callable)
    (arity : args.length = callable.arity) : m.after (Run.evaluate world (n + 1) (.call callee args)) =
      m₁.after (Run.evaluateAll world n args >>= Run.call world n callable) := by
  simp only [Machine.after, Run.evaluate, bind, EStateM.bind, hc, asCallable, readHeap, found, Callable.checkArity,
    arity, if_true, Run.ofExcept, pure, EStateM.pure]

theorem after_importFile {path text : String} {place : Path} {program : Program}
    (found : world.resolveFrom m.interpreter.directory path = .ok place) (fresh : place ∉ m.interpreter.imports)
    (read : world.readText place = .ok text) (accepted : Program.ofText text = .ok program) :
    m.after (Run.importFile world (n + 1) (.string path)) =
      Machine.after (Run.withInterpreter (m.importing place).interpreter (Run.executeProgram world n program) >>=
        fun exports => Run.changeHeap fun heap => ((), heap.declareAll m.interpreter.scope exports.entries))
          { m with heap := (m.importing place).heap } := by
  simp only [Machine.after, Run.importFile, bind, EStateM.bind, interpreter, found, if_neg fresh, read, accepted]
  rfl

theorem rest_assign {name : String} {level : Nat} {value : Expr}
    (came : comes (n + 1) (.evaluate (.assign name level value)) m)
    (enters : Enters world n move (.evaluate (.assign name level value)) m t' m') :
    Course world comes (t'.after world n m').heap
      (m.after (Run.evaluate world (n + 1) (.assign name level value))).heap := by
  cases enters with
  | assigned =>
    rw [Run.evaluate]
    refine .rest fun v m₁ hv => .bindInterpreter (.bindRead ?_)
    split
    · next frame found => exact .changeHeap (.deed came (.assign hv found))
    · exact .fault _ id

theorem rest_property {target : Expr} {name : String} (came : comes (n + 1) (.evaluate (.property target name)) m)
    (enters : Enters world n move (.evaluate (.property target name)) m t' m') :
    Course world comes (t'.after world n m').heap
      (m.after (Run.evaluate world (n + 1) (.property target name))).heap := by
  cases enters with
  | propertyTarget =>
    rw [Run.evaluate]
    exact .rest fun v m₁ ht => does_getProperty came ht

theorem rest_unary {op : UnaryOp} {operand : Expr}
    (enters : Enters world n move (.evaluate (.unary op operand)) m t' m') :
    Course world comes (t'.after world n m').heap
      (m.after (Run.evaluate world (n + 1) (.unary op operand))).heap := by
  cases enters with
  | operand =>
    rw [Run.evaluate]
    exact .rest fun _ _ _ => .ofExcept (UnaryOp.byOperands_apply _ _)

theorem rest_list {items : List Expr} (came : comes (n + 1) (.evaluate (.list items)) m)
    (enters : Enters world n move (.evaluate (.list items)) m t' m') :
    Course world comes (t'.after world n m').heap (m.after (Run.evaluate world (n + 1) (.list items))).heap := by
  cases enters with
  | items =>
    rw [Run.evaluate]
    exact .rest fun values m₁ hi => .bindChange (.deed came (.list hi)) (.pure _)

theorem rest_object {properties : List (String × Expr)} (came : comes (n + 1) (.evaluate (.object properties)) m)
    (enters : Enters world n move (.evaluate (.object properties)) m t' m') :
    Course world comes (t'.after world n m').heap
      (m.after (Run.evaluate world (n + 1) (.object properties))).heap := by
  cases enters with
  | properties =>
    rw [Run.evaluate]
    exact .rest fun values m₁ hp => .bindChange (.deed came (.object hp)) (.pure _)

theorem rest_importFile {path : Value} (came : comes (n + 1) (.importFile path) m)
    (enters : Enters world n move (.importFile path) m t' m') :
    Course world comes (t'.after world n m').heap (m.after (Run.importFile world (n + 1) path)).heap := by
  cases enters with
  | @program _ place _ program _ found fresh read accepted =>
    have inside : (Machine.after (Run.withInterpreter (m.importing place).interpreter
        (Run.executeProgram world n program)) { m with heap := (m.importing place).heap }).heap =
          ((m.importing place).after (Run.executeProgram world n program)).heap := heap_after_withInterpreter _ _ _
    rw [after_importFile found fresh read accepted, Task.after, ← inside]
    refine Course.rest fun exports m₁ ran => ?_
    obtain ⟨m₂, done, rfl, rfl⟩ := withInterpreter_ok ran
    exact .changeHeap (.deed came (.bindExports found fresh read accepted done))

section

variable (followed : Followed world comes)
include followed

theorem rest_item {target index : Expr} (came : comes (n + 1) (.evaluate (.item target index)) m)
    (enters : Enters world n move (.evaluate (.item target index)) m t' m') :
    Course world comes (t'.after world n m').heap
      (m.after (Run.evaluate world (n + 1) (.item target index))).heap := by
  have ih := does_tasks followed n
  cases enters with
  | itemTarget =>
    rw [Run.evaluate]
    exact .rest fun v m₁ ht => ih.item_rest followed came ht
  | itemIndex ht =>
    rw [Run.evaluate, Machine.after_bind_ok ht]
    exact .rest fun i m₃ _ => .bind (does_position _ _) fun _ _ _ => .of_ok rfl .refl

theorem rest_setItem {target index value : Expr} (came : comes (n + 1) (.evaluate (.setItem target index value)) m)
    (enters : Enters world n move (.evaluate (.setItem target index value)) m t' m') :
    Course world comes (t'.after world n m').heap
      (m.after (Run.evaluate world (n + 1) (.setItem target index value))).heap := by
  have ih := does_tasks followed n
  cases enters with
  | setItemValue =>
    rw [Run.evaluate]
    refine .rest fun v m₁ hv => ?_
    exact .bind (ih.enter followed came (.setItemTarget hv)) fun w m₂ ht => ih.setItem_rest followed came hv ht
  | setItemTarget hv =>
    rw [Run.evaluate, Machine.after_bind_ok hv]
    exact .rest fun w m₂ ht => ih.setItem_rest followed came hv ht
  | setItemIndex hv ht =>
    rw [Run.evaluate, Machine.after_bind_ok hv, Machine.after_bind_ok ht]
    exact .rest fun i m₄ hi => does_putItem came hv ht hi

theorem rest_setProperty {target value : Expr} {name : String}
    (came : comes (n + 1) (.evaluate (.setProperty target name value)) m)
    (enters : Enters world n move (.evaluate (.setProperty target name value)) m t' m') :
    Course world comes (t'.after world n m').heap
      (m.after (Run.evaluate world (n + 1) (.setProperty target name value))).heap := by
  have ih := does_tasks followed n
  cases enters with
  | setPropertyValue =>
    rw [Run.evaluate]
    refine .rest fun v m₁ hv => ?_
    exact .bind (ih.enter followed came (.setPropertyTarget hv)) fun w _ ht => does_setProperty came hv ht
  | setPropertyTarget hv =>
    rw [Run.evaluate, Machine.after_bind_ok hv]
    exact .rest fun w m₂ ht => does_setProperty came hv ht

theorem rest_binary {left right : Expr} {op : BinaryOp} (came : comes (n + 1) (.evaluate (.binary left op right)) m)
    (enters : Enters world n move (.evaluate (.binary left op right)) m t' m') :
    Course world comes (t'.after world n m').heap
      (m.after (Run.evaluate world (n + 1) (.binary left op right))).heap := by
  have ih := does_tasks followed n
  cases enters with
  | binaryLeft =>
    rw [Run.evaluate]
    refine .rest fun v m₁ hl => ?_
    exact .bind (ih.enter followed came (.binaryRight hl)) fun _ _ _ => .ofExcept (BinaryOp.byOperands_apply _ _ _)
  | binaryRight hl =>
    rw [Run.evaluate, Machine.after_bind_ok hl]
    exact .rest fun _ _ _ => .ofExcept (BinaryOp.byOperands_apply _ _ _)

theorem rest_logical {left right : Expr} {op : LogicalOp}
    (came : comes (n + 1) (.evaluate (.logical left op right)) m)
    (enters : Enters world n move (.evaluate (.logical left op right)) m t' m') :
    Course world comes (t'.after world n m').heap
      (m.after (Run.evaluate world (n + 1) (.logical left op right))).heap := by
  have ih := does_tasks followed n
  cases enters with
  | logicalLeft =>
    rw [Run.evaluate]
    exact .rest fun v m₁ hl => ih.logical_rest followed came hl
  | andRight hl truthy =>
    rw [Run.evaluate, Machine.after_bind_ok hl]
    simp only [if_pos truthy]
    exact .refl
  | orRight hl falsy =>
    rw [Run.evaluate, Machine.after_bind_ok hl]
    simp only [falsy]
    exact .refl

theorem rest_call {callee : Expr} {args : List Expr} (came : comes (n + 1) (.evaluate (.call callee args)) m)
    (enters : Enters world n move (.evaluate (.call callee args)) m t' m') :
    Course world comes (t'.after world n m').heap
      (m.after (Run.evaluate world (n + 1) (.call callee args))).heap := by
  have ih := does_tasks followed n
  cases enters with
  | callee =>
    rw [Run.evaluate]
    exact .rest fun v m₁ hc => ih.call_rest followed came hc
  | args hc found arity =>
    rw [after_call hc found arity]
    exact .rest fun values m₃ ha => ih.enter followed came (.called hc found arity ha)
  | called hc found arity ha =>
    rw [Machine.after, evaluate_call hc found arity ha]
    exact .refl

theorem rest_evaluate {expr : Expr} (came : comes (n + 1) (.evaluate expr) m)
    (enters : Enters world n move (.evaluate expr) m t' m') :
    Course world comes (t'.after world n m').heap (m.after (Run.evaluate world (n + 1) expr)).heap := by
  cases expr with
  | assign => exact rest_assign came enters
  | item => exact rest_item followed came enters
  | setItem => exact rest_setItem followed came enters
  | property => exact rest_property came enters
  | setProperty => exact rest_setProperty followed came enters
  | unary => exact rest_unary enters
  | binary => exact rest_binary followed came enters
  | logical => exact rest_logical followed came enters
  | call => exact rest_call followed came enters
  | list => exact rest_list came enters
  | object => exact rest_object came enters
  | group =>
    cases enters
    exact .refl
  | lookup | literal | method => cases enters

theorem rest_evaluateAll {exprs : List Expr} (came : comes (n + 1) (.evaluateAll exprs) m)
    (enters : Enters world n move (.evaluateAll exprs) m t' m') :
    Course world comes (t'.after world n m').heap (m.after (Run.evaluateAll world (n + 1) exprs)).heap := by
  have ih := does_tasks followed n
  cases enters with
  | firstExpr =>
    rw [Run.evaluateAll]
    exact .rest fun v m₁ hf => .bind (ih.enter followed came (.restExprs hf)) fun _ _ _ => .pure _
  | restExprs hf =>
    rw [Run.evaluateAll, Machine.after_bind_ok hf]
    exact .rest fun _ _ _ => .pure _

theorem rest_execute {stmt : Stmt} (came : comes (n + 1) (.execute stmt) m)
    (enters : Enters world n move (.execute stmt) m t' m') :
    Course world comes (t'.after world n m').heap (m.after (Run.execute world (n + 1) stmt)).heap := by
  have ih := does_tasks followed n
  cases enters with
  | value | returned =>
    rw [Run.execute]
    exact .rest fun _ _ _ => .pure _
  | initial =>
    rw [Run.execute]
    exact .rest fun v m₁ hv => .of_ok rfl (.deed came (.declareAs hv))
  | block =>
    rw [Run.execute, heap_after_inNewScope]
    exact .refl
  | branchCondition =>
    unfold Run.execute
    refine .rest fun v m₁ hc => ?_
    split
    · next truthy => exact ih.enter followed came (.yes hc truthy)
    · next falsy =>
      split
      · exact ih.enter followed came (.no hc (Bool.not_eq_true _ ▸ falsy))
      · exact .pure _
  | yes hc truthy =>
    unfold Run.execute
    rw [Machine.after_bind_ok hc]
    simp only [if_pos truthy]
    exact .refl
  | no hc falsy =>
    rw [Run.execute, Machine.after_bind_ok hc]
    simp only [falsy]
    exact .refl
  | loop => exact .refl
  | source =>
    rw [Run.execute]
    exact .rest fun path m₁ hs => .bind (ih.enter followed came (.importFile hs)) fun _ _ _ => .pure _
  | importFile hs =>
    rw [Run.execute, Machine.after_bind_ok hs]
    exact .rest fun _ _ _ => .pure _
  | exported =>
    rw [Run.execute]
    exact .rest fun _ _ _ => .of_ok rfl .refl

theorem rest_executeAll {stmts : List Stmt} (came : comes (n + 1) (.executeAll stmts) m)
    (enters : Enters world n move (.executeAll stmts) m t' m') :
    Course world comes (t'.after world n m').heap (m.after (Run.executeAll world (n + 1) stmts)).heap := by
  have ih := does_tasks followed n
  cases enters with
  | firstStmt =>
    rw [Run.executeAll]
    refine .rest fun done m₁ hf => ?_
    cases done with
    | normal => exact ih.enter followed came (.restStmts hf)
    | _ => exact .pure _
  | restStmts hf =>
    rw [Run.executeAll, Machine.after_bind_ok hf]
    exact .refl

theorem rest_loop {condition : Expr} {body : List Stmt} (came : comes (n + 1) (.loop condition body) m)
    (enters : Enters world n move (.loop condition body) m t' m') :
    Course world comes (t'.after world n m').heap (m.after (Run.loop world (n + 1) condition body)).heap := by
  have ih := does_tasks followed n
  cases enters with
  | loopCondition =>
    rw [Run.loop]
    refine .rest fun v m₁ hc => ?_
    split
    · next truthy =>
      refine .bind (.bindInterpreter (.changeHeap (.deed came (.round hc truthy)))) fun frame m₂ made => ?_
      cases made
      refine .bind (.withScope (ih.enter followed came (.loopBody hc truthy))) fun done m₃ ran => ?_
      obtain ⟨m₄, hb, rfl⟩ := withScope_ok ran
      cases done with
      | returned | leftLoop => exact .pure _
      | normal => exact ih.enter followed came (.nextRound hc truthy hb (.inl rfl))
      | nextRound => exact ih.enter followed came (.nextRound hc truthy hb (.inr rfl))
    · exact .pure _
  | loopBody hc truthy =>
    rw [Run.loop, Machine.after_bind_ok hc]
    simp only [if_pos truthy]
    rw [← bind_assoc, Task.after, ← heap_after_inNewScope]
    refine .rest fun done m₃ ran => ?_
    obtain ⟨m₄, hb, rfl⟩ := inNewScope_ok ran
    cases done with
    | returned | leftLoop => exact .pure _
    | normal => exact ih.enter followed came (.nextRound hc truthy hb (.inl rfl))
    | nextRound => exact ih.enter followed came (.nextRound hc truthy hb (.inr rfl))
  | nextRound hc truthy hb goesOn =>
    rw [Run.loop, Machine.after_bind_ok hc]
    simp only [if_pos truthy]
    rw [← bind_assoc, Machine.after_bind_ok ((inNewScope_eq _ _).trans (by rw [hb]))]
    obtain rfl | rfl := goesOn <;> exact .refl

theorem rest_executeProgram {stmts : List Stmt} (came : comes (n + 1) (.executeProgram stmts) m)
    (enters : Enters world n move (.executeProgram stmts) m t' m') :
    Course world comes (t'.after world n m').heap (m.after (Run.executeProgram world (n + 1) stmts)).heap := by
  have ih := does_tasks followed n
  cases enters with
  | firstOfProgram =>
    rw [Run.executeProgram]
    refine .rest fun done m₁ hf => ?_
    cases done with
    | normal => exact ih.enter followed came (.restOfProgram hf)
    | _ => exact .fault _ id
  | restOfProgram hf =>
    rw [Run.executeProgram, Machine.after_bind_ok hf]
    exact .refl

theorem Enters.rest (enters : Enters world n move t m t' m') (came : comes (n + 1) t m) :
    Course world comes (t'.after world n m').heap (t.after world (n + 1) m).heap := by
  cases t with
  | evaluate => exact rest_evaluate followed came enters
  | evaluateAll => exact rest_evaluateAll followed came enters
  | call =>
    cases enters with
    | functionBody entry =>
      cases entry
      exact .refl
    | methodBody outer entry =>
      cases outer
      cases entry
      exact .refl
  | runBody =>
    cases enters with
    | body =>
      rw [Task.after, Task.after, Run.runBody, ← heap_after_withScope]
      refine .rest fun done m₁ _ => ?_
      cases done with
      | normal | returned => exact .pure _
      | leftLoop | nextRound => exact .fault _ id
  | execute => exact rest_execute followed came enters
  | executeAll => exact rest_executeAll followed came enters
  | loop => exact rest_loop followed came enters
  | executeProgram => exact rest_executeProgram followed came enters
  | importFile => exact rest_importFile came enters

end

end Run
end HookScript
