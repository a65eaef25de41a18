import HookScript.Proofs.Run.Later

/-!
What every task leaves behind, by going through the evaluator once. `Task.later` holds of all tasks at once;
whoever uses it says in `S` which tasks there are. It shows at the same time that `Enters` misses none of the
calls.
-/

namespace HookScript

section

variable {world : World} {S : Nat → Task → Machine → Prop} {n : Nat} {m : Machine}

/-- Whatever a task in `S` calls on is in `S`, on any heap that has grown meanwhile. -/
def Run.Closed (world : World) (S : Nat → Task → Machine → Prop) : Prop :=
  ∀ ⦃n move t m t' m'⦄, S (n + 1) t m → Enters world n move t m t' m' → m.heap.Grows S m'.heap → S n t' m'

def Run.KeepsTasks (world : World) (S : Nat → Task → Machine → Prop) (n : Nat) : Prop :=
  ∀ t m, S n t m → m.Later S (t.after world n m)

/-- No jump of this kind may leave the task. -/
def Task.Bounds (jump : Jump) : Task → Prop
  | runBody _ _ => jump ≠ .giveBack
  | executeProgram _ => True
  | _ => False

/-- Why a task fails, unless it is by a plain fault of its own: it calls on one that fails, or on statements that end
by a jump which may not leave it. -/
inductive Task.Reason (world : World) (n : Nat) (t : Task) (m : Machine) : Stop → Prop
  | entered {move t' m' e} (enters : Run.Enters world n move t m t' m') (fails : t'.Fails world n m' e) :
    t.Reason world n m e
  | stray {move t' m' done m₁ jump} (enters : Run.Enters world n move t m t' m')
    (yields : t'.Yields world n m' done m₁) (jumps : done.jump? = some jump) (bounds : t.Bounds jump) :
    t.Reason world n m (.fault (.stray jump))

def Task.Keeps (world : World) (S : Nat → Task → Machine → Prop) (P : Stop → Prop) (n : Nat) :
    Task → Machine → Prop
  | evaluate expr, m => Run.Keeps S P m (Run.evaluate world n expr)
  | evaluateAll exprs, m => Run.Keeps S P m (Run.evaluateAll world n exprs)
  | call callable args, m => Run.Keeps S P m (Run.call world n callable args)
  | runBody frame body, m => Run.Keeps S P m (Run.runBody world n frame body)
  | execute stmt, m => Run.Keeps S P m (Run.execute world n stmt)
  | executeAll stmts, m => Run.Keeps S P m (Run.executeAll world n stmts)
  | loop condition body, m => Run.Keeps S P m (Run.loop world n condition body)
  | executeProgram stmts, m => Run.Keeps S P m (Run.executeProgram world n stmts)
  | importFile path, m => Run.Keeps S P m (Run.importFile world n path)

namespace Run

variable (closed : Closed world S) (ih : KeepsTasks world S n)
include closed ih

theorem KeepsTasks.enter {move : Move} {t t' : Task} {m' : Machine} (task : S (n + 1) t m)
    (enters : Enters world n move t m t' m') (grows : m.heap.Grows S m'.heap) :
    t'.Keeps world S (t.Reason world n m) n m' := by
  have later := ih _ _ (closed task enters grows)
  have reason {e : Stop} (fails : t'.Fails world n m' e) : e.Plain ∨ t.Reason world n m e :=
    .inr (.entered enters fails)
  cases t' <;> exact ⟨later, reason⟩

omit closed ih in
theorem keeps_lookup (name : String) (level : Nat) :
    Keeps S (Task.Reason world n (.evaluate (.lookup name level)) m) m
      (Run.evaluate world (n + 1) (.lookup name level)) := by
  rw [Run.evaluate]
  refine .bind (.lookup? level name) fun found m₁ _ _ => ?_
  cases found with
  | some value => exact .pure _
  | none => exact .fault _ (by rintro ⟨⟩)

theorem KeepsTasks.evaluate_assign {name : String} {level : Nat} {value : Expr}
    (task : S (n + 1) (.evaluate (.assign name level value)) m) :
    Keeps S (Task.Reason world n (.evaluate (.assign name level value)) m) m
      (Run.evaluate world (n + 1) (.assign name level value)) := by
  rw [Run.evaluate]
  refine .bind (ih.enter closed task .assigned (.refl _)) fun v m₁ _ _ => ?_
  refine .bindInterpreter (.bindRead ?_)
  split
  · exact .changeHeap (Heap.grows_declare _ _ _ _)
  · exact .fault _ (by rintro ⟨⟩)

theorem KeepsTasks.evaluate_item {target index : Expr} (task : S (n + 1) (.evaluate (.item target index)) m) :
    Keeps S (Task.Reason world n (.evaluate (.item target index)) m) m
      (Run.evaluate world (n + 1) (.item target index)) := by
  rw [Run.evaluate]
  refine .bind (ih.enter closed task .itemTarget (.refl _)) fun v m₁ ht later => ?_
  refine .bind (keeps_asList v) fun list m₂ isList _ => ?_
  obtain ⟨rfl, rfl⟩ := asList_ok isList
  refine .bind (ih.enter closed task (.itemIndex ht) later.grows) fun i m₃ _ _ => ?_
  exact .bind (keeps_position _ _) fun _ _ _ _ => .readHeap _

theorem KeepsTasks.evaluate_setItem {target index value : Expr}
    (task : S (n + 1) (.evaluate (.setItem target index value)) m) :
    Keeps S (Task.Reason world n (.evaluate (.setItem target index value)) m) m
      (Run.evaluate world (n + 1) (.setItem target index value)) := by
  rw [Run.evaluate]
  refine .bind (ih.enter closed task .setItemValue (.refl _)) fun v m₁ hv later₁ => ?_
  refine .bind (ih.enter closed task (.setItemTarget hv) later₁.grows) fun w m₂ ht later₂ => ?_
  refine .bind (keeps_asList w) fun list m₃ isList _ => ?_
  obtain ⟨rfl, rfl⟩ := asList_ok isList
  refine .bind (ih.enter closed task (.setItemIndex hv ht) (later₁.trans later₂).grows) fun i m₄ _ _ => ?_
  exact .bind (keeps_position _ _) fun _ _ _ _ => .changeData ⟨rfl, rfl, rfl⟩

theorem KeepsTasks.evaluate_property {target : Expr} {name : String}
    (task : S (n + 1) (.evaluate (.property target name)) m) :
    Keeps S (Task.Reason world n (.evaluate (.property target name)) m) m
      (Run.evaluate world (n + 1) (.property target name)) := by
  exact .bind (ih.enter closed task .propertyTarget (.refl _)) fun v _ _ _ => keeps_getProperty v name

theorem KeepsTasks.evaluate_setProperty {target value : Expr} {name : String}
    (task : S (n + 1) (.evaluate (.setProperty target name value)) m) :
    Keeps S (Task.Reason world n (.evaluate (.setProperty target name value)) m) m
      (Run.evaluate world (n + 1) (.setProperty target name value)) := by
  rw [Run.evaluate]
  refine .bind (ih.enter closed task .setPropertyValue (.refl _)) fun v m₁ hv later => ?_
  exact .bind (ih.enter closed task (.setPropertyTarget hv) later.grows) fun w _ _ _ =>
    keeps_setProperty w name v

theorem KeepsTasks.evaluate_unary {op : UnaryOp} {operand : Expr}
    (task : S (n + 1) (.evaluate (.unary op operand)) m) :
    Keeps S (Task.Reason world n (.evaluate (.unary op operand)) m) m
      (Run.evaluate world (n + 1) (.unary op operand)) := by
  exact .bind (ih.enter closed task .operand (.refl _)) fun _ _ _ _ => .ofExcept (op.byOperands_apply _).plain

theorem KeepsTasks.evaluate_binary {left right : Expr} {op : BinaryOp}
    (task : S (n + 1) (.evaluate (.binary left op right)) m) :
    Keeps S (Task.Reason world n (.evaluate (.binary left op right)) m) m
      (Run.evaluate world (n + 1) (.binary left op right)) := by
  rw [Run.evaluate]
  refine .bind (ih.enter closed task .binaryLeft (.refl _)) fun v m₁ hl later => ?_
  exact .bind (ih.enter closed task (.binaryRight hl) later.grows) fun _ _ _ _ => .ofExcept (op.byOperands_apply _ _).plain

theorem KeepsTasks.evaluate_logical {left right : Expr} {op : LogicalOp}
    (task : S (n + 1) (.evaluate (.logical left op right)) m) :
    Keeps S (Task.Reason world n (.evaluate (.logical left op right)) m) m
      (Run.evaluate world (n + 1) (.logical left op right)) := by
  rw [Run.evaluate]
  refine .bind (ih.enter closed task .logicalLeft (.refl _)) fun v m₁ hl later => ?_
  cases op with
  | and =>
    dsimp only
    split
    · next truthy => exact ih.enter closed task (.andRight hl truthy) later.grows
    · exact .pure _
  | or =>
    dsimp only
    split
    · exact .pure _
    · next falsy => exact ih.enter closed task (.orRight hl (Bool.not_eq_true _ ▸ falsy)) later.grows

theorem KeepsTasks.evaluate_call {callee : Expr} {args : List Expr}
    (task : S (n + 1) (.evaluate (.call callee args)) m) :
    Keeps S (Task.Reason world n (.evaluate (.call callee args)) m) m
      (Run.evaluate world (n + 1) (.call callee args)) := by
  rw [Run.evaluate]
  refine .bind (ih.enter closed task .callee (.refl _)) fun v m₁ hc later₁ => ?_
  refine .bind (keeps_asCallable v) fun callable m₂ isCallable _ => ?_
  obtain ⟨id, rfl, found, rfl⟩ := asCallable_ok isCallable
  refine .bindExcept (callable.byOperands_checkArity _).plain fun _ checked => ?_
  have arity := Callable.checkArity_ok checked
  refine .bind (ih.enter closed task (.args hc found arity) later₁.grows) fun values m₃ ha later₂ => ?_
  exact ih.enter closed task (.called hc found arity ha) (later₁.trans later₂).grows

theorem KeepsTasks.evaluate_list {items : List Expr} (task : S (n + 1) (.evaluate (.list items)) m) :
    Keeps S (Task.Reason world n (.evaluate (.list items)) m) m (Run.evaluate world (n + 1) (.list items)) := by
  rw [Run.evaluate]
  refine .bind (ih.enter closed task .items (.refl _)) fun values m₁ _ _ => ?_
  exact .bindChange (Heap.SameCode.grows ⟨rfl, rfl, rfl⟩) (.pure _)

theorem KeepsTasks.evaluate_object {properties : List (String × Expr)}
    (task : S (n + 1) (.evaluate (.object properties)) m) :
    Keeps S (Task.Reason world n (.evaluate (.object properties)) m) m
      (Run.evaluate world (n + 1) (.object properties)) := by
  rw [Run.evaluate]
  refine .bind (ih.enter closed task .properties (.refl _)) fun values m₁ _ _ => ?_
  exact .bindChange (Heap.SameCode.grows ⟨rfl, rfl, rfl⟩) (.pure _)

omit closed ih in
theorem keeps_method {params : List String} {body : List Stmt}
    (task : S (n + 1) (.evaluate (.method params body)) m) :
    Keeps S (Task.Reason world n (.evaluate (.method params body)) m) m
      (Run.evaluate world (n + 1) (.method params body)) := by
  rw [Run.evaluate]
  exact .bindInterpreter (.bindChange (Heap.grows_newMethod task) (.pure _))

theorem KeepsTasks.evaluate {expr : Expr} (task : S (n + 1) (.evaluate expr) m) :
    Keeps S (Task.Reason world n (.evaluate expr) m) m (Run.evaluate world (n + 1) expr) := by
  cases expr with
  | literal literal => exact .pure _
  | group inner => exact ih.enter closed task .inner (.refl _)
  | lookup name level => exact keeps_lookup name level
  | assign => exact ih.evaluate_assign closed task
  | item => exact ih.evaluate_item closed task
  | setItem => exact ih.evaluate_setItem closed task
  | property => exact ih.evaluate_property closed task
  | setProperty => exact ih.evaluate_setProperty closed task
  | unary => exact ih.evaluate_unary closed task
  | binary => exact ih.evaluate_binary closed task
  | logical => exact ih.evaluate_logical closed task
  | call => exact ih.evaluate_call closed task
  | list => exact ih.evaluate_list closed task
  | object => exact ih.evaluate_object closed task
  | method => exact keeps_method task

theorem KeepsTasks.evaluateAll {exprs : List Expr} (task : S (n + 1) (.evaluateAll exprs) m) :
    Keeps S (Task.Reason world n (.evaluateAll exprs) m) m (Run.evaluateAll world (n + 1) exprs) := by
  cases exprs with
  | nil => exact .pure _
  | cons first rest =>
    rw [Run.evaluateAll]
    refine .bind (ih.enter closed task .firstExpr (.refl _)) fun v m₁ hf later => ?_
    exact .bind (ih.enter closed task (.restExprs hf) later.grows) fun _ _ _ _ => .pure _

theorem KeepsTasks.call {callable : Callable} {args : List Value} (task : S (n + 1) (.call callable args) m) :
    Keeps S (Task.Reason world n (.call callable args) m) m (Run.call world (n + 1) callable args) := by
  cases callable with
  | function name params body closure =>
    rw [Run.call]
    have grows : m.heap.Grows S (m.heap.frameWith closure (params.zip args)).2 := Heap.grows_frameWith rfl
    refine .bindChange (Heap.grows_newFrame _ _) (.bind (.bindParams _ _ _) fun _ m₁ bound _ => ?_)
    cases bound
    exact ih.enter closed task (.functionBody rfl) grows
  | bound method receiver =>
    cases method with
    | script params body globals =>
      rw [Run.call]
      refine .bindChange (Heap.grows_newFrame _ _) (.bind (.bindParams _ _ _) fun _ m₁ bound _ => ?_)
      cases bound
      refine .bindChange (Heap.grows_newFrame _ _) (.bind (.bindParams _ _ _) fun _ m₂ bound _ => ?_)
      cases bound
      exact ih.enter closed task (.methodBody rfl rfl)
        ((Heap.grows_frameWith rfl).trans (Heap.grows_frameWith rfl))
    | list method => exact keeps_callListMethod method receiver _
    | decoder format id => exact keeps_callDecoder world id
  | builtin builtin => exact keeps_callBuiltin builtin _

theorem KeepsTasks.runBody {frame : FrameId} {body : List Stmt} (task : S (n + 1) (.runBody frame body) m) :
    Keeps S (Task.Reason world n (.runBody frame body) m) m (Run.runBody world (n + 1) frame body) := by
  rw [Run.runBody]
  refine .bind (.withScope (ih.enter closed task .body (.refl _))) fun done m₁ ran _ => ?_
  obtain ⟨m₂, yields, rfl⟩ := withScope_ok ran
  cases done with
  | normal | returned => exact .pure _
  | leftLoop | nextRound => exact .of_error rfl (.refl _) (.inr (.stray .body yields rfl nofun))

theorem KeepsTasks.execute {stmt : Stmt} (task : S (n + 1) (.execute stmt) m) :
    Keeps S (Task.Reason world n (.execute stmt) m) m (Run.execute world (n + 1) stmt) := by
  cases stmt with
  | expression value => exact .bind (ih.enter closed task .value (.refl _)) fun _ _ _ _ => .pure _
  | declare name initial =>
    cases initial with
    | none => exact .bind (.declare name .nil) fun _ _ _ _ => .pure _
    | some initial =>
      rw [Run.execute]
      refine .bind (ih.enter closed task .initial (.refl _)) fun v m₁ _ _ => ?_
      exact .bind (.declare name v) fun _ _ _ _ => .pure _
  | block body =>
    rw [Run.execute]
    refine .bind (.bindInterpreter (.changeHeap (Heap.grows_newFrame _ _))) fun frame m₁ made _ => ?_
    cases made
    exact .withScope (ih.enter closed task .block (Heap.grows_newFrame _ _))
  | branch condition yes no =>
    unfold Run.execute
    refine .bind (ih.enter closed task .branchCondition (.refl _)) fun v m₁ hc later => ?_
    split
    · next truthy => exact ih.enter closed task (.yes hc truthy) later.grows
    · next falsy =>
      cases no with
      | none => exact .pure _
      | some no => exact ih.enter closed task (.no hc (Bool.not_eq_true _ ▸ falsy)) later.grows
  | loop condition body => exact ih.enter closed task .loop (.refl _)
  | function name params body =>
    rw [Run.execute]
    refine .bindInterpreter ?_
    have grows : m.Later S { m with heap := m.heap.withFunction m.interpreter.scope name params body } :=
      ⟨Heap.grows_withFunction task, rfl⟩
    exact .of_ok rfl grows
  | giveBack value =>
    cases value with
    | none => exact .pure _
    | some value => exact .bind (ih.enter closed task .returned (.refl _)) fun _ _ _ _ => .pure _
  | leaveLoop | nextRound | empty => exact .pure _
  | importFrom source =>
    rw [Run.execute]
    refine .bind (ih.enter closed task .source (.refl _)) fun path m₁ hs later => ?_
    exact .bind (ih.enter closed task (.importFile hs) later.grows) fun _ _ _ _ => .pure _
  | exportAs name value =>
    rw [Run.execute]
    refine .bind (ih.enter closed task .exported (.refl _)) fun v m₁ _ _ => ?_
    exact .bind (.addExport name v) fun _ _ _ _ => .pure _

theorem KeepsTasks.executeAll {stmts : List Stmt} (task : S (n + 1) (.executeAll stmts) m) :
    Keeps S (Task.Reason world n (.executeAll stmts) m) m (Run.executeAll world (n + 1) stmts) := by
  cases stmts with
  | nil => exact .pure _
  | cons first rest =>
    rw [Run.executeAll]
    refine .bind (ih.enter closed task .firstStmt (.refl _)) fun done m₁ hf later => ?_
    cases done with
    | normal => exact ih.enter closed task (.restStmts hf) later.grows
    | _ => exact .pure _

theorem KeepsTasks.loop {condition : Expr} {body : List Stmt} (task : S (n + 1) (.loop condition body) m) :
    Keeps S (Task.Reason world n (.loop condition body) m) m (Run.loop world (n + 1) condition body) := by
  rw [Run.loop]
  refine .bind (ih.enter closed task .loopCondition (.refl _)) fun v m₁ hc later₁ => ?_
  split
  · next truthy =>
    refine .bind (.bindInterpreter (.changeHeap (Heap.grows_newFrame _ _))) fun frame m₂ made later₂ => ?_
    cases made
    have inside := ih.enter closed task (.loopBody hc truthy) (later₁.trans later₂).grows
    refine .bind (.withScope inside) fun done m₃ ran later₃ => ?_
    obtain ⟨m₄, hb, rfl⟩ := withScope_ok ran
    have grows := (later₁.trans (later₂.trans later₃)).grows
    cases done with
    | returned | leftLoop => exact .pure _
    | normal => exact ih.enter closed task (.nextRound hc truthy hb (.inl rfl)) grows
    | nextRound => exact ih.enter closed task (.nextRound hc truthy hb (.inr rfl)) grows
  · exact .pure _

theorem KeepsTasks.executeProgram {stmts : List Stmt} (task : S (n + 1) (.executeProgram stmts) m) :
    Keeps S (Task.Reason world n (.executeProgram stmts) m) m
      (Run.executeProgram world (n + 1) stmts) := by
  cases stmts with
  | nil => exact .pure _
  | cons first rest =>
    rw [Run.executeProgram]
    refine .bind (ih.enter closed task .firstOfProgram (.refl _)) fun done m₁ hf later => ?_
    cases done with
    | normal => exact ih.enter closed task (.restOfProgram hf) later.grows
    | _ => exact .of_error rfl (.refl _) (.inr (.stray .firstOfProgram hf rfl trivial))

theorem KeepsTasks.importFile {path : Value} (task : S (n + 1) (.importFile path) m) :
    Keeps S (Task.Reason world n (.importFile path) m) m (Run.importFile world (n + 1) path) := by
  cases path with
  | string path =>
    rw [Run.importFile]
    refine .bindInterpreter ?_
    split
    · exact .fault _ nofun
    · next place found =>
      split
      · exact .fault _ nofun
      · next fresh =>
        split
        · exact .fault _ nofun
        · next text read =>
          split
          · exact .fault _ nofun
          · next program accepted =>
            have grows := Interpreter.grows_start (S := S) m.heap (some place.parent)
              (m.interpreter.imports ++ [place])
            have inside := ih.enter closed task (.program found fresh read accepted) grows
            refine .bindChange grows (.bind (.withInterpreter inside) fun exports m₁ _ _ => ?_)
            exact .changeOnly (Heap.grows_declareAll _ _ _)
  | _ => exact .bind (.text _) fun _ _ _ _ => .fault _ nofun

end Run

variable (closed : Run.Closed world S)
include closed

theorem Run.KeepsTasks.keeps (ih : KeepsTasks world S n) {t : Task} (task : S (n + 1) t m) :
    t.Keeps world S (t.Reason world n m) (n + 1) m := by
  cases t with
  | evaluate => exact KeepsTasks.evaluate closed ih task
  | evaluateAll => exact KeepsTasks.evaluateAll closed ih task
  | call => exact KeepsTasks.call closed ih task
  | runBody => exact KeepsTasks.runBody closed ih task
  | execute => exact KeepsTasks.execute closed ih task
  | executeAll => exact KeepsTasks.executeAll closed ih task
  | loop => exact KeepsTasks.loop closed ih task
  | executeProgram => exact KeepsTasks.executeProgram closed ih task
  | importFile => exact KeepsTasks.importFile closed ih task

theorem Task.later : Run.KeepsTasks world S n := by
  induction n with
  | zero =>
    intro t m _
    cases t <;> exact .refl m
  | succ n ih =>
    intro t m task
    have keeps := Run.KeepsTasks.keeps closed ih task
    cases t <;> exact keeps.later

end

/-- A task that fails without a plain fault has the reason for it among the tasks that it enters. So no call of the
evaluator is missing among them. -/
theorem Task.reason {world : World} {n : Nat} {t : Task} {m : Machine} {e : Stop}
    (fails : t.Fails world (n + 1) m e) : e.Plain ∨ t.Reason world n m e := by
  have closed : Run.Closed world fun _ _ _ => True := fun _ _ _ _ _ _ _ _ _ => trivial
  have keeps := Run.KeepsTasks.keeps closed (Task.later (n := n) closed) (t := t) (m := m) trivial
  cases t <;> exact keeps.reason fails

end HookScript
