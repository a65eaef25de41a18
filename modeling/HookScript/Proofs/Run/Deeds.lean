import HookScript.Proofs.Run.Course

/-!
Every run is a course of deeds, by going through the evaluator once. The same holds up to any task that a run calls on.
-/

namespace HookScript

namespace Run

variable {world : World} {comes : Nat → Task → Machine → Prop} {n : Nat} {m : Machine}

/-- What the given tasks call on is among them. -/
def Followed (world : World) (comes : Nat → Task → Machine → Prop) : Prop :=
  ∀ ⦃n move t m t' m'⦄, comes (n + 1) t m → Enters world n move t m t' m' → comes n t' m'

end Run

def Task.Does (world : World) (comes : Nat → Task → Machine → Prop) (n : Nat) : Task → Machine → Prop
  | evaluate expr, m => Run.Does world comes m (Run.evaluate world n expr)
  | evaluateAll exprs, m => Run.Does world comes m (Run.evaluateAll world n exprs)
  | call callable args, m => Run.Does world comes m (Run.call world n callable args)
  | runBody frame body, m => Run.Does world comes m (Run.runBody world n frame body)
  | execute stmt, m => Run.Does world comes m (Run.execute world n stmt)
  | executeAll stmts, m => Run.Does world comes m (Run.executeAll world n stmts)
  | loop condition body, m => Run.Does world comes m (Run.loop world n condition body)
  | executeProgram stmts, m => Run.Does world comes m (Run.executeProgram world n stmts)
  | importFile path, m => Run.Does world comes m (Run.importFile world n path)

namespace Run

def DoesTasks (world : World) (comes : Nat → Task → Machine → Prop) (n : Nat) : Prop :=
  ∀ t m, comes n t m → t.Does world comes n m

section

variable {world : World} {comes : Nat → Task → Machine → Prop} {n : Nat} {m : Machine}

theorem does_putItem {target index value : Expr} {v i : Value} {list : ListId} {m₁ m₂ m₃ : Machine}
    (came : comes (n + 1) (.evaluate (.setItem target index value)) m) (hv : Run.evaluate world n value m = .ok v m₁)
    (ht : Run.evaluate world n target m₁ = .ok (.list list) m₂) (hi : Run.evaluate world n index m₂ = .ok i m₃) :
    Does world comes m₃ (position list i >>= fun k => Run.changeHeap fun heap => (v, heap.setItem list k v)) := by
  refine .bind (does_position _ _) fun k m₄ hk => ?_
  obtain rfl := position_ok hk
  exact .changeHeap (.deed came (.setItem hv ht hi hk))

end

namespace DoesTasks

variable {world : World} {comes : Nat → Task → Machine → Prop} {n : Nat} {m m₁ m₂ : Machine} {v w : Value}
variable (followed : Followed world comes) (ih : DoesTasks world comes n)
include followed ih

theorem enter {move : Move} {t t' : Task} {m' : Machine} (came : comes (n + 1) t m)
    (enters : Enters world n move t m t' m') : t'.Does world comes n m' := ih _ _ (followed came enters)

omit followed ih in
theorem evaluate_lookup (name : String) (level : Nat) :
    Does world comes m (Run.evaluate world (n + 1) (.lookup name level)) := by
  rw [Run.evaluate]
  refine .bind (.of_ok rfl .refl) fun found m₁ _ => ?_
  cases found with
  | some value => exact .pure _
  | none => exact .fault _ id

theorem evaluate_assign {name : String} {level : Nat} {value : Expr}
    (came : comes (n + 1) (.evaluate (.assign name level value)) m) :
    Does world comes m (Run.evaluate world (n + 1) (.assign name level value)) := by
  rw [Run.evaluate]
  refine .bind (ih.enter followed came .assigned) fun v m₁ hv => ?_
  refine .bindInterpreter (.bindRead ?_)
  split
  · next frame found => exact .changeHeap (.deed came (.assign hv found))
  · exact .fault _ id

theorem item_rest {target index : Expr} (came : comes (n + 1) (.evaluate (.item target index)) m)
    (ht : Run.evaluate world n target m = .ok v m₁) :
    Does world comes m₁ (do
      let list ← asList v
      let i ← position list (← Run.evaluate world n index)
      Run.readHeap fun heap => (heap.items list).getD i .nil) := by
  refine .bind (does_asList v) fun list m₂ isList => ?_
  obtain ⟨rfl, rfl⟩ := asList_ok isList
  refine .bind (ih.enter followed came (.itemIndex ht)) fun i m₃ _ => ?_
  exact .bind (does_position _ _) fun _ _ _ => .of_ok rfl .refl

theorem evaluate_item {target index : Expr} (came : comes (n + 1) (.evaluate (.item target index)) m) :
    Does world comes m (Run.evaluate world (n + 1) (.item target index)) := by
  rw [Run.evaluate]
  exact .bind (ih.enter followed came .itemTarget) fun v m₁ ht => ih.item_rest followed came ht

theorem setItem_rest {target index value : Expr} (came : comes (n + 1) (.evaluate (.setItem target index value)) m)
    (hv : Run.evaluate world n value m = .ok v m₁) (ht : Run.evaluate world n target m₁ = .ok w m₂) :
    Does world comes m₂ (do
      let list ← asList w
      let i ← position list (← Run.evaluate world n index)
      Run.changeHeap fun heap => (v, heap.setItem list i v)) := by
  refine .bind (does_asList w) fun list m₃ isList => ?_
  obtain ⟨rfl, rfl⟩ := asList_ok isList
  exact .bind (ih.enter followed came (.setItemIndex hv ht)) fun i m₄ hi => does_putItem came hv ht hi

theorem evaluate_setItem {target index value : Expr}
    (came : comes (n + 1) (.evaluate (.setItem target index value)) m) :
    Does world comes m (Run.evaluate world (n + 1) (.setItem target index value)) := by
  rw [Run.evaluate]
  refine .bind (ih.enter followed came .setItemValue) fun v m₁ hv => ?_
  exact .bind (ih.enter followed came (.setItemTarget hv)) fun w m₂ ht => ih.setItem_rest followed came hv ht

theorem evaluate_property {target : Expr} {name : String}
    (came : comes (n + 1) (.evaluate (.property target name)) m) :
    Does world comes m (Run.evaluate world (n + 1) (.property target name)) := by
  exact .bind (ih.enter followed came .propertyTarget) fun v _ ht => does_getProperty came ht

theorem evaluate_setProperty {target value : Expr} {name : String}
    (came : comes (n + 1) (.evaluate (.setProperty target name value)) m) :
    Does world comes m (Run.evaluate world (n + 1) (.setProperty target name value)) := by
  rw [Run.evaluate]
  refine .bind (ih.enter followed came .setPropertyValue) fun v m₁ hv => ?_
  exact .bind (ih.enter followed came (.setPropertyTarget hv)) fun w _ ht => does_setProperty came hv ht

theorem evaluate_unary {op : UnaryOp} {operand : Expr} (came : comes (n + 1) (.evaluate (.unary op operand)) m) :
    Does world comes m (Run.evaluate world (n + 1) (.unary op operand)) := by
  exact .bind (ih.enter followed came .operand) fun _ _ _ => .ofExcept (op.byOperands_apply _)

theorem evaluate_binary {left right : Expr} {op : BinaryOp}
    (came : comes (n + 1) (.evaluate (.binary left op right)) m) :
    Does world comes m (Run.evaluate world (n + 1) (.binary left op right)) := by
  rw [Run.evaluate]
  refine .bind (ih.enter followed came .binaryLeft) fun v m₁ hl => ?_
  exact .bind (ih.enter followed came (.binaryRight hl)) fun _ _ _ => .ofExcept (op.byOperands_apply _ _)

theorem logical_rest {left right : Expr} {op : LogicalOp} (came : comes (n + 1) (.evaluate (.logical left op right)) m)
    (hl : Run.evaluate world n left m = .ok v m₁) :
    Does world comes m₁ (match op with
      | .and => if v.isTruthy then Run.evaluate world n right else pure v
      | .or => if v.isTruthy then pure v else Run.evaluate world n right) := by
  cases op with
  | and =>
    dsimp only
    split
    · next truthy => exact ih.enter followed came (.andRight hl truthy)
    · exact .pure _
  | or =>
    dsimp only
    split
    · exact .pure _
    · next falsy => exact ih.enter followed came (.orRight hl (Bool.not_eq_true _ ▸ falsy))

theorem evaluate_logical {left right : Expr} {op : LogicalOp}
    (came : comes (n + 1) (.evaluate (.logical left op right)) m) :
    Does world comes m (Run.evaluate world (n + 1) (.logical left op right)) := by
  rw [Run.evaluate]
  exact .bind (ih.enter followed came .logicalLeft) fun v m₁ hl => ih.logical_rest followed came hl

theorem call_rest {callee : Expr} {args : List Expr} (came : comes (n + 1) (.evaluate (.call callee args)) m)
    (hc : Run.evaluate world n callee m = .ok v m₁) :
    Does world comes m₁ (do
      let callable ← asCallable v
      ofExcept (callable.checkArity args.length)
      let args ← Run.evaluateAll world n args
      Run.call world n callable args) := by
  refine .bind (does_asCallable v) fun callable m₂ isCallable => ?_
  obtain ⟨id, rfl, found, rfl⟩ := asCallable_ok isCallable
  refine .bindExcept (callable.byOperands_checkArity _) fun _ checked => ?_
  have arity := Callable.checkArity_ok checked
  refine .bind (ih.enter followed came (.args hc found arity)) fun values m₃ ha => ?_
  exact ih.enter followed came (.called hc found arity ha)

theorem evaluate_call {callee : Expr} {args : List Expr} (came : comes (n + 1) (.evaluate (.call callee args)) m) :
    Does world comes m (Run.evaluate world (n + 1) (.call callee args)) := by
  rw [Run.evaluate]
  exact .bind (ih.enter followed came .callee) fun v m₁ hc => ih.call_rest followed came hc

theorem evaluate_list {items : List Expr} (came : comes (n + 1) (.evaluate (.list items)) m) :
    Does world comes m (Run.evaluate world (n + 1) (.list items)) := by
  rw [Run.evaluate]
  refine .bind (ih.enter followed came .items) fun values m₁ hi => ?_
  exact .bindChange (.deed came (.list hi)) (.pure _)

theorem evaluate_object {properties : List (String × Expr)}
    (came : comes (n + 1) (.evaluate (.object properties)) m) :
    Does world comes m (Run.evaluate world (n + 1) (.object properties)) := by
  rw [Run.evaluate]
  refine .bind (ih.enter followed came .properties) fun values m₁ hp => ?_
  exact .bindChange (.deed came (.object hp)) (.pure _)

omit followed ih in
theorem evaluate_method {params : List String} {body : List Stmt}
    (came : comes (n + 1) (.evaluate (.method params body)) m) :
    Does world comes m (Run.evaluate world (n + 1) (.method params body)) := by
  rw [Run.evaluate]
  exact .bindInterpreter (.bindChange (.deed came .method) (.pure _))

theorem evaluate {expr : Expr} (came : comes (n + 1) (.evaluate expr) m) :
    Does world comes m (Run.evaluate world (n + 1) expr) := by
  cases expr with
  | literal literal => exact .pure _
  | group inner => exact ih.enter followed came .inner
  | lookup name level => exact evaluate_lookup name level
  | assign => exact ih.evaluate_assign followed came
  | item => exact ih.evaluate_item followed came
  | setItem => exact ih.evaluate_setItem followed came
  | property => exact ih.evaluate_property followed came
  | setProperty => exact ih.evaluate_setProperty followed came
  | unary => exact ih.evaluate_unary followed came
  | binary => exact ih.evaluate_binary followed came
  | logical => exact ih.evaluate_logical followed came
  | call => exact ih.evaluate_call followed came
  | list => exact ih.evaluate_list followed came
  | object => exact ih.evaluate_object followed came
  | method => exact evaluate_method came

theorem evaluateAll {exprs : List Expr} (came : comes (n + 1) (.evaluateAll exprs) m) :
    Does world comes m (Run.evaluateAll world (n + 1) exprs) := by
  cases exprs with
  | nil => exact .pure _
  | cons first rest =>
    rw [Run.evaluateAll]
    refine .bind (ih.enter followed came .firstExpr) fun v m₁ hf => ?_
    exact .bind (ih.enter followed came (.restExprs hf)) fun _ _ _ => .pure _

theorem call {callable : Callable} {args : List Value} (came : comes (n + 1) (.call callable args) m) :
    Does world comes m (Run.call world (n + 1) callable args) := by
  cases callable with
  | function name params body closure =>
    have entered := ih.enter followed came (.functionBody rfl)
    have first : Course world comes m.heap _ := .deed came .callFunction
    exact ⟨first.trans entered.course, entered.blame⟩
  | bound method receiver =>
    cases method with
    | script params body globals =>
      have entered := ih.enter followed came (.methodBody rfl rfl)
      have first : Course world comes m.heap _ := .deed came (.callMethod rfl)
      exact ⟨first.trans entered.course, entered.blame⟩
    | list method => exact does_callListMethod came
    | decoder format id => exact does_callDecoder came
  | builtin builtin => exact does_callBuiltin came

theorem runBody {frame : FrameId} {body : List Stmt} (came : comes (n + 1) (.runBody frame body) m) :
    Does world comes m (Run.runBody world (n + 1) frame body) := by
  rw [Run.runBody]
  refine .bind (.withScope (ih.enter followed came .body)) fun done m₁ _ => ?_
  cases done with
  | normal | returned => exact .pure _
  | leftLoop | nextRound => exact .fault _ id

theorem execute {stmt : Stmt} (came : comes (n + 1) (.execute stmt) m) :
    Does world comes m (Run.execute world (n + 1) stmt) := by
  cases stmt with
  | expression value => exact .bind (ih.enter followed came .value) fun _ _ _ => .pure _
  | declare name initial =>
    cases initial with
    | none => exact .of_ok rfl (.deed came .declare)
    | some initial =>
      rw [Run.execute]
      exact .bind (ih.enter followed came .initial) fun v m₁ hv => .of_ok rfl (.deed came (.declareAs hv))
  | block body =>
    rw [Run.execute]
    refine .bind (.bindInterpreter (.changeHeap (.deed came .block))) fun frame m₁ made => ?_
    cases made
    exact .withScope (ih.enter followed came .block)
  | branch condition yes no =>
    unfold Run.execute
    refine .bind (ih.enter followed came .branchCondition) fun v m₁ hc => ?_
    split
    · next truthy => exact ih.enter followed came (.yes hc truthy)
    · next falsy =>
      cases no with
      | none => exact .pure _
      | some no => exact ih.enter followed came (.no hc (Bool.not_eq_true _ ▸ falsy))
  | loop condition body => exact ih.enter followed came .loop
  | function name params body => exact .of_ok rfl (.deed came .function)
  | giveBack value =>
    cases value with
    | none => exact .pure _
    | some value => exact .bind (ih.enter followed came .returned) fun _ _ _ => .pure _
  | leaveLoop | nextRound | empty => exact .pure _
  | importFrom source =>
    rw [Run.execute]
    refine .bind (ih.enter followed came .source) fun path m₁ hs => ?_
    exact .bind (ih.enter followed came (.importFile hs)) fun _ _ _ => .pure _
  | exportAs name value =>
    rw [Run.execute]
    exact .bind (ih.enter followed came .exported) fun v m₁ _ => .of_ok rfl .refl

theorem executeAll {stmts : List Stmt} (came : comes (n + 1) (.executeAll stmts) m) :
    Does world comes m (Run.executeAll world (n + 1) stmts) := by
  cases stmts with
  | nil => exact .pure _
  | cons first rest =>
    rw [Run.executeAll]
    refine .bind (ih.enter followed came .firstStmt) fun done m₁ hf => ?_
    cases done with
    | normal => exact ih.enter followed came (.restStmts hf)
    | _ => exact .pure _

theorem loop {condition : Expr} {body : List Stmt} (came : comes (n + 1) (.loop condition body) m) :
    Does world comes m (Run.loop world (n + 1) condition body) := by
  rw [Run.loop]
  refine .bind (ih.enter followed came .loopCondition) fun v m₁ hc => ?_
  split
  · next truthy =>
    refine .bind (.bindInterpreter (.changeHeap (.deed came (.round hc truthy)))) fun frame m₂ made => ?_
    cases made
    refine .bind (.withScope (ih.enter followed came (.loopBody hc truthy))) fun done m₃ ran => ?_
    obtain ⟨m₄, hb, rfl⟩ := withScope_ok ran
    cases done with
    | returned | leftLoop => exact .pure _
    | normal => exact ih.enter followed came (.nextRound hc truthy hb (.inl rfl))
    | nextRound => exact ih.enter followed came (.nextRound hc truthy hb (.inr rfl))
  · exact .pure _

theorem executeProgram {stmts : List Stmt} (came : comes (n + 1) (.executeProgram stmts) m) :
    Does world comes m (Run.executeProgram world (n + 1) stmts) := by
  cases stmts with
  | nil => exact .pure _
  | cons first rest =>
    rw [Run.executeProgram]
    refine .bind (ih.enter followed came .firstOfProgram) fun done m₁ hf => ?_
    cases done with
    | normal => exact ih.enter followed came (.restOfProgram hf)
    | _ => exact .fault _ id

theorem importFile {path : Value} (came : comes (n + 1) (.importFile path) m) :
    Does world comes m (Run.importFile world (n + 1) path) := by
  cases path with
  | string path =>
    rw [Run.importFile]
    refine .bindInterpreter ?_
    split
    · exact .fault _ id
    · next place found =>
      split
      · exact .fault _ id
      · next fresh =>
        split
        · exact .fault _ id
        · next text read =>
          split
          · exact .fault _ id
          · next program accepted =>
            have inside := ih.enter followed came (.program found fresh read accepted)
            refine .bindChange (.deed came (.begin found fresh read accepted)) ?_
            refine .bind (.withInterpreter inside) fun exports m₁ ran => ?_
            obtain ⟨m₂, done, rfl, rfl⟩ := withInterpreter_ok ran
            exact .changeHeap (.deed came (.bindExports found fresh read accepted done))
  | _ => exact .bindRead (.fault _ id)

end DoesTasks

variable {world : World} {comes : Nat → Task → Machine → Prop}

theorem does_tasks (followed : Followed world comes) (n : Nat) : DoesTasks world comes n := by
  induction n with
  | zero =>
    intro t m _
    cases t <;> exact .of_error rfl .refl nofun
  | succ n ih =>
    intro t m came
    cases t with
    | evaluate => exact ih.evaluate followed came
    | evaluateAll => exact ih.evaluateAll followed came
    | call => exact ih.call followed came
    | runBody => exact ih.runBody followed came
    | execute => exact ih.execute followed came
    | executeAll => exact ih.executeAll followed came
    | loop => exact ih.loop followed came
    | executeProgram => exact ih.executeProgram followed came
    | importFile => exact ih.importFile followed came

variable {n : Nat} {t : Task} {m m₁ : Machine}

theorem course_after (followed : Followed world comes) (came : comes n t m) :
    Course world comes m.heap (t.after world n m).heap := by
  have does := does_tasks followed n t m came
  cases t <;> exact does.course

theorem misuses_of_fails (followed : Followed world comes) (came : comes n t m) {f : Fault} (about : f.AboutReceiver)
    (fails : t.Fails world n m (.fault f)) : Misuses comes := by
  have does := does_tasks followed n t m came
  cases t <;> exact does.blame fails about

theorem Enters.course {move : Move} {t' : Task} {m' : Machine} (enters : Enters world n move t m t' m')
    (followed : Followed world comes) (came : comes (n + 1) t m) : Course world comes m.heap m'.heap := by
  have upTo {move t'' m₁ m₂} (before : Enters world n move t m t'' m₁) (after : t''.after world n m₁ = m₂) :
      Course world comes m₁.heap m₂.heap := after ▸ course_after followed (followed came before)
  cases enters with
  | itemIndex ht => exact upTo .itemTarget (Machine.after_of_ok ht)
  | setItemTarget hv => exact upTo .setItemValue (Machine.after_of_ok hv)
  | setItemIndex hv ht =>
    exact (upTo .setItemValue (Machine.after_of_ok hv)).trans (upTo (.setItemTarget hv) (Machine.after_of_ok ht))
  | setPropertyTarget hv => exact upTo .setPropertyValue (Machine.after_of_ok hv)
  | binaryRight hl => exact upTo .binaryLeft (Machine.after_of_ok hl)
  | andRight hl | orRight hl => exact upTo .logicalLeft (Machine.after_of_ok hl)
  | args hc => exact upTo .callee (Machine.after_of_ok hc)
  | called hc found arity ha =>
    exact (upTo .callee (Machine.after_of_ok hc)).trans (upTo (.args hc found arity) (Machine.after_of_ok ha))
  | restExprs hf => exact upTo .firstExpr (Machine.after_of_ok hf)
  | functionBody entry =>
    cases entry
    exact .deed came .callFunction
  | methodBody outer entry =>
    cases entry
    exact .deed came (.callMethod outer)
  | block => exact .deed came .block
  | yes hc | no hc => exact upTo .branchCondition (Machine.after_of_ok hc)
  | importFile hs => exact upTo .source (Machine.after_of_ok hs)
  | restStmts hf => exact upTo .firstStmt (Machine.after_of_ok hf)
  | loopBody hc truthy =>
    exact (upTo .loopCondition (Machine.after_of_ok hc)).trans (.deed came (.round hc truthy))
  | nextRound hc truthy hb =>
    have first := (upTo .loopCondition (Machine.after_of_ok hc)).trans (.deed came (.round hc truthy))
    have inside := upTo (.loopBody hc truthy) (Machine.after_of_ok hb)
    exact first.trans inside
  | restOfProgram hf => exact upTo .firstOfProgram (Machine.after_of_ok hf)
  | program found fresh read accepted => exact .deed came (.begin found fresh read accepted)
  | _ => exact .refl

end Run

end HookScript
