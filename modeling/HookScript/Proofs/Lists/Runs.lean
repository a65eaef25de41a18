import HookScript.Proofs.Isolation.Evaluator
import HookScript.Proofs.Lists.Chronicle

/-!
Every run has a history of its lists, by going through the evaluator once. So at any point of a run the lists are what
sequences become by replaying what has been asked until then.
-/

namespace HookScript

namespace Run

inductive ComesTo (world : World) : Nat → Task → Machine → Nat → Task → Machine → Prop
  | refl {n t m} : ComesTo world n t m n t m
  | inside {n k move t t' t'' m m' m''} (enters : Enters world n move t m t' m')
    (rest : ComesTo world n t' m' k t'' m'') : ComesTo world (n + 1) t m k t'' m''

end Run

namespace Task

variable {world : World} {comes : Nat → Task → Machine → Prop} {n : Nat} {t t' : Task} {m m' : Machine}

/-- All tasks that the run of a task comes to are among the given ones. -/
def Stays (world : World) (comes : Nat → Task → Machine → Prop) (n : Nat) (t : Task) (m : Machine) : Prop :=
  ∀ k t' m', Run.ComesTo world n t m k t' m' → comes k t' m'

theorem Stays.self (stays : t.Stays world comes n m) : comes n t m := stays n t m .refl

theorem Stays.inside {move : Move} (stays : t.Stays world comes (n + 1) m)
    (enters : Run.Enters world n move t m t' m') : t'.Stays world comes n m' :=
  fun k t'' m'' rest => stays k t'' m'' (.inside enters rest)

def In (heap : Heap) : Task → Prop
  | call callable args => callable.All (·.In heap) ∧ ∀ value ∈ args, value.In heap
  | _ => True

end Task

namespace Run

structure TellsCalls (world : World) (comes : Nat → Task → Machine → Prop) (n : Nat) : Prop where
  evaluate {m : Machine} (sound : m.Sound) {expr : Expr} (stays : (Task.evaluate expr).Stays world comes n m) :
    Tells world comes m (Run.evaluate world n expr)
  evaluateAll {m : Machine} (sound : m.Sound) {exprs : List Expr}
      (stays : (Task.evaluateAll exprs).Stays world comes n m) :
    Tells world comes m (Run.evaluateAll world n exprs)
  call {m : Machine} (sound : m.Sound) {callable : Callable} {args : List Value}
      (given : (Task.call callable args).In m.heap) (stays : (Task.call callable args).Stays world comes n m) :
    Tells world comes m (Run.call world n callable args)
  runBody {m : Machine} (sound : m.Sound) {frame : FrameId} {body : List Stmt}
      (stays : (Task.runBody frame body).Stays world comes n m) :
    Tells world comes m (Run.runBody world n frame body)
  execute {m : Machine} (sound : m.Sound) {stmt : Stmt} (stays : (Task.execute stmt).Stays world comes n m) :
    Tells world comes m (Run.execute world n stmt)
  executeAll {m : Machine} (sound : m.Sound) {stmts : List Stmt}
      (stays : (Task.executeAll stmts).Stays world comes n m) :
    Tells world comes m (Run.executeAll world n stmts)
  loop {m : Machine} (sound : m.Sound) {condition : Expr} {body : List Stmt}
      (stays : (Task.loop condition body).Stays world comes n m) :
    Tells world comes m (Run.loop world n condition body)
  executeProgram {m : Machine} (sound : m.Sound) {stmts : List Stmt}
      (stays : (Task.executeProgram stmts).Stays world comes n m) :
    Tells world comes m (Run.executeProgram world n stmts)
  importFile {m : Machine} (sound : m.Sound) {path : Value} (stays : (Task.importFile path).Stays world comes n m) :
    Tells world comes m (Run.importFile world n path)

variable {α : Type} {world : World} {comes : Nat → Task → Machine → Prop} {m : Machine} {n : Nat}

theorem TellsCalls.zero : TellsCalls world comes 0 := by
  constructor <;> intros <;> exact .of_error rfl (.refl ‹_›)

variable (ih : TellsCalls world comes n) (sound : m.Sound)
include ih sound

theorem TellsCalls.bindEvaluate {expr : Expr} {rest : Value → Run α}
    (stays : (Task.evaluate expr).Stays world comes n m)
    (second : ∀ v m₁, Run.evaluate world n expr m = .ok v m₁ → Leads m m₁ v → Tells world comes m₁ (rest v)) :
    Tells world comes m (Run.evaluate world n expr >>= rest) :=
  .bind ((lifts_calls world m n).evaluate sound expr) (ih.evaluate sound stays) second

theorem TellsCalls.bindEvaluateAll {exprs : List Expr} {rest : List Value → Run α}
    (stays : (Task.evaluateAll exprs).Stays world comes n m)
    (second : ∀ values m₁, Run.evaluateAll world n exprs m = .ok values m₁ → Leads m m₁ values →
      Tells world comes m₁ (rest values)) : Tells world comes m (Run.evaluateAll world n exprs >>= rest) :=
  .bind ((lifts_calls world m n).evaluateAll sound exprs) (ih.evaluateAll sound stays) second

omit ih in
theorem tells_lookup (name : String) (level : Nat) :
    Tells world comes m (Run.evaluate world (n + 1) (.lookup name level)) := by
  rw [Run.evaluate]
  refine .bindSame (a := m.heap.get? m.interpreter.scope level name) rfl ?_
  cases m.heap.get? m.interpreter.scope level name with
  | some value => exact .pure sound value
  | none => exact .fault sound _

theorem TellsCalls.evaluate_assign {name : String} {level : Nat} {value : Expr}
    (stays : (Task.evaluate (.assign name level value)).Stays world comes (n + 1) m) :
    Tells world comes m (Run.evaluate world (n + 1) (.assign name level value)) := by
  rw [Run.evaluate]
  refine ih.bindEvaluate sound (stays.inside .assigned) fun v m₁ _ leads => ?_
  refine .bindSame (a := m₁.interpreter) rfl ?_
  refine .bindSame (a := m₁.heap.assignee? m₁.interpreter.scope level name) rfl ?_
  cases m₁.heap.assignee? m₁.interpreter.scope level name with
  | none => exact .fault leads.sound _
  | some frame => exact .of_ok rfl (.declare leads.sound frame name leads.within)

theorem TellsCalls.evaluate_item {target index : Expr}
    (stays : (Task.evaluate (.item target index)).Stays world comes (n + 1) m) :
    Tells world comes m (Run.evaluate world (n + 1) (.item target index)) := by
  rw [Run.evaluate]
  refine ih.bindEvaluate sound (stays.inside .itemTarget) fun v m₁ ht leads₁ => ?_
  refine .bindSpared leads₁.sound (lifts_asList leads₁.sound leads₁.within) (spares_asList v) fun list m₂ hl _ => ?_
  obtain ⟨rfl, rfl⟩ := asList_ok hl
  refine ih.bindEvaluate leads₁.sound (stays.inside (.itemIndex ht)) fun i m₃ hi leads₃ => ?_
  have inside : list.index < m₃.heap.lists.size := leads₁.within.mono leads₃.larger
  exact .asked leads₃.sound inside stays.self (.read ht hi) (Run.evaluate_item ht hi)
    (lifts_takeItem leads₃.sound list i)

theorem TellsCalls.evaluate_setItem {target index value : Expr}
    (stays : (Task.evaluate (.setItem target index value)).Stays world comes (n + 1) m) :
    Tells world comes m (Run.evaluate world (n + 1) (.setItem target index value)) := by
  rw [Run.evaluate]
  refine ih.bindEvaluate sound (stays.inside .setItemValue) fun v m₁ hv leads₁ => ?_
  refine ih.bindEvaluate leads₁.sound (stays.inside (.setItemTarget hv)) fun w m₂ ht leads₂ => ?_
  refine .bindSpared leads₂.sound (lifts_asList leads₂.sound leads₂.within) (spares_asList w) fun list m₃ hl _ => ?_
  obtain ⟨rfl, rfl⟩ := asList_ok hl
  refine ih.bindEvaluate leads₂.sound (stays.inside (.setItemIndex hv ht)) fun i m₄ hi leads₄ => ?_
  have inside : list.index < m₄.heap.lists.size := leads₂.within.mono leads₄.larger
  have within : v.In m₄.heap := leads₁.within.mono (leads₂.larger.trans leads₄.larger)
  exact .asked leads₄.sound inside stays.self (.written hv ht hi) (Run.evaluate_setItem hv ht hi)
    (lifts_putItem leads₄.sound list i within)

theorem TellsCalls.evaluate_property {target : Expr} {name : String}
    (stays : (Task.evaluate (.property target name)).Stays world comes (n + 1) m) :
    Tells world comes m (Run.evaluate world (n + 1) (.property target name)) := by
  rw [Run.evaluate]
  refine ih.bindEvaluate sound (stays.inside .propertyTarget) fun v m₁ _ leads => ?_
  exact .spared leads.sound (lifts_getProperty leads.sound name leads.within) (spares_getProperty v name)

theorem TellsCalls.evaluate_setProperty {target value : Expr} {name : String}
    (stays : (Task.evaluate (.setProperty target name value)).Stays world comes (n + 1) m) :
    Tells world comes m (Run.evaluate world (n + 1) (.setProperty target name value)) := by
  rw [Run.evaluate]
  refine ih.bindEvaluate sound (stays.inside .setPropertyValue) fun v m₁ hv leads₁ => ?_
  refine ih.bindEvaluate leads₁.sound (stays.inside (.setPropertyTarget hv)) fun w m₂ _ leads₂ => ?_
  exact .spared leads₂.sound (lifts_setProperty leads₂.sound name (leads₁.within.mono leads₂.larger))
    (spares_setProperty w name v)

theorem TellsCalls.evaluate_unary {op : UnaryOp} {operand : Expr}
    (stays : (Task.evaluate (.unary op operand)).Stays world comes (n + 1) m) :
    Tells world comes m (Run.evaluate world (n + 1) (.unary op operand)) := by
  rw [Run.evaluate]
  exact ih.bindEvaluate sound (stays.inside .operand) fun v _ _ leads => .ofExcept leads.sound _

theorem TellsCalls.evaluate_binary {left right : Expr} {op : BinaryOp}
    (stays : (Task.evaluate (.binary left op right)).Stays world comes (n + 1) m) :
    Tells world comes m (Run.evaluate world (n + 1) (.binary left op right)) := by
  rw [Run.evaluate]
  refine ih.bindEvaluate sound (stays.inside .binaryLeft) fun v m₁ hl leads₁ => ?_
  exact ih.bindEvaluate leads₁.sound (stays.inside (.binaryRight hl)) fun _ _ _ leads₂ => .ofExcept leads₂.sound _

theorem TellsCalls.evaluate_logical {left right : Expr} {op : LogicalOp}
    (stays : (Task.evaluate (.logical left op right)).Stays world comes (n + 1) m) :
    Tells world comes m (Run.evaluate world (n + 1) (.logical left op right)) := by
  rw [Run.evaluate]
  refine ih.bindEvaluate sound (stays.inside .logicalLeft) fun v m₁ hl leads => ?_
  have done : Tells world comes m₁ (Pure.pure v) := .pure leads.sound v
  cases op with
  | and =>
    dsimp only
    split
    · next truthy => exact ih.evaluate leads.sound (stays.inside (.andRight hl truthy))
    · exact done
  | or =>
    dsimp only
    split
    · exact done
    · next falsy => exact ih.evaluate leads.sound (stays.inside (.orRight hl (Bool.not_eq_true _ ▸ falsy)))

theorem TellsCalls.evaluate_call {callee : Expr} {args : List Expr}
    (stays : (Task.evaluate (.call callee args)).Stays world comes (n + 1) m) :
    Tells world comes m (Run.evaluate world (n + 1) (.call callee args)) := by
  rw [Run.evaluate]
  refine ih.bindEvaluate sound (stays.inside .callee) fun v m₁ hc leads₁ => ?_
  refine .bindSpared leads₁.sound (lifts_asCallable leads₁.sound v) (spares_asCallable v) ?_
  intro callable m₂ isCallable leads₂
  obtain ⟨id, rfl, found, rfl⟩ := asCallable_ok isCallable
  refine .bindExcept leads₂.sound fun _ checked => ?_
  have arity := Callable.checkArity_ok checked
  refine ih.bindEvaluateAll leads₂.sound (stays.inside (.args hc found arity)) fun values m₃ ha leads₃ => ?_
  -- The callable was there before the arguments; what it holds is still in the heap after them.
  have here : callable.All (·.In m₂.heap) := leads₂.within
  have given : (Task.call callable values).In m₃.heap :=
    ⟨here.mono fun _ had => had.mono leads₃.larger, leads₃.within⟩
  exact ih.call leads₃.sound given (stays.inside (.called hc found arity ha))

theorem TellsCalls.evaluate_list {items : List Expr}
    (stays : (Task.evaluate (.list items)).Stays world comes (n + 1) m) :
    Tells world comes m (Run.evaluate world (n + 1) (.list items)) := by
  rw [Run.evaluate]
  refine ih.bindEvaluateAll sound (stays.inside .items) fun values m₁ _ leads => ?_
  exact .spared leads.sound (lifts_newList leads.sound leads.within)
    (.thenPure (.changeHeap (Heap.keepsLists_newList m₁.heap _)))

theorem TellsCalls.evaluate_object {properties : List (String × Expr)}
    (stays : (Task.evaluate (.object properties)).Stays world comes (n + 1) m) :
    Tells world comes m (Run.evaluate world (n + 1) (.object properties)) := by
  rw [Run.evaluate]
  refine ih.bindEvaluateAll sound (stays.inside .properties) fun values m₁ _ leads => ?_
  exact .spared leads.sound (lifts_newObject leads.sound _ leads.within) (.changeElse rfl)

omit ih in
theorem tells_method (params : List String) (body : List Stmt) :
    Tells world comes m (Run.evaluate world (n + 1) (.method params body)) := by
  rw [Run.evaluate]
  refine .bindSame (a := m.interpreter) rfl ?_
  have larger : m.heap.Larger (m.heap.newMethod (.script params body m.interpreter.globals)).2 :=
    Heap.larger_of_size rfl rfl
  exact .of_ok rfl (.of_lists_eq rfl larger (sound.withHeap (sound.closed.newMethod _) larger))

theorem TellsCalls.evaluate_succ {expr : Expr} (stays : (Task.evaluate expr).Stays world comes (n + 1) m) :
    Tells world comes m (Run.evaluate world (n + 1) expr) := by
  cases expr with
  | literal literal => exact .pure sound _
  | group inner => exact ih.evaluate sound (stays.inside .inner)
  | lookup name level => exact tells_lookup sound name level
  | assign => exact ih.evaluate_assign sound stays
  | item => exact ih.evaluate_item sound stays
  | setItem => exact ih.evaluate_setItem sound stays
  | property => exact ih.evaluate_property sound stays
  | setProperty => exact ih.evaluate_setProperty sound stays
  | unary => exact ih.evaluate_unary sound stays
  | binary => exact ih.evaluate_binary sound stays
  | logical => exact ih.evaluate_logical sound stays
  | call => exact ih.evaluate_call sound stays
  | list => exact ih.evaluate_list sound stays
  | object => exact ih.evaluate_object sound stays
  | method params body => exact tells_method sound params body

theorem TellsCalls.evaluateAll_succ {exprs : List Expr}
    (stays : (Task.evaluateAll exprs).Stays world comes (n + 1) m) :
    Tells world comes m (Run.evaluateAll world (n + 1) exprs) := by
  cases exprs with
  | nil => exact .pure sound _
  | cons first rest =>
    rw [Run.evaluateAll]
    refine ih.bindEvaluate sound (stays.inside .firstExpr) fun v m₁ hf leads₁ => ?_
    refine ih.bindEvaluateAll leads₁.sound (stays.inside (.restExprs hf)) fun values m₂ _ leads₂ => ?_
    exact .pure leads₂.sound _

theorem TellsCalls.call_succ {callable : Callable} {args : List Value}
    (given : (Task.call callable args).In m.heap) (stays : (Task.call callable args).Stays world comes (n + 1) m) :
    Tells world comes m (Run.call world (n + 1) callable args) := by
  obtain ⟨within, given⟩ := given
  have argument : (args.headD .nil).In m.heap := by
    cases args with
    | nil => trivial
    | cons first rest => exact given first List.mem_cons_self
  cases callable with
  | function name params body closure =>
    exact .frameWith sound given fun frame heap entry opened =>
      ih.runBody opened.sound (stays.inside (.functionBody entry))
  | bound method receiver =>
    cases method with
    | script params body globals =>
      refine .frameWith sound (List.forall_mem_singleton.2 within) fun around heap outer opened => ?_
      have given₁ : ∀ value ∈ args, value.In heap := fun value mem => (given value mem).mono opened.larger
      exact .frameWith opened.sound given₁ fun frame heap₁ entry inner =>
        ih.runBody inner.sound (stays.inside (.methodBody outer entry))
    | list method =>
      have lifts : Lifts m m _ _ := lifts_callListMethod sound method within argument
      cases receiver with
      | list id => exact .asked sound within stays.self .called rfl lifts
      | _ => exact .fault sound _
    | decoder format id => exact .spared sound (lifts_callDecoder sound world id) (spares_callDecoder world id)
  | builtin builtin =>
    exact .spared sound (lifts_callBuiltin sound builtin argument) (spares_callBuiltin sound builtin argument)

theorem TellsCalls.runBody_succ {frame : FrameId} {body : List Stmt}
    (stays : (Task.runBody frame body).Stays world comes (n + 1) m) :
    Tells world comes m (Run.runBody world (n + 1) frame body) := by
  have lifts := (lifts_calls world (m.inFrame frame) n).executeAll (sound.inFrame frame) body
  rw [Run.runBody]
  have inner := ih.executeAll (sound.inFrame frame) (stays.inside .body)
  refine .bind lifts.withScope (.withScope sound inner) fun done m₁ _ leads => ?_
  cases done with
  | normal | returned => exact .pure leads.sound _
  | leftLoop | nextRound => exact .fault leads.sound _

theorem TellsCalls.execute_expression {value : Expr}
    (stays : (Task.execute (.expression value)).Stays world comes (n + 1) m) :
    Tells world comes m (Run.execute world (n + 1) (.expression value)) := by
  rw [Run.execute]
  exact ih.bindEvaluate sound (stays.inside .value) fun _ _ _ leads => .pure leads.sound _

theorem TellsCalls.execute_declare {name : String} {initial : Option Expr}
    (stays : (Task.execute (.declare name initial)).Stays world comes (n + 1) m) :
    Tells world comes m (Run.execute world (n + 1) (.declare name initial)) := by
  cases initial with
  | none => exact .of_ok rfl (.declare sound m.interpreter.scope name trivial)
  | some initial =>
    rw [Run.execute]
    refine ih.bindEvaluate sound (stays.inside .initial) fun v m₁ _ leads => ?_
    exact .of_ok rfl (.declare leads.sound m₁.interpreter.scope name leads.within)

theorem TellsCalls.execute_block {body : List Stmt}
    (stays : (Task.execute (.block body)).Stays world comes (n + 1) m) :
    Tells world comes m (Run.execute world (n + 1) (.block body)) := by
  rw [Run.execute]
  have opened : Chronicle world comes m _ := .newFrame sound (some m.interpreter.scope)
  have inner := ih.executeAll (opened.sound.inFrame _) (stays.inside .block)
  exact .bindInnerFrame sound (.withScope opened.sound inner)

theorem TellsCalls.execute_branch {condition : Expr} {yes : Stmt} {no : Option Stmt}
    (stays : (Task.execute (.branch condition yes no)).Stays world comes (n + 1) m) :
    Tells world comes m (Run.execute world (n + 1) (.branch condition yes no)) := by
  unfold Run.execute
  refine ih.bindEvaluate sound (stays.inside .branchCondition) fun v m₁ hc leads => ?_
  split
  · next truthy => exact ih.execute leads.sound (stays.inside (.yes hc truthy))
  · next falsy =>
    cases no with
    | none => exact .pure leads.sound _
    | some no => exact ih.execute leads.sound (stays.inside (.no hc (Bool.not_eq_true _ ▸ falsy)))

omit ih in
theorem tells_function (name : String) (params : List String) (body : List Stmt) :
    Tells world comes m (Run.execute world (n + 1) (.function name params body)) := by
  have larger := Heap.larger_newCallable m.heap (.function name params body m.interpreter.scope)
  have held : Callable.All (·.In m.heap) (.function name params body m.interpreter.scope) := trivial
  have made : Chronicle world comes m
      { m with heap := (m.heap.newCallable (.function name params body m.interpreter.scope)).2 } :=
    .of_lists_eq rfl larger (sound.withHeap (sound.closed.newCallable held) larger)
  have named : Value.In (m.heap.newCallable (.function name params body m.interpreter.scope)).2
      (.callable ⟨m.heap.callables.size⟩) := trivial
  have declared : Chronicle world comes _ _ := .declare made.sound m.interpreter.scope name named
  exact .of_ok rfl (made.trans declared)

theorem TellsCalls.execute_giveBack {value : Option Expr}
    (stays : (Task.execute (.giveBack value)).Stays world comes (n + 1) m) :
    Tells world comes m (Run.execute world (n + 1) (.giveBack value)) := by
  cases value with
  | none => exact .pure sound _
  | some value =>
    rw [Run.execute]
    exact ih.bindEvaluate sound (stays.inside .returned) fun _ _ _ leads => .pure leads.sound _

theorem TellsCalls.execute_importFrom {source : Expr}
    (stays : (Task.execute (.importFrom source)).Stays world comes (n + 1) m) :
    Tells world comes m (Run.execute world (n + 1) (.importFrom source)) := by
  rw [Run.execute]
  refine ih.bindEvaluate sound (stays.inside .source) fun path m₁ hs leads₁ => ?_
  have second := ih.importFile leads₁.sound (stays.inside (.importFile hs))
  exact .bind ((lifts_calls world m₁ n).importFile leads₁.sound path) second fun _ _ _ leads₂ =>
    .pure leads₂.sound _

theorem TellsCalls.execute_exportAs {name : String} {value : Expr}
    (stays : (Task.execute (.exportAs name value)).Stays world comes (n + 1) m) :
    Tells world comes m (Run.execute world (n + 1) (.exportAs name value)) := by
  rw [Run.execute]
  refine ih.bindEvaluate sound (stays.inside .exported) fun v m₁ _ leads => ?_
  have exported : Machine.Sound { m₁ with interpreter :=
      { m₁.interpreter with exports := m₁.interpreter.exports.insert name v } } :=
    ⟨leads.sound.closed, leads.sound.exports.insert leads.within⟩
  exact .of_ok rfl (.of_lists_eq rfl (.refl _) exported)

theorem TellsCalls.execute_succ {stmt : Stmt} (stays : (Task.execute stmt).Stays world comes (n + 1) m) :
    Tells world comes m (Run.execute world (n + 1) stmt) := by
  cases stmt with
  | expression => exact ih.execute_expression sound stays
  | declare => exact ih.execute_declare sound stays
  | block => exact ih.execute_block sound stays
  | branch => exact ih.execute_branch sound stays
  | loop condition body => exact ih.loop sound (stays.inside .loop)
  | function name params body => exact tells_function sound name params body
  | giveBack => exact ih.execute_giveBack sound stays
  | leaveLoop | nextRound | empty => exact .pure sound _
  | importFrom => exact ih.execute_importFrom sound stays
  | exportAs => exact ih.execute_exportAs sound stays

theorem TellsCalls.executeAll_succ {stmts : List Stmt}
    (stays : (Task.executeAll stmts).Stays world comes (n + 1) m) :
    Tells world comes m (Run.executeAll world (n + 1) stmts) := by
  cases stmts with
  | nil => exact .pure sound _
  | cons first rest =>
    rw [Run.executeAll]
    have begun := ih.execute sound (stays.inside .firstStmt)
    refine .bind ((lifts_calls world m n).execute sound first) begun fun done m₁ hf leads => ?_
    cases done with
    | normal => exact ih.executeAll leads.sound (stays.inside (.restStmts hf))
    | _ => exact .pure leads.sound _

theorem TellsCalls.loop_succ {condition : Expr} {body : List Stmt}
    (stays : (Task.loop condition body).Stays world comes (n + 1) m) :
    Tells world comes m (Run.loop world (n + 1) condition body) := by
  rw [Run.loop]
  refine ih.bindEvaluate sound (stays.inside .loopCondition) fun v m₁ hc leads₁ => ?_
  split
  · next truthy =>
    have opened : Chronicle world comes m₁ _ := .newFrame leads₁.sound (some m₁.interpreter.scope)
    have inner := opened.sound.inFrame (m₁.heap.newFrame (some m₁.interpreter.scope)).1
    refine .bindInnerFrame leads₁.sound ?_
    have round := ih.executeAll inner (stays.inside (.loopBody hc truthy))
    have lifts := (lifts_calls world m n).executeAll inner body
    refine .bind lifts.withScope (.withScope opened.sound round) fun done m₃ ran leads₂ => ?_
    obtain ⟨m₂, within, rfl⟩ := withScope_ok ran
    have hb : Run.executeAll world n body m₁.opened = .ok done m₂ := within
    cases done with
    | leftLoop | returned => exact .pure leads₂.sound _
    | normal =>
      have again := stays.inside (Enters.nextRound hc truthy hb (.inl rfl))
      exact ih.loop leads₂.sound again
    | nextRound =>
      have again := stays.inside (Enters.nextRound hc truthy hb (.inr rfl))
      exact ih.loop leads₂.sound again
  · exact .pure leads₁.sound _

theorem TellsCalls.executeProgram_succ {stmts : List Stmt}
    (stays : (Task.executeProgram stmts).Stays world comes (n + 1) m) :
    Tells world comes m (Run.executeProgram world (n + 1) stmts) := by
  cases stmts with
  | nil => exact .pure sound _
  | cons first rest =>
    rw [Run.executeProgram]
    have begun := ih.execute sound (stays.inside .firstOfProgram)
    refine .bind ((lifts_calls world m n).execute sound first) begun fun done m₁ hf leads => ?_
    cases done with
    | normal => exact ih.executeProgram leads.sound (stays.inside (.restOfProgram hf))
    | _ => exact .fault leads.sound _

theorem TellsCalls.importFile_succ {path : Value} (stays : (Task.importFile path).Stays world comes (n + 1) m) :
    Tells world comes m (Run.importFile world (n + 1) path) := by
  cases path with
  | string path =>
    rw [Run.importFile]
    refine .bindSame (a := m.interpreter) rfl ?_
    split
    · exact .fault sound _
    · next place found =>
      split
      · exact .fault sound _
      · next fresh =>
        split
        · exact .fault sound _
        · next text read =>
          split
          · exact .fault sound _
          · next program accepted =>
            have larger := Interpreter.larger_start m.heap (some place.parent) (m.interpreter.imports ++ [place])
            have closed := Interpreter.closed_start sound.closed (some place.parent) (m.interpreter.imports ++ [place])
            have same := Interpreter.lists_start m.heap (some place.parent) (m.interpreter.imports ++ [place])
            have entered := Interpreter.sound_start sound.closed m.out (some place.parent)
              (m.interpreter.imports ++ [place])
            have started := sound.withHeap closed larger
            have inner := ih.executeProgram entered (stays.inside (.program found fresh read accepted))
            refine .bindChange (.of_lists_eq same larger started) ?_
            refine .bind (.withInterpreter started ((lifts_calls world m n).executeProgram entered program))
              (.withInterpreter started entered inner) fun exports m₁ _ leads => ?_
            exact .of_ok rfl (.declareAll leads.sound m.interpreter.scope leads.within)
  | _ => exact .bindSame rfl (.fault sound _)

omit ih sound in
theorem tells_calls (world : World) (comes : Nat → Task → Machine → Prop) (n : Nat) :
    TellsCalls world comes n := by
  induction n with
  | zero => exact .zero
  | succ n ih =>
    exact ⟨ih.evaluate_succ, ih.evaluateAll_succ, ih.call_succ, ih.runBody_succ, ih.execute_succ, ih.executeAll_succ,
      ih.loop_succ, ih.executeProgram_succ, ih.importFile_succ⟩

end Run

end HookScript
