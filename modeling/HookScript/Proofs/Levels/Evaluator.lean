import HookScript.Proofs.Levels.Single

/-!
Alike programs on machines with alike code. As long as no name is bound twice among the frames that can be seen in the run
of the first, the run of the second follows it step by step, by going through the evaluator once.
-/

namespace HookScript.Run

structure FollowsCalls (world : World) (n : Nat) : Prop where
  evaluate {m m' : Machine} (alike : m.Alike m') {e e' : Expr} (code : e.Alike e')
    (single : (Task.evaluate e).Single world n m) : Follows Eq (Run.evaluate world n e m) (Run.evaluate world n e' m')
  evaluateAll {m m' : Machine} (alike : m.Alike m') {es es' : List Expr} (code : List.Forall₂ Expr.Alike es es')
    (single : (Task.evaluateAll es).Single world n m) :
    Follows Eq (Run.evaluateAll world n es m) (Run.evaluateAll world n es' m')
  call {m m' : Machine} (alike : m.Alike m') {callable callable' : Callable} (code : callable.Alike callable')
    {args : List Value} (single : (Task.call callable args).Single world n m) :
    Follows Eq (Run.call world n callable args m) (Run.call world n callable' args m')
  runBody {m m' : Machine} (alike : m.Alike m') {frame : FrameId} {body body' : List Stmt}
    (code : List.Forall₂ Stmt.Alike body body') (single : (Task.runBody frame body).Single world n m) :
    Follows Eq (Run.runBody world n frame body m) (Run.runBody world n frame body' m')
  execute {m m' : Machine} (alike : m.Alike m') {stmt stmt' : Stmt} (code : stmt.Alike stmt')
    (single : (Task.execute stmt).Single world n m) :
    Follows Eq (Run.execute world n stmt m) (Run.execute world n stmt' m')
  executeAll {m m' : Machine} (alike : m.Alike m') {stmts stmts' : List Stmt}
    (code : List.Forall₂ Stmt.Alike stmts stmts') (single : (Task.executeAll stmts).Single world n m) :
    Follows Eq (Run.executeAll world n stmts m) (Run.executeAll world n stmts' m')
  loop {m m' : Machine} (alike : m.Alike m') {condition condition' : Expr} (tested : condition.Alike condition')
    {body body' : List Stmt} (code : List.Forall₂ Stmt.Alike body body')
    (single : (Task.loop condition body).Single world n m) :
    Follows Eq (Run.loop world n condition body m) (Run.loop world n condition' body' m')
  executeProgram {m m' : Machine} (alike : m.Alike m') {stmts stmts' : List Stmt}
    (code : List.Forall₂ Stmt.Alike stmts stmts') (single : (Task.executeProgram stmts).Single world n m) :
    Follows Eq (Run.executeProgram world n stmts m) (Run.executeProgram world n stmts' m')
  importFile {m m' : Machine} (alike : m.Alike m') {path : Value} (single : (Task.importFile path).Single world n m) :
    Follows Eq (Run.importFile world n path m) (Run.importFile world n path m')

variable {world : World} {n : Nat} {m m' : Machine}

theorem FollowsCalls.zero : FollowsCalls world 0 := by
  constructor <;> intros <;> exact .error ‹_›

variable (ih : FollowsCalls world n) (alike : m.Alike m')
include ih alike

omit ih in
theorem follows_lookup (name : String) (level level' : Nat)
    (single : (Task.evaluate (.lookup name level)).Single world (n + 1) m) :
    Follows Eq (Run.evaluate world (n + 1) (.lookup name level) m)
      (Run.evaluate world (n + 1) (.lookup name level') m') := by
  have once := single m .begins
  have same := alike.heap.get?_eq once level level' name
  rw [Run.evaluate, Run.evaluate]
  refine .bind (.bindInterpreter alike (.readHeap alike same)) fun found m₁ m₁' _ alike => ?_
  cases found with
  | some value => exact .pure alike value
  | none => exact .fault alike _

theorem FollowsCalls.evaluate_assign {name : String} {level level' : Nat} {e e' : Expr} (value : e.Alike e')
    (single : (Task.evaluate (.assign name level e)).Single world (n + 1) m) :
    Follows Eq (Run.evaluate world (n + 1) (.assign name level e) m)
      (Run.evaluate world (n + 1) (.assign name level' e') m') := by
  rw [Run.evaluate, Run.evaluate]
  refine .bind (ih.evaluate alike value (single.inside .assigned)) fun v m₁ m₁' hv alike => ?_
  have once := single _ (.inside .assigned .ends)
  rw [Task.after, Machine.after_of_ok hv] at once
  refine .bindInterpreter alike (.bindRead (alike.heap.assignee?_eq once level level' name) ?_)
  cases m₁.heap.assignee? m₁.interpreter.scope level name with
  | some frame => exact .changeData alike fun _ _ _ => rfl
  | none => exact .fault alike _

theorem FollowsCalls.evaluate_item {e e' i i' : Expr} (target : e.Alike e') (index : i.Alike i')
    (single : (Task.evaluate (.item e i)).Single world (n + 1) m) :
    Follows Eq (Run.evaluate world (n + 1) (.item e i) m) (Run.evaluate world (n + 1) (.item e' i') m') := by
  rw [Run.evaluate, Run.evaluate]
  refine .bind (ih.evaluate alike target (single.inside .itemTarget)) fun v m₁ m₁' ht alike₁ => ?_
  refine .bind (follows_asList alike₁ v) fun list m₂ m₂' isList alike₂ => ?_
  obtain ⟨rfl, rfl⟩ := asList_ok isList
  refine .bind (ih.evaluate alike₂ index (single.inside (.itemIndex ht))) fun i m₃ m₃' _ alike₃ => ?_
  refine .bind (follows_position alike₃ list i) fun k m₄ m₄' _ alike₄ => ?_
  exact .readHeap alike₄ (by rw [alike₄.heap.items_eq])

theorem FollowsCalls.evaluate_setItem {e e' i i' v v' : Expr}
    (target : e.Alike e') (index : i.Alike i') (value : v.Alike v')
    (single : (Task.evaluate (.setItem e i v)).Single world (n + 1) m) :
    Follows Eq (Run.evaluate world (n + 1) (.setItem e i v) m)
      (Run.evaluate world (n + 1) (.setItem e' i' v') m') := by
  rw [Run.evaluate, Run.evaluate]
  refine .bind (ih.evaluate alike value (single.inside .setItemValue)) fun v m₁ m₁' hv alike₁ => ?_
  refine .bind (ih.evaluate alike₁ target (single.inside (.setItemTarget hv))) fun w m₂ m₂' ht alike₂ => ?_
  refine .bind (follows_asList alike₂ w) fun list m₃ m₃' isList alike₃ => ?_
  obtain ⟨rfl, rfl⟩ := asList_ok isList
  refine .bind (ih.evaluate alike₃ index (single.inside (.setItemIndex hv ht))) fun i m₄ m₄' _ alike₄ => ?_
  exact .bind (follows_position alike₄ list i) fun k _ _ _ alike₅ => .changeData alike₅ fun _ _ _ => rfl

theorem FollowsCalls.evaluate_property {e e' : Expr} {name : String} (target : e.Alike e')
    (single : (Task.evaluate (.property e name)).Single world (n + 1) m) :
    Follows Eq (Run.evaluate world (n + 1) (.property e name) m)
      (Run.evaluate world (n + 1) (.property e' name) m') := by
  rw [Run.evaluate, Run.evaluate]
  exact .bind (ih.evaluate alike target (single.inside .propertyTarget)) fun v _ _ _ alike =>
    follows_getProperty alike v _

theorem FollowsCalls.evaluate_setProperty {e e' v v' : Expr} {name : String}
    (target : e.Alike e') (value : v.Alike v')
    (single : (Task.evaluate (.setProperty e name v)).Single world (n + 1) m) :
    Follows Eq (Run.evaluate world (n + 1) (.setProperty e name v) m)
      (Run.evaluate world (n + 1) (.setProperty e' name v') m') := by
  rw [Run.evaluate, Run.evaluate]
  refine .bind (ih.evaluate alike value (single.inside .setPropertyValue)) fun v m₁ m₁' hv alike => ?_
  exact .bind (ih.evaluate alike target (single.inside (.setPropertyTarget hv))) fun w _ _ _ alike =>
    follows_setProperty alike w _ v

theorem FollowsCalls.evaluate_unary {op : UnaryOp} {e e' : Expr} (operand : e.Alike e')
    (single : (Task.evaluate (.unary op e)).Single world (n + 1) m) :
    Follows Eq (Run.evaluate world (n + 1) (.unary op e) m) (Run.evaluate world (n + 1) (.unary op e') m') := by
  rw [Run.evaluate, Run.evaluate]
  exact .bind (ih.evaluate alike operand (single.inside .operand)) fun _ _ _ _ alike => .ofExcept alike _

theorem FollowsCalls.evaluate_binary {e₁ e₁' e₂ e₂' : Expr} {op : BinaryOp}
    (left : e₁.Alike e₁') (right : e₂.Alike e₂')
    (single : (Task.evaluate (.binary e₁ op e₂)).Single world (n + 1) m) :
    Follows Eq (Run.evaluate world (n + 1) (.binary e₁ op e₂) m)
      (Run.evaluate world (n + 1) (.binary e₁' op e₂') m') := by
  rw [Run.evaluate, Run.evaluate]
  refine .bind (ih.evaluate alike left (single.inside .binaryLeft)) fun v m₁ m₁' hl alike => ?_
  exact .bind (ih.evaluate alike right (single.inside (.binaryRight hl))) fun _ _ _ _ alike => .ofExcept alike _

theorem FollowsCalls.evaluate_logical {e₁ e₁' e₂ e₂' : Expr} {op : LogicalOp}
    (first : e₁.Alike e₁') (second : e₂.Alike e₂')
    (single : (Task.evaluate (.logical e₁ op e₂)).Single world (n + 1) m) :
    Follows Eq (Run.evaluate world (n + 1) (.logical e₁ op e₂) m)
      (Run.evaluate world (n + 1) (.logical e₁' op e₂') m') := by
  rw [Run.evaluate, Run.evaluate]
  refine .bind (ih.evaluate alike first (single.inside .logicalLeft)) fun v m₁ m₁' hl alike => ?_
  cases op with
  | and =>
    dsimp only
    split
    · next truthy => exact ih.evaluate alike second (single.inside (.andRight hl truthy))
    · exact .pure alike _
  | or =>
    dsimp only
    split
    · exact .pure alike _
    · next falsy => exact ih.evaluate alike second (single.inside (.orRight hl (Bool.not_eq_true _ ▸ falsy)))

theorem FollowsCalls.evaluate_call {e e' : Expr} {es es' : List Expr}
    (callee : e.Alike e') (args : List.Forall₂ Expr.Alike es es')
    (single : (Task.evaluate (.call e es)).Single world (n + 1) m) :
    Follows Eq (Run.evaluate world (n + 1) (.call e es) m) (Run.evaluate world (n + 1) (.call e' es') m') := by
  rw [Run.evaluate, Run.evaluate]
  refine .bind (ih.evaluate alike callee (single.inside .callee)) fun v m₁ m₁' hc alike => ?_
  refine .bindRelated (follows_asCallable alike v) fun callable callable' m₂ m₂' isCallable code alike₂ => ?_
  obtain ⟨id, rfl, found, rfl⟩ := asCallable_ok isCallable
  rw [code.checkArity_eq, ← args.length_eq]
  refine .bind (.ofExcept alike₂ _) fun _ m₃ m₃' checked alike₃ => ?_
  obtain ⟨passed, rfl⟩ := ofExcept_ok checked
  have arity := Callable.checkArity_ok passed
  refine .bind (ih.evaluateAll alike₃ args (single.inside (.args hc found arity))) fun values m₄ m₄' ha alike₄ => ?_
  exact ih.call alike₄ code (single.inside (.called hc found arity ha))

theorem FollowsCalls.evaluate_list {es es' : List Expr} (items : List.Forall₂ Expr.Alike es es')
    (single : (Task.evaluate (.list es)).Single world (n + 1) m) :
    Follows Eq (Run.evaluate world (n + 1) (.list es) m) (Run.evaluate world (n + 1) (.list es') m') := by
  rw [Run.evaluate, Run.evaluate]
  refine .bind (ih.evaluateAll alike items (single.inside .items)) fun values m₁ m₁' _ alike => ?_
  exact .bind (.changeData alike fun _ _ _ => rfl) fun _ _ _ _ alike => .pure alike _

theorem FollowsCalls.evaluate_object {es es' : List (String × Expr)} (keys : es'.map (·.1) = es.map (·.1))
    (values : List.Forall₂ Expr.Alike (es.map (·.2)) (es'.map (·.2)))
    (single : (Task.evaluate (.object es)).Single world (n + 1) m) :
    Follows Eq (Run.evaluate world (n + 1) (.object es) m) (Run.evaluate world (n + 1) (.object es') m') := by
  rw [Run.evaluate, Run.evaluate, keys]
  refine .bind (ih.evaluateAll alike values (single.inside .properties)) fun values m₁ m₁' _ alike => ?_
  exact .bind (.changeData alike fun _ _ _ => rfl) fun _ _ _ _ alike => .pure alike _

omit ih in
theorem follows_method {params : List String} {body body' : List Stmt} (code : List.Forall₂ Stmt.Alike body body') :
    Follows Eq (Run.evaluate world (n + 1) (.method params body) m)
      (Run.evaluate world (n + 1) (.method params body') m') := by
  rw [Run.evaluate, Run.evaluate]
  refine .bindInterpreter alike ?_
  exact .bind (.newMethod alike (.script code)) fun _ _ _ _ alike => .pure alike _

theorem FollowsCalls.evaluate_succ {e e' : Expr} (code : e.Alike e')
    (single : (Task.evaluate e).Single world (n + 1) m) :
    Follows Eq (Run.evaluate world (n + 1) e m) (Run.evaluate world (n + 1) e' m') := by
  cases code.matches with
  | literal => exact .pure alike _
  | group inner => exact ih.evaluate alike inner (single.inside .inner)
  | lookup => exact follows_lookup alike _ _ _ single
  | assign value => exact ih.evaluate_assign alike value single
  | item target index => exact ih.evaluate_item alike target index single
  | setItem target index value => exact ih.evaluate_setItem alike target index value single
  | property target => exact ih.evaluate_property alike target single
  | setProperty target value => exact ih.evaluate_setProperty alike target value single
  | unary operand => exact ih.evaluate_unary alike operand single
  | binary left right => exact ih.evaluate_binary alike left right single
  | logical first second => exact ih.evaluate_logical alike first second single
  | call callee args => exact ih.evaluate_call alike callee args single
  | list items => exact ih.evaluate_list alike items single
  | object keys values => exact ih.evaluate_object alike keys values single
  | method body => exact follows_method alike body

theorem FollowsCalls.evaluateAll_succ {es es' : List Expr} (code : List.Forall₂ Expr.Alike es es')
    (single : (Task.evaluateAll es).Single world (n + 1) m) :
    Follows Eq (Run.evaluateAll world (n + 1) es m) (Run.evaluateAll world (n + 1) es' m') := by
  cases code with
  | nil => exact .pure alike _
  | cons first rest =>
    rw [Run.evaluateAll, Run.evaluateAll]
    refine .bind (ih.evaluate alike first (single.inside .firstExpr)) fun v m₁ m₁' hf alike => ?_
    exact .bind (ih.evaluateAll alike rest (single.inside (.restExprs hf))) fun _ _ _ _ alike => .pure alike _

theorem FollowsCalls.call_succ {callable callable' : Callable} (code : callable.Alike callable') {args : List Value}
    (single : (Task.call callable args).Single world (n + 1) m) :
    Follows Eq (Run.call world (n + 1) callable args m) (Run.call world (n + 1) callable' args m') := by
  cases code with
  | function code =>
    rw [Run.call, Run.call]
    refine .frameWith alike _ _ _ fun frame heap m₁' entry alike => ?_
    exact ih.runBody alike code (single.inside (.functionBody entry))
  | bound code =>
    cases code with
    | script code =>
      rw [Run.call, Run.call]
      refine .frameWith alike _ ["this"] [_] fun around heap₁ m₁' outer alike => ?_
      refine .frameWith alike _ _ _ fun frame heap₂ m₂' entry alike => ?_
      exact ih.runBody alike code (single.inside (.methodBody outer entry))
    | list => exact follows_callListMethod alike _ _ _
    | decoder => exact follows_callDecoder alike world _
  | builtin => exact follows_callBuiltin alike _ _

theorem FollowsCalls.runBody_succ {frame : FrameId} {body body' : List Stmt}
    (code : List.Forall₂ Stmt.Alike body body')
    (single : (Task.runBody frame body).Single world (n + 1) m) :
    Follows Eq (Run.runBody world (n + 1) frame body m) (Run.runBody world (n + 1) frame body' m') := by
  rw [Run.runBody, Run.runBody]
  refine .bind (.withScope alike frame (ih.executeAll (alike.inFrame frame) code (single.inside .body))) ?_
  intro done m₁ m₁' _ alike
  cases done with
  | normal | returned => exact .pure alike _
  | leftLoop | nextRound => exact .fault alike _

theorem FollowsCalls.execute_expression {e e' : Expr} (value : e.Alike e')
    (single : (Task.execute (.expression e)).Single world (n + 1) m) :
    Follows Eq (Run.execute world (n + 1) (.expression e) m) (Run.execute world (n + 1) (.expression e') m') := by
  rw [Run.execute, Run.execute]
  exact .bind (ih.evaluate alike value (single.inside .value)) fun _ _ _ _ alike => .pure alike _

theorem FollowsCalls.execute_declare_some {name : String} {e e' : Expr} (initial : e.Alike e')
    (single : (Task.execute (.declare name (some e))).Single world (n + 1) m) :
    Follows Eq (Run.execute world (n + 1) (.declare name (some e)) m)
      (Run.execute world (n + 1) (.declare name (some e')) m') := by
  rw [Run.execute, Run.execute]
  refine .bind (ih.evaluate alike initial (single.inside .initial)) fun v m₁ m₁' _ alike => ?_
  exact .bind (.declare alike _ v) fun _ _ _ _ alike => .pure alike _

theorem FollowsCalls.execute_block {stmts stmts' : List Stmt} (body : List.Forall₂ Stmt.Alike stmts stmts')
    (single : (Task.execute (.block stmts)).Single world (n + 1) m) :
    Follows Eq (Run.execute world (n + 1) (.block stmts) m) (Run.execute world (n + 1) (.block stmts') m') := by
  rw [Run.execute, Run.execute]
  refine .bind (.innerFrame alike) fun frame m₁ m₁' opened alike => ?_
  cases opened
  exact .withScope alike _ (ih.executeAll (alike.inFrame _) body (single.inside .block))

theorem FollowsCalls.execute_branch_none {e e' : Expr} {s s' : Stmt} (condition : e.Alike e') (yes : s.Alike s')
    (single : (Task.execute (.branch e s none)).Single world (n + 1) m) :
    Follows Eq (Run.execute world (n + 1) (.branch e s none) m)
      (Run.execute world (n + 1) (.branch e' s' none) m') := by
  unfold Run.execute
  refine .bind (ih.evaluate alike condition (single.inside .branchCondition)) fun v m₁ m₁' hc alike => ?_
  dsimp only
  split
  · next truthy => exact ih.execute alike yes (single.inside (.yes hc truthy))
  · exact .pure alike _

theorem FollowsCalls.execute_branch_some {e e' : Expr} {s s' t t' : Stmt}
    (condition : e.Alike e') (yes : s.Alike s') (no : t.Alike t')
    (single : (Task.execute (.branch e s (some t))).Single world (n + 1) m) :
    Follows Eq (Run.execute world (n + 1) (.branch e s (some t)) m)
      (Run.execute world (n + 1) (.branch e' s' (some t')) m') := by
  unfold Run.execute
  refine .bind (ih.evaluate alike condition (single.inside .branchCondition)) fun v m₁ m₁' hc alike => ?_
  dsimp only
  split
  · next truthy => exact ih.execute alike yes (single.inside (.yes hc truthy))
  · next falsy => exact ih.execute alike no (single.inside (.no hc (Bool.not_eq_true _ ▸ falsy)))

omit ih in
theorem follows_function {name : String} {params : List String} {body body' : List Stmt}
    (code : List.Forall₂ Stmt.Alike body body') :
    Follows Eq (Run.execute world (n + 1) (.function name params body) m)
      (Run.execute world (n + 1) (.function name params body') m') := by
  rw [Run.execute, Run.execute]
  refine .bindInterpreter alike (.bind (.newCallable alike (.function code)) fun id _ _ _ alike => ?_)
  exact .bind (.declare alike _ _) fun _ _ _ _ alike => .pure alike _

theorem FollowsCalls.execute_giveBack_some {e e' : Expr} (value : e.Alike e')
    (single : (Task.execute (.giveBack (some e))).Single world (n + 1) m) :
    Follows Eq (Run.execute world (n + 1) (.giveBack (some e)) m)
      (Run.execute world (n + 1) (.giveBack (some e')) m') := by
  rw [Run.execute, Run.execute]
  exact .bind (ih.evaluate alike value (single.inside .returned)) fun _ _ _ _ alike => .pure alike _

theorem FollowsCalls.execute_importFrom {e e' : Expr} (source : e.Alike e')
    (single : (Task.execute (.importFrom e)).Single world (n + 1) m) :
    Follows Eq (Run.execute world (n + 1) (.importFrom e) m) (Run.execute world (n + 1) (.importFrom e') m') := by
  rw [Run.execute, Run.execute]
  refine .bind (ih.evaluate alike source (single.inside .source)) fun path m₁ m₁' hs alike => ?_
  exact .bind (ih.importFile alike (single.inside (.importFile hs))) fun _ _ _ _ alike => .pure alike _

theorem FollowsCalls.execute_exportAs {name : String} {e e' : Expr} (value : e.Alike e')
    (single : (Task.execute (.exportAs name e)).Single world (n + 1) m) :
    Follows Eq (Run.execute world (n + 1) (.exportAs name e) m)
      (Run.execute world (n + 1) (.exportAs name e') m') := by
  rw [Run.execute, Run.execute]
  refine .bind (ih.evaluate alike value (single.inside .exported)) fun v m₁ m₁' _ alike => ?_
  exact .bind (.addExport alike _ v) fun _ _ _ _ alike => .pure alike _

theorem FollowsCalls.execute_succ {stmt stmt' : Stmt} (code : stmt.Alike stmt')
    (single : (Task.execute stmt).Single world (n + 1) m) :
    Follows Eq (Run.execute world (n + 1) stmt m) (Run.execute world (n + 1) stmt' m') := by
  cases code.matches with
  | expression value => exact ih.execute_expression alike value single
  | declare_none => exact .bind (.declare alike _ _) fun _ _ _ _ alike => .pure alike _
  | declare_some initial => exact ih.execute_declare_some alike initial single
  | block body => exact ih.execute_block alike body single
  | branch_none condition yes => exact ih.execute_branch_none alike condition yes single
  | branch_some condition yes no => exact ih.execute_branch_some alike condition yes no single
  | loop condition body => exact ih.loop alike condition body (single.inside .loop)
  | function body => exact follows_function alike body
  | giveBack_none | leaveLoop | nextRound | empty => exact .pure alike _
  | giveBack_some value => exact ih.execute_giveBack_some alike value single
  | importFrom source => exact ih.execute_importFrom alike source single
  | exportAs value => exact ih.execute_exportAs alike value single

theorem FollowsCalls.executeAll_succ {stmts stmts' : List Stmt} (code : List.Forall₂ Stmt.Alike stmts stmts')
    (single : (Task.executeAll stmts).Single world (n + 1) m) :
    Follows Eq (Run.executeAll world (n + 1) stmts m) (Run.executeAll world (n + 1) stmts' m') := by
  cases code with
  | nil => exact .pure alike _
  | cons first rest =>
    rw [Run.executeAll, Run.executeAll]
    refine .bind (ih.execute alike first (single.inside .firstStmt)) fun done m₁ m₁' hf alike => ?_
    cases done with
    | normal => exact ih.executeAll alike rest (single.inside (.restStmts hf))
    | _ => exact .pure alike _

theorem FollowsCalls.loop_succ {condition condition' : Expr} (tested : condition.Alike condition')
    {body body' : List Stmt} (code : List.Forall₂ Stmt.Alike body body')
    (single : (Task.loop condition body).Single world (n + 1) m) :
    Follows Eq (Run.loop world (n + 1) condition body m) (Run.loop world (n + 1) condition' body' m') := by
  rw [Run.loop, Run.loop]
  refine .bind (ih.evaluate alike tested (single.inside .loopCondition)) fun v m₁ m₁' hc alike => ?_
  by_cases truthy : v.isTruthy = true
  · simp only [if_pos truthy]
    refine .bind (.innerFrame alike) fun frame m₂ m₂' opened alike => ?_
    cases opened
    have inside := ih.executeAll (alike.inFrame _) code (single.inside (.loopBody hc truthy))
    refine .bind (.withScope alike _ inside) fun done m₃ m₃' ran alike => ?_
    obtain ⟨m₄, within, rfl⟩ := withScope_ok ran
    have hb : Run.executeAll world n body m₁.opened = .ok done m₄ := within
    cases done with
    | leftLoop | returned => exact .pure alike _
    | normal =>
      have again := single.inside (Enters.nextRound hc truthy hb (.inl rfl))
      exact ih.loop alike tested code again
    | nextRound =>
      have again := single.inside (Enters.nextRound hc truthy hb (.inr rfl))
      exact ih.loop alike tested code again
  · simp only [if_neg truthy]
    exact .pure alike _

theorem FollowsCalls.executeProgram_succ {stmts stmts' : List Stmt} (code : List.Forall₂ Stmt.Alike stmts stmts')
    (single : (Task.executeProgram stmts).Single world (n + 1) m) :
    Follows Eq (Run.executeProgram world (n + 1) stmts m) (Run.executeProgram world (n + 1) stmts' m') := by
  cases code with
  | nil => exact .pure alike _
  | cons first rest =>
    rw [Run.executeProgram, Run.executeProgram]
    refine .bind (ih.execute alike first (single.inside .firstOfProgram)) fun done m₁ m₁' hf alike => ?_
    cases done with
    | normal => exact ih.executeProgram alike rest (single.inside (.restOfProgram hf))
    | _ => exact .fault alike _

theorem FollowsCalls.importFile_succ {path : Value} (single : (Task.importFile path).Single world (n + 1) m) :
    Follows Eq (Run.importFile world (n + 1) path m) (Run.importFile world (n + 1) path m') := by
  cases path with
  | string path =>
    rw [Run.importFile]
    refine .bindInterpreter alike ?_
    cases found : world.resolveFrom m.interpreter.directory path with
    | error error => exact .fault alike _
    | ok place =>
      dsimp only
      split
      · exact .fault alike _
      · next fresh =>
        cases read : world.readText place with
        | error error => exact .fault alike _
        | ok text =>
          dsimp only
          cases accepted : Program.ofText text with
          | error errors => exact .fault alike _
          | ok program =>
            obtain ⟨same, started⟩ := alike.heap.start (some place.parent) (m.interpreter.imports ++ [place])
            refine .bind (.changeHeap alike same.symm started) fun imported m₁ m₁' made alike => ?_
            cases made
            have entry : (m.importing place).Alike { m₁' with interpreter := (m.importing place).interpreter } :=
              ⟨alike.out, rfl, alike.heap⟩
            have entered := ih.executeProgram entry (stmts_alike_refl program)
              (single.inside (.program found fresh read accepted))
            refine .bind (.withInterpreter alike _ entered) fun exports _ _ _ alike => ?_
            exact .changeHeap alike rfl (alike.heap.declareAll _ _)
  | _ => exact .faultText alike _ _

omit ih alike in
theorem follows_calls (world : World) (n : Nat) : FollowsCalls world n := by
  induction n with
  | zero => exact .zero
  | succ n ih =>
    exact ⟨ih.evaluate_succ, ih.evaluateAll_succ, ih.call_succ, ih.runBody_succ, ih.execute_succ, ih.executeAll_succ,
      ih.loop_succ, ih.executeProgram_succ, ih.importFile_succ⟩

end HookScript.Run
