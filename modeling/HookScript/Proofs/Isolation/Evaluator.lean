import HookScript.Proofs.Isolation.Primitives

/-!
The evaluator in lockstep, by going through it once: whatever it runs on a sound machine, it runs above any other
machine as well.
-/

namespace HookScript

namespace Run

structure LiftsCalls (world : World) (base : Machine) (n : Nat) : Prop where
  evaluate {m : Machine} (sound : m.Sound) (expr : Expr) :
    Lifts base m (Run.evaluate world n expr) (Run.evaluate world n expr)
  evaluateAll {m : Machine} (sound : m.Sound) (exprs : List Expr) :
    Lifts base m (Run.evaluateAll world n exprs) (Run.evaluateAll world n exprs)
  call {m : Machine} (sound : m.Sound) {callable : Callable} {args : List Value}
      (within : callable.All (·.In m.heap)) (given : ∀ value ∈ args, value.In m.heap) :
    Lifts base m (Run.call world n callable args)
      (Run.call world n (callable.above base.heap) (args.map (·.above base.heap)))
  runBody {m : Machine} (sound : m.Sound) (frame : FrameId) (body : List Stmt) :
    Lifts base m (Run.runBody world n frame body) (Run.runBody world n (frame.above base.heap) body)
  execute {m : Machine} (sound : m.Sound) (stmt : Stmt) :
    Lifts base m (Run.execute world n stmt) (Run.execute world n stmt)
  executeAll {m : Machine} (sound : m.Sound) (stmts : List Stmt) :
    Lifts base m (Run.executeAll world n stmts) (Run.executeAll world n stmts)
  loop {m : Machine} (sound : m.Sound) (condition : Expr) (body : List Stmt) :
    Lifts base m (Run.loop world n condition body) (Run.loop world n condition body)
  executeProgram {m : Machine} (sound : m.Sound) (stmts : List Stmt) :
    Lifts base m (Run.executeProgram world n stmts) (Run.executeProgram world n stmts)
  importFile {m : Machine} (sound : m.Sound) (path : Value) :
    Lifts base m (Run.importFile world n path) (Run.importFile world n (path.above base.heap))

variable {world : World} {base m : Machine} {n : Nat}

theorem LiftsCalls.zero : LiftsCalls world base 0 := by
  constructor <;> intros <;> exact .outOfFuel

variable (ih : LiftsCalls world base n) (sound : m.Sound)
include ih sound

omit ih in
theorem lifts_lookup (name : String) (level : Nat) :
    Lifts base m (Run.evaluate world (n + 1) (.lookup name level))
      (Run.evaluate world (n + 1) (.lookup name level)) := by
  rw [Run.evaluate]
  refine .bind (.lookup? sound level name) fun found m₁ _ leads => ?_
  cases found with
  | some value => exact .pure leads.sound (leads.within value rfl)
  | none => exact .fault _

theorem LiftsCalls.evaluate_assign (name : String) (level : Nat) (value : Expr) :
    Lifts base m (Run.evaluate world (n + 1) (.assign name level value))
      (Run.evaluate world (n + 1) (.assign name level value)) := by
  rw [Run.evaluate]
  refine .bind (ih.evaluate sound value) fun v m₁ _ leads => ?_
  refine .bindInterpreter (.bindRead ?_)
  rw [Interpreter.scope_above, Heap.assignee?_above]
  cases m₁.heap.assignee? m₁.interpreter.scope level name with
  | none => exact .fault _
  | some frame =>
    have moved := congrArg (Prod.mk (v.above base.heap)) (Heap.declare_above base.heap m₁.heap frame name v)
    exact .changeHeap leads.sound moved (Heap.larger_declare _ _ _ _) (leads.sound.closed.declare leads.within)
      leads.within

theorem LiftsCalls.evaluate_item (target index : Expr) :
    Lifts base m (Run.evaluate world (n + 1) (.item target index))
      (Run.evaluate world (n + 1) (.item target index)) := by
  rw [Run.evaluate]
  refine .bind (ih.evaluate sound target) fun v m₁ _ leads₁ => ?_
  refine .bind (lifts_asList leads₁.sound leads₁.within) fun list m₂ _ leads₂ => ?_
  refine .bind (ih.evaluate leads₂.sound index) fun i m₃ _ leads₃ => ?_
  refine .bind (lifts_position leads₃.sound list i) fun k m₄ _ leads₄ => ?_
  exact lifts_readItem leads₄.sound list k

theorem LiftsCalls.evaluate_setItem (target index value : Expr) :
    Lifts base m (Run.evaluate world (n + 1) (.setItem target index value))
      (Run.evaluate world (n + 1) (.setItem target index value)) := by
  rw [Run.evaluate]
  refine .bind (ih.evaluate sound value) fun v m₁ _ leads₁ => ?_
  refine .bind (ih.evaluate leads₁.sound target) fun w m₂ _ leads₂ => ?_
  refine .bind (lifts_asList leads₂.sound leads₂.within) fun list m₃ _ leads₃ => ?_
  refine .bind (ih.evaluate leads₃.sound index) fun i m₄ _ leads₄ => ?_
  refine .bind (lifts_position leads₄.sound list i) fun k m₅ _ leads₅ => ?_
  have within : v.In m₅.heap :=
    leads₁.within.mono (leads₂.larger.trans (leads₃.larger.trans (leads₄.larger.trans leads₅.larger)))
  exact lifts_setItem leads₅.sound list k within

theorem LiftsCalls.evaluate_property (target : Expr) (name : String) :
    Lifts base m (Run.evaluate world (n + 1) (.property target name))
      (Run.evaluate world (n + 1) (.property target name)) := by
  rw [Run.evaluate]
  exact .bind (ih.evaluate sound target) fun v m₁ _ leads => lifts_getProperty leads.sound name leads.within

theorem LiftsCalls.evaluate_setProperty (target : Expr) (name : String) (value : Expr) :
    Lifts base m (Run.evaluate world (n + 1) (.setProperty target name value))
      (Run.evaluate world (n + 1) (.setProperty target name value)) := by
  rw [Run.evaluate]
  refine .bind (ih.evaluate sound value) fun v m₁ _ leads₁ => ?_
  refine .bind (ih.evaluate leads₁.sound target) fun w m₂ _ leads₂ => ?_
  exact lifts_setProperty leads₂.sound name (leads₁.within.mono leads₂.larger)

theorem LiftsCalls.evaluate_unary (op : UnaryOp) (operand : Expr) :
    Lifts base m (Run.evaluate world (n + 1) (.unary op operand))
      (Run.evaluate world (n + 1) (.unary op operand)) := by
  rw [Run.evaluate]
  refine .bind (ih.evaluate sound operand) fun v m₁ _ leads => ?_
  exact .ofExcept leads.sound (op.apply_above base.heap v) fun _ => UnaryOp.apply_plain

theorem LiftsCalls.evaluate_binary (left : Expr) (op : BinaryOp) (right : Expr) :
    Lifts base m (Run.evaluate world (n + 1) (.binary left op right))
      (Run.evaluate world (n + 1) (.binary left op right)) := by
  rw [Run.evaluate]
  refine .bind (ih.evaluate sound left) fun v m₁ _ leads₁ => ?_
  refine .bind (ih.evaluate leads₁.sound right) fun w m₂ _ leads₂ => ?_
  exact .ofExcept leads₂.sound (op.apply_above base.heap v w) fun _ => BinaryOp.apply_plain

theorem LiftsCalls.evaluate_logical (left : Expr) (op : LogicalOp) (right : Expr) :
    Lifts base m (Run.evaluate world (n + 1) (.logical left op right))
      (Run.evaluate world (n + 1) (.logical left op right)) := by
  rw [Run.evaluate]
  refine .bind (ih.evaluate sound left) fun v m₁ _ leads => ?_
  cases op with
  | and =>
    exact .ite (v.isTruthy_above base.heap) (fun _ => ih.evaluate leads.sound right) fun _ =>
      .pure leads.sound leads.within
  | or =>
    exact .ite (v.isTruthy_above base.heap) (fun _ => .pure leads.sound leads.within) fun _ =>
      ih.evaluate leads.sound right

theorem LiftsCalls.evaluate_call (callee : Expr) (args : List Expr) :
    Lifts base m (Run.evaluate world (n + 1) (.call callee args))
      (Run.evaluate world (n + 1) (.call callee args)) := by
  rw [Run.evaluate]
  refine .bind (ih.evaluate sound callee) fun v m₁ _ leads₁ => ?_
  refine .bind (lifts_asCallable leads₁.sound v) fun callable m₂ _ leads₂ => ?_
  refine .bindExcept (callable.checkArity_above base.heap _) fun _ _ => ?_
  refine .bind (ih.evaluateAll leads₂.sound args) fun values m₃ _ leads₃ => ?_
  -- The callable was there before the arguments; what it holds is still in the heap after them.
  have here : callable.All (·.In m₂.heap) := leads₂.within
  exact ih.call leads₃.sound (here.mono fun _ had => had.mono leads₃.larger) leads₃.within

theorem LiftsCalls.evaluate_list (items : List Expr) :
    Lifts base m (Run.evaluate world (n + 1) (.list items)) (Run.evaluate world (n + 1) (.list items)) := by
  rw [Run.evaluate]
  exact .bind (ih.evaluateAll sound items) fun values m₁ _ leads => lifts_newList leads.sound leads.within

theorem LiftsCalls.evaluate_object (properties : List (String × Expr)) :
    Lifts base m (Run.evaluate world (n + 1) (.object properties))
      (Run.evaluate world (n + 1) (.object properties)) := by
  rw [Run.evaluate]
  exact .bind (ih.evaluateAll sound _) fun values m₁ _ leads => lifts_newObject leads.sound _ leads.within

omit ih in
theorem lifts_method (params : List String) (body : List Stmt) :
    Lifts base m (Run.evaluate world (n + 1) (.method params body))
      (Run.evaluate world (n + 1) (.method params body)) := by
  rw [Run.evaluate]
  refine .bindInterpreter ?_
  have moved := Heap.newMethod_above base.heap m.heap (.script params body m.interpreter.globals)
  have larger : m.heap.Larger (m.heap.newMethod (.script params body m.interpreter.globals)).2 :=
    Heap.larger_of_size rfl rfl
  exact .bindChange moved larger (.pure (sound.withHeap (sound.closed.newMethod _) larger) trivial)

theorem LiftsCalls.evaluate_succ (expr : Expr) :
    Lifts base m (Run.evaluate world (n + 1) expr) (Run.evaluate world (n + 1) expr) := by
  cases expr with
  | literal literal => exact .plain sound (literalValue_plain literal)
  | group inner => exact ih.evaluate sound inner
  | lookup name level => exact lifts_lookup sound name level
  | assign name level value => exact ih.evaluate_assign sound name level value
  | item target index => exact ih.evaluate_item sound target index
  | setItem target index value => exact ih.evaluate_setItem sound target index value
  | property target name => exact ih.evaluate_property sound target name
  | setProperty target name value => exact ih.evaluate_setProperty sound target name value
  | unary op operand => exact ih.evaluate_unary sound op operand
  | binary left op right => exact ih.evaluate_binary sound left op right
  | logical left op right => exact ih.evaluate_logical sound left op right
  | call callee args => exact ih.evaluate_call sound callee args
  | list items => exact ih.evaluate_list sound items
  | object properties => exact ih.evaluate_object sound properties
  | method params body => exact lifts_method sound params body

theorem LiftsCalls.evaluateAll_succ (exprs : List Expr) :
    Lifts base m (Run.evaluateAll world (n + 1) exprs) (Run.evaluateAll world (n + 1) exprs) := by
  cases exprs with
  | nil => exact .pure sound (List.forall_mem_nil _)
  | cons first rest =>
    rw [Run.evaluateAll]
    refine .bind (ih.evaluate sound first) fun v m₁ _ leads₁ => ?_
    refine .bind (ih.evaluateAll leads₁.sound rest) fun values m₂ _ leads₂ => ?_
    exact .pure leads₂.sound (List.forall_mem_cons.2 ⟨leads₁.within.mono leads₂.larger, leads₂.within⟩)

theorem LiftsCalls.call_succ {callable : Callable} {args : List Value} (within : callable.All (·.In m.heap))
    (given : ∀ value ∈ args, value.In m.heap) : Lifts base m (Run.call world (n + 1) callable args)
      (Run.call world (n + 1) (callable.above base.heap) (args.map (·.above base.heap))) := by
  have argument : (args.headD .nil).In m.heap := by
    cases args with
    | nil => trivial
    | cons first rest => exact given first List.mem_cons_self
  have moved : (args.map (·.above base.heap)).headD .nil = (args.headD .nil).above base.heap := by
    cases args <;> rfl
  cases callable with
  | function name params body closure =>
    exact .frameWith sound given fun frame m₁ opened _ => ih.runBody opened frame body
  | bound method receiver =>
    cases method with
    | script params body globals =>
      refine .frameWith sound (List.forall_mem_singleton.2 within) fun around m₁ opened larger => ?_
      have given₁ : ∀ value ∈ args, value.In m₁.heap := fun value mem => (given value mem).mono larger
      exact .frameWith opened given₁ fun frame m₂ inner _ => ih.runBody inner frame body
    | list method =>
      have called : Lifts base m _ _ := lifts_callListMethod sound method within argument
      rwa [← moved] at called
    | decoder format id => exact lifts_callDecoder sound world id
  | builtin builtin =>
    have called : Lifts base m _ _ := lifts_callBuiltin sound builtin argument
    rwa [← moved] at called

theorem LiftsCalls.runBody_succ (frame : FrameId) (body : List Stmt) :
    Lifts base m (Run.runBody world (n + 1) frame body) (Run.runBody world (n + 1) (frame.above base.heap) body) := by
  rw [Run.runBody, Run.runBody]
  refine .bind (.withScope (ih.executeAll (sound.inFrame frame) body)) fun done m₁ _ leads => ?_
  cases done with
  | normal => exact .pure leads.sound trivial
  | returned value => exact .pure leads.sound leads.within
  | leftLoop | nextRound => exact .fault _

theorem LiftsCalls.execute_expression (value : Expr) :
    Lifts base m (Run.execute world (n + 1) (.expression value)) (Run.execute world (n + 1) (.expression value)) := by
  rw [Run.execute]
  exact .bind (ih.evaluate sound value) fun _ _ _ leads => .pure leads.sound trivial

theorem LiftsCalls.execute_declare (name : String) (initial : Option Expr) :
    Lifts base m (Run.execute world (n + 1) (.declare name initial))
      (Run.execute world (n + 1) (.declare name initial)) := by
  cases initial with
  | none => exact .bind (.declare sound name trivial) fun _ _ _ leads => .pure leads.sound trivial
  | some initial =>
    rw [Run.execute]
    refine .bind (ih.evaluate sound initial) fun v m₁ _ leads₁ => ?_
    exact .bind (.declare leads₁.sound name leads₁.within) fun _ _ _ leads₂ => .pure leads₂.sound trivial

theorem LiftsCalls.execute_block (body : List Stmt) :
    Lifts base m (Run.execute world (n + 1) (.block body)) (Run.execute world (n + 1) (.block body)) := by
  rw [Run.execute]
  refine .bind (.innerFrame sound) fun frame m₁ _ leads => ?_
  exact .withScope (ih.executeAll (leads.sound.inFrame frame) body)

theorem LiftsCalls.execute_branch (condition : Expr) (yes : Stmt) (no : Option Stmt) :
    Lifts base m (Run.execute world (n + 1) (.branch condition yes no))
      (Run.execute world (n + 1) (.branch condition yes no)) := by
  unfold Run.execute
  refine .bind (ih.evaluate sound condition) fun v m₁ _ leads => ?_
  refine .ite (v.isTruthy_above base.heap) (fun _ => ih.execute leads.sound yes) fun _ => ?_
  cases no with
  | none => exact .pure leads.sound trivial
  | some no => exact ih.execute leads.sound no

omit ih in
theorem lifts_function (name : String) (params : List String) (body : List Stmt) :
    Lifts base m (Run.execute world (n + 1) (.function name params body))
      (Run.execute world (n + 1) (.function name params body)) := by
  rw [Run.execute]
  refine .bindInterpreter ?_
  have moved := Heap.newCallable_above base.heap m.heap (.function name params body m.interpreter.scope)
  have larger := Heap.larger_newCallable m.heap (.function name params body m.interpreter.scope)
  have held : Callable.All (·.In m.heap) (.function name params body m.interpreter.scope) := trivial
  have made := sound.withHeap (sound.closed.newCallable held) larger
  refine .bindChange moved larger ?_
  exact .bind (.declare made name trivial) fun _ _ _ leads => .pure leads.sound trivial

theorem LiftsCalls.execute_giveBack (value : Option Expr) :
    Lifts base m (Run.execute world (n + 1) (.giveBack value)) (Run.execute world (n + 1) (.giveBack value)) := by
  cases value with
  | none => exact .pure sound trivial
  | some value =>
    rw [Run.execute]
    exact .bind (ih.evaluate sound value) fun _ _ _ leads => .pure leads.sound leads.within

theorem LiftsCalls.execute_importFrom (source : Expr) :
    Lifts base m (Run.execute world (n + 1) (.importFrom source))
      (Run.execute world (n + 1) (.importFrom source)) := by
  rw [Run.execute]
  refine .bind (ih.evaluate sound source) fun path m₁ _ leads₁ => ?_
  exact .bind (ih.importFile leads₁.sound path) fun _ _ _ leads₂ => .pure leads₂.sound trivial

theorem LiftsCalls.execute_exportAs (name : String) (value : Expr) :
    Lifts base m (Run.execute world (n + 1) (.exportAs name value))
      (Run.execute world (n + 1) (.exportAs name value)) := by
  rw [Run.execute]
  refine .bind (ih.evaluate sound value) fun v m₁ _ leads₁ => ?_
  exact .bind (.addExport leads₁.sound name leads₁.within) fun _ _ _ leads₂ => .pure leads₂.sound trivial

theorem LiftsCalls.execute_succ (stmt : Stmt) :
    Lifts base m (Run.execute world (n + 1) stmt) (Run.execute world (n + 1) stmt) := by
  cases stmt with
  | expression value => exact ih.execute_expression sound value
  | declare name initial => exact ih.execute_declare sound name initial
  | block body => exact ih.execute_block sound body
  | branch condition yes no => exact ih.execute_branch sound condition yes no
  | loop condition body => exact ih.loop sound condition body
  | function name params body => exact lifts_function sound name params body
  | giveBack value => exact ih.execute_giveBack sound value
  | leaveLoop | nextRound | empty => exact .pure sound trivial
  | importFrom source => exact ih.execute_importFrom sound source
  | exportAs name value => exact ih.execute_exportAs sound name value

theorem LiftsCalls.executeAll_succ (stmts : List Stmt) :
    Lifts base m (Run.executeAll world (n + 1) stmts) (Run.executeAll world (n + 1) stmts) := by
  cases stmts with
  | nil => exact .pure sound trivial
  | cons first rest =>
    rw [Run.executeAll]
    refine .bind (ih.execute sound first) fun done m₁ _ leads => ?_
    cases done with
    | normal => exact ih.executeAll leads.sound rest
    | _ => exact .pure leads.sound leads.within

theorem LiftsCalls.loop_succ (condition : Expr) (body : List Stmt) :
    Lifts base m (Run.loop world (n + 1) condition body) (Run.loop world (n + 1) condition body) := by
  rw [Run.loop]
  refine .bind (ih.evaluate sound condition) fun v m₁ _ leads₁ => ?_
  refine .ite (v.isTruthy_above base.heap) (fun _ => ?_) fun _ => .pure leads₁.sound trivial
  refine .bind (.innerFrame leads₁.sound) fun frame m₂ _ leads₂ => ?_
  refine .bind (.withScope (ih.executeAll (leads₂.sound.inFrame frame) body)) fun done m₃ _ leads₃ => ?_
  cases done with
  | leftLoop => exact .pure leads₃.sound trivial
  | returned value => exact .pure leads₃.sound leads₃.within
  | normal | nextRound => exact ih.loop leads₃.sound condition body

theorem LiftsCalls.executeProgram_succ (stmts : List Stmt) :
    Lifts base m (Run.executeProgram world (n + 1) stmts) (Run.executeProgram world (n + 1) stmts) := by
  cases stmts with
  | nil => exact .pure sound trivial
  | cons first rest =>
    rw [Run.executeProgram]
    refine .bind (ih.execute sound first) fun done m₁ _ leads => ?_
    cases done with
    | normal => exact ih.executeProgram leads.sound rest
    | _ => exact .fault _

theorem LiftsCalls.importFile_succ (path : Value) :
    Lifts base m (Run.importFile world (n + 1) path) (Run.importFile world (n + 1) (path.above base.heap)) := by
  cases path with
  | string path =>
    rw [Value.above, Run.importFile]
    refine .bindInterpreter ?_
    rw [Interpreter.directory_above, Interpreter.imports_above]
    cases world.resolveFrom m.interpreter.directory path with
    | error error => exact .fault _
    | ok place =>
      dsimp only
      split
      · exact .fault _
      · cases world.readText place with
        | error error => exact .fault _
        | ok text =>
          dsimp only
          cases Program.ofText text with
          | error errors => exact .fault _
          | ok program =>
            have moved := Interpreter.start_above base.heap m.heap (some place.parent)
              (m.interpreter.imports ++ [place])
            have larger := Interpreter.larger_start m.heap (some place.parent) (m.interpreter.imports ++ [place])
            have closed := Interpreter.closed_start sound.closed (some place.parent) (m.interpreter.imports ++ [place])
            have entered := Interpreter.sound_start sound.closed m.out (some place.parent)
              (m.interpreter.imports ++ [place])
            refine .bindChange moved larger ?_
            refine .bind (.withInterpreter (sound.withHeap closed larger) (ih.executeProgram entered program)) ?_
            intro exports m₁ _ leads
            exact lifts_declareAll leads.sound m.interpreter.scope leads.within
  | _ => exact .bindText (.fault _)

omit ih sound in
theorem lifts_calls (world : World) (base : Machine) (n : Nat) : LiftsCalls world base n := by
  induction n with
  | zero => exact .zero
  | succ n ih =>
    exact ⟨ih.evaluate_succ, ih.evaluateAll_succ, ih.call_succ, ih.runBody_succ, ih.execute_succ, ih.executeAll_succ,
      ih.loop_succ, ih.executeProgram_succ, ih.importFile_succ⟩

end Run

end HookScript
