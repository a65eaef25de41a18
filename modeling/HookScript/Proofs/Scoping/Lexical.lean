import HookScript.Proofs.Scoping.Depth

/-!
Lexical scoping. Where nothing is imported, a name that is settled in its nearest scope is bound in the frame of
that scope by the time it is evaluated, so it means that binding whatever is declared in the scopes between.
-/

namespace HookScript

mutual

def Expr.importFree : Expr → Bool
  | .lookup _ _ | .literal _ => true
  | .assign _ _ value => value.importFree
  | .item target index => target.importFree && index.importFree
  | .setItem target index value => target.importFree && index.importFree && value.importFree
  | .property target _ => target.importFree
  | .setProperty target _ value => target.importFree && value.importFree
  | .group inner => inner.importFree
  | .unary _ operand => operand.importFree
  | .binary left _ right => left.importFree && right.importFree
  | .logical left _ right => left.importFree && right.importFree
  | .call callee args => callee.importFree && importFreeExprs args
  | .list items => importFreeExprs items
  | .object properties => importFreeProperties properties
  | .method _ body => importFreeStmts body

def importFreeExprs : List Expr → Bool
  | [] => true
  | first :: rest => first.importFree && importFreeExprs rest

def importFreeProperties : List (String × Expr) → Bool
  | [] => true
  | (_, value) :: rest => value.importFree && importFreeProperties rest

def Stmt.importFree : Stmt → Bool
  | .expression value => value.importFree
  | .declare _ none => true
  | .declare _ (some initial) => initial.importFree
  | .block body => importFreeStmts body
  | .branch condition yes none => condition.importFree && yes.importFree
  | .branch condition yes (some no) => condition.importFree && yes.importFree && no.importFree
  | .loop condition body => condition.importFree && importFreeStmts body
  | .function _ _ body => importFreeStmts body
  | .giveBack none => true
  | .giveBack (some value) => value.importFree
  | .leaveLoop | .nextRound | .empty => true
  | .importFrom _ => false
  | .exportAs _ value => value.importFree

def importFreeStmts : List Stmt → Bool
  | [] => true
  | first :: rest => first.importFree && importFreeStmts rest

end

def Program.ImportFree (program : Program) : Prop := importFreeStmts program = true

def Task.ImportFree : Task → Prop
  | evaluate expr => expr.importFree = true
  | evaluateAll exprs => importFreeExprs exprs = true
  | runBody _ body => importFreeStmts body = true
  | execute stmt => stmt.importFree = true
  | executeAll stmts => importFreeStmts stmts = true
  | loop condition body => condition.importFree = true ∧ importFreeStmts body = true
  | executeProgram stmts => importFreeStmts stmts = true
  | call _ _ => True
  | importFile _ => False

theorem importFreeExprs_of_properties (properties : List (String × Expr)) :
    importFreeExprs (properties.map (·.2)) = importFreeProperties properties := by
  induction properties with
  | nil => rfl
  | cons property rest ih => rw [List.map_cons, importFreeExprs, importFreeProperties, ih]

theorem Run.Enters.importFree {world : World} {n : Nat} {move : Move} {t t' : Task} {m m' : Machine}
    (enters : Run.Enters world n move t m t' m') (here : move ≠ .call) (free : t.ImportFree) : t'.ImportFree := by
  cases enters with
  | functionBody | methodBody => exact absurd rfl here
  | @branchCondition _ _ no | @yes _ _ no =>
    cases no <;> simp_all [Task.ImportFree, Stmt.importFree]
  | _ =>
    simp_all [Task.ImportFree, Expr.importFree, Stmt.importFree, importFreeExprs, importFreeStmts,
      importFreeExprs_of_properties]

/-- A statement settles the name that it declares in its own scope. -/
def Stmt.Settles (name : String) : Stmt → Prop
  | declare other _ | function other _ _ => other = name
  | _ => False

/-- What the scopes around a place have settled is bound in the frames of those scopes. -/
def Heap.Settles (heap : Heap) : List Scope → List FrameId → Prop
  | [], _ => True
  | _ :: _, [] => False
  | scope :: scopes, frame :: frames =>
    (∀ name ∈ scope.settled, heap.Binds frame name) ∧ heap.Settles scopes frames

namespace Heap.Settles

variable {heap heap' : Heap} {scopes : List Scope} {frames : List FrameId}

theorem of_extends (settles : heap.Settles scopes frames) (grown : heap.Extends heap') :
    heap'.Settles scopes frames := by
  induction scopes generalizing frames with
  | nil => trivial
  | cons scope rest ih =>
    cases frames with
    | nil => exact settles
    | cons frame others => exact ⟨fun name listed => grown.binds (settles.1 name listed), ih settles.2⟩

theorem frame (settles : heap.Settles scopes frames) {i : Nat} {scope : Scope} (around : scopes[i]? = some scope) :
    ∃ frame, frames[i]? = some frame ∧ ∀ name ∈ scope.settled, heap.Binds frame name := by
  induction scopes generalizing frames i with
  | nil => cases around
  | cons first rest ih =>
    cases frames with
    | nil => exact settles.elim
    | cons frame others =>
      cases i with
      | zero =>
        cases around
        exact ⟨frame, rfl, settles.1⟩
      | succ i => exact ih settles.2 around

theorem declare {c : Context} (settles : heap.Settles c.scopes frames) (name : String) :
    heap.Settles (c.declare name).scopes frames := by
  cases frames with
  | nil => exact settles
  | cons frame others => exact settles

theorem declareAll {c : Context} (settles : heap.Settles c.scopes frames) (names : List String) :
    heap.Settles (c.declareAll names).scopes frames := by
  induction names generalizing c with
  | nil => exact settles
  | cons name rest ih => exact ih (settles.declare name)

theorem settle {c : Context} {name : String} {frame : FrameId} {others : List FrameId}
    (settles : heap.Settles c.scopes (frame :: others)) (bound : heap.Binds frame name) :
    heap.Settles (c.settle name).scopes (frame :: others) := by
  refine ⟨fun other listed => ?_, settles.2⟩
  rcases List.mem_cons.1 listed with rfl | before
  · exact bound
  · exact settles.1 other before

theorem settleAll {c : Context} {names : List String} {frame : FrameId} {others : List FrameId}
    (settles : heap.Settles c.scopes (frame :: others)) (bound : ∀ name ∈ names, heap.Binds frame name) :
    heap.Settles (c.settleAll names).scopes (frame :: others) := by
  induction names generalizing c with
  | nil => exact settles
  | cons name rest ih =>
    exact ih (settles.settle (bound name List.mem_cons_self)) fun other listed =>
      bound other (List.mem_cons_of_mem _ listed)

theorem after {c : Context} {stmt : Stmt} {frame : FrameId} {others : List FrameId}
    (settles : heap.Settles c.scopes (frame :: others))
    (bound : ∀ name, Stmt.Settles name stmt → heap.Binds frame name) :
    heap.Settles (c.after stmt).scopes (frame :: others) := by
  cases stmt with
  | declare name initial => exact settles.settle (bound name rfl)
  | function name params body => exact settles.settle (bound name rfl)
  | _ => exact settles.declareAll _

theorem enter {c : Context} {params : List String} {frame : FrameId} (settles : heap.Settles c.scopes frames)
    (bound : ∀ name ∈ params, heap.Binds frame name) :
    heap.Settles (c.enter.settleAll params).scopes (frame :: frames) := by
  have empty : heap.Settles c.enter.scopes (frame :: frames) :=
    ⟨fun _ listed => (List.not_mem_nil listed).elim, settles⟩
  exact empty.settleAll bound

end Heap.Settles

namespace Run

variable {world : World} {n : Nat} {m m₁ : Machine}

theorem length_of_evaluateAll {exprs : List Expr} {values : List Value}
    (ran : evaluateAll world n exprs m = .ok values m₁) : values.length = exprs.length := by
  induction exprs generalizing n values m with
  | nil =>
    cases n with
    | zero => cases ran
    | succ n =>
      cases ran
      rfl
  | cons first rest ih =>
    cases n with
    | zero => cases ran
    | succ n =>
      rw [evaluateAll] at ran
      obtain ⟨v, m₂, -, ran⟩ := ok_of_bind ran
      obtain ⟨vs, m₃, later, ran⟩ := ok_of_bind ran
      cases ran
      rw [List.length_cons, List.length_cons, ih later]

theorem binds_of_declare {name : String} {value : Value} {u : Unit} (inside : m.heap.HasFrame m.interpreter.scope)
    (ran : declare name value m = .ok u m₁) : m₁.heap.Binds m.interpreter.scope name := by
  cases ran
  exact Heap.binds_declare_self inside

theorem binds_of_execute {stmt : Stmt} {done : Completion} {name : String}
    (inside : m.heap.HasFrame m.interpreter.scope) (ran : execute world n stmt m = .ok done m₁)
    (settles : Stmt.Settles name stmt) : m₁.heap.Binds m.interpreter.scope name := by
  cases n with
  | zero => cases ran
  | succ n =>
    cases stmt with
    | declare other initial =>
      cases settles
      cases initial with
      | none =>
        rw [execute] at ran
        obtain ⟨u, m₂, declared, ran⟩ := ok_of_bind ran
        cases ran
        exact binds_of_declare inside declared
      | some initial =>
        rw [execute] at ran
        obtain ⟨v, m₂, hv, ran⟩ := ok_of_bind ran
        obtain ⟨u, m₃, declared, ran⟩ := ok_of_bind ran
        cases ran
        have later := later_of_ran (.evaluate _) hv rfl
        rw [← later.scope_eq]
        refine binds_of_declare ?_ declared
        rw [later.scope_eq]
        exact later.grows.extended.hasFrame inside
    | function other params body =>
      cases settles
      cases ran
      exact Heap.binds_declare_self inside
    | _ => cases settles

end Run

def Task.Complete : Task → Prop
  | call callable args => args.length = callable.arity
  | _ => True

structure Point.Settled (p : Point) (t : Task) (m : Machine) : Prop where
  free : t.ImportFree
  complete : t.Complete
  home_eq : m.interpreter.home = [⟨1⟩, ⟨0⟩]
  outermost : p.instances.drop p.context.outer.length = [⟨1⟩, ⟨0⟩]
  settles : m.heap.Settles p.context.scopes p.instances

section

variable {world : World} {n : Nat} {m m' : Machine} {p p' : Point} {t t' : Task}

theorem Run.Starts.settled (starts : Run.Starts world Program.ImportFree n t m) :
    (Point.top m.interpreter).Settled t m := by
  have home := starts.idle.home_eq
  refine ⟨?_, ?_, home, home, ⟨fun _ listed => (List.not_mem_nil listed).elim, trivial⟩⟩
  · cases starts with
    | text between accepted source | file between accepted source => exact source
    | call | callOn => trivial
  · cases starts with
    | call between found arity => exact arity
    | callOn between held arity => exact arity
    | text | file => trivial

theorem Run.Enters.complete {move : Move} (enters : Run.Enters world n move t m t' m') : t'.Complete := by
  cases enters with
  | called hc found arity ha => exact (Run.length_of_evaluateAll ha).trans arity
  | _ => trivial

theorem Point.Sits.instances_eq (sits : p.Sits t m) : ∃ others, p.instances = t.frame m :: others := by
  rw [← sits.chain_eq, Heap.chain_eq]
  exact ⟨_, rfl⟩

theorem Point.outermost_of_move {i : Interpreter} {move : Move} (near : p.move i move = some p')
    (here : move ≠ .file) :
    p'.instances.drop p'.context.outer.length = p.instances.drop p.context.outer.length := by
  cases move with
  | stay | enter | initial =>
    cases near
    rfl
  | past stmt =>
    cases near
    rw [Context.outer_after]
  | otherwise yes =>
    cases near
    rw [Context.outer_declareAll]
  | call => cases near
  | file => exact absurd rfl here

theorem Run.Enters.settles {move : Move} (enters : Run.Enters world n move t m t' m') (sits : p.Sits t m)
    (near : p.move m'.interpreter move = some p') (here : move ≠ .file)
    (settles : m.heap.Settles p.context.scopes p.instances) : m'.heap.Settles p'.context.scopes p'.instances := by
  have settles' := settles.of_extends enters.extends
  cases move with
  | stay =>
    cases near
    exact settles'
  | enter =>
    cases near
    exact ⟨fun _ listed => (List.not_mem_nil listed).elim, settles'⟩
  | initial name =>
    cases near
    exact settles'.declare name
  | otherwise yes =>
    cases near
    exact settles'.declareAll _
  | past stmt =>
    cases near
    obtain ⟨others, cons⟩ := sits.instances_eq
    dsimp only
    rw [cons] at settles' ⊢
    refine settles'.after fun name settled => ?_
    cases enters with
    | restStmts hf | restOfProgram hf => exact Run.binds_of_execute sits.inside hf settled
  | call => cases near
  | file => exact absurd rfl here

theorem mem_zip_params {params : List String} {args : List Value} (complete : args.length = params.length)
    {name : String} (listed : name ∈ params) : name ∈ (params.zip args).map (·.1) := by
  rwa [List.map_fst_zip (Nat.le_of_eq complete.symm)]

theorem Point.Settled.functionBody {name : String} {params : List String} {body : List Stmt} {args : List Value}
    {frame : FrameId} {heap : Heap} {others : List FrameId}
    (settled : p.Settled (.execute (.function name params body)) m)
    (called : p'.Settled (.call (.function name params body m.interpreter.scope) args) m')
    (inside : m.heap.HasFrame m.interpreter.scope) (cons : p.instances = m.interpreter.scope :: others)
    (since : (m.heap.withFunction m.interpreter.scope name params body).Extends m'.heap)
    (entry : m'.heap.frameWith m.interpreter.scope (params.zip args) = (frame, heap)) :
    (p.functionBody name params frame).Settled (.runBody frame body) { m' with heap } := by
  have grown := (Heap.extends_withFunction m.heap m.interpreter.scope name params body).trans since
  obtain ⟨grown₁, -, -, bound⟩ := Heap.frameWith_spec (grown.hasFrame inside) entry
  have own : m'.heap.Binds m.interpreter.scope name := since.binds (Heap.binds_declare_self inside)
  have around := (settled.settles.of_extends grown).of_extends grown₁
  rw [cons] at around
  refine ⟨?_, trivial, called.home_eq, ?_, ?_⟩
  · simpa only [Task.ImportFree, Stmt.importFree] using settled.free
  · change (frame :: p.instances).drop (p.context.functionBody name params).outer.length = _
    rw [Context.functionBody, Context.outer_settleAll]
    exact settled.outermost
  · change heap.Settles (p.context.functionBody name params).scopes (frame :: p.instances)
    rw [cons]
    exact (around.settle (grown₁.binds own)).enter fun param listed =>
      bound param (mem_zip_params called.complete listed)

theorem Point.Settled.methodBody {params : List String} {body : List Stmt} {receiver : Value} {args : List Value}
    {around frame : FrameId} {heap₁ heap₂ : Heap} (settled : p.Settled (.evaluate (.method params body)) m)
    (called : p'.Settled (.call (.bound (.script params body m.interpreter.globals) receiver) args) m')
    (inside : m.heap.HasFrame m.interpreter.globals) (since : m.heap.Extends m'.heap)
    (outer : m'.heap.frameWith m.interpreter.globals [("this", receiver)] = (around, heap₁))
    (entry : heap₁.frameWith around (params.zip args) = (frame, heap₂)) :
    (p.methodBody params m.interpreter frame around).Settled (.runBody frame body) { m' with heap := heap₂ } := by
  obtain ⟨grown₁, inside₁, -, this⟩ := Heap.frameWith_spec (since.hasFrame inside) outer
  obtain ⟨grown₂, -, -, bound⟩ := Heap.frameWith_spec inside₁ entry
  have globals : ∀ name ∈ p.context.globals.settled, heap₂.Binds m.interpreter.globals name := by
    obtain ⟨global, found, settles⟩ := settled.settles.frame p.context.getElem?_scopes_globals
    have first : (p.instances.drop p.context.outer.length)[0]? = some global := by
      rw [List.getElem?_drop]
      exact found
    rw [settled.outermost, ← settled.home_eq] at first
    cases first
    exact fun name listed => grown₂.binds (grown₁.binds (since.binds (settles name listed)))
  refine ⟨?_, trivial, called.home_eq, ?_, ?_⟩
  · simpa only [Task.ImportFree, Expr.importFree] using settled.free
  · change (frame :: around :: m.interpreter.home).drop (p.context.methodBody params).outer.length = _
    rw [Context.methodBody, Context.outer_settleAll]
    exact settled.home_eq
  · have receiver : ∀ name ∈ Scope.receiver.settled, heap₂.Binds around name := by
      intro name listed
      obtain rfl := List.mem_singleton.1 listed
      exact grown₂.binds (this "this" List.mem_cons_self)
    have base : heap₂.Settles (Context.scopes ⟨.empty, [.receiver, p.context.globals]⟩)
        (frame :: around :: m.interpreter.home) :=
      ⟨fun _ listed => (List.not_mem_nil listed).elim, receiver, globals, trivial⟩
    exact base.settleAll fun param listed => bound param (mem_zip_params called.complete listed)

/-- Where nothing is imported, every visit finds the settled names bound. -/
theorem Visits.settled (visits : Visits world Program.ImportFree p n t m) : p.Settled t m := by
  induction visits with
  | start starts => exact starts.settled
  | @step p p' n move t m t' m' visits enters near ih =>
    have sits := visits.sits
    have leads := enters.leads sits.inside
    have here : move ≠ .call := by
      rintro rfl
      cases near
    have free := enters.importFree here ih.free
    have home : move ≠ .file := by
      rintro rfl
      cases enters
      exact ih.free
    exact ⟨free, enters.complete, (leads.home_eq home).trans ih.home_eq,
      (Point.outermost_of_move near home).trans ih.outermost, enters.settles sits near home ih.settles⟩
  | functionBody visits entry made there since ih ih₀ =>
    subst there
    have sits := made.sits
    obtain ⟨others, cons⟩ := sits.instances_eq
    exact ih₀.functionBody ih sits.inside cons since entry
  | methodBody visits outer entry made there since ih ih₀ =>
    subst there
    exact ih₀.methodBody ih made.sits.home.inside since outer entry

/-- A name whose nearest scope has settled it means its binding in the frame of that scope. It is found there at
the first try, on every later heap as well, and declarations in other frames do not change what it is. -/
theorem settled_name_of_visits {expr : Expr} {name : String} {level : Nat} {scope : Scope}
    (visits : Visits world Program.ImportFree p (n + 1) (.evaluate expr) m)
    (names : Run.Names world n expr m name level m') (nearest : p.context.scopes[level]? = some scope)
    (settled : name ∈ scope.settled) :
    ∃ frame v, p.instances[level]? = some frame ∧ m'.heap.ancestor? m'.interpreter.scope level = some frame ∧
      m'.heap.binding? frame name = some v ∧
      (∀ heap, m'.heap.Extends heap → heap.get? m'.interpreter.scope level name = heap.binding? frame name ∧
        heap.assignee? m'.interpreter.scope level name = some frame) ∧
      (∀ other key value, other ≠ frame →
        (m'.heap.declare other key value).get? m'.interpreter.scope level name = some v) ∧
      (expr = .lookup name level → Run.evaluate world (n + 1) expr m = .ok v m) ∧
      ∀ value w, expr = .assign name level value → Run.evaluate world n value m = .ok w m' →
        Run.evaluate world (n + 1) expr m = .ok w { m' with heap := m'.heap.declare frame name w } := by
  have grown := names.later.grows.extended
  have inside : m'.heap.HasFrame m'.interpreter.scope := by
    rw [names.later.scope_eq]
    exact grown.hasFrame visits.sits.inside
  obtain ⟨frame, instanced, binds⟩ := visits.settled.settles.frame nearest
  have found : m'.heap.ancestor? m'.interpreter.scope level = some frame := by
    rw [Heap.ancestor?, visits.chain_eq names, instanced]
  have bound : m'.heap.Binds frame name := grown.binds (binds name settled)
  obtain ⟨v, binding⟩ := Option.isSome_iff_exists.1 bound
  have onwards (heap : Heap) (later : m'.heap.Extends heap) :
      heap.get? m'.interpreter.scope level name = heap.binding? frame name ∧
        heap.assignee? m'.interpreter.scope level name = some frame := by
    have still : heap.ancestor? m'.interpreter.scope level = some frame := by
      rw [Heap.ancestor?, later.chain_eq inside]
      exact found
    exact ⟨Heap.get?_of_binds still (later.binds bound), Heap.assignee?_of_binds still (later.binds bound)⟩
  obtain ⟨read, written⟩ := onwards m'.heap (.refl _)
  refine ⟨frame, v, instanced, found, binding, onwards, ?apart, ?lookup, ?assign⟩
  case apart =>
    intro other key value apart
    rw [(onwards _ (Heap.extends_declare _ other key value)).1, Heap.binding?_declare,
      if_neg fun same => apart same.1.symm]
    exact binding
  case lookup =>
    rintro rfl
    cases names
    exact Run.evaluate_lookup (read.trans binding)
  case assign =>
    rintro value w rfl ran
    exact Run.evaluate_assign ran written

theorem settled_name_of_inner_block :
    ∃ p m scope, Visits (.ofFiles []) Program.ImportFree p 2 (.evaluate (.lookup "x" 1)) m ∧
      p.context.scopes[1]? = some scope ∧ "x" ∈ scope.settled ∧
      ∃ frame v, p.instances[1]? = some frame ∧ m.heap.ancestor? m.interpreter.scope 1 = some frame ∧
        m.heap.binding? frame "x" = some v ∧ Run.evaluate (.ofFiles []) 2 (.lookup "x" 1) m = .ok v m := by
  have accepted : Program.ofText "var x; { x; }" =
      .ok [.declare "x" none, .block [.expression (.lookup "x" 1)]] := by cbv
  have free : Program.ImportFree [.declare "x" none, .block [.expression (.lookup "x" 1)]] := by
    simp [Program.ImportFree, importFreeStmts, Stmt.importFree, Expr.importFree]
  have started : Visits (.ofFiles []) Program.ImportFree _ 7 _ (Machine.start none) :=
    .start (.text (.start none) accepted free)
  have declared := started.step (.restOfProgram rfl) rfl
  have inBlock := (declared.step .firstOfProgram rfl).step .block rfl
  have visits := (inBlock.step .firstStmt rfl).step .value rfl
  obtain ⟨frame, v, instanced, found, binding, -, -, read, -⟩ :=
    settled_name_of_visits visits .lookup rfl List.mem_cons_self
  exact ⟨_, _, _, visits, rfl, List.mem_cons_self, frame, v, instanced, found, binding, read rfl⟩

end

end HookScript
