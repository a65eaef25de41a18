import HookScript.Proofs.Scoping.Captured
import HookScript.Proofs.Scoping.Lexical
import HookScript.Proofs.Scoping.Origin

/-!
Global names in methods. A method takes the names that the text shows as global from the global frame of the
interpreter that evaluates its literal. This is the interpreter of the file that the literal is written in, unless
the literal stands in a function that another file calls.
-/

namespace HookScript

namespace Context

theorem settled_globals {c c' : Context} (outer : c'.outer = c.outer) (inner : c'.inner.settled = c.inner.settled) :
    c'.globals.settled = c.globals.settled := by
  rw [globals, globals, outer]
  cases c.outer with
  | nil => exact inner
  | cons first rest => simp only [List.getLastD_cons]

theorem globals_settleAll_enter (c : Context) (params : List String) :
    (c.enter.settleAll params).globals = c.globals := by
  rw [globals, outer_settleAll]
  exact List.getLastD_cons

theorem globals_functionBody (c : Context) (name : String) (params : List String) :
    (c.functionBody name params).globals = (c.settle name).globals :=
  globals_settleAll_enter _ _

theorem globals_methodBody (c : Context) (params : List String) : (c.methodBody params).globals = c.globals := by
  rw [globals, methodBody, outer_settleAll]
  rfl

theorem settled_declareAll (c : Context) (names : List String) :
    (c.declareAll names).inner.settled = c.inner.settled := by
  induction names generalizing c with
  | nil => rfl
  | cons name rest ih => exact ih (c.declare name)

theorem mem_settled_settle {c : Context} {name other : String} (settled : other ∈ (c.settle name).globals.settled) :
    other ∈ c.globals.settled ∨ c.outer = [] ∧ other = name := by
  obtain ⟨inner, outer⟩ := c
  cases outer with
  | nil => exact (List.mem_cons.1 settled).symm.imp_right fun same => ⟨rfl, same⟩
  | cons first rest => exact .inl settled

theorem mem_settled_after {c : Context} {stmt : Stmt} {name : String}
    (settled : name ∈ (c.after stmt).globals.settled) :
    name ∈ c.globals.settled ∨ c.outer = [] ∧ Stmt.Settles name stmt := by
  cases stmt with
  | declare other initial => exact (mem_settled_settle settled).imp_right fun new => ⟨new.1, new.2.symm⟩
  | function other params body => exact (mem_settled_settle settled).imp_right fun new => ⟨new.1, new.2.symm⟩
  | _ => exact .inl ((settled_globals (outer_declareAll _ _) (settled_declareAll _ _)) ▸ settled)

end Context

namespace Written

variable {world : World} {sources : Program → Prop} {author worker : Runner} {p : Point} {n : Nat} {t : Task}
  {m : Machine}

theorem frame_eq (written : Written world sources author worker p n t m) (top : p.context.outer = []) :
    t.frame m = author.globals := by
  induction written with
  | start starts => exact starts.frame_eq.trans starts.idle.scope_eq
  | file starts => exact starts.frame_eq.trans starts.idle.scope_eq
  | imported => rfl
  | @step author worker p p' n move t m t' m' written enters near here ih =>
    have leads := enters.leads written.visits.sits.inside
    cases move with
    | stay | initial =>
      cases near
      exact leads.1.trans (ih top)
    | past stmt =>
      cases near
      exact leads.1.trans (ih ((Context.outer_after _ _).symm.trans top))
    | otherwise yes =>
      cases near
      exact leads.1.trans (ih ((Context.outer_declareAll _ _).symm.trans top))
    | enter =>
      cases near
      cases top
    | call => cases near
    | file => exact absurd rfl here
  | @functionBody _ _ _ _ _ p₀ _ _ name params =>
    have outer : (p₀.context.functionBody name params).outer = [] := top
    rw [Context.outer_functionBody] at outer
    cases outer
  | @methodBody _ _ _ _ _ p₀ _ _ params =>
    have outer : (p₀.context.methodBody params).outer = [] := top
    rw [Context.methodBody, Context.outer_settleAll] at outer
    cases outer

theorem binds_globals (written : Written world sources author worker p n t m) {name : String}
    (settled : name ∈ p.context.globals.settled) : m.heap.Binds author.globals name := by
  induction written with
  | start | file | imported => cases settled
  | @step author worker p p' n move t m t' m' written enters near here ih =>
    have before (same : p'.context.globals.settled = p.context.globals.settled) :
        m'.heap.Binds author.globals name := enters.extends.binds (ih (same ▸ settled))
    cases move with
    | stay =>
      cases near
      exact before rfl
    | enter =>
      cases near
      exact before (congrArg Scope.settled (Context.globals_settleAll_enter p.context []))
    | initial =>
      cases near
      exact before (Context.settled_globals rfl rfl)
    | otherwise yes =>
      cases near
      exact before (Context.settled_globals (Context.outer_declareAll _ _) (Context.settled_declareAll _ _))
    | past stmt =>
      cases near
      rcases Context.mem_settled_after settled with old | ⟨top, new⟩
      · exact enters.extends.binds (ih old)
      · rw [← written.frame_eq top]
        cases enters with
        | restStmts hf | restOfProgram hf => exact Run.binds_of_execute written.visits.sits.inside hf new
    | call => cases near
    | file => exact absurd rfl here
  | @functionBody _ _ _ _ _ p₀ _ _ fn params body closure _ frame heap m m₀ _ entry made there since _ ih₀ =>
    subst there
    have inside := made.visits.sits.inside
    have around := (Heap.extends_withFunction _ _ _ _ _).trans since
    have grown := (Heap.frameWith_spec (around.hasFrame inside) entry).1
    have old : name ∈ (p₀.context.functionBody fn params).globals.settled := settled
    rw [Context.globals_functionBody] at old
    rcases Context.mem_settled_settle old with old | ⟨top, rfl⟩
    · exact grown.binds (around.binds (ih₀ old))
    · rw [← made.frame_eq top]
      exact grown.binds (since.binds (Heap.binds_declare_self inside))
  | @methodBody _ _ _ _ _ p₀ _ _ params _ _ _ _ _ _ _ _ _ m₀ _ outer entry made there since _ ih₀ =>
    subst there
    have old : name ∈ (p₀.context.methodBody params).globals.settled := settled
    rw [Context.globals_methodBody] at old
    obtain ⟨grown₁, inside₁, -⟩ := Heap.frameWith_spec (since.hasFrame made.visits.sits.home.inside) outer
    have grown₂ := (Heap.frameWith_spec inside₁ entry).1
    exact grown₂.binds (grown₁.binds (since.binds (ih₀ old)))

end Written

inductive MethodCalls (world : World) (sources : Program → Prop) (params : List String) (body : List Stmt)
    (p₀ : Point) (m₀ : Machine) : Point → Nat → Task → Machine → Prop
  | intro {p n receiver args around heap₁ frame heap₂ m}
    (visits : Visits world sources p (n + 1)
      (.call (.bound (.script params body m₀.interpreter.globals) receiver) args) m)
    (outer : m.heap.frameWith m₀.interpreter.globals [("this", receiver)] = (around, heap₁))
    (entry : heap₁.frameWith around (params.zip args) = (frame, heap₂)) (since : m₀.heap.Extends m.heap) :
    MethodCalls world sources params body p₀ m₀ (p₀.methodBody params m₀.interpreter frame around) n
      (.runBody frame body) { m with heap := heap₂ }

section

variable {world : World} {sources : Program → Prop} {params : List String} {body : List Stmt} {p₀ p : Point}
  {k n level : Nat} {m₀ m m' : Machine} {t : Task} {expr : Expr} {x : String} {author maker : Runner}

namespace MethodCalls

theorem visits (made : Visits world sources p₀ (k + 1) (.evaluate (.method params body)) m₀)
    (call : MethodCalls world sources params body p₀ m₀ p n t m) : Visits world sources p n t m := by
  cases call with
  | intro visits outer entry since => exact .methodBody visits outer entry made rfl since

theorem endsIn (call : MethodCalls world sources params body p₀ m₀ p n t m) :
    p.EndsIn m₀.interpreter.home [.receiver, p₀.context.globals] := by
  cases call with
  | @intro _ _ _ _ around _ frame =>
    refine ⟨⟨[frame, around], rfl⟩, ?_⟩
    change _ <:+ (p₀.context.methodBody params).outer
    rw [Context.methodBody, Context.outer_settleAll]

theorem later (made : Visits world sources p₀ (k + 1) (.evaluate (.method params body)) m₀)
    (call : MethodCalls world sources params body p₀ m₀ p n t m) : m₀.heap.Extends m.heap := by
  cases call with
  | intro visits outer entry since =>
    obtain ⟨grown₁, inside₁, -⟩ := Heap.frameWith_spec (since.hasFrame made.sits.home.inside) outer
    exact (since.trans grown₁).trans (Heap.frameWith_spec inside₁ entry).1

end MethodCalls

theorem Inside.global_frame (made : Written world sources author maker p₀ (k + 1) (.evaluate (.method params body)) m₀)
    (inside : Inside world sources (MethodCalls world sources params body p₀ m₀) p (n + 1) (.evaluate expr) m)
    (names : Run.Names world n expr m x level m') (global : level = p.context.outer.length) {heap : Heap}
    (later : m'.heap.Extends heap) :
    m₀.heap.Extends m'.heap ∧ p.context.globals = p₀.context.globals ∧
      heap.ancestor? m'.interpreter.scope level = some maker.globals ∧
      (heap.Binds maker.globals x → heap.Means m'.interpreter.scope level x maker.globals) := by
  have visit : ∀ ⦃p n t m⦄, MethodCalls world sources params body p₀ m₀ p n t m → Visits world sources p n t m :=
    fun _ _ _ _ call => call.visits made.visits
  have visits := inside.visits visit
  have grown := (inside.later visit fun _ _ _ _ call => call.later made.visits).trans names.later.grows.extended
  have here : m'.heap.HasFrame m'.interpreter.scope := by
    rw [names.later.scope_eq]
    exact names.later.grows.extended.hasFrame visits.sits.inside
  have chain := visits.chain_eq names
  obtain ⟨⟨inner, instances⟩, ⟨scopes, outer⟩⟩ := inside.endsIn fun _ _ _ _ call => call.endsIn
  have length := visits.sits.length_eq
  rw [← instances] at chain
  rw [← instances, List.length_append, Context.depth] at length
  have reached : inner.length = level := by
    change inner.length + 2 = p.context.outer.length + 1 + 1 at length
    omega
  have found : heap.ancestor? m'.interpreter.scope level = some maker.globals := by
    rw [Heap.ancestor?, later.chain_eq here, chain, ← made.globals_eq, ← reached,
      List.getElem?_append_right (Nat.le_refl _), Nat.sub_self]
    rfl
  refine ⟨grown, ?globals, found, fun bound => ?means⟩
  case globals =>
    rw [Context.globals, ← outer]
    simp
  case means => exact Heap.means_of_ancestor? (later.hasFrame here) found bound (.refl heap)

/-- A name in the body of a method that the text takes from the global scope, in any call of the method. Its level
leads to the global frame of the interpreter that evaluated the literal. Whenever this frame binds the name, that is
what the name means. If it is the frame of the file that the literal is written in, it binds every name that is
settled in the global scope of the file before the literal. -/
theorem global_name_of_inside
    (made : Written world sources author maker p₀ (k + 1) (.evaluate (.method params body)) m₀)
    (inside : Inside world sources (MethodCalls world sources params body p₀ m₀) p (n + 1) (.evaluate expr) m)
    (names : Run.Names world n expr m x level m') (global : level = p.context.outer.length) :
    m₀.interpreter.globals = maker.globals ∧ p.context.globals = p₀.context.globals ∧
      m'.heap.ancestor? m'.interpreter.scope level = some maker.globals ∧
      (maker.globals = author.globals → x ∈ p₀.context.globals.settled → m'.heap.Binds maker.globals x) ∧
      (m'.heap.Binds maker.globals x →
        (∀ heap, m'.heap.Extends heap → heap.Means m'.interpreter.scope level x maker.globals) ∧
        (expr = .lookup x level → ∃ v, m'.heap.binding? maker.globals x = some v ∧
          Run.evaluate world (n + 1) expr m = .ok v m) ∧
        ∀ value w, expr = .assign x level value → Run.evaluate world n value m = .ok w m' →
          Run.evaluate world (n + 1) expr m =
            .ok w { m' with heap := m'.heap.declare maker.globals x w }) := by
  obtain ⟨grown, globals, found, means⟩ := inside.global_frame made names global (.refl _)
  refine ⟨made.globals_eq, globals, found, fun same settled => ?settled, fun bound => ⟨?later, ?evaluated⟩⟩
  case settled =>
    rw [same]
    exact grown.binds (made.binds_globals settled)
  case later =>
    intro heap later
    exact (inside.global_frame made names global later).2.2.2 (later.binds bound)
  case evaluated => exact names.evaluate_of_means (means bound)

end

def makingFiles : World := .ofFiles
  [("/a",
    "var g = true; function f() \x7b return Object \x7b m: function() \x7b return g; \x7d \x7d; \x7d export f;")]

def readingBody : List Stmt := [.giveBack (some (.lookup "g" 2))]

def makingBody : List Stmt := [.giveBack (some (.object [("m", .method [] readingBody)]))]

theorem makingFiles_resolve : makingFiles.resolveFrom none "a" = .ok (.ofText "/a") := by cbv

set_option maxRecDepth 2000 in
theorem makingFiles_readText : makingFiles.readText (.ofText "/a") = .ok
    "var g = true; function f() \x7b return Object \x7b m: function() \x7b return g; \x7d \x7d; \x7d export f;" := by
  cbv

theorem makingFiles_program :
    Program.ofText
      "var g = true; function f() \x7b return Object \x7b m: function() \x7b return g; \x7d \x7d; \x7d export f;" =
      .ok [.declare "g" (some (.literal (.boolean true))), .function "f" [] makingBody,
        .exportAs "f" (.lookup "f" 0)] := by
  cbv

theorem makingFiles_importer : Program.ofText "var g; import \"a\"; f().m();" =
    .ok [.declare "g" none, .importFrom (.literal (.string "a")),
      .expression (.call (.property (.call (.lookup "f" 1) []) "m") [])] := by
  cbv

theorem making_imported :
    ∃ p₁ m₁ p₂ m₂ m₃,
      Written makingFiles (fun _ => True) ⟨some (.ofText "/a"), ⟨3⟩⟩ ⟨some (.ofText "/a"), ⟨3⟩⟩ p₁ 23
        (.execute (.function "f" [] makingBody)) m₁ ∧ p₁.context = ⟨⟨["g"], ["g"]⟩, []⟩ ∧
      Written makingFiles (fun _ => True) ⟨none, ⟨1⟩⟩ ⟨none, ⟨1⟩⟩ p₂ 28
        (.executeProgram [.importFrom (.literal (.string "a")),
          .expression (.call (.property (.call (.lookup "f" 1) []) "m") [])]) m₂ ∧
      Run.execute makingFiles 27 (.importFrom (.literal (.string "a"))) m₂ = .ok .normal m₃ ∧
      (m₁.heap.withFunction m₁.interpreter.scope "f" [] makingBody).Extends m₃.heap ∧
      m₁.heap.callables.size = 10 ∧ m₃.heap.get? m₃.interpreter.scope 1 "f" = some (.callable ⟨10⟩) ∧
      m₃.heap.binding? ⟨1⟩ "g" = some .nil ∧ m₃.heap.binding? ⟨3⟩ "g" = some (.boolean true) := by
  have found := makingFiles_resolve
  have read := makingFiles_readText
  have making := makingFiles_program
  have begun : Written makingFiles (fun _ => True) _ _ _ 29 _ _ :=
    .start (.text (.start none) makingFiles_importer trivial) (.start none)
  obtain ⟨m₂, is_m₂, declared⟩ : ∃ m : Machine, m =
        ⟨(Machine.start none).heap.declare ⟨1⟩ "g" .nil, "", (Machine.start none).interpreter⟩ ∧
      Run.execute makingFiles 28 (.declare "g" none) (Machine.start none) = .ok .normal m := ⟨_, rfl, rfl⟩
  have importing := begun.past (.restOfProgram declared)
  have found' : makingFiles.resolveFrom m₂.interpreter.directory "a" = .ok (.ofText "/a") := by
    rw [is_m₂]
    exact found
  have fresh : Path.ofText "/a" ∉ m₂.interpreter.imports := by
    rw [is_m₂]
    exact List.not_mem_nil
  have source : Run.evaluate makingFiles 26 (.literal (.string "a")) m₂ = .ok (.string "a") m₂ := rfl
  have within := ((importing.stay .firstOfProgram).stay (.importFile source)).imported found' fresh read making
  obtain ⟨m, is_m⟩ : ∃ m, m = m₂.importing (.ofText "/a") := ⟨_, rfl⟩
  rw [← is_m] at within
  obtain ⟨m₁, is_m₁, ran_g⟩ : ∃ m' : Machine, m' =
        ⟨m.heap.declare m.interpreter.scope "g" (.boolean true), m.out, m.interpreter⟩ ∧
      Run.execute makingFiles 24 (.declare "g" (some (.literal (.boolean true)))) m = .ok .normal m' := ⟨_, rfl, rfl⟩
  have made := (within.past (.restOfProgram ran_g)).stay .firstOfProgram
  have globals : m.interpreter.globals = ⟨3⟩ := by
    subst is_m is_m₂
    rfl
  rw [globals] at made
  obtain ⟨m₄, is_m₄, ran_f⟩ : ∃ m' : Machine, m' =
        ⟨m₁.heap.withFunction m₁.interpreter.scope "f" [] makingBody, m₁.out, m₁.interpreter⟩ ∧
      Run.execute makingFiles 23 (.function "f" [] makingBody) m₁ = .ok .normal m' := ⟨_, rfl, rfl⟩
  have exported : m₄.heap.get? m₄.interpreter.scope 0 "f" = some (.callable ⟨10⟩) := by
    subst is_m₄ is_m₁ is_m is_m₂
    cbv
  have ended : Run.executeProgram makingFiles 25 [.declare "g" (some (.literal (.boolean true))),
      .function "f" [] makingBody, .exportAs "f" (.lookup "f" 0)] m = .ok () _ :=
    (Run.executeProgram_cons ran_g).trans ((Run.executeProgram_cons ran_f).trans
      (Run.executeProgram_cons (Run.execute_exportAs (Run.evaluate_lookup exported))))
  rw [is_m] at ended
  have imported := Run.execute_of_imports (.intro source found' fresh read making ended)
  refine ⟨_, m₁, _, m₂, _, made, rfl, importing, imported, ?_, ?_, ?_, ?_, ?_⟩
  · rw [is_m₄]
    exact Heap.extends_declareAll _ _ _
  all_goals
    subst is_m₄ is_m₁ is_m is_m₂
    cbv

theorem call_making (m : Machine) (closure : FrameId) (n : Nat) :
    ∃ m', m' = (⟨(((m.heap.frameWith closure []).2.newMethod (.script [] readingBody m.interpreter.globals)).2.newObject
        (.ofList [("m", .method ⟨m.heap.methods.size⟩)])).2, m.out, m.interpreter⟩ : Machine) ∧
      Run.call makingFiles (n + 7) (.function "f" [] makingBody closure) [] m =
        .ok (.object ⟨m.heap.objects.size⟩) m' ∧
      m'.heap.property ⟨m.heap.objects.size⟩ "m" = .method ⟨m.heap.methods.size⟩ ∧
      m'.heap.method? ⟨m.heap.methods.size⟩ = some (.script [] readingBody m.interpreter.globals) := by
  refine ⟨_, rfl, rfl, ?_, ?_⟩
  · change (((m.heap.objects.push (.ofList [("m", .method ⟨m.heap.methods.size⟩)])).getD _ .empty).get? "m").getD
      .nil = _
    rw [Array.getD_eq_getD_getElem?, Array.getElem?_push_size]
    rfl
  · exact Array.getElem?_push_size

theorem making_call : ∃ author maker p₀ m₀ p m,
      Written makingFiles (fun _ => True) author maker p₀ 16 (.evaluate (.method [] readingBody)) m₀ ∧
      Inside makingFiles (fun _ => True) (MethodCalls makingFiles (fun _ => True) [] readingBody p₀ m₀) p 20
        (.evaluate (.lookup "g" 2)) m ∧ p.context.outer.length = 2 ∧ "g" ∈ p₀.context.globals.settled ∧
      author.file = some (.ofText "/a") ∧
      m.heap.binding? author.globals "g" = some (.boolean true) ∧ m.heap.binding? maker.globals "g" = some .nil := by
  obtain ⟨p₁, m₁, p₂, m₂, m₃, made, context₁, importing, imported, since, size, callee, main, own⟩ := making_imported
  have calling := ((importing.past (.restOfProgram imported)).stay .firstOfProgram).stay .value
  have target := (calling.stay .callee).stay .propertyTarget
  have callable : m₃.heap.callable? ⟨10⟩ = some (.function "f" [] makingBody m₁.interpreter.scope) := by
    rw [← size]
    exact since.callable (Heap.callable?_withFunction _ _ _ _ _)
  have entered := target.stay (.called (Run.evaluate_lookup callee) callable rfl rfl)
  have inside := (entered.functionBody rfl made rfl since).stay .body
  obtain ⟨p₀, literal, settled⟩ : ∃ p₀, Written makingFiles (fun _ => True) ⟨some (.ofText "/a"), ⟨3⟩⟩
      ⟨none, ⟨1⟩⟩ p₀ 16 (.evaluate (.method [] readingBody)) (Machine.inFrame
        ⟨(m₃.heap.frameWith m₁.interpreter.scope []).2, m₃.out, m₃.interpreter⟩ ⟨m₃.heap.frames.size⟩) ∧
          "g" ∈ p₀.context.globals.settled := by
    have listed := ((inside.stay .firstStmt).stay .returned).stay .properties
    refine ⟨_, listed.stay .firstExpr, ?_⟩
    change "g" ∈ (p₁.context.functionBody "f" []).globals.settled
    rw [context₁]
    decide
  obtain ⟨m₄, is_m₄, ran, held, kept⟩ := call_making m₃ m₁.interpreter.scope 15
  have returned : Run.evaluate makingFiles 23 (.call (.lookup "f" 1) []) m₃ = .ok _ m₄ :=
    (Run.evaluate_call (Run.evaluate_lookup callee) callable rfl rfl).trans ran
  have bound := Run.evaluate_method returned held kept
  have invoked := calling.visits.step (.called bound (Heap.callable?_newCallable_self _ _) rfl rfl) rfl
  have object (heap : Heap) (properties : Table Value) : heap.Extends (heap.newObject properties).2 := by
    have same : heap.SameCode (heap.newObject properties).2 := ⟨rfl, rfl, rfl⟩
    exact (same.grows (S := fun _ _ _ => False)).extended
  have grown : (m₃.heap.frameWith m₁.interpreter.scope []).2.Extends (m₄.heap.newCallable
      (.bound (.script [] readingBody m₃.interpreter.globals) (.object ⟨m₃.heap.objects.size⟩))).2 := by
    rw [is_m₄]
    exact ((Heap.extends_newMethod _ _).trans (object _ _)).trans (Heap.extends_newCallable _ _)
  obtain ⟨around, heap₁, outer⟩ : ∃ around heap₁, (m₄.heap.newCallable (.bound
      (.script [] readingBody m₃.interpreter.globals) (.object ⟨m₃.heap.objects.size⟩))).2.frameWith
        m₃.interpreter.globals [("this", .object ⟨m₃.heap.objects.size⟩)] = (around, heap₁) := ⟨_, _, rfl⟩
  obtain ⟨frame, heap₂, entry⟩ : ∃ frame heap₂, heap₁.frameWith around [] = (frame, heap₂) := ⟨_, _, rfl⟩
  have begun : Inside makingFiles (fun _ => True) (MethodCalls makingFiles (fun _ => True) [] readingBody p₀
      (Machine.inFrame ⟨(m₃.heap.frameWith m₁.interpreter.scope []).2, m₃.out, m₃.interpreter⟩
        ⟨m₃.heap.frames.size⟩)) _ _ _ _ := .start (.intro invoked outer entry grown)
  have reading := ((begun.stay .body).stay .firstStmt).stay .returned
  have unchanged {f : FrameId} {value : Value} (binding : m₃.heap.binding? f "g" = some value) :
      heap₂.binding? f "g" = some value := by
    have entered := Heap.binding?_frameWith binding (rfl : m₃.heap.frameWith m₁.interpreter.scope [] = _)
    refine Heap.binding?_frameWith (Heap.binding?_frameWith ?_ outer) entry
    rw [is_m₄]
    exact entered
  exact ⟨_, _, _, _, _, _, literal, reading, rfl, settled, rfl, unchanged own, unchanged main⟩

theorem global_name_of_call :
    ∃ author maker p₀ m₀ p m,
      Written makingFiles (fun _ => True) author maker p₀ 16 (.evaluate (.method [] readingBody)) m₀ ∧
      Inside makingFiles (fun _ => True) (MethodCalls makingFiles (fun _ => True) [] readingBody p₀ m₀) p 20
        (.evaluate (.lookup "g" 2)) m ∧ 2 = p.context.outer.length ∧
      m.heap.ancestor? m.interpreter.scope 2 = some maker.globals := by
  obtain ⟨author, maker, p₀, m₀, p, m, made, inside, global, -⟩ := making_call
  exact ⟨author, maker, p₀, m₀, p, m, made, inside, global.symm,
    (global_name_of_inside made inside .lookup global.symm).2.2.1⟩

/-- A method whose literal stands in a function that another file calls reads the global variable of that file. -/
theorem callers_global_hides_own :
    ∃ author maker p₀ m₀ p m,
      Written makingFiles (fun _ => True) author maker p₀ 16 (.evaluate (.method [] readingBody)) m₀ ∧
      Inside makingFiles (fun _ => True) (MethodCalls makingFiles (fun _ => True) [] readingBody p₀ m₀) p 20
        (.evaluate (.lookup "g" 2)) m ∧ 2 = p.context.outer.length ∧ "g" ∈ p₀.context.globals.settled ∧
      author.file = some (.ofText "/a") ∧ m.heap.binding? author.globals "g" = some (.boolean true) ∧
      Run.evaluate makingFiles 20 (.lookup "g" 2) m = .ok .nil m := by
  obtain ⟨author, maker, p₀, m₀, p, m, made, inside, global, settled, file, own, main⟩ := making_call
  have bound : m.heap.Binds maker.globals "g" := by
    rw [Heap.Binds, main]
    rfl
  obtain ⟨-, -, -, means⟩ := inside.global_frame made .lookup global.symm (.refl _)
  obtain ⟨v, binding, read⟩ := (Run.Names.lookup.evaluate_of_means (means bound)).1 rfl
  obtain rfl : v = .nil := Option.some.inj (binding.symm.trans main)
  exact ⟨author, maker, p₀, m₀, p, m, made, inside, global.symm, settled, file, own, read⟩

end HookScript
