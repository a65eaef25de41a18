import HookScript.Proofs.Scoping.Reading
import HookScript.Proofs.Scoping.Visit

/-!
Static depth and frames. Wherever a run comes to, the frames around it are as many as the scopes that the text
shows there, with the frame of the builtins beyond the last one.
-/

namespace HookScript

/-- The levels in the code of a task are those of the place it stands in. -/
def Task.Placed (c : Context) : Task → Prop
  | evaluate expr => expr.levelled c = expr
  | evaluateAll exprs => levelledExprs c exprs = exprs
  | runBody _ body => levelledStmts c body = body
  | execute stmt => stmt.levelled c = stmt
  | executeAll stmts => levelledStmts c stmts = stmts
  | loop condition body => condition.levelled c = condition ∧ levelledStmts c.enter body = body
  | executeProgram stmts => levelledStmts c stmts = stmts
  | call _ _ => True
  | importFile _ => True

theorem levelledExprs_of_properties {c : Context} {properties : List (String × Expr)}
    (same : levelledProperties c properties = properties) :
    levelledExprs c (properties.map (·.2)) = properties.map (·.2) := by
  induction properties with
  | nil => rfl
  | cons property rest ih =>
    obtain ⟨key, value⟩ := property
    simp only [levelledProperties, List.cons.injEq, Prod.mk.injEq, true_and] at same
    simp only [List.map_cons, levelledExprs, same.1, ih same.2]

theorem Stmt.levelled_branch (c : Context) (condition : Expr) (yes : Stmt) (no : Option Stmt) :
    (Stmt.branch condition yes no).levelled c =
      .branch (condition.levelled c) (yes.levelled c) (no.map (Stmt.levelled (c.declareAll yes.declares))) := by
  cases no <;> simp only [Stmt.levelled, Option.map_none, Option.map_some]

namespace Run

variable {world : World} {sources : Program → Prop} {n : Nat} {m m' : Machine}

theorem Enters.placed {move : Move} {t t' : Task} {p p' : Point} (enters : Enters world n move t m t' m')
    (placed : t.Placed p.context) (near : p.move m'.interpreter move = some p') : t'.Placed p'.context := by
  cases enters with
  | properties =>
    cases near
    simp only [Task.Placed, Expr.levelled, Expr.object.injEq] at placed
    exact levelledExprs_of_properties placed
  | program found fresh read accepted =>
    cases near
    exact Parser.collect_levelled ScopeStack.shows_start rfl accepted
  | functionBody | methodBody => cases near
  | _ =>
    cases near
    simp_all [Task.Placed, Expr.levelled, Stmt.levelled, Stmt.levelled_branch, levelledExprs, levelledStmts]

theorem Starts.placed {t : Task} (starts : Starts world sources n t m) : t.Placed .start := by
  cases starts with
  | text between accepted | file between accepted =>
    exact Parser.collect_levelled ScopeStack.shows_start rfl accepted
  | call | callOn => trivial

theorem Starts.frame_eq {t : Task} (starts : Starts world sources n t m) : t.frame m = m.interpreter.scope := by
  cases starts <;> rfl

end Run

structure Point.Sits (p : Point) (t : Task) (m : Machine) : Prop where
  inside : m.heap.HasFrame (t.frame m)
  chain_eq : m.heap.chain (t.frame m) = p.instances
  length_eq : p.instances.length = p.context.depth + 1
  outermost : ∃ frame ∈ p.instances.getLast?, m.heap.IsBuiltins frame
  home : m.interpreter.Home m.heap
  placed : t.Placed p.context

namespace Point.Sits

variable {p p' : Point} {t t' : Task} {m m' : Machine}

theorem top (home : m.interpreter.Home m.heap) (same : t.frame m = m.interpreter.globals)
    (placed : t.Placed .start) : (Point.top m.interpreter).Sits t m where
  inside := by
    rw [same]
    exact home.inside
  chain_eq := by
    rw [same]
    exact home.chain_eq
  length_eq := congrArg (· + 1) Context.depth_start.symm
  outermost := ⟨m.interpreter.builtins, rfl, home.builtins⟩
  home := home
  placed := placed

theorem within (sits : p.Sits t m) (grown : m.heap.Extends m'.heap) (frame : t'.frame m' = t.frame m)
    (home : m'.interpreter.home = m.interpreter.home) (placed : t'.Placed p'.context)
    (instances : p'.instances = p.instances) (depth : p'.context.depth = p.context.depth) : p'.Sits t' m' where
  inside := by
    rw [frame]
    exact grown.hasFrame sits.inside
  chain_eq := by
    rw [frame, instances, grown.chain_eq sits.inside, sits.chain_eq]
  length_eq := by rw [instances, depth, sits.length_eq]
  outermost := by
    obtain ⟨builtins, last, isBuiltins⟩ := sits.outermost
    rw [instances]
    exact ⟨builtins, last, isBuiltins.extends grown⟩
  home := (sits.home.extends grown).of_home_eq home
  placed := placed

theorem inner (sits : p.Sits t m) (grown : m.heap.Extends m'.heap) (inside : m'.heap.HasFrame (t'.frame m'))
    (chain_eq : m'.heap.chain (t'.frame m') = t'.frame m' :: m.heap.chain (t.frame m))
    (home : m'.interpreter.Home m'.heap) (placed : t'.Placed p'.context)
    (instances : p'.instances = t'.frame m' :: p.instances) (depth : p'.context.depth = p.context.depth + 1) :
    p'.Sits t' m' where
  inside := inside
  chain_eq := by rw [chain_eq, instances, sits.chain_eq]
  length_eq := by rw [instances, List.length_cons, sits.length_eq, depth]
  outermost := by
    obtain ⟨builtins, last, isBuiltins⟩ := sits.outermost
    rw [instances, List.getLast?_cons, last]
    exact ⟨builtins, rfl, isBuiltins.extends grown⟩
  home := home
  placed := placed

theorem methodBody {name : String} {receiver : Value} {params : List String} {body : List Stmt} {args : List Value}
    {maker : Interpreter} {around frame : FrameId} {heap₁ heap₂ : Heap} (home : maker.Home m.heap)
    (own : m.interpreter.Home m.heap) (outer : m.heap.frameWith maker.globals [(name, receiver)] = (around, heap₁))
    (entry : heap₁.frameWith around (params.zip args) = (frame, heap₂))
    (placed : levelledStmts (p.context.methodBody params) body = body) :
    (p.methodBody params maker frame around).Sits (.runBody frame body) { m with heap := heap₂ } := by
  obtain ⟨grown₁, inside₁, chain₁, -⟩ := Heap.frameWith_spec home.inside outer
  obtain ⟨grown₂, inside₂, chain₂, -⟩ := Heap.frameWith_spec inside₁ entry
  have grown := grown₁.trans grown₂
  refine ⟨inside₂, ?_, ?_, ⟨maker.builtins, rfl, (home.builtins).extends grown⟩, own.extends grown, placed⟩
  · change heap₂.chain frame = frame :: around :: maker.home
    rw [chain₂, chain₁, home.chain_eq]
  · change 4 = (p.context.methodBody params).depth + 1
    rw [Context.depth_methodBody]

end Point.Sits

/-- Wherever a run comes to, the frames are those of the place. -/
theorem Visits.sits {world : World} {sources : Program → Prop} {p : Point} {n : Nat} {t : Task} {m : Machine}
    (visits : Visits world sources p n t m) : p.Sits t m := by
  induction visits with
  | start starts =>
    have idle := starts.idle
    exact .top idle.home (starts.frame_eq.trans idle.scope_eq) starts.placed
  | @step p p' n move t m t' m' visits enters near ih =>
    have leads := enters.leads ih.inside
    have placed := enters.placed ih.placed near
    cases move with
    | stay =>
      cases near
      exact ih.within enters.extends leads.1 leads.2 placed rfl rfl
    | initial name =>
      cases near
      exact ih.within enters.extends leads.1 leads.2 placed rfl rfl
    | past stmt =>
      cases near
      exact ih.within enters.extends leads.1 leads.2 placed rfl (Context.depth_after _ _)
    | otherwise yes =>
      cases near
      exact ih.within enters.extends leads.1 leads.2 placed rfl (Context.depth_declareAll _ _)
    | enter =>
      obtain ⟨scope, inside, chain_eq, home⟩ := leads
      cases near
      have instances := congrArg (· :: p.instances) scope.symm
      exact ih.inner enters.extends inside chain_eq ((ih.home.extends enters.extends).of_home_eq home) placed
        instances (Context.depth_enter _)
    | call => cases near
    | file =>
      cases near
      exact .top leads.1 leads.2 placed
  | functionBody visits entry made there since ih ih₀ =>
    -- The frame of the call lies inside that of the statement, whatever the heap has got since.
    subst there
    have grown := (Heap.extends_withFunction _ _ _ _ _).trans since
    obtain ⟨grown₁, inside, chain, -⟩ := Heap.frameWith_spec (grown.hasFrame ih₀.inside) entry
    rw [grown.chain_eq ih₀.inside] at chain
    have placed := ih₀.placed
    simp only [Task.Placed, Stmt.levelled, Stmt.function.injEq, true_and] at placed
    exact ih₀.inner (grown.trans grown₁) inside chain (ih.home.extends grown₁) placed rfl
      (Context.depth_functionBody _ _ _)
  | methodBody visits outer entry made there since ih ih₀ =>
    -- Of the literal's place only the interpreter counts: the frames around a method are its globals and builtins.
    subst there
    have placed := ih₀.placed
    simp only [Task.Placed, Expr.levelled, Expr.method.injEq, true_and] at placed
    exact .methodBody (ih₀.home.extends since) ih.home outer entry placed

section

variable {world : World} {sources : Program → Prop} {n level : Nat} {name : String} {expr : Expr}
  {m m' : Machine} {p : Point}

theorem Visits.chain_eq (visits : Visits world sources p (n + 1) (.evaluate expr) m)
    (names : Run.Names world n expr m name level m') : m'.heap.chain m'.interpreter.scope = p.instances := by
  have sits := visits.sits
  rw [names.later.scope_eq]
  exact (names.later.grows.extended.chain_eq sits.inside).trans sits.chain_eq

theorem Visits.level_eq (visits : Visits world sources p (n + 1) (.evaluate expr) m)
    (names : Run.Names world n expr m name level m') : p.context.resolve name = level := by
  have placed := visits.sits.placed
  cases names with
  | lookup => simpa only [Task.Placed, Expr.levelled, Expr.lookup.injEq, true_and] using placed
  | assign | assigned =>
    simp only [Task.Placed, Expr.levelled, Expr.assign.injEq, true_and] at placed
    exact placed.1

/-- Every name that is evaluated stands at some place in the text, and at each place where it can stand there are
as many frames around the current one as its static depth says. Its level leads to one of them, and to one of
builtins if no scope around it has the name. -/
theorem frames_of_reached (reached : Run.Reached world sources (n + 1) (.evaluate expr) m)
    (names : Run.Names world n expr m name level m') :
    (∃ p, Visits world sources p (n + 1) (.evaluate expr) m) ∧
      ∀ p, Visits world sources p (n + 1) (.evaluate expr) m →
        (m'.heap.chain m'.interpreter.scope).length = p.context.depth + 1 ∧ level ≤ p.context.depth ∧
          ∃ frame, m'.heap.ancestor? m'.interpreter.scope level = some frame ∧
            ((∀ scope ∈ p.context.scopes, name ∉ scope.names) → m'.heap.IsBuiltins frame) := by
  refine ⟨reached.seen.visited, fun p visits => ?_⟩
  have sits := visits.sits
  have chain := visits.chain_eq names
  have length : (m'.heap.chain m'.interpreter.scope).length = p.context.depth + 1 := by
    rw [chain, sits.length_eq]
  have bounded : level ≤ p.context.depth := by
    rw [← visits.level_eq names]
    exact p.context.resolve_le name
  obtain ⟨frame, found⟩ : ∃ frame, m'.heap.ancestor? m'.interpreter.scope level = some frame :=
    ⟨_, List.getElem?_eq_getElem (by omega)⟩
  refine ⟨length, bounded, frame, found, fun nowhere => ?_⟩
  have level_eq : level = p.instances.length - 1 := by
    rw [← visits.level_eq names, Context.resolve_of_undeclared nowhere, sits.length_eq, Nat.add_sub_cancel]
  obtain ⟨builtins, last, isBuiltins⟩ := sits.outermost
  rw [Heap.ancestor?, chain, level_eq, ← List.getLast?_eq_getElem?] at found
  obtain rfl := Option.some.inj (found.symm.trans last)
  exact isBuiltins.extends names.later.grows.extended

theorem frames_of_name_in_block :
    ∃ m, Run.Reached (.ofFiles []) (fun _ => True) 1 (.evaluate (.lookup "x" 2)) m ∧
      (∃ p, Visits (.ofFiles []) (fun _ => True) p 1 (.evaluate (.lookup "x" 2)) m) ∧
        ∀ p, Visits (.ofFiles []) (fun _ => True) p 1 (.evaluate (.lookup "x" 2)) m →
          (m.heap.chain m.interpreter.scope).length = p.context.depth + 1 ∧ 2 ≤ p.context.depth ∧
            ∃ frame, m.heap.ancestor? m.interpreter.scope 2 = some frame ∧
              ((∀ scope ∈ p.context.scopes, "x" ∉ scope.names) → m.heap.IsBuiltins frame) := by
  have accepted : Program.ofText "{ x; }" = .ok [.block [.expression (.lookup "x" 2)]] := by cbv
  have started : Run.Reached (.ofFiles []) (fun _ => True) 5 (.executeProgram [.block [.expression (.lookup "x" 2)]])
      (Machine.start none) := .start (.text (.start none) accepted trivial)
  have reached := (((started.enter .firstOfProgram).enter .block).enter .firstStmt).enter .value
  exact ⟨_, reached, frames_of_reached reached .lookup⟩

end

end HookScript
