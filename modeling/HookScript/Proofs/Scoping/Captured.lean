import HookScript.Proofs.Scoping.Imports
import HookScript.Proofs.Scoping.Inside

/-!
Names that a function captures. A name that its body takes from outside is looked for first in the frame that its
level leads to. If that frame binds the name when the function is made, the name means this binding in every call.
If it does not, as with a name that comes from an import, the frames are searched from the inside, and what the
name meant when the function was made can be hidden later.
-/

namespace HookScript

namespace Heap

variable {heap heap' : Heap} {scope frame : FrameId} {level : Nat} {name : String}

def binder? (heap : Heap) (scope : FrameId) (name : String) : Option FrameId :=
  (heap.chain scope).find? fun f => (heap.binding? f name).isSome

structure Means (heap : Heap) (scope : FrameId) (level : Nat) (name : String) (frame : FrameId) : Prop where
  bound : heap.Binds frame name
  read : heap.get? scope level name = heap.binding? frame name
  written : heap.assignee? scope level name = some frame

theorem means_of_ancestor? (inside : heap.HasFrame scope) (found : heap.ancestor? scope level = some frame)
    (bound : heap.Binds frame name) (grown : heap.Extends heap') : heap'.Means scope level name frame := by
  have still : heap'.ancestor? scope level = some frame := by
    rw [ancestor?, grown.chain_eq inside]
    exact found
  have binds := grown.binds bound
  exact ⟨binds, get?_of_binds still binds, assignee?_of_binds still binds⟩

theorem binder?_spec (binder : heap.binder? scope name = some frame) :
    heap.Binds frame name ∧ ∃ inner outer, heap.chain scope = inner ++ frame :: outer ∧
      ∀ f ∈ inner, ¬ heap.Binds f name := by
  obtain ⟨bound, inner, outer, chain, free⟩ := List.find?_eq_some_iff_append.1 binder
  exact ⟨bound, inner, outer, chain, fun f listed => by simpa [Binds] using free f listed⟩

theorem binder?_of_takeWhile (listed : frame ∈ heap.chain scope) (bound : heap.Binds frame name)
    (free : ∀ f ∈ (heap.chain scope).takeWhile (· ≠ frame), ¬ heap.Binds f name) :
    heap.binder? scope name = some frame := by
  unfold binder?
  generalize heap.chain scope = frames at listed free
  induction frames with
  | nil => cases listed
  | cons first rest ih =>
    by_cases same : first = frame
    · subst same
      exact List.find?_cons_of_pos bound
    · have later : frame ∈ rest := (List.mem_cons.1 listed).resolve_left (Ne.symm same)
      rw [List.takeWhile_cons_of_pos (by simpa using same)] at free
      have unbound : ¬ (heap.binding? first name).isSome := free first List.mem_cons_self
      rw [List.find?_cons_of_neg (by simpa using unbound)]
      exact ih later fun f listed => free f (List.mem_cons_of_mem _ listed)

theorem means_of_binder? {target : FrameId} (found : heap.ancestor? scope level = some target)
    (free : ¬ heap.Binds target name) (binder : heap.binder? scope name = some frame) :
    heap.Means scope level name frame := by
  obtain ⟨bound, inner, outer, chain, unbound⟩ := binder?_spec binder
  have unbound_target : heap.binding? target name = none := by simpa [Binds] using free
  have skipped : ∀ f ∈ inner, heap.binding? f name = none := fun f listed => by
    simpa [Binds] using unbound f listed
  obtain ⟨value, binding⟩ := Option.isSome_iff_exists.1 bound
  refine ⟨bound, ?read, ?written⟩
  case read =>
    have none_inner : inner.findSome? (fun f => heap.binding? f name) = none := List.findSome?_eq_none_iff.2 skipped
    simp only [get?, found, Option.bind_some, unbound_target, lookup?, chain, List.findSome?_append, none_inner,
      Option.none_or, List.findSome?_cons, binding]
  case written =>
    simp only [assignee?, found, Option.filter_some, unbound_target, Option.isSome_none]
    exact binder

end Heap

namespace Run

variable {world : World} {n level : Nat} {name : String} {expr : Expr} {m m' : Machine} {frame : FrameId}

theorem Names.evaluate_of_means (names : Names world n expr m name level m')
    (means : m'.heap.Means m'.interpreter.scope level name frame) :
    (expr = .lookup name level → ∃ v, m'.heap.binding? frame name = some v ∧
      evaluate world (n + 1) expr m = .ok v m) ∧
    ∀ value w, expr = .assign name level value → evaluate world n value m = .ok w m' →
      evaluate world (n + 1) expr m = .ok w { m' with heap := m'.heap.declare frame name w } := by
  refine ⟨?lookup, ?assign⟩
  case lookup =>
    rintro rfl
    obtain ⟨v, binding⟩ := Option.isSome_iff_exists.1 means.bound
    cases names
    exact ⟨v, binding, evaluate_lookup (means.read.trans binding)⟩
  case assign =>
    rintro value w rfl ran
    exact evaluate_assign ran means.written

end Run

/-- The name is declared in none of the scopes of `c` that lie inside those of `around`. -/
def Context.FreeIn (c around : Context) (name : String) : Prop :=
  ∀ scope ∈ c.scopes.take (c.depth - around.depth), name ∉ scope.names

theorem Context.FreeIn.le_resolve {c around : Context} {name : String} (free : c.FreeIn around name) :
    c.depth - around.depth ≤ c.resolve name := by
  refine Nat.le_of_not_lt fun within => ?_
  unfold resolve at within
  cases found : c.scopes.findIdx? fun scope => name ∈ scope.names with
  | none =>
    rw [found, Option.getD_none] at within
    omega
  | some i =>
    rw [found, Option.getD_some] at within
    obtain ⟨lt, listed, -⟩ := List.findIdx?_eq_some_iff_getElem.1 found
    exact free _ (List.mem_take_iff_getElem.2 ⟨i, by omega, rfl⟩) (by simpa using listed)

abbrev Machine.heapWith (m : Machine) (name : String) (params : List String) (body : List Stmt) : Heap :=
  m.heap.withFunction m.interpreter.scope name params body

/-- The beginning of the body in the calls of a function: of the one that the statement at `p₀` makes on `m₀`. -/
inductive Calls (world : World) (sources : Program → Prop) (name : String) (params : List String)
    (body : List Stmt) (p₀ : Point) (m₀ : Machine) : Point → Nat → Task → Machine → Prop
  | intro {p n args frame heap m}
    (visits : Visits world sources p (n + 1) (.call (.function name params body m₀.interpreter.scope) args) m)
    (entry : m.heap.frameWith m₀.interpreter.scope (params.zip args) = (frame, heap))
    (since : (m₀.heapWith name params body).Extends m.heap) :
    Calls world sources name params body p₀ m₀ (p₀.functionBody name params frame) n (.runBody frame body)
      { m with heap }

section

variable {world : World} {sources : Program → Prop} {name : String} {params : List String} {body : List Stmt}
  {p₀ p : Point} {k n level : Nat} {m₀ m m' : Machine} {t : Task} {expr : Expr} {x : String}

namespace Calls

theorem visits (made : Visits world sources p₀ (k + 1) (.execute (.function name params body)) m₀)
    (call : Calls world sources name params body p₀ m₀ p n t m) : Visits world sources p n t m := by
  cases call with
  | intro visits entry since => exact .functionBody visits entry made rfl since

theorem endsIn (call : Calls world sources name params body p₀ m₀ p n t m) : p.EndsIn p₀.instances [] := by
  cases call with
  | intro => exact ⟨List.suffix_cons _ _, List.nil_suffix⟩

theorem later (made : Visits world sources p₀ (k + 1) (.execute (.function name params body)) m₀)
    (call : Calls world sources name params body p₀ m₀ p n t m) :
    (m₀.heapWith name params body).Extends m.heap := by
  cases call with
  | intro visits entry since =>
    have grown := (Heap.extends_withFunction m₀.heap m₀.interpreter.scope name params body).trans since
    exact since.trans (Heap.frameWith_spec (grown.hasFrame made.sits.inside) entry).1

end Calls

/-- A name that is free in the body of a function, in any call of it. Its level leads to one of the frames that were
around the function when it was made. If that frame binds the name then, this is what the name means, on every later
heap as well. Otherwise the name means what was its innermost binding then, as long as neither that frame nor any
frame within that binding has come to bind it. -/
theorem captured_name_of_inside (made : Visits world sources p₀ (k + 1) (.execute (.function name params body)) m₀)
    (inside : Inside world sources (Calls world sources name params body p₀ m₀) p (n + 1) (.evaluate expr) m)
    (names : Run.Names world n expr m x level m') (free : p.context.FreeIn p₀.context x) {binder : FrameId}
    (captured : (m₀.heapWith name params body).binder? m₀.interpreter.scope x = some binder) :
    ∃ target ∈ m₀.heap.chain m₀.interpreter.scope,
      m'.heap.ancestor? m'.interpreter.scope level = some target ∧
      m₀.heap.chain m₀.interpreter.scope <:+ m'.heap.chain m'.interpreter.scope ∧
      ((m₀.heapWith name params body).Binds target x →
        ∀ heap, m'.heap.Extends heap → heap.Means m'.interpreter.scope level x target) ∧
      (¬ m'.heap.Binds target x →
        (∀ f ∈ (m'.heap.chain m'.interpreter.scope).takeWhile (· ≠ binder), ¬ m'.heap.Binds f x) →
        m'.heap.Means m'.interpreter.scope level x binder) ∧
      ∀ frame, m'.heap.Means m'.interpreter.scope level x frame →
        (expr = .lookup x level → ∃ v, m'.heap.binding? frame x = some v ∧
          Run.evaluate world (n + 1) expr m = .ok v m) ∧
        ∀ value w, expr = .assign x level value → Run.evaluate world n value m = .ok w m' →
          Run.evaluate world (n + 1) expr m = .ok w { m' with heap := m'.heap.declare frame x w } := by
  have visit : ∀ ⦃p n t m⦄, Calls world sources name params body p₀ m₀ p n t m → Visits world sources p n t m :=
    fun _ _ _ _ call => call.visits made
  have visits := inside.visits visit
  have grown := (inside.later visit fun _ _ _ _ call => call.later made).trans names.later.grows.extended
  have here : m'.heap.HasFrame m'.interpreter.scope := by
    rw [names.later.scope_eq]
    exact names.later.grows.extended.hasFrame visits.sits.inside
  have chain₀ : m₀.heap.chain m₀.interpreter.scope = p₀.instances := made.sits.chain_eq
  have chain := visits.chain_eq names
  obtain ⟨inner, instances⟩ := (inside.endsIn fun _ _ _ _ call => call.endsIn).frames
  rw [← instances] at chain
  rw [chain₀]
  -- The level leads beyond the frames of the body, to the frames around the function.
  have length := congrArg List.length instances
  rw [List.length_append, visits.sits.length_eq, made.sits.length_eq] at length
  have level_eq := visits.level_eq names
  have beyond : inner.length ≤ level := by
    have := free.le_resolve
    omega
  have bounded : level ≤ p.context.depth := level_eq ▸ p.context.resolve_le x
  obtain ⟨target, found₀⟩ : ∃ target, p₀.instances[level - inner.length]? = some target :=
    ⟨_, List.getElem?_eq_getElem (by rw [made.sits.length_eq]; omega)⟩
  have found : m'.heap.ancestor? m'.interpreter.scope level = some target := by
    rw [Heap.ancestor?, chain, List.getElem?_append_right beyond]
    exact found₀
  refine ⟨target, List.mem_of_getElem? found₀, found, ⟨inner, chain.symm⟩, ?settled, ?searched, fun frame means =>
    names.evaluate_of_means means⟩
  case settled =>
    intro bound heap later
    exact Heap.means_of_ancestor? here found (grown.binds bound) later
  case searched =>
    intro unbound nothingWithin
    obtain ⟨bound, within, outer, split, -⟩ := Heap.binder?_spec captured
    have same : (m₀.heapWith name params body).chain m₀.interpreter.scope = p₀.instances :=
      ((Heap.extends_withFunction _ _ _ _ _).chain_eq made.sits.inside).trans chain₀
    have listed : binder ∈ m'.heap.chain m'.interpreter.scope := by
      rw [chain, ← same, split]
      exact List.mem_append_right _ (List.mem_append_right _ List.mem_cons_self)
    exact Heap.means_of_binder? found unbound
      (Heap.binder?_of_takeWhile listed (grown.binds bound) nothingWithin)

end

theorem exporting_file_imported {world : World} (found : world.resolveFrom none "a" = .ok (.ofText "/a"))
    (read : world.readText (.ofText "/a") = .ok "export true as n;")
    (exporting : Program.ofText "export true as n;" = .ok [.exportAs "n" (.literal (.boolean true))]) (n : Nat) :
    ∃ m, m = ⟨((Machine.start none).importing (.ofText "/a")).heap.declare ⟨1⟩ "n" (.boolean true), "",
        (Machine.start none).interpreter⟩ ∧
      Run.execute world (n + 6) (.importFrom (.literal (.string "a"))) (Machine.start none) = .ok .normal m := by
  have source : Run.evaluate world (n + 5) (.literal (.string "a")) (Machine.start none) = .ok (.string "a") _ := rfl
  exact ⟨_, rfl, Run.execute_of_imports (.intro source found List.not_mem_nil read exporting rfl)⟩

theorem capturing_call :
    ∃ world body p₀ m₀ p m, world = .ofFiles [("/a", "export true as n;")] ∧
      body = [.expression (.lookup "x" 2), .giveBack (some (.lookup "n" 3))] ∧
      Program.ofText "import \"a\"; var x = true; \x7b function f() \x7b x; return n; \x7d var x; var n; f(); \x7d" =
        .ok [.importFrom (.literal (.string "a")), .declare "x" (some (.literal (.boolean true))),
          .block [.function "f" [] body, .declare "x" none, .declare "n" none,
            .expression (.call (.lookup "f" 0) [])]] ∧
      Visits world (fun _ => True) p₀ 12 (.execute (.function "f" [] body)) m₀ ∧
      Inside world (fun _ => True) (Calls world (fun _ => True) "f" [] body p₀ m₀) p 5 (.executeAll body) m ∧
      (∀ name, p.context.FreeIn p₀.context name) ∧
      (∀ name ∈ ["x", "n"], (m₀.heapWith "f" [] body).binder? m₀.interpreter.scope name = some ⟨1⟩ ∧
        m.heap.binding? ⟨1⟩ name = some (.boolean true)) ∧
      m.heap.chain m.interpreter.scope = [⟨5⟩, ⟨4⟩, ⟨1⟩, ⟨0⟩] ∧
      m.heap.get? m.interpreter.scope 2 "x" = some (.boolean true) ∧
      m.heap.get? m.interpreter.scope 3 "n" = some .nil := by
  obtain ⟨world, isFiles, found, read, exporting⟩ := exporting_file
  obtain ⟨body, is_body⟩ : ∃ body : List Stmt,
      body = [.expression (.lookup "x" 2), .giveBack (some (.lookup "n" 3))] := ⟨_, rfl⟩
  have accepted : Program.ofText
      "import \"a\"; var x = true; \x7b function f() \x7b x; return n; \x7d var x; var n; f(); \x7d" =
        .ok [.importFrom (.literal (.string "a")), .declare "x" (some (.literal (.boolean true))),
          .block [.function "f" [] body, .declare "x" none, .declare "n" none,
            .expression (.call (.lookup "f" 0) [])]] := by
    subst is_body
    cbv
  obtain ⟨m₁, is_m₁, imported⟩ := exporting_file_imported found read exporting 10
  have started : Visits world (fun _ => True) _ 17 _ (Machine.start none) :=
    .start (.text (.start none) accepted trivial)
  obtain ⟨m₂, is_m₂, declared⟩ : ∃ m : Machine,
      m = ⟨m₁.heap.declare m₁.interpreter.scope "x" (.boolean true), m₁.out, m₁.interpreter⟩ ∧
        Run.execute world 15 (.declare "x" (some (.literal (.boolean true)))) m₁ = .ok .normal m := ⟨_, rfl, rfl⟩
  have inBlock := (((started.step (.restOfProgram imported) rfl).step (.restOfProgram declared) rfl).step
    .firstOfProgram rfl).step .block rfl
  obtain ⟨p₀, context_p₀, made⟩ : ∃ p, p.context = ⟨.empty, [⟨["x"], ["x"]⟩]⟩ ∧
      Visits world (fun _ => True) p 12 (.execute (.function "f" [] body)) m₂.opened :=
    ⟨_, rfl, inBlock.step .firstStmt rfl⟩
  obtain ⟨m₃, is_m₃, ran_f⟩ : ∃ m : Machine,
      m = ⟨m₂.opened.heapWith "f" [] body, m₂.out, m₂.opened.interpreter⟩ ∧
        Run.execute world 12 (.function "f" [] body) m₂.opened = .ok .normal m := ⟨_, rfl, rfl⟩
  obtain ⟨m₄, is_m₄, ran_x⟩ : ∃ m : Machine,
      m = ⟨m₃.heap.declare m₃.interpreter.scope "x" .nil, m₃.out, m₃.interpreter⟩ ∧
        Run.execute world 11 (.declare "x" none) m₃ = .ok .normal m := ⟨_, rfl, rfl⟩
  obtain ⟨m₅, is_m₅, ran_n⟩ : ∃ m : Machine,
      m = ⟨m₄.heap.declare m₄.interpreter.scope "n" .nil, m₄.out, m₄.interpreter⟩ ∧
        Run.execute world 10 (.declare "n" none) m₄ = .ok .normal m := ⟨_, rfl, rfl⟩
  have calling := (((inBlock.step (.restStmts ran_f) rfl).step (.restStmts ran_x) rfl).step (.restStmts ran_n)
    rfl).step .firstStmt rfl
  have callee : m₅.heap.get? m₅.interpreter.scope 0 "f" = some (.callable ⟨10⟩) := by
    subst is_m₅ is_m₄ is_m₃ is_m₂ is_m₁
    cbv
  have callable : m₅.heap.callable? ⟨10⟩ = some (.function "f" [] body m₂.opened.interpreter.scope) := by
    subst is_m₅ is_m₄ is_m₃ is_m₂ is_m₁
    cbv
  have called := (calling.step .value rfl).step (.called (Run.evaluate_lookup callee) callable rfl rfl) rfl
  have since : (m₂.opened.heapWith "f" [] body).Extends m₅.heap := by
    subst is_m₅ is_m₄ is_m₃
    exact (Heap.extends_declare _ _ _ _).trans (Heap.extends_declare _ _ _ _)
  have begun : Inside world (fun _ => True) (Calls world (fun _ => True) "f" [] body p₀ m₂.opened) _ 6 _ _ :=
    .start (.intro called rfl since)
  have inside := begun.stay .body
  refine ⟨world, body, p₀, _, _, _, isFiles, is_body, accepted, made, inside, ?free, ?names, ?chain, ?x, ?n⟩
  case free =>
    intro name scope listed
    have only : scope = .empty := by
      simpa [Point.functionBody, Context.functionBody, Context.settleAll, Context.settle, Context.enter,
        Context.depth, Context.scopes, context_p₀] using listed
    rw [only]
    exact List.not_mem_nil
  all_goals subst is_m₅ is_m₄ is_m₃ is_m₂ is_m₁
  case chain => cbv
  case x => cbv
  case n => cbv
  case names =>
    intro name listed
    fin_cases listed
    · constructor <;> cbv
    · constructor <;> cbv

theorem captured_name_of_variable :
    ∃ world body p₀ m₀ p m, Visits world (fun _ => True) p₀ 12 (.execute (.function "f" [] body)) m₀ ∧
      Inside world (fun _ => True) (Calls world (fun _ => True) "f" [] body p₀ m₀) p 3 (.evaluate (.lookup "x" 2)) m ∧
      p.context.FreeIn p₀.context "x" ∧
      (m₀.heapWith "f" [] body).binder? m₀.interpreter.scope "x" = some ⟨1⟩ ∧
      ∃ target, m.heap.ancestor? m.interpreter.scope 2 = some target ∧
        ((m₀.heapWith "f" [] body).Binds target "x" →
          ∀ heap, m.heap.Extends heap → heap.Means m.interpreter.scope 2 "x" target) := by
  obtain ⟨world, body, p₀, m₀, p, m, -, is_body, -, made, inside, free, names, -⟩ := capturing_call
  obtain ⟨captured, -⟩ := names "x" List.mem_cons_self
  rw [is_body] at inside
  have reading := (inside.stay .firstStmt).stay .value
  rw [← is_body] at reading
  obtain ⟨target, -, found, -, settled, -⟩ := captured_name_of_inside made reading .lookup (free "x") captured
  exact ⟨world, body, p₀, m₀, p, m, made, reading, free "x", captured, target, found, settled⟩

/-- A name that is found by searching is hidden by a variable that is declared after the function, further in than
the binding that the function was made with. -/
theorem later_variable_hides_captured :
    ∃ world body p₀ m₀ p m, world = .ofFiles [("/a", "export true as n;")] ∧
      body = [.expression (.lookup "x" 2), .giveBack (some (.lookup "n" 3))] ∧
      Program.ofText "import \"a\"; var x = true; \x7b function f() \x7b x; return n; \x7d var x; var n; f(); \x7d" =
        .ok [.importFrom (.literal (.string "a")), .declare "x" (some (.literal (.boolean true))),
          .block [.function "f" [] body, .declare "x" none, .declare "n" none,
            .expression (.call (.lookup "f" 0) [])]] ∧
      Visits world (fun _ => True) p₀ 12 (.execute (.function "f" [] body)) m₀ ∧
      Inside world (fun _ => True) (Calls world (fun _ => True) "f" [] body p₀ m₀) p 2 (.evaluate (.lookup "n" 3)) m ∧
      p.context.FreeIn p₀.context "n" ∧
      (m₀.heapWith "f" [] body).binder? m₀.interpreter.scope "n" = some ⟨1⟩ ∧
      m.heap.binding? ⟨1⟩ "n" = some (.boolean true) ∧
      Run.evaluate world 2 (.lookup "n" 3) m = .ok .nil m := by
  obtain ⟨world, body, p₀, m₀, p, m, isFiles, is_body, accepted, made, inside, free, names, -, x, n⟩ := capturing_call
  obtain ⟨captured, still⟩ := names "n" (List.mem_cons_of_mem _ List.mem_cons_self)
  have read : Run.execute world 4 (.expression (.lookup "x" 2)) m = .ok .normal m := by
    simp only [Run.execute, bind, EStateM.bind, Run.evaluate_lookup x]
    rfl
  rw [is_body] at inside
  have reading := ((inside.past (.restStmts read)).stay .firstStmt).stay .returned
  rw [← is_body] at reading
  exact ⟨world, body, p₀, m₀, _, m, isFiles, is_body, accepted, made, reading, free "n", captured, still,
    Run.evaluate_lookup n⟩

end HookScript
