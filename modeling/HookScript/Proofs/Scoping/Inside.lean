import HookScript.Proofs.Scoping.Depth

/-!
Places inside a body. From where a body begins, runs stay in its text until they call or import; the body of a
function that is made there belongs to the text too. Whatever has been declared meanwhile, the frames and the
scopes around the body are still around every place inside it.
-/

namespace HookScript

/-- The visits inside a body, from those of its beginning on, which are `starts`. The body of a method is not inside
that of its literal: it does not stand in the frames around it. -/
inductive Inside (world : World) (sources : Program → Prop) (starts : Point → Nat → Task → Machine → Prop) :
    Point → Nat → Task → Machine → Prop
  | start {p n t m} (begins : starts p n t m) : Inside world sources starts p n t m
  | step {p p' n move t m t' m'} (inside : Inside world sources starts p (n + 1) t m)
    (enters : Run.Enters world n move t m t' m') (near : p.move m'.interpreter move = some p')
    (here : move ≠ .file) : Inside world sources starts p' n t' m'
  | functionBody {p p₀ n k name params body closure args frame heap m m₀}
    (visits : Visits world sources p (n + 1) (.call (.function name params body closure) args) m)
    (entry : m.heap.frameWith closure (params.zip args) = (frame, heap))
    (made : Inside world sources starts p₀ (k + 1) (.execute (.function name params body)) m₀)
    (there : m₀.interpreter.scope = closure)
    (since : (m₀.heap.withFunction closure name params body).Extends m.heap) :
    Inside world sources starts (p₀.functionBody name params frame) n (.runBody frame body) { m with heap }

theorem Context.outer_functionBody (c : Context) (name : String) (params : List String) :
    (c.functionBody name params).outer = c.inner.settle name :: c.outer := by
  rw [functionBody, outer_settleAll]
  rfl

structure Point.EndsIn (p : Point) (frames : List FrameId) (scopes : List Scope) : Prop where
  frames : frames <:+ p.instances
  scopes : scopes <:+ p.context.outer

namespace Point.EndsIn

variable {p p' : Point} {frames : List FrameId} {scopes : List Scope}

theorem of_move {i : Interpreter} {move : Move} (ends : p.EndsIn frames scopes) (near : p.move i move = some p')
    (here : move ≠ .file) : p'.EndsIn frames scopes := by
  cases move with
  | stay | initial =>
    cases near
    exact ⟨ends.frames, ends.scopes⟩
  | enter =>
    cases near
    exact ⟨ends.frames.trans (List.suffix_cons _ _), ends.scopes.trans (List.suffix_cons _ _)⟩
  | past stmt =>
    cases near
    exact ⟨ends.frames, by simpa only [Context.outer_after] using ends.scopes⟩
  | otherwise yes =>
    cases near
    exact ⟨ends.frames, by simpa only [Context.outer_declareAll] using ends.scopes⟩
  | call => cases near
  | file => exact absurd rfl here

theorem functionBody (ends : p.EndsIn frames scopes) (name : String) (params : List String) (frame : FrameId) :
    (p.functionBody name params frame).EndsIn frames scopes where
  frames := ends.frames.trans (List.suffix_cons _ _)
  scopes := by
    change scopes <:+ (p.context.functionBody name params).outer
    rw [Context.outer_functionBody]
    exact ends.scopes.trans (List.suffix_cons _ _)

end Point.EndsIn

namespace Inside

variable {world : World} {sources : Program → Prop} {starts : Point → Nat → Task → Machine → Prop} {p : Point}
  {n : Nat} {t : Task} {m : Machine}

theorem stay {t' : Task} {m' : Machine} (inside : Inside world sources starts p (n + 1) t m)
    (enters : Run.Enters world n .stay t m t' m') : Inside world sources starts p n t' m' :=
  inside.step enters rfl Move.noConfusion

theorem past {stmt : Stmt} {t' : Task} {m' : Machine} (inside : Inside world sources starts p (n + 1) t m)
    (enters : Run.Enters world n (.past stmt) t m t' m') :
    Inside world sources starts ⟨p.context.after stmt, p.instances⟩ n t' m' :=
  inside.step enters rfl Move.noConfusion

theorem visits (visit : ∀ ⦃p n t m⦄, starts p n t m → Visits world sources p n t m)
    (inside : Inside world sources starts p n t m) : Visits world sources p n t m := by
  induction inside with
  | start begins => exact visit begins
  | step _ enters near _ ih => exact .step ih enters near
  | functionBody called entry _ there since ih => exact .functionBody called entry ih there since

theorem endsIn {frames : List FrameId} {scopes : List Scope}
    (ends : ∀ ⦃p n t m⦄, starts p n t m → p.EndsIn frames scopes) (inside : Inside world sources starts p n t m) :
    p.EndsIn frames scopes := by
  induction inside with
  | start begins => exact ends begins
  | step _ _ near here ih => exact ih.of_move near here
  | functionBody _ _ _ _ _ ih => exact ih.functionBody _ _ _

theorem later {heap : Heap} (visit : ∀ ⦃p n t m⦄, starts p n t m → Visits world sources p n t m)
    (grown : ∀ ⦃p n t m⦄, starts p n t m → heap.Extends m.heap) (inside : Inside world sources starts p n t m) :
    heap.Extends m.heap := by
  induction inside with
  | start begins => exact grown begins
  | step _ enters _ _ ih => exact ih.trans enters.extends
  | functionBody called entry made there since ih =>
    subst there
    have around := (Heap.extends_withFunction _ _ _ _ _).trans since
    have entered := (Heap.frameWith_spec (around.hasFrame (made.visits visit).sits.inside) entry).1
    exact (ih.trans around).trans entered

end Inside

end HookScript
