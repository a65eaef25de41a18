import HookScript.Proofs.Lists.Runs
import HookScript.Proofs.Run.Rest

/-!
What comes before what in a run. A task calls on others one after another, and all that the run of the first of two such
tasks comes to is over when the second one begins. Of any two tasks in a run, one is inside the other or before it.
-/

namespace HookScript

namespace Run

structure Moment where
  fuel : Nat
  task : Task
  machine : Machine

namespace Moment

def after (world : World) (a : Moment) : Machine := a.task.after world a.fuel a.machine

def ComesTo (world : World) (whole a : Moment) : Prop :=
  Run.ComesTo world whole.fuel whole.task whole.machine a.fuel a.task a.machine

end Moment

inductive InTurn (world : World) (n : Nat) : Task → Machine → Task → Machine → Task → Machine → Prop
  | itemIndex {target index list m m₁} (ht : evaluate world n target m = .ok (.list list) m₁) :
    InTurn world n (.evaluate (.item target index)) m (.evaluate target) m (.evaluate index) m₁
  | setItemTarget {target index value v m m₁} (hv : evaluate world n value m = .ok v m₁) :
    InTurn world n (.evaluate (.setItem target index value)) m (.evaluate value) m (.evaluate target) m₁
  | setItemIndex {target index value v list m m₁ m₂} (hv : evaluate world n value m = .ok v m₁)
    (ht : evaluate world n target m₁ = .ok (.list list) m₂) :
    InTurn world n (.evaluate (.setItem target index value)) m (.evaluate target) m₁ (.evaluate index) m₂
  | setItemValue {target index value v list m m₁ m₂} (hv : evaluate world n value m = .ok v m₁)
    (ht : evaluate world n target m₁ = .ok (.list list) m₂) :
    InTurn world n (.evaluate (.setItem target index value)) m (.evaluate value) m (.evaluate index) m₂
  | setPropertyTarget {target name value v m m₁} (hv : evaluate world n value m = .ok v m₁) :
    InTurn world n (.evaluate (.setProperty target name value)) m (.evaluate value) m (.evaluate target) m₁
  | binaryRight {left op right v m m₁} (hl : evaluate world n left m = .ok v m₁) :
    InTurn world n (.evaluate (.binary left op right)) m (.evaluate left) m (.evaluate right) m₁
  | andRight {left right v m m₁} (hl : evaluate world n left m = .ok v m₁) (truthy : v.isTruthy = true) :
    InTurn world n (.evaluate (.logical left .and right)) m (.evaluate left) m (.evaluate right) m₁
  | orRight {left right v m m₁} (hl : evaluate world n left m = .ok v m₁) (falsy : v.isTruthy = false) :
    InTurn world n (.evaluate (.logical left .or right)) m (.evaluate left) m (.evaluate right) m₁
  | args {callee args id callable m m₁} (hc : evaluate world n callee m = .ok (.callable id) m₁)
    (found : m₁.heap.callable? id = some callable) (arity : args.length = callable.arity) :
    InTurn world n (.evaluate (.call callee args)) m (.evaluate callee) m (.evaluateAll args) m₁
  | called {callee args id callable values m m₁ m₂} (hc : evaluate world n callee m = .ok (.callable id) m₁)
    (found : m₁.heap.callable? id = some callable) (arity : args.length = callable.arity)
    (ha : evaluateAll world n args m₁ = .ok values m₂) :
    InTurn world n (.evaluate (.call callee args)) m (.evaluateAll args) m₁ (.call callable values) m₂
  | callee {callee args id callable values m m₁ m₂} (hc : evaluate world n callee m = .ok (.callable id) m₁)
    (found : m₁.heap.callable? id = some callable) (arity : args.length = callable.arity)
    (ha : evaluateAll world n args m₁ = .ok values m₂) :
    InTurn world n (.evaluate (.call callee args)) m (.evaluate callee) m (.call callable values) m₂
  | restExprs {first rest v m m₁} (hf : evaluate world n first m = .ok v m₁) :
    InTurn world n (.evaluateAll (first :: rest)) m (.evaluate first) m (.evaluateAll rest) m₁
  | yes {condition yes no v m m₁} (hc : evaluate world n condition m = .ok v m₁) (truthy : v.isTruthy = true) :
    InTurn world n (.execute (.branch condition yes no)) m (.evaluate condition) m (.execute yes) m₁
  | no {condition yes no v m m₁} (hc : evaluate world n condition m = .ok v m₁) (falsy : v.isTruthy = false) :
    InTurn world n (.execute (.branch condition yes (some no))) m (.evaluate condition) m (.execute no) m₁
  | importFile {source path m m₁} (hs : evaluate world n source m = .ok path m₁) :
    InTurn world n (.execute (.importFrom source)) m (.evaluate source) m (.importFile path) m₁
  | restStmts {first rest m m₁} (hf : execute world n first m = .ok .normal m₁) :
    InTurn world n (.executeAll (first :: rest)) m (.execute first) m (.executeAll rest) m₁
  | loopBody {condition body v m m₁} (hc : evaluate world n condition m = .ok v m₁) (truthy : v.isTruthy = true) :
    InTurn world n (.loop condition body) m (.evaluate condition) m (.executeAll body) m₁.opened
  | nextRound {condition body v done m m₁ m₂} (hc : evaluate world n condition m = .ok v m₁)
    (truthy : v.isTruthy = true) (hb : executeAll world n body m₁.opened = .ok done m₂)
    (goesOn : done = .normal ∨ done = .nextRound) :
    InTurn world n (.loop condition body) m (.executeAll body) m₁.opened (.loop condition body)
      (m₂.inFrame m₁.interpreter.scope)
  | rounds {condition body v done m m₁ m₂} (hc : evaluate world n condition m = .ok v m₁)
    (truthy : v.isTruthy = true) (hb : executeAll world n body m₁.opened = .ok done m₂)
    (goesOn : done = .normal ∨ done = .nextRound) :
    InTurn world n (.loop condition body) m (.evaluate condition) m (.loop condition body)
      (m₂.inFrame m₁.interpreter.scope)
  | restOfProgram {first rest m m₁} (hf : execute world n first m = .ok .normal m₁) :
    InTurn world n (.executeProgram (first :: rest)) m (.execute first) m (.executeProgram rest) m₁

inductive Before (world : World) : Moment → Moment → Moment → Prop
  | inTurn {n t t₁ t₂ m m₁ m₂ a b} (turn : InTurn world n t m t₁ m₁ t₂ m₂)
    (first : Moment.ComesTo world ⟨n, t₁, m₁⟩ a) (second : Moment.ComesTo world ⟨n, t₂, m₂⟩ b) :
    Before world ⟨n + 1, t, m⟩ a b
  | inside {n move t t' m m' a b} (enters : Enters world n move t m t' m') (before : Before world ⟨n, t', m'⟩ a b) :
    Before world ⟨n + 1, t, m⟩ a b

variable {world : World} {comes : Nat → Task → Machine → Prop} {n : Nat} {t t₁ t₂ : Task} {m m₁ m₂ : Machine}
  {whole a b : Moment}

theorem InTurn.enters (turn : InTurn world n t m t₁ m₁ t₂ m₂) :
    (∃ move, Enters world n move t m t₁ m₁) ∧ ∃ move, Enters world n move t m t₂ m₂ := by
  cases turn with
  | itemIndex ht => exact ⟨⟨_, .itemTarget⟩, _, .itemIndex ht⟩
  | setItemTarget hv => exact ⟨⟨_, .setItemValue⟩, _, .setItemTarget hv⟩
  | setItemIndex hv ht => exact ⟨⟨_, .setItemTarget hv⟩, _, .setItemIndex hv ht⟩
  | setItemValue hv ht => exact ⟨⟨_, .setItemValue⟩, _, .setItemIndex hv ht⟩
  | setPropertyTarget hv => exact ⟨⟨_, .setPropertyValue⟩, _, .setPropertyTarget hv⟩
  | binaryRight hl => exact ⟨⟨_, .binaryLeft⟩, _, .binaryRight hl⟩
  | andRight hl truthy => exact ⟨⟨_, .logicalLeft⟩, _, .andRight hl truthy⟩
  | orRight hl falsy => exact ⟨⟨_, .logicalLeft⟩, _, .orRight hl falsy⟩
  | args hc found arity => exact ⟨⟨_, .callee⟩, _, .args hc found arity⟩
  | called hc found arity ha => exact ⟨⟨_, .args hc found arity⟩, _, .called hc found arity ha⟩
  | callee hc found arity ha => exact ⟨⟨_, .callee⟩, _, .called hc found arity ha⟩
  | restExprs hf => exact ⟨⟨_, .firstExpr⟩, _, .restExprs hf⟩
  | yes hc truthy => exact ⟨⟨_, .branchCondition⟩, _, .yes hc truthy⟩
  | no hc falsy => exact ⟨⟨_, .branchCondition⟩, _, .no hc falsy⟩
  | importFile hs => exact ⟨⟨_, .source⟩, _, .importFile hs⟩
  | restStmts hf => exact ⟨⟨_, .firstStmt⟩, _, .restStmts hf⟩
  | loopBody hc truthy => exact ⟨⟨_, .loopCondition⟩, _, .loopBody hc truthy⟩
  | nextRound hc truthy hb goesOn => exact ⟨⟨_, .loopBody hc truthy⟩, _, .nextRound hc truthy hb goesOn⟩
  | rounds hc truthy hb goesOn => exact ⟨⟨_, .loopCondition⟩, _, .nextRound hc truthy hb goesOn⟩
  | restOfProgram hf => exact ⟨⟨_, .firstOfProgram⟩, _, .restOfProgram hf⟩

theorem Enters.inTurn {move move' : Move} (first : Enters world n move t m t₁ m₁)
    (second : Enters world n move' t m t₂ m₂) :
    (t₁ = t₂ ∧ m₁ = m₂) ∨ InTurn world n t m t₁ m₁ t₂ m₂ ∨ InTurn world n t m t₂ m₂ t₁ m₁ := by
  cases first <;> cases second <;> first | exact .inl ⟨rfl, rfl⟩ | grind [InTurn]

theorem Moment.ComesTo.inOrder (first : whole.ComesTo world a) (second : whole.ComesTo world b) :
    a.ComesTo world b ∨ b.ComesTo world a ∨ Before world whole a b ∨ Before world whole b a := by
  obtain ⟨n, t, m⟩ := whole
  obtain ⟨k, t', m'⟩ := a
  dsimp only [ComesTo] at first
  induction first with
  | refl => exact .inl second
  | @inside n k move t t₁ t' m m₁ m' enters rest ih =>
    obtain ⟨l, t'', m''⟩ := b
    cases second with
    | refl => exact .inr (.inl (.inside enters rest))
    | inside enters' rest' =>
      rcases enters.inTurn enters' with ⟨rfl, rfl⟩ | turn | turn
      · rcases ih rest' with within | within | before | before
        · exact .inl within
        · exact .inr (.inl within)
        · exact .inr (.inr (.inl (.inside enters before)))
        · exact .inr (.inr (.inr (.inside enters before)))
      · exact .inr (.inr (.inl (.inTurn turn rest rest')))
      · exact .inr (.inr (.inr (.inTurn turn rest' rest)))

section

variable (followed : Followed world comes)
include followed

theorem InTurn.course (turn : InTurn world n t m t₁ m₁ t₂ m₂) (came : comes (n + 1) t m) :
    Course world comes (t₁.after world n m₁).heap m₂.heap := by
  have through {move t' m'} (enters : Enters world n move t m t' m') :
      Course world comes m'.heap (t'.after world n m').heap := course_after followed (followed came enters)
  cases turn with
  | itemIndex ran | setItemTarget ran | setItemIndex _ ran | setPropertyTarget ran | binaryRight ran | andRight ran
  | orRight ran | args ran | called _ _ _ ran | restExprs ran | yes ran | no ran | importFile ran | restStmts ran
  | restOfProgram ran =>
    rw [Task.after, Machine.after_of_ok ran]
    exact .refl
  | setItemValue hv ht =>
    rw [Task.after, Machine.after_of_ok hv, ← Machine.after_of_ok ht]
    exact through (.setItemTarget hv)
  | callee hc found arity ha =>
    rw [Task.after, Machine.after_of_ok hc, ← Machine.after_of_ok ha]
    exact through (.args hc found arity)
  | loopBody hc truthy =>
    rw [Task.after, Machine.after_of_ok hc]
    exact .deed came (.round hc truthy)
  | nextRound hc truthy hb goesOn =>
    rw [Task.after, Machine.after_of_ok hb]
    exact .refl
  | rounds hc truthy hb goesOn =>
    have opened : Course world comes _ _ := .deed came (.round hc truthy)
    have inside := through (.loopBody hc truthy)
    rw [Task.after, Machine.after_of_ok hb] at inside
    rw [Task.after, Machine.after_of_ok hc]
    exact opened.trans inside

/-- Up to any task in a run, and from its end to the end of the run, all is a course of deeds. -/
theorem Moment.ComesTo.course (came : comes whole.fuel whole.task whole.machine) (within : whole.ComesTo world a) :
    comes a.fuel a.task a.machine ∧ Course world comes whole.machine.heap a.machine.heap ∧
      Course world comes (a.after world).heap (whole.after world).heap := by
  obtain ⟨n, t, m⟩ := whole
  obtain ⟨k, t', m'⟩ := a
  dsimp only [ComesTo] at within
  induction within with
  | refl => exact ⟨came, .refl, .refl⟩
  | inside enters _ ih =>
    obtain ⟨came', upTo, onward⟩ := ih (followed came enters)
    exact ⟨came', (enters.course followed came).trans upTo, onward.trans (enters.rest followed came)⟩

theorem Before.course (before : Before world whole a b) (came : comes whole.fuel whole.task whole.machine) :
    Course world comes (a.after world).heap b.machine.heap := by
  induction before with
  | inTurn turn first second =>
    obtain ⟨⟨_, enters₁⟩, _, enters₂⟩ := turn.enters
    obtain ⟨-, -, onward⟩ := Moment.ComesTo.course followed (followed came enters₁) first
    obtain ⟨-, upTo, -⟩ := Moment.ComesTo.course followed (followed came enters₂) second
    exact (onward.trans (turn.course followed came)).trans upTo
  | inside enters _ ih => exact ih (followed came enters)

end

theorem Before.within (before : Before world whole a b) : whole.ComesTo world a ∧ whole.ComesTo world b := by
  induction before with
  | inTurn turn first second =>
    obtain ⟨⟨_, enters₁⟩, _, enters₂⟩ := turn.enters
    exact ⟨.inside enters₁ first, .inside enters₂ second⟩
  | inside enters _ ih => exact ⟨.inside enters ih.1, .inside enters ih.2⟩

end Run

end HookScript
