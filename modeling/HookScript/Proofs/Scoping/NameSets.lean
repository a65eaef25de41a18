import Mathlib.Data.Finset.Dedup
import Mathlib.Data.Finset.Insert
import HookScript.Proofs.Scoping.Stack

/-!
Scopes as plain sets of names. Whatever a reader asks of a scope stack, in any order and of the stacks of methods too,
the answers are those of a list of sets that grows when a scope begins and shrinks when it ends. So a scope that has
ended leaves no name behind, wherever its place is taken again.
-/

namespace HookScript

structure Scoping (σ : Type) where
  start : σ
  begin : σ → σ
  finish : σ → σ
  /-- Nothing comes of it when the innermost scope has the name already. -/
  declare? : σ → String → Option σ
  resolve : σ → String → Nat
  forMethod : σ → σ

inductive ScopeRequest where
  | begin
  | finish
  | declare (name : String)
  | resolve (name : String)
  | enterMethod
  | leaveMethod

inductive ScopeAnswer where
  | done
  | declared
  | refused
  | level (n : Nat)
  deriving DecidableEq

namespace Scoping

variable {σ τ : Type}

/-- The scopes at hand come first; behind them wait the scopes around the methods that are being read. -/
def answer (scoping : Scoping σ) : ScopeRequest → σ × List σ → ScopeAnswer × (σ × List σ)
  | .begin, (scopes, waiting) => (.done, scoping.begin scopes, waiting)
  | .finish, (scopes, waiting) => (.done, scoping.finish scopes, waiting)
  | .declare name, (scopes, waiting) =>
    match scoping.declare? scopes name with
    | some next => (.declared, next, waiting)
    | none => (.refused, scopes, waiting)
  | .resolve name, (scopes, waiting) => (.level (scoping.resolve scopes name), scopes, waiting)
  | .enterMethod, (scopes, waiting) => (.done, scoping.forMethod scopes, scopes :: waiting)
  | .leaveMethod, (_, outer :: waiting) => (.done, outer, waiting)
  | .leaveMethod, (scopes, []) => (.done, scopes, [])

def after (scoping : Scoping σ) (requests : List ScopeRequest) (state : σ × List σ) : σ × List σ :=
  requests.foldl (fun state request => (scoping.answer request state).2) state

def answers (scoping : Scoping σ) : List ScopeRequest → σ × List σ → List ScopeAnswer
  | [], _ => []
  | request :: rest, state => (scoping.answer request state).1 :: answers scoping rest (scoping.answer request state).2

theorem after_append (scoping : Scoping σ) (first second : List ScopeRequest) (state : σ × List σ) :
    scoping.after (first ++ second) state = scoping.after second (scoping.after first state) := List.foldl_append

structure Shows (scoping : Scoping σ) (plain : Scoping τ) (view : σ → τ) : Prop where
  start : view scoping.start = plain.start
  begin (scopes : σ) : view (scoping.begin scopes) = plain.begin (view scopes)
  finish (scopes : σ) : view (scoping.finish scopes) = plain.finish (view scopes)
  declare? (scopes : σ) (name : String) : (scoping.declare? scopes name).map view = plain.declare? (view scopes) name
  resolve (scopes : σ) (name : String) : scoping.resolve scopes name = plain.resolve (view scopes) name
  forMethod (scopes : σ) : view (scoping.forMethod scopes) = plain.forMethod (view scopes)

namespace Shows

variable {scoping : Scoping σ} {plain : Scoping τ} {view : σ → τ} (shows_plain : scoping.Shows plain view)
include shows_plain

theorem answer_eq (request : ScopeRequest) (state : σ × List σ) :
    plain.answer request (state.map view (·.map view)) =
      ((scoping.answer request state).1, (scoping.answer request state).2.map view (·.map view)) := by
  obtain ⟨scopes, waiting⟩ := state
  cases request with
  | begin => simp [answer, shows_plain.begin]
  | finish => simp [answer, shows_plain.finish]
  | declare name =>
    have declared := shows_plain.declare? scopes name
    cases here : scoping.declare? scopes name with
    | none =>
      rw [here, Option.map_none] at declared
      simp [answer, here, ← declared]
    | some next =>
      rw [here, Option.map_some] at declared
      simp [answer, here, ← declared]
  | resolve name => simp [answer, shows_plain.resolve]
  | enterMethod => simp [answer, shows_plain.forMethod]
  | leaveMethod => cases waiting <;> rfl

theorem after_eq (requests : List ScopeRequest) (state : σ × List σ) :
    plain.after requests (state.map view (·.map view)) = (scoping.after requests state).map view (·.map view) := by
  induction requests generalizing state with
  | nil => rfl
  | cons request rest ih =>
    change plain.after rest (plain.answer request _).2 = _
    rw [shows_plain.answer_eq request state]
    exact ih _

theorem answers_eq (requests : List ScopeRequest) (state : σ × List σ) :
    scoping.answers requests state = plain.answers requests (state.map view (·.map view)) := by
  induction requests generalizing state with
  | nil => rfl
  | cons request rest ih =>
    simp only [answers, shows_plain.answer_eq request state]
    rw [ih]

end Shows

end Scoping

def ScopeStack.scoping : Scoping ScopeStack where
  start := empty
  begin := begin
  finish := finish
  declare? := declare?
  resolve := resolve
  forMethod := forMethod

/-- Sets of names, the innermost scope first. The last two are those of the globals and of the builtins, and stay. -/
def nameSets : Scoping (List (Finset String)) where
  start := [∅, ∅]
  begin scopes := ∅ :: scopes
  finish scopes := if scopes.length ≤ 2 then scopes else scopes.tail
  declare? scopes name :=
    match scopes with
    | top :: below => if name ∈ top then none else some (insert name top :: below)
    | [] => none
  resolve scopes name := (scopes.findIdx? (name ∈ ·)).getD (scopes.length - 1)
  forMethod scopes := [{"this"}, scopes.getD (scopes.length - 2) ∅, ∅]

namespace ScopeStack

def sets (stack : ScopeStack) : List (Finset String) := stack.visible.map List.toFinset

theorem length_sets (stack : ScopeStack) : stack.sets.length = stack.depth + 1 := by
  rw [sets, List.length_map, length_visible]

theorem sets_eq_cons (stack : ScopeStack) : stack.sets = stack.innermost.toFinset :: stack.sets.tail := by
  rw [sets, visible_eq_cons]
  rfl

theorem sets_finish (stack : ScopeStack) : stack.finish.sets = nameSets.finish stack.sets := by
  have length := stack.length_sets
  by_cases inner : globalIndex < stack.depth
  · have deep : ¬stack.sets.length ≤ 2 := by
      simp only [globalIndex] at inner
      omega
    simp only [nameSets, deep, if_false]
    rw [sets, visible_finish inner, sets, List.map_tail]
  · have flat : stack.sets.length ≤ 2 := by
      simp only [globalIndex] at inner
      omega
    simp [nameSets, flat, finish, inner]

theorem sets_declare? (stack : ScopeStack) (name : String) :
    (stack.declare? name).map sets = nameSets.declare? stack.sets name := by
  rw [sets_eq_cons stack]
  rcases declare?_cases stack name with ⟨known, refused⟩ | ⟨fresh, next, declared, visible⟩
  · simp [nameSets, refused, known]
  · have shown : next.sets = insert name stack.innermost.toFinset :: stack.sets.tail := by
      rw [sets, visible, List.map_cons, List.toFinset_cons, sets, List.map_tail]
    simp [nameSets, declared, fresh, shown]

theorem resolve_sets (stack : ScopeStack) (name : String) : stack.resolve name = nameSets.resolve stack.sets name := by
  have distance : stack.sets.length - 1 = stack.depth := by rw [length_sets, Nat.add_sub_cancel]
  have same : (fun names : NameSet => decide (name ∈ names.toFinset)) = fun names => decide (name ∈ names) := by
    funext names
    simp
  simp only [nameSets, distance]
  rw [resolve_eq, sets, List.findIdx?_map, Function.comp_def, same]

theorem sets_forMethod (stack : ScopeStack) : stack.forMethod.sets = nameSets.forMethod stack.sets := by
  have globals := stack.globals_eq
  have shown : stack.sets[stack.depth - 1]? = some stack.globals.toFinset := by
    rw [sets, List.getElem?_map, globals, Option.map_some]
  have second : stack.sets.length - 2 = stack.depth - 1 := by
    have := stack.length_sets
    omega
  simp only [nameSets, second, List.getD_eq_getElem?_getD, shown, Option.getD_some]
  rfl

theorem shows_nameSets : scoping.Shows nameSets sets where
  start := rfl
  begin stack := by
    change stack.begin.sets = ∅ :: stack.sets
    rw [sets, visible_begin]
    rfl
  finish := sets_finish
  declare? := sets_declare?
  resolve := resolve_sets
  forMethod := sets_forMethod

end ScopeStack

inductive Inner : List ScopeRequest → Prop
  | nil : Inner []
  | declare {name rest} (inner : Inner rest) : Inner (.declare name :: rest)
  | resolve {name rest} (inner : Inner rest) : Inner (.resolve name :: rest)
  | scope {body rest} (within : Inner body) (inner : Inner rest) : Inner (.begin :: (body ++ .finish :: rest))
  | method {body rest} (within : Inner body) (inner : Inner rest) :
    Inner (.enterMethod :: (body ++ .leaveMethod :: rest))

theorem finish_cons (set : Finset String) {scopes : List (Finset String)} (kept : 2 ≤ scopes.length) :
    nameSets.finish (set :: scopes) = scopes := by
  have deep : ¬(set :: scopes).length ≤ 2 := by
    rw [List.length_cons]
    omega
  simp only [nameSets, deep, if_false, List.tail_cons]

namespace Inner

variable {requests body : List ScopeRequest}

theorem after_eq (inner : Inner requests) (top : Finset String) {below : List (Finset String)}
    (waiting : List (List (Finset String))) (floor : 1 ≤ below.length) :
    ∃ top', nameSets.after requests (top :: below, waiting) = (top' :: below, waiting) := by
  induction inner generalizing top below waiting with
  | nil => exact ⟨top, rfl⟩
  | @declare name rest _ ih =>
    obtain ⟨set, asked⟩ : ∃ set, (nameSets.answer (.declare name) (top :: below, waiting)).2 =
        (set :: below, waiting) := by
      by_cases known : name ∈ top
      · exact ⟨top, by simp [Scoping.answer, nameSets, known]⟩
      · exact ⟨insert name top, by simp [Scoping.answer, nameSets, known]⟩
    obtain ⟨top', done⟩ := ih set waiting floor
    rw [← asked] at done
    exact ⟨top', done⟩
  | resolve _ ih => exact ih top waiting floor
  | @scope body rest _ _ ihBody ih =>
    have kept : 2 ≤ (top :: below).length := by
      rw [List.length_cons]
      omega
    obtain ⟨set, within⟩ := ihBody ∅ waiting (Nat.le_of_succ_le kept)
    obtain ⟨top', done⟩ := ih top waiting floor
    refine ⟨top', ?_⟩
    change nameSets.after (body ++ .finish :: rest) (∅ :: top :: below, waiting) = _
    rw [Scoping.after_append, within]
    change nameSets.after rest (nameSets.finish (set :: top :: below), waiting) = _
    rw [finish_cons set kept, done]
  | @method body rest _ _ ihBody ih =>
    let beneath : List (Finset String) := [(top :: below).getD ((top :: below).length - 2) ∅, ∅]
    have two : 1 ≤ beneath.length := Nat.le_succ 1
    obtain ⟨set, within⟩ := ihBody {"this"} ((top :: below) :: waiting) two
    obtain ⟨top', done⟩ := ih top waiting floor
    refine ⟨top', ?_⟩
    change nameSets.after (body ++ .leaveMethod :: rest)
      (nameSets.forMethod (top :: below), (top :: below) :: waiting) = _
    rw [Scoping.after_append, ← done]
    exact congrArg (nameSets.after (.leaveMethod :: rest)) within

theorem after_scope (inner : Inner body) {scopes : List (Finset String)} (waiting : List (List (Finset String)))
    (kept : 2 ≤ scopes.length) :
    nameSets.after (.begin :: (body ++ [.finish])) (scopes, waiting) = (scopes, waiting) := by
  obtain ⟨set, within⟩ := inner.after_eq ∅ waiting (Nat.le_of_succ_le kept)
  change nameSets.after (body ++ [.finish]) (∅ :: scopes, waiting) = _
  rw [Scoping.after_append, within]
  exact congrArg (·, waiting) (finish_cons set kept)

end Inner

namespace ScopeStack

/-- A scope stack answers like a list of sets, and has the same names in sight after any requests. After a scope has
ended, every further answer is as if it had never begun. -/
theorem answers_of_requests (requests : List ScopeRequest) :
    scoping.answers requests (scoping.start, []) = nameSets.answers requests (nameSets.start, []) ∧
      (scoping.after requests (scoping.start, [])).map sets (·.map sets) =
        nameSets.after requests (nameSets.start, []) ∧
      ∀ body rest, Inner body →
        scoping.answers rest (scoping.after (requests ++ .begin :: (body ++ [.finish])) (scoping.start, [])) =
          scoping.answers rest (scoping.after requests (scoping.start, [])) := by
  refine ⟨shows_nameSets.answers_eq requests _, (shows_nameSets.after_eq requests _).symm, fun body rest inner => ?_⟩
  rw [Scoping.after_append]
  obtain ⟨stack, waiting⟩ := scoping.after requests (scoping.start, [])
  have kept : 2 ≤ stack.sets.length := by
    rw [length_sets]
    exact Nat.succ_le_succ stack.one_le_depth
  have same := inner.after_scope (waiting.map sets) kept
  have seen := shows_nameSets.after_eq (.begin :: (body ++ [.finish])) (stack, waiting)
  rw [shows_nameSets.answers_eq, ← seen, shows_nameSets.answers_eq]
  exact congrArg (nameSets.answers rest) same

/-- The place of a scope that has ended is taken again, and its name is not there. -/
theorem answers_of_reused_place : Inner [.declare "temporary"] ∧
    scoping.answers [.begin, .resolve "temporary", .declare "temporary"]
      (scoping.after ([.declare "kept"] ++ .begin :: ([.declare "temporary"] ++ [.finish])) (scoping.start, [])) =
      [.done, .level 2, .declared] := by
  have inner : Inner [.declare "temporary"] := .declare .nil
  refine ⟨inner, ((answers_of_requests [.declare "kept"]).2.2 _ _ inner).trans ?_⟩
  decide

end ScopeStack

end HookScript
