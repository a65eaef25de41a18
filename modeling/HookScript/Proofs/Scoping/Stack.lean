import HookScript.Proofs.Scoping.Context

/-!
A scope stack seen as the list of its name sets, from the innermost one on. Slots above the innermost scope
cannot be seen, whatever an ended scope has left in them.
-/

namespace HookScript

namespace ScopeStack

def visible (stack : ScopeStack) : List NameSet := (stack.frames.toList.take (stack.depth + 1)).reverse

theorem resolve_eq (stack : ScopeStack) (name : String) :
    stack.resolve name = (stack.visible.findIdx? (name ∈ ·)).getD stack.depth := rfl

theorem length_visible (stack : ScopeStack) : stack.visible.length = stack.depth + 1 := by
  have bound := stack.depth_lt
  simp only [visible, List.length_reverse, List.length_take, Array.length_toList]
  omega

theorem getElem?_visible (stack : ScopeStack) {i : Nat} (inside : i ≤ stack.depth) :
    stack.visible[i]? = stack.frames[stack.depth - i]? := by
  have bound := stack.depth_lt
  have size : (stack.frames.toList.take (stack.depth + 1)).length = stack.depth + 1 := by
    simp only [List.length_take, Array.length_toList]
    omega
  rw [visible, List.getElem?_reverse (by omega), size, List.getElem?_take_of_lt (by omega)]
  simp

theorem visible_eq_cons (stack : ScopeStack) :
    stack.visible = stack.innermost :: (stack.frames.toList.take stack.depth).reverse := by
  have bound := stack.depth_lt
  rw [visible, List.take_add_one]
  simp [innermost, bound]

theorem globals_eq (stack : ScopeStack) : stack.visible[stack.depth - 1]? = some stack.globals := by
  have bound := stack.depth_lt
  have one := stack.one_le_depth
  have second : stack.depth - (stack.depth - 1) = globalIndex := by
    simp only [globalIndex]
    omega
  rw [getElem?_visible stack (by omega), second]
  exact Array.getElem?_eq_getElem (Nat.lt_of_le_of_lt one bound)

theorem visible_begin (stack : ScopeStack) : stack.begin.visible = [] :: stack.visible := by
  unfold begin
  split
  · next room =>
    simp only [visible, Array.toList_set]
    rw [List.take_add_one]
    simp [List.take_set_of_le, room]
  · next full =>
    have bound := stack.depth_lt
    have size : stack.frames.toList.length = stack.depth + 1 := by
      simp only [Array.length_toList]
      omega
    simp only [visible, Array.toList_push]
    rw [← size, List.take_length, List.take_of_length_le (by simp)]
    simp

theorem visible_finish {stack : ScopeStack} (inner : globalIndex < stack.depth) :
    stack.finish.visible = stack.visible.tail := by
  have pos : stack.depth - 1 + 1 = stack.depth := by omega
  rw [visible_eq_cons stack]
  simp only [finish, inner, ↓reduceDIte, visible, pos, List.tail_cons]

theorem visible_declare? {stack next : ScopeStack} {name : String} (h : stack.declare? name = some next) :
    name ∉ stack.innermost ∧ next.visible = (name :: stack.innermost) :: stack.visible.tail := by
  unfold declare? at h
  split at h
  · cases h
  · next fresh =>
    cases h
    refine ⟨fresh, ?_⟩
    rw [visible_eq_cons stack, List.tail_cons, visible_eq_cons]
    simp [innermost, List.take_set_of_le]

theorem declare?_cases (stack : ScopeStack) (name : String) :
    name ∈ stack.innermost ∧ stack.declare? name = none ∨ name ∉ stack.innermost ∧ ∃ next,
      stack.declare? name = some next ∧ next.visible = (name :: stack.innermost) :: stack.visible.tail := by
  by_cases known : name ∈ stack.innermost
  · exact .inl ⟨known, by simp [declare?, known]⟩
  · obtain ⟨next, declared⟩ : ∃ next, stack.declare? name = some next := by simp [declare?, known]
    exact .inr ⟨known, next, declared, (visible_declare? declared).2⟩

theorem declare?_alike {stack other : ScopeStack} {name : String}
    (same : name ∈ stack.innermost ↔ name ∈ other.innermost) :
    stack.declare? name = none ∧ other.declare? name = none ∨
      ∃ next next', stack.declare? name = some next ∧ other.declare? name = some next' ∧
        next.visible = (name :: stack.innermost) :: stack.visible.tail ∧
        next'.visible = (name :: other.innermost) :: other.visible.tail := by
  rcases stack.declare?_cases name with ⟨known, failed⟩ | ⟨new, next, declared, visible⟩
  · rcases other.declare?_cases name with ⟨-, failed'⟩ | ⟨new', -⟩
    · exact .inl ⟨failed, failed'⟩
    · exact absurd (same.1 known) new'
  · rcases other.declare?_cases name with ⟨known', -⟩ | ⟨-, next', declared', visible'⟩
    · exact absurd (same.2 known') new
    · exact .inr ⟨next, next', declared, declared', visible, visible'⟩

theorem visible_forMethod (stack : ScopeStack) : stack.forMethod.visible = [["this"], stack.globals, []] := rfl

/-- The stack has in sight what the context says, and beyond it an empty scope for the builtins. -/
def Shows (stack : ScopeStack) (c : Context) : Prop := stack.visible = c.names ++ [[]]

theorem shows_start : empty.Shows .start := rfl

namespace Shows

variable {stack next : ScopeStack} {c d : Context} {name : String}

theorem congr (shows_c : stack.Shows c) (same : c.names = d.names) : stack.Shows d := by
  rw [Shows, ← same]
  exact shows_c

theorem depth_eq (shows_c : stack.Shows c) : stack.depth = c.depth := by
  have length := congrArg List.length shows_c
  simp only [length_visible, Context.names, List.length_append, List.length_map, Context.length_scopes,
    List.length_cons, List.length_nil] at length
  omega

theorem innermost_eq (shows_c : stack.Shows c) : stack.innermost = c.inner.names := by
  have heads := shows_c
  rw [Shows, visible_eq_cons] at heads
  exact (List.cons.inj heads).1

theorem globals_eq (shows_c : stack.Shows c) : stack.globals = c.globals.names := by
  have found := ScopeStack.globals_eq stack
  rw [shows_c, shows_c.depth_eq] at found
  have last : (c.names ++ [[]])[c.depth - 1]? = some c.globals.names := by
    obtain ⟨inner, outer⟩ := c
    rw [List.getElem?_append_left (by simp [Context.names, Context.scopes, Context.depth])]
    rcases List.eq_nil_or_concat outer with rfl | ⟨before, last, rfl⟩
    · rfl
    · simp [Context.names, Context.scopes, Context.depth, Context.globals]
  exact Option.some.inj (found.symm.trans last)

theorem resolve_eq (shows_c : stack.Shows c) (name : String) : stack.resolve name = c.resolve name := by
  rw [ScopeStack.resolve_eq, shows_c, shows_c.depth_eq, Context.names, List.findIdx?_append,
    List.findIdx?_map]
  simp [Context.resolve, Function.comp_def]

theorem begin (shows_c : stack.Shows c) : stack.begin.Shows c.enter := by
  rw [Shows, visible_begin, shows_c, Context.names_enter]
  rfl

theorem finish (shows_d : stack.Shows d) (around : d.outer = c.scopes) : stack.finish.Shows c := by
  have deep : globalIndex < stack.depth := by
    rw [shows_d.depth_eq, Context.depth, around]
    simp [globalIndex, Context.scopes]
  rw [Shows, visible_finish deep, shows_d]
  simp [Context.names, Context.scopes, around]

theorem declare (shows_c : stack.Shows c) (h : stack.declare? name = some next) :
    next.Shows (c.declare name) := by
  rw [Shows, (visible_declare? h).2, Context.names_declare, shows_c.innermost_eq, shows_c]
  rfl

theorem forMethod (shows_c : stack.Shows c) : stack.forMethod.Shows ⟨.receiver, [c.globals]⟩ := by
  rw [Shows, visible_forMethod, shows_c.globals_eq]
  rfl

end Shows

end ScopeStack

end HookScript
