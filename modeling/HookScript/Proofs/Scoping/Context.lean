import HookScript.Program.Basic
import HookScript.ScopeStack

/-!
Scopes as the finished text shows them, and the level of every name by recursion over the text. A context
holds the scopes around a place in the text, each with the names declared before that place. Nothing here
knows of a stack that is pushed and popped while a text is read.
-/

namespace HookScript

/-- The names of one scope up to some place. A name is settled there if it is a parameter, `this`, or declared
by a statement that stands in the scope itself and ends before the place; a function's name is settled in its
own body too. -/
structure Scope where
  names : NameSet
  settled : NameSet

namespace Scope

def empty : Scope := ⟨[], []⟩

def declare (scope : Scope) (name : String) : Scope := ⟨name :: scope.names, scope.settled⟩

def settle (scope : Scope) (name : String) : Scope := ⟨name :: scope.names, name :: scope.settled⟩

def receiver : Scope := empty.settle "this"

end Scope

/-- The scopes around a place, from the innermost one on. The last one is the global scope of the file. -/
structure Context where
  inner : Scope
  outer : List Scope

namespace Context

def start : Context := ⟨.empty, []⟩

def scopes (c : Context) : List Scope := c.inner :: c.outer

/-- The static depth: one at the top of a file, and one more inside every scope. -/
def depth (c : Context) : Nat := c.outer.length + 1

def names (c : Context) : List NameSet := c.scopes.map (·.names)

def globals (c : Context) : Scope := c.outer.getLastD c.inner

def declare (c : Context) (name : String) : Context := ⟨c.inner.declare name, c.outer⟩

def settle (c : Context) (name : String) : Context := ⟨c.inner.settle name, c.outer⟩

def declareAll (c : Context) (names : List String) : Context := names.foldl declare c

def settleAll (c : Context) (names : List String) : Context := names.foldl settle c

def enter (c : Context) : Context := ⟨.empty, c.scopes⟩

/-- The name of a function belongs to the scope around it and its parameters to the scope of its body. -/
def functionBody (c : Context) (name : String) (params : List String) : Context :=
  (c.settle name).enter.settleAll params

/-- Of what is around a method only the global scope can be seen from its body. -/
def methodBody (c : Context) (params : List String) : Context :=
  Context.settleAll ⟨.empty, [.receiver, c.globals]⟩ params

/-- How many scopes lie between the innermost one and the nearest that has `name`. What lies beyond the global
scope is the scope of the builtins. -/
def resolve (c : Context) (name : String) : Nat :=
  (c.scopes.findIdx? fun scope => name ∈ scope.names).getD c.depth

end Context

def Stmt.declares : Stmt → List String
  | .declare name _ => [name]
  | .function name _ _ => [name]
  | .branch _ yes none => yes.declares
  | .branch _ yes (some no) => yes.declares ++ no.declares
  | _ => []

namespace Context

/-- The context after a statement. What a branch declares may not have been run. -/
def after (c : Context) : Stmt → Context
  | .declare name _ => c.settle name
  | .function name _ _ => c.settle name
  | stmt => c.declareAll stmt.declares

def afterAll (c : Context) : List Stmt → Context
  | [] => c
  | first :: rest => (c.after first).afterAll rest

end Context

mutual

def Expr.levelled (c : Context) : Expr → Expr
  | .lookup name _ => .lookup name (c.resolve name)
  | .assign name _ value => .assign name (c.resolve name) (value.levelled c)
  | .item target index => .item (target.levelled c) (index.levelled c)
  | .setItem target index value => .setItem (target.levelled c) (index.levelled c) (value.levelled c)
  | .property target name => .property (target.levelled c) name
  | .setProperty target name value => .setProperty (target.levelled c) name (value.levelled c)
  | .literal literal => .literal literal
  | .group inner => .group (inner.levelled c)
  | .unary op operand => .unary op (operand.levelled c)
  | .binary left op right => .binary (left.levelled c) op (right.levelled c)
  | .logical left op right => .logical (left.levelled c) op (right.levelled c)
  | .call callee args => .call (callee.levelled c) (levelledExprs c args)
  | .list items => .list (levelledExprs c items)
  | .object properties => .object (levelledProperties c properties)
  | .method params body => .method params (levelledStmts (c.methodBody params) body)

def levelledExprs (c : Context) : List Expr → List Expr
  | [] => []
  | first :: rest => first.levelled c :: levelledExprs c rest

def levelledProperties (c : Context) : List (String × Expr) → List (String × Expr)
  | [] => []
  | (key, value) :: rest => (key, value.levelled c) :: levelledProperties c rest

/-- The statement with every level counted in the text around it. A variable is in scope in its own initial
value, and what the first branch declares is in scope in the second. -/
def Stmt.levelled (c : Context) : Stmt → Stmt
  | .expression value => .expression (value.levelled c)
  | .declare name none => .declare name none
  | .declare name (some initial) => .declare name (some (initial.levelled (c.declare name)))
  | .block body => .block (levelledStmts c.enter body)
  | .branch condition yes none => .branch (condition.levelled c) (yes.levelled c) none
  | .branch condition yes (some no) =>
    .branch (condition.levelled c) (yes.levelled c) (some (no.levelled (c.declareAll yes.declares)))
  | .loop condition body => .loop (condition.levelled c) (levelledStmts c.enter body)
  | .function name params body => .function name params (levelledStmts (c.functionBody name params) body)
  | .giveBack none => .giveBack none
  | .giveBack (some value) => .giveBack (some (value.levelled c))
  | .leaveLoop => .leaveLoop
  | .nextRound => .nextRound
  | .importFrom source => .importFrom (source.levelled c)
  | .exportAs name value => .exportAs name (value.levelled c)
  | .empty => .empty

def levelledStmts (c : Context) : List Stmt → List Stmt
  | [] => []
  | first :: rest => first.levelled c :: levelledStmts (c.after first) rest

end

def Program.levelled (program : Program) : Program := levelledStmts .start program

namespace Context

theorem names_declare (c : Context) (name : String) :
    (c.declare name).names = (name :: c.inner.names) :: c.outer.map (·.names) := rfl

theorem names_enter (c : Context) : c.enter.names = [] :: c.names := rfl

theorem outer_declareAll (c : Context) (names : List String) : (c.declareAll names).outer = c.outer := by
  induction names generalizing c with
  | nil => rfl
  | cons name rest ih => exact ih (c.declare name)

theorem outer_settleAll (c : Context) (names : List String) : (c.settleAll names).outer = c.outer := by
  induction names generalizing c with
  | nil => rfl
  | cons name rest ih => exact ih (c.settle name)

theorem outer_after (c : Context) (stmt : Stmt) : (c.after stmt).outer = c.outer := by
  cases stmt with
  | declare | function => rfl
  | _ => exact outer_declareAll c _

theorem outer_afterAll (c : Context) (stmts : List Stmt) : (c.afterAll stmts).outer = c.outer := by
  induction stmts generalizing c with
  | nil => rfl
  | cons first rest ih => exact (ih (c.after first)).trans (outer_after c first)

theorem names_after (c : Context) (stmt : Stmt) : (c.after stmt).names = (c.declareAll stmt.declares).names := by
  cases stmt <;> rfl

theorem depth_start : start.depth = 1 := rfl

theorem depth_enter (c : Context) : c.enter.depth = c.depth + 1 := rfl

theorem depth_declareAll (c : Context) (names : List String) : (c.declareAll names).depth = c.depth := by
  rw [depth, outer_declareAll, depth]

theorem depth_after (c : Context) (stmt : Stmt) : (c.after stmt).depth = c.depth := by
  rw [depth, outer_after, depth]

theorem depth_functionBody (c : Context) (name : String) (params : List String) :
    (c.functionBody name params).depth = c.depth + 1 := by
  rw [depth, functionBody, outer_settleAll]
  rfl

theorem depth_methodBody (c : Context) (params : List String) : (c.methodBody params).depth = 3 := by
  rw [depth, methodBody, outer_settleAll]
  rfl

theorem afterAll_append (c : Context) (xs ys : List Stmt) :
    c.afterAll (xs ++ ys) = (c.afterAll xs).afterAll ys := by
  induction xs generalizing c with
  | nil => rfl
  | cons first rest ih => exact ih (c.after first)

theorem getElem?_scopes_globals (c : Context) : c.scopes[c.outer.length]? = some c.globals := by
  obtain ⟨inner, outer⟩ := c
  cases outer with
  | nil => rfl
  | cons first rest => simp [scopes, globals, List.getLastD, List.getLast_eq_getElem]

theorem length_scopes (c : Context) : c.scopes.length = c.depth := rfl

theorem resolve_le (c : Context) (name : String) : c.resolve name ≤ c.depth := by
  unfold resolve
  cases found : c.scopes.findIdx? fun scope => name ∈ scope.names with
  | none => exact Nat.le_refl _
  | some i =>
    obtain ⟨lt, -⟩ := List.findIdx?_eq_some_iff_getElem.1 found
    exact Nat.le_of_lt lt

theorem resolve_of_undeclared {c : Context} {name : String} (nowhere : ∀ scope ∈ c.scopes, name ∉ scope.names) :
    c.resolve name = c.depth := by
  have none : (c.scopes.findIdx? fun scope => name ∈ scope.names) = none := by
    simpa [List.findIdx?_eq_none_iff] using nowhere
  simp only [resolve, none, Option.getD_none]

end Context

theorem levelledStmts_append (c : Context) (xs ys : List Stmt) :
    levelledStmts c (xs ++ ys) = levelledStmts c xs ++ levelledStmts (c.afterAll xs) ys := by
  induction xs generalizing c with
  | nil => rfl
  | cons first rest ih =>
    simp only [List.cons_append, levelledStmts, ih]
    rfl

/-! ### Levels counted anew -/

theorem Stmt.declares_levelled (c : Context) : (stmt : Stmt) → (stmt.levelled c).declares = stmt.declares
  | .branch _ yes none => yes.declares_levelled c
  | .branch _ yes (some no) => by
    simp only [Stmt.levelled, Stmt.declares, yes.declares_levelled c, no.declares_levelled (c.declareAll yes.declares)]
  | .declare _ none | .declare _ (some _) | .giveBack none | .giveBack (some _) => rfl
  | .expression _ | .block _ | .loop _ _ | .function _ _ _ | .leaveLoop | .nextRound | .importFrom _ | .exportAs _ _
  | .empty => rfl

theorem Context.after_levelled (c d : Context) (stmt : Stmt) : c.after (stmt.levelled d) = c.after stmt := by
  have same := stmt.declares_levelled d
  cases stmt with
  | declare name initial => cases initial <;> rfl
  | branch condition yes no => cases no <;> exact congrArg c.declareAll same
  | giveBack value => cases value <;> rfl
  | _ => rfl

mutual

theorem Expr.levelled_levelled (c d : Context) : (e : Expr) → (e.levelled d).levelled c = e.levelled c
  | .lookup _ _ | .literal _ => rfl
  | .assign _ _ value => by simp only [Expr.levelled, value.levelled_levelled c d]
  | .item target index => by simp only [Expr.levelled, target.levelled_levelled c d, index.levelled_levelled c d]
  | .setItem target index value => by
    simp only [Expr.levelled, target.levelled_levelled c d, index.levelled_levelled c d, value.levelled_levelled c d]
  | .property target _ => by simp only [Expr.levelled, target.levelled_levelled c d]
  | .setProperty target _ value => by
    simp only [Expr.levelled, target.levelled_levelled c d, value.levelled_levelled c d]
  | .group inner => by simp only [Expr.levelled, inner.levelled_levelled c d]
  | .unary _ operand => by simp only [Expr.levelled, operand.levelled_levelled c d]
  | .binary left _ right | .logical left _ right => by
    simp only [Expr.levelled, left.levelled_levelled c d, right.levelled_levelled c d]
  | .call callee args => by simp only [Expr.levelled, callee.levelled_levelled c d, levelledExprs_levelled c d args]
  | .list items => by simp only [Expr.levelled, levelledExprs_levelled c d items]
  | .object properties => by simp only [Expr.levelled, levelledProperties_levelled c d properties]
  | .method params body => by simp only [Expr.levelled, levelledStmts_levelled _ _ body]

theorem levelledExprs_levelled (c d : Context) :
    (es : List Expr) → levelledExprs c (levelledExprs d es) = levelledExprs c es
  | [] => rfl
  | first :: rest => by simp only [levelledExprs, first.levelled_levelled c d, levelledExprs_levelled c d rest]

theorem levelledProperties_levelled (c d : Context) : (properties : List (String × Expr)) →
    levelledProperties c (levelledProperties d properties) = levelledProperties c properties
  | [] => rfl
  | (_, value) :: rest => by
    simp only [levelledProperties, value.levelled_levelled c d, levelledProperties_levelled c d rest]

theorem Stmt.levelled_levelled (c d : Context) : (stmt : Stmt) → (stmt.levelled d).levelled c = stmt.levelled c
  | .expression value | .giveBack (some value) | .exportAs _ value => by
    simp only [Stmt.levelled, value.levelled_levelled c d]
  | .importFrom source => by simp only [Stmt.levelled, source.levelled_levelled c d]
  | .declare _ (some initial) => by simp only [Stmt.levelled, initial.levelled_levelled _ _]
  | .block body => by simp only [Stmt.levelled, levelledStmts_levelled _ _ body]
  | .branch condition yes none => by
    simp only [Stmt.levelled, condition.levelled_levelled c d, yes.levelled_levelled c d]
  | .branch condition yes (some no) => by
    simp only [Stmt.levelled, condition.levelled_levelled c d, yes.levelled_levelled c d, yes.declares_levelled d,
      no.levelled_levelled _ _]
  | .loop condition body => by
    simp only [Stmt.levelled, condition.levelled_levelled c d, levelledStmts_levelled _ _ body]
  | .function _ _ body => by simp only [Stmt.levelled, levelledStmts_levelled _ _ body]
  | .declare _ none | .giveBack none | .leaveLoop | .nextRound | .empty => rfl

theorem levelledStmts_levelled (c d : Context) :
    (stmts : List Stmt) → levelledStmts c (levelledStmts d stmts) = levelledStmts c stmts
  | [] => rfl
  | first :: rest => by
    simp only [levelledStmts, first.levelled_levelled c d, Context.after_levelled, levelledStmts_levelled _ _ rest]

end

end HookScript
