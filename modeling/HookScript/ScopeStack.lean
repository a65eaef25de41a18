/-!
The names in scope while a script is read. Level zero is the innermost scope; the outermost two hold the
builtins, whose names are not known to the reader, and the file's global names. The frames of ended scopes
stay where they are and are emptied when their place is taken again.
-/

namespace HookScript

abbrev NameSet := List String

structure ScopeStack where
  frames : Array NameSet
  depth : Nat
  one_le_depth : 1 ≤ depth
  depth_lt : depth < frames.size

namespace ScopeStack

def builtinsIndex : Nat := 0

def globalIndex : Nat := 1

def empty : ScopeStack := ⟨#[[], []], globalIndex, by decide, by decide⟩

def globals (stack : ScopeStack) : NameSet :=
  have bound : globalIndex < stack.frames.size := Nat.lt_of_le_of_lt stack.one_le_depth stack.depth_lt
  stack.frames[globalIndex]

def innermost (stack : ScopeStack) : NameSet :=
  have bound := stack.depth_lt
  stack.frames[stack.depth]

/-- The scopes of a method's body: its own names come on top of `this` and of the global names declared so
far. The names around the method are out of its sight. -/
def forMethod (stack : ScopeStack) : ScopeStack :=
  ⟨#[[], stack.globals, ["this"]], globalIndex + 1, by decide, by simp [globalIndex]⟩

def begin (stack : ScopeStack) : ScopeStack :=
  if room : stack.depth + 1 < stack.frames.size then
    ⟨stack.frames.set (stack.depth + 1) [] room, stack.depth + 1, by omega, by simpa using room⟩
  else
    ⟨stack.frames.push [], stack.depth + 1, by omega, by
      have := stack.depth_lt
      simp only [Array.size_push]
      omega⟩

/-- The global scope never ends. -/
def finish (stack : ScopeStack) : ScopeStack :=
  if inner : globalIndex < stack.depth then
    ⟨stack.frames, stack.depth - 1, by
      simp only [globalIndex] at inner
      omega, by
      have := stack.depth_lt
      omega⟩
  else stack

def declare? (stack : ScopeStack) (name : String) : Option ScopeStack :=
  if name ∈ stack.innermost then none
  else some ⟨stack.frames.set stack.depth (name :: stack.innermost) stack.depth_lt, stack.depth,
    stack.one_le_depth, by simpa using stack.depth_lt⟩

/-- How many scopes lie between the innermost one and the nearest that has `name`. A name that none of them
has counts as a builtin. -/
def resolve (stack : ScopeStack) (name : String) : Nat :=
  let visible := (stack.frames.toList.take (stack.depth + 1)).reverse
  (visible.findIdx? (name ∈ ·)).getD (stack.depth - builtinsIndex)

end ScopeStack

end HookScript
