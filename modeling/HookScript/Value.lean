/-!
Values of scripts. Lists, objects, unbound methods and callables are known by an identity; what they hold is
kept in the heap.
-/

namespace HookScript

structure FrameId where
  index : Nat
  deriving DecidableEq, Repr

structure ListId where
  index : Nat
  deriving DecidableEq, Repr

structure ObjectId where
  index : Nat
  deriving DecidableEq, Repr

structure MethodId where
  index : Nat
  deriving DecidableEq, Repr

structure CallableId where
  index : Nat
  deriving DecidableEq, Repr

inductive Value where
  | nil
  | number (x : Float)
  | string (s : String)
  | boolean (b : Bool)
  | list (id : ListId)
  | object (id : ObjectId)
  | method (id : MethodId)
  | callable (id : CallableId)

instance : Inhabited Value := ⟨.nil⟩

inductive ValueType where
  | nil | number | string | boolean | list | object | method | function
  deriving DecidableEq, Repr

namespace ValueType

def name : ValueType → String
  | nil => "nil"
  | number => "number"
  | string => "string"
  | boolean => "boolean"
  | list => "list"
  | object => "object"
  | method => "method"
  | function => "function"

end ValueType

namespace Value

def type : Value → ValueType
  | nil => .nil
  | number _ => .number
  | string _ => .string
  | boolean _ => .boolean
  | list _ => .list
  | object _ => .object
  | method _ => .method
  | callable _ => .function

/-- Only `false` and `nil` do not count as true. -/
def isTruthy : Value → Bool
  | nil => false
  | boolean b => b
  | _ => true

/-- Equality in scripts: by content for nil, numbers, strings and truth values, by identity for the rest. -/
def equals : Value → Value → Bool
  | nil, nil => true
  | number x, number y => x == y
  | string s, string t => s = t
  | boolean a, boolean b => a = b
  | list a, list b => a = b
  | object a, object b => a = b
  | method a, method b => a = b
  | callable a, callable b => a = b
  | _, _ => false

end Value

end HookScript
