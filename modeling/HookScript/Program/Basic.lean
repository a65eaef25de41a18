/-!
Programs. A name is stored with its level: how many scopes out from where it stands it is looked for first.
-/

namespace HookScript

inductive Literal where
  | integer (value : Nat)
  | float (value : Float)
  | string (value : String)
  | boolean (value : Bool)
  | nil

inductive UnaryOp where
  | negate | not
  deriving DecidableEq, Repr

inductive BinaryOp where
  | equal | notEqual | less | lessEqual | greater | greaterEqual | plus | minus | times | divide
  deriving DecidableEq, Repr

inductive LogicalOp where
  | and | or
  deriving DecidableEq, Repr

mutual

inductive Expr where
  | lookup (name : String) (level : Nat)
  | assign (name : String) (level : Nat) (value : Expr)
  | item (target index : Expr)
  | setItem (target index value : Expr)
  | property (target : Expr) (name : String)
  | setProperty (target : Expr) (name : String) (value : Expr)
  | literal (literal : Literal)
  | group (inner : Expr)
  | unary (op : UnaryOp) (operand : Expr)
  | binary (left : Expr) (op : BinaryOp) (right : Expr)
  | logical (left : Expr) (op : LogicalOp) (right : Expr)
  | call (callee : Expr) (args : List Expr)
  | list (items : List Expr)
  | object (properties : List (String × Expr))
  | method (params : List String) (body : List Stmt)

inductive Stmt where
  | expression (value : Expr)
  | declare (name : String) (initial : Option Expr)
  | block (body : List Stmt)
  | branch (condition : Expr) (yes : Stmt) (no : Option Stmt)
  | loop (condition : Expr) (body : List Stmt)
  | function (name : String) (params : List String) (body : List Stmt)
  | giveBack (value : Option Expr)
  | leaveLoop
  | nextRound
  | importFrom (source : Expr)
  | exportAs (name : String) (value : Expr)
  | empty

end

instance : Inhabited Expr := ⟨.literal .nil⟩

instance : Inhabited Stmt := ⟨.empty⟩

abbrev Program := List Stmt

end HookScript
