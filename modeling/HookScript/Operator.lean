import HookScript.Fault
import HookScript.Program.Basic

/-!
Operators on values. Both operands are there before the operator looks at either.
-/

namespace HookScript

namespace Value

def asNumber : Value → Except Fault Float
  | number x => .ok x
  | other => .error (.notANumber other.type)

/-- Text is added to text and numbers to numbers; what stands on the left decides. -/
def plus : Value → Value → Except Fault Value
  | string s, string t => .ok (string (s ++ t))
  | string _, other => .error (.notAString other.type)
  | number x, other => do
    let y ← other.asNumber
    return number (x + y)
  | other, _ => .error (.notAddable other.type)

def arithmetic (f : Float → Float → Float) (left right : Value) : Except Fault Value := do
  let x ← left.asNumber
  let y ← right.asNumber
  return number (f x y)

def divide (left right : Value) : Except Fault Value := do
  let x ← left.asNumber
  let y ← right.asNumber
  if y == 0 then .error .divisionByZero else return number (x / y)

def isLess (left right : Value) : Except Fault Bool := do
  let x ← left.asNumber
  let y ← right.asNumber
  return decide (x < y)

/-- The position in a list that a number stands for: its whole part, with every negative number out of range.
Whatever is too large for a word counts as the largest word. -/
def position? (x : Float) : Option Nat := if x < 0 then none else some x.toUInt64.toNat

end Value

namespace BinaryOp

def apply (op : BinaryOp) (left right : Value) : Except Fault Value :=
  match op with
  | plus => left.plus right
  | minus => left.arithmetic (· - ·) right
  | times => left.arithmetic (· * ·) right
  | divide => left.divide right
  | less => do return .boolean (← left.isLess right)
  | greater => do
    let x ← left.asNumber
    let y ← right.asNumber
    return .boolean (decide (y < x))
  | lessEqual => do return .boolean ((← left.isLess right) || left.equals right)
  | greaterEqual => do
    let x ← left.asNumber
    let y ← right.asNumber
    return .boolean (decide (y < x) || left.equals right)
  | equal => .ok (.boolean (left.equals right))
  | notEqual => .ok (.boolean (!left.equals right))

end BinaryOp

namespace UnaryOp

/-- A number is negated by a product with minus one. -/
def apply (op : UnaryOp) (operand : Value) : Except Fault Value :=
  match op with
  | not => .ok (.boolean (!operand.isTruthy))
  | negate => operand.arithmetic (· * ·) (.number (-1))

end UnaryOp

end HookScript
