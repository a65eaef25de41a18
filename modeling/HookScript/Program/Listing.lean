import HookScript.Number.Numeral
import HookScript.Program.Basic

/-!
Program listings. Operators stand before their operands in parentheses, and a name that is looked for
further out shows its level.
-/

namespace HookScript

namespace UnaryOp

def text : UnaryOp → String
  | negate => "-"
  | not => "!"

end UnaryOp

namespace BinaryOp

def text : BinaryOp → String
  | equal => "=="
  | notEqual => "!="
  | less => "<"
  | lessEqual => "<="
  | greater => ">"
  | greaterEqual => ">="
  | plus => "+"
  | minus => "-"
  | times => "*"
  | divide => "/"

end BinaryOp

namespace LogicalOp

def text : LogicalOp → String
  | and => "and"
  | or => "or"

end LogicalOp

namespace Literal

def text : Literal → String
  | integer n => toString n
  | float x => Number.listing x
  | string s => "\"" ++ s ++ "\""
  | boolean true => "true"
  | boolean false => "false"
  | nil => "nil"

end Literal

def nameText (name : String) (level : Nat) : String :=
  if level = 0 then name else "scope[" ++ toString level ++ "]." ++ name

def commaSeparated (texts : List String) : String := ", ".intercalate texts

def bracedText (lines : List String) : String := "\x7b\n" ++ String.join lines ++ "\x7d"

mutual

def Expr.text : Expr → String
  | .lookup name level => nameText name level
  | .assign name level value => nameText name level ++ " = " ++ value.text
  | .item target index => target.text ++ "[" ++ index.text ++ "]"
  | .setItem target index value => target.text ++ "[" ++ index.text ++ "] = " ++ value.text
  | .property target name => target.text ++ "." ++ name
  | .setProperty target name value => target.text ++ "." ++ name ++ " = " ++ value.text
  | .literal literal => literal.text
  | .group inner => "(" ++ inner.text ++ ")"
  | .unary op operand => "(" ++ op.text ++ " " ++ operand.text ++ ")"
  | .binary left op right => "(" ++ op.text ++ " " ++ left.text ++ " " ++ right.text ++ ")"
  | .logical left op right => "(" ++ op.text ++ " " ++ left.text ++ " " ++ right.text ++ ")"
  | .call callee args => callee.text ++ "(" ++ commaSeparated (exprTexts args) ++ ")"
  | .list items => "[" ++ commaSeparated (exprTexts items) ++ "]"
  | .object properties => "Object \x7b" ++ commaSeparated (propertyTexts properties) ++ "\x7d"
  | .method params body => "function(" ++ commaSeparated params ++ ") " ++ bracedText (stmtLines body)

def exprTexts : List Expr → List String
  | [] => []
  | e :: rest => e.text :: exprTexts rest

def propertyTexts : List (String × Expr) → List String
  | [] => []
  | (key, value) :: rest => (key ++ ": " ++ value.text) :: propertyTexts rest

def Stmt.text : Stmt → String
  | .expression value => value.text ++ ";"
  | .declare name none => "var " ++ name ++ ";"
  | .declare name (some initial) => "var " ++ name ++ " = " ++ initial.text ++ ";"
  | .block body => bracedText (stmtLines body)
  | .branch condition yes none => "if " ++ condition.text ++ " " ++ yes.text
  | .branch condition yes (some no) => "if " ++ condition.text ++ " " ++ yes.text ++ " else " ++ no.text
  | .loop condition body => "while " ++ condition.text ++ " " ++ bracedText (stmtLines body)
  | .function name params body =>
    "function " ++ name ++ "(" ++ commaSeparated params ++ ") " ++ bracedText (stmtLines body)
  | .giveBack none => "return;"
  | .giveBack (some value) => "return " ++ value.text ++ ";"
  | .leaveLoop => "break;"
  | .nextRound => "continue;"
  | .importFrom source => "import " ++ source.text ++ ";"
  | .exportAs name value => "export " ++ value.text ++ " as " ++ name ++ ";"
  | .empty => ";"

def stmtLines : List Stmt → List String
  | [] => []
  | s :: rest => (s.text ++ "\n") :: stmtLines rest

end

def Program.text (program : Program) : String := String.join (stmtLines program)

end HookScript
