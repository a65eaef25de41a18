import HookScript.Delivery
import HookScript.Program.Listing
import HookScript.Token

/-!
What can be wrong with the text of a program, and the wording of it.
-/

namespace HookScript

inductive SyntaxError where
  | expected (kinds : List TokenKind) (found : Token)
  | expectedSeparator (close : TokenKind) (found : Token)
  | unexpected (found : Token)
  | integerRange (lexeme : String)
  | assignmentTarget
  | importSource (source : Expr)
  | unnamedExport (value : Expr)
  | unclosedBlock
  | redeclared (name : String)

def redeclaredMessage (name : String) : String := name ++ " is already declared in this scope"

namespace SyntaxError

def message : SyntaxError → String
  | expected kinds found =>
    "expected " ++ " or ".intercalate (kinds.map (·.description)) ++ " but found " ++ found.text
  | expectedSeparator close found => "expected , or " ++ close.description ++ " but found " ++ found.text
  | unexpected found => "unexpected token: " ++ found.text
  | integerRange lexeme => "invalid integer literal: " ++ lexeme
  | assignmentTarget => "invalid left hand side of assignment"
  | importSource source => source.text ++ " is not a valid import source"
  | unnamedExport value => value.text ++ " cannot be exported without a name"
  | unclosedBlock => "expected \x7d before end of file"
  | redeclared name => redeclaredMessage name

end SyntaxError

/-- `outOfSteps` stands for a text that was too long for the number of steps allowed. -/
inductive ParseError where
  | malformed (line : Nat) (error : SyntaxError)
  | unreadable (failure : ReadFailure)
  | outOfSteps

namespace ParseError

def line? : ParseError → Option Nat
  | malformed line _ => some line
  | unreadable _ => none
  | outOfSteps => none

def cause : ParseError → String
  | malformed _ error => error.message
  | unreadable failure => failure.message
  | outOfSteps => "out of steps"

def message (error : ParseError) : String :=
  match error.line? with
  | some line => "syntax error on line " ++ toString line ++ ": " ++ error.cause
  | none => error.cause

/-- The report for all errors of a file: their number and a line for each. -/
def report (errors : List ParseError) : String :=
  "Found " ++ toString errors.length ++ " errors during parsing\n"
    ++ String.join (errors.map fun error => error.message ++ "\n")

end ParseError

end HookScript
