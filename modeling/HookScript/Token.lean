/-!
Tokens of a script. A kind with one spelling carries it; the others stand for a class of lexemes.
-/

namespace HookScript

inductive TokenKind where
  | leftParen | rightParen | leftBrace | rightBrace | leftBracket | rightBracket
  | comma | dot | colon | semicolon | minus | plus | slash | star
  | bang | bangEqual | equal | equalEqual | greater | greaterEqual | less | lessEqual
  | and | or
  | identifier | string | integer | float | boolean
  | ifWord | elseWord | whileWord | returnWord | breakWord | continueWord | functionWord
  | varWord | nilWord | importWord | asWord | exportWord | objectWord
  | illegal | endOfFile
  deriving DecidableEq, Repr

namespace TokenKind

/-- The one spelling of a kind, empty for a class of lexemes and for the end of the file. -/
def spelling : TokenKind → String
  | leftParen => "("
  | rightParen => ")"
  | leftBrace => "\x7b"
  | rightBrace => "\x7d"
  | leftBracket => "["
  | rightBracket => "]"
  | comma => ","
  | dot => "."
  | colon => ":"
  | semicolon => ";"
  | minus => "-"
  | plus => "+"
  | slash => "/"
  | star => "*"
  | bang => "!"
  | bangEqual => "!="
  | equal => "="
  | equalEqual => "=="
  | greater => ">"
  | greaterEqual => ">="
  | less => "<"
  | lessEqual => "<="
  | and => "and"
  | or => "or"
  | ifWord => "if"
  | elseWord => "else"
  | whileWord => "while"
  | returnWord => "return"
  | breakWord => "break"
  | continueWord => "continue"
  | functionWord => "function"
  | varWord => "var"
  | nilWord => "nil"
  | importWord => "import"
  | asWord => "as"
  | exportWord => "export"
  | objectWord => "Object"
  | identifier | string | integer | float | boolean | illegal | endOfFile => ""

def description : TokenKind → String
  | identifier => "identifier"
  | string => "string"
  | integer => "integer"
  | float => "float"
  | boolean => "boolean"
  | illegal => "illegal"
  | endOfFile => "end of file"
  | kind => kind.spelling

def label : TokenKind → String
  | leftParen => "LeftParen"
  | rightParen => "RightParen"
  | leftBrace => "LeftBrace"
  | rightBrace => "RightBrace"
  | leftBracket => "LeftBracket"
  | rightBracket => "RightBracket"
  | comma => "Comma"
  | dot => "Dot"
  | colon => "Colon"
  | semicolon => "Semicolon"
  | minus => "Minus"
  | plus => "Plus"
  | slash => "Slash"
  | star => "Star"
  | bang => "Bang"
  | bangEqual => "BangEqual"
  | equal => "Equal"
  | equalEqual => "EqualEqual"
  | greater => "Greater"
  | greaterEqual => "GreaterEqual"
  | less => "Less"
  | lessEqual => "LessEqual"
  | and => "And"
  | or => "Or"
  | identifier => "Identifier"
  | string => "String"
  | integer => "Integer"
  | float => "Float"
  | boolean => "Boolean"
  | ifWord => "If"
  | elseWord => "Else"
  | whileWord => "While"
  | returnWord => "Return"
  | breakWord => "Break"
  | continueWord => "Continue"
  | functionWord => "Function"
  | varWord => "Var"
  | nilWord => "Nil"
  | importWord => "Import"
  | asWord => "As"
  | exportWord => "Export"
  | objectWord => "Object"
  | illegal => "Illegal"
  | endOfFile => "Eof"

/-- The kinds that are spelled as a word; `and` and `or` also have a spelling as an operator. -/
def keywords : List TokenKind :=
  [ifWord, elseWord, and, or, whileWord, returnWord, breakWord, continueWord, functionWord, varWord,
    nilWord, importWord, asWord, exportWord, objectWord]

def ofKeyword? (word : String) : Option TokenKind :=
  keywords.find? (·.spelling = word)

end TokenKind

structure Token where
  kind : TokenKind
  lexeme : String
  deriving DecidableEq, Repr

namespace Token

def ofKind (kind : TokenKind) : Token := ⟨kind, kind.spelling⟩

/-- A word is a truth value or a keyword only as a whole. -/
def ofWord (word : String) : Token :=
  if word = "true" ∨ word = "false" then ⟨.boolean, word⟩
  else match TokenKind.ofKeyword? word with
    | some kind => .ofKind kind
    | none => ⟨.identifier, word⟩

def text (token : Token) : String :=
  if token.kind = .endOfFile then TokenKind.endOfFile.description else token.lexeme

end Token

end HookScript
