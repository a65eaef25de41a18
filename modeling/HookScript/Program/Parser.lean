import HookScript.Lookahead
import HookScript.Program.Error
import HookScript.ScopeStack

/-!
Programs out of tokens. The level of every name is settled the moment the name is read, from the scopes as
they stand then. A malformed statement is given up at its end, and reading goes on after it.
-/

namespace HookScript

structure Parser where
  ahead : Lookahead ScanList
  scopes : ScopeStack
  /-- Steps enough for any statement of the text. -/
  steps : Nat

abbrev Parsing := EStateM ParseError Parser

namespace Parser

/-- Steps enough for so many tokens: from one token to the next at most sixteen rules are entered. -/
def stepsFor (tokens : Nat) : Nat := 16 * (tokens + 3)

def ofLexer (lexer : Lexer) : Parser :=
  let scans := ScanList.ofLexer lexer
  ⟨.ofSource scans, .empty, stepsFor scans.rest.length⟩

def fail {α : Type} (error : SyntaxError) : Parsing α := fun p =>
  .error (.malformed p.ahead.line error) p

def outOfSteps {α : Type} : Parsing α := fun p => .error .outOfSteps p

def peekKind : Parsing TokenKind := fun p =>
  match p.ahead.peek with
  | (.ok token, ahead) => .ok token.kind { p with ahead }
  | (.error failure, ahead) => .error (.unreadable failure) { p with ahead }

def take : Parsing Token := fun p =>
  match p.ahead.next with
  | (.ok token, ahead) => .ok token { p with ahead }
  | (.error failure, ahead) => .error (.unreadable failure) { p with ahead }

def discard : Parsing Unit := modify fun p => { p with ahead := p.ahead.discard }

def expect (kinds : List TokenKind) : Parsing Token := do
  let token ← take
  if token.kind ∈ kinds then return token else fail (.expected kinds token)

def identifier : Parsing String := do
  let token ← expect [.identifier]
  return token.lexeme

def declare (name : String) : Parsing Unit := fun p =>
  match p.scopes.declare? name with
  | some scopes => .ok () { p with scopes }
  | none => fail (.redeclared name) p

def declareAll : List String → Parsing Unit
  | [] => return ()
  | name :: rest => do
    declare name
    declareAll rest

def resolve (name : String) : Parsing Nat := fun p => .ok (p.scopes.resolve name) p

/-- Runs `act` in a scope of its own, which ends whether or not `act` succeeds. -/
def inScope {α : Type} (act : Parsing α) : Parsing α := fun p =>
  match act { p with scopes := p.scopes.begin } with
  | .ok a p' => .ok a { p' with scopes := p'.scopes.finish }
  | .error error p' => .error error { p' with scopes := p'.scopes.finish }

/-- Runs `act` with the scopes of a method's body and brings back the scopes around it. -/
def inMethod {α : Type} (act : Parsing α) : Parsing α := fun p =>
  match act { p with scopes := p.scopes.forMethod } with
  | .ok a p' => .ok a { p' with scopes := p.scopes }
  | .error error p' => .error error { p' with scopes := p.scopes }

def decimalValue (digits : List Char) : Nat :=
  digits.foldl (fun n c => n * 10 + (c.toNat - '0'.toNat)) 0

/-- The least number that a signed word has no room for. -/
def integerLimit : Nat := 0x8000000000000000

def floatValue (lexeme : String) : Float :=
  let whole := lexeme.toList.takeWhile (· ≠ '.')
  let fraction := (lexeme.toList.dropWhile (· ≠ '.')).drop 1
  Float.ofScientific (decimalValue (whole ++ fraction)) true fraction.length

inductive Tier where
  | logical | equality | comparison | sum | product
  deriving DecidableEq, Repr

def Tier.tighter? : Tier → Option Tier
  | logical => some equality
  | equality => some comparison
  | comparison => some sum
  | sum => some product
  | product => none

def Tier.combine? : Tier → TokenKind → Option (Expr → Expr → Expr)
  | logical, .and => some (.logical · .and ·)
  | logical, .or => some (.logical · .or ·)
  | equality, .equalEqual => some (.binary · .equal ·)
  | equality, .bangEqual => some (.binary · .notEqual ·)
  | comparison, .less => some (.binary · .less ·)
  | comparison, .lessEqual => some (.binary · .lessEqual ·)
  | comparison, .greater => some (.binary · .greater ·)
  | comparison, .greaterEqual => some (.binary · .greaterEqual ·)
  | sum, .plus => some (.binary · .plus ·)
  | sum, .minus => some (.binary · .minus ·)
  | product, .star => some (.binary · .times ·)
  | product, .slash => some (.binary · .divide ·)
  | _, _ => none

/-- Only a name, a property and an item can be assigned to. -/
def assignmentTo? : Expr → Option (Expr → Expr)
  | .lookup name level => some (.assign name level)
  | .property target name => some (.setProperty target name)
  | .item target index => some (.setItem target index)
  | _ => none

def isImportSource : Expr → Bool
  | .lookup _ _ => true
  | .literal (.string _) => true
  | _ => false

def parameterNames : Nat → Parsing (List String)
  | 0 => outOfSteps
  | fuel + 1 => do
    let name ← identifier
    let token ← expect [.comma, .rightParen]
    if token.kind = .rightParen then return [name]
    else return name :: (← parameterNames fuel)

def parameters (fuel : Nat) : Parsing (List String) := do
  let _ ← expect [.leftParen]
  if (← peekKind) = .rightParen then
    discard
    return []
  else parameterNames fuel

mutual

def declaration : Nat → Parsing Stmt
  | 0 => outOfSteps
  | fuel + 1 => do
    if (← peekKind) = .varWord then variableDeclaration fuel else statement fuel

/-- The name is in scope from here on, in its own initial value too. -/
def variableDeclaration : Nat → Parsing Stmt
  | 0 => outOfSteps
  | fuel + 1 => do
    let _ ← expect [.varWord]
    let name ← identifier
    declare name
    if (← peekKind) = .semicolon then
      discard
      return .declare name none
    else
      let _ ← expect [.equal]
      let initial ← chain fuel .logical
      let _ ← expect [.semicolon]
      return .declare name (some initial)

def statement : Nat → Parsing Stmt
  | 0 => outOfSteps
  | fuel + 1 => do
    match ← peekKind with
    | .leftBrace =>
      let body ← inScope (block fuel)
      return .block body
    | .ifWord => branch fuel
    | .whileWord =>
      let _ ← expect [.whileWord]
      let condition ← chain fuel .logical
      let body ← inScope (block fuel)
      return .loop condition body
    | .semicolon =>
      discard
      return .empty
    | .functionWord => function fuel
    | .returnWord => giveBack fuel
    | .breakWord =>
      discard
      let _ ← expect [.semicolon]
      return .leaveLoop
    | .continueWord =>
      discard
      let _ ← expect [.semicolon]
      return .nextRound
    | .importWord => importFrom fuel
    | .exportWord => exportAs fuel
    | _ =>
      let value ← assignment fuel
      let _ ← expect [.semicolon]
      return .expression value

/-- The name goes into the scope around the function, so that the body can refer to it; the parameters share
a scope with the body. -/
def function : Nat → Parsing Stmt
  | 0 => outOfSteps
  | fuel + 1 => do
    let _ ← expect [.functionWord]
    let name ← identifier
    declare name
    inScope do
      let params ← parameters fuel
      declareAll params
      let body ← block fuel
      return .function name params body

def giveBack : Nat → Parsing Stmt
  | 0 => outOfSteps
  | fuel + 1 => do
    let _ ← expect [.returnWord]
    if (← peekKind) = .semicolon then
      discard
      return .giveBack none
    else
      let value ← chain fuel .logical
      let _ ← expect [.semicolon]
      return .giveBack (some value)

def importFrom : Nat → Parsing Stmt
  | 0 => outOfSteps
  | fuel + 1 => do
    let _ ← expect [.importWord]
    let source ← primary fuel
    let _ ← expect [.semicolon]
    if isImportSource source then return .importFrom source else fail (.importSource source)

/-- A bare variable is exported under its own name. -/
def exportAs : Nat → Parsing Stmt
  | 0 => outOfSteps
  | fuel + 1 => do
    let _ ← expect [.exportWord]
    let value ← assignment fuel
    let token ← expect [.semicolon, .asWord]
    if token.kind = .semicolon then
      match value with
      | .lookup name level => return .exportAs name (.lookup name level)
      | other => fail (.unnamedExport other)
    else
      let name ← identifier
      let _ ← expect [.semicolon]
      return .exportAs name value

def branch : Nat → Parsing Stmt
  | 0 => outOfSteps
  | fuel + 1 => do
    let _ ← expect [.ifWord]
    let condition ← chain fuel .logical
    let yes ← statement fuel
    if (← peekKind) = .elseWord then
      discard
      let no ← statement fuel
      return .branch condition yes (some no)
    else return .branch condition yes none

/-- Statements in braces. Which scope they belong to is up to the caller. -/
def block : Nat → Parsing (List Stmt)
  | 0 => outOfSteps
  | fuel + 1 => do
    let _ ← expect [.leftBrace]
    blockRest fuel

def blockRest : Nat → Parsing (List Stmt)
  | 0 => outOfSteps
  | fuel + 1 => do
    match ← peekKind with
    | .rightBrace =>
      discard
      return []
    | .endOfFile => fail .unclosedBlock
    | _ =>
      let first ← declaration fuel
      return first :: (← blockRest fuel)

def assignment : Nat → Parsing Expr
  | 0 => outOfSteps
  | fuel + 1 => do
    let target ← chain fuel .logical
    if (← peekKind) = .equal then
      discard
      match assignmentTo? target with
      | some assign => return assign (← assignment fuel)
      | none => fail .assignmentTarget
    else return target

def chain : Nat → Tier → Parsing Expr
  | 0, _ => outOfSteps
  | fuel + 1, tier => do
    let first ← operand fuel tier
    chainRest fuel tier first

def chainRest : Nat → Tier → Expr → Parsing Expr
  | 0, _, _ => outOfSteps
  | fuel + 1, tier, left => do
    match tier.combine? (← peekKind) with
    | some combine =>
      discard
      let right ← operand fuel tier
      chainRest fuel tier (combine left right)
    | none => return left

def operand : Nat → Tier → Parsing Expr
  | 0, _ => outOfSteps
  | fuel + 1, tier =>
    match tier.tighter? with
    | some tighter => chain fuel tighter
    | none => unary fuel

def unary : Nat → Parsing Expr
  | 0 => outOfSteps
  | fuel + 1 => do
    match ← peekKind with
    | .bang =>
      discard
      return .unary .not (← unary fuel)
    | .minus =>
      discard
      return .unary .negate (← unary fuel)
    | _ =>
      let first ← primary fuel
      accessRest fuel first

def accessRest : Nat → Expr → Parsing Expr
  | 0, _ => outOfSteps
  | fuel + 1, target => do
    match ← peekKind with
    | .leftParen =>
      discard
      let args ← elements fuel .rightParen
      accessRest fuel (.call target args)
    | .leftBracket =>
      discard
      let index ← chain fuel .logical
      let _ ← expect [.rightBracket]
      accessRest fuel (.item target index)
    | .dot =>
      discard
      let name ← expect [.identifier, .string]
      accessRest fuel (.property target name.lexeme)
    | _ => return target

/-- Expressions between commas up to and including `close`. A comma may come before `close`. -/
def elements : Nat → TokenKind → Parsing (List Expr)
  | 0, _ => outOfSteps
  | fuel + 1, close => do
    if (← peekKind) = close then
      discard
      return []
    else
      let first ← chain fuel .logical
      let after ← peekKind
      if after = .comma then discard
      else if after ≠ close then fail (.expectedSeparator close (← take))
      return first :: (← elements fuel close)

def primary : Nat → Parsing Expr
  | 0 => outOfSteps
  | fuel + 1 => do
    let token ← take
    match token.kind with
    | .identifier => return .lookup token.lexeme (← resolve token.lexeme)
    | .string => return .literal (.string token.lexeme)
    | .integer =>
      let value := decimalValue token.lexeme.toList
      if value < integerLimit then return .literal (.integer value) else fail (.integerRange token.lexeme)
    | .float => return .literal (.float (floatValue token.lexeme))
    | .boolean => return .literal (.boolean (token.lexeme = "true"))
    | .nilWord => return .literal .nil
    | .leftParen =>
      let inner ← chain fuel .logical
      let _ ← expect [.rightParen]
      return .group inner
    | .leftBracket => return .list (← elements fuel .rightBracket)
    | .objectWord =>
      let _ ← expect [.leftBrace]
      return .object (← properties fuel)
    | .functionWord =>
      let params ← parameters fuel
      let body ← inMethod (inScope do
        declareAll params
        block fuel)
      return .method params body
    | _ => fail (.unexpected token)

def properties : Nat → Parsing (List (String × Expr))
  | 0 => outOfSteps
  | fuel + 1 => do
    if (← peekKind) = .rightBrace then
      discard
      return []
    else
      let key ← expect [.identifier, .string]
      let _ ← expect [.colon]
      let value ← chain fuel .logical
      let token ← expect [.comma, .rightBrace]
      if token.kind = .rightBrace then return [(key.lexeme, value)]
      else return (key.lexeme, value) :: (← properties fuel)

end

/-- Passes over the rest of a malformed statement, to the end of which it takes the next semicolon, closing
brace or end of the file. -/
def synchronize : Nat → Parsing Unit
  | 0 => outOfSteps
  | fuel + 1 => do
    match (← take).kind with
    | .endOfFile | .semicolon | .rightBrace => return ()
    | _ => synchronize fuel

/-- The next statement of the file, or nothing at its end. A failure to read on after an error takes the place
of the error. -/
def nextStatement : Parsing (Option Stmt) := do
  if (← peekKind) = .endOfFile then return none
  else fun p =>
    match declaration p.steps p with
    | .ok stmt p' => .ok (some stmt) p'
    | .error error p' =>
      match synchronize p'.steps p' with
      | .ok () p'' => .error error p''
      | .error failure p'' => .error failure p''

/-- Every statement left, or every error. Nothing is read after a failure of the reader. -/
def collect : Nat → List Stmt → List ParseError → Parser → Except (List ParseError) Program
  | 0, _, errors, _ => .error (errors.reverse ++ [.outOfSteps])
  | fuel + 1, stmts, errors, p =>
    match nextStatement p with
    | .ok (some stmt) p' => collect fuel (stmt :: stmts) errors p'
    | .ok none _ => if errors.isEmpty then .ok stmts.reverse else .error errors.reverse
    | .error (.malformed line error) p' => collect fuel stmts (.malformed line error :: errors) p'
    | .error failure _ => .error (failure :: errors).reverse

def program (p : Parser) : Except (List ParseError) Program := collect p.steps [] [] p

end Parser

namespace Program

def ofLexer (lexer : Lexer) : Except (List ParseError) Program := (Parser.ofLexer lexer).program

def ofText (text : String) : Except (List ParseError) Program := ofLexer (.ofText text)

end Program

end HookScript
