import HookScript.Command.Arguments
import HookScript.Command.FileTree
import HookScript.Exchange

/-!
What each command does: what it writes, where it writes it, and the code that it ends with.
-/

namespace HookScript

structure Outcome where
  code : Nat
  stdout : String
  stderr : String
  deriving DecidableEq, Repr

namespace Outcome

def success (stdout : String) : Outcome := ⟨0, stdout, ""⟩

def failure (stdout message : String) : Outcome := ⟨1, stdout, message ++ "\n"⟩

def usage : Outcome := ⟨2, "", ""⟩

def ofFileError (stdout : String) (error : FileError) : Outcome := failure stdout (Fault.file error).message

def ofHost {α : Type} (result : EStateM.Result HostError Machine α) (rest : α → Machine → String) :
    Outcome :=
  match result with
  | .ok a m => success (m.out ++ rest a m)
  | .error e m => failure m.out e.message

end Outcome

namespace Command

def top : Path := .inside []

/-- A file as a lexer reads it. A directory can be opened but not read. -/
def openLexer (world : World) (path : String) : Except FileError Lexer := do
  match ← world.openFile (.ofText path) with
  | .ok bytes => return .ofBytes bytes
  | .error error => return .ofDeliveries [.failed ⟨error.message⟩]

def padLeft (width : Nat) (text : String) : String :=
  String.ofList (List.replicate (width - text.length) ' ') ++ text

def padRight (width : Nat) (text : String) : String :=
  text ++ String.ofList (List.replicate (width - text.length) ' ')

/-- A line for a token. The line number is shown where it changes. -/
def tokenLine (token : Token) (line before : Nat) : String :=
  (if line = before then "   | " else padLeft 4 (toString line) ++ " ")
    ++ padRight 12 token.kind.label ++ " " ++ token.lexeme ++ "\n"

def listTokens (last : Nat) : List Scan → Nat → String × Option ReadFailure
  | [], before => (tokenLine (.ofKind .endOfFile) last before, none)
  | scan :: rest, before =>
    match scan.result with
    | .error failure => ("", some failure)
    | .ok token =>
      let line := tokenLine token scan.line before
      if token.kind = .endOfFile then (line, none)
      else
        let (lines, failure) := listTokens scan.line rest scan.line
        (line ++ lines, failure)

def runTokens (world : World) (path : String) : Outcome :=
  match openLexer world path with
  | .error error => .ofFileError "" error
  | .ok lexer =>
    match listTokens lexer.line lexer.scans 0 with
    | (lines, none) => .success lines
    | (lines, some failure) => .failure lines (ParseError.report [.unreadable failure])

def runAst (world : World) (path : String) : Outcome :=
  match openLexer world path with
  | .error error => .ofFileError "" error
  | .ok lexer =>
    match Program.ofLexer lexer with
    | .ok program => .success program.text
    | .error errors => .failure "" (ParseError.report errors)

def runFile (world : World) (fuel : Nat) (path : String) : Outcome :=
  .ofHost (Host.runFile world fuel path (.start (some top))) fun _ _ => ""

def bodyOf (world : World) : Option String → Except FileError (List UInt8)
  | none => .ok []
  | some path => world.read (.ofText path)

/-- With a status the script runs on a response, without one on a request. -/
def exchangeOf (world : World) (options : HookOptions) : Except FileError Exchange := do
  let headers := options.headers.foldl (fun headers header => Headers.add headers header.1 header.2) .empty
  match options.status with
  | none => return .before ⟨options.method, options.url, headers⟩
  | some status => return .after ⟨status, toString status, headers, ← bodyOf world options.body⟩

def exportLines (exports : Table Value) (m : Machine) : String :=
  String.join (exports.entries.map fun (name, value) => name ++ " = " ++ m.heap.text value ++ "\n")

def prepareHook (world : World) (options : HookOptions) : Except FileError (String × Path × Exchange) := do
  let path := .ofText options.file
  let script ← world.readText path
  return (script, path.parent, ← exchangeOf world options)

def runHook (world : World) (fuel : Nat) (options : HookOptions) : Outcome :=
  match prepareHook world options with
  | .error error => .ofFileError "" error
  | .ok (script, directory, exchange) =>
    .ofHost (exchange.hook world fuel script (.start (some directory))) exportLines

def greeting : String :=
  "Welcome to the Squeak REPL!\nEOF to exit. (Ctrl+D on *nix, Ctrl+Z on Windows)\n"

def lines : List UInt8 → List (List UInt8)
  | [] => []
  | b :: rest =>
    if b = 0x0A then [b] :: lines rest
    else
      match lines rest with
      | first :: others => (b :: first) :: others
      | [] => [[b]]

def invitation : String := "> "

/-- Runs one line of a dialogue. An error is shown and does not end the dialogue, unless the line is no text. -/
def respond (world : World) (fuel : Nat) (line : List UInt8) (m : Machine) : Except FileError Machine :=
  match Text.Utf8.decode? line with
  | none => .error .notText
  | some text =>
    match Host.runText world fuel (Text.trimBlanks text) m with
    | .ok () m => .ok { m with out := m.out ++ "\n" }
    | .error e m => .ok { m with out := m.out ++ "Error: " ++ e.message ++ "\n\n" }

/-- Runs one line after another on the same machine. -/
def converse (world : World) (fuel : Nat) : List (List UInt8) → Machine → Outcome
  | [], m => .success (m.out ++ invitation)
  | line :: rest, m =>
    let m := { m with out := m.out ++ invitation }
    match respond world fuel line m with
    | .error error => .ofFileError m.out error
    | .ok m => converse world fuel rest m

def runRepl (world : World) (fuel : Nat) (input : List UInt8) : Outcome :=
  converse world fuel (lines input) { Machine.start (some top) with out := greeting }

/-- The outcome of a command over the files below the directory it is given in. -/
def outcome (world : World) (fuel : Nat) (input : List UInt8) : Command → Outcome
  | run file => runFile world fuel file
  | repl => runRepl world fuel input
  | tokens file => runTokens world file
  | ast file => runAst world file
  | hook options => runHook world fuel options

end Command

def runArguments (world : World) (fuel : Nat) (arguments : List String) (input : List UInt8) : Outcome :=
  match Command.ofArguments? arguments with
  | some command => command.outcome world fuel input
  | none => .usage

end HookScript
