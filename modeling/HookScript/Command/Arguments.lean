import HookScript.Text.Blank

/-!
The command line. A command has exactly the arguments that it needs; an option stands before or after them,
with its value after `=` or in the next argument, and comes up at most once unless it may be repeated.
-/

namespace HookScript

structure HookOptions where
  file : String
  method : String
  url : String
  /-- Names and values in the order in which they were given. -/
  headers : List (String × String)
  status : Option Nat
  body : Option String
  deriving DecidableEq, Repr

inductive Command where
  | run (file : String)
  | repl
  | tokens (file : String)
  | ast (file : String)
  | hook (options : HookOptions)
  deriving DecidableEq, Repr

namespace Command

structure Given where
  file : Option String
  method : Option String
  url : Option String
  headers : List (String × String)
  status : Option Nat
  body : Option String

namespace Given

def none : Given := ⟨.none, .none, .none, [], .none, .none⟩

end Given

/-- A name and a value around the first `=`, without blanks at their ends. -/
def header? (text : String) : Option (String × String) :=
  let name := text.toList.takeWhile (· ≠ '=')
  match text.toList.dropWhile (· ≠ '=') with
  | _ :: value => some (Text.trimBlanks (.ofList name), Text.trimBlanks (.ofList value))
  | [] => .none

def maxStatus : Nat := 65535

/-- A whole number that fits sixteen bits; a plus sign may stand before it, and a minus sign before a zero. -/
def status? (text : String) : Option Nat :=
  let number (digits : List Char) : Option Nat :=
    if digits = [] ∨ ¬ digits.all Char.isDigit then .none
    else some (digits.foldl (fun n c => n * 10 + (c.toNat - '0'.toNat)) 0)
  match text.toList with
  | '+' :: digits => (number digits).filter (· ≤ maxStatus)
  | '-' :: digits => (number digits).filter (· = 0)
  | digits => (number digits).filter (· ≤ maxStatus)

def path? (text : String) : Option String := if text = "" then .none else some text

def once {α : Type} (before : Option α) (value : Option α) : Option (Option α) :=
  match before, value with
  | .none, some value => some (some value)
  | _, _ => .none

def setOption? (given : Given) (name value : String) : Option Given :=
  match name with
  | "--method" => (once given.method (some value)).map fun method => { given with method }
  | "--url" => (once given.url (some value)).map fun url => { given with url }
  | "--header" => (header? value).map fun header => { given with headers := given.headers ++ [header] }
  | "--status" => (once given.status (status? value)).map fun status => { given with status }
  | "--body" => (once given.body (path? value)).map fun body => { given with body }
  | _ => .none

def setFile? (given : Given) (value : String) : Option Given :=
  (once given.file (path? value)).map fun file => { given with file }

/-- Whether an argument asks to be taken for an option. A single dash does not. -/
def isOption (argument : String) : Bool := argument.toList.head? = some '-' && argument ≠ "-"

def splitOption (argument : String) : String × Option String :=
  let name := String.ofList (argument.toList.takeWhile (· ≠ '='))
  match argument.toList.dropWhile (· ≠ '=') with
  | _ :: value => (name, some (.ofList value))
  | [] => (name, .none)

def filesOnly? (given : Given) : List String → Option Given
  | [] => some given
  | argument :: rest => do filesOnly? (← setFile? given argument) rest

def readArguments? (hasOptions : Bool) : Given → List String → Option Given
  | given, [] => some given
  | given, argument :: rest =>
    if argument = "--" then filesOnly? given rest
    else if isOption argument then
      if hasOptions then
        match splitOption argument, rest with
        | (name, some value), rest => do readArguments? hasOptions (← setOption? given name value) rest
        | (name, .none), value :: rest =>
          if isOption value then .none
          else do readArguments? hasOptions (← setOption? given name value) rest
        | (_, .none), [] => .none
      else .none
    else do readArguments? hasOptions (← setFile? given argument) rest
termination_by _ arguments => arguments.length

def file? (arguments : List String) : Option String := do (← readArguments? false .none arguments).file

def hookOptions? (arguments : List String) : Option HookOptions := do
  let given ← readArguments? true .none arguments
  let file ← given.file
  return ⟨file, given.method.getD "GET", given.url.getD "", given.headers, given.status, given.body⟩

/-- The command that the arguments ask for, if they are right. Without any it is the dialogue. -/
def ofArguments? : List String → Option Command
  | [] => some repl
  | ["--"] => some repl
  | "run" :: rest => (file? rest).map run
  | "tokens" :: rest => (file? rest).map tokens
  | "ast" :: rest => (file? rest).map ast
  | "repl" :: rest => if rest = [] ∨ rest = ["--"] then some repl else .none
  | "hook" :: rest => (hookOptions? rest).map hook
  | _ => .none

end Command

end HookScript
