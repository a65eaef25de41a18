import HookScript.Number.Numeral
import HookScript.Program.Error
import HookScript.Value

/-!
What can stop a script, and the wording of it.
-/

namespace HookScript

inductive Jump where
  | giveBack | leaveLoop | nextRound
  deriving DecidableEq, Repr

def Jump.name : Jump → String
  | giveBack => "return"
  | leaveLoop => "break"
  | nextRound => "continue"

inductive BodyFormat where
  | json | xml
  deriving DecidableEq, Repr

def BodyFormat.name : BodyFormat → String
  | json => "json"
  | xml => "xml"

inductive DecodeError where
  | malformed (message : String)
  | unexpectedClosing
  | unexpectedEnd
  deriving DecidableEq, Repr

def DecodeError.message : DecodeError → String
  | malformed message => message
  | unexpectedClosing => "unexpected closing tag"
  | unexpectedEnd => "unexpected end of document"

structure FileError where
  message : String
  deriving DecidableEq, Repr

def FileError.notText : FileError := ⟨"stream did not contain valid UTF-8"⟩

inductive Fault where
  | notCallable (shown : String)
  | notAString (found : ValueType)
  | notAddable (found : ValueType)
  | notANumber (found : ValueType)
  | undeclared (name : String)
  | arity (shown : String) (expected given : Nat)
  | divisionByZero
  | importValue (shown : String)
  | notIndexable (found : ValueType)
  | notAnIndex (found : ValueType)
  | removalIndex
  | outOfRange (index : Float)
  | noProperties (found : ValueType)
  | noPropertyUpdate (found : ValueType)
  | methodReceiver (found : ValueType)
  | listReceiver (found : ValueType)
  | listProperty
  | assertion
  | panic (text : String)
  | stray (jump : Jump)
  | cyclicImport (path : String)
  | importErrors (path : String) (errors : List ParseError)
  | decoding (error : DecodeError)
  | file (error : FileError)

inductive FaultKind where
  | notCallable | operandType | notDeclared | illegalArgument | illegalOperation | assertion | panic | stray
  | cyclicImport | importErrors | decoding | file
  deriving DecidableEq, Repr

namespace FaultKind

def lead : FaultKind → String
  | notCallable => "not callable: "
  | operandType => "unrecognized operand type: "
  | notDeclared => "variable not declared: "
  | illegalArgument => "illegal argument: "
  | illegalOperation => "illegal operation: "
  | assertion => "assertion failed"
  | panic => "panic: "
  | stray => "unexpected unwinder: "
  | cyclicImport => "cyclic import of "
  | importErrors => "failed to parse imported file "
  | decoding => "failed to decode body: "
  | file => "IO error: "

end FaultKind

namespace Fault

def kind : Fault → FaultKind
  | notCallable _ => .notCallable
  | notAString _ | notAddable _ | notANumber _ => .operandType
  | undeclared _ => .notDeclared
  | arity _ _ _ | divisionByZero | importValue _ | notIndexable _ | notAnIndex _ | removalIndex
  | outOfRange _ | noProperties _ | noPropertyUpdate _ | methodReceiver _ => .illegalArgument
  | listReceiver _ | listProperty => .illegalOperation
  | assertion => .assertion
  | panic _ => .panic
  | stray _ => .stray
  | cyclicImport _ => .cyclicImport
  | importErrors _ _ => .importErrors
  | decoding _ => .decoding
  | file _ => .file

def cause : Fault → String
  | notCallable shown => shown
  | notAString found => found.name ++ " is not a string"
  | notAddable found => "cannot add " ++ found.name
  | notANumber found => found.name ++ " is not a number"
  | undeclared name => name
  | arity shown expected given =>
    shown ++ " accepts " ++ toString expected ++ " parameters but was provided " ++ toString given
      ++ " arguments"
  | divisionByZero => "division by zero"
  | importValue shown => shown ++ " is not a valid import value"
  | notIndexable found => found.name ++ " cannot invoke indexing"
  | notAnIndex found => found.name ++ " cannot be used as index"
  | removalIndex => "index must be a number"
  | outOfRange index => "index " ++ Number.text index ++ " out of range"
  | noProperties found => found.name ++ " cannot invoke property getter"
  | noPropertyUpdate found => found.name ++ " cannot invoke property setter"
  | methodReceiver found => found.name ++ " cannot be binding target for object method"
  | listReceiver found => found.name ++ " cannot be binding target for list method"
  | listProperty => "cannot mutate prototype of list"
  | assertion => ""
  | panic text => text
  | stray jump => jump.name
  | cyclicImport path => path
  | importErrors path errors => path ++ ": " ++ ParseError.report errors
  | decoding error => error.message
  | file error => error.message

def message (fault : Fault) : String := fault.kind.lead ++ fault.cause

end Fault

end HookScript
