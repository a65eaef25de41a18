import HookScript.Machine
import HookScript.Operator
import HookScript.Program.Parser
import HookScript.World

/-!
Running programs. Every function takes the world and an amount of fuel, of which each
step passes on one less; a run that has enough fuel ends as it does with any more. Operands are evaluated
before their operator acts, the value of an assignment before its target, and the number of arguments is
checked before any of them is evaluated.
-/

namespace HookScript

namespace Method

/-- A method with its receiver. Only an object can receive a method that is written in a script. -/
def bind (method : Method) (receiver : Value) : Except Fault Callable :=
  match method, receiver with
  | script _ _ _, .object _ => .ok (.bound method receiver)
  | script _ _ _, other => .error (.methodReceiver other.type)
  | _, _ => .ok (.bound method receiver)

end Method

namespace Callable

def checkArity (callable : Callable) (given : Nat) : Except Fault Unit :=
  if given = callable.arity then .ok () else .error (.arity callable.text callable.arity given)

end Callable

namespace Run

/-- A property of a value. A method comes out bound to the value that it was found in. -/
def getProperty (target : Value) (name : String) : Run Value := do
  match target with
  | .object id =>
    match ← readHeap (·.property id name) with
    | .method methodId =>
      match ← readHeap (·.method? methodId) with
      | some method =>
        let callable ← ofExcept (method.bind target)
        let bound ← changeHeap (·.newCallable callable)
        return .callable bound
      | none => return .nil
    | value => return value
  | .list _ =>
    match ListMethod.ofName? name with
    | some method =>
      let callable ← ofExcept ((Method.list method).bind target)
      let bound ← changeHeap (·.newCallable callable)
      return .callable bound
    | none => return .nil
  | other => fault (.noProperties other.type)

def setProperty (target : Value) (name : String) (value : Value) : Run Value := do
  match target with
  | .object id =>
    changeHeap fun heap => ((), heap.putProperty id name value)
    return value
  | .list _ => fault .listProperty
  | other => fault (.noPropertyUpdate other.type)

def bindParams (frame : FrameId) (params : List String) (args : List Value) : Run Unit :=
  changeHeap fun heap => ((), heap.declareAll frame (params.zip args))

def asCallable (value : Value) : Run Callable := do
  match value with
  | .callable id =>
    match ← readHeap (·.callable? id) with
    | some callable => return callable
    | none => fault (.notCallable (← text value))
  | other => fault (.notCallable (← text other))

def callBuiltin (builtin : Builtin) (argument : Value) : Run Value := do
  match builtin with
  | .print =>
    print (← text argument)
    return .nil
  | .println =>
    print ((← text argument) ++ "\n")
    return .nil
  | .clone => changeHeap (·.deepCopy argument)
  | .panic => fault (.panic (← text argument))
  | .assert => if argument.isTruthy then return .nil else fault .assertion

def findItem (items : Array Value) (value : Value) : Option Nat :=
  items.findIdx? fun item => item.equals value

def callListMethod (method : ListMethod) (receiver argument : Value) : Run Value := do
  match receiver with
  | .list id =>
    match method with
    | .add =>
      changeHeap fun heap => ((), heap.push id argument)
      return receiver
    | .length => return .number (Float.ofNat (← readHeap (·.items id)).size)
    | .find =>
      match findItem (← readHeap (·.items id)) argument with
      | some index => return .number (Float.ofNat index)
      | none => return .number (-1)
    | .contains => return .boolean (findItem (← readHeap (·.items id)) argument).isSome
    | .remove =>
      match argument with
      | .number x =>
        let size := (← readHeap (·.items id)).size
        match (Value.position? x).filter (· < size) with
        | some index => changeHeap fun heap => (receiver, heap.removeItem id index)
        | none => fault (.outOfRange x)
      | _ => fault .removalIndex
  | other => fault (.listReceiver other.type)

/-- Decodes a body, unless that has been done, and keeps the result. An empty body is nil. -/
def callDecoder (world : World) (id : DecoderId) : Run Value := do
  match ← readHeap (·.decoder? id) with
  | none => return .nil
  | some decoder =>
    match decoder.decoded with
    | some value => return value
    | none =>
      if decoder.body = [] then
        changeHeap fun heap => (.nil, heap.remember id .nil)
      else
        match world.decode decoder.format decoder.body with
        | .error error => fault (.decoding error)
        | .ok document => changeHeap fun heap =>
          let (value, heap) := heap.ofDocument document
          (value, heap.remember id value)

def asList (value : Value) : Run ListId :=
  match value with
  | .list id => fun m => .ok id m
  | other => fault (.notIndexable other.type)

/-- The position that an index stands for in a list as it is now. -/
def position (list : ListId) (index : Value) : Run Nat := do
  match index with
  | .number x =>
    let size := (← readHeap (·.items list)).size
    match (Value.position? x).filter (· < size) with
    | some i => return i
    | none => fault (.outOfRange x)
  | other => fault (.notAnIndex other.type)

def literalValue : Literal → Value
  | .integer n => .number (Float.ofNat n)
  | .float x => .number x
  | .string s => .string s
  | .boolean b => .boolean b
  | .nil => .nil

mutual

def evaluate (world : World) : Nat → Expr → Run Value
  | 0, _ => outOfFuel
  | fuel + 1, expr => do
    match expr with
    | .literal literal => return literalValue literal
    | .group inner => evaluate world fuel inner
    | .lookup name level =>
      match ← lookup? level name with
      | some value => return value
      | none => fault (.undeclared name)
    | .assign name level value =>
      let value ← evaluate world fuel value
      let scope := (← interpreter).scope
      match ← readHeap (·.assignee? scope level name) with
      | some frame => changeHeap fun heap => (value, heap.declare frame name value)
      | none => fault (.undeclared name)
    | .item target index =>
      let list ← asList (← evaluate world fuel target)
      let i ← position list (← evaluate world fuel index)
      readHeap fun heap => (heap.items list).getD i .nil
    | .setItem target index value =>
      let value ← evaluate world fuel value
      let list ← asList (← evaluate world fuel target)
      let i ← position list (← evaluate world fuel index)
      changeHeap fun heap => (value, heap.setItem list i value)
    | .property target name => getProperty (← evaluate world fuel target) name
    | .setProperty target name value =>
      let value ← evaluate world fuel value
      setProperty (← evaluate world fuel target) name value
    | .unary op operand =>
      let operand ← evaluate world fuel operand
      ofExcept (op.apply operand)
    | .binary left op right =>
      let left ← evaluate world fuel left
      let right ← evaluate world fuel right
      ofExcept (op.apply left right)
    | .logical left op right =>
      let left ← evaluate world fuel left
      match op with
      | .and => if left.isTruthy then evaluate world fuel right else return left
      | .or => if left.isTruthy then return left else evaluate world fuel right
    | .call callee args =>
      let callable ← asCallable (← evaluate world fuel callee)
      ofExcept (callable.checkArity args.length)
      let args ← evaluateAll world fuel args
      call world fuel callable args
    | .list items =>
      let items ← evaluateAll world fuel items
      let id ← changeHeap (·.newList items.toArray)
      return .list id
    | .object properties =>
      let values ← evaluateAll world fuel (properties.map (·.2))
      let id ← changeHeap (·.newObject (.ofList ((properties.map (·.1)).zip values)))
      return .object id
    | .method params body =>
      let globals := (← interpreter).globals
      let id ← changeHeap (·.newMethod (.script params body globals))
      return .method id

def evaluateAll (world : World) : Nat → List Expr → Run (List Value)
  | 0, _ => outOfFuel
  | _ + 1, [] => return []
  | fuel + 1, first :: rest => do
    let value ← evaluate world fuel first
    return value :: (← evaluateAll world fuel rest)

def call (world : World) : Nat → Callable → List Value → Run Value
  | 0, _, _ => outOfFuel
  | fuel + 1, callable, args => do
    match callable with
    | .function _ params body closure =>
      let frame ← changeHeap (·.newFrame (some closure))
      bindParams frame params args
      runBody world fuel frame body
    | .bound (.script params body globals) receiver =>
      let around ← changeHeap (·.newFrame (some globals))
      bindParams around ["this"] [receiver]
      let frame ← changeHeap (·.newFrame (some around))
      bindParams frame params args
      runBody world fuel frame body
    | .bound (.list method) receiver => callListMethod method receiver (args.headD .nil)
    | .bound (.decoder _ id) _ => callDecoder world id
    | .builtin builtin => callBuiltin builtin (args.headD .nil)

/-- Runs the body of a function or method. A return ends it, and no other jump may leave it. -/
def runBody (world : World) : Nat → FrameId → List Stmt → Run Value
  | 0, _, _ => outOfFuel
  | fuel + 1, frame, body => do
    match ← withScope frame (executeAll world fuel body) with
    | .normal => return .nil
    | .returned value => return value
    | .leftLoop => fault (.stray .leaveLoop)
    | .nextRound => fault (.stray .nextRound)

def execute (world : World) : Nat → Stmt → Run Completion
  | 0, _ => outOfFuel
  | fuel + 1, stmt => do
    match stmt with
    | .expression value =>
      let _ ← evaluate world fuel value
      return .normal
    | .declare name none =>
      declare name .nil
      return .normal
    | .declare name (some initial) =>
      let value ← evaluate world fuel initial
      declare name value
      return .normal
    | .block body =>
      let frame ← innerFrame
      withScope frame (executeAll world fuel body)
    | .branch condition yes no =>
      if (← evaluate world fuel condition).isTruthy then execute world fuel yes
      else
        match no with
        | some no => execute world fuel no
        | none => return .normal
    | .loop condition body => loop world fuel condition body
    | .function name params body =>
      let closure := (← interpreter).scope
      let id ← changeHeap (·.newCallable (.function name params body closure))
      declare name (.callable id)
      return .normal
    | .giveBack none => return .returned .nil
    | .giveBack (some value) =>
      let value ← evaluate world fuel value
      return .returned value
    | .leaveLoop => return .leftLoop
    | .nextRound => return .nextRound
    | .importFrom source =>
      let path ← evaluate world fuel source
      importFile world fuel path
      return .normal
    | .exportAs name value =>
      let value ← evaluate world fuel value
      addExport name value
      return .normal
    | .empty => return .normal

def executeAll (world : World) : Nat → List Stmt → Run Completion
  | 0, _ => outOfFuel
  | _ + 1, [] => return .normal
  | fuel + 1, first :: rest => do
    match ← execute world fuel first with
    | .normal => executeAll world fuel rest
    | other => return other

def loop (world : World) : Nat → Expr → List Stmt → Run Completion
  | 0, _, _ => outOfFuel
  | fuel + 1, condition, body => do
    if (← evaluate world fuel condition).isTruthy then
      let frame ← innerFrame
      match ← withScope frame (executeAll world fuel body) with
      | .leftLoop => return .normal
      | .returned value => return .returned value
      | _ => loop world fuel condition body
    else return .normal

def executeProgram (world : World) : Nat → List Stmt → Run Unit
  | 0, _ => outOfFuel
  | _ + 1, [] => return ()
  | fuel + 1, first :: rest => do
    match (← execute world fuel first).jump? with
    | none => executeProgram world fuel rest
    | some jump => fault (.stray jump)

/-- Runs a file in an interpreter of its own and binds what it exports in the current scope. -/
def importFile (world : World) : Nat → Value → Run Unit
  | 0, _ => outOfFuel
  | fuel + 1, path => do
    match path with
    | .string path =>
      let own ← interpreter
      match world.resolveFrom own.directory path with
      | .error error => fault (.file error)
      | .ok place =>
        if place ∈ own.imports then fault (.cyclicImport place.text)
        else
          match world.readText place with
          | .error error => fault (.file error)
          | .ok text =>
            match Program.ofText text with
            | .error errors => fault (.importErrors place.text errors)
            | .ok program =>
              let imported ← changeHeap (Interpreter.start · (some place.parent) (own.imports ++ [place]))
              let exports ← withInterpreter imported (executeProgram world fuel program)
              changeHeap fun heap => ((), heap.declareAll own.scope exports.entries)
    | other => fault (.importValue (← text other))

end

end Run

end HookScript
