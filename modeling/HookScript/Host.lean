import HookScript.Evaluation

/-!
What a host can do with an interpreter: run text and files on it, declare and look up names, and call what
scripts have made.
-/

namespace HookScript

inductive HostError where
  | parse (errors : List ParseError)
  | fault (fault : Fault)
  | outOfFuel

def HostError.message : HostError → String
  | parse errors => ParseError.report errors
  | fault f => f.message
  | outOfFuel => "out of fuel"

abbrev Host := EStateM HostError Machine

namespace Host

variable {α ε : Type}

def ofRun (run : Run α) : Host α := fun m =>
  match run m with
  | .ok a m => .ok a m
  | .error (.fault f) m => .error (.fault f) m
  | .error .outOfFuel m => .error .outOfFuel m

def ofExcept (error : ε → HostError) : Except ε α → Host α
  | .ok a => fun m => .ok a m
  | .error e => fun m => .error (error e) m

/-- Reads and runs a text. Nothing runs if any of it is malformed. -/
def runText (world : World) (fuel : Nat) (text : String) : Host Unit := do
  let program ← ofExcept .parse (Program.ofText text)
  ofRun (Run.executeProgram world fuel program)

/-- Runs a file, which counts as being imported meanwhile. Its directory stays the one to import from. -/
def runFile (world : World) (fuel : Nat) (path : Path) : Host Unit := do
  let place ← ofExcept (.fault ∘ .file) (world.canonicalize path)
  let text ← ofExcept (.fault ∘ .file) (world.readText place)
  let program ← ofExcept .parse (Program.ofText text)
  modify fun m => { m with interpreter :=
    { m.interpreter with directory := some place.parent, imports := m.interpreter.imports ++ [place] } }
  fun m =>
    let leave (m : Machine) : Machine :=
      { m with interpreter := { m.interpreter with imports := m.interpreter.imports.dropLast } }
    match ofRun (Run.executeProgram world fuel program) m with
    | .ok () m => .ok () (leave m)
    | .error e m => .error e (leave m)

/-- Puts a name beside the builtins. -/
def declare (name : String) (value : Value) : Host Unit := modify fun m =>
  { m with heap := m.heap.declare m.interpreter.builtins name value }

def lookup? (level : Nat) (name : String) : Host (Option Value) := ofRun (Run.lookup? level name)

def call (world : World) (fuel : Nat) (callable : Callable) (args : List Value) : Host Value :=
  ofRun do
    Run.ofExcept (callable.checkArity args.length)
    Run.call world fuel callable args

def callValue (world : World) (fuel : Nat) (value : Value) (args : List Value) : Host Value := do
  let callable ← ofRun (Run.asCallable value)
  call world fuel callable args

def asMethod (value : Value) : Run Method := do
  let found ← match value with
    | .method id => Run.readHeap (·.method? id)
    | .callable id => Run.readHeap fun heap =>
      match heap.callable? id with
      | some (.bound method _) => some method
      | _ => none
    | _ => pure none
  match found with
  | some method => return method
  | none => Run.fault (.notCallable (← Run.text value))

def callOn (world : World) (fuel : Nat) (value receiver : Value) (args : List Value) : Host Value := do
  let callable ← ofRun do
    let method ← asMethod value
    Run.ofExcept (method.bind receiver)
  call world fuel callable args

def exports : Host (Table Value) := fun m => .ok m.interpreter.exports m

end Host

end HookScript
