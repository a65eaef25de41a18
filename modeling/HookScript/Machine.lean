import HookScript.Heap.Copy
import HookScript.Heap.Frames
import HookScript.Path

/-!
The state that a script runs in: the heap, what has been printed, and the interpreter at work. Only the heap
and the printed text outlast a change of interpreter.

Printing always succeeds: the text goes to a sink that takes everything. A sink that fails is left out, and so is the
fault that a script would stop by then.
-/

namespace HookScript

structure Interpreter where
  /-- Where imports start from. Nothing stands for the empty path. -/
  directory : Option Path
  exports : Table Value
  builtins : FrameId
  globals : FrameId
  scope : FrameId
  /-- The files being run, by this interpreter and by those that import it, the outermost first. -/
  imports : List Path

structure Machine where
  heap : Heap
  out : String
  interpreter : Interpreter

/-- Why a run stops early. Running out of fuel says nothing about the script. -/
inductive Stop where
  | fault (fault : Fault)
  | outOfFuel

abbrev Run := EStateM Stop Machine

inductive Completion where
  | normal
  | returned (value : Value)
  | leftLoop
  | nextRound

def Completion.jump? : Completion → Option Jump
  | normal => none
  | returned _ => some .giveBack
  | leftLoop => some .leaveLoop
  | nextRound => some .nextRound

namespace Interpreter

def declareBuiltins (frame : FrameId) : List Builtin → Heap → Heap
  | [], heap => heap
  | b :: rest, heap =>
    let (id, heap) := heap.newCallable (.builtin b)
    declareBuiltins frame rest (heap.declare frame b.name (.callable id))

def start (heap : Heap) (directory : Option Path) (imports : List Path) : Interpreter × Heap :=
  let (builtins, heap) := heap.newFrame none
  let heap := declareBuiltins builtins Builtin.all heap
  let (globals, heap) := heap.newFrame (some builtins)
  (⟨directory, .empty, builtins, globals, globals, imports⟩, heap)

end Interpreter

def Machine.start (directory : Option Path) : Machine :=
  let (interpreter, heap) := Interpreter.start .empty directory []
  ⟨heap, "", interpreter⟩

namespace Run

variable {α : Type}

def fault (f : Fault) : Run α := fun m => .error (.fault f) m

def outOfFuel : Run α := fun m => .error .outOfFuel m

def ofExcept : Except Fault α → Run α
  | .ok a => fun m => .ok a m
  | .error f => fault f

def interpreter : Run Interpreter := fun m => .ok m.interpreter m

def readHeap (f : Heap → α) : Run α := fun m => .ok (f m.heap) m

def changeHeap (f : Heap → α × Heap) : Run α := modifyGet fun m =>
  let (a, heap) := f m.heap
  (a, { m with heap })

def print (text : String) : Run Unit := modify fun m => { m with out := m.out ++ text }

def text (value : Value) : Run String := readHeap (·.text value)

/-- Runs `act` in another scope and comes back, whether or not `act` succeeds. -/
def withScope (scope : FrameId) (act : Run α) : Run α := fun m =>
  let before := m.interpreter.scope
  match act { m with interpreter := { m.interpreter with scope } } with
  | .ok a m' => .ok a { m' with interpreter := { m'.interpreter with scope := before } }
  | .error e m' => .error e { m' with interpreter := { m'.interpreter with scope := before } }

/-- Runs `act` in another interpreter for what it exports, and comes back in any case. -/
def withInterpreter (other : Interpreter) (act : Run Unit) : Run (Table Value) := fun m =>
  let own := m.interpreter
  match act { m with interpreter := other } with
  | .ok () m' => .ok m'.interpreter.exports { m' with interpreter := own }
  | .error e m' => .error e { m' with interpreter := own }

def declare (name : String) (value : Value) : Run Unit := do
  let scope := (← interpreter).scope
  changeHeap fun heap => ((), heap.declare scope name value)

def innerFrame : Run FrameId := do
  let scope := (← interpreter).scope
  changeHeap (·.newFrame (some scope))

def addExport (name : String) (value : Value) : Run Unit := modify fun m =>
  { m with interpreter := { m.interpreter with exports := m.interpreter.exports.insert name value } }

def lookup? (level : Nat) (name : String) : Run (Option Value) := do
  let scope := (← interpreter).scope
  readHeap (·.get? scope level name)

end Run

end HookScript
