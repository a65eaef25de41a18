import HookScript.Evaluation
import HookScript.Proofs.Run.Files

/-!
What a run is doing at any moment. A task is one call of the evaluator. `Enters` says which tasks a task calls
on, and on which machine it does so; a run consists of the tasks that are entered from its first one.
-/

namespace HookScript

inductive Task where
  | evaluate (expr : Expr)
  | evaluateAll (exprs : List Expr)
  | call (callable : Callable) (args : List Value)
  | runBody (frame : FrameId) (body : List Stmt)
  | execute (stmt : Stmt)
  | executeAll (stmts : List Stmt)
  | loop (condition : Expr) (body : List Stmt)
  | executeProgram (stmts : List Stmt)
  | importFile (path : Value)

namespace Heap

def frameWith (heap : Heap) (parent : FrameId) (entries : List (String × Value)) : FrameId × Heap :=
  let (frame, heap) := heap.newFrame (some parent)
  (frame, heap.declareAll frame entries)

end Heap

namespace Machine

variable {α : Type}

/-- The machine after a run, however the run ends. -/
def after (act : Run α) (m : Machine) : Machine :=
  match act m with
  | .ok _ m' => m'
  | .error _ m' => m'

def inFrame (m : Machine) (scope : FrameId) : Machine := { m with interpreter := { m.interpreter with scope } }

def opened (m : Machine) : Machine :=
  let (frame, heap) := m.heap.newFrame (some m.interpreter.scope)
  { m with heap, interpreter := { m.interpreter with scope := frame } }

/-- The machine with a new interpreter at work on a file. -/
def importing (m : Machine) (place : Path) : Machine :=
  let (interpreter, heap) := Interpreter.start m.heap (some place.parent) (m.interpreter.imports ++ [place])
  { m with heap, interpreter }

theorem after_of_ok {act : Run α} {m m' : Machine} {a : α} (h : act m = .ok a m') : after act m = m' := by
  rw [after, h]

theorem after_of_error {act : Run α} {m m' : Machine} {e : Stop} (h : act m = .error e m') :
    after act m = m' := by
  rw [after, h]

end Machine

def Task.after (world : World) (n : Nat) : Task → Machine → Machine
  | evaluate expr => Machine.after (Run.evaluate world n expr)
  | evaluateAll exprs => Machine.after (Run.evaluateAll world n exprs)
  | call callable args => Machine.after (Run.call world n callable args)
  | runBody frame body => Machine.after (Run.runBody world n frame body)
  | execute stmt => Machine.after (Run.execute world n stmt)
  | executeAll stmts => Machine.after (Run.executeAll world n stmts)
  | loop condition body => Machine.after (Run.loop world n condition body)
  | executeProgram stmts => Machine.after (Run.executeProgram world n stmts)
  | importFile path => Machine.after (Run.importFile world n path)

def Task.Yields (world : World) (n : Nat) : Task → Machine → Completion → Machine → Prop
  | execute stmt, m, done, m' => Run.execute world n stmt m = .ok done m'
  | executeAll stmts, m, done, m' => Run.executeAll world n stmts m = .ok done m'
  | loop condition body, m, done, m' => Run.loop world n condition body m = .ok done m'
  | _, _, _, _ => False

def Run.Fails {α : Type} (act : Run α) (m : Machine) (e : Stop) : Prop := ∃ m', act m = .error e m'

def Task.Fails (world : World) (n : Nat) : Task → Machine → Stop → Prop
  | evaluate expr => Run.Fails (Run.evaluate world n expr)
  | evaluateAll exprs => Run.Fails (Run.evaluateAll world n exprs)
  | call callable args => Run.Fails (Run.call world n callable args)
  | runBody frame body => Run.Fails (Run.runBody world n frame body)
  | execute stmt => Run.Fails (Run.execute world n stmt)
  | executeAll stmts => Run.Fails (Run.executeAll world n stmts)
  | loop condition body => Run.Fails (Run.loop world n condition body)
  | executeProgram stmts => Run.Fails (Run.executeProgram world n stmts)
  | importFile path => Run.Fails (Run.importFile world n path)

/-- Where in the text a task calls on another one: in the same place, inside a new scope, in the initial value of a
variable, past a statement, or past the first branch of two. Calls and files lead to another text. -/
inductive Move where
  | stay
  | enter
  | initial (name : String)
  | past (stmt : Stmt)
  | otherwise (yes : Stmt)
  | call
  | file

namespace Run

/-- With fuel `n + 1` the first task, on the first machine, calls on the second task with fuel `n` on the second
machine. What was called on before has to have gone well. -/
inductive Enters (world : World) (n : Nat) : Move → Task → Machine → Task → Machine → Prop
  | inner {inner m} : Enters world n .stay (.evaluate (.group inner)) m (.evaluate inner) m
  | assigned {name level value m} :
    Enters world n .stay (.evaluate (.assign name level value)) m (.evaluate value) m
  | itemTarget {target index m} : Enters world n .stay (.evaluate (.item target index)) m (.evaluate target) m
  | itemIndex {target index list m m₁} (ht : evaluate world n target m = .ok (.list list) m₁) :
    Enters world n .stay (.evaluate (.item target index)) m (.evaluate index) m₁
  | setItemValue {target index value m} :
    Enters world n .stay (.evaluate (.setItem target index value)) m (.evaluate value) m
  | setItemTarget {target index value v m m₁} (hv : evaluate world n value m = .ok v m₁) :
    Enters world n .stay (.evaluate (.setItem target index value)) m (.evaluate target) m₁
  | setItemIndex {target index value v list m m₁ m₂} (hv : evaluate world n value m = .ok v m₁)
    (ht : evaluate world n target m₁ = .ok (.list list) m₂) :
    Enters world n .stay (.evaluate (.setItem target index value)) m (.evaluate index) m₂
  | propertyTarget {target name m} :
    Enters world n .stay (.evaluate (.property target name)) m (.evaluate target) m
  | setPropertyValue {target name value m} :
    Enters world n .stay (.evaluate (.setProperty target name value)) m (.evaluate value) m
  | setPropertyTarget {target name value v m m₁} (hv : evaluate world n value m = .ok v m₁) :
    Enters world n .stay (.evaluate (.setProperty target name value)) m (.evaluate target) m₁
  | operand {op operand m} : Enters world n .stay (.evaluate (.unary op operand)) m (.evaluate operand) m
  | binaryLeft {left op right m} : Enters world n .stay (.evaluate (.binary left op right)) m (.evaluate left) m
  | binaryRight {left op right v m m₁} (hl : evaluate world n left m = .ok v m₁) :
    Enters world n .stay (.evaluate (.binary left op right)) m (.evaluate right) m₁
  | logicalLeft {left op right m} : Enters world n .stay (.evaluate (.logical left op right)) m (.evaluate left) m
  | andRight {left right v m m₁} (hl : evaluate world n left m = .ok v m₁) (truthy : v.isTruthy = true) :
    Enters world n .stay (.evaluate (.logical left .and right)) m (.evaluate right) m₁
  | orRight {left right v m m₁} (hl : evaluate world n left m = .ok v m₁) (falsy : v.isTruthy = false) :
    Enters world n .stay (.evaluate (.logical left .or right)) m (.evaluate right) m₁
  | callee {callee args m} : Enters world n .stay (.evaluate (.call callee args)) m (.evaluate callee) m
  | args {callee args id callable m m₁} (hc : evaluate world n callee m = .ok (.callable id) m₁)
    (found : m₁.heap.callable? id = some callable) (arity : args.length = callable.arity) :
    Enters world n .stay (.evaluate (.call callee args)) m (.evaluateAll args) m₁
  | called {callee args id callable values m m₁ m₂} (hc : evaluate world n callee m = .ok (.callable id) m₁)
    (found : m₁.heap.callable? id = some callable) (arity : args.length = callable.arity)
    (ha : evaluateAll world n args m₁ = .ok values m₂) :
    Enters world n .stay (.evaluate (.call callee args)) m (.call callable values) m₂
  | items {items m} : Enters world n .stay (.evaluate (.list items)) m (.evaluateAll items) m
  | properties {properties m} :
    Enters world n .stay (.evaluate (.object properties)) m (.evaluateAll (properties.map (·.2))) m
  | firstExpr {first rest m} : Enters world n .stay (.evaluateAll (first :: rest)) m (.evaluate first) m
  | restExprs {first rest v m m₁} (hf : evaluate world n first m = .ok v m₁) :
    Enters world n .stay (.evaluateAll (first :: rest)) m (.evaluateAll rest) m₁
  | functionBody {name params body closure args frame heap m}
    (entry : m.heap.frameWith closure (params.zip args) = (frame, heap)) :
    Enters world n .call (.call (.function name params body closure) args) m (.runBody frame body) { m with heap }
  | methodBody {params body globals receiver args around heap₁ frame heap₂ m}
    (outer : m.heap.frameWith globals [("this", receiver)] = (around, heap₁))
    (entry : heap₁.frameWith around (params.zip args) = (frame, heap₂)) :
    Enters world n .call (.call (.bound (.script params body globals) receiver) args) m (.runBody frame body)
      { m with heap := heap₂ }
  | body {frame body m} : Enters world n .stay (.runBody frame body) m (.executeAll body) (m.inFrame frame)
  | value {value m} : Enters world n .stay (.execute (.expression value)) m (.evaluate value) m
  | initial {name initial m} :
    Enters world n (.initial name) (.execute (.declare name (some initial))) m (.evaluate initial) m
  | block {body m} : Enters world n .enter (.execute (.block body)) m (.executeAll body) m.opened
  | branchCondition {condition yes no m} :
    Enters world n .stay (.execute (.branch condition yes no)) m (.evaluate condition) m
  | yes {condition yes no v m m₁} (hc : evaluate world n condition m = .ok v m₁) (truthy : v.isTruthy = true) :
    Enters world n .stay (.execute (.branch condition yes no)) m (.execute yes) m₁
  | no {condition yes no v m m₁} (hc : evaluate world n condition m = .ok v m₁) (falsy : v.isTruthy = false) :
    Enters world n (.otherwise yes) (.execute (.branch condition yes (some no))) m (.execute no) m₁
  | loop {condition body m} : Enters world n .stay (.execute (.loop condition body)) m (.loop condition body) m
  | returned {value m} : Enters world n .stay (.execute (.giveBack (some value))) m (.evaluate value) m
  | source {source m} : Enters world n .stay (.execute (.importFrom source)) m (.evaluate source) m
  | importFile {source path m m₁} (hs : evaluate world n source m = .ok path m₁) :
    Enters world n .stay (.execute (.importFrom source)) m (.importFile path) m₁
  | exported {name value m} : Enters world n .stay (.execute (.exportAs name value)) m (.evaluate value) m
  | firstStmt {first rest m} : Enters world n .stay (.executeAll (first :: rest)) m (.execute first) m
  | restStmts {first rest m m₁} (hf : execute world n first m = .ok .normal m₁) :
    Enters world n (.past first) (.executeAll (first :: rest)) m (.executeAll rest) m₁
  | loopCondition {condition body m} : Enters world n .stay (.loop condition body) m (.evaluate condition) m
  | loopBody {condition body v m m₁} (hc : evaluate world n condition m = .ok v m₁) (truthy : v.isTruthy = true) :
    Enters world n .enter (.loop condition body) m (.executeAll body) m₁.opened
  | nextRound {condition body v done m m₁ m₂} (hc : evaluate world n condition m = .ok v m₁)
    (truthy : v.isTruthy = true) (hb : executeAll world n body m₁.opened = .ok done m₂)
    (goesOn : done = .normal ∨ done = .nextRound) :
    Enters world n .stay (.loop condition body) m (.loop condition body) (m₂.inFrame m₁.interpreter.scope)
  | firstOfProgram {first rest m} : Enters world n .stay (.executeProgram (first :: rest)) m (.execute first) m
  | restOfProgram {first rest m m₁} (hf : execute world n first m = .ok .normal m₁) :
    Enters world n (.past first) (.executeProgram (first :: rest)) m (.executeProgram rest) m₁
  | program {path place text program m} (found : world.resolveFrom m.interpreter.directory path = .ok place)
    (fresh : place ∉ m.interpreter.imports) (read : world.readText place = .ok text)
    (accepted : Program.ofText text = .ok program) :
    Enters world n .file (.importFile (.string path)) m (.executeProgram program) (m.importing place)

end Run

end HookScript
