import HookScript.Fault
import HookScript.Program.Basic
import HookScript.Table
import HookScript.Value

/-!
What values refer to: frames of names, the contents of lists and objects, methods and callables, and the
bodies that are decoded on demand. Nothing is ever removed, so an identity stays good.

A host can bind native functions and methods of its own besides those of the language. They are left out: what they do
is up to the host.
-/

namespace HookScript

inductive ListMethod where
  | add | length | find | contains | remove
  deriving DecidableEq, Repr

namespace ListMethod

def name : ListMethod → String
  | add => "add"
  | length => "length"
  | find => "find"
  | contains => "contains"
  | remove => "remove"

def arity : ListMethod → Nat
  | length => 0
  | _ => 1

def all : List ListMethod := [add, length, find, contains, remove]

def ofName? (name : String) : Option ListMethod := all.find? (·.name = name)

end ListMethod

inductive Builtin where
  | print | println | clone | panic | assert
  deriving DecidableEq, Repr

namespace Builtin

def name : Builtin → String
  | print => "print"
  | println => "println"
  | clone => "clone"
  | panic => "panic"
  | assert => "assert"

def arity (_ : Builtin) : Nat := 1

def all : List Builtin := [print, println, clone, panic, assert]

end Builtin

structure DecoderId where
  index : Nat
  deriving DecidableEq, Repr

/-- A method is called on a receiver. One that is written in a script knows the global names of the file that
it was made in, never the names around it. -/
inductive Method where
  | script (params : List String) (body : List Stmt) (globals : FrameId)
  | list (method : ListMethod)
  | decoder (format : BodyFormat) (id : DecoderId)

namespace Method

def arity : Method → Nat
  | script params _ _ => params.length
  | list method => method.arity
  | decoder _ _ => 0

def text : Method → String
  | script _ _ _ => "method"
  | list method => "builtin:" ++ method.name
  | decoder format _ => "builtin:" ++ format.name

end Method

inductive Callable where
  | function (name : String) (params : List String) (body : List Stmt) (closure : FrameId)
  | bound (method : Method) (receiver : Value)
  | builtin (builtin : Builtin)

namespace Callable

def arity : Callable → Nat
  | function _ params _ _ => params.length
  | bound method _ => method.arity
  | builtin b => b.arity

def text : Callable → String
  | function name _ _ _ => "function:" ++ name
  | bound method _ => method.text
  | builtin b => "builtin:" ++ b.name

end Callable

structure Frame where
  names : Table Value
  parent : Option FrameId

structure Decoder where
  format : BodyFormat
  body : List UInt8
  decoded : Option Value

structure Heap where
  frames : Array Frame
  lists : Array (Array Value)
  objects : Array (Table Value)
  methods : Array Method
  callables : Array Callable
  decoders : Array Decoder

namespace Heap

def empty : Heap := ⟨#[], #[], #[], #[], #[], #[]⟩

instance : Inhabited Heap := ⟨empty⟩

def newList (heap : Heap) (items : Array Value) : ListId × Heap :=
  (⟨heap.lists.size⟩, { heap with lists := heap.lists.push items })

def newObject (heap : Heap) (properties : Table Value) : ObjectId × Heap :=
  (⟨heap.objects.size⟩, { heap with objects := heap.objects.push properties })

def newMethod (heap : Heap) (method : Method) : MethodId × Heap :=
  (⟨heap.methods.size⟩, { heap with methods := heap.methods.push method })

def newCallable (heap : Heap) (callable : Callable) : CallableId × Heap :=
  (⟨heap.callables.size⟩, { heap with callables := heap.callables.push callable })

def newDecoder (heap : Heap) (format : BodyFormat) (body : List UInt8) : DecoderId × Heap :=
  (⟨heap.decoders.size⟩, { heap with decoders := heap.decoders.push ⟨format, body, none⟩ })

def items (heap : Heap) (id : ListId) : Array Value := heap.lists.getD id.index #[]

def setItems (heap : Heap) (id : ListId) (items : Array Value) : Heap :=
  { heap with lists := heap.lists.setIfInBounds id.index items }

def properties (heap : Heap) (id : ObjectId) : Table Value := heap.objects.getD id.index .empty

/-- A property that is not there reads as nil. -/
def property (heap : Heap) (id : ObjectId) (name : String) : Value :=
  ((heap.properties id).get? name).getD .nil

def setProperties (heap : Heap) (id : ObjectId) (properties : Table Value) : Heap :=
  { heap with objects := heap.objects.setIfInBounds id.index properties }

def putProperty (heap : Heap) (id : ObjectId) (name : String) (value : Value) : Heap :=
  { heap with objects := heap.objects.modify id.index (·.insert name value) }

def push (heap : Heap) (id : ListId) (value : Value) : Heap :=
  { heap with lists := heap.lists.modify id.index (·.push value) }

/-- Puts `value` in the place of an item, if the item is there. -/
def setItem (heap : Heap) (id : ListId) (index : Nat) (value : Value) : Heap :=
  { heap with lists := heap.lists.modify id.index (·.setIfInBounds index value) }

/-- Takes out an item, if it is there; the items after it move up. -/
def removeItem (heap : Heap) (id : ListId) (index : Nat) : Heap :=
  { heap with lists := heap.lists.modify id.index (·.eraseIdxIfInBounds index) }

def method? (heap : Heap) (id : MethodId) : Option Method := heap.methods[id.index]?

def callable? (heap : Heap) (id : CallableId) : Option Callable := heap.callables[id.index]?

def decoder? (heap : Heap) (id : DecoderId) : Option Decoder := heap.decoders[id.index]?

def remember (heap : Heap) (id : DecoderId) (value : Value) : Heap :=
  { heap with decoders := heap.decoders.modify id.index ({ · with decoded := some value }) }

end Heap

end HookScript
