import HookScript.Host

/-!
Hooks around an HTTP exchange. A script runs before a request is sent or after a response has come, sees it
under a name of its own, and answers by what it exports.
-/

namespace HookScript

/-- The values of each header in the order in which they were given. -/
abbrev Headers := Table (List String)

structure Request where
  method : String
  url : String
  headers : Headers

structure Response where
  statusCode : Nat
  status : String
  headers : Headers
  body : List UInt8

namespace Headers

def add (headers : Headers) (name value : String) : Headers :=
  headers.insert name (((headers.get? name).getD []) ++ [value])

/-- An object in which the values of a header are joined by commas. -/
def toObject (headers : Headers) (heap : Heap) : ObjectId × Heap :=
  heap.newObject (.ofList (headers.entries.map fun (name, values) =>
    (name, .string (", ".intercalate values))))

end Headers

namespace Request

def toObject (request : Request) (heap : Heap) : ObjectId × Heap :=
  let (headers, heap) := request.headers.toObject heap
  heap.newObject (.ofList [("method", .string request.method), ("url", .string request.url),
    ("headers", .object headers)])

end Request

namespace Response

def decoder (response : Response) (format : BodyFormat) (heap : Heap) : MethodId × Heap :=
  let (id, heap) := heap.newDecoder format response.body
  heap.newMethod (.decoder format id)

/-- The body is there in two methods only, one for each format. -/
def toObject (response : Response) (heap : Heap) : ObjectId × Heap :=
  let (headers, heap) := response.headers.toObject heap
  let (json, heap) := response.decoder .json heap
  let (xml, heap) := response.decoder .xml heap
  heap.newObject (.ofList [("status_code", .number (Float.ofNat response.statusCode)),
    ("status", .string response.status), ("headers", .object headers),
    (BodyFormat.json.name, .method json), (BodyFormat.xml.name, .method xml)])

end Response

inductive Exchange where
  | before (request : Request)
  | after (response : Response)

namespace Exchange

def name : Exchange → String
  | before _ => "request"
  | after _ => "response"

def toObject (exchange : Exchange) (heap : Heap) : ObjectId × Heap :=
  match exchange with
  | before request => request.toObject heap
  | after response => response.toObject heap

/-- Runs a script on the exchange and gives what it exports. -/
def hook (exchange : Exchange) (world : World) (fuel : Nat) (script : String) : Host (Table Value) := do
  let program ← Host.ofExcept .parse (Program.ofText script)
  let object ← Host.ofRun (Run.changeHeap exchange.toObject)
  Host.declare exchange.name (.object object)
  Host.ofRun (Run.executeProgram world fuel program)
  Host.exports

end Exchange

end HookScript
