import HookScript.Proofs.Levels.Single
import HookScript.Proofs.Receivers.Bound
import HookScript.Proofs.Scoping.Depth
import HookScript.Proofs.Scoping.Names

/-!
Receivers in the runs of a session. As long as the host binds no method by itself, every method that is called has been
read from its receiver, so none is called on anything that cannot receive it.
-/

namespace HookScript

namespace Exchange

variable {world : World} {comes : Nat → Task → Machine → Prop} {heap : Heap}

theorem received_decoder (received : heap.Received world comes) (response : Response) (format : BodyFormat) :
    (response.decoder format heap).2.Received world comes := by
  have data : heap.SameCode (heap.newDecoder format response.body).2 := ⟨rfl, rfl, rfl⟩
  exact (received.keepsMethods data.keepsMethods).newMethod nofun

theorem received_toObject (received : heap.Received world comes) (exchange : Exchange) :
    (exchange.toObject heap).2.Received world comes := by
  have data {heap heap' : Heap} (received : heap.Received world comes) (same : heap.SameCode heap') :
      heap'.Received world comes := received.keepsMethods same.keepsMethods
  cases exchange with
  | before request => exact data received ⟨rfl, rfl, rfl⟩
  | after response =>
    have headers : (response.headers.toObject heap).2.Received world comes := data received ⟨rfl, rfl, rfl⟩
    exact data (received_decoder (received_decoder headers response .json) response .xml) ⟨rfl, rfl, rfl⟩

end Exchange

theorem Heap.received_empty {world : World} {comes : Nat → Task → Machine → Prop} :
    Heap.empty.Received world comes where
  unbound id method found := by simp [method?, empty] at found
  readFrom found := by simp [callable?, empty] at found

def Task.Found (heap : Heap) : Task → Prop
  | call callable _ => ∃ id, heap.callable? id = some callable
  | _ => True

/-- The tasks in the runs of a session that begin with a program, or with a call of something that the heap has. The
host binds no method in them. -/
inductive Run.Unforced (world : World) (sources : Program → Prop) : Nat → Task → Machine → Prop
  | start {n t m} (starts : Starts world sources n t m) (found : t.Found m.heap) : Unforced world sources n t m
  | enter {n move t m t' m'} (unforced : Unforced world sources (n + 1) t m)
    (enters : Enters world n move t m t' m') : Unforced world sources n t' m'

variable {world : World} {sources : Program → Prop} {n : Nat} {t t' : Task} {m m' : Machine}

namespace Run

theorem Reached.followed : Followed world (Reached world sources) := fun _ _ _ _ _ _ => .enter

theorem Unforced.followed : Followed world (Unforced world sources) := fun _ _ _ _ _ _ => .enter

theorem Unforced.reached (unforced : Unforced world sources n t m) : Reached world sources n t m := by
  induction unforced with
  | start starts => exact .start starts
  | enter _ enters ih => exact .enter ih enters

theorem Enters.found {move : Move} (enters : Enters world n move t m t' m') : t'.Found m'.heap := by
  cases enters with
  | called hc found arity ha =>
    have later := later_of_ran (.evaluateAll _) ha rfl
    exact ⟨_, later.grows.extended.callable found⟩
  | _ => trivial

theorem Unforced.found (unforced : Unforced world sources n t m) : t.Found m.heap := by
  cases unforced with
  | start _ found => exact found
  | enter _ enters => exact enters.found

end Run

theorem Session.received (session : Session world sources m) :
    m.heap.Received world (Run.Reached world sources) := by
  refine session.induction_of_acts (P := fun m => m.heap.Received world (Run.Reached world sources)) (fun directory => ?_)
    (fun n t m received starts => ?_) (fun _ _ _ received => received) (fun m frame name value received => ?_)
    fun m exchange received => Exchange.received_toObject received exchange
  · exact Heap.received_empty.keepsMethods (Interpreter.keepsMethods_start .empty directory [])
  · exact (Run.course_after Run.Reached.followed (.start starts)).received received
  · exact received.keepsMethods (Heap.keepsMethods_declare m.heap frame name value)

namespace Run

theorem Reached.received (reached : Reached world sources n t m) :
    m.heap.Received world (Reached world sources) := by
  induction reached with
  | start starts =>
    cases starts with
    | text between | file between | call between | callOn between => exact between.received
  | enter reached enters ih => exact (enters.course Reached.followed reached).received ih

theorem Passes.received {w : Machine} (passes : Passes world n t m w) (reached : Reached world sources n t m) :
    w.heap.Received world (Reached world sources) := by
  induction passes with
  | begins => exact reached.received
  | ends => exact (course_after Reached.followed reached).received reached.received
  | inside enters _ ih => exact ih (reached.enter enters)

theorem Unforced.not_fails (unforced : Unforced world sources n t m) {f : Fault} (about : f.AboutReceiver) :
    ¬t.Fails world n m (.fault f) := by
  intro fails
  obtain ⟨k, method, receiver, args, w, called, other⟩ := misuses_of_fails Unforced.followed unforced about fails
  obtain ⟨id, found⟩ := called.found
  rcases called.reached.received.suits found with ⟨list, -, isList, -⟩ | ⟨_, -, free⟩
  · exact other list isList
  · exact free method rfl

end Run

theorem Context.resolve_this (c : Context) {params : List String} (free : "this" ∉ params) :
    (c.methodBody params).resolve "this" = 1 := by
  have outer : (c.methodBody params).outer = [.receiver, c.globals] := outer_settleAll _ params
  have inner : (c.methodBody params).inner.names = params.reverse :=
    (inner_congr (names_settleAll _ params)).trans ((inner_declareAll _ params).trans (List.append_nil _))
  have here : "this" ∈ Scope.receiver.names := List.mem_singleton_self _
  simp [resolve, scopes, outer, List.findIdx?_cons, inner, free, here]

theorem Heap.binding?_of_frameWith {heap heap' : Heap} {parent frame : FrameId} {name : String} {value : Value}
    (entry : heap.frameWith parent [(name, value)] = (frame, heap')) : heap'.binding? frame name = some value := by
  cases entry
  exact (binding?_declare _ _ _ name name value).trans (if_pos ⟨rfl, hasFrame_newFrame heap (some parent), rfl⟩)

theorem Heap.receives_of_frameWith {heap heap₁ heap₂ : Heap} {globals around frame : FrameId} {receiver : Value}
    {entries : List (String × Value)} (inside : heap.HasFrame globals)
    (outer : heap.frameWith globals [("this", receiver)] = (around, heap₁))
    (entry : heap₁.frameWith around entries = (frame, heap₂)) :
    heap₂.ancestor? frame 1 = some around ∧ heap₂.binding? around "this" = some receiver := by
  obtain ⟨-, inside₁, chain₁, -⟩ := frameWith_spec inside outer
  obtain ⟨-, -, chain₂, -⟩ := frameWith_spec inside₁ entry
  exact ⟨by rw [ancestor?, chain₂, chain₁]; rfl, binding?_frameWith (binding?_of_frameWith outer) entry⟩

structure Heap.Suits (heap : Heap) : Prop where
  script {id : CallableId} {params : List String} {body : List Stmt} {globals : FrameId} {receiver : Value}
    (found : heap.callable? id = some (.bound (.script params body globals) receiver)) :
    ∃ object, receiver = .object object
  list {id : CallableId} {method : ListMethod} {receiver : Value}
    (found : heap.callable? id = some (.bound (.list method) receiver)) : ∃ list, receiver = .list list
  unbound (id : MethodId) (method : ListMethod) : heap.method? id ≠ some (.list method)

theorem Heap.Received.all_suit {comes : Nat → Task → Machine → Prop} {heap : Heap}
    (received : heap.Received world comes) : heap.Suits where
  script found := by
    rcases received.suits found with ⟨_, _, _, same⟩ | ⟨object, isObject, -⟩
    · cases same
    · exact ⟨object, isObject⟩
  list found := by
    rcases received.suits found with ⟨list, _, isList, -⟩ | ⟨_, -, free⟩
    · exact ⟨list, isList⟩
    · exact (free _ rfl).elim
  unbound := received.unbound

namespace Run

/-- The body of a method that has been read from an object begins, at its place in the text. Around it the receiver has
its name, and what is written directly in the body as that name denotes the object. -/
structure Begins (world : World) (sources : Program → Prop) (object : ObjectId) (params : List String)
    (body : List Stmt) (frame : FrameId) (p : Point) (n : Nat) (t : Task) (m : Machine) : Prop where
  task_eq : t = .runBody frame body
  visits : Visits world sources p n t m
  context_eq : ∃ c : Context, p.context = c.methodBody params
  around : ∃ around, m.heap.ancestor? frame 1 = some around ∧ m.heap.binding? around "this" = some (.object object)
  reads (free : "this" ∉ params) (k : Nat) :
    evaluate world (k + 1) (.lookup "this" (p.context.resolve "this")) (m.inFrame frame) =
      .ok (.object object) (m.inFrame frame)

theorem Enters.begins {move : Move} {params : List String} {body : List Stmt} {globals : FrameId} {object : ObjectId}
    {args : List Value}
    (enters : Enters world n move (.call (.bound (.script params body globals) (.object object)) args) m t' m')
    (reached : Reached world sources (n + 1) (.call (.bound (.script params body globals) (.object object)) args) m)
    (held : m.heap.HoldsMethod (.script params body globals)) :
    ∃ frame p, Begins world sources object params body frame p n t' m' := by
  obtain ⟨p, visits⟩ := reached.seen.visited
  obtain ⟨p₀, k, m₀, made, there, since⟩ := reached.seen.sourced.method held
  have inside : m.heap.HasFrame globals := there ▸ since.hasFrame made.sits.home.inside
  cases enters with
  | @methodBody _ _ _ _ _ around heap₁ frame heap₂ _ outer entry =>
    obtain ⟨next, bound⟩ := Heap.receives_of_frameWith inside outer entry
    refine ⟨frame, _, rfl, .methodBody visits outer entry made there since, ⟨p₀.context, rfl⟩, ⟨around, next, bound⟩,
      fun free k => ?_⟩
    have level : (p₀.methodBody params m₀.interpreter frame around).context.resolve "this" = 1 :=
      p₀.context.resolve_this free
    have binds : heap₂.Binds around "this" := by rw [Heap.Binds, bound]; rfl
    rw [level]
    exact evaluate_lookup ((Heap.get?_of_binds next binds).trans bound)

/-- Wherever a run comes by in which the host binds no method, receivers suit their methods, and no task of it fails
because one does not. When it calls a method of a script, the method has been read from an object, and to begin with
the name of the receiver denotes that object in the body. -/
theorem receivers_of_unforced (unforced : Unforced world sources n t m) :
    (∀ {w}, Passes world n t m w → w.heap.Suits) ∧
    (∀ {f : Fault}, f.AboutReceiver → ¬t.Fails world n m (.fault f)) ∧
    ∀ {params body globals receiver args}, t = .call (.bound (.script params body globals) receiver) args →
      ∃ object id, receiver = .object object ∧
        m.heap.ReadFrom world (Reached world sources) id (.script params body globals) (.object object) ∧
        ∀ {k move t' m'}, n = k + 1 → Enters world k move t m t' m' →
          ∃ frame p, Begins world sources object params body frame p k t' m' := by
  refine ⟨fun passes => (passes.received unforced.reached).all_suit, unforced.not_fails, ?_⟩
  rintro params body globals receiver args rfl
  obtain ⟨id, found⟩ := unforced.found
  obtain ⟨object, rfl⟩ := unforced.reached.received.all_suit.script found
  refine ⟨object, id, rfl, unforced.reached.received.readFrom found, ?_⟩
  rintro k move t' m' rfl enters
  exact enters.begins unforced.reached (.inr ⟨id, _, found⟩)

theorem unforced_of_made {text : String} {params : List String} {body : List Stmt} {args : List Expr}
    {values : List Value} (accepted : Program.ofText text =
      .ok [.exportAs "r" (.call (.property (.object [("m", .method params body)]) "m") args)])
    (arity : args.length = params.length) (ha : ∀ m, evaluateAll (.ofFiles []) 5 args m = .ok values m) :
    ∃ m, Unforced (.ofFiles []) (fun _ => True) 5 (.call (.bound (.script params body ⟨1⟩) (.object ⟨0⟩)) values) m := by
  have begun : Unforced (.ofFiles []) (fun _ => True) 8 _ (Machine.start none) :=
    .start (.text (.start none) accepted trivial) trivial
  have calling := (begun.enter .firstOfProgram).enter .exported
  obtain ⟨m, made, holds, found⟩ : ∃ m, evaluate (.ofFiles []) 4 (.object [("m", .method params body)])
      (Machine.start none) = .ok (.object ⟨0⟩) m ∧ m.heap.property ⟨0⟩ "m" = .method ⟨0⟩ ∧
        m.heap.method? ⟨0⟩ = some (.script params body ⟨1⟩) := ⟨_, rfl, rfl, rfl⟩
  have read := evaluate_offered made (.object holds found)
  exact ⟨_, calling.enter (.called read (Heap.callable?_newCallable_self _ _) arity (ha _))⟩

def givesThis (level : Nat) : List Stmt := [.giveBack (some (.lookup "this" level))]

/-- Before and after the call the receivers suit their methods, and in the body the name denotes the object. -/
theorem receivers_of_returned_this :
    let called : Task := .call (.bound (.script [] (givesThis 1) ⟨1⟩) (.object ⟨0⟩)) []
    ∃ m id, Unforced (.ofFiles []) (fun _ => True) 5 called m ∧
      m.heap.Suits ∧ (called.after (.ofFiles []) 5 m).heap.Suits ∧
      (∀ found, ¬called.Fails (.ofFiles []) 5 m (.fault (.methodReceiver found)) ∧
        ¬called.Fails (.ofFiles []) 5 m (.fault (.listReceiver found))) ∧
      m.heap.ReadFrom (.ofFiles []) (Reached (.ofFiles []) fun _ => True) id (.script [] (givesThis 1) ⟨1⟩)
        (.object ⟨0⟩) ∧
      ∃ frame m', Enters (.ofFiles []) 4 .call called m (.runBody frame (givesThis 1)) m' ∧
        evaluate (.ofFiles []) 1 (.lookup "this" 1) (m'.inFrame frame) = .ok (.object ⟨0⟩) (m'.inFrame frame) := by
  intro called
  have accepted : Program.ofText "export Object \x7b m: function() \x7b return this; \x7d \x7d.m() as r;" =
      .ok [.exportAs "r" (.call (.property (.object [("m", .method [] (givesThis 1))]) "m") [])] := by
    unfold givesThis
    cbv
  obtain ⟨m, unforced⟩ := unforced_of_made accepted rfl fun _ => rfl
  obtain ⟨suits, unblamed, calls⟩ := receivers_of_unforced unforced
  obtain ⟨object, id, same, readFrom, begins⟩ := calls rfl
  cases same
  obtain ⟨frame, m', enters⟩ : ∃ frame m', Enters (.ofFiles []) 4 .call called m (.runBody frame (givesThis 1)) m' :=
    ⟨_, _, .methodBody rfl rfl⟩
  obtain ⟨_, p, begun⟩ := begins rfl enters
  cases begun.task_eq
  obtain ⟨c, context⟩ := begun.context_eq
  have read := begun.reads List.not_mem_nil 0
  rw [context, c.resolve_this List.not_mem_nil] at read
  exact ⟨m, id, unforced, suits .begins, suits .ends, fun found => ⟨unblamed trivial, unblamed trivial⟩, readFrom,
    frame, m', enters, read⟩

/-- A parameter with the name of the receiver hides it in the body. -/
theorem parameter_hides_receiver :
    Program.ofText "export Object \x7b m: function(this) \x7b return this; \x7d \x7d.m(true) as r;" =
      .ok [.exportAs "r" (.call (.property (.object [("m", .method ["this"] (givesThis 0))]) "m")
        [.literal (.boolean true)])] ∧
    ∃ m, Unforced (.ofFiles []) (fun _ => True) 5
        (.call (.bound (.script ["this"] (givesThis 0) ⟨1⟩) (.object ⟨0⟩)) [.boolean true]) m ∧
      ∃ frame m' p, Enters (.ofFiles []) 4 .call
          (.call (.bound (.script ["this"] (givesThis 0) ⟨1⟩) (.object ⟨0⟩)) [.boolean true]) m
          (.runBody frame (givesThis 0)) m' ∧
        Visits (.ofFiles []) (fun _ => True) p 4 (.runBody frame (givesThis 0)) m' ∧
        evaluate (.ofFiles []) 1 (.lookup "this" (p.context.resolve "this")) (m'.inFrame frame) =
          .ok (.boolean true) (m'.inFrame frame) := by
  have accepted : Program.ofText "export Object \x7b m: function(this) \x7b return this; \x7d \x7d.m(true) as r;" =
      .ok [.exportAs "r" (.call (.property (.object [("m", .method ["this"] (givesThis 0))]) "m")
        [.literal (.boolean true)])] := by
    unfold givesThis
    cbv
  refine ⟨accepted, ?_⟩
  obtain ⟨m, unforced⟩ := unforced_of_made accepted rfl fun _ => rfl
  obtain ⟨id, found⟩ := unforced.found
  obtain ⟨around, heap₁, outer⟩ : ∃ around heap₁, m.heap.frameWith ⟨1⟩ [("this", .object ⟨0⟩)] = (around, heap₁) :=
    ⟨_, _, rfl⟩
  obtain ⟨frame, heap₂, entry⟩ : ∃ frame heap₂, heap₁.frameWith around [("this", .boolean true)] = (frame, heap₂) :=
    ⟨_, _, rfl⟩
  have enters : Enters (.ofFiles []) 4 .call
      (.call (.bound (.script ["this"] (givesThis 0) ⟨1⟩) (.object ⟨0⟩)) [.boolean true]) m
      (.runBody frame (givesThis 0)) { m with heap := heap₂ } := .methodBody outer entry
  obtain ⟨_, p, begun⟩ := enters.begins unforced.reached (.inr ⟨id, _, found⟩)
  cases begun.task_eq
  obtain ⟨c, context⟩ := begun.context_eq
  have bound : heap₂.binding? frame "this" = some (.boolean true) := Heap.binding?_of_frameWith entry
  have level : p.context.resolve "this" = 0 := by rw [context]; rfl
  have here : heap₂.ancestor? frame 0 = some frame := by rw [Heap.ancestor?, Heap.chain_eq]; rfl
  have binds : heap₂.Binds frame "this" := by rw [Heap.Binds, bound]; rfl
  rw [← level] at here
  exact ⟨m, unforced, frame, _, p, enters, begun.visits, evaluate_lookup ((Heap.get?_of_binds here binds).trans bound)⟩

end Run

end HookScript
