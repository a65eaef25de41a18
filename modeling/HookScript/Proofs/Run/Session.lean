import HookScript.Exchange
import HookScript.Proofs.Run.Moves

/-!
Everything that a host and its scripts can do together. A session is what the host has done with one interpreter
so far, in any order and however each thing went. From its machines the runs begin, and what they reach are the
tasks in them, at any depth of calls and imports.
-/

namespace HookScript

namespace Host

variable {α : Type}

/-- The machine after something that the host did, however it went. -/
def after (act : Host α) (m : Machine) : Machine :=
  match act m with
  | .ok _ m' => m'
  | .error _ m' => m'

end Host

namespace Machine

def running (m : Machine) (place : Path) : Machine :=
  { m with interpreter :=
    { m.interpreter with directory := some place.parent, imports := m.interpreter.imports ++ [place] } }

def done (m : Machine) : Machine :=
  { m with interpreter := { m.interpreter with imports := m.interpreter.imports.dropLast } }

end Machine

/-- The machines that a host can have at hand, when the programs that it runs are among `sources`. -/
inductive Session (world : World) (sources : Program → Prop) : Machine → Prop
  | start (directory : Option Path) : Session world sources (Machine.start directory)
  | runText {m} (between : Session world sources m) (fuel : Nat) (text : String)
    (source : ∀ program, Program.ofText text = .ok program → sources program) :
    Session world sources (Host.after (Host.runText world fuel text) m)
  | runFile {m} (between : Session world sources m) (fuel : Nat) (path : Path)
    (source : ∀ place text program, world.canonicalize path = .ok place → world.readText place = .ok text →
      Program.ofText text = .ok program → sources program) :
    Session world sources (Host.after (Host.runFile world fuel path) m)
  | declare {m} (between : Session world sources m) (name : String) (value : Value) :
    Session world sources (Host.after (Host.declare name value) m)
  | callValue {m} (between : Session world sources m) (fuel : Nat) (value : Value) (args : List Value) :
    Session world sources (Host.after (Host.callValue world fuel value args) m)
  | callOn {m} (between : Session world sources m) (fuel : Nat) (value receiver : Value) (args : List Value) :
    Session world sources (Host.after (Host.callOn world fuel value receiver args) m)
  | exchange {m} (between : Session world sources m) (exchange : Exchange) :
    Session world sources (Host.after (Host.ofRun (Run.changeHeap exchange.toObject)) m)

namespace Run

inductive Starts (world : World) (sources : Program → Prop) (n : Nat) : Task → Machine → Prop
  | text {text program m} (between : Session world sources m) (accepted : Program.ofText text = .ok program)
    (source : sources program) : Starts world sources n (.executeProgram program) m
  | file {text program place m} (between : Session world sources m) (accepted : Program.ofText text = .ok program)
    (source : sources program) : Starts world sources n (.executeProgram program) (m.running place)
  | call {id callable args m} (between : Session world sources m) (found : m.heap.callable? id = some callable)
    (arity : args.length = callable.arity) : Starts world sources n (.call callable args) m
  | callOn {method receiver args m} (between : Session world sources m) (held : m.heap.HoldsMethod method)
    (arity : args.length = method.arity) : Starts world sources n (.call (.bound method receiver) args) m

inductive Reached (world : World) (sources : Program → Prop) : Nat → Task → Machine → Prop
  | start {n t m} (starts : Starts world sources n t m) : Reached world sources n t m
  | enter {n move t m t' m'} (reached : Reached world sources (n + 1) t m)
    (enters : Enters world n move t m t' m') : Reached world sources n t' m'

end Run

namespace Host

variable {α : Type} (world : World) (fuel : Nat) (m : Machine)

theorem modify_eq (change : Machine → Machine) : (modify change : Host PUnit) = fun m => .ok () (change m) := rfl

theorem after_ofRun (run : Run α) : Host.after (Host.ofRun run) m = m.after run := by
  unfold Host.after Host.ofRun Machine.after
  cases run m with
  | ok a m' => rfl
  | error e m' => cases e <;> rfl

theorem after_runText (text : String) : Host.after (runText world fuel text) m = m ∨
    ∃ program, Program.ofText text = .ok program ∧
      Host.after (runText world fuel text) m = Task.after world fuel (.executeProgram program) m := by
  cases accepted : Program.ofText text with
  | error errors =>
    refine .inl ?_
    unfold runText
    rw [accepted]
    rfl
  | ok program =>
    refine .inr ⟨program, rfl, ?_⟩
    unfold runText
    rw [accepted]
    exact after_ofRun m _

theorem after_runFile (path : Path) : Host.after (runFile world fuel path) m = m ∨
    ∃ place text program, world.canonicalize path = .ok place ∧ world.readText place = .ok text ∧
      Program.ofText text = .ok program ∧ Host.after (runFile world fuel path) m =
        (Task.after world fuel (.executeProgram program) (m.running place)).done := by
  unfold runFile Host.after
  cases found : world.canonicalize path with
  | error e => exact .inl rfl
  | ok place =>
    simp only [Host.ofExcept, bind, EStateM.bind]
    cases read : world.readText place with
    | error e => exact .inl rfl
    | ok text =>
      dsimp only
      cases accepted : Program.ofText text with
      | error errors => exact .inl rfl
      | ok program =>
        refine .inr ⟨place, text, program, rfl, read, accepted, ?_⟩
        change _ = (Machine.after (Run.executeProgram world fuel program) (m.running place)).done
        simp only [modify_eq, ofRun, Machine.after]
        cases run : Run.executeProgram world fuel program (m.running place) with
        | ok a m' =>
          rw [Machine.running] at run
          simp only [run]
          rfl
        | error e m' =>
          rw [Machine.running] at run
          simp only [run]
          cases e <;> rfl

theorem after_call (callable : Callable) (args : List Value) : Host.after (call world fuel callable args) m = m ∨
    args.length = callable.arity ∧
      Host.after (call world fuel callable args) m = Task.after world fuel (.call callable args) m := by
  rw [call, after_ofRun]
  cases checked : callable.checkArity args.length with
  | error e => exact .inl rfl
  | ok u => exact .inr ⟨Callable.checkArity_ok checked, rfl⟩

theorem after_callValue (value : Value) (args : List Value) : Host.after (callValue world fuel value args) m = m ∨
    ∃ id callable, m.heap.callable? id = some callable ∧ args.length = callable.arity ∧
      Host.after (callValue world fuel value args) m = Task.after world fuel (.call callable args) m := by
  rcases Run.asCallable_eq value m with ⟨id, callable, -, found, run⟩ | ⟨f, run⟩
  · have same : Host.after (callValue world fuel value args) m = Host.after (call world fuel callable args) m := by
      simp only [callValue, Host.after, bind, EStateM.bind, ofRun, run]
    rw [same]
    rcases after_call world fuel m callable args with refused | ⟨arity, called⟩
    · exact .inl refused
    · exact .inr ⟨id, callable, found, arity, called⟩
  · refine .inl ?_
    simp only [callValue, Host.after, bind, EStateM.bind, ofRun, run]

theorem asMethod_eq (value : Value) (m : Machine) :
    (∃ method, m.heap.HoldsMethod method ∧ asMethod value m = .ok method m) ∨
      ∃ shown, asMethod value m = .error (.fault (.notCallable shown)) m := by
  cases value with
  | method id =>
    simp only [asMethod, Run.readHeap, bind, EStateM.bind]
    cases found : m.heap.method? id with
    | none => exact .inr ⟨_, rfl⟩
    | some method => exact .inl ⟨method, .inl ⟨id, found⟩, rfl⟩
  | callable id =>
    simp only [asMethod, Run.readHeap, bind, EStateM.bind]
    cases found : m.heap.callable? id with
    | none => exact .inr ⟨_, rfl⟩
    | some callable =>
      cases callable with
      | bound method receiver => exact .inl ⟨method, .inr ⟨id, receiver, found⟩, rfl⟩
      | function | builtin => exact .inr ⟨_, rfl⟩
  | _ => exact .inr ⟨_, rfl⟩

theorem asMethod_ok {value : Value} {m m₁ : Machine} {method : Method} (found : asMethod value m = .ok method m₁) :
    m.heap.HoldsMethod method ∧ m₁ = m := by
  rcases asMethod_eq value m with ⟨other, held, run⟩ | ⟨shown, run⟩
  · rw [run] at found
    cases found
    exact ⟨held, rfl⟩
  · rw [run] at found
    cases found

theorem after_callOn (value receiver : Value) (args : List Value) :
    Host.after (callOn world fuel value receiver args) m = m ∨
    ∃ method, m.heap.HoldsMethod method ∧ args.length = method.arity ∧
      Host.after (callOn world fuel value receiver args) m =
        Task.after world fuel (.call (.bound method receiver) args) m := by
  rcases asMethod_eq value m with ⟨method, held, run⟩ | ⟨f, run⟩
  · cases bound : method.bind receiver with
    | error e =>
      refine .inl ?_
      simp only [callOn, Host.after, bind, EStateM.bind, ofRun, run, bound, Run.ofExcept, Run.fault]
    | ok callable =>
      obtain rfl := Method.bind_ok bound
      have same : Host.after (callOn world fuel value receiver args) m =
          Host.after (call world fuel (.bound method receiver) args) m := by
        simp only [callOn, Host.after, bind, EStateM.bind, ofRun, run, bound, Run.ofExcept]
      rw [same]
      rcases after_call world fuel m (.bound method receiver) args with refused | ⟨arity, called⟩
      · exact .inl refused
      · exact .inr ⟨method, held, arity, called⟩
  · refine .inl ?_
    simp only [callOn, Host.after, bind, EStateM.bind, ofRun, run]

end Host

namespace Exchange

variable {S : Nat → Task → Machine → Prop}

theorem grows_decoder (response : Response) (format : BodyFormat) (heap : Heap) :
    heap.Grows S (response.decoder format heap).2 where
  extended := by
    have data : heap.Grows S (heap.newDecoder format response.body).2 := Heap.SameCode.grows ⟨rfl, rfl, rfl⟩
    exact data.extended.trans (Heap.extends_newMethod _ _)
  function held := .inl held
  method := by
    rintro params body globals (⟨id, found⟩ | held)
    · rcases Heap.method?_newMethod _ found with old | new
      · exact .inl (.inl ⟨id, old⟩)
      · cases new
    · exact .inl (.inr held)

theorem grows_toObject (exchange : Exchange) (heap : Heap) : heap.Grows S (exchange.toObject heap).2 := by
  cases exchange with
  | before request => exact Heap.SameCode.grows ⟨rfl, rfl, rfl⟩
  | after response =>
    have headers : heap.Grows S (response.headers.toObject heap).2 := Heap.SameCode.grows ⟨rfl, rfl, rfl⟩
    have decoders := (grows_decoder (S := S) response .json (response.headers.toObject heap).2).trans
      (grows_decoder response .xml _)
    exact (headers.trans decoders).trans (Heap.SameCode.grows ⟨rfl, rfl, rfl⟩)

end Exchange

namespace Session

variable {world : World} {sources : Program → Prop} {m : Machine}

theorem induction_of_acts {P : Machine → Prop} (start : ∀ directory, P (Machine.start directory))
    (ran : ∀ n t m, P m → Run.Starts world sources n t m → P (t.after world n m))
    (moved : ∀ m directory imports, P m → P { m with interpreter := { m.interpreter with directory, imports } })
    (declared : ∀ m frame name value, P m → P { m with heap := m.heap.declare frame name value })
    (exchanged : ∀ m (exchange : Exchange), P m → P { m with heap := (exchange.toObject m.heap).2 })
    (session : Session world sources m) : P m := by
  induction session with
  | start directory => exact start directory
  | runText between fuel text source ih =>
    rcases Host.after_runText world fuel _ text with same | ⟨program, accepted, after⟩
    · rwa [same]
    · rw [after]
      exact ran _ _ _ ih (.text between accepted (source program accepted))
  | runFile between fuel path source ih =>
    rcases Host.after_runFile world fuel _ path with
      same | ⟨place, text, program, found, read, accepted, after⟩
    · rwa [same]
    · rw [after]
      exact moved _ _ _ (ran _ _ _ (moved _ _ _ ih)
        (.file between accepted (source place text program found read accepted)))
  | declare between name value ih => exact declared _ _ name value ih
  | callValue between fuel value args ih =>
    rcases Host.after_callValue world fuel _ value args with
      same | ⟨id, callable, found, arity, after⟩
    · rwa [same]
    · rw [after]
      exact ran _ _ _ ih (.call between found arity)
  | callOn between fuel value receiver args ih =>
    rcases Host.after_callOn world fuel _ value receiver args with
      same | ⟨method, held, arity, after⟩
    · rwa [same]
    · rw [after]
      exact ran _ _ _ ih (.callOn between held arity)
  | exchange between exchange ih => exact exchanged _ exchange ih

theorem induction {P : Machine → Prop} (start : ∀ directory, P (Machine.start directory))
    (ran : ∀ n t m, P m → Run.Starts world sources n t m → P (t.after world n m))
    (moved : ∀ m directory imports, P m → P { m with interpreter := { m.interpreter with directory, imports } })
    (grown : ∀ m heap, P m → m.heap.Grows (fun _ _ _ => False) heap → P { m with heap })
    (session : Session world sources m) : P m :=
  session.induction_of_acts start ran moved (fun _ _ _ _ here => grown _ _ here (Heap.grows_declare _ _ _ _))
    fun _ exchange here => grown _ _ here (exchange.grows_toObject _)

theorem hook (between : Session world sources m) (exchange : Exchange) (fuel : Nat) (script : String)
    (source : ∀ program, Program.ofText script = .ok program → sources program) :
    Session world sources (Host.after (exchange.hook world fuel script) m) := by
  cases accepted : Program.ofText script with
  | error errors =>
    have same : Host.after (exchange.hook world fuel script) m = m := by
      unfold Exchange.hook
      rw [accepted]
      rfl
    rwa [same]
  | ok program =>
    have prepared := (between.exchange exchange).declare exchange.name (.object (exchange.toObject m.heap).1)
    have ran := prepared.runText fuel script source
    have same : Host.after (exchange.hook world fuel script) m = Host.after (Host.runText world fuel script)
        (Host.after (Host.declare exchange.name (.object (exchange.toObject m.heap).1))
          (Host.after (Host.ofRun (Run.changeHeap exchange.toObject)) m)) := by
      simp only [Exchange.hook, Host.runText, accepted, Host.after, Host.ofExcept, bind, EStateM.bind]
      simp only [Host.ofRun, Run.changeHeap_eq, Host.declare, Host.modify_eq]
      cases Run.executeProgram world fuel program _ with
      | ok u m₁ => rfl
      | error e m₁ => cases e <;> rfl
    rwa [same]

end Session

structure Machine.Idle (m : Machine) : Prop where
  scope_eq : m.interpreter.scope = m.interpreter.globals
  home_eq : m.interpreter.home = [⟨1⟩, ⟨0⟩]
  home : m.interpreter.Home m.heap

theorem Session.idle {world : World} {sources : Program → Prop} {m : Machine}
    (session : Session world sources m) : m.Idle := by
  refine session.induction (fun directory => ?_) (fun n t m idle _ => ?_) (fun m directory imports idle => ?_)
    fun m heap idle grows => ?_
  · exact ⟨rfl, rfl, Interpreter.home_start _ _ _⟩
  · have later : m.Later (fun _ _ _ => True) (t.after world n m) := Task.later Run.closed_true _ _ trivial
    obtain ⟨scope, home⟩ := Run.stays_of_later later
    refine ⟨?_, home.trans idle.home_eq, (idle.home.extends later.grows.extended).of_home_eq home⟩
    rw [scope, later.globals_eq, idle.scope_eq]
  · exact ⟨idle.scope_eq, idle.home_eq, idle.home.of_home_eq rfl⟩
  · exact ⟨idle.scope_eq, idle.home_eq, idle.home.extends grows.extended⟩

theorem Run.Starts.idle {world : World} {sources : Program → Prop} {n : Nat} {t : Task} {m : Machine}
    (starts : Run.Starts world sources n t m) : m.Idle := by
  cases starts with
  | text between | call between | callOn between => exact between.idle
  | file between =>
    have idle := between.idle
    exact ⟨idle.scope_eq, idle.home_eq, idle.home.of_home_eq rfl⟩

end HookScript
