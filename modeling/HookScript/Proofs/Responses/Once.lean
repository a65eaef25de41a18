import HookScript.Proofs.Contents.DeepCopy
import HookScript.Proofs.Responses.Decoders
import HookScript.Proofs.Run.Order

/-!
Bodies of responses in the runs of hooks. Each of the two methods of a response has a decoder of its own, which the
copies of the method share with it. However a script comes by them and whatever it does in between, the first call
of a decoder decodes the body, and the others give the same value again; or all of them fail in the same way.
-/

namespace HookScript

namespace Copying

theorem copyEach_methods {copy : Value → Copying → Value × Copying}
    (each : ∀ (id : MethodId) c, (copy (.method id) c).1 = .method id) (values : List Value) (c : Copying) :
    (copyEach copy values c).1.length = values.length ∧ ∀ (i : Nat) (id : MethodId),
      values[i]? = some (.method id) → (copyEach copy values c).1[i]? = some (.method id) := by
  induction values generalizing c with
  | nil => exact ⟨rfl, fun _ _ nowhere => nowhere⟩
  | cons value rest ih =>
    obtain ⟨length_eq, others⟩ := ih (copy value c).2
    refine ⟨congrArg (· + 1) length_eq, fun i id there => ?_⟩
    cases i with
    | zero =>
      cases there
      exact congrArg some (each id c)
    | succ i => exact others i id there

theorem copyWithin_method (depth : Nat) (id : MethodId) (c : Copying) :
    (copyWithin depth (.method id) c).1 = .method id := by
  cases depth <;> rfl

end Copying

namespace Heap

variable {heap : Heap} {value : Value} {name : String} {method : Method}

theorem get?_of_property {id : ObjectId} {methodId : MethodId} (holds : heap.property id name = .method methodId) :
    (heap.properties id).get? name = some (.method methodId) := by
  unfold property at holds
  cases found : (heap.properties id).get? name with
  | none =>
    rw [found] at holds
    cases holds
  | some value =>
    rw [found] at holds
    exact congrArg some holds

theorem property_deepCopy {id : ObjectId} {methodId : MethodId} (holds : heap.property id name = .method methodId) :
    ∃ copy heap', heap.deepCopy (.object id) = (.object copy, heap') ∧ heap'.property copy name = .method methodId := by
  let entries := (heap.properties id).entries
  let begun := ((Copying.start heap).beginObject id).2
  let copied := Copying.copyEach (Copying.copyWithin heap.containerCount) (entries.map (·.2)) begun
  let copy : ObjectId := ⟨heap.objects.size⟩
  have same : heap.deepCopy (.object id) = (.object copy, copied.2.heap.setProperties copy
      (.ofList ((entries.map (·.1)).zip copied.1))) := rfl
  refine ⟨copy, _, same, ?_⟩
  have larger : begun.heap.Larger copied.2.heap :=
    (Copying.later_copyEach (Copying.later_copyWithin _) (entries.map (·.2))
      ⟨.refl _, fun _ => rfl, fun _ => rfl⟩).keeps.larger
  have one_more : begun.heap.objects.size = heap.objects.size + 1 := Array.size_push _
  have inside : copy.index < copied.2.heap.objects.size :=
    Nat.lt_of_lt_of_le (Nat.lt_of_lt_of_eq (Nat.lt_succ_self _) one_more.symm) larger.objects
  obtain ⟨length_eq, kept⟩ := Copying.copyEach_methods (Copying.copyWithin_method heap.containerCount)
    (entries.map (·.2)) begun
  have found := get?_of_property holds
  rw [← (heap.properties id).ofList_zip, Table.get?_ofList_zip (by simp)] at found
  obtain ⟨i, place, there⟩ := Option.bind_eq_some_iff.1 found
  have moved : (Table.ofList ((entries.map (·.1)).zip copied.1)).get? name = some (.method methodId) := by
    rw [Table.get?_ofList_zip (by simpa using length_eq), place]
    exact kept i methodId there
  rw [property, Copying.properties_setProperties inside, moved, Option.getD_some]

theorem offers_deepCopy (offers : heap.Offers value name method) :
    (heap.deepCopy value).2.Offers (heap.deepCopy value).1 name method := by
  have code := sameCode_deepCopy heap value
  cases offers with
  | object holds found =>
    obtain ⟨copy, heap', same, holds'⟩ := property_deepCopy holds
    rw [same] at code ⊢
    exact .object holds' (by rwa [method?, code.methods])
  | list known => exact .list known

end Heap

namespace Response

/-- The decoder of a response for each format, where the first of them is made. -/
def decoderIn (heap : Heap) : BodyFormat → DecoderId
  | .json => ⟨heap.decoders.size⟩
  | .xml => ⟨heap.decoders.size + 1⟩

def methodIn (heap : Heap) : BodyFormat → MethodId
  | .json => ⟨heap.methods.size⟩
  | .xml => ⟨heap.methods.size + 1⟩

theorem offers_toObject (response : Response) (heap : Heap) (format : BodyFormat) :
    (response.toObject heap).2.Offers (.object (response.toObject heap).1) format.name
      (.decoder format (decoderIn heap format)) := by
  have holds (format : BodyFormat) : (response.toObject heap).2.property (response.toObject heap).1 format.name =
      .method (methodIn heap format) := by
    have last (objects : Array (Table Value)) (table : Table Value) :
        (objects.push table).getD objects.size .empty = table := by simp
    simp only [toObject, decoder, Heap.newObject, Heap.property, Heap.properties, last, Table.get?_ofList]
    cases format <;> simp [BodyFormat.name, methodIn, Heap.newDecoder, Heap.newMethod, Headers.toObject,
      Heap.newObject, List.lookup]
  cases format <;> exact .object (holds _) (by
    simp [toObject, decoder, decoderIn, methodIn, Heap.newDecoder, Heap.newMethod, Heap.newObject, Headers.toObject,
      Heap.method?, Array.getElem_push])

theorem decoder?_toObject (response : Response) (heap : Heap) (format : BodyFormat) :
    (response.toObject heap).2.decoder? (decoderIn heap format) = some ⟨format, response.body, none⟩ := by
  cases format <;> simp [toObject, decoder, decoderIn, Heap.decoder?, Heap.newDecoder, Heap.newMethod, Heap.newObject,
    Headers.toObject, Array.getElem_push]

end Response

def Machine.given (m : Machine) (exchange : Exchange) : Machine :=
  let (object, heap) := exchange.toObject m.heap
  { m with heap := heap.declare m.interpreter.builtins exchange.name (.object object) }

theorem Exchange.hook_eq (exchange : Exchange) (world : World) (fuel : Nat) {script : String} {program : Program}
    (accepted : Program.ofText script = .ok program) (m : Machine) : exchange.hook world fuel script m =
      (Host.ofRun (Run.executeProgram world fuel program) >>= fun _ => Host.exports) (m.given exchange) := by
  simp only [hook, accepted, Host.ofExcept, bind, EStateM.bind, Host.ofRun, Run.changeHeap_eq, Host.declare,
    Host.modify_eq, Machine.given]

namespace Run

structure DecoderCall (format : BodyFormat) (id : DecoderId) where
  fuel : Nat
  receiver : Value
  args : List Value
  machine : Machine

namespace DecoderCall

variable {format : BodyFormat} {id : DecoderId}

def moment (call : DecoderCall format id) : Moment :=
  ⟨call.fuel + 1, .call (.bound (.decoder format id) call.receiver) call.args, call.machine⟩

def result (world : World) (call : DecoderCall format id) : EStateM.Result Stop Machine Value :=
  Run.call world (call.fuel + 1) (.bound (.decoder format id) call.receiver) call.args call.machine

end DecoderCall

structure DecoderHandles (world : World) (format : BodyFormat) (id : DecoderId) : Prop where
  /-- A method can be read from whatever has it, under any name for it. -/
  read {n : Nat} {target : Expr} {name : String} {receiver : Value} {m m₁ : Machine}
    (ht : evaluate world n target m = .ok receiver m₁)
    (offers : m₁.heap.Offers receiver name (.decoder format id)) :
    ∃ bound m₂, evaluate world (n + 1) (.property target name) m = .ok (.callable bound) m₂ ∧
      m₂.heap.callable? bound = some (.bound (.decoder format id) receiver)
  /-- A clone has the method of what it is a clone of, under the same name. -/
  cloned {n : Nat} {name : String} {receiver : Value} {m : Machine}
    (offers : m.heap.Offers receiver name (.decoder format id)) :
    ∃ copy heap, call world (n + 1) (.builtin .clone) [receiver] m = .ok copy { m with heap } ∧
      heap.Offers copy name (.decoder format id)
  /-- A method that has been read stays what it is. -/
  stored {comes : Nat → Task → Machine → Prop} {heap heap' : Heap} {bound : CallableId} {receiver : Value}
    (course : Course world comes heap heap')
    (found : heap.callable? bound = some (.bound (.decoder format id) receiver)) :
    heap'.callable? bound = some (.bound (.decoder format id) receiver)
  called {n : Nat} {callee : Expr} {bound : CallableId} {receiver : Value} {m m₁ : Machine}
    (hc : evaluate world (n + 1) callee m = .ok (.callable bound) m₁)
    (found : m₁.heap.callable? bound = some (.bound (.decoder format id) receiver)) :
    ∃ call : DecoderCall format id, call.receiver = receiver ∧ call.machine = m₁ ∧
      Moment.ComesTo world ⟨n + 2, .evaluate (.call callee []), m⟩ call.moment ∧
      evaluate world (n + 2) (.call callee []) m = call.result world

/-- The calls of a decoder in a run: all of them fail as a fresh decode does and change nothing, or all of them give the
same value, and at most one of them decodes. -/
structure DecodesOnce (world : World) (whole : Moment) (format : BodyFormat) (body : List UInt8) (id : DecoderId) :
    Prop where
  asks (call : DecoderCall format id) : call.result world = askDecoder (decodeBody world) id call.machine
  fails {error : DecodeError} (bad : world.Fails format body error) {call : DecoderCall format id}
    (came : whole.ComesTo world call.moment) :
    decodeBody world format body call.machine = .error (.fault (.decoding error)) call.machine ∧
      call.result world = .error (.fault (.decoding error)) call.machine
  gives (good : ∀ error, ¬world.Fails format body error) : ∃ value, world.Reads format body value ∧
    ∀ call : DecoderCall format id, whole.ComesTo world call.moment → ∃ m, call.result world = .ok value m
  empty (nothing : body = []) {call : DecoderCall format id} (came : whole.ComesTo world call.moment) :
    ∃ m, call.result world = .ok .nil m
  /-- After a success nothing is decoded, whatever decoding would do. -/
  again {call other : DecoderCall format id} (before : Before world whole call.moment other.moment) {value : Value}
    {m : Machine} (ran : call.result world = .ok value m) : other.result world = .ok value other.machine ∧
      ∀ decode, askDecoder decode id other.machine = .ok value other.machine
  inOrder {call other : DecoderCall format id} (came : whole.ComesTo world call.moment)
    (came' : whole.ComesTo world other.moment) :
    call = other ∨ Before world whole call.moment other.moment ∨ Before world whole other.moment call.moment

section

variable {world : World} {whole : Moment} {format : BodyFormat} {body : List UInt8} {id : DecoderId} {value : Value}
  {m : Machine} {call other : DecoderCall format id}

theorem DecoderCall.result_eq (call : DecoderCall format id) :
    call.result world = askDecoder (decodeBody world) id call.machine :=
  congrFun (callDecoder_eq_ask world id) call.machine

theorem DecoderCall.after_moment (ran : call.result world = .ok value m) : call.moment.after world = m :=
  Machine.after_of_ok ran

theorem DecoderCall.eq_of_comesTo (came : call.moment.ComesTo world other.moment) : call = other := by
  obtain ⟨fuel, receiver, args, machine⟩ := call
  obtain ⟨fuel', receiver', args', machine'⟩ := other
  dsimp only [Moment.ComesTo, moment] at came
  cases came with
  | refl => rfl
  | inside enters => cases enters

theorem followed_true : Followed world fun _ _ _ => True := fun _ _ _ _ _ _ _ _ => trivial

variable (fresh : whole.machine.heap.decoder? id = some ⟨format, body, none⟩)
include fresh

theorem DecoderCall.answers (came : whole.ComesTo world call.moment) :
    (∃ value m, world.Reads format body value ∧ call.result world = .ok value m ∧
      m.heap.decoder? id = some ⟨format, body, some value⟩) ∨
    ∃ error, world.Fails format body error ∧
      decodeBody world format body call.machine = .error (.fault (.decoding error)) call.machine ∧
      call.result world = .error (.fault (.decoding error)) call.machine := by
  have keeps := (Moment.ComesTo.course followed_true trivial came).2.1.keepsDecoders
  obtain ⟨decoded, found⟩ : ∃ decoded, call.machine.heap.decoder? id = some ⟨format, body, decoded⟩ := keeps.body fresh
  cases decoded with
  | some value =>
    exact .inl ⟨value, call.machine, keeps.reads fresh found, call.result_eq.trans (askDecoder_of_kept found _), found⟩
  | none =>
    rcases callDecoder_of_fresh world found with ⟨value, heap, reads, same, -, ran⟩ | ⟨error, bad, failed, ran⟩
    · refine .inl ⟨value, _, reads, ran, ?_⟩
      have still : heap.decoder? id = some ⟨format, body, none⟩ := by rwa [Heap.decoder?, same]
      rw [Heap.decoder?_remember, if_pos rfl, still, Option.map_some]
    · exact .inr ⟨error, bad, failed, ran⟩

theorem DecoderCall.kept (came : whole.ComesTo world call.moment) (ran : call.result world = .ok value m) :
    (call.moment.after world).heap.decoder? id = some ⟨format, body, some value⟩ := by
  rw [call.after_moment ran]
  rcases call.answers fresh came with ⟨value', m', -, ran', kept⟩ | ⟨_, -, -, failed⟩
  · cases ran.symm.trans ran'
    exact kept
  · cases ran.symm.trans failed

/-- What one call gives is what is kept at the end of the run, so any two calls give the same. -/
theorem DecoderCall.value_eq (came : whole.ComesTo world call.moment) (came' : whole.ComesTo world other.moment)
    {value' : Value} {m' : Machine} (ran : call.result world = .ok value m)
    (ran' : other.result world = .ok value' m') : value = value' := by
  have last := (Moment.ComesTo.course followed_true trivial came).2.2.keepsDecoders.kept (call.kept fresh came ran)
  have last' := (Moment.ComesTo.course followed_true trivial came').2.2.keepsDecoders.kept (other.kept fresh came' ran')
  cases last.symm.trans last'
  rfl

theorem decodesOnce_of_fresh : DecodesOnce world whole format body id where
  asks call := call.result_eq
  fails {error} bad {call} came := by
    rcases call.answers fresh came with ⟨_, _, reads, -⟩ | ⟨error', bad', failed, ran⟩
    · exact absurd bad (reads.not_fails error)
    · cases bad.2.symm.trans bad'.2
      exact ⟨failed, ran⟩
  gives good := by
    have succeeds (call : DecoderCall format id) (came : whole.ComesTo world call.moment) :
        ∃ value m, world.Reads format body value ∧ call.result world = .ok value m := by
      rcases call.answers fresh came with ⟨value, m, reads, ran, -⟩ | ⟨error, bad, -⟩
      · exact ⟨value, m, reads, ran⟩
      · exact absurd bad (good error)
    by_cases any : ∃ call : DecoderCall format id, whole.ComesTo world call.moment
    · obtain ⟨call, came⟩ := any
      obtain ⟨value, m, reads, ran⟩ := succeeds call came
      refine ⟨value, reads, fun other came' => ?_⟩
      obtain ⟨value', m', -, ran'⟩ := succeeds other came'
      exact ⟨m', DecoderCall.value_eq fresh came came' ran ran' ▸ ran'⟩
    · obtain ⟨value, _, reads, -⟩ | ⟨error, bad, -⟩ := decodeBody_eq world format body whole.machine
      · exact ⟨value, reads, fun call came => absurd ⟨call, came⟩ any⟩
      · exact absurd bad (good error)
  empty nothing {call} came := by
    rcases call.answers fresh came with ⟨_, m, reads, ran, -⟩ | ⟨_, ⟨something, -⟩, -⟩
    · cases reads with
      | empty => exact ⟨m, ran⟩
      | document something => exact absurd nothing something
    · exact absurd nothing something
  again {call other} before _ _ ran := by
    have kept := call.kept fresh before.within.1 ran
    have nothing := askDecoder_of_kept ((before.course followed_true trivial).keepsDecoders.kept kept)
    exact ⟨other.result_eq.trans (nothing (decodeBody world)), nothing⟩
  inOrder came came' := by
    rcases Moment.ComesTo.inOrder came came' with inside | inside | before
    · exact .inl (DecoderCall.eq_of_comesTo inside)
    · exact .inl (DecoderCall.eq_of_comesTo inside).symm
    · exact .inr before

end

theorem decoderHandles (world : World) (format : BodyFormat) (id : DecoderId) : DecoderHandles world format id where
  read ht offers := ⟨_, _, evaluate_offered ht offers, Heap.callable?_newCallable_self _ _⟩
  cloned offers := ⟨_, _, rfl, Heap.offers_deepCopy offers⟩
  stored course found := course.extends.callable found
  called {n _ _ receiver _ m₁} hc found :=
    ⟨⟨n, receiver, [], m₁⟩, rfl, rfl, .inside (.called hc found rfl rfl) .refl, evaluate_call hc found rfl rfl⟩

end Run

/-- In the run of a hook, the two methods of a response decode its body at most once each. -/
theorem Response.decoded_once (response : Response) (m : Machine) (world : World) (fuel : Nat) {script : String}
    {program : Program} (accepted : Program.ofText script = .ok program) :
    let whole : Run.Moment := ⟨fuel, .executeProgram program, m.given (.after response)⟩
    (Exchange.after response).hook world fuel script m =
      (Host.ofRun (Run.executeProgram world fuel program) >>= fun _ => Host.exports) whole.machine ∧
    decoderIn m.heap .json ≠ decoderIn m.heap .xml ∧ ∀ format,
      whole.machine.heap.Offers (.object (response.toObject m.heap).1) format.name
        (.decoder format (decoderIn m.heap format)) ∧
      Run.DecoderHandles world format (decoderIn m.heap format) ∧
      Run.DecodesOnce world whole format response.body (decoderIn m.heap format) := by
  refine ⟨Exchange.hook_eq _ world fuel accepted m, by simp [decoderIn], fun format => ⟨?_, ?_, ?_⟩⟩
  · cases response.offers_toObject m.heap format with
    | object holds found => exact .object holds found
  · exact Run.decoderHandles world format _
  · exact Run.decodesOnce_of_fresh (response.decoder?_toObject m.heap format)

def Response.emptyList : Response := ⟨200, "", .empty, "[]".toUTF8.toList⟩

def listReading : World :=
  { World.ofFiles [] with
    json body := if body = Response.emptyList.body then .ok (.list []) else .error "expected value at line 1 column 1" }

def decodingTwice : List Stmt :=
  [.expression (.call (.property (.lookup "response" 1) "json") []),
    .expression (.call (.property (.call (.lookup "clone" 1) [.lookup "response" 1]) "json") [])]

def Run.readsDecoder (n : Nat) (callee : Expr) (object : ObjectId) (m : Machine) : Bool :=
  match evaluate listReading n callee m with
  | .ok (.callable bound) m₁ =>
    match m₁.heap.callable? bound with
    | some (.bound (.decoder .json id) (.object receiver)) => decide (id = ⟨0⟩ ∧ receiver = object)
    | _ => false
  | _ => false

theorem Run.evaluate_of_readsDecoder {n : Nat} {callee : Expr} {object : ObjectId} {m : Machine}
    (reads : readsDecoder n callee object m = true) : ∃ bound m₁,
    evaluate listReading n callee m = .ok (.callable bound) m₁ ∧
      m₁.heap.callable? bound = some (.bound (.decoder .json ⟨0⟩) (.object object)) := by
  unfold readsDecoder at reads
  split at reads
  · next bound m₁ ran =>
    split at reads
    · next found =>
      obtain ⟨rfl, rfl⟩ := of_decide_eq_true reads
      exact ⟨bound, m₁, ran, found⟩
    · cases reads
  · cases reads

/-- The call of the clone gives the list of the first call again. -/
theorem Response.decoded_once_of_emptyList :
    let whole : Run.Moment := ⟨9, .executeProgram decodingTwice, (Machine.start none).given (.after .emptyList)⟩
    Program.ofText "response.json(); clone(response).json();" = .ok decodingTwice ∧
    ∃ (call other : Run.DecoderCall .json ⟨0⟩) (list : ListId) (later : Machine), call.receiver ≠ other.receiver ∧
      Run.Before listReading whole call.moment other.moment ∧ call.result listReading = .ok (.list list) later ∧
      other.result listReading = .ok (.list list) other.machine := by
  intro whole
  have accepted : Program.ofText "response.json(); clone(response).json();" = .ok decodingTwice := by
    unfold decodingTwice
    cbv
  obtain ⟨-, -, each⟩ := Response.decoded_once .emptyList (Machine.start none) listReading 9 accepted
  obtain ⟨-, handles, once⟩ := each .json
  have read : listReading.decode .json Response.emptyList.body = .ok (.list []) := by cbv
  obtain ⟨value, reads, gives⟩ := once.gives fun _ bad => by cases read.symm.trans bad.2
  obtain ⟨list, rfl⟩ : ∃ list, value = .list list := by
    cases reads with
    | empty nothing => exact absurd nothing (by decide +kernel)
    | document _ read' heap =>
      cases read.symm.trans read'
      exact ⟨_, rfl⟩
  obtain ⟨_, _, hc, found⟩ := Run.evaluate_of_readsDecoder
    (show Run.readsDecoder 6 (.property (.lookup "response" 1) "json") ⟨1⟩ whole.machine = true by decide +kernel)
  obtain ⟨call, receiver, rfl, came, same⟩ := handles.called hc found
  obtain ⟨later, ran⟩ := gives call (.inside .firstOfProgram (.inside .value came))
  have first : Run.execute listReading 8 decodingTwice[0] whole.machine = .ok .normal later := by
    simp only [decodingTwice, List.getElem_cons_zero, Run.execute, bind, EStateM.bind, same.trans ran]
    rfl
  obtain ⟨_, _, hc', found'⟩ := Run.evaluate_of_readsDecoder
    (show Run.readsDecoder 5 (.property (.call (.lookup "clone" 1) [.lookup "response" 1]) "json") ⟨2⟩ later = true by
      rw [← Machine.after_of_ok first]
      decide +kernel)
  obtain ⟨other, receiver', rfl, came', -⟩ := handles.called hc' found'
  have before : Run.Before listReading whole call.moment other.moment :=
    .inTurn (.restOfProgram first) (.inside .value came) (.inside .firstOfProgram (.inside .value came'))
  refine ⟨accepted, call, other, list, later, ?_, before, ran, (once.again before ran).1⟩
  rw [receiver, receiver']
  rintro ⟨⟩

end HookScript
