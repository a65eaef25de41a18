import HookScript.Proofs.Levels.Single
import HookScript.Proofs.Lists.Runs

/-!
Lists at any moment of a run. Wherever a run comes by, its lists are what sequences have become by then, and the next
request is answered from the sequence of its list.
-/

namespace HookScript

namespace Run

variable {world : World} {comes : Nat → Task → Machine → Prop} {n k : Nat} {t t' : Task} {m m' w : Machine}

theorem Tells.of_ran {α : Type} {act : Run α} {a : α} (tells : Tells world comes m act) (ran : act m = .ok a m') :
    Chronicle world comes m m' := by
  rwa [Tells, Machine.after_of_ok ran] at tells

theorem Chronicle.opened (sound : m.Sound) : Chronicle world comes m m.opened :=
  (newFrame sound (some m.interpreter.scope)).inFrame _

theorem Chronicle.importing (sound : m.Sound) (place : Path) : Chronicle world comes m (m.importing place) :=
  .of_lists_eq (Interpreter.lists_start m.heap (some place.parent) (m.interpreter.imports ++ [place]))
    (Interpreter.larger_start m.heap (some place.parent) (m.interpreter.imports ++ [place]))
    (Interpreter.sound_start sound.closed m.out (some place.parent) (m.interpreter.imports ++ [place]))

theorem Chronicle.inNewFrame {parent frame : FrameId} {entries : List (String × Value)} {heap : Heap} (sound : m.Sound)
    (entry : m.heap.frameWith parent entries = (frame, heap)) (within : ∀ entry ∈ entries, entry.2.In m.heap) :
    Chronicle world comes m { m with heap } := by
  have entered : Chronicle world comes m _ := .frameWith sound parent within
  rwa [entry] at entered

theorem Chronicle.evaluate {expr : Expr} {v : Value} (sound : m.Sound)
    (stays : (Task.evaluate expr).Stays world comes n m) (ran : Run.evaluate world n expr m = .ok v m') :
    Chronicle world comes m m' := ((tells_calls world comes n).evaluate sound stays).of_ran ran

theorem Enters.chronicle {move : Move} (enters : Enters world n move t m t' m') (sound : m.Sound)
    (given : t.In m.heap) (stays : t.Stays world comes (n + 1) m) :
    Chronicle world comes m m' ∧ t'.In m'.heap := by
  have tells := tells_calls world comes n
  cases enters with
  | itemIndex ht => exact ⟨.evaluate sound (stays.inside .itemTarget) ht, trivial⟩
  | setItemTarget hv => exact ⟨.evaluate sound (stays.inside .setItemValue) hv, trivial⟩
  | setItemIndex hv ht =>
    have first : Chronicle world comes _ _ := .evaluate sound (stays.inside .setItemValue) hv
    exact ⟨first.trans (.evaluate first.sound (stays.inside (.setItemTarget hv)) ht), trivial⟩
  | setPropertyTarget hv => exact ⟨.evaluate sound (stays.inside .setPropertyValue) hv, trivial⟩
  | binaryRight hl => exact ⟨.evaluate sound (stays.inside .binaryLeft) hl, trivial⟩
  | andRight hl | orRight hl => exact ⟨.evaluate sound (stays.inside .logicalLeft) hl, trivial⟩
  | args hc => exact ⟨.evaluate sound (stays.inside .callee) hc, trivial⟩
  | called hc found arity ha =>
    have first : Chronicle world comes _ _ := .evaluate sound (stays.inside .callee) hc
    have second := (tells.evaluateAll first.sound (stays.inside (.args hc found arity))).of_ran ha
    have held := first.sound.closed.callable? found
    have leads := ((lifts_calls world m n).evaluateAll first.sound _).leads ha
    exact ⟨first.trans second, held.mono fun _ had => had.mono leads.larger, leads.within⟩
  | restExprs hf => exact ⟨.evaluate sound (stays.inside .firstExpr) hf, trivial⟩
  | functionBody entry =>
    exact ⟨.inNewFrame sound entry fun named mem => given.2 named.2 (List.of_mem_zip mem).2, trivial⟩
  | methodBody outer entry =>
    have around : Chronicle world comes _ _ := .inNewFrame sound outer (List.forall_mem_singleton.2 given.1)
    have inner : Chronicle world comes _ _ := .inNewFrame around.sound entry fun named mem =>
      (given.2 named.2 (List.of_mem_zip mem).2).mono around.larger
    exact ⟨around.trans inner, trivial⟩
  | body => exact ⟨(Chronicle.refl sound).inFrame _, trivial⟩
  | block => exact ⟨.opened sound, trivial⟩
  | yes hc | no hc => exact ⟨.evaluate sound (stays.inside .branchCondition) hc, trivial⟩
  | importFile hs => exact ⟨.evaluate sound (stays.inside .source) hs, trivial⟩
  | restStmts hf => exact ⟨(tells.execute sound (stays.inside .firstStmt)).of_ran hf, trivial⟩
  | loopBody hc =>
    have first : Chronicle world comes _ _ := .evaluate sound (stays.inside .loopCondition) hc
    exact ⟨first.trans (.opened first.sound), trivial⟩
  | nextRound hc truthy hb =>
    have first : Chronicle world comes _ _ := .evaluate sound (stays.inside .loopCondition) hc
    have inner : Chronicle world comes _ _ := .opened first.sound
    have round := (tells.executeAll inner.sound (stays.inside (.loopBody hc truthy))).of_ran hb
    exact ⟨((first.trans inner).trans round).inFrame _, trivial⟩
  | restOfProgram hf => exact ⟨(tells.execute sound (stays.inside .firstOfProgram)).of_ran hf, trivial⟩
  | program => exact ⟨.importing sound _, trivial⟩
  | _ => exact ⟨.refl sound, trivial⟩

theorem chronicle_after (sound : m.Sound) (given : t.In m.heap) (stays : t.Stays world comes n m) :
    Chronicle world comes m (t.after world n m) := by
  have tells := tells_calls world comes n
  cases t with
  | evaluate => exact tells.evaluate sound stays
  | evaluateAll => exact tells.evaluateAll sound stays
  | call => exact tells.call sound given stays
  | runBody => exact tells.runBody sound stays
  | execute => exact tells.execute sound stays
  | executeAll => exact tells.executeAll sound stays
  | loop => exact tells.loop sound stays
  | executeProgram => exact tells.executeProgram sound stays
  | importFile => exact tells.importFile sound stays

theorem Passes.chronicle (passes : Passes world n t m w) (sound : m.Sound) (given : t.In m.heap)
    (stays : t.Stays world comes n m) : Chronicle world comes m w := by
  induction passes with
  | begins => exact .refl sound
  | ends => exact chronicle_after sound given stays
  | inside enters _ ih =>
    obtain ⟨before, given'⟩ := enters.chronicle sound given stays
    exact before.trans (ih before.sound given' (stays.inside enters))

theorem ComesTo.chronicle (came : ComesTo world n t m k t' m') (sound : m.Sound) (given : t.In m.heap)
    (stays : t.Stays world comes n m) :
    Chronicle world comes m m' ∧ t'.In m'.heap ∧ t'.Stays world comes k m' := by
  induction came with
  | refl => exact ⟨.refl sound, given, stays⟩
  | inside enters _ ih =>
    obtain ⟨before, given'⟩ := enters.chronicle sound given stays
    obtain ⟨after, given'', stays'⟩ := ih before.sound given' (stays.inside enters)
    exact ⟨before.trans after, given'', stays'⟩

section

variable {list : ListId} {request : ListRequest} {result : EStateM.Result Stop Machine Value}

theorem Asks.chronicle (asks : Asks world n t m list request w result) (sound : m.Sound) (given : t.In m.heap)
    (stays : t.Stays world comes n m) : Chronicle world comes m w ∧ list.index < w.heap.lists.size := by
  have leads {n expr v} {m m₁ : Machine} (sound : m.Sound) (ran : evaluate world n expr m = .ok v m₁) :
      Leads m m₁ v := ((lifts_calls world m n).evaluate sound expr).leads ran
  cases asks with
  | called => exact ⟨.refl sound, given.1⟩
  | read ht hi =>
    have first : Chronicle world comes _ _ := .evaluate sound (stays.inside .itemTarget) ht
    have second : Chronicle world comes _ _ := .evaluate first.sound (stays.inside (.itemIndex ht)) hi
    have held : Value.In _ (.list list) := (leads sound ht).within
    exact ⟨first.trans second, held.mono second.larger⟩
  | written hv ht hi =>
    have first : Chronicle world comes _ _ := .evaluate sound (stays.inside .setItemValue) hv
    have second : Chronicle world comes _ _ := .evaluate first.sound (stays.inside (.setItemTarget hv)) ht
    have third : Chronicle world comes _ _ := .evaluate second.sound (stays.inside (.setItemIndex hv ht)) hi
    have held : Value.In _ (.list list) := (leads first.sound ht).within
    exact ⟨(first.trans second).trans third, held.mono third.larger⟩

structure Answered (m m' : Machine) (list : ListId) (items items' : List Value) (request : ListRequest)
    (answer : Except FaultKind Value) : Prop where
  settled : request.Definite items → request.answer list items = (answer, items')
  lists : m'.heap.sequence? = Function.update m.heap.sequence? list (some items')
  refused {kind : FaultKind} (failed : answer = .error kind) : kind = .illegalArgument ∧ m' = m

theorem Asks.answered (asks : Asks world n t m list request w result) (inside : list.index < w.heap.lists.size) :
    ∃ answer items' m', Answers result m' answer ∧
      Answered w m' list (w.heap.items list).toList items' request answer := by
  refine ⟨_, _, _, asks.answers inside, ⟨fun definite => definite.reply_eq.symm, ?_, fun failed => ?_⟩⟩
  · exact Heap.sequence?_setItems inside _
  · obtain ⟨kind, kept⟩ := ListRequest.answerAt_of_error failed
    refine ⟨kind, ?_⟩
    rw [ListRequest.reply, kept, Machine.withItems_self]

end

theorem evaluate_call_of_arity {callee : Expr} {args : List Expr} {id : CallableId} {method : ListMethod}
    {list : ListId} (hc : evaluate world n callee m = .ok (.callable id) m')
    (bound : m'.heap.callable? id = some (.bound (.list method) (.list list))) (arity : args.length ≠ method.arity) :
    Answers (evaluate world (n + 1) (.call callee args) m) m' (.error .illegalArgument) := by
  have other : args.length ≠ (Callable.bound (.list method) (.list list)).arity := arity
  refine ⟨.arity (Callable.bound (.list method) (.list list)).text method.arity args.length, rfl, ?_⟩
  simp only [evaluate, bind, EStateM.bind, hc, asCallable, readHeap, bound, pure, EStateM.pure, Callable.checkArity,
    if_neg other, ofExcept]
  rfl

/-- Lists are sequences. At any moment of a run they are what sequences become that are told what lists have been made
and what the tasks of the run have asked of them. A list that is asked, through whichever of its aliases, answers from
its sequence. -/
theorem sequences_of_run (sound : m.Sound) (given : t.In m.heap) :
    (∀ {w}, Passes world n t m w → w.Sound ∧ ∃ events,
      History world (ComesTo world n t m) m events w ∧ Replays m.heap.sequence? events w.heap.sequence?) ∧
    (∀ {k t' m₁ list request w result}, ComesTo world n t m k t' m₁ → Asks world k t' m₁ list request w result →
      ∃ events items answer items' m', History world (ComesTo world n t m) m events w ∧
        Replays m.heap.sequence? events w.heap.sequence? ∧ w.heap.sequence? list = some items ∧
        Answers result m' answer ∧ Answered w m' list items items' request answer) ∧
    (∀ {k target list m₁ m₂} (method : ListMethod), evaluate world k target m₁ = .ok (.list list) m₂ → ∃ id m₃,
      evaluate world (k + 1) (.property target method.name) m₁ = .ok (.callable id) m₃ ∧
      m₃.heap.callable? id = some (.bound (.list method) (.list list)) ∧ m₃.heap.sequence? = m₂.heap.sequence?) ∧
    (∀ {k callee args id method list m₁ m₂}, evaluate world k callee m₁ = .ok (.callable id) m₂ →
      m₂.heap.callable? id = some (.bound (.list method) (.list list)) →
      (args.length ≠ method.arity →
        Answers (evaluate world (k + 1) (.call callee args) m₁) m₂ (.error .illegalArgument)) ∧
      ∀ {values m₃}, args.length = method.arity → evaluateAll world k args m₂ = .ok values m₃ →
        Enters world k .stay (.evaluate (.call callee args)) m₁ (.call (.bound (.list method) (.list list)) values) m₃ ∧
        evaluate world (k + 1) (.call callee args) m₁ =
          call world k (.bound (.list method) (.list list)) values m₃) ∧
    ∀ (list : ListId) (items : List Value), items.length ≤ 2 ^ 53 →
      (∀ argument, ∃ x, (ListRequest.call .length argument).answer list items = (.ok (.number x), items) ∧
        Number.value? x = some (items.length : ℚ)) ∧
      ∀ item, ∃ x, ListRequest.FindsFirst list items item x := by
  have stays : t.Stays world (ComesTo world n t m) n m := fun _ _ _ came => came
  refine ⟨fun passes => ?moments, fun came asks => ?asked, fun method ht => evaluate_listMethod method ht,
    fun hc bound => ⟨?refused, ?called⟩,
    fun list items few => ⟨ListRequest.answer_length list few, ListRequest.findsFirst list few⟩⟩
  case moments =>
    have here := passes.chronicle sound given stays
    obtain ⟨events, history⟩ := here.history
    exact ⟨here.sound, events, history, history.replays⟩
  case asked =>
    obtain ⟨before, given', stays'⟩ := came.chronicle sound given stays
    obtain ⟨since, inside⟩ := asks.chronicle before.sound given' stays'
    obtain ⟨events, history⟩ := (before.trans since).history
    obtain ⟨answer, items', m', answers, answered⟩ := asks.answered inside
    exact ⟨events, _, answer, items', m', history, history.replays, Heap.sequence?_eq inside, answers, answered⟩
  case refused => exact fun arity => evaluate_call_of_arity hc bound arity
  case called => exact fun arity ha => ⟨.called hc bound arity ha, evaluate_call hc bound arity ha⟩

end Run

theorem Machine.sound_start (directory : Option Path) : (Machine.start directory).Sound :=
  Interpreter.sound_start .empty "" directory []

namespace Run

def addedItem : Expr := .call (.property (.list []) "add") [.literal .nil]

theorem sequences_of_added_item : (Machine.start none).Sound ∧
    (Task.executeProgram [.expression addedItem]).In (Machine.start none).heap ∧
    ∃ m', evaluate (.ofFiles []) 4 addedItem (Machine.start none) = .ok (.list ⟨0⟩) m' ∧
      m'.heap.sequence? ⟨0⟩ = some [.nil] := by
  have sound := Machine.sound_start none
  have given : (Task.executeProgram [.expression addedItem]).In (Machine.start none).heap := trivial
  refine ⟨sound, given, ?_⟩
  have made : evaluate (.ofFiles []) 2 (.list []) (Machine.start none) = .ok (.list ⟨0⟩) _ := rfl
  have argument (m : Machine) : evaluateAll (.ofFiles []) 3 [.literal .nil] m = .ok [.nil] m := rfl
  obtain ⟨id, m₁, looked, bound, kept⟩ := evaluate_listMethod .add made
  have came : ComesTo (.ofFiles []) 6 (.executeProgram [.expression addedItem]) (Machine.start none) 3
      (.call (.bound (.list .add) (.list ⟨0⟩)) [.nil]) m₁ :=
    .inside .firstOfProgram (.inside .value (.inside (.called looked bound rfl (argument _)) .refl))
  obtain ⟨events, items, answer, items', m', -, -, there, answers, answered⟩ :=
    (sequences_of_run sound given).2.1 came .called
  rw [kept] at there
  obtain rfl : items = [] := (Option.some.inj there).symm
  obtain ⟨rfl, rfl⟩ := Prod.ext_iff.1 (answered.settled ⟨by decide, nofun⟩)
  refine ⟨m', (evaluate_call looked bound rfl (argument _)).trans answers, ?_⟩
  rw [answered.lists, Function.update_self]
  rfl

end Run

end HookScript
