import HookScript.Proofs.Contents.DeepCopy
import HookScript.Proofs.Contents.Documents
import HookScript.Proofs.Isolation.Primitives
import HookScript.Proofs.Lists.History

/-!
What the parts of a run do to lists. Most of them make new lists at most; the rest of a run is put together from
those and from requests, so all of it has a history.
-/

namespace HookScript

namespace Heap

variable {heap heap' heap₁ : Heap}

theorem KeepsLists.refl (heap : Heap) : heap.KeepsLists heap := .of_eq rfl

theorem keepsLists_newList (heap : Heap) (items : Array Value) : heap.KeepsLists (heap.newList items).2 :=
  ⟨(larger_newList heap items).lists, fun inside => items_newList inside items⟩

theorem keepsLists_deepCopy (closed : heap.Closed) {value : Value} (within : value.In heap) :
    heap.KeepsLists (heap.deepCopy value).2 := by
  have room : heap.unmet (Copying.start heap).met ≤ heap.containerCount := heap.unmet_le_containerCount
  have made := Copying.makes_copyWithin closed within (Copying.apart_start heap) (Nat.lt_succ_of_le room)
  exact ⟨made.apart.keeps.larger.lists, made.apart.keeps.items⟩

theorem keepsLists_ofDocument (heap : Heap) (document : Document) :
    heap.KeepsLists (heap.ofDocument document).2 := by
  have held := holds_ofDocument heap document
  exact ⟨held.larger.lists, fun inside => held.keeps _ (heap.mem_containers_list.2 inside)⟩

theorem lists_declareAll (heap : Heap) (frame : FrameId) (entries : List (String × Value)) :
    (heap.declareAll frame entries).lists = heap.lists := by
  induction entries generalizing heap with
  | nil => rfl
  | cons entry rest ih => exact ih _

end Heap

theorem Interpreter.lists_declareBuiltins (frame : FrameId) (builtins : List Builtin) (heap : Heap) :
    (declareBuiltins frame builtins heap).lists = heap.lists := by
  induction builtins generalizing heap with
  | nil => rfl
  | cons b rest ih => exact ih _

theorem Interpreter.lists_start (heap : Heap) (directory : Option Path) (imports : List Path) :
    (start heap directory imports).2.lists = heap.lists := by
  simp only [start, Heap.newFrame, lists_declareBuiltins]

namespace Run

variable {α β : Type} {m : Machine}

/-- If this goes well, all lists are still what they were; if it fails, nothing has happened. -/
def Spares (m : Machine) (act : Run α) : Prop :=
  match act m with
  | .ok _ m' => m.heap.KeepsLists m'.heap
  | .error _ m' => m' = m

theorem Spares.pure (a : α) : Spares m (Pure.pure a) := Heap.KeepsLists.refl m.heap

theorem Spares.fault (f : Fault) : Spares m (Run.fault f : Run α) := rfl

theorem Spares.bindRead {f : Heap → α} {rest : α → Run β} (second : Spares m (rest (f m.heap))) :
    Spares m (Run.readHeap f >>= rest) := second

theorem Spares.bindExcept {result : Except Fault α} {rest : α → Run β}
    (second : ∀ a, result = .ok a → Spares m (rest a)) : Spares m (Run.ofExcept result >>= rest) := by
  cases result with
  | ok a => exact second a rfl
  | error f => exact .fault f

theorem Spares.changeHeap {f : Heap → α × Heap} (keeps : m.heap.KeepsLists (f m.heap).2) :
    Spares m (Run.changeHeap f) := keeps

theorem Spares.thenPure {act : Run α} {g : α → β} (first : Spares m act) :
    Spares m (act >>= fun a => Pure.pure (g a)) := by
  unfold Spares at first ⊢
  simp only [Bind.bind, EStateM.bind]
  cases ran : act m with
  | ok a m₁ =>
    rw [ran] at first
    exact first
  | error e m₁ =>
    rw [ran] at first
    exact first

theorem Spares.changeElse {f : Heap → α × Heap} {g : α → β} (same : (f m.heap).2.lists = m.heap.lists) :
    Spares m (Run.changeHeap f >>= fun a => Pure.pure (g a)) :=
  .thenPure (.changeHeap (.of_eq same))

theorem spares_asCallable (value : Value) : Spares m (asCallable value) := by
  rcases asCallable_eq value m with ⟨id, callable, -, -, ran⟩ | ⟨shown, ran⟩
  · simpa only [Spares, ran] using Heap.KeepsLists.refl m.heap
  · simp only [Spares, ran]

theorem spares_asList (value : Value) : Spares m (asList value) := by
  cases value with
  | list id => exact Heap.KeepsLists.refl m.heap
  | _ => exact .fault _

theorem spares_getProperty (target : Value) (name : String) : Spares m (getProperty target name) := by
  unfold getProperty
  split
  · refine .bindRead ?_
    split
    · refine .bindRead ?_
      split
      · exact .bindExcept fun callable _ => .changeElse rfl
      · exact .pure _
    · exact .pure _
  · split
    · exact .bindExcept fun callable _ => .changeElse rfl
    · exact .pure _
  · exact .fault _

theorem spares_setProperty (target : Value) (name : String) (value : Value) :
    Spares m (setProperty target name value) := by
  unfold setProperty
  split
  · exact .changeElse rfl
  · exact .fault _
  · exact .fault _

theorem spares_callBuiltin (sound : m.Sound) (builtin : Builtin) {argument : Value} (within : argument.In m.heap) :
    Spares m (callBuiltin builtin argument) := by
  cases builtin with
  | print | println => exact Heap.KeepsLists.refl m.heap
  | clone =>
    change Spares m (Run.changeHeap (·.deepCopy argument))
    exact .changeHeap (Heap.keepsLists_deepCopy sound.closed within)
  | panic => exact .bindRead (.fault _)
  | assert =>
    unfold callBuiltin
    dsimp only
    split
    · exact .pure _
    · exact .fault _

theorem spares_callDecoder (world : World) (id : DecoderId) : Spares m (callDecoder world id) := by
  unfold callDecoder
  refine .bindRead ?_
  split
  · exact .pure _
  · split
    · exact .pure _
    · split
      · exact .changeHeap (.of_eq rfl)
      · split
        · exact .fault _
        · next document _ =>
          have kept := Heap.keepsLists_ofDocument m.heap document
          exact .changeHeap ⟨kept.size, kept.items⟩

theorem lifts_takeItem {base : Machine} (sound : m.Sound) (list : ListId) (index : Value) :
    Lifts base m (takeItem list index) (takeItem (list.above base.heap) (index.above base.heap)) :=
  .bind (lifts_position sound list index) fun i _ _ leads => lifts_readItem leads.sound list i

theorem lifts_putItem {base : Machine} (sound : m.Sound) (list : ListId) (index : Value) {value : Value}
    (within : value.In m.heap) : Lifts base m (putItem list index value)
      (putItem (list.above base.heap) (index.above base.heap) (value.above base.heap)) :=
  .bind (lifts_position sound list index) fun i _ _ leads =>
    lifts_setItem leads.sound list i (within.mono leads.larger)

structure Chronicle (world : World) (comes : Nat → Task → Machine → Prop) (m m' : Machine) : Prop where
  history : ∃ events, History world comes m events m'
  larger : m.heap.Larger m'.heap
  sound : m'.Sound

namespace Chronicle

variable {world : World} {comes : Nat → Task → Machine → Prop} {m₁ m₂ : Machine}

theorem refl (sound : m.Sound) : Chronicle world comes m m := ⟨⟨[], .start⟩, .refl _, sound⟩

theorem trans (first : Chronicle world comes m m₁) (second : Chronicle world comes m₁ m₂) :
    Chronicle world comes m m₂ := by
  obtain ⟨events₁, begun⟩ := first.history
  obtain ⟨events₂, rest⟩ := second.history
  exact ⟨⟨_, begun.trans rest⟩, first.larger.trans second.larger, second.sound⟩

theorem of_lists_eq (same : m₁.heap.lists = m.heap.lists) (larger : m.heap.Larger m₁.heap) (sound : m₁.Sound) :
    Chronicle world comes m m₁ :=
  ⟨⟨[], .elsewhere .start same⟩, larger, sound⟩

theorem inFrame (chronicle : Chronicle world comes m m₁) (frame : FrameId) :
    Chronicle world comes m (m₁.inFrame frame) :=
  chronicle.trans (.of_lists_eq rfl (.refl _) (chronicle.sound.inFrame frame))

theorem newFrame (sound : m.Sound) (parent : Option FrameId) :
    Chronicle world comes m { m with heap := (m.heap.newFrame parent).2 } :=
  have larger := Heap.larger_newFrame m.heap parent
  .of_lists_eq rfl larger (sound.withHeap (sound.closed.newFrame parent) larger)

theorem declare (sound : m.Sound) (frame : FrameId) (name : String) {value : Value} (within : value.In m.heap) :
    Chronicle world comes m { m with heap := m.heap.declare frame name value } :=
  have larger := Heap.larger_declare m.heap frame name value
  .of_lists_eq rfl larger (sound.withHeap (sound.closed.declare within) larger)

theorem declareAll (sound : m.Sound) (frame : FrameId) {entries : List (String × Value)}
    (within : ∀ entry ∈ entries, entry.2.In m.heap) :
    Chronicle world comes m { m with heap := m.heap.declareAll frame entries } :=
  have larger := Heap.larger_declareAll m.heap frame entries
  have closed := (sound.closed.all larger).declareAll fun entry mem => (within entry mem).mono larger
  .of_lists_eq (Heap.lists_declareAll m.heap frame entries) larger (sound.withHeap closed larger)

theorem frameWith (sound : m.Sound) (parent : FrameId) {entries : List (String × Value)}
    (within : ∀ entry ∈ entries, entry.2.In m.heap) :
    Chronicle world comes m { m with heap := (m.heap.frameWith parent entries).2 } :=
  have opened : Chronicle world comes m _ := newFrame sound (some parent)
  opened.trans (declareAll opened.sound _ fun entry mem => (within entry mem).mono opened.larger)

end Chronicle

/-- What the run does to lists is in a history, however the run ends. -/
def Tells (world : World) (comes : Nat → Task → Machine → Prop) (m : Machine) (act : Run α) : Prop :=
  Chronicle world comes m (m.after act)

section

variable {world : World} {comes : Nat → Task → Machine → Prop} {m₁ : Machine}

theorem Tells.of_ok {act : Run α} {a : α} (ran : act m = .ok a m₁) (chronicle : Chronicle world comes m m₁) :
    Tells world comes m act := by
  rwa [Tells, Machine.after_of_ok ran]

theorem Tells.of_error {act : Run α} {e : Stop} (ran : act m = .error e m₁) (chronicle : Chronicle world comes m m₁) :
    Tells world comes m act := by
  rwa [Tells, Machine.after_of_error ran]

theorem Tells.pure (sound : m.Sound) (a : α) : Tells world comes m (Pure.pure a) := .of_ok rfl (.refl sound)

theorem Tells.fault (sound : m.Sound) (f : Fault) : Tells world comes m (Run.fault f : Run α) :=
  .of_error rfl (.refl sound)

theorem Tells.ofExcept (sound : m.Sound) (result : Except Fault α) :
    Tells world comes m (Run.ofExcept result) := by
  cases result with
  | ok a => exact .pure sound a
  | error f => exact .fault sound f

theorem Tells.spared [Movable α] {act act' : Run α} (sound : m.Sound) (lifts : Lifts m m act act')
    (spares : Spares m act) : Tells world comes m act := by
  unfold Spares at spares
  cases ran : act m with
  | ok a m₁ =>
    rw [ran] at spares
    have leads := lifts.leads ran
    exact .of_ok ran ⟨History.of_keepsLists spares, leads.larger, leads.sound⟩
  | error e m₁ =>
    rw [ran] at spares
    obtain rfl := spares
    exact .of_error ran (.refl sound)

theorem Tells.bind [Movable α] {base : Machine} {act act' : Run α} {rest : α → Run β} (lifts : Lifts base m act act')
    (first : Tells world comes m act)
    (second : ∀ a m₁, act m = .ok a m₁ → Leads m m₁ a → Tells world comes m₁ (rest a)) :
    Tells world comes m (act >>= rest) := by
  cases ran : act m with
  | ok a m₁ =>
    have next := second a m₁ ran (lifts.leads ran)
    have same : m.after (act >>= rest) = m₁.after (rest a) := by
      simp only [Machine.after, Bind.bind, EStateM.bind, ran]
    rw [Tells, Machine.after_of_ok ran] at first
    rw [Tells, same]
    exact first.trans next
  | error e m₁ =>
    have stopped : (act >>= rest) m = .error e m₁ := by simp only [Bind.bind, EStateM.bind, ran]
    rw [Tells, Machine.after_of_error ran] at first
    exact .of_error stopped first

theorem Tells.bindSame {act : Run α} {a : α} {rest : α → Run β} (ran : act m = .ok a m)
    (second : Tells world comes m (rest a)) : Tells world comes m (act >>= rest) := by
  have same : m.after (act >>= rest) = m.after (rest a) := by
    simp only [Machine.after, Bind.bind, EStateM.bind, ran]
  rwa [Tells, same]

theorem Tells.bindChange {f : Heap → α × Heap} {rest : α → Run β}
    (changed : Chronicle world comes m { m with heap := (f m.heap).2 })
    (second : Tells world comes { m with heap := (f m.heap).2 } (rest (f m.heap).1)) :
    Tells world comes m (Run.changeHeap f >>= rest) := changed.trans second

theorem Tells.bindInnerFrame {rest : FrameId → Run β} (sound : m.Sound)
    (second : Tells world comes { m with heap := (m.heap.newFrame (some m.interpreter.scope)).2 }
      (rest (m.heap.newFrame (some m.interpreter.scope)).1)) :
    Tells world comes m (Run.innerFrame >>= rest) :=
  (Chronicle.newFrame sound (some m.interpreter.scope)).trans second

theorem Tells.bindExcept {result : Except Fault α} {rest : α → Run β} (sound : m.Sound)
    (second : ∀ a, result = .ok a → Tells world comes m (rest a)) :
    Tells world comes m (Run.ofExcept result >>= rest) := by
  cases result with
  | ok a => exact second a rfl
  | error f => exact .of_error rfl (.refl sound)

theorem Tells.bindSpared [Movable α] {act act' : Run α} {rest : α → Run β} (sound : m.Sound)
    (lifts : Lifts m m act act') (spares : Spares m act)
    (second : ∀ a m₁, act m = .ok a m₁ → Leads m m₁ a → Tells world comes m₁ (rest a)) :
    Tells world comes m (act >>= rest) :=
  .bind lifts (.spared sound lifts spares) second

theorem Tells.withScope {scope : FrameId} {act : Run α} (sound : m.Sound)
    (inside : Tells world comes (m.inFrame scope) act) : Tells world comes m (Run.withScope scope act) := by
  have entered : Chronicle world comes m (m.inFrame scope) := (Chronicle.refl sound).inFrame scope
  cases ran : act (m.inFrame scope) with
  | ok a m₁ =>
    rw [Tells, Machine.after_of_ok ran] at inside
    exact .of_ok (by rw [withScope_eq, ran]) ((entered.trans inside).inFrame m.interpreter.scope)
  | error e m₁ =>
    rw [Tells, Machine.after_of_error ran] at inside
    exact .of_error (by rw [withScope_eq, ran]) ((entered.trans inside).inFrame m.interpreter.scope)

theorem Tells.withInterpreter {other : Interpreter} {act : Run Unit} (sound : m.Sound)
    (entered : Machine.Sound { m with interpreter := other })
    (inside : Tells world comes { m with interpreter := other } act) :
    Tells world comes m (Run.withInterpreter other act) := by
  have into : Chronicle world comes m { m with interpreter := other } := .of_lists_eq rfl (.refl _) entered
  have back (m₁ : Machine) (chronicle : Chronicle world comes { m with interpreter := other } m₁) :
      Chronicle world comes m { m₁ with interpreter := m.interpreter } :=
    have exports := sound.exports.mono fun _ had => had.mono chronicle.larger
    (into.trans chronicle).trans (.of_lists_eq rfl (.refl _) ⟨chronicle.sound.closed, exports⟩)
  cases ran : act { m with interpreter := other } with
  | ok u m₁ =>
    rw [Tells, Machine.after_of_ok ran] at inside
    exact .of_ok (by rw [withInterpreter_eq, ran]) (back m₁ inside)
  | error e m₁ =>
    rw [Tells, Machine.after_of_error ran] at inside
    exact .of_error (by rw [withInterpreter_eq, ran]) (back m₁ inside)

theorem Tells.frameWith {parent : FrameId} {names : List String} {values : List Value} {rest : FrameId → Run β}
    (sound : m.Sound) (within : ∀ value ∈ values, value.In m.heap)
    (second : ∀ frame heap, m.heap.frameWith parent (names.zip values) = (frame, heap) →
      Chronicle world comes m { m with heap } → Tells world comes { m with heap } (rest frame)) :
    Tells world comes m (do
      let frame ← Run.changeHeap (·.newFrame (some parent))
      Run.bindParams frame names values
      rest frame) :=
  have given : ∀ entry ∈ names.zip values, entry.2.In m.heap := fun entry mem =>
    within entry.2 (List.of_mem_zip mem).2
  have entered : Chronicle world comes m _ := .frameWith sound parent given
  entered.trans (second _ _ rfl entered)

theorem Tells.asked {n : Nat} {t : Task} {list : ListId} {request : ListRequest}
    {result : EStateM.Result Stop Machine Value} {act act' : Run Value} (sound : m.Sound)
    (inside : list.index < m.heap.lists.size) (came : comes n t m₁) (asks : Asks world n t m₁ list request m result)
    (same : result = act m) (lifts : Lifts m m act act') : Tells world comes m act := by
  have answers := asks.answers inside
  have larger (items : List Value) : m.heap.Larger (m.withItems list items).heap :=
    Heap.larger_of_size Array.size_setIfInBounds rfl
  have history {m' : Machine} {answer : Except FaultKind Value} (answers : Answers result m' answer) :
      ∃ events, History world comes m events m' := ⟨_, .asked .start inside came asks answers⟩
  cases given : (request.reply list (m.heap.items list).toList).1 with
  | ok value =>
    rw [given] at answers
    have ran : act m = .ok value _ := same.symm.trans answers
    exact .of_ok ran ⟨history answers, larger _, (lifts.leads ran).sound⟩
  | error kind =>
    have kept := (ListRequest.answerAt_of_error given).2
    rw [given, ListRequest.reply, kept, Machine.withItems_self] at answers
    obtain ⟨f, -, failed⟩ := answers
    exact .of_error (same.symm.trans failed) (.refl sound)

end

end Run

end HookScript
