import HookScript.Proofs.Run.Deeds
import HookScript.Proofs.Run.Session

/-!
Methods and what they are bound to. Reading a property is the only deed that binds a method, and it binds the method to
the value that has it. So whatever becomes of bound methods later, each of them has been read from its receiver.
-/

namespace HookScript

namespace Heap

variable {heap heap₁ heap₂ : Heap}

structure KeepsMethods (heap heap' : Heap) : Prop where
  extended : heap.Extends heap'
  method {id : MethodId} {method : Method} (found : heap'.method? id = some method) : heap.method? id = some method
  bound {id : CallableId} {method : Method} {receiver : Value}
    (found : heap'.callable? id = some (.bound method receiver)) : heap.callable? id = some (.bound method receiver)

namespace KeepsMethods

theorem refl (heap : Heap) : heap.KeepsMethods heap := ⟨.refl heap, id, id⟩

theorem trans (first : heap.KeepsMethods heap₁) (second : heap₁.KeepsMethods heap₂) : heap.KeepsMethods heap₂ where
  extended := first.extended.trans second.extended
  method found := first.method (second.method found)
  bound found := first.bound (second.bound found)

theorem of_eq (extended : heap.Extends heap₁) (callables : heap₁.callables = heap.callables)
    (methods : heap₁.methods = heap.methods) : heap.KeepsMethods heap₁ where
  extended := extended
  method found := by rwa [method?, methods] at found
  bound found := by rwa [callable?, callables] at found

end KeepsMethods

theorem SameCode.keepsMethods (same : heap.SameCode heap₁) : heap.KeepsMethods heap₁ :=
  .of_eq (same.grows (S := fun _ _ _ => False)).extended same.callables same.methods

theorem keepsMethods_declare (heap : Heap) (frame : FrameId) (name : String) (value : Value) :
    heap.KeepsMethods (heap.declare frame name value) := .of_eq (extends_declare heap frame name value) rfl rfl

theorem keepsMethods_declareAll (heap : Heap) (frame : FrameId) (entries : List (String × Value)) :
    heap.KeepsMethods (heap.declareAll frame entries) := by
  induction entries generalizing heap with
  | nil => exact .refl heap
  | cons entry rest ih => exact (keepsMethods_declare heap frame entry.1 entry.2).trans (ih _)

theorem keepsMethods_newFrame (heap : Heap) (parent : Option FrameId) : heap.KeepsMethods (heap.newFrame parent).2 :=
  .of_eq (extends_newFrame heap parent) rfl rfl

theorem keepsMethods_frameWith (heap : Heap) (parent : FrameId) (entries : List (String × Value)) :
    heap.KeepsMethods (heap.frameWith parent entries).2 :=
  (keepsMethods_newFrame heap (some parent)).trans (keepsMethods_declareAll _ _ entries)

theorem keepsMethods_newCallable (heap : Heap) (callable : Callable)
    (free : ∀ method receiver, callable ≠ .bound method receiver) : heap.KeepsMethods (heap.newCallable callable).2 where
  extended := extends_newCallable heap callable
  method := id
  bound found := (callable?_newCallable heap found).resolve_right fun same => free _ _ same.symm

theorem keepsMethods_withFunction (heap : Heap) (scope : FrameId) (name : String) (params : List String)
    (body : List Stmt) : heap.KeepsMethods (heap.withFunction scope name params body) :=
  (keepsMethods_newCallable heap (.function name params body scope) nofun).trans (keepsMethods_declare _ _ _ _)

end Heap

theorem Interpreter.keepsMethods_declareBuiltins (frame : FrameId) (builtins : List Builtin) (heap : Heap) :
    heap.KeepsMethods (declareBuiltins frame builtins heap) := by
  induction builtins generalizing heap with
  | nil => exact .refl heap
  | cons b rest ih =>
    exact ((Heap.keepsMethods_newCallable heap (.builtin b) nofun).trans (Heap.keepsMethods_declare _ _ _ _)).trans (ih _)

theorem Interpreter.keepsMethods_start (heap : Heap) (directory : Option Path) (imports : List Path) :
    heap.KeepsMethods (start heap directory imports).2 :=
  ((Heap.keepsMethods_newFrame heap none).trans (keepsMethods_declareBuiltins _ _ _)).trans
    (Heap.keepsMethods_newFrame _ _)

theorem Run.sameCode_callListMethod (method : ListMethod) (list : ListId) (argument : Value) (m : Machine) :
    m.heap.SameCode (m.after (callListMethod method (.list list) argument)).heap := by
  cases method with
  | add | length | contains => exact ⟨rfl, rfl, rfl⟩
  | find =>
    simp only [Machine.after, callListMethod, Bind.bind, EStateM.bind, readHeap]
    cases findItem (m.heap.items list) argument <;> exact ⟨rfl, rfl, rfl⟩
  | remove =>
    cases argument with
    | number x =>
      simp only [Machine.after, callListMethod, Bind.bind, EStateM.bind, readHeap]
      cases (Value.position? x).filter (· < (m.heap.items list).size) <;> exact ⟨rfl, rfl, rfl⟩
    | _ => exact ⟨rfl, rfl, rfl⟩

theorem Run.sameCode_callDecoder (world : World) (id : DecoderId) (m : Machine) :
    m.heap.SameCode (m.after (callDecoder world id)).heap := by
  rcases callDecoder_eq id m with ⟨value, heap, same, ran⟩ | ⟨error, ran⟩
  · rwa [Machine.after_of_ok ran]
  · rw [Machine.after_of_error ran]
    exact .refl _

namespace Heap

variable {heap heap' : Heap}

inductive Offers (heap : Heap) : Value → String → Method → Prop
  | object {id name methodId method} (holds : heap.property id name = .method methodId)
    (found : heap.method? methodId = some method) : Offers heap (.object id) name method
  | list {id name method} (known : ListMethod.ofName? name = some method) : Offers heap (.list id) name (.list method)

/-- One of the tasks has read the method from the receiver, which had it under the name that was read. -/
inductive ReadFrom (world : World) (comes : Nat → Task → Machine → Prop) (heap : Heap) (id : CallableId)
    (method : Method) (receiver : Value) : Prop
  | intro {n target name m m₁} (came : comes (n + 1) (.evaluate (.property target name)) m)
    (ht : Run.evaluate world n target m = .ok receiver m₁) (offers : m₁.heap.Offers receiver name method)
    (read : Run.evaluate world (n + 1) (.property target name) m =
      .ok (.callable id) { m₁ with heap := (m₁.heap.newCallable (.bound method receiver)).2 })
    (since : (m₁.heap.newCallable (.bound method receiver)).2.Extends heap)

structure Received (world : World) (comes : Nat → Task → Machine → Prop) (heap : Heap) : Prop where
  unbound (id : MethodId) (method : ListMethod) : heap.method? id ≠ some (.list method)
  readFrom {id : CallableId} {method : Method} {receiver : Value}
    (found : heap.callable? id = some (.bound method receiver)) : heap.ReadFrom world comes id method receiver

section

variable {world : World} {comes : Nat → Task → Machine → Prop} {id : CallableId} {method : Method}
  {receiver : Value}

theorem ReadFrom.extends (readFrom : heap.ReadFrom world comes id method receiver) (extended : heap.Extends heap') :
    heap'.ReadFrom world comes id method receiver := by
  obtain ⟨came, ht, offers, read, since⟩ := readFrom
  exact ⟨came, ht, offers, read, since.trans extended⟩

namespace Received

variable (received : heap.Received world comes)
include received

theorem suits (found : heap.callable? id = some (.bound method receiver)) :
    (∃ list listMethod, receiver = .list list ∧ method = .list listMethod) ∨
      ∃ object, receiver = .object object ∧ ∀ listMethod, method ≠ .list listMethod := by
  obtain ⟨came, ht, offers, read, since⟩ := received.readFrom found
  cases offers with
  | list => exact .inl ⟨_, _, rfl, rfl⟩
  | object holds had =>
    have still := since.method ((extends_newCallable _ _).method had)
    exact .inr ⟨_, rfl, fun listMethod same => received.unbound _ listMethod (same ▸ still)⟩

theorem keepsMethods (keeps : heap.KeepsMethods heap') : heap'.Received world comes where
  unbound id method found := received.unbound id method (keeps.method found)
  readFrom found := (received.readFrom (keeps.bound found)).extends keeps.extended

theorem newMethod {method : Method} (other : ∀ listMethod, method ≠ .list listMethod) :
    (heap.newMethod method).2.Received world comes where
  unbound id listMethod found := by
    rcases method?_newMethod heap found with old | new
    · exact received.unbound id listMethod old
    · exact other listMethod new.symm
  readFrom found := (received.readFrom found).extends (extends_newMethod heap method)

theorem newBound (readFrom : (heap.newCallable (.bound method receiver)).2.ReadFrom world comes ⟨heap.callables.size⟩
    method receiver) : (heap.newCallable (.bound method receiver)).2.Received world comes where
  unbound := received.unbound
  readFrom := by
    intro id other value found
    by_cases last : id = ⟨heap.callables.size⟩
    · subst last
      have same := (callable?_newCallable_self heap (.bound method receiver)).symm.trans found
      cases same
      exact readFrom
    · have old : heap.callable? id = some (.bound other value) := by
        have apart : ¬id.index = heap.callables.size := fun same => last (congrArg CallableId.mk same)
        simpa only [callable?, newCallable, Array.getElem?_push, if_neg apart] using found
      exact (received.readFrom old).extends (extends_newCallable heap _)

end Received

end

end Heap

namespace Run

variable {world : World} {comes : Nat → Task → Machine → Prop} {n : Nat} {t : Task} {m m₁ : Machine}
  {heap heap' : Heap}

theorem evaluate_offered {target : Expr} {name : String} {method : Method} {receiver : Value}
    (ht : evaluate world n target m = .ok receiver m₁) (offers : m₁.heap.Offers receiver name method) :
    evaluate world (n + 1) (.property target name) m = .ok (.callable ⟨m₁.heap.callables.size⟩)
      { m₁ with heap := (m₁.heap.newCallable (.bound method receiver)).2 } := by
  rw [evaluate]
  cases offers with
  | @object id _ _ _ holds found =>
    have binds : method.bind (.object id) = .ok (.bound method (.object id)) := by cases method <;> rfl
    simp only [Bind.bind, EStateM.bind, ht, getProperty, readHeap, holds, found, binds]
    rfl
  | list known =>
    simp only [Bind.bind, EStateM.bind, ht, getProperty, known]
    rfl

theorem Deed.received (deed : Deed world n t m heap heap') (came : comes n t m) (received : heap.Received world comes) :
    heap'.Received world comes := by
  cases deed with
  | readMethod ht holds found =>
    have offers := Heap.Offers.object holds found
    exact received.newBound ⟨came, ht, offers, evaluate_offered ht offers, .refl _⟩
  | @readListMethod _ _ _ id _ _ m₁ ht known =>
    have offers : m₁.heap.Offers (.list id) _ _ := .list known
    exact received.newBound ⟨came, ht, offers, evaluate_offered ht offers, .refl _⟩
  | method => exact received.newMethod nofun
  | assign | declare | declareAs => exact received.keepsMethods (Heap.keepsMethods_declare _ _ _ _)
  | setItem | setProperty | list | object => exact received.keepsMethods (Heap.SameCode.keepsMethods ⟨rfl, rfl, rfl⟩)
  | callFunction => exact received.keepsMethods (Heap.keepsMethods_frameWith _ _ _)
  | callMethod outer =>
    cases outer
    exact received.keepsMethods ((Heap.keepsMethods_frameWith _ _ _).trans (Heap.keepsMethods_frameWith _ _ _))
  | callListMethod => exact received.keepsMethods (sameCode_callListMethod _ _ _ _).keepsMethods
  | callDecoder => exact received.keepsMethods (sameCode_callDecoder _ _ _).keepsMethods
  | clone => exact received.keepsMethods (Heap.sameCode_deepCopy _ _).keepsMethods
  | function => exact received.keepsMethods (Heap.keepsMethods_withFunction _ _ _ _ _)
  | block | round => exact received.keepsMethods (Heap.keepsMethods_newFrame _ _)
  | @begin _ _ place =>
    exact received.keepsMethods (Interpreter.keepsMethods_start m.heap (some place.parent)
      (m.interpreter.imports ++ [place]))
  | bindExports => exact received.keepsMethods (Heap.keepsMethods_declareAll _ _ _)

theorem Course.received (course : Course world comes heap heap') (received : heap.Received world comes) :
    heap'.Received world comes := by
  induction course with
  | refl => exact received
  | tail _ step ih =>
    obtain ⟨n, t, m, came, deed⟩ := step
    exact deed.received came ih

end Run

end HookScript
