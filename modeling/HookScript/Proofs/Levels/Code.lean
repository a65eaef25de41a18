import HookScript.Evaluation
import HookScript.Proofs.Levels.Alike

/-!
Heaps with alike code. Methods and callables keep the bodies that they have been written with, so heaps on which alike
programs have run are the same but for the levels in these bodies. Whatever does not run a body does the same on both.
-/

namespace HookScript

inductive Method.Alike : Method → Method → Prop
  | script {params body body' globals} : List.Forall₂ Stmt.Alike body body' →
    Method.Alike (.script params body globals) (.script params body' globals)
  | list {method} : Method.Alike (.list method) (.list method)
  | decoder {format id} : Method.Alike (.decoder format id) (.decoder format id)

inductive Callable.Alike : Callable → Callable → Prop
  | function {name params body body' closure} : List.Forall₂ Stmt.Alike body body' →
    Callable.Alike (.function name params body closure) (.function name params body' closure)
  | bound {method method' receiver} : Method.Alike method method' →
    Callable.Alike (.bound method receiver) (.bound method' receiver)
  | builtin {builtin} : Callable.Alike (.builtin builtin) (.builtin builtin)

namespace Method

variable {method method' : Method}

theorem alike_refl (method : Method) : method.Alike method := by
  cases method with
  | script params body globals => exact .script (stmts_alike_refl body)
  | list => exact .list
  | decoder => exact .decoder

theorem Alike.text_eq (alike : method.Alike method') : method'.text = method.text := by cases alike <;> rfl

theorem Alike.arity_eq (alike : method.Alike method') : method'.arity = method.arity := by cases alike <;> rfl

end Method

namespace Callable

variable {callable callable' : Callable}

theorem alike_refl (callable : Callable) : callable.Alike callable := by
  cases callable with
  | function name params body closure => exact .function (stmts_alike_refl body)
  | bound method receiver => exact .bound method.alike_refl
  | builtin => exact .builtin

theorem Alike.text_eq (alike : callable.Alike callable') : callable'.text = callable.text := by
  cases alike with
  | bound alike => exact alike.text_eq
  | function | builtin => rfl

theorem Alike.arity_eq (alike : callable.Alike callable') : callable'.arity = callable.arity := by
  cases alike with
  | bound alike => exact alike.arity_eq
  | function | builtin => rfl

theorem Alike.checkArity_eq (alike : callable.Alike callable') (given : Nat) :
    callable'.checkArity given = callable.checkArity given := by
  rw [checkArity, checkArity, alike.arity_eq, alike.text_eq]

end Callable

theorem rel_getElem?_of_forall₂ {α β : Type} {R : α → β → Prop} {xs : List α} {ys : List β}
    (all : List.Forall₂ R xs ys) (i : Nat) : Option.Rel R xs[i]? ys[i]? := by
  induction all generalizing i with
  | nil => exact .none
  | cons first rest ih => cases i with
    | zero => exact .some first
    | succ i => exact ih i

namespace Heap

def withCode (heap : Heap) (methods : Array Method) (callables : Array Callable) : Heap :=
  { heap with methods, callables }

structure Alike (heap heap' : Heap) : Prop where
  frames : heap'.frames = heap.frames
  lists : heap'.lists = heap.lists
  objects : heap'.objects = heap.objects
  decoders : heap'.decoders = heap.decoders
  methods : List.Forall₂ Method.Alike heap.methods.toList heap'.methods.toList
  callables : List.Forall₂ Callable.Alike heap.callables.toList heap'.callables.toList

variable {α : Type} {heap heap' : Heap}

theorem alike_refl (heap : Heap) : heap.Alike heap :=
  ⟨rfl, rfl, rfl, rfl, List.forall₂_same.2 fun method _ => method.alike_refl,
    List.forall₂_same.2 fun callable _ => callable.alike_refl⟩

namespace Alike

theorem eq_withCode (alike : heap.Alike heap') : heap' = heap.withCode heap'.methods heap'.callables := by
  obtain ⟨frames, lists, objects, decoders, -, -⟩ := alike
  rw [withCode, ← frames, ← lists, ← objects, ← decoders]

theorem method? (alike : heap.Alike heap') (id : MethodId) :
    Option.Rel Method.Alike (heap.method? id) (heap'.method? id) := by
  simpa only [Heap.method?, Array.getElem?_toList] using rel_getElem?_of_forall₂ alike.methods id.index

theorem callable? (alike : heap.Alike heap') (id : CallableId) :
    Option.Rel Callable.Alike (heap.callable? id) (heap'.callable? id) := by
  simpa only [Heap.callable?, Array.getElem?_toList] using rel_getElem?_of_forall₂ alike.callables id.index

theorem newMethod (alike : heap.Alike heap') {method method' : Method} (made : method.Alike method') :
    (heap'.newMethod method').1 = (heap.newMethod method).1 ∧
      (heap.newMethod method).2.Alike (heap'.newMethod method').2 := by
  refine ⟨congrArg MethodId.mk alike.methods.length_eq.symm, ⟨alike.frames, alike.lists, alike.objects, alike.decoders,
    ?_, alike.callables⟩⟩
  simpa only [Heap.newMethod, Array.toList_push] using List.rel_append alike.methods (.cons made .nil)

theorem newCallable (alike : heap.Alike heap') {callable callable' : Callable} (made : callable.Alike callable') :
    (heap'.newCallable callable').1 = (heap.newCallable callable).1 ∧
      (heap.newCallable callable).2.Alike (heap'.newCallable callable').2 := by
  refine ⟨congrArg CallableId.mk alike.callables.length_eq.symm, ⟨alike.frames, alike.lists, alike.objects,
    alike.decoders, alike.methods, ?_⟩⟩
  simpa only [Heap.newCallable, Array.toList_push] using List.rel_append alike.callables (.cons made .nil)

end Alike

/-- The change has nothing to do with code. -/
def Blind (change : Heap → α × Heap) : Prop := ∀ heap methods callables,
  change (heap.withCode methods callables) = ((change heap).1, (change heap).2.withCode methods callables)

theorem Blind.alike {change : Heap → α × Heap} (blind : Blind change) (alike : heap.Alike heap') :
    (change heap').1 = (change heap).1 ∧ (change heap).2.Alike (change heap').2 := by
  have same := blind heap heap.methods heap.callables
  have changed := blind heap heap'.methods heap'.callables
  rw [← alike.eq_withCode] at changed
  have methods : (change heap).2.methods = heap.methods := congrArg (·.2.methods) same
  have callables : (change heap).2.callables = heap.callables := congrArg (·.2.callables) same
  rw [changed]
  exact ⟨rfl, rfl, rfl, rfl, rfl, methods ▸ alike.methods, callables ▸ alike.callables⟩

/-! What does not run a body -/

namespace Alike

variable (alike : heap.Alike heap')
include alike

theorem items_eq (id : ListId) : heap'.items id = heap.items id := by rw [items, items, alike.lists]

theorem properties_eq (id : ObjectId) : heap'.properties id = heap.properties id := by
  rw [properties, properties, alike.objects]

theorem outlineWithin_method_eq (depth : Nat) (around : List Container) (id : MethodId) :
    heap'.outlineWithin depth around (.method id) = heap.outlineWithin depth around (.method id) := by
  have method := alike.method? id
  simp only [outlineWithin]
  generalize heap.method? id = found, heap'.method? id = found' at method ⊢
  cases method with
  | none => rfl
  | some method => simp only [method.text_eq, method.arity_eq]

theorem outlineWithin_callable_eq (depth : Nat) (around : List Container) (id : CallableId) :
    heap'.outlineWithin depth around (.callable id) = heap.outlineWithin depth around (.callable id) := by
  have callable := alike.callable? id
  simp only [outlineWithin]
  generalize heap.callable? id = found, heap'.callable? id = found' at callable ⊢
  cases callable with
  | none => rfl
  | some callable => simp only [callable.text_eq, callable.arity_eq]

theorem outlineWithin_eq (depth : Nat) (around : List Container) (value : Value) :
    heap'.outlineWithin depth around value = heap.outlineWithin depth around value := by
  induction depth generalizing around value with
  | zero => cases value with
    | method id => exact alike.outlineWithin_method_eq 0 around id
    | callable id => exact alike.outlineWithin_callable_eq 0 around id
    | _ => rfl
  | succ depth ih => cases value with
    | method id => exact alike.outlineWithin_method_eq _ around id
    | callable id => exact alike.outlineWithin_callable_eq _ around id
    | list id => simp only [outlineWithin, alike.items_eq, funext (ih (.list id :: around))]
    | object id => simp only [outlineWithin, alike.properties_eq, ih]
    | _ => rfl

theorem text_eq (value : Value) : heap'.text value = heap.text value := by
  rw [text, text, outline, outline, containerCount, containerCount, alike.lists, alike.objects, alike.outlineWithin_eq]

end Alike

end Heap

namespace Copying

variable (methods : Array Method) (callables : Array Callable)

def withCode (c : Copying) : Copying := { c with heap := c.heap.withCode methods callables }

theorem copyEach_withCode {copy : Value → Copying → Value × Copying}
    (each : ∀ value c, copy value (withCode methods callables c) =
      ((copy value c).1, withCode methods callables (copy value c).2)) (values : List Value) (c : Copying) :
    copyEach copy values (withCode methods callables c) =
      ((copyEach copy values c).1, withCode methods callables (copyEach copy values c).2) := by
  induction values generalizing c with
  | nil => rfl
  | cons value rest ih => simp only [copyEach, each, ih]

theorem copyWithin_withCode (depth : Nat) (value : Value) (c : Copying) :
    copyWithin depth value (withCode methods callables c) =
      ((copyWithin depth value c).1, withCode methods callables (copyWithin depth value c).2) := by
  induction depth generalizing value c with
  | zero => rfl
  | succ depth ih =>
    have each := copyEach_withCode methods callables ih
    cases value with
    | list id =>
      have had : (withCode methods callables c).lists = c.lists := rfl
      have begun : (withCode methods callables c).beginList id =
          ((c.beginList id).1, withCode methods callables (c.beginList id).2) := rfl
      have items : (withCode methods callables (c.beginList id).2).heap.items id = (c.beginList id).2.heap.items id := rfl
      simp only [copyWithin, had, begun, items, each]
      split <;> rfl
    | object id =>
      have had : (withCode methods callables c).objects = c.objects := rfl
      have begun : (withCode methods callables c).beginObject id =
          ((c.beginObject id).1, withCode methods callables (c.beginObject id).2) := rfl
      have properties : (withCode methods callables c).heap.properties id = c.heap.properties id := rfl
      simp only [copyWithin, had, begun, properties, each]
      split <;> rfl
    | _ => rfl

end Copying

namespace Heap

theorem blind_deepCopy (value : Value) : Blind (·.deepCopy value) := fun heap methods callables =>
  congrArg (fun made => (made.1, made.2.heap))
    (Copying.copyWithin_withCode methods callables (heap.containerCount + 1) value ⟨heap, [], []⟩)

mutual

theorem blind_ofDocument : (document : Document) → Blind (·.ofDocument document)
  | .nil | .boolean _ | .number _ | .string _ => fun _ _ _ => rfl
  | .list items => fun heap methods callables => by
    simp only [ofDocument, blind_ofDocuments items heap methods callables]
    rfl
  | .object members => fun heap methods callables => by
    simp only [ofDocument, blind_ofMembers members heap methods callables]
    rfl

theorem blind_ofDocuments : (documents : List Document) → Blind (·.ofDocuments documents)
  | [] => fun _ _ _ => rfl
  | first :: rest => fun heap methods callables => by
    simp only [ofDocuments, blind_ofDocument first heap methods callables, blind_ofDocuments rest _ methods callables]

theorem blind_ofMembers : (members : List (String × Document)) → Blind (·.ofMembers members)
  | [] => fun _ _ _ => rfl
  | (_, first) :: rest => fun heap methods callables => by
    simp only [ofMembers, blind_ofDocument first heap methods callables, blind_ofMembers rest _ methods callables]

end

end Heap

end HookScript
