import HookScript.Proofs.Receivers.Bound

/-!
Decoders in the course of a run. What a decoder keeps is the only trace that decoding leaves besides new lists and
objects, and calling it is the only deed that touches this. So a decoder keeps its body all the time, and a value from
the moment that it has one.
-/

namespace HookScript

inductive World.Reads (world : World) (format : BodyFormat) (body : List UInt8) : Value → Prop
  | empty (nothing : body = []) : Reads world format body .nil
  | document {document} (something : body ≠ []) (read : world.decode format body = .ok document) (heap : Heap) :
    Reads world format body (heap.ofDocument document).1

def World.Fails (world : World) (format : BodyFormat) (body : List UInt8) (error : DecodeError) : Prop :=
  body ≠ [] ∧ world.decode format body = .error error

theorem World.Reads.not_fails {world : World} {format : BodyFormat} {body : List UInt8} {value : Value}
    (reads : world.Reads format body value) (error : DecodeError) : ¬world.Fails format body error := by
  rintro ⟨something, bad⟩
  cases reads with
  | empty nothing => exact something nothing
  | document _ read => cases read.symm.trans bad

namespace Heap

variable {world : World} {heap heap₁ heap₂ heap' : Heap}

structure KeepsDecoders (world : World) (heap heap' : Heap) : Prop where
  body {id : DecoderId} {format : BodyFormat} {body : List UInt8} {decoded : Option Value}
    (found : heap.decoder? id = some ⟨format, body, decoded⟩) :
    ∃ decoded, heap'.decoder? id = some ⟨format, body, decoded⟩
  kept {id : DecoderId} {format : BodyFormat} {body : List UInt8} {value : Value}
    (found : heap.decoder? id = some ⟨format, body, some value⟩) :
    heap'.decoder? id = some ⟨format, body, some value⟩
  reads {id : DecoderId} {format : BodyFormat} {body : List UInt8} {value : Value}
    (fresh : heap.decoder? id = some ⟨format, body, none⟩)
    (found : heap'.decoder? id = some ⟨format, body, some value⟩) : world.Reads format body value

namespace KeepsDecoders

theorem of_eq (same : heap'.decoders = heap.decoders) : heap.KeepsDecoders world heap' where
  body found := ⟨_, by rwa [decoder?, same]⟩
  kept found := by rwa [decoder?, same]
  reads fresh found := by
    rw [decoder?, same] at found
    cases fresh.symm.trans found

theorem trans (first : heap.KeepsDecoders world heap₁) (second : heap₁.KeepsDecoders world heap₂) :
    heap.KeepsDecoders world heap₂ where
  body found := by
    obtain ⟨_, found₁⟩ := first.body found
    exact second.body found₁
  kept found := second.kept (first.kept found)
  reads fresh found := by
    obtain ⟨decoded, found₁⟩ := first.body fresh
    cases decoded with
    | none => exact second.reads found₁ found
    | some value =>
      cases (second.kept found₁).symm.trans found
      exact first.reads fresh found₁

end KeepsDecoders

theorem decoder?_remember (heap : Heap) (id other : DecoderId) (value : Value) :
    (heap.remember id value).decoder? other =
      if id = other then (heap.decoder? other).map ({ · with decoded := some value }) else heap.decoder? other := by
  have indices : id = other ↔ id.index = other.index := ⟨congrArg _, fun same => congrArg DecoderId.mk same⟩
  simp only [decoder?, remember, Array.getElem?_modify, indices]

theorem keepsDecoders_remember {id : DecoderId} {format : BodyFormat} {body : List UInt8} {value : Value}
    (fresh : heap.decoder? id = some ⟨format, body, none⟩) (reads : world.Reads format body value) :
    heap.KeepsDecoders world (heap.remember id value) where
  body {other _ _ _} found := by
    rw [decoder?_remember, found]
    split <;> exact ⟨_, rfl⟩
  kept {other _ _ _} found := by
    have apart : id ≠ other := by
      rintro rfl
      cases fresh.symm.trans found
    rw [decoder?_remember, if_neg apart, found]
  reads {other _ _ _} fresh' found := by
    rw [decoder?_remember, fresh'] at found
    split at found
    · next same =>
      cases same
      cases fresh.symm.trans fresh'
      cases found
      exact reads
    · cases found

theorem decoders_declareAll (heap : Heap) (frame : FrameId) (entries : List (String × Value)) :
    (heap.declareAll frame entries).decoders = heap.decoders := by
  induction entries generalizing heap with
  | nil => rfl
  | cons entry rest ih => exact ih _

theorem decoders_frameWith (heap : Heap) (parent : FrameId) (entries : List (String × Value)) :
    (heap.frameWith parent entries).2.decoders = heap.decoders := decoders_declareAll _ _ _

theorem decoders_copyEach {copy : Value → Copying → Value × Copying}
    (each : ∀ value (c : Copying), (copy value c).2.heap.decoders = c.heap.decoders) (values : List Value)
    (c : Copying) :
    (Copying.copyEach copy values c).2.heap.decoders = c.heap.decoders := by
  induction values generalizing c with
  | nil => rfl
  | cons value rest ih => exact (ih _).trans (each value c)

theorem decoders_copyWithin (depth : Nat) (value : Value) (c : Copying) :
    (Copying.copyWithin depth value c).2.heap.decoders = c.heap.decoders := by
  induction depth generalizing value c with
  | zero => rfl
  | succ depth ih =>
    cases value with
    | list id =>
      rw [Copying.copyWithin]
      split
      · rfl
      · exact decoders_copyEach ih ((c.beginList id).2.heap.items id).toList (c.beginList id).2
    | object id =>
      rw [Copying.copyWithin]
      split
      · rfl
      · exact decoders_copyEach ih ((c.heap.properties id).entries.map (·.2)) (c.beginObject id).2
    | _ => rfl

theorem decoders_deepCopy (heap : Heap) (value : Value) : (heap.deepCopy value).2.decoders = heap.decoders :=
  decoders_copyWithin _ value ⟨heap, [], []⟩

mutual

theorem decoders_ofDocument (heap : Heap) :
    (document : Document) → (heap.ofDocument document).2.decoders = heap.decoders
  | .nil | .boolean _ | .number _ | .string _ => rfl
  | .list items => decoders_ofDocuments heap items
  | .object members => decoders_ofMembers heap members

theorem decoders_ofDocuments (heap : Heap) :
    (documents : List Document) → (heap.ofDocuments documents).2.decoders = heap.decoders
  | [] => rfl
  | first :: rest => (decoders_ofDocuments _ rest).trans (decoders_ofDocument heap first)

theorem decoders_ofMembers (heap : Heap) :
    (members : List (String × Document)) → (heap.ofMembers members).2.decoders = heap.decoders
  | [] => rfl
  | (_, first) :: rest => (decoders_ofMembers _ rest).trans (decoders_ofDocument heap first)

end

end Heap

theorem Interpreter.decoders_declareBuiltins (frame : FrameId) (builtins : List Builtin) (heap : Heap) :
    (declareBuiltins frame builtins heap).decoders = heap.decoders := by
  induction builtins generalizing heap with
  | nil => rfl
  | cons b rest ih => exact ih _

theorem Interpreter.decoders_start (heap : Heap) (directory : Option Path) (imports : List Path) :
    (start heap directory imports).2.decoders = heap.decoders := by
  have builtins := decoders_declareBuiltins (heap.newFrame none).1 Builtin.all (heap.newFrame none).2
  rw [start]
  exact builtins

namespace Run

variable {world : World} {comes : Nat → Task → Machine → Prop} {n : Nat} {t : Task} {m : Machine}
  {heap heap' : Heap} {id : DecoderId} {format : BodyFormat} {body : List UInt8} {value : Value}

theorem decoders_callListMethod (method : ListMethod) (list : ListId) (argument : Value) (m : Machine) :
    (m.after (callListMethod method (.list list) argument)).heap.decoders = m.heap.decoders := by
  cases method with
  | add | length | contains => rfl
  | find =>
    simp only [Machine.after, callListMethod, Bind.bind, EStateM.bind, readHeap]
    cases findItem (m.heap.items list) argument <;> rfl
  | remove =>
    cases argument with
    | number x =>
      simp only [Machine.after, callListMethod, Bind.bind, EStateM.bind, readHeap]
      cases (Value.position? x).filter (· < (m.heap.items list).size) <;> rfl
    | _ => rfl

/-- Decodes a body and keeps nothing. -/
def decodeBody (world : World) (format : BodyFormat) (body : List UInt8) : Run Value :=
  if body = [] then return .nil
  else
    match world.decode format body with
    | .error error => fault (.decoding error)
    | .ok document => changeHeap (·.ofDocument document)

def askDecoder (decode : BodyFormat → List UInt8 → Run Value) (id : DecoderId) : Run Value := do
  match ← readHeap (·.decoder? id) with
  | none => return .nil
  | some decoder =>
    match decoder.decoded with
    | some value => return value
    | none =>
      let value ← decode decoder.format decoder.body
      changeHeap fun heap => (value, heap.remember id value)

theorem callDecoder_eq_ask (world : World) (id : DecoderId) :
    callDecoder world id = askDecoder (decodeBody world) id := by
  funext m
  simp only [callDecoder, askDecoder, decodeBody, Bind.bind, EStateM.bind, readHeap]
  cases m.heap.decoder? id with
  | none => rfl
  | some decoder =>
    cases decoded : decoder.decoded with
    | some value => simp only [decoded]
    | none =>
      by_cases nothing : decoder.body = []
      · simp only [decoded, if_pos nothing]
        rfl
      · simp only [decoded, if_neg nothing]
        cases world.decode decoder.format decoder.body <;> rfl

theorem askDecoder_of_kept (found : m.heap.decoder? id = some ⟨format, body, some value⟩)
    (decode : BodyFormat → List UInt8 → Run Value) : askDecoder decode id m = .ok value m := by
  simp only [askDecoder, Bind.bind, EStateM.bind, readHeap, found]
  rfl

theorem askDecoder_of_fresh (found : m.heap.decoder? id = some ⟨format, body, none⟩)
    (decode : BodyFormat → List UInt8 → Run Value) : askDecoder decode id m =
      (do
        let value ← decode format body
        changeHeap fun heap => (value, heap.remember id value) : Run Value) m := by
  simp only [askDecoder, Bind.bind, EStateM.bind, readHeap, found]

theorem decodeBody_eq (world : World) (format : BodyFormat) (body : List UInt8) (m : Machine) :
    (∃ value heap, world.Reads format body value ∧ heap.decoders = m.heap.decoders ∧
      decodeBody world format body m = .ok value { m with heap }) ∨
    ∃ error, world.Fails format body error ∧ decodeBody world format body m = .error (.fault (.decoding error)) m := by
  unfold decodeBody
  by_cases nothing : body = []
  · rw [if_pos nothing]
    exact .inl ⟨.nil, m.heap, .empty nothing, rfl, rfl⟩
  · rw [if_neg nothing]
    cases read : world.decode format body with
    | error error => exact .inr ⟨error, ⟨nothing, read⟩, rfl⟩
    | ok document => exact .inl ⟨_, _, .document nothing read m.heap, Heap.decoders_ofDocument _ document, rfl⟩

theorem callDecoder_of_fresh (world : World) (found : m.heap.decoder? id = some ⟨format, body, none⟩) :
    (∃ value heap, world.Reads format body value ∧ heap.decoders = m.heap.decoders ∧
      decodeBody world format body m = .ok value { m with heap } ∧
      callDecoder world id m = .ok value { m with heap := heap.remember id value }) ∨
    ∃ error, world.Fails format body error ∧ decodeBody world format body m = .error (.fault (.decoding error)) m ∧
      callDecoder world id m = .error (.fault (.decoding error)) m := by
  rw [callDecoder_eq_ask, askDecoder_of_fresh found]
  rcases decodeBody_eq world format body m with ⟨value, heap, reads, same, ran⟩ | ⟨error, bad, ran⟩
  · refine .inl ⟨value, heap, reads, same, ran, ?_⟩
    simp only [Bind.bind, EStateM.bind, ran]
    rfl
  · refine .inr ⟨error, bad, ran, ?_⟩
    simp only [Bind.bind, EStateM.bind, ran]

theorem keepsDecoders_callDecoder (world : World) (id : DecoderId) (m : Machine) :
    m.heap.KeepsDecoders world (m.after (callDecoder world id)).heap := by
  cases found : m.heap.decoder? id with
  | none =>
    have ran : callDecoder world id m = .ok .nil m := by
      simp only [callDecoder, Bind.bind, EStateM.bind, readHeap, found]
      rfl
    rw [Machine.after_of_ok ran]
    exact .of_eq rfl
  | some decoder =>
    obtain ⟨format, body, decoded⟩ := decoder
    cases decoded with
    | some value =>
      rw [callDecoder_eq_ask, Machine.after_of_ok (askDecoder_of_kept found _)]
      exact .of_eq rfl
    | none =>
      rcases callDecoder_of_fresh world found with ⟨value, heap, reads, same, -, ran⟩ | ⟨error, -, -, ran⟩
      · have fresh : heap.decoder? id = some ⟨format, body, none⟩ := by rwa [Heap.decoder?, same]
        rw [Machine.after_of_ok ran]
        exact (Heap.KeepsDecoders.of_eq same).trans (Heap.keepsDecoders_remember fresh reads)
      · rw [Machine.after_of_error ran]
        exact .of_eq rfl

theorem Deed.extends (deed : Deed world n t m heap heap') : heap.Extends heap' := by
  cases deed with
  | assign | declare | declareAs => exact Heap.extends_declare _ _ _ _
  | readMethod | readListMethod => exact Heap.extends_newCallable _ _
  | setItem | setProperty | list | object =>
    exact Heap.KeepsMethods.extended (Heap.SameCode.keepsMethods ⟨rfl, rfl, rfl⟩)
  | method => exact Heap.extends_newMethod _ _
  | callFunction => exact (Heap.keepsMethods_frameWith _ _ _).extended
  | callMethod outer =>
    cases outer
    exact ((Heap.keepsMethods_frameWith _ _ _).trans (Heap.keepsMethods_frameWith _ _ _)).extended
  | callListMethod => exact (sameCode_callListMethod _ _ _ _).keepsMethods.extended
  | callDecoder => exact (sameCode_callDecoder _ _ _).keepsMethods.extended
  | clone => exact (Heap.sameCode_deepCopy _ _).keepsMethods.extended
  | function => exact Heap.extends_withFunction _ _ _ _ _
  | block | round => exact Heap.extends_newFrame _ _
  | @begin _ _ place =>
    exact (Interpreter.keepsMethods_start m.heap (some place.parent) (m.interpreter.imports ++ [place])).extended
  | bindExports => exact Heap.extends_declareAll _ _ _

theorem Course.extends (course : Course world comes heap heap') : heap.Extends heap' := by
  induction course with
  | refl => exact .refl _
  | tail _ step ih =>
    obtain ⟨_, _, _, -, deed⟩ := step
    exact ih.trans deed.extends

theorem Deed.keepsDecoders (deed : Deed world n t m heap heap') : heap.KeepsDecoders world heap' := by
  cases deed with
  | callDecoder => exact keepsDecoders_callDecoder _ _ m
  | callListMethod => exact .of_eq (decoders_callListMethod _ _ _ m)
  | clone => exact .of_eq (Heap.decoders_deepCopy _ _)
  | callFunction => exact .of_eq (Heap.decoders_frameWith _ _ _)
  | callMethod outer =>
    cases outer
    exact .of_eq ((Heap.decoders_frameWith _ _ _).trans (Heap.decoders_frameWith _ _ _))
  | @begin _ _ place =>
    exact .of_eq (Interpreter.decoders_start m.heap (some place.parent) (m.interpreter.imports ++ [place]))
  | bindExports => exact .of_eq (Heap.decoders_declareAll _ _ _)
  | _ => exact .of_eq rfl

theorem Course.keepsDecoders (course : Course world comes heap heap') : heap.KeepsDecoders world heap' := by
  induction course with
  | refl => exact .of_eq rfl
  | tail _ step ih =>
    obtain ⟨_, _, _, -, deed⟩ := step
    exact ih.trans deed.keepsDecoders

end Run

end HookScript
