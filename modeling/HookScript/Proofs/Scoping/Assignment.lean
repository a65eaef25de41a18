import HookScript.Proofs.Run.Frames
import Mathlib

/-!
Reading and assigning through a level. Both look in the frame that the level leads to and then from the inside on, each
in its own way, and come to the same cell: an assignment takes place exactly where the name is read, and no other
reading notices it.
-/

namespace HookScript

namespace Heap

variable {heap heap' : Heap} {scope frame other : FrameId} {level : Nat} {name : String} {value : Value}

/-- The frame whose binding is meant: the one that the level leads to, if it binds the name, and else the innermost one
that does. -/
inductive ReadsFrom (heap : Heap) (scope : FrameId) (level : Nat) (name : String) (frame : FrameId) : Prop
  | there (found : heap.ancestor? scope level = some frame) (bound : heap.Binds frame name)
  | innermost {inner outer : List FrameId} (absent : ∀ f, heap.ancestor? scope level = some f → ¬heap.Binds f name)
    (chain : heap.chain scope = inner ++ frame :: outer) (skipped : ∀ f ∈ inner, ¬heap.Binds f name)
    (bound : heap.Binds frame name)

theorem ReadsFrom.bound (reads : heap.ReadsFrom scope level name frame) : heap.Binds frame name := by
  cases reads with
  | there _ bound => exact bound
  | innermost _ _ _ bound => exact bound

theorem ReadsFrom.get?_eq (reads : heap.ReadsFrom scope level name frame) :
    heap.get? scope level name = heap.binding? frame name := by
  cases reads with
  | there found bound => exact get?_of_binds found bound
  | @innermost inner outer absent chain skipped bound =>
    obtain ⟨value, binding⟩ := Option.isSome_iff_exists.1 bound
    have direct : ((heap.ancestor? scope level).bind fun f => heap.binding? f name) = none := by
      refine Option.bind_eq_none_iff.2 fun f found => ?_
      simpa [Binds] using absent f found
    have before : inner.findSome? (fun f => heap.binding? f name) = none :=
      List.findSome?_eq_none_iff.2 fun f listed => by simpa [Binds] using skipped f listed
    simp only [get?, direct, lookup?, chain, List.findSome?_append, before, Option.none_or, List.findSome?_cons,
      binding]

theorem assignee?_eq_some_iff : heap.assignee? scope level name = some frame ↔ heap.ReadsFrom scope level name frame := by
  unfold assignee?
  cases direct : (heap.ancestor? scope level).filter fun f => (heap.binding? f name).isSome with
  | some target =>
    obtain ⟨found, bound⟩ := Option.filter_eq_some_iff.1 direct
    constructor
    · rintro ⟨⟩
      exact .there found bound
    · rintro (⟨found', -⟩ | ⟨absent, -⟩)
      · exact found.symm.trans found'
      · exact absurd bound (absent target found)
  | none =>
    have absent (f : FrameId) (found : heap.ancestor? scope level = some f) : ¬heap.Binds f name :=
      Option.filter_eq_none_iff.1 direct f found
    constructor
    · intro found
      obtain ⟨bound, inner, outer, chain, skipped⟩ := List.find?_eq_some_iff_append.1 found
      exact .innermost absent chain (fun f listed => by simpa [Binds] using skipped f listed) bound
    · rintro (⟨found, bound⟩ | ⟨-, chain, skipped, bound⟩)
      · exact absurd bound (absent frame found)
      · exact List.find?_eq_some_iff_append.2
          ⟨bound, _, _, chain, fun f listed => by simpa [Binds] using skipped f listed⟩

theorem get?_eq_none (nowhere : heap.assignee? scope level name = none) : heap.get? scope level name = none := by
  unfold assignee? at nowhere
  split at nowhere
  · cases nowhere
  · next direct =>
    have absent : ((heap.ancestor? scope level).bind fun f => heap.binding? f name) = none :=
      Option.bind_eq_none_iff.2 fun f found => by simpa using Option.filter_eq_none_iff.1 direct f found
    have unbound (f : FrameId) (listed : f ∈ heap.chain scope) : heap.binding? f name = none := by
      simpa using List.find?_eq_none.1 nowhere f listed
    simp only [get?, absent]
    exact List.findSome?_eq_none_iff.2 unbound

theorem get?_eq_bind (heap : Heap) (scope : FrameId) (level : Nat) (name : String) :
    heap.get? scope level name = (heap.assignee? scope level name).bind fun f => heap.binding? f name := by
  cases assignee : heap.assignee? scope level name with
  | none => exact get?_eq_none assignee
  | some frame => exact (assignee?_eq_some_iff.1 assignee).get?_eq

theorem chain_congr (same : ∀ f, heap'.parent? f = heap.parent? f) (frame : FrameId) :
    heap'.chain frame = heap.chain frame := by
  obtain ⟨i⟩ := frame
  induction i using Nat.strongRecOn with
  | ind i ih =>
    rw [chain_eq, chain_eq heap, same]
    cases found : heap.parent? ⟨i⟩ with
    | none => rfl
    | some parent => exact congrArg _ (ih parent.index (parent?_index_lt found))

theorem binding?_declare_of_binds (bound : heap.Binds frame name) (other : FrameId) (key : String) :
    (heap.declare frame name value).binding? other key =
      if other = frame ∧ key = name then some value else heap.binding? other key := by
  simp only [binding?_declare, hasFrame_of_binds bound, true_and]

theorem assignee?_declare (bound : heap.Binds frame name) (scope : FrameId) (level : Nat) (key : String) :
    (heap.declare frame name value).assignee? scope level key = heap.assignee? scope level key := by
  have binds : (fun f => ((heap.declare frame name value).binding? f key).isSome) =
      fun f => (heap.binding? f key).isSome := by
    funext f
    rw [binding?_declare_of_binds bound]
    split
    · next here =>
      obtain ⟨rfl, rfl⟩ := here
      exact bound.symm
    · rfl
  have chain := chain_congr (parent?_declare heap frame · name value)
  simp only [assignee?, ancestor?, chain, binds]

/-- An assignment finds a cell exactly when reading finds one, and it is the same. The new value is read there; any
reading that looks in another cell is what it was. As a part of a script the assignment does just this, and if it finds
no cell it stops the script on the machine as it is. -/
theorem assignment_agrees (heap : Heap) (scope : FrameId) (level : Nat) (name : String) (value : Value) :
    ((heap.assign? scope level name value).isSome ↔ (heap.get? scope level name).isSome) ∧
      (∀ heap', heap.assign? scope level name value = some heap' → ∃ frame,
        heap.ReadsFrom scope level name frame ∧ heap.get? scope level name = heap.binding? frame name ∧
        heap' = { heap with frames := heap'.frames } ∧ heap'.frames.size = heap.frames.size ∧
        (∀ f, heap'.parent? f = heap.parent? f) ∧
        (∀ f key, heap'.binding? f key = if f = frame ∧ key = name then some value else heap.binding? f key) ∧
        heap'.get? scope level name = some value ∧
        ∀ scope' level' name', ¬(heap.ReadsFrom scope' level' name' frame ∧ name' = name) →
          heap'.get? scope' level' name' = heap.get? scope' level' name') ∧
      ∀ world n expr m m', m'.heap = heap → m'.interpreter.scope = scope →
        Run.evaluate world n expr m = .ok value m' →
        Run.evaluate world (n + 1) (.assign name level expr) m =
          match heap.assign? scope level name value with
          | some heap' => .ok value { m' with heap := heap' }
          | none => .error (.fault (.undeclared name)) m' := by
  refine ⟨?found, ?changed, ?evaluated⟩
  case found =>
    rw [assign?, Option.isSome_map, get?_eq_bind]
    cases assignee : heap.assignee? scope level name with
    | none => rfl
    | some frame => exact iff_of_true rfl (assignee?_eq_some_iff.1 assignee).bound
  case changed =>
    intro heap' assigned
    obtain ⟨frame, assignee, rfl⟩ := Option.map_eq_some_iff.1 assigned
    have reads := assignee?_eq_some_iff.1 assignee
    have cells (f : FrameId) (key : String) : (heap.declare frame name value).binding? f key =
        if f = frame ∧ key = name then some value else heap.binding? f key :=
      binding?_declare_of_binds reads.bound f key
    refine ⟨frame, reads, reads.get?_eq, rfl, size_declare heap frame name value,
      (parent?_declare heap frame · name value), cells, ?again, ?others⟩
    case again =>
      rw [get?_eq_bind, assignee?_declare reads.bound, assignee, Option.bind_some, cells, if_pos ⟨rfl, rfl⟩]
    case others =>
      intro scope' level' name' elsewhere
      rw [get?_eq_bind, get?_eq_bind, assignee?_declare reads.bound]
      refine Option.bind_congr fun f assignee' => ?_
      rw [cells, if_neg]
      rintro ⟨rfl, same⟩
      exact elsewhere ⟨assignee?_eq_some_iff.1 assignee', same⟩
  case evaluated =>
    rintro world n expr m m' rfl rfl ran
    rw [assign?]
    cases assignee : m'.heap.assignee? m'.interpreter.scope level name with
    | some frame => exact Run.evaluate_assign ran assignee
    | none =>
      simp only [Run.evaluate, Run.interpreter, Run.readHeap, bind, EStateM.bind, ran, assignee]
      rfl

def shadowed : Heap where
  frames := #[⟨.ofList [("x", .nil)], none⟩, ⟨.ofList [("x", .boolean true)], some ⟨0⟩⟩, ⟨.empty, some ⟨1⟩⟩]
  lists := #[]
  objects := #[]
  methods := #[]
  callables := #[]
  decoders := #[]

/-- A level beyond the outermost scope means the innermost `x`; the one of the outermost scope stays. -/
theorem assignment_agrees_beyond : ∃ heap', shadowed.assign? ⟨2⟩ 5 "x" (.boolean false) = some heap' ∧
    shadowed.ReadsFrom ⟨2⟩ 5 "x" ⟨1⟩ ∧ heap'.get? ⟨2⟩ 5 "x" = some (.boolean false) ∧
    heap'.get? ⟨2⟩ 2 "x" = some .nil := by
  have inner : shadowed.assignee? ⟨2⟩ 5 "x" = some ⟨1⟩ := by cbv
  have outer : shadowed.assignee? ⟨2⟩ 2 "x" = some ⟨0⟩ := by cbv
  have assigned : shadowed.assign? ⟨2⟩ 5 "x" (.boolean false) = some (shadowed.declare ⟨1⟩ "x" (.boolean false)) := by
    rw [assign?, inner, Option.map_some]
  obtain ⟨frame, reads, -, -, -, -, -, again, others⟩ :=
    (assignment_agrees shadowed ⟨2⟩ 5 "x" (.boolean false)).2.1 _ assigned
  obtain rfl : frame = ⟨1⟩ := Option.some.inj ((assignee?_eq_some_iff.2 reads).symm.trans inner)
  have apart : ¬(shadowed.ReadsFrom ⟨2⟩ 2 "x" ⟨1⟩ ∧ "x" = "x") := by
    rintro ⟨here, -⟩
    rw [assignee?_eq_some_iff.2 here] at outer
    cases outer
  have before : shadowed.get? ⟨2⟩ 2 "x" = some .nil := by cbv
  exact ⟨_, assigned, reads, again, (others ⟨2⟩ 2 "x" apart).trans before⟩

end Heap

end HookScript
