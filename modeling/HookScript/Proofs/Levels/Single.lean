import HookScript.Proofs.Levels.Follows
import HookScript.Proofs.Run.Frames

/-!
Names that are bound once. Where no two of the frames that can be seen bind the same name, the level of a name does not
matter: the frame it leads to either has the only binding or none at all.
-/

namespace HookScript

namespace Heap

variable {heap heap' : Heap} {frame : FrameId} {level : Nat} {name : String}

/-- Of a frame and those around it no two bind the same name. -/
def BindsOnce (heap : Heap) (frame : FrameId) : Prop :=
  ∀ name, ∀ f ∈ heap.chain frame, ∀ g ∈ heap.chain frame, heap.Binds f name → heap.Binds g name → f = g

theorem BindsOnce.get?_eq (once : heap.BindsOnce frame) (level : Nat) (name : String) :
    heap.get? frame level name = heap.lookup? frame name := by
  unfold get?
  split
  · next value found =>
    obtain ⟨f, at_level, bound⟩ := Option.bind_eq_some_iff.1 found
    have among := List.mem_of_getElem? at_level
    cases seen : heap.lookup? frame name with
    | none =>
      have free := List.findSome?_eq_none_iff.1 seen f among
      cases free.symm.trans bound
    | some other =>
      obtain ⟨g, among', bound'⟩ := List.exists_of_findSome?_eq_some seen
      have same := once name f among g among' (by simp [Binds, bound]) (by simp [Binds, bound'])
      rw [← same] at bound'
      exact bound.symm.trans bound'
  · rfl

theorem BindsOnce.assignee?_eq (once : heap.BindsOnce frame) (level : Nat) (name : String) :
    heap.assignee? frame level name = (heap.chain frame).find? fun f => (heap.binding? f name).isSome := by
  unfold assignee?
  split
  · next f found =>
    obtain ⟨at_level, bound⟩ := Option.filter_eq_some_iff.1 found
    have among := List.mem_of_getElem? at_level
    cases seen : (heap.chain frame).find? fun f => (heap.binding? f name).isSome with
    | none => exact absurd bound (List.find?_eq_none.1 seen f among)
    | some g =>
      have bound' := List.find?_some seen
      exact congrArg some (once name f among g (List.mem_of_find?_eq_some seen) bound bound')
  · rfl

theorem BindsOnce.declare (once : heap.BindsOnce frame) (inside : heap.HasFrame frame) {target : FrameId}
    (free : ∀ f ∈ heap.chain frame, heap.Binds f name → f = target) (value : Value) :
    (heap.declare target name value).BindsOnce frame := by
  have binds {f : FrameId} {key : String} (bound : (heap.declare target name value).Binds f key) :
      f = target ∧ key = name ∨ heap.Binds f key := by
    rw [Binds, binding?_declare] at bound
    split at bound
    · next same => exact .inl ⟨same.1, same.2.2⟩
    · exact .inr bound
  intro key f hf g hg bound bound'
  rw [(extends_declare heap target name value).chain_eq inside] at hf hg
  rcases binds bound with ⟨rfl, rfl⟩ | old <;> rcases binds bound' with ⟨rfl, same⟩ | old'
  · rfl
  · exact (free g hg old').symm
  · exact free f hf (same ▸ old)
  · exact once key f hf g hg old old'

theorem chain_start (directory : Option Path) :
    (Machine.start directory).heap.chain (Machine.start directory).interpreter.scope = [⟨1⟩, ⟨0⟩] := by
  have around : (Machine.start directory).heap.parent? ⟨1⟩ = some ⟨0⟩ := rfl
  have outermost : (Machine.start directory).heap.parent? ⟨0⟩ = none := rfl
  have inner : (Machine.start directory).interpreter.scope = ⟨1⟩ := rfl
  rw [inner, chain_of_parent around, chain_eq, outermost]
  rfl

theorem bindsOnce_start (directory : Option Path) :
    (Machine.start directory).heap.BindsOnce (Machine.start directory).interpreter.scope := by
  have builtin {f : FrameId} {name : String} (among : f ∈ [(⟨1⟩ : FrameId), ⟨0⟩])
      (bound : (Machine.start directory).heap.Binds f name) : f = ⟨0⟩ := by
    simp only [List.mem_cons, List.not_mem_nil, or_false] at among
    rcases among with rfl | rfl
    · cases bound
    · rfl
  rw [BindsOnce, chain_start]
  exact fun name f hf g hg bound bound' => (builtin hf bound).trans (builtin hg bound').symm

namespace Alike

variable (alike : heap.Alike heap')
include alike

theorem binding?_eq (frame : FrameId) (name : String) : heap'.binding? frame name = heap.binding? frame name := by
  rw [binding?, binding?, alike.frames]

theorem chain_eq (frame : FrameId) : heap'.chain frame = heap.chain frame := by
  obtain ⟨i⟩ := frame
  induction i using Nat.strongRecOn with
  | ind i ih =>
    have outer : heap'.parent? ⟨i⟩ = heap.parent? ⟨i⟩ := by rw [parent?, parent?, alike.frames]
    rw [Heap.chain_eq, Heap.chain_eq heap, outer]
    cases found : heap.parent? ⟨i⟩ with
    | none => rfl
    | some parent => exact congrArg _ (ih parent.index (parent?_index_lt found))

theorem get?_eq (once : heap.BindsOnce frame) (level level' : Nat) (name : String) :
    heap'.get? frame level' name = heap.get? frame level name := by
  have once' : heap'.BindsOnce frame := by
    simpa only [BindsOnce, Binds, alike.chain_eq, alike.binding?_eq] using once
  rw [once.get?_eq, once'.get?_eq, lookup?, lookup?, alike.chain_eq]
  exact congrArg ((heap.chain frame).findSome? ·) (funext fun f => alike.binding?_eq f name)

theorem assignee?_eq (once : heap.BindsOnce frame) (level level' : Nat) (name : String) :
    heap'.assignee? frame level' name = heap.assignee? frame level name := by
  have once' : heap'.BindsOnce frame := by
    simpa only [BindsOnce, Binds, alike.chain_eq, alike.binding?_eq] using once
  rw [once.assignee?_eq, once'.assignee?_eq, alike.chain_eq]
  simp only [alike.binding?_eq]

end Alike

end Heap

inductive Run.Passes (world : World) : Nat → Task → Machine → Machine → Prop
  | begins {n t m} : Passes world n t m m
  | ends {n t m} : Passes world n t m (t.after world n m)
  | inside {n move t t' m m' w} (enters : Enters world n move t m t' m') (passes : Passes world n t' m' w) :
    Passes world (n + 1) t m w

/-- At every moment of the run no two of the frames that can be seen bind the same name. -/
def Task.Single (world : World) (n : Nat) (t : Task) (m : Machine) : Prop :=
  ∀ w, Run.Passes world n t m w → w.heap.BindsOnce w.interpreter.scope

namespace Task

variable {world : World} {n : Nat} {t : Task} {m : Machine}

namespace Single

theorem begins (single : t.Single world n m) : m.heap.BindsOnce m.interpreter.scope := single m .begins

theorem ends (single : t.Single world n m) :
    (t.after world n m).heap.BindsOnce (t.after world n m).interpreter.scope := single _ .ends

theorem inside {move : Move} {t' : Task} {m' : Machine} (single : t.Single world (n + 1) m)
    (enters : Run.Enters world n move t m t' m') : t'.Single world n m' :=
  fun w passes => single w (.inside enters passes)

theorem of_enters (begins : m.heap.BindsOnce m.interpreter.scope)
    (ends : (t.after world n m).heap.BindsOnce (t.after world n m).interpreter.scope)
    (inside : ∀ {k move t' m'}, Run.Enters world k move t m t' m' → t'.Single world k m') : t.Single world n m := by
  intro w passes
  cases passes with
  | begins => exact begins
  | ends => exact ends
  | inside enters passes => exact inside enters w passes

end Single

/-! Some tasks from the tasks in them -/

section

variable {name : String} {level : Nat} {value : Expr}

theorem single_literal (once : m.heap.BindsOnce m.interpreter.scope) (literal : Literal) :
    (Task.evaluate (.literal literal)).Single world n m := by
  refine .of_enters once ?_ nofun
  cases n <;> exact once

theorem single_lookup (once : m.heap.BindsOnce m.interpreter.scope) :
    (Task.evaluate (.lookup name level)).Single world n m := by
  refine .of_enters once ?_ nofun
  cases n with
  | zero => exact once
  | succ n =>
    simp only [after, Machine.after, Run.evaluate, Run.lookup?, Run.interpreter, Run.readHeap, bind, EStateM.bind]
    cases m.heap.get? m.interpreter.scope level name <;> exact once

theorem single_declare (single : ∀ k, (Task.evaluate value).Single world k m)
    (declared : ∀ k v m₁, Run.evaluate world k value m = .ok v m₁ →
      (m₁.heap.declare m₁.interpreter.scope name v).BindsOnce m₁.interpreter.scope) :
    (Task.execute (.declare name (some value))).Single world n m := by
  refine .of_enters (single 0).begins ?_ fun enters => ?_
  · cases n with
    | zero => exact (single 0).begins
    | succ n =>
      have ended := (single n).ends
      simp only [after, Machine.after, Run.execute, bind, EStateM.bind] at ended ⊢
      cases ran : Run.evaluate world n value m with
      | ok v m₁ => exact declared n v m₁ ran
      | error e m₁ =>
        rw [ran] at ended
        exact ended
  · cases enters
    exact single _

theorem single_exportAs (single : ∀ k, (Task.evaluate value).Single world k m) :
    (Task.execute (.exportAs name value)).Single world n m := by
  refine .of_enters (single 0).begins ?_ fun enters => ?_
  · cases n with
    | zero => exact (single 0).begins
    | succ n =>
      have ended := (single n).ends
      simp only [after, Machine.after, Run.execute, bind, EStateM.bind] at ended ⊢
      cases ran : Run.evaluate world n value m with
      | ok | error =>
        rw [ran] at ended
        exact ended
  · cases enters
    exact single _

theorem single_nil (once : m.heap.BindsOnce m.interpreter.scope) : (Task.executeProgram []).Single world n m := by
  refine .of_enters once ?_ nofun
  cases n <;> exact once

theorem single_cons {first : Stmt} {rest : List Stmt} (single : ∀ k, (Task.execute first).Single world k m)
    (onward : ∀ k m₁, Run.execute world k first m = .ok .normal m₁ → m₁.heap.BindsOnce m₁.interpreter.scope →
      (Task.executeProgram rest).Single world k m₁) : (Task.executeProgram (first :: rest)).Single world n m := by
  have reached {k m₁} (ran : Run.execute world k first m = .ok .normal m₁) :
      (Task.executeProgram rest).Single world k m₁ := by
    have ended := (single k).ends
    rw [after, Machine.after_of_ok ran] at ended
    exact onward k m₁ ran ended
  refine .of_enters (single 0).begins ?_ fun enters => ?_
  · cases n with
    | zero => exact (single 0).begins
    | succ n =>
      have ended := (single n).ends
      simp only [after, Machine.after, Run.executeProgram, bind, EStateM.bind] at ended ⊢
      cases ran : Run.execute world n first m with
      | ok done m₁ =>
        rw [ran] at ended
        cases done with
        | normal => exact (reached ran).ends
        | returned | leftLoop | nextRound => exact ended
      | error e m₁ =>
        rw [ran] at ended
        exact ended
  · cases enters with
    | firstOfProgram => exact single _
    | restOfProgram hf => exact reached hf

end

end Task

end HookScript
