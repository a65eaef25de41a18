import Mathlib
import HookScript.Proofs.Levels.Evaluator
import HookScript.Proofs.Parsing.Pieces
import HookScript.Proofs.Run.Fuel

/-!
Running a program in pieces. A piece that is read by itself differs from what stands in the whole program in the levels of
the names that other pieces bind. As long as no name is bound twice, the pieces one after another do what the program does.
-/

namespace HookScript

theorem alike_pieces (parts : List Program) :
    List.Forall₂ Stmt.Alike parts.flatten (parts.map Program.levelled).flatten := by
  induction parts with
  | nil => exact .nil
  | cons first rest ih =>
    exact List.rel_append (alike_levelledStmts .start first) ih

namespace Run

variable {world : World} {n k : Nat}

def executeParts (world : World) (fuel : Nat) : List Program → Run Unit
  | [] => return ()
  | part :: rest => do
    executeProgram world fuel part
    executeParts world fuel rest

theorem executeProgram_append (world : World) (n : Nat) (stmts later : List Stmt) :
    executeProgram world n (stmts ++ later) =
      executeProgram world n stmts >>= fun _ => executeProgram world (n - stmts.length) later := by
  induction stmts generalizing n with
  | nil => cases n <;> rfl
  | cons first rest ih =>
    cases n with
    | zero => rfl
    | succ n =>
      rw [List.cons_append, executeProgram, executeProgram, bind_assoc, List.length_cons, Nat.add_sub_add_right]
      refine congrArg (execute world n first >>= ·) (funext fun done => ?_)
      cases done.jump? with
      | none => exact ih n
      | some jump => rfl

theorem lasts_executeParts (world : World) (more : n ≤ k) (parts : List Program) :
    Lasts (executeProgram world n parts.flatten) (executeParts world k parts) := by
  induction parts generalizing n with
  | nil =>
    cases n with
    | zero => exact .outOfFuel _
    | succ n => exact .refl _
  | cons first rest ih =>
    rw [List.flatten_cons, executeProgram_append]
    exact .bind ((lasts_calls world more).executeProgram first) fun _ => ih (Nat.le_trans (Nat.sub_le _ _) more)

theorem lasts_executeProgram (world : World) (parts : List Program) (more : n + parts.flatten.length < k) :
    Lasts (executeParts world n parts) (executeProgram world k parts.flatten) := by
  induction parts generalizing k with
  | nil =>
    obtain ⟨k, rfl⟩ := Nat.exists_eq_add_one_of_ne_zero (Nat.ne_of_gt (Nat.zero_lt_of_lt more))
    exact .refl _
  | cons first rest ih =>
    rw [List.flatten_cons, List.length_append] at more
    rw [List.flatten_cons, executeProgram_append]
    exact .bind ((lasts_calls world (by omega)).executeProgram first) fun _ => ih (by omega)

theorem executeParts_lasts (world : World) (more : n ≤ k) (parts : List Program) :
    Lasts (executeParts world n parts) (executeParts world k parts) := by
  induction parts with
  | nil => exact .refl _
  | cons first rest ih => exact .bind ((lasts_calls world more).executeProgram first) fun _ => ih

end Run

namespace Host

variable {α β : Type} {world : World} {m m' : Machine}

/-- Reads and runs texts one after another, up to the first that fails. -/
def runTexts (world : World) (fuel : Nat) : List String → Host Unit
  | [] => return ()
  | text :: rest => do
    runText world fuel text
    runTexts world fuel rest

/-- It ends so by itself, with enough fuel and any more of it. -/
def Ends (act : Nat → Host α) (m : Machine) (result : EStateM.Result HostError Machine α) : Prop :=
  (∀ m', result ≠ .error .outOfFuel m') ∧ ∃ enough, ∀ fuel, enough ≤ fuel → act fuel m = result

theorem ofRun_bind (act : Run α) (next : α → Run β) : ofRun (act >>= next) = ofRun act >>= fun a => ofRun (next a) := by
  funext m
  simp only [ofRun, Bind.bind, EStateM.bind]
  cases act m with
  | ok a m₁ => rfl
  | error e m₁ => cases e <;> rfl

theorem runText_eq {text : String} {program : Program} (accepted : Program.ofText text = .ok program) (fuel : Nat) :
    runText world fuel text = ofRun (Run.executeProgram world fuel program) := by
  rw [runText, accepted]
  rfl

theorem runTexts_eq {texts : List String} {programs : List Program}
    (accepted : List.Forall₂ (fun text program => Program.ofText text = .ok program) texts programs) (fuel : Nat) :
    runTexts world fuel texts = ofRun (Run.executeParts world fuel programs) := by
  induction accepted with
  | nil => rfl
  | cons first rest ih => rw [runTexts, Run.executeParts, ofRun_bind, runText_eq first, ih]

theorem ofRun_apply (act : Run α) (m : Machine) : ofRun act m =
    match act m with
    | .ok a m₁ => .ok a m₁
    | .error (.fault f) m₁ => .error (.fault f) m₁
    | .error .outOfFuel m₁ => .error .outOfFuel m₁ := rfl

theorem enough_iff {act : Run α} : Run.Enough act m ↔ ∀ m₁, ofRun act m ≠ .error .outOfFuel m₁ := by
  rw [Run.Enough, ofRun_apply]
  cases act m with
  | ok a m₁ => simp
  | error e m₁ => cases e <;> simp

theorem ends_iff {act : Nat → Run α} (lasts : ∀ n k, n ≤ k → Run.Lasts (act n) (act k))
    {result : EStateM.Result HostError Machine α} :
    Ends (fun fuel => ofRun (act fuel)) m result ↔ ∃ n, Run.Enough (act n) m ∧ ofRun (act n) m = result := by
  constructor
  · rintro ⟨ended, least, same⟩
    have last : ofRun (act least) m = result := same least (Nat.le_refl _)
    exact ⟨least, enough_iff.2 (last ▸ ended), last⟩
  · rintro ⟨n, enough, rfl⟩
    refine ⟨enough_iff.1 enough, n, fun k more => ?_⟩
    change ofRun (act k) m = ofRun (act n) m
    rw [ofRun_apply, ofRun_apply, lasts n k more m enough]

end Host

namespace Run.Follows

variable {α α' : Type} {R : α → α' → Prop} {act : Run α} {act' : Run α'} {m m' : Machine}

theorem enough_iff (follows : Follows R (act m) (act' m')) : Enough act m ↔ Enough act' m' := by
  simp only [Enough]
  generalize act m = result, act' m' = result' at follows
  cases follows with
  | ok => simp
  | error => simp

theorem ofRun (follows : Follows R (act m) (act' m')) : Follows R (Host.ofRun act m) (Host.ofRun act' m') := by
  rw [Host.ofRun_apply, Host.ofRun_apply]
  generalize act m = result, act' m' = result' at follows
  cases follows with
  | ok related alike => exact .ok related alike
  | @error e _ _ alike => cases e <;> exact .error alike

end Run.Follows

/-- Either both end or neither does, and then with the same error, if any, and on machines that are alike: with the same
output, exports and bindings. -/
def Host.EndAlike (act act' : Nat → Host Unit) (m : Machine) : Prop :=
  (∀ result, Ends act m result → ∃ result', Ends act' m result' ∧ Run.Follows Eq result result') ∧
    ∀ result', Ends act' m result' → ∃ result, Ends act m result ∧ Run.Follows Eq result result'

theorem Host.endAlike_executeParts {world : World} {m : Machine} {parts : List Program}
    (single : ∀ fuel, (Task.executeProgram parts.flatten).Single world fuel m) :
    EndAlike (fun fuel => ofRun (Run.executeProgram world fuel parts.flatten))
      (fun fuel => ofRun (Run.executeParts world fuel (parts.map Program.levelled))) m := by
  have follow n := (Run.follows_calls world n).executeProgram (.refl m) (alike_pieces parts) (single n)
  constructor
  · intro whole ended
    obtain ⟨n, enough, rfl⟩ := (ends_iff fun _ _ more => (Run.lasts_calls world more).executeProgram _).1 ended
    have follows := follow n
    rw [← Run.lasts_executeParts world (Nat.le_refl n) _ m (follows.enough_iff.1 enough)] at follows
    exact ⟨_, (ends_iff fun _ _ more => Run.executeParts_lasts world more _).2
      ⟨n, follows.enough_iff.1 enough, rfl⟩, follows.ofRun⟩
  · intro pieces ended
    obtain ⟨n, enough, rfl⟩ := (ends_iff fun _ _ more => Run.executeParts_lasts world more _).1 ended
    have follows := follow (n + (parts.map Program.levelled).flatten.length + 1)
    rw [Run.lasts_executeProgram world _ (Nat.lt_succ_self _) m enough] at follows
    exact ⟨_, (ends_iff fun _ _ more => (Run.lasts_calls world more).executeProgram _).2
      ⟨_, follows.enough_iff.2 enough, rfl⟩, follows.ofRun⟩

/-- An accepted text can be cut into pieces behind any of its statements. If no two frames that can be seen at any time of
its run bind the same name, then the pieces, read and run one after another, do what the whole text does. -/
theorem Host.runs_in_pieces {world : World} {m : Machine} {text : String} {program : Program} {parts : List Program}
    (accepted : Program.ofText text = .ok program) (split : parts.flatten = program)
    (single : ∀ fuel, (Task.executeProgram program).Single world fuel m) :
    (∃ texts rest, text = String.join texts ++ rest ∧ List.Forall₂ Program.SpelledBy parts texts ∧
        Program.SpelledBy [] rest) ∧
      ∀ texts, List.Forall₂ Program.SpelledBy parts texts →
        EndAlike (runText world · text) (runTexts world · texts) m := by
  subst split
  refine ⟨Program.exists_pieces accepted, fun texts spelled => ?_⟩
  obtain ⟨-, -, -, -, -, -, shaped⟩ := written_of_ofLexer accepted
  have read := Program.ofText_pieces (fun part among => shaped.part among) spelled
  simp only [runText_eq accepted, runTexts_eq read]
  exact endAlike_executeParts single

def exportingParts : List Program :=
  [[.declare "a" (some (.literal (.integer 1)))], [.exportAs "a" (.lookup "a" 0)]]

theorem spelledBy_exportingParts :
    List.Forall₂ Program.SpelledBy exportingParts ["var a = 1;", "export a;"] := by
  refine .cons ⟨[(.ofKind .varWord, 1), (⟨.identifier, "a"⟩, 1), (.ofKind .equal, 1), (⟨.integer, "1"⟩, 1),
    (.ofKind .semicolon, 1)], ⟨[], nofun, by cbv⟩, ?first⟩ (.cons ⟨[(.ofKind .exportWord, 1), (⟨.identifier, "a"⟩, 1),
    (.ofKind .semicolon, 1)], ⟨[], nofun, by cbv⟩, ?second⟩ .nil)
  case first => exact ⟨_, _, ⟨_, ⟨_, ⟨rfl, by cbv⟩, rfl⟩, rfl⟩, rfl, rfl⟩
  case second => exact ⟨_, _, ⟨_, rfl, .inr ⟨⟨0, rfl⟩, rfl⟩⟩, rfl, rfl⟩

theorem single_exportingParts (world : World) (fuel : Nat) :
    (Task.executeProgram exportingParts.flatten).Single world fuel (Machine.start none) := by
  have once := Heap.bindsOnce_start none
  have free : ∀ f ∈ (Machine.start none).heap.chain (Machine.start none).interpreter.scope,
      (Machine.start none).heap.Binds f "a" → f = (Machine.start none).interpreter.scope := by
    have unbound : ¬ (Machine.start none).heap.Binds ⟨0⟩ "a" := by
      have builtins : (Machine.start none).heap.binding? ⟨0⟩ "a" = none := by cbv
      simp [Heap.Binds, builtins]
    rw [Heap.chain_start, List.forall_mem_cons, List.forall_mem_singleton]
    exact ⟨fun _ => rfl, fun bound => absurd bound unbound⟩
  refine Task.single_cons (fun k => Task.single_declare (fun k => Task.single_literal once _) ?_) fun k m₁ _ once => ?_
  · intro k v m₁ ran
    cases k with
    | zero => cases ran
    | succ k =>
      cases ran
      exact once.declare (by decide) free _
  · refine Task.single_cons (fun k => Task.single_exportAs fun k => Task.single_lookup once) fun k m₂ _ once => ?_
    exact Task.single_nil once

/-- The second piece finds the variable of the first, one frame further in than its level says. -/
theorem exportingParts_in_pieces :
    Program.ofText "var a = 1; export a;" = .ok exportingParts.flatten ∧
      (∀ fuel, (Task.executeProgram exportingParts.flatten).Single (.ofFiles []) fuel (Machine.start none)) ∧
      Host.EndAlike (Host.runText (.ofFiles []) · "var a = 1; export a;")
        (Host.runTexts (.ofFiles []) · ["var a = 1;", "export a;"])
        (Machine.start none) := by
  have accepted : Program.ofText "var a = 1; export a;" = .ok exportingParts.flatten := by cbv
  have single := single_exportingParts (.ofFiles [])
  exact ⟨accepted, single, (Host.runs_in_pieces accepted rfl single).2 _ spelledBy_exportingParts⟩

end HookScript
