import HookScript.Proofs.Run.Moves
import HookScript.Proofs.Scoping.Reading

/-!
Jumps on their way out. A return, a break or a continue ends one statement after another around it, up to the call
or the loop that takes it up. A call is evaluated for a value, so no jump gets beyond the call that it is in.
-/

namespace HookScript

def Stmt.jump? : Stmt → Option Jump
  | giveBack _ => some .giveBack
  | leaveLoop => some .leaveLoop
  | nextRound => some .nextRound
  | _ => none

/-- The task is a loop and the move leads into its body. -/
def Task.OpensRound : Task → Move → Prop
  | loop _ _, .enter => True
  | _, _ => False

namespace Run

/-- The second task comes up in the first one where a jump of this kind can go back: in the same call, in the same
file and, unless it is a return, in the same round of the same loop. -/
inductive Within (world : World) (jump : Jump) : Nat → Task → Machine → Nat → Task → Machine → Prop
  | refl {n t m} : Within world jump n t m n t m
  | step {n k move t t' t'' m m' m''} (enters : Enters world n move t m t' m') (inCall : move ≠ .call)
    (inFile : move ≠ .file) (inRound : t.OpensRound move → jump = .giveBack)
    (rest : Within world jump n t' m' k t'' m'') : Within world jump (n + 1) t m k t'' m''

end Run

theorem Completion.eq_returned {done : Completion} (jumps : done.jump? = some .giveBack) :
    ∃ v, done = .returned v := by
  cases done with
  | returned v => exact ⟨v, rfl⟩
  | _ => cases jumps

section Origin

variable {world : World} {n : Nat} {m m₁ : Machine} {done : Completion} {jump : Jump}

theorem Task.yields_branch {condition : Expr} {yes : Stmt} {no : Option Stmt}
    (yields : Run.execute world (n + 1) (.branch condition yes no) m = .ok done m₁) (jumps : done.jump? = some jump) :
    ∃ move t' m', Run.Enters world n move (.execute (.branch condition yes no)) m t' m' ∧
      t'.Yields world n m' done m₁ := by
  unfold Run.execute at yields
  obtain ⟨v, m₂, hc, ran⟩ := ok_of_bind yields
  split at ran
  · next truthy => exact ⟨_, _, _, .yes hc truthy, ran⟩
  · next falsy =>
    cases no with
    | none =>
      cases ran
      cases jumps
    | some no => exact ⟨_, _, _, .no hc (Bool.not_eq_true _ ▸ falsy), ran⟩

theorem Task.yields_execute {stmt : Stmt} (yields : Run.execute world (n + 1) stmt m = .ok done m₁)
    (jumps : done.jump? = some jump) :
    stmt.jump? = some jump ∨ ∃ move t' m' m₂ scope, Run.Enters world n move (.execute stmt) m t' m' ∧
      t'.Yields world n m' done m₂ ∧ m₁ = m₂.inFrame scope := by
  cases stmt with
  | block body =>
    obtain ⟨frame, m₂, opened, ran⟩ := ok_of_bind yields
    cases opened
    obtain ⟨m₃, inside, rfl⟩ := Run.withScope_ok ran
    exact .inr ⟨_, _, _, m₃, _, .block, inside, rfl⟩
  | branch condition yes no =>
    obtain ⟨move, t', m', enters, rest⟩ := yields_branch yields jumps
    exact .inr ⟨move, t', m', m₁, _, enters, rest, rfl⟩
  | loop condition body => exact .inr ⟨_, _, _, m₁, _, .loop, yields, rfl⟩
  | giveBack value =>
    cases value with
    | none =>
      cases yields
      exact .inl jumps
    | some value =>
      obtain ⟨v, m₂, -, ran⟩ := ok_of_bind yields
      cases ran
      exact .inl jumps
  | leaveLoop | nextRound =>
    cases yields
    exact .inl jumps
  | empty =>
    cases yields
    cases jumps
  | declare name initial =>
    cases initial with
    | none =>
      obtain ⟨_, m₂, -, ran⟩ := ok_of_bind yields
      cases ran
      cases jumps
    | some initial =>
      obtain ⟨v, m₂, -, ran⟩ := ok_of_bind yields
      obtain ⟨_, m₃, -, ran⟩ := ok_of_bind ran
      cases ran
      cases jumps
  | function name params body =>
    cases yields
    cases jumps
  | importFrom source =>
    obtain ⟨v, m₂, -, ran⟩ := ok_of_bind yields
    obtain ⟨_, m₃, -, ran⟩ := ok_of_bind ran
    cases ran
    cases jumps
  | expression value | exportAs name value =>
    obtain ⟨v, m₂, -, ran⟩ := ok_of_bind yields
    cases ran
    cases jumps

theorem Task.Yields.not_call {k : Nat} {move : Move} {t t' : Task} {m' : Machine}
    (yields : t'.Yields world k m' done m₁) (enters : Run.Enters world n move t m t' m') : move ≠ .call := by
  rintro rfl
  cases enters <;> exact yields

theorem Task.Yields.not_file {k : Nat} {move : Move} {t t' : Task} {m' : Machine}
    (yields : t'.Yields world k m' done m₁) (enters : Run.Enters world n move t m t' m') : move ≠ .file := by
  rintro rfl
  cases enters
  exact yields

theorem Task.yields_cases {t : Task} (yields : t.Yields world (n + 1) m done m₁) (jumps : done.jump? = some jump) :
    (∃ stmt, t = .execute stmt ∧ stmt.jump? = some jump) ∨
      ∃ move t' m' m₂ scope, Run.Enters world n move t m t' m' ∧
        (t.OpensRound move → jump = .giveBack) ∧ t'.Yields world n m' done m₂ ∧ m₁ = m₂.inFrame scope := by
  cases t with
  | execute stmt =>
    rcases Task.yields_execute yields jumps with itself | ⟨move, t', m', m₂, scope, enters, rest⟩
    · exact .inl ⟨stmt, rfl, itself⟩
    · exact .inr ⟨move, t', m', m₂, scope, enters, False.elim, rest⟩
  | executeAll stmts =>
    cases stmts with
    | nil =>
      cases yields
      cases jumps
    | cons first rest =>
      simp only [Task.Yields, Run.executeAll] at yields
      obtain ⟨ended, m₂, hf, ran⟩ := ok_of_bind yields
      cases ended with
      | normal => exact .inr ⟨_, _, _, m₁, _, .restStmts hf, False.elim, ran, rfl⟩
      | returned | leftLoop | nextRound =>
        cases ran
        exact .inr ⟨_, _, _, m₁, _, .firstStmt, False.elim, hf, rfl⟩
  | loop condition body =>
    simp only [Task.Yields, Run.loop] at yields
    obtain ⟨v, m₂, hc, ran⟩ := ok_of_bind yields
    split at ran
    · next truthy =>
      obtain ⟨frame, m₃, opened, ran⟩ := ok_of_bind ran
      cases opened
      obtain ⟨ended, m₄, left, ran⟩ := ok_of_bind ran
      obtain ⟨m₅, hb, rfl⟩ := Run.withScope_ok left
      cases ended with
      | normal => exact .inr ⟨_, _, _, m₁, _, .nextRound hc truthy hb (.inl rfl), False.elim, ran, rfl⟩
      | nextRound => exact .inr ⟨_, _, _, m₁, _, .nextRound hc truthy hb (.inr rfl), False.elim, ran, rfl⟩
      | leftLoop =>
        cases ran
        cases jumps
      | returned v =>
        cases ran
        cases jumps
        exact .inr ⟨_, _, _, m₅, _, .loopBody hc truthy, fun _ => rfl, hb, rfl⟩
    · cases ran
      cases jumps
  | _ => exact yields.elim

theorem Task.Yields.origin {t : Task} (yields : t.Yields world n m done m₁) (jumps : done.jump? = some jump) :
    ∃ k stmt m₀ m₂ scope, Run.Within world jump n t m k (.execute stmt) m₀ ∧ stmt.jump? = some jump ∧
      Run.execute world k stmt m₀ = .ok done m₂ ∧ m₁ = m₂.inFrame scope := by
  induction n generalizing t m m₁ with
  | zero => cases t <;> cases yields
  | succ n ih =>
    rcases Task.yields_cases yields jumps with
      ⟨stmt, rfl, itself⟩ | ⟨move, t', m', m₂, scope, enters, inRound, inner, rfl⟩
    · exact ⟨_, stmt, m, m₁, _, .refl, itself, yields, rfl⟩
    · obtain ⟨k, stmt, m₀, m₃, scope', within, itself, ran, rfl⟩ := ih inner
      have step := Run.Within.step enters (inner.not_call enters) (inner.not_file enters) inRound within
      exact ⟨k, stmt, m₀, m₃, scope, step, itself, ran, rfl⟩

end Origin

theorem Run.withScope_of_ok {α : Type} {scope : FrameId} {act : Run α} {a : α} {m m₁ : Machine}
    (ran : act (m.inFrame scope) = .ok a m₁) :
    withScope scope act m = .ok a (m₁.inFrame m.interpreter.scope) := by
  rw [withScope_eq, ran]

theorem Run.loop_of_round {world : World} {n : Nat} {condition : Expr} {body : List Stmt} {v : Value}
    {done : Completion} {m m₁ m₂ : Machine} (hc : evaluate world n condition m = .ok v m₁)
    (truthy : v.isTruthy = true) (hb : executeAll world n body m₁.opened = .ok done m₂) :
    loop world (n + 1) condition body m =
      match done with
      | .leftLoop => .ok .normal (m₂.inFrame m₁.interpreter.scope)
      | .returned value => .ok (.returned value) (m₂.inFrame m₁.interpreter.scope)
      | _ => loop world n condition body (m₂.inFrame m₁.interpreter.scope) := by
  have opened : innerFrame m₁ = .ok m₁.opened.interpreter.scope { m₁ with heap := m₁.opened.heap } := rfl
  have round : withScope m₁.opened.interpreter.scope (executeAll world n body)
      { m₁ with heap := m₁.opened.heap } = .ok done (m₂.inFrame m₁.interpreter.scope) := withScope_of_ok hb
  simp only [loop, bind, EStateM.bind, hc, truthy, if_true, opened, round]
  cases done <;> rfl

/-- How a task ends by a jump: statements pass it on, a call takes up a return as its value, and no other jump may leave
a call or a file. -/
def Task.EndsBy (world : World) (n : Nat) (done : Completion) (jump : Jump) : Task → Machine → Prop
  | runBody frame body, m => ∃ m', Run.runBody world n frame body m =
      match done with
      | .returned v => .ok v m'
      | _ => .error (.fault (.stray jump)) m'
  | executeProgram stmts, m => ∃ m', Run.executeProgram world n stmts m = .error (.fault (.stray jump)) m'
  | t, m => ∃ m', t.Yields world n m done m'

section Passing

variable {world : World} {n k : Nat} {t t' : Task} {m m' : Machine} {done : Completion} {jump : Jump} {move : Move}

theorem Task.EndsBy.ofBody {frame : FrameId} {body : List Stmt}
    (inner : (executeAll body).EndsBy world n done jump (m.inFrame frame)) (jumps : done.jump? = some jump) :
    (runBody frame body).EndsBy world (n + 1) done jump m := by
  obtain ⟨m', inside⟩ := inner
  simp only [EndsBy, Run.runBody, bind, EStateM.bind, Run.withScope_of_ok inside]
  cases done with
  | normal => cases jumps
  | returned v => exact ⟨_, rfl⟩
  | leftLoop | nextRound =>
    cases jumps
    exact ⟨_, rfl⟩

theorem Task.EndsBy.ofFirst {first : Stmt} {rest : List Stmt} (inner : (execute first).EndsBy world n done jump m)
    (jumps : done.jump? = some jump) : (executeAll (first :: rest)).EndsBy world (n + 1) done jump m := by
  obtain ⟨m', (ran : Run.execute world _ _ _ = .ok done m')⟩ := inner
  simp only [EndsBy, Yields, Run.executeAll, bind, EStateM.bind, ran]
  cases done with
  | normal => cases jumps
  | _ => exact ⟨_, rfl⟩

theorem Task.EndsBy.around (enters : Run.Enters world n move t m t' m')
    (inner : t'.EndsBy world n done jump m') (inCall : move ≠ .call) (inFile : move ≠ .file)
    (inRound : t.OpensRound move → jump = .giveBack) (jumps : done.jump? = some jump) :
    t.EndsBy world (n + 1) done jump m := by
  cases enters with
  | functionBody | methodBody => exact absurd rfl inCall
  | program => exact absurd rfl inFile
  | body => exact inner.ofBody jumps
  | block =>
    obtain ⟨m', inside⟩ := inner
    exact ⟨_, Run.withScope_of_ok inside⟩
  | yes hc truthy =>
    simp only [EndsBy, Yields, Run.execute, bind, EStateM.bind, hc, truthy, if_true]
    exact inner
  | no hc falsy =>
    simp only [EndsBy, Yields, Run.execute, bind, EStateM.bind, hc, falsy]
    exact inner
  | loop => exact inner
  | firstStmt => exact inner.ofFirst jumps
  | restStmts hf =>
    simp only [EndsBy, Yields, Run.executeAll, bind, EStateM.bind, hf]
    exact inner
  | loopBody hc truthy =>
    obtain rfl := inRound trivial
    obtain ⟨v, rfl⟩ := Completion.eq_returned jumps
    obtain ⟨m', inside⟩ := inner
    exact ⟨_, Run.loop_of_round hc truthy inside⟩
  | nextRound hc truthy hb goesOn =>
    obtain ⟨m', later⟩ := inner
    refine ⟨m', (Run.loop_of_round hc truthy hb).trans ?_⟩
    rcases goesOn with rfl | rfl <;> exact later
  | firstOfProgram =>
    obtain ⟨m', (first : Run.execute world _ _ _ = .ok done m')⟩ := inner
    simp only [EndsBy, Run.executeProgram, bind, EStateM.bind, first, jumps]
    exact ⟨_, rfl⟩
  | restOfProgram hf =>
    simp only [EndsBy, Run.executeProgram, bind, EStateM.bind, hf]
    exact inner
  | _ =>
    obtain ⟨_, impossible⟩ := inner
    exact impossible.elim

/-- A jump ends every task that it can go back to. -/
theorem Run.Within.endsBy {stmt : Stmt} {m₀ m₁ : Machine} (within : Within world jump n t m k (.execute stmt) m₀)
    (ran : execute world k stmt m₀ = .ok done m₁) (jumps : done.jump? = some jump) :
    t.EndsBy world n done jump m := by
  generalize isStmt : Task.execute stmt = last at within
  induction within with
  | refl =>
    subst isStmt
    exact ⟨m₁, ran⟩
  | step enters inCall inFile inRound _ ih => exact (ih ran isStmt).around enters inCall inFile inRound jumps

end Passing

end HookScript
