import HookScript.Proofs.Jumps.WellPlaced
import HookScript.Proofs.Run.Files

/-!
Jumps taken up. Whatever the host does in a session of code with its jumps in their places, it never hears of a jump
that was left over.
-/

namespace HookScript

/-- The host never hears of a jump that was left over. -/
def Host.Settled {α : Type} (act : Host α) (m : Machine) : Prop :=
  ∀ jump m', act m ≠ .error (.fault (.stray jump)) m'

namespace Host

variable {α β ε : Type} {m : Machine}

theorem Settled.bind {act : Host α} {rest : α → Host β} (first : Settled act m)
    (second : ∀ a m₁, act m = .ok a m₁ → Settled (rest a) m₁) : Settled (act >>= rest) m := by
  intro jump m' failed
  simp only [Bind.bind, EStateM.bind] at failed
  cases ran : act m with
  | ok a m₁ =>
    rw [ran] at failed
    exact second a m₁ ran jump m' failed
  | error e m₁ =>
    rw [ran] at failed
    cases failed
    exact first jump m' ran

theorem Settled.ofExcept {error : ε → HostError} {result : Except ε α}
    (other : ∀ e jump, error e ≠ .fault (.stray jump)) : Settled (Host.ofExcept error result) m := by
  intro jump m' failed
  cases result with
  | ok a => cases failed
  | error e => exact other e jump (EStateM.Result.error.inj failed).1

theorem Settled.ofRun {S : Nat → Task → Machine → Prop} {act : Run α}
    (keeps : Run.Keeps S (· = .outOfFuel) m act) : Settled (Host.ofRun act) m := by
  intro jump m' failed
  unfold Host.ofRun at failed
  cases ran : act m with
  | ok a m₁ =>
    rw [ran] at failed
    cases failed
  | error e m₁ =>
    rw [ran] at failed
    rcases keeps.reason ⟨m₁, ran⟩ with plain | rfl
    · cases e with
      | fault f =>
        cases failed
        exact plain rfl
      | outOfFuel => exact plain
    · cases failed

theorem ofExcept_ok {error : ε → HostError} {result : Except ε α} {a : α} {m₁ : Machine}
    (ran : Host.ofExcept error result m = .ok a m₁) : result = .ok a ∧ m₁ = m := by
  cases result with
  | ok b =>
    cases ran
    exact ⟨rfl, rfl⟩
  | error e => cases ran

theorem ofRun_ok {act : Run α} {a : α} {m₁ : Machine} (ran : Host.ofRun act m = .ok a m₁) : act m = .ok a m₁ := by
  unfold Host.ofRun at ran
  split at ran
  · next done =>
    cases ran
    exact done
  · cases ran
  · cases ran

end Host

theorem Run.Reached.keeps {world : World} {n : Nat} {t : Task} {m : Machine}
    (reached : Run.Reached world Program.WellPlaced n t m) (filesPlaced : world.WellPlaced) :
    t.Keeps world (fun _ _ _ => True) (· = .outOfFuel) n m := by
  have later := @Task.later world _ n closed_true t m trivial
  have reason {e : Stop} (fails : t.Fails world n m e) : e.Plain ∨ e = .outOfFuel := by
    cases e with
    | outOfFuel => exact .inr rfl
    | fault f =>
      cases f with
      | stray jump => exact absurd fails (reached.never_stray filesPlaced jump)
      | _ => exact .inl nofun
  cases t <;> exact ⟨later, reason⟩

namespace Host

variable {m : Machine} {world : World} (filesPlaced : world.WellPlaced)
  (between : Session world Program.WellPlaced m) (fuel : Nat)
include filesPlaced between

theorem settled_runText (text : String)
    (source : ∀ program, Program.ofText text = .ok program → Program.WellPlaced program) :
    Settled (runText world fuel text) m := by
  refine .bind (.ofExcept nofun) fun program m₁ parsed => ?_
  obtain ⟨accepted, rfl⟩ := ofExcept_ok parsed
  have reached : Run.Reached world Program.WellPlaced fuel (.executeProgram program) m₁ :=
    .start (.text between accepted (source program accepted))
  exact .ofRun (reached.keeps filesPlaced)

theorem settled_runFile (path : Path) : Settled (runFile world fuel path) m := by
  refine .bind (.ofExcept nofun) fun place m₁ found => ?_
  obtain ⟨-, rfl⟩ := ofExcept_ok found
  refine .bind (.ofExcept nofun) fun text m₂ isRead => ?_
  obtain ⟨read, rfl⟩ := ofExcept_ok isRead
  refine .bind (.ofExcept nofun) fun program m₃ parsed => ?_
  obtain ⟨accepted, rfl⟩ := ofExcept_ok parsed
  have reached : Run.Reached world Program.WellPlaced fuel (.executeProgram program) (m₃.running place) :=
    .start (.file between accepted (filesPlaced place text program read accepted))
  have settled : Settled (Host.ofRun (Run.executeProgram world fuel program)) (m₃.running place) :=
    .ofRun (reached.keeps filesPlaced)
  refine .bind (fun _ _ => nofun) fun _ m₄ begun => ?_
  cases begun
  intro jump m' failed
  dsimp only at failed
  split at failed
  · cases failed
  · next ran =>
    cases failed
    exact settled jump _ ran

omit between in
theorem settled_call {callable : Callable} {args : List Value}
    (reached : args.length = callable.arity → Run.Reached world Program.WellPlaced fuel (.call callable args) m) :
    Settled (call world fuel callable args) m :=
  .ofRun (.bindExcept (callable.byOperands_checkArity _).plain fun _ checked =>
    (reached (Callable.checkArity_ok checked)).keeps filesPlaced)

theorem settled_callValue (value : Value) (args : List Value) : Settled (callValue world fuel value args) m := by
  refine .bind (.ofRun (S := fun _ _ _ => True) (Run.keeps_asCallable value)) fun callable m₁ isCallable => ?_
  obtain ⟨id, -, found, rfl⟩ := Run.asCallable_ok (ofRun_ok isCallable)
  exact settled_call filesPlaced fuel fun arity => .start (.call between found arity)

theorem settled_callOn (value receiver : Value) (args : List Value) :
    Settled (callOn world fuel value receiver args) m := by
  have method : Settled (Host.ofRun do
      let method ← asMethod value
      Run.ofExcept (method.bind receiver)) m := by
    refine .ofRun (S := fun _ _ _ => True) (.bind ?_ fun method m₁ _ _ => .ofExcept (method.plain_bind receiver))
    rcases asMethod_eq value m with ⟨method, -, ran⟩ | ⟨shown, ran⟩
    · exact .of_ok ran (.refl m)
    · exact .of_error ran (.refl m) (.inl nofun)
  refine .bind method fun callable m₁ isBound => ?_
  obtain ⟨method, m₂, isMethod, bound⟩ := ok_of_bind (ofRun_ok isBound)
  obtain ⟨held, rfl⟩ := asMethod_ok isMethod
  obtain ⟨accepted, rfl⟩ := Run.ofExcept_ok bound
  obtain rfl := Method.bind_ok accepted
  exact settled_call filesPlaced fuel fun arity => .start (.callOn between held arity)

theorem settled_hook (exchange : Exchange) (script : String)
    (source : ∀ program, Program.ofText script = .ok program → Program.WellPlaced program) :
    Settled (exchange.hook world fuel script) m := by
  refine .bind (.ofExcept nofun) fun program m₁ parsed => ?_
  obtain ⟨accepted, rfl⟩ := ofExcept_ok parsed
  have prepared := (between.exchange exchange).declare exchange.name (.object (exchange.toObject m₁.heap).1)
  have reached : Run.Reached world Program.WellPlaced fuel (.executeProgram program) _ :=
    .start (.text prepared accepted (source program accepted))
  refine .bind (fun _ _ => nofun) fun object m₂ made => ?_
  cases made
  refine .bind (fun _ _ => nofun) fun _ m₃ declared => ?_
  cases declared
  exact .bind (.ofRun (reached.keeps filesPlaced)) fun _ _ _ _ _ => nofun

end Host

theorem Run.runBody_ok {world : World} {n : Nat} {frame : FrameId} {body : List Stmt} {m m₁ : Machine} {v : Value}
    (ran : runBody world (n + 1) frame body m = .ok v m₁) :
    ∃ done m₂, executeAll world n body (m.inFrame frame) = .ok done m₂ ∧
      m₁ = m₂.inFrame m.interpreter.scope ∧ (done = .normal ∧ v = .nil ∨ done = .returned v) := by
  obtain ⟨done, m₂, inside, ran⟩ := ok_of_bind ran
  obtain ⟨m₃, executed, rfl⟩ := withScope_ok inside
  refine ⟨done, m₃, executed, ?_⟩
  cases done with
  | normal =>
    cases ran
    exact ⟨rfl, .inl ⟨rfl, rfl⟩⟩
  | returned value =>
    cases ran
    exact ⟨rfl, .inr rfl⟩
  | leftLoop | nextRound => cases ran

/-- In code with its jumps in their places no jump is ever left over, neither at the end of a call nor at that of a
file, whatever the host does. In any code whatsoever, what ends by a jump does so because of a jump that was executed
last, in the same call and unless it is a return in the same round of the same loop; a call comes to an end by itself or
by a return in it; and a jump ends just what lies between it and the call, the file or the round that it is in. -/
theorem jumps_taken_up (world : World) :
    (world.WellPlaced →
      (∀ n t m, Run.Reached world Program.WellPlaced n t m → ∀ jump, ¬ t.Fails world n m (.fault (.stray jump))) ∧
      ∀ m fuel, Session world Program.WellPlaced m →
        (∀ text, (∀ program, Program.ofText text = .ok program → Program.WellPlaced program) →
          Host.Settled (Host.runText world fuel text) m) ∧
        (∀ path, Host.Settled (Host.runFile world fuel path) m) ∧
        (∀ value args, Host.Settled (Host.callValue world fuel value args) m) ∧
        (∀ value receiver args, Host.Settled (Host.callOn world fuel value receiver args) m) ∧
        ∀ (exchange : Exchange) script,
          (∀ program, Program.ofText script = .ok program → Program.WellPlaced program) →
          Host.Settled (exchange.hook world fuel script) m) ∧
    (∀ n t m done jump m₁, t.Yields world n m done m₁ → done.jump? = some jump →
      ∃ k stmt m₀ m₂ scope, Run.Within world jump n t m k (.execute stmt) m₀ ∧ stmt.jump? = some jump ∧
        Run.execute world k stmt m₀ = .ok done m₂ ∧ m₁ = m₂.inFrame scope) ∧
    (∀ n frame body m v m₁, Run.runBody world (n + 1) frame body m = .ok v m₁ →
      ∃ done m₂, Run.executeAll world n body (m.inFrame frame) = .ok done m₂ ∧
        m₁ = m₂.inFrame m.interpreter.scope ∧ (done = .normal ∧ v = .nil ∨ done = .returned v)) ∧
    ∀ n k t stmt m m₀ m₁ done jump, Run.Within world jump n t m k (.execute stmt) m₀ →
      Run.execute world k stmt m₀ = .ok done m₁ → done.jump? = some jump → t.EndsBy world n done jump m := by
  refine ⟨fun filesPlaced => ⟨?reached, ?session⟩, ?origin, ?body, ?onwards⟩
  case reached => exact fun n t m reached jump => reached.never_stray filesPlaced jump
  case session =>
    intro m fuel between
    exact ⟨Host.settled_runText filesPlaced between fuel, Host.settled_runFile filesPlaced between fuel,
      Host.settled_callValue filesPlaced between fuel, Host.settled_callOn filesPlaced between fuel,
      Host.settled_hook filesPlaced between fuel⟩
  case origin => exact fun n t m done jump m₁ yields jumps => yields.origin jumps
  case body => exact fun n frame body m v m₁ ran => Run.runBody_ok ran
  case onwards => exact fun n k t stmt m m₀ m₁ done jump within ran jumps => within.endsBy ran jumps

def leavingFiles : World :=
  .ofFiles [("/lib", "function f() \x7b while true \x7b break; \x7d return; \x7d f();")]

theorem wellPlaced_leavingFiles : leavingFiles.WellPlaced := by
  intro place text program read accepted
  obtain ⟨file, listed, rfl⟩ := World.exists_of_readText_ofFiles read
  cases List.mem_singleton.1 listed
  have parsed : Program.ofText "function f() \x7b while true \x7b break; \x7d return; \x7d f();" =
      .ok [.function "f" [] [.loop (.literal (.boolean true)) [.leaveLoop], .giveBack none],
        .expression (.call (.lookup "f" 0) [])] := by cbv
  cases parsed.symm.trans accepted
  simp [Program.WellPlaced, wellPlacedStmts, wellPlacedExprs, Stmt.wellPlaced, Expr.wellPlaced, Enclosure.inLoop,
    Enclosure.function, Enclosure.allows]

theorem jumps_taken_up_of_leavingFiles :
    leavingFiles.WellPlaced ∧ Session leavingFiles Program.WellPlaced (Machine.start none) ∧
      Host.Settled (Host.runFile leavingFiles 40 (.ofText "lib")) (Machine.start none) :=
  have between : Session leavingFiles Program.WellPlaced (Machine.start none) := .start none
  ⟨wellPlaced_leavingFiles, between,
    (((jumps_taken_up leavingFiles).1 wellPlaced_leavingFiles).2 (Machine.start none) 40 between).2.1 (.ofText "lib")⟩

end HookScript
