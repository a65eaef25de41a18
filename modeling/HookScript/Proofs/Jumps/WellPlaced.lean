import HookScript.Proofs.Jumps.Passing
import HookScript.Proofs.Scoping.Visit

/-!
Jumps in their places. Where every break and continue is written in a loop and every return in a function or method,
no run of the code has a jump left over at the end of a call or of a file.
-/

namespace HookScript

structure Enclosure where
  loop : Bool
  body : Bool

namespace Enclosure

def top : Enclosure := ⟨false, false⟩

/-- The body of a function or method. The loops around it do not count. -/
def function : Enclosure := ⟨false, true⟩

def inLoop (around : Enclosure) : Enclosure := { around with loop := true }

def allows (around : Enclosure) : Jump → Bool
  | .giveBack => around.body
  | .leaveLoop | .nextRound => around.loop

end Enclosure

mutual

def Expr.wellPlaced : Expr → Bool
  | .lookup _ _ | .literal _ => true
  | .assign _ _ value => value.wellPlaced
  | .item target index => target.wellPlaced && index.wellPlaced
  | .setItem target index value => target.wellPlaced && index.wellPlaced && value.wellPlaced
  | .property target _ => target.wellPlaced
  | .setProperty target _ value => target.wellPlaced && value.wellPlaced
  | .group inner => inner.wellPlaced
  | .unary _ operand => operand.wellPlaced
  | .binary left _ right => left.wellPlaced && right.wellPlaced
  | .logical left _ right => left.wellPlaced && right.wellPlaced
  | .call callee args => callee.wellPlaced && wellPlacedExprs args
  | .list items => wellPlacedExprs items
  | .object properties => wellPlacedProperties properties
  | .method _ body => wellPlacedStmts .function body

def wellPlacedExprs : List Expr → Bool
  | [] => true
  | first :: rest => first.wellPlaced && wellPlacedExprs rest

def wellPlacedProperties : List (String × Expr) → Bool
  | [] => true
  | (_, value) :: rest => value.wellPlaced && wellPlacedProperties rest

def Stmt.wellPlaced (around : Enclosure) : Stmt → Bool
  | .expression value => value.wellPlaced
  | .declare _ none => true
  | .declare _ (some initial) => initial.wellPlaced
  | .block body => wellPlacedStmts around body
  | .branch condition yes none => condition.wellPlaced && yes.wellPlaced around
  | .branch condition yes (some no) => condition.wellPlaced && yes.wellPlaced around && no.wellPlaced around
  | .loop condition body => condition.wellPlaced && wellPlacedStmts around.inLoop body
  | .function _ _ body => wellPlacedStmts .function body
  | .giveBack none => around.allows .giveBack
  | .giveBack (some value) => around.allows .giveBack && value.wellPlaced
  | .leaveLoop => around.allows .leaveLoop
  | .nextRound => around.allows .nextRound
  | .importFrom source => source.wellPlaced
  | .exportAs _ value => value.wellPlaced
  | .empty => true

def wellPlacedStmts (around : Enclosure) : List Stmt → Bool
  | [] => true
  | first :: rest => first.wellPlaced around && wellPlacedStmts around rest

end

def Program.WellPlaced (program : Program) : Prop := wellPlacedStmts .top program = true

def World.WellPlaced (world : World) : Prop :=
  ∀ place text program, world.readText place = .ok text → Program.ofText text = .ok program → program.WellPlaced

/-- The jumps in the code of a task are in their places, if it stands in `around`. A body and a program have places of
their own. -/
def Task.WellPlaced (around : Enclosure) : Task → Prop
  | evaluate expr => expr.wellPlaced = true
  | evaluateAll exprs => wellPlacedExprs exprs = true
  | runBody _ body => wellPlacedStmts .function body = true
  | execute stmt => stmt.wellPlaced around = true
  | executeAll stmts => wellPlacedStmts around stmts = true
  | loop condition body => condition.wellPlaced = true ∧ wellPlacedStmts around.inLoop body = true
  | executeProgram stmts => wellPlacedStmts .top stmts = true
  | call _ _ | importFile _ => True

def Task.inside (around : Enclosure) : Task → Move → Enclosure
  | runBody _ _, _ => .function
  | executeProgram _, _ => .top
  | loop _ _, .enter => around.inLoop
  | _, _ => around

theorem wellPlacedExprs_of_properties (properties : List (String × Expr)) :
    wellPlacedExprs (properties.map (·.2)) = wellPlacedProperties properties := by
  induction properties with
  | nil => rfl
  | cons property rest ih => rw [List.map_cons, wellPlacedExprs, wellPlacedProperties, ih]

theorem Stmt.allows_of_wellPlaced {stmt : Stmt} {around : Enclosure} {jump : Jump}
    (placed : stmt.wellPlaced around = true) (itself : stmt.jump? = some jump) : around.allows jump = true := by
  cases stmt with
  | giveBack value =>
    cases itself
    cases value with
    | none => exact placed
    | some value => exact (Bool.and_eq_true_iff.1 placed).1
  | leaveLoop | nextRound =>
    cases itself
    exact placed
  | _ => cases itself

section

variable {world : World} {n : Nat} {t t' : Task} {m m' : Machine} {around : Enclosure}

theorem Run.Enters.wellPlaced {move : Move} (enters : Run.Enters world n move t m t' m')
    (filesPlaced : world.WellPlaced) (here : move ≠ .call) (placed : t.WellPlaced around) :
    t'.WellPlaced (t.inside around move) := by
  cases enters with
  | functionBody | methodBody => exact absurd rfl here
  | program found fresh read accepted => exact filesPlaced _ _ _ read accepted
  | @branchCondition _ _ no | @yes _ _ no =>
    cases no <;> simp_all [Task.WellPlaced, Task.inside, Stmt.wellPlaced]
  | _ =>
    simp_all [Task.WellPlaced, Task.inside, Expr.wellPlaced, Stmt.wellPlaced, wellPlacedExprs, wellPlacedStmts,
      wellPlacedExprs_of_properties]

theorem Task.Yields.allows {done : Completion} {jump : Jump} {m₁ : Machine} (yields : t.Yields world n m done m₁)
    (filesPlaced : world.WellPlaced) (placed : t.WellPlaced around) (jumps : done.jump? = some jump) :
    around.allows jump = true := by
  induction n generalizing t m m₁ around with
  | zero => cases t <;> cases yields
  | succ n ih =>
    rcases Task.yields_cases yields jumps with
      ⟨stmt, rfl, itself⟩ | ⟨move, t', m', m₂, scope, enters, inRound, inner, rfl⟩
    · exact Stmt.allows_of_wellPlaced placed itself
    · have allowed := ih inner (enters.wellPlaced filesPlaced (inner.not_call enters) placed)
      cases t with
      | loop condition body =>
        cases move with
        | enter =>
          obtain rfl := inRound trivial
          exact allowed
        | _ => exact allowed
      | execute | executeAll => exact allowed
      | _ => exact yields.elim

variable {sources : Program → Prop}

/-- All code that a run comes to has its jumps in their places: a body that is called has been written somewhere. -/
theorem Visits.wellPlaced {p : Point} (visits : Visits world Program.WellPlaced p n t m)
    (filesPlaced : world.WellPlaced) : ∃ around, t.WellPlaced around := by
  induction visits with
  | start starts =>
    cases starts with
    | text between accepted source | file between accepted source => exact ⟨.top, source⟩
    | call | callOn => exact ⟨.top, trivial⟩
  | step visits enters near ih =>
    obtain ⟨around, placed⟩ := ih
    refine ⟨_, enters.wellPlaced filesPlaced ?_ placed⟩
    rintro rfl
    cases near
  | functionBody visits entry made there since ih ihMade =>
    obtain ⟨around, placed⟩ := ihMade
    exact ⟨.function, by simpa only [Task.WellPlaced, Stmt.wellPlaced] using placed⟩
  | methodBody visits outer entry made there since ih ihMade =>
    obtain ⟨around, placed⟩ := ihMade
    exact ⟨.function, by simpa only [Task.WellPlaced, Expr.wellPlaced] using placed⟩

theorem Run.Reached.never_stray (reached : Run.Reached world Program.WellPlaced n t m) (filesPlaced : world.WellPlaced)
    (jump : Jump) : ¬ t.Fails world n m (.fault (.stray jump)) := by
  intro fails
  induction n generalizing t m with
  | zero =>
    cases t <;>
    · obtain ⟨m', failed⟩ := fails
      cases failed
  | succ n ih =>
    rcases Task.reason fails with plain | reason
    · exact plain rfl
    · cases reason with
      | entered enters fails => exact ih (reached.enter enters) fails
      | stray enters yields jumps bounds =>
        obtain ⟨p, visits⟩ := reached.seen.visited
        obtain ⟨around, placed⟩ := visits.wellPlaced filesPlaced
        have allowed := yields.allows filesPlaced (enters.wellPlaced filesPlaced (yields.not_call enters) placed) jumps
        cases t with
        | runBody frame body =>
          cases jump with
          | giveBack => exact bounds rfl
          | leaveLoop | nextRound => cases allowed
        | executeProgram stmts => cases jump <;> cases allowed
        | _ => exact bounds

end

end HookScript
