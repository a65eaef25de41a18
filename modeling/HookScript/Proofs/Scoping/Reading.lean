import Mathlib
import HookScript.Program.Parser
import HookScript.Proofs.Scoping.Stack

/-!
What the rules of the parser do to the scopes. A rule that succeeds in scopes that show a context yields a tree
whose levels are those of the context, and leaves scopes that show the context after the tree. The main
statement is that every level of an accepted program is the one counted in its text.
-/

namespace HookScript

theorem ok_of_bind {ε σ α β : Type} {act : EStateM ε σ α} {rest : α → EStateM ε σ β} {p p' : σ} {b : β}
    (h : (act >>= rest) p = .ok b p') : ∃ a q, act p = .ok a q ∧ rest a q = .ok b p' := by
  simp only [Bind.bind, EStateM.bind] at h
  split at h
  · next a q first => exact ⟨a, q, first, h⟩
  · cases h

namespace Parser

variable {α β : Type} {c : Context}

/-- A rule that leaves the scopes alone when it succeeds. -/
def Neutral (act : Parsing α) : Prop := ∀ p a p', act p = .ok a p' → p'.scopes = p.scopes

/-- What a rule that succeeds in the context `c` has read, and the context after it. -/
def Reads (c : Context) (act : Parsing α) (next : α → Context) (holds : α → Prop) : Prop :=
  ∀ p a p', p.scopes.Shows c → act p = .ok a p' → p'.scopes.Shows (next a) ∧ holds a

/-- What a rule has read that may declare names in the innermost scope of the context `c`, but in no other. -/
def ReadsWithin (c : Context) (act : Parsing α) (holds : α → Prop) : Prop :=
  ∀ p a p', p.scopes.Shows c → act p = .ok a p' →
    (∃ d : Context, d.outer = c.outer ∧ p'.scopes.Shows d) ∧ holds a

theorem Neutral.bind {act : Parsing α} {rest : α → Parsing β} (first : Neutral act)
    (later : ∀ a, Neutral (rest a)) : Neutral (act >>= rest) := by
  intro p b p' h
  obtain ⟨a, q, ha, hb⟩ := ok_of_bind h
  exact (later a q b p' hb).trans (first p a q ha)

theorem Neutral.pure (a : α) : Neutral (Pure.pure a) := by
  intro p a' p' h
  cases h
  rfl

theorem neutral_fail (error : SyntaxError) : Neutral (fail error : Parsing α) := by
  intro p a p' h
  cases h

theorem neutral_outOfSteps : Neutral (outOfSteps : Parsing α) := by
  intro p a p' h
  cases h

theorem neutral_peekKind : Neutral peekKind := by
  intro p kind p' h
  unfold peekKind at h
  split at h <;> cases h
  rfl

theorem neutral_take : Neutral take := by
  intro p token p' h
  unfold take at h
  split at h <;> cases h
  rfl

theorem neutral_discard : Neutral discard := by
  intro p u p' h
  cases h
  rfl

theorem neutral_expect (kinds : List TokenKind) : Neutral (expect kinds) := by
  refine neutral_take.bind fun token => ?_
  split
  · exact .pure token
  · exact neutral_fail _

theorem neutral_identifier : Neutral identifier := (neutral_expect _).bind fun _ => .pure _

theorem neutral_parameterNames (fuel : Nat) : Neutral (parameterNames fuel) := by
  induction fuel with
  | zero => exact neutral_outOfSteps
  | succ fuel ih =>
    refine neutral_identifier.bind fun name => (neutral_expect _).bind fun token => ?_
    split
    · exact .pure _
    · exact ih.bind fun rest => .pure _

theorem neutral_parameters (fuel : Nat) : Neutral (parameters fuel) := by
  refine (neutral_expect _).bind fun _ => neutral_peekKind.bind fun kind => ?_
  split
  · exact neutral_discard.bind fun _ => .pure _
  · exact neutral_parameterNames fuel

section Rules

variable {act : Parsing α} {rest : α → Parsing β} {next next' : α → Context} {later : β → Context}
  {holds holds' : α → Prop} {holdsLater : β → Prop}

theorem Neutral.reads (neutral : Neutral act) : Reads c act (fun _ => c) fun _ => True := by
  intro p a p' shows_c h
  rw [neutral p a p' h]
  exact ⟨shows_c, trivial⟩

theorem Reads.bind (first : Reads c act next holds)
    (second : ∀ a, holds a → Reads (next a) (rest a) later holdsLater) :
    Reads c (act >>= rest) later holdsLater := by
  intro p b p' shows_c h
  obtain ⟨a, q, ha, hb⟩ := ok_of_bind h
  obtain ⟨shows_next, read⟩ := first p a q shows_c ha
  exact second a read q b p' shows_next hb

theorem Neutral.andThen (neutral : Neutral act) (second : ∀ a, Reads c (rest a) later holdsLater) :
    Reads c (act >>= rest) later holdsLater :=
  neutral.reads.bind fun a _ => second a

theorem Reads.pure {a : α} (same : c.names = (next a).names) (read : holds a) :
    Reads c (Pure.pure a) next holds := by
  intro p a' p' shows_c h
  cases h
  exact ⟨shows_c.congr same, read⟩

theorem Reads.fail (error : SyntaxError) : Reads c (Parser.fail error) next holds := by
  intro p a p' _ h
  cases h

theorem Reads.outOfSteps : Reads c Parser.outOfSteps next holds := by
  intro p a p' _ h
  cases h

theorem Reads.mono (reads : Reads c act next holds)
    (weaker : ∀ a, holds a → (next a).names = (next' a).names ∧ holds' a) : Reads c act next' holds' := by
  intro p a p' shows_c h
  obtain ⟨shows_next, read⟩ := reads p a p' shows_c h
  obtain ⟨same, read'⟩ := weaker a read
  exact ⟨shows_next.congr same, read'⟩

theorem reads_of_names {d : Context} (same : c.names = d.names) (reads : Reads d act next holds) :
    Reads c act next holds :=
  fun p a p' shows_c h => reads p a p' (shows_c.congr same) h

theorem reads_declare (name : String) : Reads c (declare name) (fun _ => c.declare name) fun _ => True := by
  intro p u p' shows_c h
  unfold declare at h
  split at h
  · next scopes declared =>
    cases h
    exact ⟨shows_c.declare declared, trivial⟩
  · cases h

theorem reads_declareAll (params : List String) :
    Reads c (declareAll params) (fun _ => c.settleAll params) fun _ => True := by
  induction params generalizing c with
  | nil => exact .pure rfl trivial
  | cons name rest ih =>
    refine (reads_declare name).bind fun _ _ => reads_of_names (d := c.settle name) rfl ih

theorem reads_resolve (name : String) :
    Reads c (resolve name) (fun _ => c) fun level => level = c.resolve name := by
  intro p level p' shows_c h
  cases h
  exact ⟨shows_c, shows_c.resolve_eq name⟩

theorem Reads.within (reads : Reads c act next holds) (same : ∀ a, (next a).outer = c.outer) :
    ReadsWithin c act holds := by
  intro p a p' shows_c h
  obtain ⟨shows_next, read⟩ := reads p a p' shows_c h
  exact ⟨⟨next a, same a, shows_next⟩, read⟩

theorem Reads.andWithin (first : Reads c act next holds) (same : ∀ a, (next a).outer = c.outer)
    (second : ∀ a, holds a → ReadsWithin (next a) (rest a) holdsLater) :
    ReadsWithin c (act >>= rest) holdsLater := by
  intro p b p' shows_c h
  obtain ⟨a, q, ha, hb⟩ := ok_of_bind h
  obtain ⟨shows_next, read⟩ := first p a q shows_c ha
  obtain ⟨⟨d, outer, shows_d⟩, readLater⟩ := second a read q b p' shows_next hb
  exact ⟨⟨d, outer.trans (same a), shows_d⟩, readLater⟩

theorem ReadsWithin.inScope (inside : ReadsWithin c.enter act holds) :
    Reads c (inScope act) (fun _ => c) holds := by
  intro p a p' shows_c h
  unfold Parser.inScope at h
  split at h <;> cases h
  next q ha =>
    obtain ⟨⟨d, outer, shows_d⟩, read⟩ := inside _ a q shows_c.begin ha
    exact ⟨shows_d.finish outer, read⟩

theorem Reads.inMethod (inside : Reads ⟨.receiver, [c.globals]⟩ act next holds) :
    Reads c (inMethod act) (fun _ => c) holds := by
  intro p a p' shows_c h
  unfold Parser.inMethod at h
  split at h <;> cases h
  next q ha => exact ⟨shows_c, (inside _ a q shows_c.forMethod ha).2⟩

end Rules

theorem Tier.combine?_levelled {tier : Tier} {kind : TokenKind} {combine : Expr → Expr → Expr} {left right : Expr}
    (h : tier.combine? kind = some combine) (hl : left.levelled c = left) (hr : right.levelled c = right) :
    (combine left right).levelled c = combine left right := by
  unfold Tier.combine? at h
  split at h <;> cases h
  all_goals simp only [Expr.levelled, hl, hr]

theorem assignmentTo?_levelled {target value : Expr} {assign : Expr → Expr}
    (h : assignmentTo? target = some assign) (ht : target.levelled c = target) (hv : value.levelled c = value) :
    (assign value).levelled c = assign value := by
  unfold assignmentTo? at h
  split at h <;> cases h
  all_goals
    simp only [Expr.levelled, Expr.lookup.injEq, Expr.property.injEq, Expr.item.injEq, true_and, and_true] at ht
    simp only [Expr.levelled, hv, ht]

abbrev ReadsExpr (c : Context) (act : Parsing Expr) : Prop := Reads c act (fun _ => c) fun e => e.levelled c = e

abbrev ReadsStmt (c : Context) (act : Parsing Stmt) : Prop := Reads c act c.after fun s => s.levelled c = s

structure RulesRead (n : Nat) : Prop where
  declaration (c : Context) : ReadsStmt c (declaration n)
  variableDeclaration (c : Context) : ReadsStmt c (variableDeclaration n)
  statement (c : Context) : ReadsStmt c (statement n)
  function (c : Context) : ReadsStmt c (function n)
  giveBack (c : Context) : ReadsStmt c (giveBack n)
  importFrom (c : Context) : ReadsStmt c (importFrom n)
  exportAs (c : Context) : ReadsStmt c (exportAs n)
  branch (c : Context) : ReadsStmt c (branch n)
  block (c : Context) : Reads c (block n) c.afterAll fun body => levelledStmts c body = body
  blockRest (c : Context) : Reads c (blockRest n) c.afterAll fun body => levelledStmts c body = body
  assignment (c : Context) : ReadsExpr c (assignment n)
  chain (c : Context) (tier : Tier) : ReadsExpr c (chain n tier)
  chainRest (c : Context) (tier : Tier) {left : Expr} (read : left.levelled c = left) :
    ReadsExpr c (chainRest n tier left)
  operand (c : Context) (tier : Tier) : ReadsExpr c (operand n tier)
  unary (c : Context) : ReadsExpr c (unary n)
  accessRest (c : Context) {target : Expr} (read : target.levelled c = target) : ReadsExpr c (accessRest n target)
  elements (c : Context) (close : TokenKind) :
    Reads c (elements n close) (fun _ => c) fun es => levelledExprs c es = es
  primary (c : Context) : ReadsExpr c (primary n)
  properties (c : Context) : Reads c (properties n) (fun _ => c) fun ps => levelledProperties c ps = ps

namespace RulesRead

theorem zero : RulesRead 0 where
  declaration _ := .outOfSteps
  variableDeclaration _ := .outOfSteps
  statement _ := .outOfSteps
  function _ := .outOfSteps
  giveBack _ := .outOfSteps
  importFrom _ := .outOfSteps
  exportAs _ := .outOfSteps
  branch _ := .outOfSteps
  block _ := .outOfSteps
  blockRest _ := .outOfSteps
  assignment _ := .outOfSteps
  chain _ _ := .outOfSteps
  chainRest _ _ _ _ := .outOfSteps
  operand _ _ := .outOfSteps
  unary _ := .outOfSteps
  accessRest _ _ _ := .outOfSteps
  elements _ _ := .outOfSteps
  primary _ := .outOfSteps
  properties _ := .outOfSteps

section Expressions

variable {n : Nat} (ih : RulesRead n) (c : Context)
include ih

theorem assignment_succ : ReadsExpr c (Parser.assignment (n + 1)) := by
  rw [Parser.assignment]
  refine (ih.chain c .logical).bind fun target readTarget => neutral_peekKind.andThen fun kind => ?_
  split
  · refine neutral_discard.andThen fun _ => ?_
    split
    · next assign h =>
      refine (ih.assignment c).bind fun value readValue => .pure rfl ?_
      exact assignmentTo?_levelled h readTarget readValue
    · exact .fail _
  · exact .pure rfl readTarget

theorem chain_succ (tier : Tier) : ReadsExpr c (Parser.chain (n + 1) tier) := by
  rw [Parser.chain]
  exact (ih.operand c tier).bind fun first readFirst => ih.chainRest c tier readFirst

theorem chainRest_succ (tier : Tier) {left : Expr} (readLeft : left.levelled c = left) :
    ReadsExpr c (Parser.chainRest (n + 1) tier left) := by
  rw [Parser.chainRest]
  refine neutral_peekKind.andThen fun kind => ?_
  split
  · next combine h =>
    refine neutral_discard.andThen fun _ => (ih.operand c tier).bind fun right readRight => ?_
    exact ih.chainRest c tier (Tier.combine?_levelled h readLeft readRight)
  · exact .pure rfl readLeft

theorem operand_succ (tier : Tier) : ReadsExpr c (Parser.operand (n + 1) tier) := by
  rw [Parser.operand]
  split
  · next tighter _ => exact ih.chain c tighter
  · exact ih.unary c

theorem unary_succ : ReadsExpr c (Parser.unary (n + 1)) := by
  rw [Parser.unary]
  refine neutral_peekKind.andThen fun kind => ?_
  split
  · refine neutral_discard.andThen fun _ => (ih.unary c).bind fun operand read => .pure rfl ?_
    simp only [Expr.levelled, read]
  · refine neutral_discard.andThen fun _ => (ih.unary c).bind fun operand read => .pure rfl ?_
    simp only [Expr.levelled, read]
  · exact (ih.primary c).bind fun first read => ih.accessRest c read

theorem accessRest_succ {target : Expr} (readTarget : target.levelled c = target) :
    ReadsExpr c (Parser.accessRest (n + 1) target) := by
  rw [Parser.accessRest]
  refine neutral_peekKind.andThen fun kind => ?_
  split
  · refine neutral_discard.andThen fun _ => (ih.elements c _).bind fun args readArgs => ih.accessRest c ?_
    simp only [Expr.levelled, readTarget, readArgs]
  · refine neutral_discard.andThen fun _ => (ih.chain c .logical).bind fun index readIndex => ?_
    refine (neutral_expect _).andThen fun _ => ih.accessRest c ?_
    simp only [Expr.levelled, readTarget, readIndex]
  · refine neutral_discard.andThen fun _ => (neutral_expect _).andThen fun name => ih.accessRest c ?_
    simp only [Expr.levelled, readTarget]
  · exact .pure rfl readTarget

theorem elements_succ (close : TokenKind) :
    Reads c (Parser.elements (n + 1) close) (fun _ => c) fun es => levelledExprs c es = es := by
  rw [Parser.elements]
  refine neutral_peekKind.andThen fun kind => ?_
  split
  · exact neutral_discard.andThen fun _ => .pure rfl rfl
  · refine (ih.chain c .logical).bind fun first readFirst => neutral_peekKind.andThen fun after => ?_
    have more : Reads c (Parser.elements n close >>= fun others => Pure.pure (first :: others)) (fun _ => c)
        fun es => levelledExprs c es = es := by
      refine (ih.elements c close).bind fun others readOthers => .pure rfl ?_
      simp only [levelledExprs, readFirst, readOthers]
    dsimp only
    split
    · exact neutral_discard.andThen fun _ => more
    · split
      · exact neutral_take.andThen fun _ => (neutral_fail _).andThen fun _ => more
      · exact more

theorem properties_succ :
    Reads c (Parser.properties (n + 1)) (fun _ => c) fun ps => levelledProperties c ps = ps := by
  rw [Parser.properties]
  refine neutral_peekKind.andThen fun kind => ?_
  split
  · exact neutral_discard.andThen fun _ => .pure rfl rfl
  · refine (neutral_expect _).andThen fun key => (neutral_expect _).andThen fun _ => ?_
    refine (ih.chain c .logical).bind fun value readValue => (neutral_expect _).andThen fun token => ?_
    split
    · refine .pure rfl ?_
      simp only [levelledProperties, readValue]
    · refine (ih.properties c).bind fun others readOthers => .pure rfl ?_
      simp only [levelledProperties, readValue, readOthers]

theorem methodBody_reads (params : List String) :
    Reads c (inMethod (inScope do
        declareAll params
        Parser.block n))
      (fun _ => c) fun body => levelledStmts (c.methodBody params) body = body := by
  refine Reads.inMethod (ReadsWithin.inScope ?_)
  refine (reads_declareAll params).andWithin (fun _ => Context.outer_settleAll _ params) fun _ _ => ?_
  exact (ih.block _).within fun body => Context.outer_afterAll _ body

theorem primary_succ : ReadsExpr c (Parser.primary (n + 1)) := by
  rw [Parser.primary]
  refine neutral_take.andThen fun token => ?_
  split
  · refine (reads_resolve token.lexeme).bind fun level isLevel => .pure rfl ?_
    simp only [Expr.levelled, isLevel]
  · exact .pure rfl rfl
  · dsimp only
    split
    · exact .pure rfl rfl
    · exact .fail _
  · exact .pure rfl rfl
  · exact .pure rfl rfl
  · exact .pure rfl rfl
  · refine (ih.chain c .logical).bind fun inner read => (neutral_expect _).andThen fun _ => .pure rfl ?_
    simp only [Expr.levelled, read]
  · refine (ih.elements c _).bind fun items read => .pure rfl ?_
    simp only [Expr.levelled, read]
  · refine (neutral_expect _).andThen fun _ => (ih.properties c).bind fun properties read => .pure rfl ?_
    simp only [Expr.levelled, read]
  · refine (neutral_parameters n).andThen fun params => ?_
    refine (ih.methodBody_reads c params).bind fun body read => .pure rfl ?_
    simp only [Expr.levelled, read]
  · exact .fail _

end Expressions

section Statements

variable {n : Nat} (ih : RulesRead n) (c : Context)
include ih

theorem declaration_succ : ReadsStmt c (Parser.declaration (n + 1)) := by
  rw [Parser.declaration]
  refine neutral_peekKind.andThen fun kind => ?_
  split
  · exact ih.variableDeclaration c
  · exact ih.statement c

theorem variableDeclaration_succ : ReadsStmt c (Parser.variableDeclaration (n + 1)) := by
  rw [Parser.variableDeclaration]
  refine (neutral_expect _).andThen fun _ => neutral_identifier.andThen fun name => ?_
  refine (reads_declare name).bind fun _ _ => neutral_peekKind.andThen fun kind => ?_
  split
  · exact neutral_discard.andThen fun _ => .pure rfl rfl
  · refine (neutral_expect _).andThen fun _ => (ih.chain (c.declare name) .logical).bind fun initial read => ?_
    refine (neutral_expect _).andThen fun _ => .pure rfl ?_
    simp only [Stmt.levelled, read]

theorem scopedBlock_reads :
    Reads c (inScope (Parser.block n)) (fun _ => c) fun body => levelledStmts c.enter body = body :=
  ReadsWithin.inScope ((ih.block c.enter).within fun body => Context.outer_afterAll c.enter body)

theorem statement_succ : ReadsStmt c (Parser.statement (n + 1)) := by
  rw [Parser.statement]
  refine neutral_peekKind.andThen fun kind => ?_
  split
  · refine (ih.scopedBlock_reads c).bind fun body read => .pure rfl ?_
    simp only [Stmt.levelled, read]
  · exact ih.branch c
  · refine (neutral_expect _).andThen fun _ => (ih.chain c .logical).bind fun condition readCondition => ?_
    refine (ih.scopedBlock_reads c).bind fun body readBody => .pure rfl ?_
    simp only [Stmt.levelled, readCondition, readBody]
  · exact neutral_discard.andThen fun _ => .pure rfl rfl
  · exact ih.function c
  · exact ih.giveBack c
  · exact neutral_discard.andThen fun _ => (neutral_expect _).andThen fun _ => .pure rfl rfl
  · exact neutral_discard.andThen fun _ => (neutral_expect _).andThen fun _ => .pure rfl rfl
  · exact ih.importFrom c
  · exact ih.exportAs c
  · refine (ih.assignment c).bind fun value read => (neutral_expect _).andThen fun _ => .pure rfl ?_
    simp only [Stmt.levelled, read]

theorem functionRest_reads (name : String) :
    ReadsWithin (c.settle name).enter
      (do
        let params ← Parser.parameters n
        declareAll params
        let body ← Parser.block n
        return Stmt.function name params body)
      fun s => s.levelled c = s ∧ c.after s = c.settle name := by
  refine (neutral_parameters n).reads.andWithin (fun _ => rfl) fun params _ => ?_
  refine (reads_declareAll params).andWithin (fun _ => Context.outer_settleAll _ params) fun _ _ => ?_
  refine (ih.block (c.functionBody name params)).andWithin (fun body => Context.outer_afterAll _ body) ?_
  intro body read
  have done : Reads ((c.functionBody name params).afterAll body) (Pure.pure (Stmt.function name params body))
      (fun _ => (c.functionBody name params).afterAll body) fun s => s.levelled c = s ∧ c.after s = c.settle name :=
    .pure rfl ⟨by simp only [Stmt.levelled, read], rfl⟩
  exact done.within fun _ => rfl

theorem function_succ : ReadsStmt c (Parser.function (n + 1)) := by
  rw [Parser.function]
  refine (neutral_expect _).andThen fun _ => neutral_identifier.andThen fun name => ?_
  refine (reads_declare name).bind fun _ _ => reads_of_names (d := c.settle name) rfl ?_
  refine (ReadsWithin.inScope (ih.functionRest_reads c name)).mono fun s read => ?_
  exact ⟨by rw [read.2], read.1⟩

theorem giveBack_succ : ReadsStmt c (Parser.giveBack (n + 1)) := by
  rw [Parser.giveBack]
  refine (neutral_expect _).andThen fun _ => neutral_peekKind.andThen fun kind => ?_
  split
  · exact neutral_discard.andThen fun _ => .pure rfl rfl
  · refine (ih.chain c .logical).bind fun value read => (neutral_expect _).andThen fun _ => .pure rfl ?_
    simp only [Stmt.levelled, read]

theorem importFrom_succ : ReadsStmt c (Parser.importFrom (n + 1)) := by
  rw [Parser.importFrom]
  refine (neutral_expect _).andThen fun _ => (ih.primary c).bind fun source read => ?_
  refine (neutral_expect _).andThen fun _ => ?_
  split
  · refine .pure rfl ?_
    simp only [Stmt.levelled, read]
  · exact .fail _

theorem exportAs_succ : ReadsStmt c (Parser.exportAs (n + 1)) := by
  rw [Parser.exportAs]
  refine (neutral_expect _).andThen fun _ => (ih.assignment c).bind fun value read => ?_
  refine (neutral_expect _).andThen fun token => ?_
  split
  · split
    · refine .pure rfl ?_
      simp only [Stmt.levelled, read]
    · exact .fail _
  · refine neutral_identifier.andThen fun name => (neutral_expect _).andThen fun _ => .pure rfl ?_
    simp only [Stmt.levelled, read]

theorem branch_succ : ReadsStmt c (Parser.branch (n + 1)) := by
  rw [Parser.branch]
  refine (neutral_expect _).andThen fun _ => (ih.chain c .logical).bind fun condition readCondition => ?_
  refine (ih.statement c).bind fun yes readYes => neutral_peekKind.andThen fun kind => ?_
  split
  · refine neutral_discard.andThen fun _ => reads_of_names (Context.names_after c yes) ?_
    refine (ih.statement (c.declareAll yes.declares)).bind fun no readNo => .pure ?_ ?_
    · rw [Context.names_after]
      simp only [Context.after, Stmt.declares, Context.declareAll, List.foldl_append]
    · simp only [Stmt.levelled, readCondition, readYes, readNo]
  · refine .pure (Context.names_after c yes) ?_
    simp only [Stmt.levelled, readCondition, readYes]

theorem block_succ :
    Reads c (Parser.block (n + 1)) c.afterAll fun body => levelledStmts c body = body := by
  rw [Parser.block]
  exact (neutral_expect _).andThen fun _ => ih.blockRest c

theorem blockRest_succ :
    Reads c (Parser.blockRest (n + 1)) c.afterAll fun body => levelledStmts c body = body := by
  rw [Parser.blockRest]
  refine neutral_peekKind.andThen fun kind => ?_
  split
  · exact neutral_discard.andThen fun _ => .pure rfl rfl
  · exact .fail _
  · refine (ih.declaration c).bind fun first readFirst => ?_
    refine (ih.blockRest (c.after first)).bind fun rest readRest => .pure rfl ?_
    simp only [levelledStmts, readFirst, readRest]

end Statements

theorem succ {n : Nat} (ih : RulesRead n) : RulesRead (n + 1) where
  declaration := ih.declaration_succ
  variableDeclaration := ih.variableDeclaration_succ
  statement := ih.statement_succ
  function := ih.function_succ
  giveBack := ih.giveBack_succ
  importFrom := ih.importFrom_succ
  exportAs := ih.exportAs_succ
  branch := ih.branch_succ
  block := ih.block_succ
  blockRest := ih.blockRest_succ
  assignment := ih.assignment_succ
  chain := ih.chain_succ
  chainRest := ih.chainRest_succ
  operand := ih.operand_succ
  unary := ih.unary_succ
  accessRest := ih.accessRest_succ
  elements := ih.elements_succ
  primary := ih.primary_succ
  properties := ih.properties_succ

end RulesRead

theorem rulesRead (n : Nat) : RulesRead n := by
  induction n with
  | zero => exact .zero
  | succ n ih => exact ih.succ

theorem nextStatement_reads {p p' : Parser} {stmt : Stmt} (shows_c : p.scopes.Shows c)
    (h : nextStatement p = .ok (some stmt) p') : p'.scopes.Shows (c.after stmt) ∧ stmt.levelled c = stmt := by
  obtain ⟨kind, q, peeked, h⟩ := ok_of_bind h
  have shows_q : q.scopes.Shows c := by
    rw [neutral_peekKind p kind q peeked]
    exact shows_c
  by_cases ending : kind = .endOfFile
  · simp only [ending, ↓reduceIte] at h
    cases h
  · simp only [ending, ↓reduceIte] at h
    split at h
    · next read =>
      cases h
      exact (rulesRead _).declaration c q stmt _ shows_q read
    · split at h <;> cases h

theorem collect_ne_ok {fuel : Nat} {stmts : List Stmt} {error : ParseError} {errors : List ParseError}
    {p : Parser} {program : Program} : collect fuel stmts (error :: errors) p ≠ .ok program := by
  induction fuel generalizing stmts error errors p with
  | zero => simp [collect]
  | succ fuel ih =>
    rw [collect]
    split
    · exact ih
    · simp
    · exact ih
    · simp

theorem collect_levelled {fuel : Nat} {stmts : List Stmt} {p : Parser} {program : Program}
    (shows_all : p.scopes.Shows (Context.start.afterAll stmts.reverse))
    (read : levelledStmts .start stmts.reverse = stmts.reverse) (h : collect fuel stmts [] p = .ok program) :
    Program.levelled program = program := by
  induction fuel generalizing stmts p with
  | zero => cases h
  | succ fuel ih =>
    rw [collect] at h
    split at h
    · next stmt p' next =>
      obtain ⟨shows_next, readStmt⟩ := nextStatement_reads shows_all next
      refine ih ?_ ?_ h
      · rw [List.reverse_cons, Context.afterAll_append]
        exact shows_next
      · rw [List.reverse_cons, levelledStmts_append, read]
        simp only [levelledStmts, readStmt]
    · cases h
      exact read
    · exact absurd h collect_ne_ok
    · cases h

end Parser

/-- The parser settles the level of a name the moment it reads it. In an accepted program every level is the one
counted in the finished text. -/
theorem levelled_of_ofLexer {lexer : Lexer} {program : Program} (accepted : Program.ofLexer lexer = .ok program) :
    Program.levelled program = program :=
  Parser.collect_levelled ScopeStack.shows_start rfl accepted

theorem levelled_of_nested_text :
    ∃ program, program = [.declare "g" none, .block [.declare "a" none,
        .function "f" ["p"] [.block [.expression (.assign "a" 2 (.call (.lookup "z" 4) [.lookup "p" 1]))]],
        .declare "m" (some (.method ["q"] [.expression (.lookup "f" 3), .expression (.lookup "g" 2),
          .expression (.lookup "this" 1)])),
        .expression (.lookup "f" 0)]] ∧
      Program.ofText
        "var g; { var a; function f(p) { { a = z(p); } } var m = function(q) { f; g; this; }; f; }" =
          .ok program ∧
      Program.levelled program = program := by
  refine ⟨_, rfl, ?accepted, levelled_of_ofLexer ?accepted⟩
  cbv

end HookScript
