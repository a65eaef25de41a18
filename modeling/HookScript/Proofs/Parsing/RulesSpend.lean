import HookScript.Proofs.Parsing.Steps

/-!
Steps of the parser. The number of steps that it allows itself follows from the number of tokens, and no text is
too long for it: from one token to the next at most sixteen rules are entered, so a rule that has sixteen steps for
every token that is left, and some for the rules that it begins with, never runs out of them.
-/

namespace HookScript

namespace Parser

def Tier.rank : Tier → Nat
  | .product => 0
  | .sum => 1
  | .comparison => 2
  | .equality => 3
  | .logical => 4

structure RulesSpend (n : Nat) : Prop where
  declaration {p : Parser} (enough : 16 * p.left + 15 ≤ n) : Spends 1 p p (declaration n)
  variableDeclaration {p : Parser} (enough : 16 * p.left + 1 ≤ n) : Spends 1 p p (variableDeclaration n)
  statement {p : Parser} (enough : 16 * p.left + 14 ≤ n) : Spends 1 p p (statement n)
  function {p : Parser} (enough : 16 * p.left + 1 ≤ n) : Spends 1 p p (function n)
  giveBack {p : Parser} (enough : 16 * p.left + 1 ≤ n) : Spends 1 p p (giveBack n)
  importFrom {p : Parser} (enough : 16 * p.left + 1 ≤ n) : Spends 1 p p (importFrom n)
  exportAs {p : Parser} (enough : 16 * p.left + 1 ≤ n) : Spends 1 p p (exportAs n)
  branch {p : Parser} (enough : 16 * p.left + 1 ≤ n) : Spends 1 p p (branch n)
  block {p : Parser} (enough : 16 * p.left + 1 ≤ n) : Spends 1 p p (block n)
  blockRest {p : Parser} (enough : 16 * p.left + 16 ≤ n) : Spends 1 p p (blockRest n)
  assignment {p : Parser} (enough : 16 * p.left + 13 ≤ n) : Spends 1 p p (assignment n)
  chain {p : Parser} (tier : Tier) (enough : 16 * p.left + (2 * tier.rank + 4) ≤ n) : Spends 1 p p (chain n tier)
  chainRest {p : Parser} (tier : Tier) (left : Expr) (enough : 16 * p.left + 1 ≤ n) :
    Spends 0 p p (chainRest n tier left)
  operand {p : Parser} (tier : Tier) (enough : 16 * p.left + (2 * tier.rank + 3) ≤ n) : Spends 1 p p (operand n tier)
  unary {p : Parser} (enough : 16 * p.left + 2 ≤ n) : Spends 1 p p (unary n)
  accessRest {p : Parser} (target : Expr) (enough : 16 * p.left + 1 ≤ n) : Spends 0 p p (accessRest n target)
  elements {p : Parser} (close : TokenKind) (real : close ≠ .endOfFile) (enough : 16 * p.left + 13 ≤ n) :
    Spends 1 p p (elements n close)
  primary {p : Parser} (enough : 16 * p.left + 1 ≤ n) : Spends 1 p p (primary n)
  properties {p : Parser} (enough : 16 * p.left + 1 ≤ n) : Spends 1 p p (properties n)
  parameterNames {p : Parser} (enough : 16 * p.left + 1 ≤ n) : Spends 1 p p (parameterNames n)

theorem Tier.rank_tighter {tier tighter : Tier} (h : tier.tighter? = some tighter) : tier.rank = tighter.rank + 1 := by
  cases tier <;> cases h <;> rfl

theorem Tier.rank_le (tier : Tier) : tier.rank ≤ 4 := by
  cases tier <;> decide

theorem Tier.combine?_endOfFile (tier : Tier) : tier.combine? .endOfFile = none := by
  cases tier <;> rfl

namespace RulesSpend

theorem zero : RulesSpend 0 := by
  constructor <;> intros <;> omega

section Expressions

variable {n : Nat} (ih : RulesSpend n) {p : Parser}
include ih

theorem assignment_succ (enough : 16 * p.left + 13 ≤ n + 1) : Spends 1 p p (Parser.assignment (n + 1)) := by
  rw [Parser.assignment]
  refine .bind (.refl p) (ih.chain .logical (by simp only [Tier.rank]; omega)) fun target q after => ?_
  refine .peek after fun token line q held after => ?_
  split
  · next isEqual =>
    refine .discard after held (by rw [isEqual]; decide) fun q after => ?_
    split
    · have := after.left
      exact .bind after (ih.assignment (by omega)) fun value q after => .pure after (by omega)
    · exact .fail after _
  · exact .pure after (by omega)

theorem chain_succ (tier : Tier) (enough : 16 * p.left + (2 * tier.rank + 4) ≤ n + 1) :
    Spends 1 p p (Parser.chain (n + 1) tier) := by
  rw [Parser.chain]
  refine .bind (.refl p) (ih.operand tier (by omega)) fun first q after => ?_
  have := after.left
  exact .since after (ih.chainRest tier first (by omega)) (by omega)

theorem chainRest_succ (tier : Tier) (left : Expr) (enough : 16 * p.left + 1 ≤ n + 1) :
    Spends 0 p p (Parser.chainRest (n + 1) tier left) := by
  rw [Parser.chainRest]
  refine .peek (.refl p) fun token line q held after => ?_
  split
  · next combine isOperator =>
    have more : token.kind ≠ .endOfFile := by
      intro ending
      rw [ending, Tier.combine?_endOfFile] at isOperator
      cases isOperator
    have := tier.rank_le
    refine .discard after held more fun q after => ?_
    have := after.left
    refine .bind after (ih.operand tier (by omega)) fun right q after => ?_
    have := after.left
    exact .since after (ih.chainRest tier _ (by omega)) (Nat.zero_le _)
  · exact .pure after (Nat.zero_le _)

theorem operand_succ (tier : Tier) (enough : 16 * p.left + (2 * tier.rank + 3) ≤ n + 1) :
    Spends 1 p p (Parser.operand (n + 1) tier) := by
  rw [Parser.operand]
  split
  · next tighter isTighter =>
    have := Tier.rank_tighter isTighter
    exact ih.chain tighter (by omega)
  · exact ih.unary (by omega)

theorem unary_succ (enough : 16 * p.left + 2 ≤ n + 1) : Spends 1 p p (Parser.unary (n + 1)) := by
  rw [Parser.unary]
  refine .peek (.refl p) fun token line q held after => ?_
  have prefixed (op : UnaryOp) (more : token.kind ≠ .endOfFile) :
      Spends 1 p q (do
        discard
        return Expr.unary op (← Parser.unary n)) := by
    refine .discard after held more fun q after => ?_
    have := after.left
    exact .bind after (ih.unary (by omega)) fun operand q after => .pure after (by omega)
  split
  · next isBang => exact prefixed .not (by rw [isBang]; decide)
  · next isMinus => exact prefixed .negate (by rw [isMinus]; decide)
  · have := after.left
    refine .bind after (ih.primary (by omega)) fun first q after => ?_
    have := after.left
    exact .since after (ih.accessRest first (by omega)) (by omega)

theorem accessRest_succ (target : Expr) (enough : 16 * p.left + 1 ≤ n + 1) :
    Spends 0 p p (Parser.accessRest (n + 1) target) := by
  rw [Parser.accessRest]
  refine .peek (.refl p) fun token line q held after => ?_
  split
  · next isCall =>
    refine .discard after held (by rw [isCall]; decide) fun q after => ?_
    have := after.left
    refine .bind after (ih.elements .rightParen (by decide) (by omega)) fun args q after => ?_
    have := after.left
    exact .since after (ih.accessRest _ (by omega)) (Nat.zero_le _)
  · next isItem =>
    refine .discard after held (by rw [isItem]; decide) fun q after => ?_
    have := after.left
    refine .bind after (ih.chain .logical (by simp only [Tier.rank]; omega)) fun index q after => ?_
    refine .expect after (by decide) fun _ q _ after => ?_
    have := after.left
    exact .since after (ih.accessRest _ (by omega)) (Nat.zero_le _)
  · next isProperty =>
    refine .discard after held (by rw [isProperty]; decide) fun q after => ?_
    refine .expect after (by decide) fun name q _ after => ?_
    have := after.left
    exact .since after (ih.accessRest _ (by omega)) (Nat.zero_le _)
  · exact .pure after (Nat.zero_le _)

theorem elements_succ (close : TokenKind) (real : close ≠ .endOfFile) (enough : 16 * p.left + 13 ≤ n + 1) :
    Spends 1 p p (Parser.elements (n + 1) close) := by
  rw [Parser.elements]
  refine .peek (.refl p) fun token line q held after => ?_
  split
  · next isClose =>
    exact .discard after held (by rwa [isClose]) fun q after => .pure after (by omega)
  · have := after.left
    refine .bind after (ih.chain .logical (by simp only [Tier.rank]; omega)) fun first q after => ?_
    refine .peek after fun token line q held after => ?_
    have more {q : Parser} {k : Nat} (after : p.After (k + 1) q) :
        Spends 1 p q (do return first :: (← Parser.elements n close)) := by
      have := after.left
      exact .bind after (ih.elements close real (by omega)) fun others q after => .pure after (by omega)
    dsimp only
    split
    · next isComma => exact .discard after held (by rw [isComma]; decide) fun q after => more after
    · split
      · refine .take after fun token q after _ => ?_
        exact .bind after (.fail (m := 0) (.refl q) _) fun _ q after => more (k := 0) (after.mono (by omega))
      · exact more after

theorem properties_succ (enough : 16 * p.left + 1 ≤ n + 1) : Spends 1 p p (Parser.properties (n + 1)) := by
  rw [Parser.properties]
  refine .peek (.refl p) fun token line q held after => ?_
  split
  · next isClose => exact .discard after held (by rw [isClose]; decide) fun q after => .pure after (by omega)
  · refine .expect after (by decide) fun key q _ after => .expect after (by decide) fun _ q _ after => ?_
    have := after.left
    refine .bind after (ih.chain .logical (by simp only [Tier.rank]; omega)) fun value q after => ?_
    refine .expect after (by decide) fun token q _ after => ?_
    split
    · exact .pure after (by omega)
    · have := after.left
      exact .bind after (ih.properties (by omega)) fun others q after => .pure after (by omega)

theorem parameterNames_succ (enough : 16 * p.left + 1 ≤ n + 1) : Spends 1 p p (Parser.parameterNames (n + 1)) := by
  rw [Parser.parameterNames]
  refine .identifier (.refl p) fun name q after => .expect after (by decide) fun token q _ after => ?_
  split
  · exact .pure after (by omega)
  · have := after.left
    exact .bind after (ih.parameterNames (by omega)) fun others q after => .pure after (by omega)

theorem parameters_spend (enough : 16 * p.left ≤ n) : Spends 1 p p (parameters n) := by
  unfold parameters
  refine .expect (.refl p) (by decide) fun _ q _ after => .peek after fun token line q held after => ?_
  split
  · next isClose => exact .discard after held (by rw [isClose]; decide) fun q after => .pure after (by omega)
  · have := after.left
    exact .since after (ih.parameterNames (by omega)) (by omega)

theorem primary_succ (enough : 16 * p.left + 1 ≤ n + 1) : Spends 1 p p (Parser.primary (n + 1)) := by
  rw [Parser.primary]
  refine .take (.refl p) fun token q after _ => ?_
  by_cases ending : token.kind = .endOfFile
  · rw [ending]
    exact .fail after _
  rw [if_neg ending] at after
  have := after.left
  split
  · exact .bind after (.resolve _ q) fun level q after => .pure after (by omega)
  · exact .pure after (by omega)
  · dsimp only
    split
    · exact .pure after (by omega)
    · exact .fail after _
  · exact .pure after (by omega)
  · exact .pure after (by omega)
  · exact .pure after (by omega)
  · refine .bind after (ih.chain .logical (by simp only [Tier.rank]; omega)) fun inner q after => ?_
    exact .expect after (by decide) fun _ q _ after => .pure after (by omega)
  · exact .bind after (ih.elements .rightBracket (by decide) (by omega)) fun items q after => .pure after (by omega)
  · refine .expect after (by decide) fun _ q _ after => ?_
    have := after.left
    exact .bind after (ih.properties (by omega)) fun properties q after => .pure after (by omega)
  · refine .bind after (ih.parameters_spend (by omega)) fun params q after => ?_
    have body (scopes : ScopeStack) : Spends 1 { q with scopes } { q with scopes } (inScope do
        declareAll params
        Parser.block n) := by
      refine .inScope fun scopes => .bind (.refl _) (.declareAll params _) fun _ r inside => ?_
      have fewer : r.left ≤ q.left := inside.left
      have := after.left
      exact .since inside (ih.block (by omega)) (by omega)
    exact .bind after (.inMethod body) fun body q after => .pure after (by omega)
  · exact .fail after _

end Expressions

section Statements

variable {n : Nat} (ih : RulesSpend n) {p : Parser}
include ih

theorem declaration_succ (enough : 16 * p.left + 15 ≤ n + 1) : Spends 1 p p (Parser.declaration (n + 1)) := by
  rw [Parser.declaration]
  refine .peek (.refl p) fun token line q held after => ?_
  have := after.left
  split
  · exact .since after (ih.variableDeclaration (by omega)) (by omega)
  · exact .since after (ih.statement (by omega)) (by omega)

theorem variableDeclaration_succ (enough : 16 * p.left + 1 ≤ n + 1) :
    Spends 1 p p (Parser.variableDeclaration (n + 1)) := by
  rw [Parser.variableDeclaration]
  refine .expect (.refl p) (by decide) fun _ q _ after => .identifier after fun name q after => ?_
  refine .bind after (.declare name q) fun _ q after => .peek after fun token line q held after => ?_
  split
  · next isSemicolon =>
    exact .discard after held (by rw [isSemicolon]; decide) fun q after => .pure after (by omega)
  · refine .expect after (by decide) fun _ q _ after => ?_
    have := after.left
    refine .bind after (ih.chain .logical (by simp only [Tier.rank]; omega)) fun initial q after => ?_
    exact .expect after (by decide) fun _ q _ after => .pure after (by omega)

theorem scopedBlock_spends (enough : 16 * p.left + 1 ≤ n) : Spends 1 p p (inScope (Parser.block n)) :=
  .inScope fun _ => ih.block enough

theorem statement_succ (enough : 16 * p.left + 14 ≤ n + 1) : Spends 1 p p (Parser.statement (n + 1)) := by
  rw [Parser.statement]
  refine .peek (.refl p) fun token line q held after => ?_
  have := after.left
  have ended (stmt : Stmt) (more : token.kind ≠ .endOfFile) :
      Spends 1 p q (do
        discard
        let _ ← expect [.semicolon]
        return stmt) :=
    .discard after held more fun q after => .expect after (by decide) fun _ q _ after => .pure after (by omega)
  split
  · exact .bind after (ih.scopedBlock_spends (by omega)) fun body q after => .pure after (by omega)
  · exact .since after (ih.branch (by omega)) (by omega)
  · refine .expect after (by decide) fun _ q _ after => ?_
    have := after.left
    refine .bind after (ih.chain .logical (by simp only [Tier.rank]; omega)) fun condition q after => ?_
    have := after.left
    exact .bind after (ih.scopedBlock_spends (by omega)) fun body q after => .pure after (by omega)
  · next isSemicolon =>
    exact .discard after held (by rw [isSemicolon]; decide) fun q after => .pure after (by omega)
  · exact .since after (ih.function (by omega)) (by omega)
  · exact .since after (ih.giveBack (by omega)) (by omega)
  · next isBreak => exact ended .leaveLoop (by rw [isBreak]; decide)
  · next isContinue => exact ended .nextRound (by rw [isContinue]; decide)
  · exact .since after (ih.importFrom (by omega)) (by omega)
  · exact .since after (ih.exportAs (by omega)) (by omega)
  · refine .bind after (ih.assignment (by omega)) fun value q after => ?_
    exact .expect after (by decide) fun _ q _ after => .pure after (by omega)

theorem function_succ (enough : 16 * p.left + 1 ≤ n + 1) : Spends 1 p p (Parser.function (n + 1)) := by
  rw [Parser.function]
  refine .expect (.refl p) (by decide) fun _ q _ after => .identifier after fun name q after => ?_
  refine .bind after (.declare name q) fun _ q after => .since (j := 0) after (.inScope fun scopes => ?_) (by omega)
  have fewer : ({ q with scopes } : Parser).left = q.left := rfl
  have := after.left
  refine .bind (.refl _) (ih.parameters_spend (by omega)) fun params r inside => ?_
  refine .bind inside (.declareAll params r) fun _ r inside => ?_
  have := inside.left
  exact .bind inside (ih.block (by omega)) fun body r inside => .pure inside (Nat.zero_le _)

theorem giveBack_succ (enough : 16 * p.left + 1 ≤ n + 1) : Spends 1 p p (Parser.giveBack (n + 1)) := by
  rw [Parser.giveBack]
  refine .expect (.refl p) (by decide) fun _ q _ after => .peek after fun token line q held after => ?_
  split
  · next isSemicolon =>
    exact .discard after held (by rw [isSemicolon]; decide) fun q after => .pure after (by omega)
  · have := after.left
    refine .bind after (ih.chain .logical (by simp only [Tier.rank]; omega)) fun value q after => ?_
    exact .expect after (by decide) fun _ q _ after => .pure after (by omega)

theorem importFrom_succ (enough : 16 * p.left + 1 ≤ n + 1) : Spends 1 p p (Parser.importFrom (n + 1)) := by
  rw [Parser.importFrom]
  refine .expect (.refl p) (by decide) fun _ q _ after => ?_
  have := after.left
  refine .bind after (ih.primary (by omega)) fun source q after => .expect after (by decide) fun _ q _ after => ?_
  split
  · exact .pure after (by omega)
  · exact .fail after _

theorem exportAs_succ (enough : 16 * p.left + 1 ≤ n + 1) : Spends 1 p p (Parser.exportAs (n + 1)) := by
  rw [Parser.exportAs]
  refine .expect (.refl p) (by decide) fun _ q _ after => ?_
  have := after.left
  refine .bind after (ih.assignment (by omega)) fun value q after => .expect after (by decide) fun token q _ after => ?_
  split
  · split
    · exact .pure after (by omega)
    · exact .fail after _
  · refine .identifier after fun name q after => ?_
    exact .expect after (by decide) fun _ q _ after => .pure after (by omega)

theorem branch_succ (enough : 16 * p.left + 1 ≤ n + 1) : Spends 1 p p (Parser.branch (n + 1)) := by
  rw [Parser.branch]
  refine .expect (.refl p) (by decide) fun _ q _ after => ?_
  have := after.left
  refine .bind after (ih.chain .logical (by simp only [Tier.rank]; omega)) fun condition q after => ?_
  have := after.left
  refine .bind after (ih.statement (by omega)) fun yes q after => .peek after fun token line q held after => ?_
  split
  · next isElse =>
    refine .discard after held (by rw [isElse]; decide) fun q after => ?_
    have := after.left
    exact .bind after (ih.statement (by omega)) fun no q after => .pure after (by omega)
  · exact .pure after (by omega)

theorem block_succ (enough : 16 * p.left + 1 ≤ n + 1) : Spends 1 p p (Parser.block (n + 1)) := by
  rw [Parser.block]
  refine .expect (.refl p) (by decide) fun _ q _ after => ?_
  have := after.left
  exact .since after (ih.blockRest (by omega)) (by omega)

theorem blockRest_succ (enough : 16 * p.left + 16 ≤ n + 1) : Spends 1 p p (Parser.blockRest (n + 1)) := by
  rw [Parser.blockRest]
  refine .peek (.refl p) fun token line q held after => ?_
  have := after.left
  split
  · next isClose => exact .discard after held (by rw [isClose]; decide) fun q after => .pure after (by omega)
  · exact .fail after _
  · refine .bind after (ih.declaration (by omega)) fun first q after => ?_
    have := after.left
    exact .bind after (ih.blockRest (by omega)) fun rest q after => .pure after (by omega)

end Statements

theorem succ {n : Nat} (ih : RulesSpend n) : RulesSpend (n + 1) where
  declaration := ih.declaration_succ
  variableDeclaration := ih.variableDeclaration_succ
  statement := ih.statement_succ
  function := ih.function_succ
  giveBack := ih.giveBack_succ
  importFrom := ih.importFrom_succ
  exportAs := ih.exportAs_succ
  branch := ih.branch_succ
  block := ih.block_succ
  blockRest := ih.blockRest_succ
  assignment := ih.assignment_succ
  chain := ih.chain_succ
  chainRest := ih.chainRest_succ
  operand := ih.operand_succ
  unary := ih.unary_succ
  accessRest := ih.accessRest_succ
  elements := ih.elements_succ
  primary := ih.primary_succ
  properties := ih.properties_succ
  parameterNames := ih.parameterNames_succ

end RulesSpend

theorem rulesSpend (n : Nat) : RulesSpend n := by
  induction n with
  | zero => exact .zero
  | succ n ih => exact ih.succ

end Parser

end HookScript
