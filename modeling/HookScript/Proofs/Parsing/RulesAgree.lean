import HookScript.Proofs.Parsing.Agreement

/-!
Every rule of the parser agrees with itself on a segment in its setting and on the segment alone. Rules for expressions
stay inside the segment, rules for statements come to its end, and there is no block in it.
-/

namespace HookScript

namespace Parser

/-- Part of a segment is read the same way in its setting and alone. -/
def ReadsInside {α : Type} (alike : α → α → Prop) (rule rule' : Parsing α) : Prop :=
  ∀ {around : Setting} {depth : Nat} {tokens : List (Token × Nat)} {p q : Parser}, IsSegment tokens →
    Beside around depth tokens p q → Agree around depth (StillInside around depth alike) p q rule rule'

/-- The rest of a segment is read the same way in its setting and alone. -/
def ReadsWhole (rule rule' : Parsing Stmt) : Prop :=
  ∀ {around : Setting} {tokens : List (Token × Nat)} {p q : Parser}, IsSegment tokens →
    Beside around 1 tokens p q → Agree around 1 (Stands around) p q rule rule'

structure RulesAgree (n k : Nat) : Prop where
  declaration : ReadsWhole (declaration n) (declaration k)
  variableDeclaration : ReadsWhole (variableDeclaration n) (variableDeclaration k)
  statement : ReadsWhole (statement n) (statement k)
  function : ReadsWhole (function n) (function k)
  giveBack : ReadsWhole (giveBack n) (giveBack k)
  importFrom : ReadsWhole (importFrom n) (importFrom k)
  exportAs : ReadsWhole (exportAs n) (exportAs k)
  branch : ReadsWhole (branch n) (branch k)
  block {around : Setting} {depth : Nat} {tokens : List (Token × Nat)} {p q : Parser} (segment : IsSegment tokens)
    (beside : Beside around depth tokens p q) : Agree around depth Never p q (block n) (block k)
  assignment : ReadsInside Expr.Alike (assignment n) (assignment k)
  chain (tier : Tier) : ReadsInside Expr.Alike (chain n tier) (chain k tier)
  chainRest (tier : Tier) {left left' : Expr} (alike : left.Alike left') :
    ReadsInside Expr.Alike (chainRest n tier left) (chainRest k tier left')
  operand (tier : Tier) : ReadsInside Expr.Alike (operand n tier) (operand k tier)
  unary : ReadsInside Expr.Alike (unary n) (unary k)
  accessRest {target target' : Expr} (alike : target.Alike target') :
    ReadsInside Expr.Alike (accessRest n target) (accessRest k target')
  elements {close : TokenKind} (inner : close ≠ .semicolon) :
    ReadsInside ExprsAlike (elements n close) (elements k close)
  primary : ReadsInside Expr.Alike (primary n) (primary k)
  parameterNames : ReadsInside Eq (parameterNames n) (parameterNames k)

theorem Tier.combine?_alike {tier : Tier} {kind : TokenKind} {combine : Expr → Expr → Expr}
    (known : tier.combine? kind = some combine) {left left' right right' : Expr} (alike : left.Alike left')
    (alikeRight : right.Alike right') : (combine left right).Alike (combine left' right') := by
  intro c
  unfold Tier.combine? at known
  split at known <;> cases known <;> simp only [Expr.levelled, alike c, alikeRight c]

namespace RulesAgree

theorem zero_left (k : Nat) : RulesAgree 0 k := by
  constructor <;> intros <;> first | exact .starved | exact fun _ _ => .starved

theorem zero_right (n : Nat) : RulesAgree n 0 := by
  constructor <;> intros <;> first | exact .starvedAlone | exact fun _ _ => .starvedAlone

section Expressions

variable {n k : Nat} (ih : RulesAgree n k)
include ih

theorem assignment_succ : ReadsInside Expr.Alike (Parser.assignment (n + 1)) (Parser.assignment (k + 1)) := by
  intro around depth tokens p q segment beside
  rw [Parser.assignment, Parser.assignment]
  refine .bind (ih.chain .logical segment beside) fun target target' p q ⟨alike, tokens, segment, beside⟩ => ?_
  refine .peek segment beside fun t rest p q atHand => ?_
  split
  · next isEqual =>
    refine .discard atHand fun p q beside => ?_
    have segment := atHand.segment.rest_of_ne (by rw [isEqual]; decide)
    have same := alike.assignmentTo?
    generalize assignmentTo? target = make at same
    generalize assignmentTo? target' = make' at same
    cases same with
    | none => exact .fail .same (.inr segment) beside
    | some alikeMade =>
      refine .bind (ih.assignment segment beside) fun value value' p q ⟨alike, tokens, segment, beside⟩ => ?_
      exact .pure ⟨alikeMade value value' alike, tokens, segment, beside⟩
  · exact .pure ⟨alike, _, atHand.segment, atHand.beside⟩

theorem chain_succ (tier : Tier) : ReadsInside Expr.Alike (Parser.chain (n + 1) tier) (Parser.chain (k + 1) tier) := by
  intro around depth tokens p q segment beside
  rw [Parser.chain, Parser.chain]
  refine .bind (ih.operand tier segment beside) fun first first' p q ⟨alike, tokens, segment, beside⟩ => ?_
  exact ih.chainRest tier alike segment beside

theorem chainRest_succ (tier : Tier) {left left' : Expr} (alike : left.Alike left') :
    ReadsInside Expr.Alike (Parser.chainRest (n + 1) tier left) (Parser.chainRest (k + 1) tier left') := by
  intro around depth tokens p q segment beside
  rw [Parser.chainRest, Parser.chainRest]
  refine .peek segment beside fun t rest p q atHand => ?_
  split
  · next combine isOperator =>
    have segment := atHand.segment.rest_of_ne fun semicolon => by
      rw [semicolon] at isOperator
      cases tier <;> cases isOperator
    refine .discard atHand fun p q beside => ?_
    refine .bind (ih.operand tier segment beside) fun right right' p q ⟨alikeRight, tokens, segment, beside⟩ => ?_
    exact ih.chainRest tier (Tier.combine?_alike isOperator alike alikeRight) segment beside
  · exact .pure ⟨alike, _, atHand.segment, atHand.beside⟩

theorem operand_succ (tier : Tier) :
    ReadsInside Expr.Alike (Parser.operand (n + 1) tier) (Parser.operand (k + 1) tier) := by
  intro around depth tokens p q segment beside
  rw [Parser.operand, Parser.operand]
  split
  · next tighter isTighter => exact ih.chain tighter segment beside
  · exact ih.unary segment beside

theorem unary_succ : ReadsInside Expr.Alike (Parser.unary (n + 1)) (Parser.unary (k + 1)) := by
  intro around depth tokens p q segment beside
  rw [Parser.unary, Parser.unary]
  refine .peek segment beside fun t rest p q atHand => ?_
  have prefixed (op : UnaryOp) (inner : t.1.kind ≠ .semicolon) :
      Agree around depth (StillInside around depth Expr.Alike) p q
        (do
          discard
          return Expr.unary op (← Parser.unary n))
        (do
          discard
          return Expr.unary op (← Parser.unary k)) := by
    refine .discard atHand fun p q beside => ?_
    refine .bind (ih.unary (atHand.segment.rest_of_ne inner) beside) fun operand operand' p q
      ⟨alike, tokens, segment, beside⟩ => .pure ⟨fun c => ?_, tokens, segment, beside⟩
    simp only [Expr.levelled, alike c]
  split
  · next isBang => exact prefixed .not (by rw [isBang]; decide)
  · next isMinus => exact prefixed .negate (by rw [isMinus]; decide)
  · refine .bind (ih.primary atHand.segment atHand.beside) fun first first' p q ⟨alike, tokens, segment, beside⟩ => ?_
    exact ih.accessRest alike segment beside

theorem accessRest_succ {target target' : Expr} (alike : target.Alike target') :
    ReadsInside Expr.Alike (Parser.accessRest (n + 1) target) (Parser.accessRest (k + 1) target') := by
  intro around depth tokens p q segment beside
  rw [Parser.accessRest, Parser.accessRest]
  refine .peek segment beside fun t rest p q atHand => ?_
  split
  · next isCall =>
    refine .discard atHand fun p q beside => ?_
    have segment := atHand.segment.rest_of_ne (by rw [isCall]; decide)
    refine .bind (ih.elements (by decide) segment beside) fun args args' p q ⟨alikeArgs, tokens, segment, beside⟩ => ?_
    exact ih.accessRest (fun c => by simp only [Expr.levelled, alike c, alikeArgs c]) segment beside
  · next isItem =>
    refine .discard atHand fun p q beside => ?_
    have segment := atHand.segment.rest_of_ne (by rw [isItem]; decide)
    refine .bind (ih.chain .logical segment beside) fun index index' p q ⟨alikeIndex, tokens, segment, beside⟩ => ?_
    refine .expectInner segment beside (by decide) fun _ tokens p q _ segment beside => ?_
    exact ih.accessRest (fun c => by simp only [Expr.levelled, alike c, alikeIndex c]) segment beside
  · next isProperty =>
    refine .discard atHand fun p q beside => ?_
    have segment := atHand.segment.rest_of_ne (by rw [isProperty]; decide)
    refine .expectInner segment beside (by decide) fun name tokens p q _ segment beside => ?_
    exact ih.accessRest (fun c => by simp only [Expr.levelled, alike c]) segment beside
  · exact .pure ⟨alike, _, atHand.segment, atHand.beside⟩

theorem elements_succ {close : TokenKind} (inner : close ≠ .semicolon) :
    ReadsInside ExprsAlike (Parser.elements (n + 1) close) (Parser.elements (k + 1) close) := by
  intro around depth tokens p q segment beside
  rw [Parser.elements, Parser.elements]
  refine .peek segment beside fun t rest p q atHand => ?_
  split
  · next isClose =>
    refine .discard atHand fun p q beside => .pure ⟨fun _ => rfl, rest, ?_, beside⟩
    exact atHand.segment.rest_of_ne (by rwa [isClose])
  · refine .bind (ih.chain .logical atHand.segment atHand.beside) fun first first' p q
      ⟨alike, tokens, segment, beside⟩ => .peek segment beside fun t rest p q atHand => ?_
    have more {tokens : List (Token × Nat)} {p q : Parser} (segment : IsSegment tokens)
        (beside : Beside around depth tokens p q) :
        Agree around depth (StillInside around depth ExprsAlike) p q (do return first :: (← Parser.elements n close))
          (do return first' :: (← Parser.elements k close)) := by
      refine .bind (ih.elements inner segment beside) fun others others' p q
        ⟨alikeOthers, tokens, segment, beside⟩ => .pure ⟨fun c => ?_, tokens, segment, beside⟩
      simp only [levelledExprs, alike c, alikeOthers c]
    dsimp only
    split
    · next isComma =>
      have segment := atHand.segment.rest_of_ne (by rw [isComma]; decide)
      exact .discard atHand fun p q beside => more segment beside
    · split
      · refine .take atHand.segment atHand.beside fun t rest p q _ segment beside => ?_
        exact .never_bind (.fail .same segment.rest_or_nil beside)
      · exact more atHand.segment atHand.beside

theorem parameterNames_succ : ReadsInside Eq (Parser.parameterNames (n + 1)) (Parser.parameterNames (k + 1)) := by
  intro around depth tokens p q segment beside
  rw [Parser.parameterNames, Parser.parameterNames]
  refine .identifier segment beside fun t rest p q _ _ segment beside => ?_
  refine .expectInner segment beside (by decide) fun token tokens p q _ segment beside => ?_
  split
  · exact .pure ⟨rfl, tokens, segment, beside⟩
  · refine .bind (ih.parameterNames segment beside) fun others others' p q ⟨same, tokens, segment, beside⟩ => ?_
    exact .pure ⟨by rw [same], tokens, segment, beside⟩

theorem parameters_agree : ReadsInside Eq (parameters n) (parameters k) := by
  intro around depth tokens p q segment beside
  unfold parameters
  refine .expectInner segment beside (by decide) fun _ tokens p q _ segment beside => ?_
  refine .peek segment beside fun t rest p q atHand => ?_
  split
  · next isClose =>
    have segment := atHand.segment.rest_of_ne (by rw [isClose]; decide)
    exact .discard atHand fun p q beside => .pure ⟨rfl, rest, segment, beside⟩
  · exact ih.parameterNames atHand.segment atHand.beside

theorem primary_succ : ReadsInside Expr.Alike (Parser.primary (n + 1)) (Parser.primary (k + 1)) := by
  intro around depth tokens p q segment beside
  rw [Parser.primary, Parser.primary]
  refine .take segment beside fun t rest p q _ segment beside => ?_
  by_cases semicolon : t.1.kind = .semicolon
  · rw [semicolon]
    exact .fail .same segment.rest_or_nil beside
  have segment := segment.rest_of_ne semicolon
  have single (literal : Literal) : Agree around depth (StillInside around depth Expr.Alike) p q
      (pure (.literal literal)) (pure (.literal literal)) := .pure ⟨fun _ => rfl, rest, segment, beside⟩
  split
  · exact .bind (.resolve _ beside) fun level level' p q beside => .pure ⟨fun _ => rfl, rest, segment, beside⟩
  · exact single _
  · dsimp only
    split
    · exact single _
    · exact .fail .same (.inr segment) beside
  · exact single _
  · exact single _
  · exact single _
  · refine .bind (ih.chain .logical segment beside) fun inner inner' p q ⟨alike, tokens, segment, beside⟩ => ?_
    refine .expectInner segment beside (by decide) fun _ tokens p q _ segment beside => ?_
    exact .pure ⟨fun c => by simp only [Expr.levelled, alike c], tokens, segment, beside⟩
  · refine .bind (ih.elements (by decide) segment beside) fun items items' p q ⟨alike, tokens, segment, beside⟩ => ?_
    exact .pure ⟨fun c => by simp only [Expr.levelled, alike c], tokens, segment, beside⟩
  · exact .expectBrace segment beside
  · refine .bind (ih.parameters_agree segment beside) fun params params' p q ⟨same, tokens, segment, beside⟩ => ?_
    subst same
    refine .never_bind (.inMethod beside.scopes (.inScope (by decide) ?_))
    refine .bind (.declareAll (.inr segment) (beside.withScopes beside.scopes.forMethod.begin) (by decide)) ?_
    exact fun _ _ p q beside => ih.block segment beside
  · exact .fail .same (.inr segment) beside

end Expressions

theorem block_succ {n k : Nat} {around : Setting} {depth : Nat} {tokens : List (Token × Nat)} {p q : Parser}
    (segment : IsSegment tokens) (beside : Beside around depth tokens p q) :
    Agree around depth Never p q (Parser.block (n + 1)) (Parser.block (k + 1)) := by
  rw [Parser.block, Parser.block]
  exact .expectBrace segment beside

section Statements

variable {n k : Nat} (ih : RulesAgree n k)
include ih

theorem scopedBlock_agree {around : Setting} {tokens : List (Token × Nat)} {p q : Parser}
    (segment : IsSegment tokens) (beside : Beside around 1 tokens p q) :
    Agree around 1 Never p q (inScope (Parser.block n)) (inScope (Parser.block k)) :=
  .inScope (by decide) (ih.block segment (beside.withScopes beside.scopes.begin))

theorem declaration_succ : ReadsWhole (Parser.declaration (n + 1)) (Parser.declaration (k + 1)) := by
  intro around tokens p q segment beside
  rw [Parser.declaration, Parser.declaration]
  refine .peek segment beside fun t rest p q atHand => ?_
  split
  · exact ih.variableDeclaration atHand.segment atHand.beside
  · exact ih.statement atHand.segment atHand.beside

theorem variableDeclaration_succ :
    ReadsWhole (Parser.variableDeclaration (n + 1)) (Parser.variableDeclaration (k + 1)) := by
  intro around tokens p q segment beside
  rw [Parser.variableDeclaration, Parser.variableDeclaration]
  refine .introduce (by decide) segment beside fun name tokens p q segment beside => ?_
  refine .peek segment beside fun t rest p q atHand => ?_
  split
  · next isSemicolon => exact .discardSemicolon atHand isSemicolon fun p q beside => .stands (fun _ => rfl) beside
  · refine .expectInner atHand.segment atHand.beside (by decide) fun _ tokens p q _ segment beside => ?_
    refine .bind (ih.chain .logical segment beside) fun initial initial' p q ⟨alike, tokens, segment, beside⟩ => ?_
    refine .expectSemicolon segment beside fun _ p q beside => ?_
    exact .stands (fun c => by simp only [Stmt.levelled, alike (c.declare name)]) beside

theorem statement_succ : ReadsWhole (Parser.statement (n + 1)) (Parser.statement (k + 1)) := by
  intro around tokens p q segment beside
  rw [Parser.statement, Parser.statement]
  refine .peek segment beside fun t rest p q atHand => ?_
  have ended (stmt : Stmt) (inner : t.1.kind ≠ .semicolon) :
      Agree around 1 (Stands around) p q
        (do
          discard
          let _ ← expect [.semicolon]
          return stmt)
        (do
          discard
          let _ ← expect [.semicolon]
          return stmt) :=
    .discard atHand fun p q beside => .expectSemicolon (atHand.segment.rest_of_ne inner) beside fun _ p q beside =>
      .stands (fun _ => rfl) beside
  split
  · exact .never_bind (ih.scopedBlock_agree atHand.segment atHand.beside)
  · exact ih.branch atHand.segment atHand.beside
  · refine .expectInner atHand.segment atHand.beside (by decide) fun _ tokens p q _ segment beside => ?_
    refine .bind (ih.chain .logical segment beside) fun condition condition' p q ⟨alike, tokens, segment, beside⟩ => ?_
    exact .never_bind (ih.scopedBlock_agree segment beside)
  · next isSemicolon => exact .discardSemicolon atHand isSemicolon fun p q beside => .stands (fun _ => rfl) beside
  · exact ih.function atHand.segment atHand.beside
  · exact ih.giveBack atHand.segment atHand.beside
  · next isBreak => exact ended .leaveLoop (by rw [isBreak]; decide)
  · next isContinue => exact ended .nextRound (by rw [isContinue]; decide)
  · exact ih.importFrom atHand.segment atHand.beside
  · exact ih.exportAs atHand.segment atHand.beside
  · refine .bind (ih.assignment atHand.segment atHand.beside) fun value value' p q
      ⟨alike, tokens, segment, beside⟩ => .expectSemicolon segment beside fun _ p q beside => ?_
    exact .stands (fun c => by simp only [Stmt.levelled, alike c]) beside

theorem function_succ : ReadsWhole (Parser.function (n + 1)) (Parser.function (k + 1)) := by
  intro around tokens p q segment beside
  rw [Parser.function, Parser.function]
  refine .introduce (by decide) segment beside fun name tokens p q segment beside => ?_
  refine .of_never (.inScope (by decide) ?_)
  refine .bind (ih.parameters_agree segment (beside.withScopes beside.scopes.begin)) ?_
  rintro params _ p q ⟨rfl, tokens, segment, beside⟩
  refine .bind (.declareAll (.inr segment) beside (by decide)) fun _ _ p q beside => ?_
  exact .never_bind (ih.block segment beside)

theorem giveBack_succ : ReadsWhole (Parser.giveBack (n + 1)) (Parser.giveBack (k + 1)) := by
  intro around tokens p q segment beside
  rw [Parser.giveBack, Parser.giveBack]
  refine .expectInner segment beside (by decide) fun _ tokens p q _ segment beside => ?_
  refine .peek segment beside fun t rest p q atHand => ?_
  split
  · next isSemicolon => exact .discardSemicolon atHand isSemicolon fun p q beside => .stands (fun _ => rfl) beside
  · refine .bind (ih.chain .logical atHand.segment atHand.beside) fun value value' p q
      ⟨alike, tokens, segment, beside⟩ => .expectSemicolon segment beside fun _ p q beside => ?_
    exact .stands (fun c => by simp only [Stmt.levelled, alike c]) beside

theorem importFrom_succ : ReadsWhole (Parser.importFrom (n + 1)) (Parser.importFrom (k + 1)) := by
  intro around tokens p q segment beside
  rw [Parser.importFrom, Parser.importFrom]
  refine .expectInner segment beside (by decide) fun _ tokens p q _ segment beside => ?_
  refine .bind (ih.primary segment beside) fun source source' p q ⟨alike, tokens, segment, beside⟩ => ?_
  refine .expectSemicolon segment beside fun _ p q beside => ?_
  rw [alike.isImportSource_eq]
  split
  · exact .stands (fun c => by simp only [Stmt.levelled, alike c]) beside
  · exact .fail (.importSource alike) (.inl rfl) beside

theorem exportAs_succ : ReadsWhole (Parser.exportAs (n + 1)) (Parser.exportAs (k + 1)) := by
  intro around tokens p q segment beside
  rw [Parser.exportAs, Parser.exportAs]
  refine .expectInner segment beside (by decide) fun _ tokens p q _ segment beside => ?_
  refine .bind (ih.assignment segment beside) fun value value' p q ⟨alike, tokens, segment, beside⟩ => ?_
  refine .expect segment beside fun t rest p q _ _ segment beside => ?_
  split
  · next isSemicolon =>
    cases segment.rest_eq_nil isSemicolon
    split
    · next name level =>
      obtain ⟨level', rfl⟩ := alike.lookup_left
      exact .stands (fun c => by simp only [Stmt.levelled, alike c]) beside
    · next other =>
      split
      · obtain ⟨level', rfl⟩ := alike.symm.lookup_left
        exact absurd rfl (other _ _)
      · exact .fail (.unnamedExport alike) (.inl rfl) beside
  · next more =>
    refine .identifier (segment.rest_of_ne more) beside fun name rest p q _ _ segment beside => ?_
    refine .expectSemicolon segment beside fun _ p q beside => ?_
    exact .stands (fun c => by simp only [Stmt.levelled, alike c]) beside

theorem branch_succ : ReadsWhole (Parser.branch (n + 1)) (Parser.branch (k + 1)) := by
  intro around tokens p q segment beside
  rw [Parser.branch, Parser.branch]
  refine .expectInner segment beside (by decide) fun _ tokens p q _ segment beside => ?_
  refine .bind (ih.chain .logical segment beside) fun condition condition' p q ⟨alike, tokens, segment, beside⟩ => ?_
  refine .bind (ih.statement segment beside) fun yes yes' p q ⟨alikeYes, long, alone, scopes⟩ => ?_
  obtain ⟨kind, ahead, looked, found, long⟩ := long.peek_any
  obtain ⟨kind', ahead', looked', found', alone⟩ := alone.peek_any
  have noElse : kind ≠ .elseWord := by
    rcases found with rfl | ⟨t, follows, rfl⟩
    · decide
    · exact around.noElse follows
  have noElse' : kind' ≠ .elseWord := by
    rcases found' with rfl | ⟨t, follows, -⟩
    · decide
    · cases follows
  simp only [Agree, Bind.bind, EStateM.bind, looked, looked', if_neg noElse, if_neg noElse']
  exact .ok ⟨fun c => by simp only [Stmt.levelled, alike c, alikeYes c], long, alone, scopes⟩

end Statements

theorem succ {n k : Nat} (ih : RulesAgree n k) : RulesAgree (n + 1) (k + 1) where
  declaration := ih.declaration_succ
  variableDeclaration := ih.variableDeclaration_succ
  statement := ih.statement_succ
  function := ih.function_succ
  giveBack := ih.giveBack_succ
  importFrom := ih.importFrom_succ
  exportAs := ih.exportAs_succ
  branch := ih.branch_succ
  block := block_succ
  assignment := ih.assignment_succ
  chain := ih.chain_succ
  chainRest := ih.chainRest_succ
  operand := ih.operand_succ
  unary := ih.unary_succ
  accessRest := ih.accessRest_succ
  elements := ih.elements_succ
  primary := ih.primary_succ
  parameterNames := ih.parameterNames_succ

end RulesAgree

theorem rulesAgree (n k : Nat) : RulesAgree n k := by
  induction n generalizing k with
  | zero => exact .zero_left k
  | succ n ih =>
    cases k with
    | zero => exact .zero_right (n + 1)
    | succ k => exact (ih k).succ

end Parser

end HookScript
