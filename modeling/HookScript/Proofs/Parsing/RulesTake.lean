import HookScript.Proofs.Parsing.Takes

/-!
What every rule of the parser takes. A rule that succeeds has taken exactly the tokens of the tree that it gives, which
has the shape that the grammar asks for. Whether or not it succeeds, it has begun no scope that it has not ended, and
the names that it has added to the scope around it stand in what it has taken, outside all brackets.
-/

namespace HookScript

theorem BinaryOp.fixed_kind (op : BinaryOp) : op.kind.Fixed := by
  cases op <;> decide

theorem LogicalOp.fixed_kind (op : LogicalOp) : op.kind.Fixed := by
  cases op <;> decide

/-- The names of the scope that the parameters of a function share with its body. -/
def Stmt.own : Stmt → List String
  | .function _ params body => params ++ declaresAll body
  | _ => []

namespace Parser

structure Operand (least after : Nat) (e : Expr) (ts : List Token) (q : Parser) : Prop where
  written : e.Written ts
  shaped : e.Shaped
  tight : least ≤ e.binding
  ends : ∃ t, q.Sees t ∧ t.1.kind.Ends after

structure Stated (c : Context) (stmt : Stmt) (ts : List Token) (q : Parser) : Prop where
  written : stmt.Written ts
  shaped : stmt.Shaped
  lacks : c.Lacks stmt.declares
  awaits (open_branch : stmt.awaitsElse = true) : ∃ t, q.Sees t ∧ t.1.kind ≠ .elseWord

structure Closed (c : Context) (body : List Stmt) (ts : List Token) : Prop where
  written : ∃ b, StmtsWritten body b ∧ ts = b ++ [.ofKind .rightBrace]
  shaped : StmtsShaped body
  lacks : c.Lacks (declaresAll body)

structure Body (params : List String) (body : List Stmt) (ts : List Token) : Prop where
  written : ∃ b, StmtsWritten body b ∧ ts = .ofKind .leftBrace :: (b ++ [.ofKind .rightBrace])
  shaped : StmtsShaped body
  distinct : (params ++ declaresAll body).Nodup

abbrev TakesExpr (least : Nat) (before : List Token) (c : Context) (p : Parser) (act : Parsing Expr) : Prop :=
  Takes .nothing c (fun _ => c) (fun e ts q => Operand least least e (before ++ ts) q) p p act

abbrev TakesStmt (c : Context) (p : Parser) (act : Parsing Stmt) : Prop :=
  Takes .outside c (fun stmt => c.declareAll stmt.declares) (Stated c) p p act

structure RulesTake (n : Nat) : Prop where
  declaration {c p} (within : p.In c) : TakesStmt c p (declaration n)
  variableDeclaration {c p} (within : p.In c) : TakesStmt c p (variableDeclaration n)
  statement {c p} (within : p.In c) : Takes .outside c (fun stmt => c.declareAll stmt.declares)
    (fun stmt ts q => Stated c stmt ts q ∧ stmt.opening ≠ .varWord) p p (statement n)
  function {c p} (within : p.In c) : TakesStmt c p (function n)
  giveBack {c p} (within : p.In c) : TakesStmt c p (giveBack n)
  importFrom {c p} (within : p.In c) : TakesStmt c p (importFrom n)
  exportAs {c p} (within : p.In c) : TakesStmt c p (exportAs n)
  branch {c p} (within : p.In c) : TakesStmt c p (branch n)
  block {c p} (within : p.In c) : Takes .anything c (fun body => c.declareAll (declaresAll body))
    (fun body ts _ => ∃ us, Closed c body us ∧ ts = .ofKind .leftBrace :: us) p p (block n)
  blockRest {c p} (within : p.In c) : Takes .anything c (fun body => c.declareAll (declaresAll body))
    (fun body ts _ => Closed c body ts) p p (blockRest n)
  assignment {c p} (within : p.In c) :
    Takes .nothing c (fun _ => c) (fun e ts _ => e.Written ts ∧ e.Shaped) p p (assignment n)
  chain {c p} (within : p.In c) (tier : Tier) : TakesExpr tier.binding [] c p (chain n tier)
  chainRest {c p} (within : p.In c) (tier : Tier) {left : Expr} {before : List Token}
    (first : Operand tier.binding (tier.binding + 1) left before p) :
    TakesExpr tier.binding before c p (chainRest n tier left)
  operand {c p} (within : p.In c) (tier : Tier) : TakesExpr (tier.binding + 1) [] c p (operand n tier)
  unary {c p} (within : p.In c) : TakesExpr prefixBinding [] c p (unary n)
  accessRest {c p} (within : p.In c) {target : Expr} {before : List Token} (written : target.Written before)
    (shaped : target.Shaped) (tight : target.binding = accessBinding) :
    TakesExpr accessBinding before c p (accessRest n target)
  elements {c p} (within : p.In c) {close : TokenKind} (closes : close ∈ [.rightParen, .rightBracket]) :
    Takes .nothing c (fun _ => c) (fun es ts _ => ElementsWritten close es ts ∧ ElementsShaped es) p p (elements n close)
  primary {c p} (within : p.In c) : Takes .nothing c (fun _ => c)
    (fun e ts _ => e.Written ts ∧ e.Shaped ∧ e.binding = accessBinding) p p (primary n)
  properties {c p} (within : p.In c) :
    Takes .nothing c (fun _ => c) (fun es ts _ => PropertiesWritten es ts ∧ PropertiesShaped es) p p (properties n)
  parameterNames {c p} (within : p.In c) : Takes .nothing c (fun _ => c)
    (fun names ts _ => names ≠ [] ∧ ts = parameterTokens names) p p (parameterNames n)

namespace Stated

variable {c : Context} {stmt : Stmt} {ts : List Token} {q r : Parser} {t : Token × Nat}

theorem opening_eq (stated : Stated c stmt ts r) (first : q.First ts) (sees : q.Sees t) : stmt.opening = t.1.kind := by
  obtain ⟨u, rest, rfl, kind⟩ := stated.written.head
  rw [← kind, first t u sees rfl]

theorem plain (written : stmt.Written ts) (shaped : stmt.Shaped) (none : stmt.declares = [])
    (ended : stmt.awaitsElse = false) : Stated c stmt ts r where
  written := written
  shaped := shaped
  lacks := by
    rw [none]
    exact ⟨.nil, nofun⟩
  awaits open_branch := by
    rw [ended] at open_branch
    cases open_branch

end Stated

theorem Leaving.grows_outside {word : TokenKind} {name : String} (declares : word ∈ [.varWord, .functionWord])
    (placed : List (Token × Nat)) (declared : List String)
    (same : placed.map Prod.fst = [] ++ [.ofKind word] ++ [⟨.identifier, name⟩])
    (allowed : outside.allows (placed.map .ofToken) declared) :
    outside.allows (placed.map .ofToken) (declared ++ [name]) := by
  intro other among
  rcases List.mem_append.mp among with before | last
  · exact allowed other before
  · rw [List.mem_singleton.mp last, namesOutside, Scan.filterMap_token?_ofToken]
    exact mem_outside_of_word declares same

namespace RulesTake

open Leaving (joins_nothing joins_anything joins_outside)

theorem zero : RulesTake 0 where
  declaration within := .outOfSteps within
  variableDeclaration within := .outOfSteps within
  statement within := .outOfSteps within
  function within := .outOfSteps within
  giveBack within := .outOfSteps within
  importFrom within := .outOfSteps within
  exportAs within := .outOfSteps within
  branch within := .outOfSteps within
  block within := .outOfSteps within
  blockRest within := .outOfSteps within
  assignment within := .outOfSteps within
  chain within _ := .outOfSteps within
  chainRest within _ _ _ _ := .outOfSteps within
  operand within _ := .outOfSteps within
  unary within := .outOfSteps within
  accessRest within _ _ _ _ _ := .outOfSteps within
  elements within _ _ := .outOfSteps within
  primary within := .outOfSteps within
  properties within := .outOfSteps within
  parameterNames within := .outOfSteps within

section Expressions

variable {n : Nat} (ih : RulesTake n) {c : Context} {p : Parser} (within : p.In c)
include ih within

theorem assignment_succ : Takes .nothing c (fun _ => c) (fun e ts _ => e.Written ts ∧ e.Shaped) p p
    (Parser.assignment (n + 1)) := by
  rw [Parser.assignment]
  refine .bind (midway_start within) (joins_nothing _ _) (ih.chain within .logical) fun target us q operand _ mid => ?_
  refine .peek mid fun t q held proper _ mid => ?_
  split
  · next isEqual =>
    refine .discardWord mid held proper isEqual (by decide) (by decide) fun q mid => ?_
    split
    · next assign known =>
      refine .bind mid (joins_nothing _ _) (ih.assignment mid.within) fun value vs q taken _ mid => .pure mid rfl ?_
      refine ⟨?_, assignmentTo?_shaped known operand.shaped taken.2⟩
      simpa using assignmentTo?_written known operand.written taken.1
    · exact .fail mid _
  · refine .pure mid rfl ⟨?_, operand.shaped⟩
    simpa using operand.written

theorem chain_succ (tier : Tier) : TakesExpr tier.binding [] c p (Parser.chain (n + 1) tier) := by
  rw [Parser.chain]
  refine .bind (midway_start within) (joins_nothing _ _) (ih.operand within tier) fun first us q operand _ mid => ?_
  have first : Operand tier.binding (tier.binding + 1) first us q :=
    ⟨operand.written, operand.shaped, Nat.le_of_succ_le operand.tight, operand.ends⟩
  refine .since mid (joins_nothing _ _) (ih.chainRest mid.within tier first) fun e vs q taken _ => ⟨rfl, ?_⟩
  simpa using taken

theorem chainRest_succ (tier : Tier) {left : Expr} {before : List Token}
    (first : Operand tier.binding (tier.binding + 1) left before p) :
    TakesExpr tier.binding before c p (Parser.chainRest (n + 1) tier left) := by
  rw [Parser.chainRest]
  refine .peek (midway_start within) fun t q held proper seen mid => ?_
  split
  · next combine known =>
    have more : t.1.kind ≠ .endOfFile ∧ t.1.kind.Fixed := by
      rcases Tier.combine?_cases known with ⟨op, kind, -⟩ | ⟨op, kind, -⟩
      · rw [← kind]
        exact ⟨by cases op <;> decide, op.fixed_kind⟩
      · rw [← kind]
        exact ⟨by cases op <;> decide, op.fixed_kind⟩
    refine .discard mid held more.1 fun q mid => ?_
    refine .bind mid (joins_nothing _ _) (ih.operand mid.within tier) fun right us q operand _ mid => ?_
    have both : Operand tier.binding (tier.binding + 1) (combine left right) (before ++ t.1 :: us) q := by
      refine ⟨?_, ?_, ?_, operand.ends⟩
      all_goals rcases Tier.combine?_cases known with ⟨op, kind, rfl, rfl⟩ | ⟨op, kind, rfl, rfl⟩
      · exact ⟨before, us, first.written, operand.written, by rw [kind, ← proper.fixed more.2]⟩
      · exact ⟨before, us, first.written, operand.written, by rw [kind, ← proper.fixed more.2]⟩
      · exact ⟨first.shaped, operand.shaped, first.tight, operand.tight⟩
      · exact ⟨first.shaped, operand.shaped, first.tight, operand.tight⟩
      · exact Nat.le_refl _
      · exact Nat.le_refl _
    refine .since mid (joins_nothing _ _) (ih.chainRest mid.within tier both) fun e vs q taken _ => ⟨rfl, ?_⟩
    simpa using taken
  · next none =>
    obtain ⟨u, sees, ends⟩ := first.ends
    rw [← seen u sees] at ends
    refine .pure mid rfl ⟨?_, first.shaped, first.tight, t, sees_of_held held, ends.of_combine?_eq_none none⟩
    simpa using first.written

theorem operand_succ (tier : Tier) : TakesExpr (tier.binding + 1) [] c p (Parser.operand (n + 1) tier) := by
  rw [Parser.operand]
  split
  · next tighter isTighter =>
    have next : tier.binding + 1 = tighter.binding := by
      cases tier <;> cases isTighter <;> rfl
    rw [next]
    exact ih.chain within tighter
  · next isTightest =>
    have next : tier.binding + 1 = prefixBinding := by
      cases tier <;> cases isTightest
      rfl
    rw [next]
    exact ih.unary within

theorem unary_succ : TakesExpr prefixBinding [] c p (Parser.unary (n + 1)) := by
  rw [Parser.unary]
  refine .peek (midway_start within) fun t q held proper _ mid => ?_
  have prefixed (op : UnaryOp) (is : t.1.kind = op.kind) :
      Takes .nothing c (fun _ => c) (fun e ts q => Operand prefixBinding prefixBinding e ([] ++ ts) q) p q (do
        discard
        return Expr.unary op (← Parser.unary n)) := by
    have more : t.1.kind ≠ .endOfFile ∧ t.1.kind.Fixed := by
      rw [is]
      cases op <;> decide
    refine .discard mid held more.1 fun q mid => ?_
    refine .bind mid (joins_nothing _ _) (ih.unary mid.within) fun e us q operand _ mid => .pure mid rfl ?_
    refine ⟨⟨us, operand.written, ?_⟩, ⟨operand.shaped, operand.tight⟩, Nat.le_refl _, operand.ends⟩
    simp [proper.eq_ofKind is (is ▸ more.2)]
  split
  · next isBang => exact prefixed .not isBang
  · next isMinus => exact prefixed .negate isMinus
  · refine .bind mid (joins_nothing _ _) (ih.primary mid.within) fun first us q taken _ mid => ?_
    obtain ⟨written, shaped, tight⟩ := taken
    refine .since mid (joins_nothing _ _) (ih.accessRest mid.within written shaped tight) fun e vs q operand _ => ⟨rfl, ?_⟩
    obtain ⟨written, shaped, tight, u, sees, ends⟩ := operand
    refine ⟨?_, shaped, Nat.le_of_succ_le tight, u, sees, ends.prefixed⟩
    simpa using written

theorem accessRest_succ {target : Expr} {before : List Token} (written : target.Written before)
    (shaped : target.Shaped) (tight : target.binding = accessBinding) :
    TakesExpr accessBinding before c p (Parser.accessRest (n + 1) target) := by
  rw [Parser.accessRest]
  refine .peek (midway_start within) fun t q held proper _ mid => ?_
  split
  · next isCall =>
    refine .discardWord mid held proper isCall (by decide) (by decide) fun q mid => ?_
    refine .bind mid (joins_nothing _ _) (ih.elements mid.within (by decide)) fun args us q taken _ mid => ?_
    have call : (Expr.call target args).Written (before ++ .ofKind .leftParen :: us) :=
      ⟨before, us, written, taken.1, rfl⟩
    refine .since mid (joins_nothing _ _) (ih.accessRest mid.within call ⟨shaped, tight, taken.2⟩ rfl)
      fun e vs q operand _ => ⟨rfl, ?_⟩
    simpa using operand
  · next isItem =>
    refine .discardWord mid held proper isItem (by decide) (by decide) fun q mid => ?_
    refine .bind mid (joins_nothing _ _) (ih.chain mid.within .logical) fun index us q operand _ mid => ?_
    refine .expectWord mid (by decide) (by decide) fun q mid => ?_
    have item : (Expr.item target index).Written
        (before ++ .ofKind .leftBracket :: (us ++ [.ofKind .rightBracket])) :=
      ⟨before, us, written, operand.written, rfl⟩
    refine .since mid (joins_nothing _ _)
      (ih.accessRest mid.within item ⟨shaped, operand.shaped, tight, operand.tight⟩ rfl) fun e vs q taken _ => ⟨rfl, ?_⟩
    simpa using taken
  · next isProperty =>
    refine .discardWord mid held proper isProperty (by decide) (by decide) fun q mid => ?_
    refine .expect mid (by decide) fun name q known _ _ mid => ?_
    have property : (Expr.property target name.lexeme).Written (before ++ [.ofKind .dot, name]) :=
      ⟨before, name, written, spellsKey_of_kind known, rfl⟩
    refine .since mid (joins_nothing _ _) (ih.accessRest mid.within property ⟨shaped, tight⟩ rfl)
      fun e vs q taken _ => ⟨rfl, ?_⟩
    simpa using taken
  · next noCall noItem noProperty =>
    refine .pure mid rfl ⟨?_, shaped, Nat.le_of_eq tight.symm, t, sees_of_held held, .access noCall noItem noProperty⟩
    simpa using written

theorem elements_succ {close : TokenKind} (closes : close ∈ [.rightParen, .rightBracket]) :
    Takes .nothing c (fun _ => c) (fun es ts _ => ElementsWritten close es ts ∧ ElementsShaped es) p p
      (Parser.elements (n + 1) close) := by
  have fixed : close.Fixed ∧ close ≠ .endOfFile ∧ close ∉ openings := by
    simp only [List.mem_cons, List.not_mem_nil, or_false] at closes
    rcases closes with rfl | rfl <;> decide
  rw [Parser.elements]
  refine .peek (midway_start within) fun t q held proper _ mid => ?_
  split
  · next isClose =>
    exact .discardWord mid held proper isClose fixed.1 fixed.2.1 fun q mid => .pure mid rfl ⟨rfl, trivial⟩
  · refine .bind mid (joins_nothing _ _) (ih.chain mid.within .logical) fun first us q operand _ mid => ?_
    refine .peek mid fun t q held proper _ mid => ?_
    dsimp only
    split
    · next isComma =>
      refine .discardWord mid held proper isComma (by decide) (by decide) fun q mid => ?_
      refine .bind mid (joins_nothing _ _) (ih.elements mid.within closes) fun others vs q taken _ mid => ?_
      refine .pure mid rfl ⟨⟨us, vs, operand.written, taken.1, .inl (by simp)⟩, operand.shaped, operand.tight, taken.2⟩
    · split
      · refine .take mid (fun token _ => ⟨_, Takes.fail_bind _⟩) fun token q _ _ _ mid => ?_
        rw [Takes.fail_bind]
        exact .fail mid _
      · next isClose =>
        rw [Decidable.not_not] at isClose
        refine .bind mid (joins_nothing _ _) (ih.elements mid.within closes) fun others vs q taken first mid => ?_
        have last : others = [] := by
          cases vs with
          | nil => exact absurd taken.1 (ElementsWritten.ne_nil · rfl)
          | cons u rest => exact taken.1.eq_nil (by rw [first t u (sees_of_held held) rfl, isClose]) fixed.2.2
        exact .pure mid rfl ⟨⟨us, vs, operand.written, taken.1, .inr ⟨last, rfl⟩⟩, operand.shaped, operand.tight, taken.2⟩

theorem properties_succ : Takes .nothing c (fun _ => c)
    (fun es ts _ => PropertiesWritten es ts ∧ PropertiesShaped es) p p (Parser.properties (n + 1)) := by
  rw [Parser.properties]
  refine .peek (midway_start within) fun t q held proper _ mid => ?_
  split
  · next isClose =>
    exact .discardWord mid held proper isClose (by decide) (by decide) fun q mid => .pure mid rfl ⟨rfl, trivial⟩
  · refine .expect mid (by decide) fun key q named _ _ mid => .expectWord mid (by decide) (by decide) fun q mid => ?_
    refine .bind mid (joins_nothing _ _) (ih.chain mid.within .logical) fun value us q operand _ mid => ?_
    refine .expect mid (by decide) fun token q known proper _ mid => ?_
    have spelled := spellsKey_of_kind named
    simp only [List.mem_cons, List.not_mem_nil, or_false] at known
    split
    · next isClose =>
      cases proper.eq_ofKind isClose (by decide)
      refine .pure mid rfl ⟨⟨key, us, _, spelled, operand.written, rfl, .inr ⟨rfl, ?_⟩⟩, operand.shaped, operand.tight,
        trivial⟩
      simp
    · next noClose =>
      cases proper.eq_ofKind (known.resolve_right noClose) (by decide)
      refine .bind mid (joins_nothing _ _) (ih.properties mid.within) fun others vs q taken _ mid => ?_
      refine .pure mid rfl ⟨⟨key, us, vs, spelled, operand.written, taken.1, .inl ?_⟩, operand.shaped, operand.tight,
        taken.2⟩
      simp

theorem parameterNames_succ : Takes .nothing c (fun _ => c) (fun names ts _ => names ≠ [] ∧ ts = parameterTokens names)
    p p (Parser.parameterNames (n + 1)) := by
  rw [Parser.parameterNames]
  refine .identifier (midway_start within) fun name q mid => .expect mid (by decide) fun token q known proper _ mid => ?_
  simp only [List.mem_cons, List.not_mem_nil, or_false] at known
  split
  · next isClose =>
    cases proper.eq_ofKind isClose (by decide)
    exact .pure mid rfl ⟨nofun, rfl⟩
  · next noClose =>
    cases proper.eq_ofKind (known.resolve_right noClose) (by decide)
    refine .bind mid (joins_nothing _ _) (ih.parameterNames mid.within) fun others vs q taken _ mid => ?_
    refine .pure mid rfl ⟨nofun, ?_⟩
    obtain ⟨some, rfl⟩ := taken
    cases others with
    | nil => exact absurd rfl some
    | cons second rest => rfl

theorem parameters_take : Takes .nothing c (fun _ => c) (fun names ts _ => ts = .ofKind .leftParen :: parameterTokens names)
    p p (parameters n) := by
  unfold parameters
  refine .expectWord (midway_start within) (by decide) (by decide) fun q mid => ?_
  refine .peek mid fun t q held proper _ mid => ?_
  split
  · next isClose =>
    exact .discardWord mid held proper isClose (by decide) (by decide) fun q mid => .pure mid rfl rfl
  · refine .since mid (joins_nothing _ _) (ih.parameterNames mid.within) fun names us q taken _ => ⟨rfl, ?_⟩
    rw [taken.2]
    rfl

theorem methodBody_take (params : List String) :
    Takes .nothing c (fun _ => c) (fun body ts _ => Body params body ts) p p
      (inMethod (inScope do
        declareAll params
        Parser.block n)) := by
  refine .inMethod within _ fun q within => .inScope within
    (fun body => (Context.enter ⟨.receiver, [c.globals]⟩).declareAll (params ++ declaresAll body)) fun q within => ?_
  refine .declareAll (midway_start within) fun q lacks mid => ?_
  refine .since mid (joins_anything _ _) (ih.block mid.within) fun body us q taken _ => ?_
  obtain ⟨vs, ⟨⟨b, written, rfl⟩, shaped, lacksBody⟩, rfl⟩ := taken
  refine ⟨by rw [Context.declareAll_append], ⟨b, written, rfl⟩, shaped, (lacks.append lacksBody).1⟩

theorem primary_succ : Takes .nothing c (fun _ => c)
    (fun e ts _ => e.Written ts ∧ e.Shaped ∧ e.binding = accessBinding) p p (Parser.primary (n + 1)) := by
  rw [Parser.primary]
  refine .take (midway_start within) ?_ fun token q more proper _ mid => ?_
  · intro token ending
    rw [ending]
    exact ⟨_, rfl⟩
  split
  · next isName =>
    refine .resolve fun level => .pure mid rfl ⟨?_, trivial, rfl⟩
    change [token] = [⟨.identifier, token.lexeme⟩]
    rw [← isName]
  · next isText =>
    refine .pure mid rfl ⟨⟨token, ?_, rfl⟩, trivial, rfl⟩
    rw [Literal.Spelled, ← isText]
  · next isInteger =>
    dsimp only
    split
    · next small => exact .pure mid rfl ⟨⟨token, ⟨isInteger, rfl⟩, rfl⟩, small, rfl⟩
    · exact .fail mid _
  · next isFloat => exact .pure mid rfl ⟨⟨token, ⟨isFloat, rfl⟩, rfl⟩, trivial, rfl⟩
  · next isTruth =>
    exact .pure mid rfl ⟨⟨token, Literal.spelled_boolean isTruth (proper.boolean isTruth), rfl⟩, trivial, rfl⟩
  · next isNil => exact .pure mid rfl ⟨⟨token, proper.eq_ofKind isNil (by decide), rfl⟩, trivial, rfl⟩
  · next isGroup =>
    cases proper.eq_ofKind isGroup (by decide)
    refine .bind mid (joins_nothing _ _) (ih.chain mid.within .logical) fun inner us q operand _ mid => ?_
    refine .expectWord mid (by decide) (by decide) fun q mid => .pure mid rfl ?_
    exact ⟨⟨us, operand.written, by simp⟩, ⟨operand.shaped, operand.tight⟩, rfl⟩
  · next isList =>
    cases proper.eq_ofKind isList (by decide)
    refine .bind mid (joins_nothing _ _) (ih.elements mid.within (by decide)) fun items us q taken _ mid => ?_
    exact .pure mid rfl ⟨⟨us, taken.1, rfl⟩, taken.2, rfl⟩
  · next isObject =>
    cases proper.eq_ofKind isObject (by decide)
    refine .expectWord mid (by decide) (by decide) fun q mid => ?_
    refine .bind mid (joins_nothing _ _) (ih.properties mid.within) fun properties us q taken _ mid => ?_
    exact .pure mid rfl ⟨⟨us, taken.1, rfl⟩, taken.2, rfl⟩
  · next isMethod =>
    cases proper.eq_ofKind isMethod (by decide)
    refine .bind mid (joins_nothing _ _) (ih.parameters_take mid.within) fun params us q taken _ mid => ?_
    refine .bind mid (joins_nothing _ _) (ih.methodBody_take mid.within params) fun body vs q inner _ mid => .pure mid rfl ?_
    obtain ⟨⟨b, written, rfl⟩, shaped, distinct⟩ := inner
    exact ⟨⟨b, written, by simp [taken]⟩, ⟨distinct, shaped⟩, rfl⟩
  · exact .fail mid _

end Expressions

section Statements

variable {n : Nat} (ih : RulesTake n) {c : Context} {p : Parser} (within : p.In c)
include ih within

theorem declaration_succ : TakesStmt c p (Parser.declaration (n + 1)) := by
  rw [Parser.declaration]
  refine .peek (midway_start within) fun t q held proper _ mid => ?_
  split
  · exact .since mid (joins_outside fun _ => rfl) (ih.variableDeclaration mid.within) fun stmt us q stated _ => ⟨rfl, stated⟩
  · refine .since mid (joins_outside fun _ => rfl) (ih.statement mid.within) fun stmt us q taken _ => ⟨rfl, taken.1⟩

theorem variableDeclaration_succ : TakesStmt c p (Parser.variableDeclaration (n + 1)) := by
  rw [Parser.variableDeclaration]
  refine .expectWord (midway_start within) (by decide) (by decide) fun q mid => .identifier mid fun name q mid => ?_
  refine .declare mid (Leaving.grows_outside (by decide)) fun q new _ mid => .peek mid fun t q held proper _ mid => ?_
  have lacks : c.Lacks [name] := by
    refine ⟨List.pairwise_singleton _ name, fun other among => ?_⟩
    rwa [List.mem_singleton.mp among]
  split
  · next isSemicolon =>
    refine .discardWord mid held proper isSemicolon (by decide) (by decide) fun q mid => .pure mid rfl ?_
    exact ⟨rfl, trivial, lacks, nofun⟩
  · refine .expectWord mid (by decide) (by decide) fun q mid => ?_
    refine .bind mid (joins_nothing _ _) (ih.chain mid.within .logical) fun initial us q operand _ mid => ?_
    refine .expectWord mid (by decide) (by decide) fun q mid => .pure mid rfl ?_
    exact ⟨⟨us, operand.written, by simp⟩, ⟨operand.shaped, operand.tight⟩, lacks, nofun⟩

theorem scopedBlock_take :
    Takes .nothing c (fun _ => c) (fun body ts _ => Body [] body ts) p p (inScope (Parser.block n)) := by
  refine .inScope within (fun body => c.enter.declareAll (declaresAll body)) fun q within => ?_
  refine .since (midway_start within) (joins_anything _ _) (ih.block within) fun body us q taken _ => ⟨rfl, ?_⟩
  obtain ⟨vs, ⟨⟨b, written, rfl⟩, shaped, lacks⟩, rfl⟩ := taken
  exact ⟨⟨b, written, rfl⟩, shaped, lacks.1⟩

theorem statement_succ : Takes .outside c (fun stmt => c.declareAll stmt.declares)
    (fun stmt ts q => Stated c stmt ts q ∧ stmt.opening ≠ .varWord) p p (Parser.statement (n + 1)) := by
  rw [Parser.statement]
  refine .peek (midway_start within) fun t q held proper _ mid => ?_
  have sees := sees_of_held held
  have tail {act : Parsing Stmt} (taken : TakesStmt c q act) (other : t.1.kind ≠ .varWord) :
      Takes .outside c (fun stmt => c.declareAll stmt.declares)
        (fun stmt ts q => Stated c stmt ts q ∧ stmt.opening ≠ .varWord) p q act := by
    refine .since mid (joins_outside fun _ => rfl) taken fun stmt us r stated first => ⟨rfl, stated, ?_⟩
    rwa [stated.opening_eq first sees]
  split
  · next isBlock =>
    refine .bind mid (joins_nothing _ _) (ih.scopedBlock_take mid.within) fun body us q taken _ mid => .pure mid rfl ?_
    obtain ⟨⟨b, written, rfl⟩, shaped, distinct⟩ := taken
    exact ⟨.plain ⟨b, written, rfl⟩ ⟨distinct, shaped⟩ rfl rfl, nofun⟩
  · next isBranch => exact tail (ih.branch mid.within) (by rw [isBranch]; decide)
  · refine .expectWord mid (by decide) (by decide) fun q mid => ?_
    refine .bind mid (joins_nothing _ _) (ih.chain mid.within .logical) fun condition us q operand _ mid => ?_
    refine .bind mid (joins_nothing _ _) (ih.scopedBlock_take mid.within) fun body vs q taken _ mid => .pure mid rfl ?_
    obtain ⟨⟨b, written, rfl⟩, shaped, distinct⟩ := taken
    exact ⟨.plain ⟨us, b, operand.written, written, by simp⟩ ⟨operand.shaped, operand.tight, distinct, shaped⟩ rfl rfl,
      nofun⟩
  · next isSemicolon =>
    refine .discardWord mid held proper isSemicolon (by decide) (by decide) fun q mid => .pure mid rfl ?_
    exact ⟨.plain rfl trivial rfl rfl, nofun⟩
  · next isFunction => exact tail (ih.function mid.within) (by rw [isFunction]; decide)
  · next isReturn => exact tail (ih.giveBack mid.within) (by rw [isReturn]; decide)
  · next isBreak =>
    refine .discardWord mid held proper isBreak (by decide) (by decide) fun q mid => ?_
    refine .expectWord mid (by decide) (by decide) fun q mid => .pure mid rfl ⟨.plain rfl trivial rfl rfl, nofun⟩
  · next isContinue =>
    refine .discardWord mid held proper isContinue (by decide) (by decide) fun q mid => ?_
    refine .expectWord mid (by decide) (by decide) fun q mid => .pure mid rfl ⟨.plain rfl trivial rfl rfl, nofun⟩
  · next isImport => exact tail (ih.importFrom mid.within) (by rw [isImport]; decide)
  · next isExport => exact tail (ih.exportAs mid.within) (by rw [isExport]; decide)
  · next noFunction _ _ _ _ _ =>
    refine .bind mid (joins_nothing _ _) (ih.assignment mid.within) fun value us q taken first mid => ?_
    refine .expectWord mid (by decide) (by decide) fun q mid => .pure mid rfl ?_
    obtain ⟨u, rest, rfl, kind⟩ := taken.1.head
    have same : value.opening = t.1.kind := by rw [← kind, first t u sees rfl]
    refine ⟨.plain ⟨_, taken.1, by simp⟩ ⟨taken.2, ?_⟩ rfl rfl, ?_⟩
    · rwa [same]
    · intro isVar
      have opens := value.opening_mem
      rw [show value.opening = .varWord from isVar] at opens
      exact absurd opens (by decide)

theorem functionRest_take (name : String) : Takes .anything c (fun stmt : Stmt => c.declareAll stmt.own)
    (fun stmt ts _ => ∃ params body us, stmt = .function name params body ∧ Body params body us ∧
      ts = .ofKind .leftParen :: (parameterTokens params ++ us)) p p (do
    let params ← parameters n
    declareAll params
    let body ← Parser.block n
    return .function name params body) := by
  refine .bind (midway_start within) (joins_nothing _ _) (ih.parameters_take within) fun params us q taken _ mid => ?_
  refine .declareAll mid fun q lacks mid => ?_
  refine .bind mid (joins_anything _ _) (ih.block mid.within) fun body vs q inner _ mid => .pure mid ?_ ?_
  · rw [← Context.declareAll_append]
    rfl
  · obtain ⟨ws, ⟨⟨b, written, rfl⟩, shaped, lacksBody⟩, rfl⟩ := inner
    exact ⟨params, body, _, rfl, ⟨⟨b, written, rfl⟩, shaped, (lacks.append lacksBody).1⟩, by simp [taken]⟩

theorem function_succ : TakesStmt c p (Parser.function (n + 1)) := by
  rw [Parser.function]
  refine .expectWord (midway_start within) (by decide) (by decide) fun q mid => .identifier mid fun name q mid => ?_
  refine .declare mid (Leaving.grows_outside (by decide)) fun q new _ mid => ?_
  have lacks : c.Lacks [name] := by
    refine ⟨List.pairwise_singleton _ name, fun other among => ?_⟩
    rwa [List.mem_singleton.mp among]
  have inside := Takes.inScope mid.within _ fun q within => ih.functionRest_take within name
  refine .since mid (joins_nothing _ _) inside ?_
  rintro stmt us q ⟨params, body, vs, rfl, ⟨⟨b, written, rfl⟩, shaped, distinct⟩, rfl⟩ -
  exact ⟨rfl, ⟨b, written, by simp⟩, ⟨distinct, shaped⟩, lacks, nofun⟩

theorem giveBack_succ : TakesStmt c p (Parser.giveBack (n + 1)) := by
  rw [Parser.giveBack]
  refine .expectWord (midway_start within) (by decide) (by decide) fun q mid => .peek mid fun t q held proper _ mid => ?_
  split
  · next isSemicolon =>
    refine .discardWord mid held proper isSemicolon (by decide) (by decide) fun q mid => .pure mid rfl ?_
    exact .plain rfl trivial rfl rfl
  · refine .bind mid (joins_nothing _ _) (ih.chain mid.within .logical) fun value us q operand _ mid => ?_
    refine .expectWord mid (by decide) (by decide) fun q mid => .pure mid rfl ?_
    exact .plain ⟨us, operand.written, by simp⟩ ⟨operand.shaped, operand.tight⟩ rfl rfl

theorem importFrom_succ : TakesStmt c p (Parser.importFrom (n + 1)) := by
  rw [Parser.importFrom]
  refine .expectWord (midway_start within) (by decide) (by decide) fun q mid => ?_
  refine .bind mid (joins_nothing _ _) (ih.primary mid.within) fun source us q taken _ mid => ?_
  refine .expectWord mid (by decide) (by decide) fun q mid => ?_
  split
  · next isSource => exact .pure mid rfl (.plain ⟨us, taken.1, by simp⟩ isSource rfl rfl)
  · exact .fail mid _

theorem exportAs_succ : TakesStmt c p (Parser.exportAs (n + 1)) := by
  rw [Parser.exportAs]
  refine .expectWord (midway_start within) (by decide) (by decide) fun q mid => ?_
  refine .bind mid (joins_nothing _ _) (ih.assignment mid.within) fun value us q taken _ mid => ?_
  refine .expect mid (by decide) fun token q known proper _ mid => ?_
  simp only [List.mem_cons, List.not_mem_nil, or_false] at known
  split
  · next isSemicolon =>
    cases proper.eq_ofKind isSemicolon (by decide)
    split
    · next name level =>
      exact .pure mid rfl (.plain ⟨us, taken.1, .inr ⟨⟨level, rfl⟩, by simp⟩⟩ taken.2 rfl rfl)
    · exact .fail mid _
  · next noSemicolon =>
    cases proper.eq_ofKind (known.resolve_left noSemicolon) (by decide)
    refine .identifier mid fun name q mid => .expectWord mid (by decide) (by decide) fun q mid => .pure mid rfl ?_
    exact .plain ⟨us, taken.1, .inl (by simp)⟩ taken.2 rfl rfl

theorem branch_succ : TakesStmt c p (Parser.branch (n + 1)) := by
  rw [Parser.branch]
  refine .expectWord (midway_start within) (by decide) (by decide) fun q mid => ?_
  refine .bind mid (joins_nothing _ _) (ih.chain mid.within .logical) fun condition us q operand _ mid => ?_
  have written : condition.Written us := operand.written
  have balanced : Balanced ([] ++ [.ofKind .ifWord] ++ us) := by
    intro depth
    simp [Token.ofKind, TokenKind.deeper, written.balanced.depthAfter_eq]
  refine .bind mid (joins_outside balanced) (ih.statement mid.within) fun yes vs q taken first mid => ?_
  obtain ⟨stated, noVariable⟩ := taken
  obtain ⟨u, sees, ends⟩ := operand.ends
  rw [← stated.opening_eq first sees] at ends
  refine .peek mid fun t q held proper seen mid => ?_
  split
  · next isElse =>
    refine .discardWord mid held proper isElse (by decide) (by decide) fun q mid => ?_
    have balanced : Balanced ([] ++ [.ofKind .ifWord] ++ us ++ vs ++ [.ofKind .elseWord]) := by
      intro depth
      simp [Token.ofKind, TokenKind.deeper, written.balanced.depthAfter_eq, stated.written.balanced.depthAfter_eq]
    have closed : yes.awaitsElse = false := by
      rw [← Bool.not_eq_true]
      intro awaits
      obtain ⟨w, sees, other⟩ := stated.awaits awaits
      rw [← seen w sees] at other
      exact other isElse
    refine .bind mid (joins_outside balanced) (ih.statement mid.within) fun no ws q taken _ mid => ?_
    obtain ⟨statedNo, noVariableNo⟩ := taken
    refine .pure mid ?_ ⟨⟨us, vs, ws, written, stated.written, statedNo.written, by simp⟩,
      ⟨operand.shaped, operand.tight, stated.shaped, noVariable, ends, closed, statedNo.shaped, noVariableNo⟩,
      stated.lacks.append statedNo.lacks, statedNo.awaits⟩
    rw [← Context.declareAll_append]
    rfl
  · next noElse =>
    exact .pure mid rfl ⟨⟨us, vs, written, stated.written, by simp⟩,
      ⟨operand.shaped, operand.tight, stated.shaped, noVariable, ends⟩, stated.lacks,
      fun _ => ⟨t, sees_of_held held, noElse⟩⟩

theorem block_succ : Takes .anything c (fun body => c.declareAll (declaresAll body))
    (fun body ts _ => ∃ us, Closed c body us ∧ ts = .ofKind .leftBrace :: us) p p (Parser.block (n + 1)) := by
  rw [Parser.block]
  refine .expectWord (midway_start within) (by decide) (by decide) fun q mid => ?_
  exact .since mid (joins_anything _ _) (ih.blockRest mid.within) fun body us q closed _ => ⟨rfl, us, closed, rfl⟩

theorem blockRest_succ : Takes .anything c (fun body => c.declareAll (declaresAll body))
    (fun body ts _ => Closed c body ts) p p (Parser.blockRest (n + 1)) := by
  rw [Parser.blockRest]
  refine .peek (midway_start within) fun t q held proper _ mid => ?_
  split
  · next isClose =>
    refine .discardWord mid held proper isClose (by decide) (by decide) fun q mid => .pure mid rfl ?_
    exact ⟨⟨[], rfl, rfl⟩, trivial, .nil, nofun⟩
  · exact .fail mid _
  · refine .bind mid (joins_anything _ _) (ih.declaration mid.within) fun first us q stated _ mid => ?_
    refine .bind mid (joins_anything _ _) (ih.blockRest mid.within) fun rest vs q closed _ mid => .pure mid ?_ ?_
    · rw [← Context.declareAll_append]
      rfl
    · obtain ⟨⟨b, written, rfl⟩, shaped, lacks⟩ := closed
      exact ⟨⟨us ++ b, ⟨us, b, stated.written, written, rfl⟩, by simp⟩, ⟨stated.shaped, shaped⟩,
        stated.lacks.append lacks⟩

end Statements

theorem succ {n : Nat} (ih : RulesTake n) : RulesTake (n + 1) where
  declaration := ih.declaration_succ
  variableDeclaration := ih.variableDeclaration_succ
  statement := ih.statement_succ
  function := ih.function_succ
  giveBack := ih.giveBack_succ
  importFrom := ih.importFrom_succ
  exportAs := ih.exportAs_succ
  branch := ih.branch_succ
  block := ih.block_succ
  blockRest := ih.blockRest_succ
  assignment := ih.assignment_succ
  chain := ih.chain_succ
  chainRest := ih.chainRest_succ
  operand := ih.operand_succ
  unary := ih.unary_succ
  accessRest := ih.accessRest_succ
  elements := ih.elements_succ
  primary := ih.primary_succ
  properties := ih.properties_succ
  parameterNames := ih.parameterNames_succ

end RulesTake

theorem rulesTake (n : Nat) : RulesTake n := by
  induction n with
  | zero => exact .zero
  | succ n ih => exact ih.succ

end Parser

end HookScript
