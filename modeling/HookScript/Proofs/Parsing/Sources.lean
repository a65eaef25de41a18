import HookScript.Proofs.Lexing.Answers
import HookScript.Proofs.Parsing.Progress

/-!
Parsers on sources that give the same answers. They do the same with them, step by step, and the tree or the errors
are the same in the end. One source may say more often than the other that the file has ended, so the parsers may
allow themselves different numbers of steps; that cannot be told, because neither of them ever needs all of its steps.
-/

namespace HookScript

namespace Parser

structure Matches (p q : Parser) : Prop where
  held : q.ahead.held = p.ahead.held
  same : TokenSource.SameAnswers p.ahead.source q.ahead.source
  scopes : q.scopes = p.scopes
  steps : p.steps ≤ q.steps

inductive EndsAlike {α : Type} : EStateM.Result ParseError Parser α → EStateM.Result ParseError Parser α → Prop
  | ok {a p q} (matching : p.Matches q) : EndsAlike (.ok a p) (.ok a q)
  | error {e p q} (matching : p.Matches q) : EndsAlike (.error e p) (.error e q)
  | starved {p result} : EndsAlike (.error .outOfSteps p) result

/-- From parsers that match, what the first rule does the second one does too. -/
def Repeats {α : Type} (act act' : Parsing α) : Prop := ∀ ⦃p q : Parser⦄, p.Matches q → EndsAlike (act p) (act' q)

namespace Matches

variable {p q : Parser}

theorem line_eq (matching : p.Matches q) : p.ahead.line = q.ahead.line := by
  unfold Lookahead.line
  rw [matching.held, matching.same.line_eq]

theorem withScopes (matching : p.Matches q) (scopes : ScopeStack) : { p with scopes }.Matches { q with scopes } :=
  ⟨matching.held, matching.same, rfl, matching.steps⟩

theorem next (matching : p.Matches q) (held : Option (Token × Nat)) :
    { p with ahead := ⟨(TokenSource.next p.ahead.source).2, held⟩ }.Matches
      { q with ahead := ⟨(TokenSource.next q.ahead.source).2, held⟩ } :=
  ⟨rfl, matching.same.next, matching.scopes, matching.steps⟩

theorem release (matching : p.Matches q) :
    { p with ahead := ⟨p.ahead.source, none⟩ }.Matches { q with ahead := ⟨q.ahead.source, none⟩ } :=
  ⟨rfl, matching.same, matching.scopes, matching.steps⟩

end Matches

namespace Repeats

variable {α β : Type} {act act' : Parsing α} {next next' : α → Parsing β}

theorem outOfSteps (act' : Parsing α) : Repeats Parser.outOfSteps act' := fun _ _ _ => .starved

theorem pure (a : α) : Repeats (Pure.pure a) (Pure.pure a) := fun _ _ matching => .ok matching

theorem bind (first : Repeats act act') (second : ∀ a, Repeats (next a) (next' a)) :
    Repeats (act >>= next) (act' >>= next') := by
  intro p q matching
  have ended := first matching
  simp only [Bind.bind, EStateM.bind]
  generalize act p = result, act' q = result' at ended
  cases ended with
  | ok matching => exact second _ matching
  | error matching => exact .error matching
  | starved => exact .starved

theorem fail (error : SyntaxError) : Repeats (Parser.fail error : Parsing α) (Parser.fail error) := by
  intro p q matching
  unfold Parser.fail
  rw [matching.line_eq]
  exact .error matching

theorem peekKind : Repeats Parser.peekKind Parser.peekKind := by
  intro p q matching
  have asked := matching.next
  have answers := matching.same.answer_eq
  have lines := matching.same.next.line_eq
  unfold Parser.peekKind Lookahead.peek
  rw [matching.held]
  cases p.ahead.held with
  | some front => exact .ok ⟨matching.held, matching.same, matching.scopes, matching.steps⟩
  | none =>
    generalize TokenSource.next p.ahead.source = answer, TokenSource.next q.ahead.source = answer' at asked answers lines
    obtain ⟨result, source⟩ := answer
    obtain ⟨_, source'⟩ := answer'
    cases answers
    cases result with
    | ok token =>
      dsimp only at lines ⊢
      rw [← lines]
      exact .ok (asked _)
    | error failure => exact .error (asked none)

theorem take : Repeats Parser.take Parser.take := by
  intro p q matching
  have asked := matching.next none
  have answers := matching.same.answer_eq
  unfold Parser.take Lookahead.next
  rw [matching.held]
  cases p.ahead.held with
  | some front => exact .ok matching.release
  | none =>
    generalize TokenSource.next p.ahead.source = answer, TokenSource.next q.ahead.source = answer' at asked answers
    obtain ⟨result, source⟩ := answer
    obtain ⟨_, source'⟩ := answer'
    cases answers
    cases result with
    | ok token => exact .ok asked
    | error failure => exact .error asked

theorem discard : Repeats Parser.discard Parser.discard := fun _ _ matching => .ok matching.release

theorem expect (kinds : List TokenKind) : Repeats (Parser.expect kinds) (Parser.expect kinds) := by
  refine .bind .take fun token => ?_
  split
  · exact .pure token
  · exact .fail _

theorem identifier : Repeats Parser.identifier Parser.identifier := .bind (.expect _) fun _ => .pure _

theorem declare (name : String) : Repeats (Parser.declare name) (Parser.declare name) := by
  intro p q matching
  unfold Parser.declare
  rw [matching.scopes]
  cases p.scopes.declare? name with
  | some scopes => exact .ok (matching.withScopes scopes)
  | none => exact Repeats.fail _ matching

theorem declareAll (names : List String) : Repeats (Parser.declareAll names) (Parser.declareAll names) := by
  induction names with
  | nil => exact .pure ()
  | cons name rest ih => exact .bind (.declare name) fun _ => ih

theorem resolve (name : String) : Repeats (Parser.resolve name) (Parser.resolve name) := by
  intro p q matching
  unfold Parser.resolve
  rw [matching.scopes]
  exact .ok matching

theorem inScope (inside : Repeats act act') : Repeats (Parser.inScope act) (Parser.inScope act') := by
  intro p q matching
  have ended := inside (matching.withScopes p.scopes.begin)
  unfold Parser.inScope
  rw [matching.scopes]
  generalize act { p with scopes := p.scopes.begin } = result, act' { q with scopes := p.scopes.begin } = result' at ended
  cases ended with
  | ok matching =>
    dsimp only
    rw [matching.scopes]
    exact .ok (matching.withScopes _)
  | error matching =>
    dsimp only
    rw [matching.scopes]
    exact .error (matching.withScopes _)
  | starved => exact .starved

theorem inMethod (inside : Repeats act act') : Repeats (Parser.inMethod act) (Parser.inMethod act') := by
  intro p q matching
  have ended := inside (matching.withScopes p.scopes.forMethod)
  unfold Parser.inMethod
  rw [matching.scopes]
  generalize act { p with scopes := p.scopes.forMethod } = result,
    act' { q with scopes := p.scopes.forMethod } = result' at ended
  cases ended with
  | ok matching => exact .ok (matching.withScopes _)
  | error matching => exact .error (matching.withScopes _)
  | starved => exact .starved

theorem ite {c : Prop} [Decidable c] {other other' : Parsing α} (yes : Repeats act act') (no : Repeats other other') :
    Repeats (if c then act else other) (if c then act' else other') := by
  split
  · exact yes
  · exact no

end Repeats

structure RulesRepeat (n k : Nat) : Prop where
  declaration : Repeats (declaration n) (declaration k)
  variableDeclaration : Repeats (variableDeclaration n) (variableDeclaration k)
  statement : Repeats (statement n) (statement k)
  function : Repeats (function n) (function k)
  giveBack : Repeats (giveBack n) (giveBack k)
  importFrom : Repeats (importFrom n) (importFrom k)
  exportAs : Repeats (exportAs n) (exportAs k)
  branch : Repeats (branch n) (branch k)
  block : Repeats (block n) (block k)
  blockRest : Repeats (blockRest n) (blockRest k)
  assignment : Repeats (assignment n) (assignment k)
  chain (tier : Tier) : Repeats (chain n tier) (chain k tier)
  chainRest (tier : Tier) (left : Expr) : Repeats (chainRest n tier left) (chainRest k tier left)
  operand (tier : Tier) : Repeats (operand n tier) (operand k tier)
  unary : Repeats (unary n) (unary k)
  accessRest (target : Expr) : Repeats (accessRest n target) (accessRest k target)
  elements (close : TokenKind) : Repeats (elements n close) (elements k close)
  primary : Repeats (primary n) (primary k)
  properties : Repeats (properties n) (properties k)
  parameterNames : Repeats (parameterNames n) (parameterNames k)
  synchronize : Repeats (synchronize n) (synchronize k)

namespace RulesRepeat

theorem zero (k : Nat) : RulesRepeat 0 k := by
  constructor <;> intros <;> exact .outOfSteps _

section Expressions

variable {n k : Nat} (ih : RulesRepeat n k)
include ih

theorem assignment_succ : Repeats (Parser.assignment (n + 1)) (Parser.assignment (k + 1)) := by
  rw [Parser.assignment, Parser.assignment]
  refine .bind (ih.chain .logical) fun target => .bind .peekKind fun kind => .ite (.bind .discard fun _ => ?_) (.pure _)
  split
  · exact .bind ih.assignment fun value => .pure _
  · exact .fail _

theorem chain_succ (tier : Tier) : Repeats (Parser.chain (n + 1) tier) (Parser.chain (k + 1) tier) := by
  rw [Parser.chain, Parser.chain]
  exact .bind (ih.operand tier) fun first => ih.chainRest tier first

theorem chainRest_succ (tier : Tier) (left : Expr) :
    Repeats (Parser.chainRest (n + 1) tier left) (Parser.chainRest (k + 1) tier left) := by
  rw [Parser.chainRest, Parser.chainRest]
  refine .bind .peekKind fun kind => ?_
  split
  · exact .bind .discard fun _ => .bind (ih.operand tier) fun right => ih.chainRest tier _
  · exact .pure _

theorem operand_succ (tier : Tier) : Repeats (Parser.operand (n + 1) tier) (Parser.operand (k + 1) tier) := by
  rw [Parser.operand, Parser.operand]
  split
  · next tighter _ => exact ih.chain tighter
  · exact ih.unary

theorem unary_succ : Repeats (Parser.unary (n + 1)) (Parser.unary (k + 1)) := by
  rw [Parser.unary, Parser.unary]
  refine .bind .peekKind fun kind => ?_
  split
  · exact .bind .discard fun _ => .bind ih.unary fun operand => .pure _
  · exact .bind .discard fun _ => .bind ih.unary fun operand => .pure _
  · exact .bind ih.primary fun first => ih.accessRest first

theorem accessRest_succ (target : Expr) :
    Repeats (Parser.accessRest (n + 1) target) (Parser.accessRest (k + 1) target) := by
  rw [Parser.accessRest, Parser.accessRest]
  refine .bind .peekKind fun kind => ?_
  split
  · exact .bind .discard fun _ => .bind (ih.elements .rightParen) fun args => ih.accessRest _
  · refine .bind .discard fun _ => .bind (ih.chain .logical) fun index => .bind (.expect _) fun _ => ?_
    exact ih.accessRest _
  · exact .bind .discard fun _ => .bind (.expect _) fun name => ih.accessRest _
  · exact .pure _

theorem elements_succ (close : TokenKind) :
    Repeats (Parser.elements (n + 1) close) (Parser.elements (k + 1) close) := by
  rw [Parser.elements, Parser.elements]
  refine .bind .peekKind fun kind => .ite (.bind .discard fun _ => .pure _) ?_
  refine .bind (ih.chain .logical) fun first => .bind .peekKind fun after => ?_
  have more : Repeats (do return first :: (← Parser.elements n close)) (do return first :: (← Parser.elements k close)) :=
    .bind (ih.elements close) fun others => .pure _
  refine .ite (.bind .discard fun _ => more) (.ite ?_ more)
  exact .bind .take fun token => .bind (.fail _) fun _ => more

theorem properties_succ : Repeats (Parser.properties (n + 1)) (Parser.properties (k + 1)) := by
  rw [Parser.properties, Parser.properties]
  refine .bind .peekKind fun kind => .ite (.bind .discard fun _ => .pure _) ?_
  refine .bind (.expect _) fun key => .bind (.expect _) fun _ => .bind (ih.chain .logical) fun value => ?_
  exact .bind (.expect _) fun token => .ite (.pure _) (.bind ih.properties fun others => .pure _)

theorem parameterNames_succ : Repeats (Parser.parameterNames (n + 1)) (Parser.parameterNames (k + 1)) := by
  rw [Parser.parameterNames, Parser.parameterNames]
  refine .bind .identifier fun name => .bind (.expect _) fun token => ?_
  exact .ite (.pure _) (.bind ih.parameterNames fun others => .pure _)

theorem parameters_repeat : Repeats (parameters n) (parameters k) := by
  unfold parameters
  refine .bind (.expect _) fun _ => .bind .peekKind fun kind => ?_
  exact .ite (.bind .discard fun _ => .pure _) ih.parameterNames

theorem primary_succ : Repeats (Parser.primary (n + 1)) (Parser.primary (k + 1)) := by
  rw [Parser.primary, Parser.primary]
  refine .bind .take fun token => ?_
  split
  · exact .bind (.resolve _) fun level => .pure _
  · exact .pure _
  · exact .ite (.pure _) (.fail _)
  · exact .pure _
  · exact .pure _
  · exact .pure _
  · exact .bind (ih.chain .logical) fun inner => .bind (.expect _) fun _ => .pure _
  · exact .bind (ih.elements .rightBracket) fun items => .pure _
  · exact .bind (.expect _) fun _ => .bind ih.properties fun properties => .pure _
  · refine .bind ih.parameters_repeat fun params => .bind (.inMethod (.inScope ?_)) fun body => .pure _
    exact .bind (.declareAll params) fun _ => ih.block
  · exact .fail _

end Expressions

section Statements

variable {n k : Nat} (ih : RulesRepeat n k)
include ih

theorem declaration_succ : Repeats (Parser.declaration (n + 1)) (Parser.declaration (k + 1)) := by
  rw [Parser.declaration, Parser.declaration]
  exact .bind .peekKind fun kind => .ite ih.variableDeclaration ih.statement

theorem variableDeclaration_succ :
    Repeats (Parser.variableDeclaration (n + 1)) (Parser.variableDeclaration (k + 1)) := by
  rw [Parser.variableDeclaration, Parser.variableDeclaration]
  refine .bind (.expect _) fun _ => .bind .identifier fun name => .bind (.declare name) fun _ => ?_
  refine .bind .peekKind fun kind => .ite (.bind .discard fun _ => .pure _) ?_
  exact .bind (.expect _) fun _ => .bind (ih.chain .logical) fun initial => .bind (.expect _) fun _ => .pure _

theorem statement_succ : Repeats (Parser.statement (n + 1)) (Parser.statement (k + 1)) := by
  rw [Parser.statement, Parser.statement]
  refine .bind .peekKind fun kind => ?_
  split
  · exact .bind (.inScope ih.block) fun body => .pure _
  · exact ih.branch
  · refine .bind (.expect _) fun _ => .bind (ih.chain .logical) fun condition => ?_
    exact .bind (.inScope ih.block) fun body => .pure _
  · exact .bind .discard fun _ => .pure _
  · exact ih.function
  · exact ih.giveBack
  · exact .bind .discard fun _ => .bind (.expect _) fun _ => .pure _
  · exact .bind .discard fun _ => .bind (.expect _) fun _ => .pure _
  · exact ih.importFrom
  · exact ih.exportAs
  · exact .bind ih.assignment fun value => .bind (.expect _) fun _ => .pure _

theorem function_succ : Repeats (Parser.function (n + 1)) (Parser.function (k + 1)) := by
  rw [Parser.function, Parser.function]
  refine .bind (.expect _) fun _ => .bind .identifier fun name => .bind (.declare name) fun _ => .inScope ?_
  refine .bind ih.parameters_repeat fun params => .bind (.declareAll params) fun _ => ?_
  exact .bind ih.block fun body => .pure _

theorem giveBack_succ : Repeats (Parser.giveBack (n + 1)) (Parser.giveBack (k + 1)) := by
  rw [Parser.giveBack, Parser.giveBack]
  refine .bind (.expect _) fun _ => .bind .peekKind fun kind => .ite (.bind .discard fun _ => .pure _) ?_
  exact .bind (ih.chain .logical) fun value => .bind (.expect _) fun _ => .pure _

theorem importFrom_succ : Repeats (Parser.importFrom (n + 1)) (Parser.importFrom (k + 1)) := by
  rw [Parser.importFrom, Parser.importFrom]
  refine .bind (.expect _) fun _ => .bind ih.primary fun source => .bind (.expect _) fun _ => ?_
  exact .ite (.pure _) (.fail _)

theorem exportAs_succ : Repeats (Parser.exportAs (n + 1)) (Parser.exportAs (k + 1)) := by
  rw [Parser.exportAs, Parser.exportAs]
  refine .bind (.expect _) fun _ => .bind ih.assignment fun value => .bind (.expect _) fun token => .ite ?_ ?_
  · split
    · exact .pure _
    · exact .fail _
  · exact .bind .identifier fun name => .bind (.expect _) fun _ => .pure _

theorem branch_succ : Repeats (Parser.branch (n + 1)) (Parser.branch (k + 1)) := by
  rw [Parser.branch, Parser.branch]
  refine .bind (.expect _) fun _ => .bind (ih.chain .logical) fun condition => .bind ih.statement fun yes => ?_
  refine .bind .peekKind fun kind => .ite (.bind .discard fun _ => ?_) (.pure _)
  exact .bind ih.statement fun no => .pure _

theorem block_succ : Repeats (Parser.block (n + 1)) (Parser.block (k + 1)) := by
  rw [Parser.block, Parser.block]
  exact .bind (.expect _) fun _ => ih.blockRest

theorem blockRest_succ : Repeats (Parser.blockRest (n + 1)) (Parser.blockRest (k + 1)) := by
  rw [Parser.blockRest, Parser.blockRest]
  refine .bind .peekKind fun kind => ?_
  split
  · exact .bind .discard fun _ => .pure _
  · exact .fail _
  · exact .bind ih.declaration fun first => .bind ih.blockRest fun others => .pure _

theorem synchronize_succ : Repeats (Parser.synchronize (n + 1)) (Parser.synchronize (k + 1)) := by
  rw [Parser.synchronize, Parser.synchronize]
  refine .bind .take fun token => ?_
  split
  · exact .pure _
  · exact .pure _
  · exact .pure _
  · exact ih.synchronize

end Statements

theorem succ {n k : Nat} (ih : RulesRepeat n k) : RulesRepeat (n + 1) (k + 1) where
  declaration := ih.declaration_succ
  variableDeclaration := ih.variableDeclaration_succ
  statement := ih.statement_succ
  function := ih.function_succ
  giveBack := ih.giveBack_succ
  importFrom := ih.importFrom_succ
  exportAs := ih.exportAs_succ
  branch := ih.branch_succ
  block := ih.block_succ
  blockRest := ih.blockRest_succ
  assignment := ih.assignment_succ
  chain := ih.chain_succ
  chainRest := ih.chainRest_succ
  operand := ih.operand_succ
  unary := ih.unary_succ
  accessRest := ih.accessRest_succ
  elements := ih.elements_succ
  primary := ih.primary_succ
  properties := ih.properties_succ
  parameterNames := ih.parameterNames_succ
  synchronize := ih.synchronize_succ

end RulesRepeat

theorem rulesRepeat {n k : Nat} (more : n ≤ k) : RulesRepeat n k := by
  induction n generalizing k with
  | zero => exact .zero k
  | succ n ih =>
    obtain ⟨k, rfl⟩ := Nat.exists_eq_add_one_of_ne_zero (Nat.ne_of_gt (Nat.lt_of_lt_of_le n.succ_pos more))
    exact (ih (Nat.le_of_succ_le_succ more)).succ

theorem nextStatement_endsAlike {p q : Parser} (matching : p.Matches q) (enough : 16 * p.left + 15 ≤ p.steps) :
    EndsAlike (nextStatement p) (nextStatement q) := by
  have looked := Repeats.peekKind matching
  rcases peekKind_cases p with ⟨token, line, r, peeked, -, after⟩ | ⟨failure, r, peeked, -⟩
  · have peeked' : ∃ s, peekKind q = .ok token.kind s ∧ r.Matches s := by
      rw [peeked] at looked
      generalize peekKind q = result at looked
      cases looked with
      | ok matching => exact ⟨_, rfl, matching⟩
    obtain ⟨s, peeked', matching⟩ := peeked'
    rw [nextStatement_eq peeked, nextStatement_eq peeked']
    split
    · exact .ok matching
    · have left := after.left
      have steps := after.steps
      have declared := (rulesRepeat matching.steps).declaration matching
      have read := (rulesSpend r.steps).declaration (p := r) (by omega)
      rw [Spends] at read
      generalize declaration r.steps r = result, declaration s.steps s = result' at declared read
      cases declared with
      | ok matching => exact .ok matching
      | @error e r s matching =>
        have passed := (rulesRepeat matching.steps).synchronize matching
        dsimp only
        generalize synchronize r.steps r = result, synchronize s.steps s = result' at passed
        cases passed with
        | ok matching => exact .error matching
        | error matching => exact .error matching
        | starved => exact .starved
      | starved =>
        cases read with
        | error known => exact absurd rfl known
  · have failed {p r : Parser} (peeked : peekKind p = .error (.unreadable failure) r) :
        nextStatement p = .error (.unreadable failure) r := by
      simp only [nextStatement, bind, EStateM.bind, peeked]
    rw [failed peeked]
    rw [peeked] at looked
    generalize ran : peekKind q = result at looked
    cases looked with
    | error matching =>
      rw [failed ran]
      exact .error matching

theorem collect_of_matches {fuel fuel' : Nat} {p q : Parser} (matching : p.Matches q)
    (enough : 16 * p.left + 15 ≤ p.steps) (calls : p.left < fuel) (more : fuel ≤ fuel') (stmts : List Stmt)
    (errors : List ParseError) : collect fuel stmts errors p = collect fuel' stmts errors q := by
  induction fuel generalizing fuel' p q stmts errors with
  | zero => omega
  | succ fuel ih =>
    obtain ⟨fuel', rfl⟩ := Nat.exists_eq_add_one_of_ne_zero (Nat.ne_of_gt (Nat.lt_of_lt_of_le fuel.succ_pos more))
    have ended := nextStatement_endsAlike matching enough
    have advances := nextStatement_advances enough
    rw [collect, collect]
    generalize nextStatement p = result, nextStatement q = result' at ended advances
    cases advances with
    | atEnd =>
      cases ended
      rfl
    | read after =>
      have := after.left
      have := after.steps
      cases ended with
      | ok matching => exact ih matching (by omega) (by omega) (by omega) _ _
    | malformed after =>
      have := after.left
      have := after.steps
      cases ended with
      | error matching => exact ih matching (by omega) (by omega) (by omega) _ _
    | unreadable =>
      cases ended
      rfl

end Parser

namespace Program

open TokenSource (SameAnswers)

theorem ofLexer_of_fewer {l l' : Lexer} (same : SameAnswers l l') (fewer : l.scans.length ≤ l'.scans.length) :
    ofLexer l = ofLexer l' := by
  have left : (Parser.ofLexer l).left = l.scans.length := rfl
  have steps : (Parser.ofLexer l).steps = 16 * (l.scans.length + 3) := rfl
  have steps' : (Parser.ofLexer l').steps = 16 * (l'.scans.length + 3) := rfl
  have answers := (l.sameAnswers_ofLexer.symm.trans same).trans l'.sameAnswers_ofLexer
  have matching : (Parser.ofLexer l).Matches (Parser.ofLexer l') := ⟨rfl, answers, rfl, by omega⟩
  exact Parser.collect_of_matches matching (by omega) (by omega) matching.steps [] []

theorem ofLexer_of_sameAnswers {l l' : Lexer} (same : SameAnswers l l') : ofLexer l = ofLexer l' := by
  rcases Nat.le_total l.scans.length l'.scans.length with fewer | fewer
  · exact ofLexer_of_fewer same fewer
  · exact (ofLexer_of_fewer same.symm fewer).symm

end Program

/-- How the bytes arrive cannot be told. Whatever the size of the buffer and of the reads, and however often they are
interrupted, the lexer gives the same tokens, is on the same line after each of them, and leads to the same tree or to
the same errors as on the bytes in one piece. -/
theorem Lexer.answers_of_brings {capacity : Nat} (positive : 0 < capacity) {deliveries : List Delivery}
    {bytes : List UInt8} (brings : Delivery.Brings deliveries bytes) :
    ∃ lexer, withCapacity? capacity deliveries = some lexer ∧ TokenSource.SameAnswers lexer (ofBytes bytes) ∧
      Program.ofLexer lexer = Program.ofLexer (ofBytes bytes) := by
  have awaits : (Lexer.mk deliveries capacity [] 1 positive).Awaits bytes := ⟨bytes, rfl, brings⟩
  have same := sameAnswers_of_awaits awaits (awaits_ofBytes bytes) rfl
  exact ⟨_, dif_pos positive, same, Program.ofLexer_of_sameAnswers same⟩

def scatteredReads : List Delivery :=
  [.interrupted, .data [0x3D], .interrupted, .data [0x3D, 0x31], .data [0x2E, 0x35, 0x0A, 0x22, 0xC3], .data [0xA9, 0x22],
    .interrupted, .data []]

theorem Lexer.answers_of_scatteredReads :
    ∃ lexer, withCapacity? 1 scatteredReads = some lexer ∧
      TokenSource.SameAnswers lexer (ofBytes [0x3D, 0x3D, 0x31, 0x2E, 0x35, 0x0A, 0x22, 0xC3, 0xA9, 0x22]) ∧
      Program.ofLexer lexer = Program.ofLexer (ofBytes [0x3D, 0x3D, 0x31, 0x2E, 0x35, 0x0A, 0x22, 0xC3, 0xA9, 0x22]) := by
  refine answers_of_brings Nat.one_pos ?_
  exact .interrupted (.data nofun (.interrupted (.data nofun (.data nofun (.data nofun (.interrupted
    (.data (fun _ => rfl) .nil)))))))

end HookScript
