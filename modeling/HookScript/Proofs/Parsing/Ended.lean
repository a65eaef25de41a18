import HookScript.Proofs.Parsing.Calls

/-!
Whole files end. Every call takes at least one token of the text until none is left, so there are no more calls than
tokens, and the lines of the complaints go up with the text.
-/

namespace HookScript

def Scan.isReal (scan : Scan) : Bool :=
  match scan.result with
  | .ok token => token.kind ≠ .endOfFile
  | .error _ => false

namespace Parser

/-- What the call answers that comes after so many others. -/
def answer (p : Parser) (calls : Nat) : Except ParseError (Option Stmt) :=
  match nextStatement (p.afterCalls calls) with
  | .ok stmt _ => .ok stmt
  | .error e _ => .error e

def answers (p : Parser) (calls : Nat) : List (Except ParseError (Option Stmt)) := (List.range calls).map p.answer

def statements (p : Parser) (calls : Nat) : List Stmt :=
  (p.answers calls).filterMap fun
    | .ok stmt => stmt
    | .error _ => none

def complaints (p : Parser) (calls : Nat) : List ParseError :=
  (p.answers calls).filterMap fun
    | .ok _ => none
    | .error e => some e

/-- What has been found in a whole file: a program, if there is nothing to complain about. -/
def outcome (stmts : List Stmt) (errors : List ParseError) : Except (List ParseError) Program :=
  if errors.isEmpty then .ok stmts else .error errors

def real (p : Parser) : Nat := p.ahead.pending.countP Scan.isReal

structure Ready (p : Parser) : Prop where
  within : ∃ names, p.In (.top names)
  enough : 16 * p.left + 15 ≤ p.steps
  found : ∀ scan ∈ p.ahead.pending, ∃ token, scan.result = .ok token
  ordered : p.lines.Pairwise (· ≤ ·)

def Consumes (p q : Parser) : Prop :=
  ∃ (t : Token × Nat) (later : List Scan), t.1.kind ≠ .endOfFile ∧ p.Took (.ofToken t :: later) q

inductive Settled (p : Parser) : EStateM.Result ParseError Parser (Option Stmt) → Prop
  | atEnd {q t} (held : q.ahead.held = some t) (ending : t.1.kind = .endOfFile) : Settled p (.ok none q)
  | read {stmt q} (consumes : p.Consumes q) (ready : q.Ready) : Settled p (.ok (some stmt) q)
  | malformed {line error q} (consumes : p.Consumes q) (ready : q.Ready) (among : line ∈ p.lines)
    (before : ∀ later ∈ q.lines, line ≤ later) : Settled p (.error (.malformed line error) q)

theorem Took.found {p q : Parser} {taken : List Scan} (took : p.Took taken q)
    (before : ∀ scan ∈ p.ahead.pending, ∃ token, scan.result = .ok token) :
    (∀ scan ∈ taken, ∃ token, scan.result = .ok token) ∧ ∀ scan ∈ q.ahead.pending, ∃ token, scan.result = .ok token :=
  took.all (fun _ spent => ⟨_, spent⟩) before

theorem nextStatement_settled {p : Parser} (ready : p.Ready) : Settled p (nextStatement p) := by
  obtain ⟨⟨names, within⟩, enough, found, ordered⟩ := ready
  have called := nextStatement_called within (by omega)
  have advances := nextStatement_advances enough
  generalize nextStatement p = result at called advances
  have readyAfter {q : Parser} {taken : List Scan} {declared : List String} (took : p.Took taken q) (after : p.After 1 q)
      (within : q.In ((Context.top names).declareAll declared)) : q.Ready := by
    have := after.left
    have := after.steps
    refine ⟨⟨_, within.congr (Context.names_declareAll_top _ _)⟩, by omega, (took.found found).2, ?_⟩
    exact ordered.sublist took.lines.sublist
  cases called with
  | atEnd _ held ending => exact .atEnd held ending
  | @read stmt q placed took real stated within =>
    cases advances with
    | read after =>
      obtain ⟨t, rest, same, -⟩ := stated.written.head
      obtain ⟨u, later, rfl, -, -⟩ := List.map_eq_cons_iff.mp same
      exact .read ⟨u, later.map .ofToken, real u List.mem_cons_self, took⟩ (readyAfter took after within)
  | @unread failure line q took =>
    obtain ⟨token, found⟩ := (took.found found).1 _ List.mem_cons_self
    cases found
  | @givenUp e r q t taken passed declared took later first real cause within' =>
    have both := took.trans later
    cases advances with
    | @malformed line error q after =>
      obtain ⟨rest, same⟩ := List.head?_eq_some_iff.mp first
      have reached : line = r.ahead.source.line := by
        have synced : r.Synced := took.synced within.synced
        rw [← synced.line_eq]
        exact cause
      refine .malformed ⟨t, rest, real, same ▸ both⟩ (readyAfter both after within') ?_ ?_
      · rw [reached]
        exact took.lines.subset List.mem_cons_self
      · intro other among
        have sorted := ordered.sublist took.lines.sublist
        rcases List.mem_cons.mp (later.lines.subset among) with rfl | further
        · exact Nat.le_of_eq reached
        · rw [reached]
          exact (List.pairwise_cons.mp sorted).1 other further
    | unreadable =>
      obtain ⟨line, among⟩ := cause
      obtain ⟨token, found⟩ := (both.found found).1 _ among
      cases found

theorem Consumes.lines {p q : Parser} (consumes : p.Consumes q) : q.lines <:+ p.lines := by
  obtain ⟨t, later, -, took⟩ := consumes
  exact took.lines

theorem Consumes.real_lt {p q : Parser} (consumes : p.Consumes q) : q.real < p.real := by
  obtain ⟨t, later, real, took⟩ := consumes
  obtain ⟨spent, ends, same⟩ := took.pending
  have none : spent.countP Scan.isReal = 0 := by
    rw [List.countP_eq_zero]
    intro scan among
    have ended : scan.result = .ok (.ofKind .endOfFile) := ends scan among
    simp [Scan.isReal, ended, Token.ofKind]
  have one : (Scan.ofToken t).isReal = true := by simpa [Scan.isReal, Scan.ofToken] using real
  have counts := congrArg (List.countP Scan.isReal) same
  rw [List.countP_append, List.cons_append, List.countP_cons_of_pos one, List.countP_append, none] at counts
  unfold Parser.real
  omega

theorem afterCalls_succ (p : Parser) (calls : Nat) : p.afterCalls (calls + 1) = (p.afterCalls 1).afterCalls calls := by
  induction calls with
  | zero => rfl
  | succ calls ih => rw [afterCalls, ih, ← afterCalls]

theorem answer_succ (p : Parser) (calls : Nat) : p.answer (calls + 1) = (p.afterCalls 1).answer calls := by
  rw [answer, afterCalls_succ, answer]

theorem answers_succ (p : Parser) (calls : Nat) :
    p.answers (calls + 1) = p.answer 0 :: (p.afterCalls 1).answers calls := by
  rw [answers, List.range_succ_eq_map, List.map_cons, List.map_map, answers]
  exact congrArg _ (List.map_congr_left fun i _ => p.answer_succ i)

theorem answer_of_ok {p q : Parser} {stmt : Option Stmt} (ran : nextStatement p = .ok stmt q) :
    p.answer 0 = .ok stmt ∧ p.afterCalls 1 = q := by
  simp only [answer, afterCalls, ran, and_self]

theorem answer_of_error {p q : Parser} {e : ParseError} (ran : nextStatement p = .error e q) :
    p.answer 0 = .error e ∧ p.afterCalls 1 = q := by
  simp only [answer, afterCalls, ran, and_self]

theorem answer_of_held {p : Parser} {t : Token × Nat} (held : p.ahead.held = some t) (ending : t.1.kind = .endOfFile)
    (calls : Nat) : p.answer calls = .ok none := by
  have peeked : peekKind p = .ok t.1.kind p := by
    obtain ⟨⟨source, front⟩, scopes, steps⟩ := p
    cases held
    rfl
  have ran : nextStatement p = .ok none p := by rw [nextStatement_eq peeked, if_pos ending]
  induction calls with
  | zero => exact (answer_of_ok ran).1
  | succ calls ih => rw [answer_succ, (answer_of_ok ran).2, ih]

structure ReadIn (p : Parser) (calls : Nat) : Prop where
  ended {i : Nat} (late : calls ≤ i) : p.answer i = .ok none
  before {i : Nat} (early : i < calls) :
    (∃ stmt, p.answer i = .ok (some stmt)) ∨ ∃ line error, p.answer i = .error (.malformed line error)
  consumes {i : Nat} (early : i < calls) : (p.afterCalls i).Consumes (p.afterCalls (i + 1))

theorem ReadIn.succ {p : Parser} {calls : Nat}
    (first : (∃ stmt, p.answer 0 = .ok (some stmt)) ∨ ∃ line error, p.answer 0 = .error (.malformed line error))
    (consumes : p.Consumes (p.afterCalls 1)) (rest : (p.afterCalls 1).ReadIn calls) : p.ReadIn (calls + 1) where
  ended {i} late := by
    cases i with
    | zero => omega
    | succ i =>
      rw [answer_succ]
      exact rest.ended (Nat.le_of_succ_le_succ late)
  before {i} early := by
    cases i with
    | zero => exact first
    | succ i =>
      rw [answer_succ]
      exact rest.before (Nat.lt_of_succ_lt_succ early)
  consumes {i} early := by
    cases i with
    | zero => exact consumes
    | succ i =>
      rw [afterCalls_succ, afterCalls_succ p (i + 1)]
      exact rest.consumes (Nat.lt_of_succ_lt_succ early)

theorem collect_readIn {fuel : Nat} (stmts : List Stmt) (errors : List ParseError) {p : Parser} (ready : p.Ready)
    (enough : p.real < fuel) : ∃ calls ≤ p.real, p.ReadIn calls ∧ collect fuel stmts errors p =
      outcome (stmts.reverse ++ p.statements calls) (errors.reverse ++ p.complaints calls) := by
  induction fuel generalizing stmts errors p with
  | zero => omega
  | succ fuel ih =>
    have settled := nextStatement_settled ready
    rw [collect]
    generalize ran : nextStatement p = result at settled
    cases settled with
    | @atEnd q t held ending =>
      obtain ⟨first, next⟩ := answer_of_ok ran
      refine ⟨0, Nat.zero_le _, ⟨fun {i} _ => ?_, fun early => absurd early (Nat.not_lt_zero _),
        fun early => absurd early (Nat.not_lt_zero _)⟩, by simp [statements, complaints, answers, outcome]⟩
      cases i with
      | zero => exact first
      | succ i => rw [answer_succ, next, answer_of_held held ending]
    | @read stmt q consumes ready =>
      obtain ⟨first, next⟩ := answer_of_ok ran
      have fewer := consumes.real_lt
      obtain ⟨calls, within, readIn, same⟩ := ih (stmt :: stmts) errors ready (by omega)
      refine ⟨calls + 1, by omega, .succ (.inl ⟨stmt, first⟩) (next ▸ consumes) (next ▸ readIn), ?_⟩
      dsimp only
      rw [same, statements, complaints, statements, complaints, answers_succ, next, first]
      simp
    | @malformed line error q consumes ready =>
      obtain ⟨first, next⟩ := answer_of_error ran
      have fewer := consumes.real_lt
      obtain ⟨calls, within, readIn, same⟩ := ih stmts (.malformed line error :: errors) ready (by omega)
      refine ⟨calls + 1, by omega, .succ (.inr ⟨line, error, first⟩) (next ▸ consumes) (next ▸ readIn), ?_⟩
      dsimp only
      rw [same, statements, complaints, statements, complaints, answers_succ, next, first]
      simp

theorem lines_of_complaints {p : Parser} (ready : p.Ready) {calls : Nat}
    (before : ∀ i < calls, p.answer i ≠ .ok none) :
    ((p.complaints calls).filterMap (·.line?)).Pairwise (· ≤ ·) ∧
      ∀ line ∈ (p.complaints calls).filterMap (·.line?), line ∈ p.lines := by
  induction calls generalizing p with
  | zero => exact ⟨.nil, nofun⟩
  | succ calls ih =>
    have settled := nextStatement_settled ready
    rw [complaints, answers_succ]
    have later : ∀ i < calls, (p.afterCalls 1).answer i ≠ .ok none := fun i within => by
      rw [← answer_succ]
      exact before (i + 1) (Nat.succ_lt_succ within)
    generalize ran : nextStatement p = result at settled
    cases settled with
    | atEnd => exact absurd (answer_of_ok ran).1 (before 0 (Nat.zero_lt_succ _))
    | read consumes ready =>
      obtain ⟨first, rfl⟩ := answer_of_ok ran
      obtain ⟨sorted, among⟩ := ih ready later
      rw [first]
      exact ⟨sorted, fun line reported => consumes.lines.subset (among line reported)⟩
    | @malformed line error q consumes ready here below =>
      obtain ⟨first, rfl⟩ := answer_of_error ran
      obtain ⟨sorted, among⟩ := ih ready later
      rw [first]
      refine ⟨List.pairwise_cons.mpr ⟨fun other reported => below other (among other reported), sorted⟩, ?_⟩
      intro other reported
      rcases List.mem_cons.mp reported with rfl | further
      · exact here
      · exact consumes.lines.subset (among other further)

/-- A rule comes to an end with sixteen steps for every token that is left and sixteen more. -/
def Finishes {α : Type} (rule : Nat → Parsing α) : Prop :=
  ∀ (n : Nat) (p q : Parser), 16 * p.left + 16 ≤ n → rule n p ≠ .error .outOfSteps q

structure RulesFinish : Prop where
  declaration : Finishes declaration
  statement : Finishes statement
  blockRest : Finishes blockRest
  assignment : Finishes assignment
  chain (tier : Tier) : Finishes (chain · tier)
  chainRest (tier : Tier) (left : Expr) : Finishes (chainRest · tier left)
  unary : Finishes unary
  accessRest (target : Expr) : Finishes (accessRest · target)
  elements {close : TokenKind} (real : close ≠ .endOfFile) : Finishes (elements · close)
  properties : Finishes properties
  parameterNames : Finishes parameterNames
  synchronize : Finishes synchronize

theorem finishes_of_spends {α : Type} {k : Nat} {rule : Nat → Parsing α}
    (spends : ∀ (n : Nat) (p : Parser), 16 * p.left + 16 ≤ n → Spends k p p (rule n)) : Finishes rule := by
  intro n p q enough starved
  have spent := spends n p enough
  rw [Spends, starved] at spent
  cases spent with
  | error known => exact known rfl

theorem rulesFinish : RulesFinish where
  declaration := finishes_of_spends fun n _ enough => (rulesSpend n).declaration (by omega)
  statement := finishes_of_spends fun n _ enough => (rulesSpend n).statement (by omega)
  blockRest := finishes_of_spends fun n _ enough => (rulesSpend n).blockRest enough
  assignment := finishes_of_spends fun n _ enough => (rulesSpend n).assignment (by omega)
  chain tier := finishes_of_spends fun n _ enough => (rulesSpend n).chain tier (by have := tier.rank_le; omega)
  chainRest tier left := finishes_of_spends fun n _ enough => (rulesSpend n).chainRest tier left (by omega)
  unary := finishes_of_spends fun n _ enough => (rulesSpend n).unary (by omega)
  accessRest target := finishes_of_spends fun n _ enough => (rulesSpend n).accessRest target (by omega)
  elements real := finishes_of_spends fun n _ enough => (rulesSpend n).elements _ real (by omega)
  properties := finishes_of_spends fun n _ enough => (rulesSpend n).properties (by omega)
  parameterNames := finishes_of_spends fun n _ enough => (rulesSpend n).parameterNames (by omega)
  synchronize := finishes_of_spends fun _ _ enough => synchronize_spends (by omega)

theorem ready_ofLexer {lexer : Lexer} (steady : Delivery.Steady lexer.deliveries) : (ofLexer lexer).Ready where
  within := ⟨[], in_ofLexer lexer⟩
  enough := by
    have left : (ofLexer lexer).left = lexer.scans.length := rfl
    have steps : (ofLexer lexer).steps = 16 * (lexer.scans.length + 3) := rfl
    omega
  found _ among := Lexer.found_of_scans steady among
  ordered := Lexer.pairwise_line_scans lexer

end Parser

/-- Where all of a text can be read, reading it as a file comes to an end. Every call takes a token of the text as long as
there is one, so there are at most as many calls as tokens, not counting the one that finds the end, and what is
reported is at most one complaint for each call. The lines of the complaints go up, and they are lines of the text. -/
theorem readIn_of_steady {lexer : Lexer} (steady : Delivery.Steady lexer.deliveries) (start : lexer.line = 1) :
    Parser.RulesFinish ∧ ∃ calls ≤ lexer.scans.countP Scan.isReal, (Parser.ofLexer lexer).ReadIn calls ∧
      Program.ofLexer lexer =
        Parser.outcome ((Parser.ofLexer lexer).statements calls) ((Parser.ofLexer lexer).complaints calls) ∧
      ((Parser.ofLexer lexer).complaints calls).length ≤ calls ∧
      (((Parser.ofLexer lexer).complaints calls).filterMap (·.line?)).Pairwise (· ≤ ·) ∧
      ∀ line ∈ ((Parser.ofLexer lexer).complaints calls).filterMap (·.line?), 1 ≤ line ∧ line ≤ 1 + lexer.newlines := by
  have ready := Parser.ready_ofLexer steady
  have few : (Parser.ofLexer lexer).real < (Parser.ofLexer lexer).steps := by
    have bound : (Parser.ofLexer lexer).real ≤ lexer.scans.length := List.countP_le_length
    have steps : (Parser.ofLexer lexer).steps = 16 * (lexer.scans.length + 3) := rfl
    omega
  obtain ⟨calls, within, readIn, same⟩ := Parser.collect_readIn [] [] ready few
  have going : ∀ i < calls, (Parser.ofLexer lexer).answer i ≠ .ok none := by
    intro i early
    rcases readIn.before early with ⟨stmt, answered⟩ | ⟨line, error, answered⟩
    · rw [answered]
      nofun
    · rw [answered]
      nofun
  obtain ⟨sorted, among⟩ := Parser.lines_of_complaints ready going
  refine ⟨Parser.rulesFinish, calls, within, readIn, same, ?_, sorted, fun line reported => ?_⟩
  · refine Nat.le_trans (List.length_filterMap_le _ _) ?_
    rw [Parser.answers, List.length_map, List.length_range]
  · rcases List.mem_cons.mp (among line reported) with rfl | later
    · change 1 ≤ lexer.line ∧ lexer.line ≤ 1 + lexer.newlines
      omega
    · obtain ⟨scan, found, rfl⟩ := List.mem_map.mp later
      have := Lexer.line_of_scans found
      omega

theorem readIn_of_interrupted_text :
    Delivery.Steady (Lexer.ofDeliveries [.data [0x2B, 0x3B, 0x0A], .interrupted, .data [0x7D]]).deliveries ∧
      (Lexer.ofDeliveries [.data [0x2B, 0x3B, 0x0A], .interrupted, .data [0x7D]]).line = 1 ∧
      Parser.RulesFinish ∧
      ∃ lexer, lexer = Lexer.ofDeliveries [.data [0x2B, 0x3B, 0x0A], .interrupted, .data [0x7D]] ∧
        ∃ calls ≤ lexer.scans.countP Scan.isReal, (Parser.ofLexer lexer).ReadIn calls ∧
          Program.ofLexer lexer =
            Parser.outcome ((Parser.ofLexer lexer).statements calls) ((Parser.ofLexer lexer).complaints calls) ∧
          ((Parser.ofLexer lexer).complaints calls).length ≤ calls ∧
          (((Parser.ofLexer lexer).complaints calls).filterMap (·.line?)).Pairwise (· ≤ ·) ∧
          ∀ line ∈ ((Parser.ofLexer lexer).complaints calls).filterMap (·.line?),
            1 ≤ line ∧ line ≤ 1 + lexer.newlines := by
  have steady : Delivery.Steady [.data [0x2B, 0x3B, 0x0A], .interrupted, .data [0x7D]] := by
    intro failure
    simp
  have first : (Lexer.ofDeliveries [.data [0x2B, 0x3B, 0x0A], .interrupted, .data [0x7D]]).line = 1 := rfl
  obtain ⟨rules, file⟩ := readIn_of_steady steady first
  exact ⟨steady, rfl, rules, _, rfl, file⟩

end HookScript
