import HookScript.Proofs.Parsing.Progress
import HookScript.Proofs.Parsing.Spellable
import HookScript.Proofs.Parsing.TreesFound

/-!
Programs read back. Whatever tokens a program of the grammar is written with, the parser makes the same program of them,
with the levels that its scopes ask for.
-/

namespace HookScript

namespace Parser

theorem nextStatement_written {stmt : Stmt} {c : Context} {ts rest : List Token} {p : Parser} (written : stmt.Written ts)
    (shaped : stmt.Shaped) (lacks : c.Lacks stmt.declares) (ends : stmt.awaitsElse = true → nextKind rest ≠ .elseWord)
    (before : p.Before c (ts ++ rest)) (enough : 16 * p.left + 15 ≤ p.steps) :
    ∃ q, nextStatement p = .ok (some (stmt.levelled c)) q ∧ q.Before (c.after stmt) rest ∧ p.After 1 q := by
  obtain ⟨t, more, rfl, kind⟩ := written.head
  have real : nextKind (t :: more ++ rest) ≠ .endOfFile :=
    fun ending => Stmt.opening_ne (by decide) stmt (kind.symm.trans ending)
  rcases peekKind_before p before with ⟨q, starved⟩ | ⟨q, looked, before⟩
  · rcases peekKind_cases p with ⟨_, _, _, found, -, -⟩ | ⟨_, _, failed, -⟩
    · rw [starved] at found
      cases found
    · rw [starved] at failed
      cases failed
  · have after := After.of_peeked looked
    have fewer := after.left
    have steps := after.steps
    have spent := (rulesSpend q.steps).declaration (p := q) (by omega)
    rw [Spends] at spent
    rw [nextStatement_eq looked, if_neg real]
    rcases (stmtFound c written shaped lacks).declaration q.steps ends q before with ⟨r, starved⟩ | ⟨r, read, before⟩
    · rw [starved] at spent
      cases spent with
      | error known => exact absurd rfl known
    · rw [read] at spent ⊢
      cases spent with
      | ok taken => exact ⟨r, rfl, before, after.trans taken⟩

theorem collect_written {fuel : Nat} {stmts rest : List Stmt} {c : Context} {ts : List Token} {p : Parser}
    (written : StmtsWritten rest ts) (shaped : StmtsShaped rest) (lacks : c.Lacks (declaresAll rest))
    (before : p.Before c ts) (enough : 16 * p.left + 15 ≤ p.steps) (calls : p.left < fuel) :
    collect fuel stmts [] p = .ok (stmts.reverse ++ levelledStmts c rest) := by
  induction rest generalizing fuel stmts c ts p with
  | nil =>
    obtain ⟨fuel, rfl⟩ := Nat.exists_eq_add_one_of_ne_zero (Nat.ne_of_gt (Nat.zero_lt_of_lt calls))
    obtain ⟨⟨placed, same, faces⟩, -⟩ := before
    cases written
    cases List.map_eq_nil_iff.mp same
    obtain ⟨ahead, looked, -⟩ := faces.peek_nil
    rw [collect, nextStatement_eq looked, if_pos rfl]
    simp [levelledStmts]
  | cons first rest ih =>
    obtain ⟨fuel, rfl⟩ := Nat.exists_eq_add_one_of_ne_zero (Nat.ne_of_gt (Nat.zero_lt_of_lt calls))
    obtain ⟨a, b, written, written', rfl⟩ := written
    obtain ⟨shaped, shaped'⟩ := shaped
    obtain ⟨here, there⟩ := Context.Lacks.append_iff.mp lacks
    have ends : nextKind b ≠ .elseWord := by
      rw [← List.append_nil b]
      exact nextKind_ne_of_stmtsWritten written' (by decide)
    obtain ⟨q, read, before, after⟩ := nextStatement_written written shaped here (fun _ => ends) before enough
    have := after.left
    have := after.steps
    rw [collect, read]
    refine (ih written' shaped' (there.congr (Context.names_after c first).symm) before (by omega) (by omega)).trans ?_
    rw [List.reverse_cons, List.append_assoc]
    rfl

end Parser

theorem Program.ofLexer_written {program : Program} {lexer : Lexer} {placed : List (Token × Nat)}
    (written : program.Written (placed.map Prod.fst)) (shaped : program.Shaped) (found : Finds lexer.scans placed) :
    Program.ofLexer lexer = .ok program.levelled := by
  have left : (Parser.ofLexer lexer).left = lexer.scans.length := rfl
  have steps : (Parser.ofLexer lexer).steps = 16 * (lexer.scans.length + 3) := rfl
  have before : (Parser.ofLexer lexer).Before .start (placed.map Prod.fst) :=
    ⟨⟨placed, rfl, .of_free found rfl⟩, ScopeStack.shows_start⟩
  exact Parser.collect_written written shaped.2 ⟨shaped.1, fun _ _ => List.not_mem_nil⟩ before (by omega) (by omega)

/-- The text spells out tokens that the program is written with. -/
def Program.WrittenOut (program : Program) (text : String) : Prop :=
  ∃ tokens, program.Written tokens ∧ Laid tokens (Text.Utf8.encode text)

/-- A program of the grammar can be written out, and however it is written out, it is read back. -/
theorem read_back_of_shaped {program : Program} (shaped : program.Shaped) (spellable : program.Spellable) :
    (∃ text, program.WrittenOut text) ∧
      ∀ text, program.WrittenOut text → Program.ofText text = .ok program.levelled := by
  constructor
  · obtain ⟨tokens, written, all⟩ := exists_stmtsWritten program spellable
    obtain ⟨text, laid⟩ := exists_laid all
    exact ⟨text, tokens, written, laid⟩
  · rintro text ⟨tokens, written, laid⟩
    obtain ⟨placed, rfl, found⟩ := Lexer.finds_of_laid laid (Lexer.awaits_ofBytes _)
    exact Program.ofLexer_written written shaped found

def countingProgram : Program :=
  [.declare "n" (some (.binary (.literal (.integer 1)) .plus (.unary .negate (.group (.literal (.float 0.5)))))),
    .function "next" ["by"] [.expression (.assign "n" 0 (.binary (.lookup "n" 0) .plus (.lookup "by" 0)))],
    .branch (.group (.logical (.lookup "n" 0) .and (.literal (.boolean true))))
      (.block [.expression (.call (.property (.lookup "log" 0) "a b") [.literal (.string "x")])]) none,
    .exportAs "next" (.lookup "next" 0)]

theorem read_back_of_countingProgram : countingProgram.Shaped ∧ countingProgram.Spellable ∧
    ∃ text, countingProgram.WrittenOut text ∧ Program.ofText text = .ok
      [.declare "n" (some (.binary (.literal (.integer 1)) .plus (.unary .negate (.group (.literal (.float 0.5)))))),
        .function "next" ["by"] [.expression (.assign "n" 1 (.binary (.lookup "n" 1) .plus (.lookup "by" 0)))],
        .branch (.group (.logical (.lookup "n" 0) .and (.literal (.boolean true))))
          (.block [.expression (.call (.property (.lookup "log" 2) "a b") [.literal (.string "x")])]) none,
        .exportAs "next" (.lookup "next" 0)] := by
  have shaped : countingProgram.Shaped := by
    refine ⟨by decide, ?_⟩
    simp [countingProgram, StmtsShaped, Stmt.Shaped, Expr.Shaped, ElementsShaped, Expr.binding, Stmt.opening,
      Expr.opening, declaresAll, Stmt.declares, BinaryOp.tier, Parser.Tier.binding, accessBinding, prefixBinding,
      Parser.integerLimit, TokenKind.Ends, TokenKind.binding?]
  have spellable : countingProgram.Spellable := by
    have half : (Literal.float 0.5).Spellable := ⟨"0", "5", by decide, rfl, rfl, rfl⟩
    have name : ∀ text ∈ ["n", "next", "by", "log"], isName text := by
      simp only [isName]
      decide
    simp only [List.forall_mem_cons] at name
    obtain ⟨n, next, step, log, -⟩ := name
    have key : Quotable "a b" := by simp [Quotable]
    have text : Quotable "x" := by simp [Quotable]
    exact ⟨⟨n, trivial, half⟩, ⟨next, by simpa using step, ⟨n, n, step⟩, trivial⟩,
      ⟨⟨n, trivial⟩, ⟨⟨log, key⟩, text, trivial⟩, trivial⟩, ⟨next, next⟩, trivial⟩
  obtain ⟨⟨text, out⟩, again⟩ := read_back_of_shaped shaped spellable
  exact ⟨shaped, spellable, text, out, again text out⟩

end HookScript
