import HookScript.Proofs.Parsing.RulesSpend

/-!
Progress of the parser. Every statement that is read or given up uses up some of the text, so a file is read to its end
within the steps that the number of its tokens allows.
-/

namespace HookScript

namespace Parser

theorem synchronize_spends {n : Nat} {p : Parser} (enough : p.left + 1 ≤ n) : Spends 0 p p (synchronize n) := by
  induction n generalizing p with
  | zero => omega
  | succ n ih =>
    rw [synchronize]
    refine .take (.refl p) fun token q after _ => ?_
    split
    · exact .pure after (Nat.zero_le _)
    · exact .pure after (Nat.zero_le _)
    · exact .pure after (Nat.zero_le _)
    · next more _ _ =>
      rw [if_neg more] at after
      have := after.left
      exact .since after (ih (by omega)) (Nat.zero_le _)

theorem synchronize_of_holds {n : Nat} {p : Parser} (enough : p.left + 1 ≤ n) (at_hand : p.Holds) :
    Spends 1 p p (synchronize n) := by
  cases n with
  | zero => omega
  | succ n =>
    rw [synchronize]
    refine .take (.refl p) fun token q after real => ?_
    rw [if_neg (real at_hand)] at after
    split
    · exact .pure after (by omega)
    · exact .pure after (by omega)
    · exact .pure after (by omega)
    · have := after.left
      exact .since after (synchronize_spends (by omega)) (by omega)

theorem After.of_peeked {p q : Parser} {kind : TokenKind} (looked : peekKind p = .ok kind q) : p.After 0 q := by
  rcases peekKind_cases p with ⟨token, line, r, found, -, after⟩ | ⟨failure, r, failed, -⟩
  · rw [looked] at found
    cases found
    exact after
  · rw [looked] at failed
    cases failed

inductive Advances (p : Parser) : EStateM.Result ParseError Parser (Option Stmt) → Prop
  | atEnd {q} : Advances p (.ok none q)
  | read {stmt q} (after : p.After 1 q) : Advances p (.ok (some stmt) q)
  | malformed {line error q} (after : p.After 1 q) : Advances p (.error (.malformed line error) q)
  | unreadable {failure q} : Advances p (.error (.unreadable failure) q)

theorem nextStatement_eq {p q : Parser} {kind : TokenKind} (peeked : peekKind p = .ok kind q) : nextStatement p =
    if kind = .endOfFile then .ok none q
    else
      match declaration q.steps q with
      | .ok stmt r => .ok (some stmt) r
      | .error e r =>
        match synchronize r.steps r with
        | .ok () s => .error e s
        | .error failure s => .error failure s := by
  unfold nextStatement
  simp only [bind, EStateM.bind, peeked]
  by_cases ending : kind = .endOfFile
  · exact (congrFun (if_pos ending) q).trans (if_pos ending).symm
  · exact (congrFun (if_neg ending) q).trans (if_neg ending).symm

theorem synchronize_succ (n : Nat) (p : Parser) : synchronize (n + 1) p =
    match take p with
    | .ok token q => if token.kind ∈ [.endOfFile, .semicolon, .rightBrace] then .ok () q else synchronize n q
    | .error e q => .error e q := by
  simp only [synchronize, bind, EStateM.bind]
  cases take p with
  | ok token q =>
    obtain ⟨kind, lexeme⟩ := token
    cases kind <;> rfl
  | error e q => rfl

theorem synchronize_error {n : Nat} {p q : Parser} {e : ParseError} (ran : synchronize n p = .error e q) :
    e = .outOfSteps ∨ ∃ failure, e = .unreadable failure := by
  induction n generalizing p with
  | zero =>
    cases ran
    exact .inl rfl
  | succ n ih =>
    rw [synchronize_succ] at ran
    rcases take_cases p with ⟨token, r, taken, -, -⟩ | ⟨failure, r, taken, -⟩
    · simp only [taken] at ran
      split at ran
      · cases ran
      · exact ih ran
    · simp only [taken] at ran
      cases ran
      exact .inr ⟨failure, rfl⟩

theorem synchronize_after {p q : Parser} {n : Nat} (at_hand : p.Holds) (after : p.After 0 q)
    (enough : q.left + 1 ≤ n) : Spends 1 p q (synchronize n) := by
  by_cases none : q.left = p.left
  · exact .since after (synchronize_of_holds enough (after.holds none at_hand)) (by omega)
  · have := after.left
    have taken : p.After 1 q := ⟨by omega, after.steps, fun still => absurd still none⟩
    exact .since taken (synchronize_spends enough) (by omega)

theorem nextStatement_advances {p : Parser} (enough : 16 * p.left + 15 ≤ p.steps) :
    Advances p (nextStatement p) := by
  rcases peekKind_cases p with ⟨token, line, q, peeked, held, after⟩ | ⟨failure, q, peeked, -⟩
  · rw [nextStatement_eq peeked]
    split
    · exact .atEnd
    · next more =>
      have at_hand : q.Holds := ⟨token, line, held, more⟩
      have := after.left
      have steps := after.steps
      have read := (rulesSpend q.steps).declaration (p := q) (by omega)
      rw [Spends] at read
      generalize declaration q.steps q = result at read
      cases read with
      | ok inside => exact .read ((after.trans inside).mono (by omega))
      | @error e r known inside =>
        have := inside.left
        have := inside.steps
        have passed := synchronize_after at_hand inside (n := r.steps) (by omega)
        rw [Spends] at passed
        dsimp only
        cases ended : synchronize r.steps r with
        | ok u s =>
          rw [ended] at passed
          cases passed with
          | ok later =>
            have total := (after.trans later).mono (j := 1) (by omega)
            cases e with
            | malformed => exact .malformed total
            | unreadable => exact .unreadable
            | outOfSteps => exact absurd rfl known
        | error failure s =>
          rw [ended] at passed
          cases passed with
          | error known later =>
            rcases synchronize_error ended with rfl | ⟨failure, rfl⟩
            · exact absurd rfl known
            · exact .unreadable
  · have failed : nextStatement p = .error (.unreadable failure) q := by
      simp only [nextStatement, bind, EStateM.bind, peeked]
    rw [failed]
    exact .unreadable

theorem collect_steps {fuel : Nat} {stmts : List Stmt} {found errors : List ParseError} {p : Parser}
    (enough : 16 * p.left + 15 ≤ p.steps) (calls : p.left < fuel) (before : .outOfSteps ∉ found)
    (failed : collect fuel stmts found p = .error errors) : .outOfSteps ∉ errors := by
  induction fuel generalizing stmts found p with
  | zero => omega
  | succ fuel ih =>
    rw [collect] at failed
    have advances := nextStatement_advances enough
    generalize nextStatement p = result at advances failed
    cases advances with
    | atEnd =>
      dsimp only at failed
      split at failed
      · cases failed
      · cases failed
        simpa using before
    | read after =>
      have := after.left
      have := after.steps
      exact ih (by omega) (by omega) before failed
    | malformed after =>
      have := after.left
      have := after.steps
      exact ih (by omega) (by omega) (by simpa using before) failed
    | unreadable =>
      cases failed
      simpa using before

end Parser

/-- No text is too long for the parser: what it reports is always something in the text or about the reader. -/
theorem Program.outOfSteps_not_mem {lexer : Lexer} {errors : List ParseError}
    (failed : Program.ofLexer lexer = .error errors) : .outOfSteps ∉ errors := by
  have left : (Parser.ofLexer lexer).left = lexer.scans.length := rfl
  have steps : (Parser.ofLexer lexer).steps = 16 * (lexer.scans.length + 3) := rfl
  exact Parser.collect_steps (by omega) (by omega) List.not_mem_nil failed

end HookScript
