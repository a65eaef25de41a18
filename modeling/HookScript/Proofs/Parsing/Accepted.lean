import HookScript.Proofs.Parsing.Calls

/-!
Accepted texts. A text that the parser accepts consists of the tokens that its program is written with, no more and no
less, up to the first end of the file, and the program has the shape that the grammar asks for.
-/

namespace HookScript

namespace Parser

theorem collect_took {fuel : Nat} {stmts : List Stmt} {c : Context} {p : Parser} {program : Program} (within : p.In c)
    (steps : 0 < p.steps) (accepted : collect fuel stmts [] p = .ok program) :
    ∃ (rest : List Stmt) (placed : List (Token × Nat)) (q : Parser) (t : Token × Nat), program = stmts.reverse ++ rest ∧
      p.Took (placed.map .ofToken) q ∧ (∀ t ∈ placed, t.1.kind ≠ .endOfFile) ∧ q.Sees t ∧ t.1.kind = .endOfFile ∧
        StmtsWritten rest (placed.map Prod.fst) ∧ StmtsShaped rest ∧ c.Lacks (declaresAll rest) := by
  induction fuel generalizing stmts c p with
  | zero => cases accepted
  | succ fuel ih =>
    rw [collect] at accepted
    have called := nextStatement_called within steps
    generalize nextStatement p = result at called accepted
    cases called with
    | @atEnd q t took held ending within =>
      cases accepted
      exact ⟨[], [], q, t, (List.append_nil _).symm, took, List.forall_mem_nil _, sees_of_held held, ending, rfl, trivial,
        .nil, List.forall_mem_nil _⟩
    | @read stmt q placed took real stated within =>
      obtain ⟨rest, later, r, t, rfl, took', real', sees, ending, written, shaped, lacks⟩ :=
        ih within (took.steps ▸ steps) accepted
      refine ⟨stmt :: rest, placed ++ later, r, t, by simp, ?_, ?_, sees, ending, ?_, ⟨stated.shaped, shaped⟩,
        stated.lacks.append lacks⟩
      · rw [List.map_append]
        exact took.trans took'
      · intro t among
        exact (List.mem_append.mp among).elim (real t) (real' t)
      · rw [List.map_append]
        exact ⟨_, _, stated.written, written, rfl⟩
    | unread => cases accepted
    | @givenUp e =>
      cases e with
      | malformed => exact absurd accepted collect_ne_ok
      | unreadable | outOfSteps => cases accepted

theorem Took.upToEnd {p q : Parser} {placed : List (Token × Nat)} {t : Token × Nat} (took : p.Took (placed.map .ofToken) q)
    (real : ∀ t ∈ placed, t.1.kind ≠ .endOfFile) (sees : q.Sees t) (ending : t.1.kind = .endOfFile) :
    ∃ later, p.ahead.pending = placed.map .ofToken ++ later ∧ ∀ scan ∈ later.head?, scan.IsEnd := by
  obtain ⟨spent, ends, same⟩ := took.pending
  obtain ⟨others, pending⟩ := sees
  rw [pending] at same
  rcases List.append_eq_append_iff.mp same with ⟨more, all, none⟩ | ⟨more, all, none⟩
  · cases more with
    | nil =>
      rw [List.append_nil] at all
      exact ⟨[], by rw [all, List.append_nil], nofun⟩
    | cons scan more =>
      have past : scan.IsSpent := ends scan (none ▸ List.mem_cons_self)
      have among : scan ∈ placed.map .ofToken := all ▸ List.mem_append_right _ List.mem_cons_self
      obtain ⟨u, within, rfl⟩ := List.mem_map.mp among
      have atEnd : u.1 = .ofKind .endOfFile := Except.ok.inj past
      exact absurd (by rw [atEnd]; rfl) (real u within)
  · refine ⟨more, all, fun scan front => ?_⟩
    obtain ⟨rest, rfl⟩ := List.head?_eq_some_iff.mp front
    rw [← (List.cons.inj none).1]
    exact ⟨t.1, rfl, ending⟩

end Parser

/-- The program of an accepted text is written with the tokens of the text up to the first end of the file: none is
dropped, none is read twice, and none is made up. -/
theorem written_of_ofLexer {lexer : Lexer} {program : Program} (accepted : Program.ofLexer lexer = .ok program) :
    ∃ (tokens : List (Token × Nat)) (ending : List Scan), lexer.scans = tokens.map .ofToken ++ ending ∧
      (∀ scan ∈ ending.head?, scan.IsEnd) ∧ (∀ t ∈ tokens, t.1.kind ≠ .endOfFile) ∧
        program.Written (tokens.map Prod.fst) ∧ program.Shaped := by
  have steps : 0 < (Parser.ofLexer lexer).steps := by simp [Parser.ofLexer, Parser.stepsFor]
  obtain ⟨rest, placed, q, t, rfl, took, real, sees, ending, written, shaped, lacks⟩ :=
    Parser.collect_took (Parser.in_ofLexer lexer) steps accepted
  obtain ⟨later, found, atEnd⟩ := took.upToEnd real sees ending
  exact ⟨placed, later, found, atEnd, real, written, lacks.1, shaped⟩

theorem written_of_exporting_text :
    ∃ program : Program, program =
        [.declare "a" (some (.object [("x", .literal (.integer 1)), ("y", .unary .negate (.literal (.integer 2)))])),
          .branch (.group (.lookup "a" 0)) (.block []) (some (.expression (.setProperty (.lookup "a" 0) "x"
            (.call (.lookup "f" 1) [.literal (.integer 1), .literal (.integer 2)])))),
          .exportAs "a" (.lookup "a" 0)] ∧
      Program.ofText "var a = Object{x: 1, y: -02,}; if (a) {} else a.\"x\" = f(1, 2,); export a;" = .ok program ∧
      ∃ (tokens : List (Token × Nat)) (ending : List Scan),
        (Lexer.ofText "var a = Object{x: 1, y: -02,}; if (a) {} else a.\"x\" = f(1, 2,); export a;").scans =
          tokens.map .ofToken ++ ending ∧
        (∀ scan ∈ ending.head?, scan.IsEnd) ∧ (∀ t ∈ tokens, t.1.kind ≠ .endOfFile) ∧
          program.Written (tokens.map Prod.fst) ∧ program.Shaped := by
  refine ⟨_, rfl, ?accepted, written_of_ofLexer ?accepted⟩
  cbv

end HookScript
