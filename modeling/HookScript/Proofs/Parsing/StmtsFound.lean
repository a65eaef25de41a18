import HookScript.Proofs.Parsing.ExprsFound

/-!
How statements are found. The body of a block, a function or a method is found in a scope of its own, and what a
statement declares is in scope from there on.
-/

namespace HookScript

namespace Parser

variable {c : Context} {e condition : Expr} {stmt yes no : Stmt} {body : List Stmt} {name : String} {t : Token}
  {ts a b rest : List Token}

theorem settleAll_before {names : List String} (lacks : c.Lacks names) :
    Leads (Before · c ts) (declareAll names) () (Before · (c.settleAll names) ts) :=
  (declareAll_before lacks).mono (fun _ => id) fun _ before => before.congr (Context.names_settleAll c names).symm

/-- The rule of a block gives the statements after its opening brace, in a scope that lets them declare their names. -/
def BodyFound (c : Context) (body : List Stmt) (b : List Token) : Prop :=
  ∀ n rest, Leads (Before · c (b ++ .ofKind .rightBrace :: rest)) (blockRest n) (levelledStmts c body)
    (Before · (c.afterAll body) rest)

namespace BodyFound

theorem block_leads (found : BodyFound c body b) (n : Nat) :
    Leads (Before · c (.ofKind .leftBrace :: (b ++ .ofKind .rightBrace :: rest))) (block n) (levelledStmts c body)
      (Before · (c.afterAll body) rest) := by
  cases n with
  | zero => exact .outOfSteps
  | succ n =>
    rw [block]
    exact .bind (expect_before (by decide)) (found n rest)

theorem scoped_leads (found : BodyFound c.enter body b) (n : Nat) :
    Leads (Before · c (.ofKind .leftBrace :: (b ++ .ofKind .rightBrace :: rest))) (inScope (block n))
      (levelledStmts c.enter body) (Before · c rest) :=
  inScope_before (Context.outer_afterAll _ _) (found.block_leads n)

end BodyFound

theorem ExprFound.method {params : List String} {body : List Stmt} (found : BodyFound (c.methodBody params) body b)
    (distinct : params.Nodup) :
    ExprFound c (.method params body) (.ofKind .functionWord :: .ofKind .leftParen ::
      (parameterTokens params ++ .ofKind .leftBrace :: (b ++ [.ofKind .rightBrace]))) := by
  refine .of_primary rfl (by decide) fun n rest => ?_
  cases n with
  | zero => exact .outOfSteps
  | succ n =>
    rw [primary]
    simp only [List.cons_append, List.append_assoc, List.nil_append]
    refine .bind take_before (.bind (parameters_leads params n) (.bind ?_ (.pure fun _ => id)))
    have begun : Context.Lacks ⟨.empty, [.receiver, c.globals]⟩ params := .enter (c := ⟨.receiver, [c.globals]⟩) distinct
    refine inMethod_before (inScope_before (c := ⟨.receiver, [c.globals]⟩) ?_
      (.bind (settleAll_before begun) (found.block_leads n)))
    rw [Context.outer_afterAll, Context.methodBody, Context.outer_settleAll]
    rfl

structure StmtFound (c : Context) (stmt : Stmt) (ts : List Token) : Prop where
  declaration (n : Nat) {rest : List Token} (ends : stmt.awaitsElse = true → nextKind rest ≠ .elseWord) :
    Leads (Before · c (ts ++ rest)) (declaration n) (stmt.levelled c) (Before · (c.after stmt) rest)
  statement (plain : stmt.opening ≠ .varWord) (n : Nat) {rest : List Token}
    (ends : stmt.awaitsElse = true → nextKind rest ≠ .elseWord) :
    Leads (Before · c (ts ++ rest)) (statement n) (stmt.levelled c) (Before · (c.after stmt) rest)

namespace StmtFound

theorem of_statement (plain : t.kind ≠ .varWord)
    (leads : ∀ n rest, (stmt.awaitsElse = true → nextKind rest ≠ .elseWord) →
      Leads (Before · c (t :: ts ++ rest)) (Parser.statement n) (stmt.levelled c) (Before · (c.after stmt) rest)) :
    StmtFound c stmt (t :: ts) where
  statement _ n rest := leads n rest
  declaration n rest ends := by
    cases n with
    | zero => exact .outOfSteps
    | succ n =>
      rw [Parser.declaration]
      exact ifPeek_neg plain (leads n rest ends)

theorem expression (found : ExprFound c e (t :: a)) (starts : t.kind ∈ openings) (plain : t.kind ≠ .functionWord) :
    StmtFound c (.expression e) (t :: (a ++ [.ofKind .semicolon])) := by
  have other {kind : TokenKind} (known : t.kind = kind) (no : kind ∉ openings) : False := no (known ▸ starts)
  refine .of_statement (fun known => other known (by decide)) fun n rest _ => ?_
  cases n with
  | zero => exact .outOfSteps
  | succ n =>
    rw [Parser.statement, List.cons_append, List.append_assoc]
    refine .bind peekKind_before ?_
    split
    · next known => exact (other known (by decide)).elim
    · next known => exact (other known (by decide)).elim
    · next known => exact (other known (by decide)).elim
    · next known => exact (other known (by decide)).elim
    · next known => exact absurd known plain
    · next known => exact (other known (by decide)).elim
    · next known => exact (other known (by decide)).elim
    · next known => exact (other known (by decide)).elim
    · next known => exact (other known (by decide)).elim
    · next known => exact (other known (by decide)).elim
    · exact .bind (found.assignment_leads n (.of_binding?_eq_none rfl))
        (.bind (expect_before (by decide)) (.pure fun _ => id))

theorem block (found : BodyFound c.enter body b) :
    StmtFound c (.block body) (.ofKind .leftBrace :: (b ++ [.ofKind .rightBrace])) := by
  refine .of_statement (by decide) fun n rest _ => ?_
  cases n with
  | zero => exact .outOfSteps
  | succ n =>
    rw [Parser.statement, List.cons_append, List.append_assoc]
    exact .bind peekKind_before (.bind (found.scoped_leads n) (.pure fun _ => id))

theorem loop (found : ExprFound c condition a) (tight : 0 < condition.binding) (inside : BodyFound c.enter body b) :
    StmtFound c (.loop condition body)
      (.ofKind .whileWord :: (a ++ .ofKind .leftBrace :: (b ++ [.ofKind .rightBrace]))) := by
  refine .of_statement (by decide) fun n rest _ => ?_
  cases n with
  | zero => exact .outOfSteps
  | succ n =>
    rw [Parser.statement]
    simp only [List.cons_append, List.append_assoc, List.nil_append]
    refine .bind peekKind_before (.bind (expect_before (by decide)) ?_)
    refine .bind (found.chain_leads tight n (.of_binding?_eq_none rfl)) ?_
    exact .bind (inside.scoped_leads n) (.pure fun _ => id)

theorem empty : StmtFound c .empty [.ofKind .semicolon] := by
  refine .of_statement (by decide) fun n rest _ => ?_
  cases n with
  | zero => exact .outOfSteps
  | succ n =>
    rw [Parser.statement]
    exact .bind peekKind_atHand (.bind discard_before (.pure fun _ => id))

theorem leaveLoop : StmtFound c .leaveLoop [.ofKind .breakWord, .ofKind .semicolon] := by
  refine .of_statement (by decide) fun n rest _ => ?_
  cases n with
  | zero => exact .outOfSteps
  | succ n =>
    rw [Parser.statement]
    exact .bind peekKind_atHand (.bind discard_before (.bind (expect_before (by decide)) (.pure fun _ => id)))

theorem nextRound : StmtFound c .nextRound [.ofKind .continueWord, .ofKind .semicolon] := by
  refine .of_statement (by decide) fun n rest _ => ?_
  cases n with
  | zero => exact .outOfSteps
  | succ n =>
    rw [Parser.statement]
    exact .bind peekKind_atHand (.bind discard_before (.bind (expect_before (by decide)) (.pure fun _ => id)))

end StmtFound

theorem giveBack_none_leads (n : Nat) :
    Leads (Before · c (.ofKind .returnWord :: .ofKind .semicolon :: rest)) (giveBack n) (.giveBack none)
      (Before · c rest) := by
  cases n with
  | zero => exact .outOfSteps
  | succ n =>
    rw [giveBack]
    exact .bind (expect_before (by decide)) (ifPeek_pos rfl (.bind discard_before (.pure fun _ => id)))

theorem giveBack_some_leads (found : ExprFound c e (t :: a)) (starts : t.kind ≠ .semicolon)
    (tight : 0 < e.binding) (n : Nat) :
    Leads (Before · c (.ofKind .returnWord :: (t :: a ++ .ofKind .semicolon :: rest))) (giveBack n)
      (.giveBack (some (e.levelled c))) (Before · c rest) := by
  cases n with
  | zero => exact .outOfSteps
  | succ n =>
    rw [giveBack]
    refine .bind (expect_before (by decide)) (ifPeek_neg starts ?_)
    refine .bind (found.chain_leads tight n (.of_binding?_eq_none rfl)) ?_
    exact .bind (expect_before (by decide)) (.pure fun _ => id)

theorem importFrom_leads (source : Parser.isImportSource e = true) (written : e.Written ts) (n : Nat) :
    Leads (Before · c (.ofKind .importWord :: (ts ++ .ofKind .semicolon :: rest))) (importFrom n)
      (.importFrom (e.levelled c)) (Before · c rest) := by
  cases n with
  | zero => exact .outOfSteps
  | succ n =>
    rw [importFrom]
    refine .bind (expect_before (by decide)) ?_
    have ended {source : Expr} (known : isImportSource source = true) :
        Leads (Before · c (.ofKind .semicolon :: rest))
          (do
            let _ ← expect [.semicolon]
            if isImportSource source then return .importFrom source else fail (.importSource source))
          (Stmt.importFrom source) (Before · c rest) := by
      refine .bind (expect_before (by decide)) ?_
      rw [if_pos known]
      exact .pure fun _ => id
    unfold isImportSource at source
    split at source
    · cases written
      exact .bind (primary_lookup _ n) (ended rfl)
    · obtain ⟨t, spelled, rfl⟩ := written
      exact .bind (primary_literal spelled trivial n) (ended rfl)
    · cases source

theorem exportAs_named_leads (found : ExprFound c e a) (n : Nat) :
    Leads (Before · c (.ofKind .exportWord ::
        (a ++ .ofKind .asWord :: ⟨.identifier, name⟩ :: .ofKind .semicolon :: rest))) (exportAs n)
      (.exportAs name (e.levelled c)) (Before · c rest) := by
  cases n with
  | zero => exact .outOfSteps
  | succ n =>
    rw [exportAs]
    refine .bind (expect_before (by decide)) (.bind (found.assignment_leads n (.of_binding?_eq_none rfl)) ?_)
    refine .bind (expect_before (by decide)) ?_
    rw [if_neg (by decide)]
    exact .bind identifier_before (.bind (expect_before (by decide)) (.pure fun _ => id))

theorem exportAs_bare_leads {level : Nat} (found : ExprFound c (.lookup name level) a) (n : Nat) :
    Leads (Before · c (.ofKind .exportWord :: (a ++ .ofKind .semicolon :: rest))) (exportAs n)
      (.exportAs name (.lookup name (c.resolve name))) (Before · c rest) := by
  cases n with
  | zero => exact .outOfSteps
  | succ n =>
    rw [exportAs]
    refine .bind (expect_before (by decide)) (.bind (found.assignment_leads n (.of_binding?_eq_none rfl)) ?_)
    refine .bind (expect_before (by decide)) ?_
    rw [if_pos (by decide)]
    exact .pure fun _ => id

theorem function_leads {params : List String} (found : BodyFound (c.functionBody name params) body b)
    (distinct : params.Nodup) (new : c.Lacks [name]) (n : Nat) :
    Leads (Before · c (.ofKind .functionWord :: ⟨.identifier, name⟩ :: .ofKind .leftParen ::
        (parameterTokens params ++ .ofKind .leftBrace :: (b ++ .ofKind .rightBrace :: rest)))) (function n)
      (.function name params (levelledStmts (c.functionBody name params) body)) (Before · (c.settle name) rest) := by
  cases n with
  | zero => exact .outOfSteps
  | succ n =>
    rw [function]
    refine .bind (expect_before (by decide)) (.bind identifier_before ?_)
    have declared : Leads (Before · c (.ofKind .leftParen ::
        (parameterTokens params ++ .ofKind .leftBrace :: (b ++ .ofKind .rightBrace :: rest)))) (declare name) ()
        (Before · (c.settle name) _) :=
      (declare_before (new.2 name List.mem_cons_self)).mono (fun _ => id) fun _ before => before.congr rfl
    refine .bind declared (inScope_before (d := (c.functionBody name params).afterAll body) ?_ ?_)
    · rw [Context.outer_afterAll, Context.functionBody, Context.outer_settleAll]
      rfl
    · refine .bind (parameters_leads params n) (.bind (settleAll_before (.enter distinct)) ?_)
      exact .bind (found.block_leads n) (.pure fun _ => id)

theorem branch_none_leads (found : ExprFound c condition a) (tight : 0 < condition.binding)
    (starts : t.kind.Ends 1) (first : StmtFound c yes (t :: b)) (plain : yes.opening ≠ .varWord)
    (ends : nextKind rest ≠ .elseWord) (n : Nat) :
    Leads (Before · c (.ofKind .ifWord :: (a ++ (t :: b ++ rest)))) (branch n)
      (.branch (condition.levelled c) (yes.levelled c) none) (Before · (c.after yes) rest) := by
  cases n with
  | zero => exact .outOfSteps
  | succ n =>
    rw [branch]
    refine .bind (expect_before (by decide)) (.bind (found.chain_leads tight n starts) ?_)
    exact .bind (first.statement plain n fun _ => ends) (ifPeek_neg ends (.pure fun _ => id))

theorem branch_some_leads {rest d : List Token} (found : ExprFound c condition a) (tight : 0 < condition.binding)
    (starts : t.kind.Ends 1) (first : StmtFound c yes (t :: b)) (plain : yes.opening ≠ .varWord)
    (closed : yes.awaitsElse = false) (second : StmtFound (c.declareAll yes.declares) no d)
    (plain' : no.opening ≠ .varWord) (ends : no.awaitsElse = true → nextKind rest ≠ .elseWord) (n : Nat) :
    Leads (Before · c (.ofKind .ifWord :: (a ++ (t :: b ++ .ofKind .elseWord :: (d ++ rest))))) (branch n)
      (.branch (condition.levelled c) (yes.levelled c) (some (no.levelled (c.declareAll yes.declares))))
      (Before · (c.declareAll (yes.declares ++ no.declares)) rest) := by
  cases n with
  | zero => exact .outOfSteps
  | succ n =>
    rw [branch]
    refine .bind (expect_before (by decide)) (.bind (found.chain_leads tight n starts) ?_)
    refine .bind (first.statement plain n fun awaits => ?_) (ifPeek_pos rfl (.bind discard_before ?_))
    · rw [closed] at awaits
      cases awaits
    · refine .bind ((second.statement plain' n ends).mono (fun _ before => ?_) fun _ before => ?_) (.pure fun _ => id)
      · exact before.congr (Context.names_after c yes)
      · rw [Context.declareAll_append]
        exact before.congr (Context.names_after _ no)

theorem variableDeclaration_none_leads (new : c.Lacks [name]) (n : Nat) :
    Leads (Before · c (.ofKind .varWord :: ⟨.identifier, name⟩ :: .ofKind .semicolon :: rest)) (variableDeclaration n)
      (.declare name none) (Before · (c.settle name) rest) := by
  cases n with
  | zero => exact .outOfSteps
  | succ n =>
    rw [variableDeclaration]
    refine .bind (expect_before (by decide)) (.bind identifier_before ?_)
    refine .bind (declare_before (new.2 name List.mem_cons_self)) (ifPeek_pos rfl (.bind discard_before ?_))
    exact .pure fun _ before => before.congr rfl

theorem variableDeclaration_some_leads (new : c.Lacks [name]) (found : ExprFound (c.declare name) e a)
    (tight : 0 < e.binding) (n : Nat) :
    Leads (Before · c (.ofKind .varWord :: ⟨.identifier, name⟩ :: .ofKind .equal :: (a ++ .ofKind .semicolon :: rest)))
      (variableDeclaration n) (.declare name (some (e.levelled (c.declare name)))) (Before · (c.settle name) rest) := by
  cases n with
  | zero => exact .outOfSteps
  | succ n =>
    rw [variableDeclaration]
    refine .bind (expect_before (by decide)) (.bind identifier_before ?_)
    refine .bind (declare_before (new.2 name List.mem_cons_self)) (ifPeek_neg (by simp [nextKind, Token.ofKind]) ?_)
    refine .bind (expect_before (by decide)) (.bind (found.chain_leads tight n (.of_binding?_eq_none rfl)) ?_)
    exact .bind (expect_before (by decide)) (.pure fun _ before => before.congr rfl)

namespace StmtFound

theorem of_variableDeclaration {initial : Option Expr}
    (leads : ∀ n rest, Leads (Before · c (.ofKind .varWord :: ts ++ rest)) (variableDeclaration n)
      ((Stmt.declare name initial).levelled c) (Before · (c.settle name) rest)) :
    StmtFound c (.declare name initial) (.ofKind .varWord :: ts) where
  statement plain := absurd rfl plain
  declaration n rest _ := by
    cases n with
    | zero => exact .outOfSteps
    | succ n =>
      rw [Parser.declaration]
      exact ifPeek_pos rfl ((leads n rest).mono (fun _ hand => hand.before) fun _ => id)

theorem declare_none (new : c.Lacks [name]) :
    StmtFound c (.declare name none) [.ofKind .varWord, ⟨.identifier, name⟩, .ofKind .semicolon] :=
  .of_variableDeclaration fun n _ => variableDeclaration_none_leads new n

theorem declare_some (new : c.Lacks [name]) (found : ExprFound (c.declare name) e a) (tight : 0 < e.binding) :
    StmtFound c (.declare name (some e))
      (.ofKind .varWord :: ⟨.identifier, name⟩ :: .ofKind .equal :: (a ++ [.ofKind .semicolon])) := by
  refine .of_variableDeclaration fun n rest => ?_
  simp only [List.cons_append, List.append_assoc, List.nil_append]
  exact variableDeclaration_some_leads new found tight n

theorem of_rule {rule : Nat → Parsing Stmt} (plain : t.kind ≠ .varWord)
    (chosen : ∀ n, ∃ choose : TokenKind → Parsing Stmt,
      Parser.statement (n + 1) = peekKind >>= choose ∧ choose t.kind = rule n)
    (leads : ∀ n rest, (stmt.awaitsElse = true → nextKind rest ≠ .elseWord) →
      Leads (Before · c (t :: ts ++ rest)) (rule n) (stmt.levelled c) (Before · (c.after stmt) rest)) :
    StmtFound c stmt (t :: ts) := by
  refine .of_statement plain fun n rest ends => ?_
  cases n with
  | zero => exact .outOfSteps
  | succ n =>
    obtain ⟨choose, same, picks⟩ := chosen n
    rw [same]
    exact .bind peekKind_before (picks ▸ leads n rest ends)

theorem giveBack_none : StmtFound c (.giveBack none) [.ofKind .returnWord, .ofKind .semicolon] :=
  .of_rule (by decide) (fun n => ⟨_, by rw [Parser.statement], rfl⟩) fun n _ _ => giveBack_none_leads n

theorem giveBack_some (found : ExprFound c e (t :: a)) (starts : t.kind ≠ .semicolon) (tight : 0 < e.binding) :
    StmtFound c (.giveBack (some e)) (.ofKind .returnWord :: (t :: a ++ [.ofKind .semicolon])) := by
  refine .of_rule (by decide) (fun n => ⟨_, by rw [Parser.statement], rfl⟩) fun n rest _ => ?_
  simp only [List.cons_append, List.append_assoc, List.nil_append]
  exact giveBack_some_leads found starts tight n

theorem importFrom (source : Parser.isImportSource e = true) (written : e.Written a) :
    StmtFound c (.importFrom e) (.ofKind .importWord :: (a ++ [.ofKind .semicolon])) := by
  refine .of_rule (by decide) (fun n => ⟨_, by rw [Parser.statement], rfl⟩) fun n rest _ => ?_
  simp only [List.cons_append, List.append_assoc, List.nil_append]
  exact importFrom_leads source written n

theorem exportAs_named (found : ExprFound c e a) :
    StmtFound c (.exportAs name e)
      (.ofKind .exportWord :: (a ++ [.ofKind .asWord, ⟨.identifier, name⟩, .ofKind .semicolon])) := by
  refine .of_rule (by decide) (fun n => ⟨_, by rw [Parser.statement], rfl⟩) fun n rest _ => ?_
  simp only [List.cons_append, List.append_assoc, List.nil_append]
  exact exportAs_named_leads found n

theorem exportAs_bare {level : Nat} (found : ExprFound c (.lookup name level) a) :
    StmtFound c (.exportAs name (.lookup name level)) (.ofKind .exportWord :: (a ++ [.ofKind .semicolon])) := by
  refine .of_rule (by decide) (fun n => ⟨_, by rw [Parser.statement], rfl⟩) fun n rest _ => ?_
  simp only [List.cons_append, List.append_assoc, List.nil_append]
  exact exportAs_bare_leads found n

theorem function {params : List String} (found : BodyFound (c.functionBody name params) body b) (distinct : params.Nodup)
    (new : c.Lacks [name]) :
    StmtFound c (.function name params body) (.ofKind .functionWord :: ⟨.identifier, name⟩ :: .ofKind .leftParen ::
      (parameterTokens params ++ .ofKind .leftBrace :: (b ++ [.ofKind .rightBrace]))) := by
  refine .of_rule (by decide) (fun n => ⟨_, by rw [Parser.statement], rfl⟩) fun n rest _ => ?_
  simp only [List.cons_append, List.append_assoc, List.nil_append]
  exact function_leads found distinct new n

theorem branch_none (found : ExprFound c condition a) (tight : 0 < condition.binding) (starts : t.kind.Ends 1)
    (first : StmtFound c yes (t :: b)) (plain : yes.opening ≠ .varWord) :
    StmtFound c (.branch condition yes none) (.ofKind .ifWord :: (a ++ t :: b)) := by
  refine .of_rule (by decide) (fun n => ⟨_, by rw [Parser.statement], rfl⟩) fun n rest ends => ?_
  rw [List.cons_append, List.append_assoc]
  refine (branch_none_leads found tight starts first plain (ends rfl) n).mono (fun _ => id) fun _ before => ?_
  exact before.congr (Context.names_after c yes)

theorem branch_some {d : List Token} (found : ExprFound c condition a) (tight : 0 < condition.binding)
    (starts : t.kind.Ends 1) (first : StmtFound c yes (t :: b)) (plain : yes.opening ≠ .varWord)
    (closed : yes.awaitsElse = false) (second : StmtFound (c.declareAll yes.declares) no d)
    (plain' : no.opening ≠ .varWord) :
    StmtFound c (.branch condition yes (some no)) (.ofKind .ifWord :: (a ++ (t :: b ++ .ofKind .elseWord :: d))) := by
  refine .of_rule (by decide) (fun n => ⟨_, by rw [Parser.statement], rfl⟩) fun n rest ends => ?_
  rw [List.cons_append, List.append_assoc, List.append_assoc]
  exact branch_some_leads found tight starts first plain closed second plain' ends n

end StmtFound

theorem nextKind_ne_of_stmtsWritten {stmts : List Stmt} (written : StmtsWritten stmts b)
    (other : nextKind rest ≠ .elseWord) :
    nextKind (b ++ rest) ≠ .elseWord := by
  cases stmts with
  | nil =>
    cases written
    exact other
  | cons first others =>
    obtain ⟨a, b, written, -, rfl⟩ := written
    obtain ⟨t, more, rfl, kind⟩ := written.head
    exact fun known => Stmt.opening_ne (by decide) first (kind.symm.trans known)

namespace BodyFound

theorem nil : BodyFound c [] [] := by
  intro n rest
  cases n with
  | zero => exact .outOfSteps
  | succ n =>
    rw [blockRest]
    exact .bind peekKind_atHand (.bind discard_before (.pure fun _ => id))

theorem cons {others : List Stmt} (found : StmtFound c stmt a) (written : stmt.Written a)
    (written_others : StmtsWritten others b) (later : BodyFound (c.after stmt) others b) :
    BodyFound c (stmt :: others) (a ++ b) := by
  intro n rest
  cases n with
  | zero => exact .outOfSteps
  | succ n =>
    obtain ⟨t, more, rfl, kind⟩ := written.head
    rw [blockRest, List.append_assoc]
    refine .bind peekKind_before ?_
    split
    · next known => exact absurd (kind.symm.trans known) (Stmt.opening_ne (by decide) stmt)
    · next known => exact absurd (kind.symm.trans known) (Stmt.opening_ne (by decide) stmt)
    · have ends : nextKind (b ++ .ofKind .rightBrace :: rest) ≠ .elseWord :=
        nextKind_ne_of_stmtsWritten written_others (show TokenKind.rightBrace ≠ .elseWord by decide)
      exact .bind (found.declaration n fun _ => ends) (.bind (later n rest) (.pure fun _ => id))

end BodyFound

end Parser

end HookScript
