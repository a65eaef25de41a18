import HookScript.Proofs.Parsing.Progress
import HookScript.Proofs.Parsing.RulesTake
import HookScript.Proofs.Scoping.Reading

/-!
The parser asked for one statement after another. Whatever a call answers, the parser is at the top of the file after
it: no scope that was begun is left, and the file has the global names that it had before and those that have been
declared outside all brackets.
-/

namespace HookScript

namespace Context

def top (names : NameSet) : Context := ⟨⟨names, []⟩, []⟩

theorem names_declareAll_top (names declared : NameSet) :
    ((top names).declareAll declared).names = (top (declared.reverse ++ names)).names := by
  rw [names_declareAll]
  rfl

end Context

namespace ScopeStack

structure AtTop (stack : ScopeStack) (names : NameSet) : Prop where
  depth : stack.depth = globalIndex
  globals : stack.globals = names
  builtins : stack.frames[builtinsIndex]? = some []

namespace Shows

variable {stack : ScopeStack} {names : NameSet}

theorem atTop (shows_top : stack.Shows (.top names)) : stack.AtTop names := by
  have depth : stack.depth = 1 := shows_top.depth_eq
  refine ⟨depth, shows_top.globals_eq, ?_⟩
  have last := stack.getElem?_visible (i := 1) (Nat.le_of_eq depth.symm)
  rw [shows_top, depth] at last
  exact last.symm

theorem free (shows_top : stack.Shows (.top names)) {name : String} (absent : name ∉ names) :
    stack.resolve name = globalIndex ∧ stack.declare? name ≠ none := by
  refine ⟨?_, fun failed => ?_⟩
  · rw [shows_top.resolve_eq, Context.resolve_of_undeclared]
    · rfl
    · intro scope among
      rwa [List.mem_singleton.mp among]
  · rcases stack.declare?_cases name with ⟨known, -⟩ | ⟨-, next, declared, -⟩
    · rw [shows_top.innermost_eq] at known
      exact absent known
    · rw [declared] at failed
      cases failed

end Shows

end ScopeStack

namespace Parser

theorem synchronize_took (n : Nat) (p : Parser) :
    ∃ passed q, (n ≠ 0 → passed ≠ []) ∧ p.Took passed q ∧ q.scopes = p.scopes ∧ (synchronize n p = .ok () q ∨
      ∃ e, synchronize n p = .error e q ∧ ∀ reached, Cause passed reached e) := by
  induction n generalizing p with
  | zero => exact ⟨[], p, fun some => absurd rfl some, .refl p, rfl, .inr ⟨_, rfl, fun _ => trivial⟩⟩
  | succ n ih =>
    rw [synchronize_succ]
    rcases take_took p with ⟨t, q, ran, took, scopes, -⟩ | ⟨failure, line, q, ran, took, scopes⟩
    · simp only [ran]
      split
      · exact ⟨_, q, fun _ => List.cons_ne_nil _ _, took, scopes, .inl rfl⟩
      · obtain ⟨passed, r, -, later, scopes', ended⟩ := ih q
        refine ⟨_, r, fun _ => List.cons_ne_nil _ _, took.trans later, scopes'.trans scopes, ended.imp_right ?_⟩
        rintro ⟨e, failed, cause⟩
        exact ⟨e, failed, fun reached => (cause reached).mono (List.subset_cons_self _ _)⟩
    · simp only [ran]
      refine ⟨_, q, fun _ => List.cons_ne_nil _ _, took, scopes, .inr ⟨_, rfl, fun _ => ⟨line, ?_⟩⟩⟩
      exact List.mem_singleton.mpr rfl

/-- What a call has done that began with `p` in the context `c`. A statement that is given up has been read up to `r`,
and the rest of it has been passed over; its first token was there to be read. -/
inductive Called (c : Context) (p : Parser) : EStateM.Result ParseError Parser (Option Stmt) → Prop
  | atEnd {q t} (took : p.Took [] q) (held : q.ahead.held = some t) (ending : t.1.kind = .endOfFile) (within : q.In c) :
    Called c p (.ok none q)
  | read {stmt q} (placed : List (Token × Nat)) (took : p.Took (placed.map .ofToken) q)
    (real : ∀ t ∈ placed, t.1.kind ≠ .endOfFile) (stated : Stated c stmt (placed.map Prod.fst) q)
    (within : q.In (c.declareAll stmt.declares)) : Called c p (.ok (some stmt) q)
  | unread {failure line q} (took : p.Took [⟨.error failure, line⟩] q) (within : q.In c) :
    Called c p (.error (.unreadable failure) q)
  | givenUp {e r q t taken passed declared} (took : p.Took taken r) (later : r.Took passed q)
    (first : (taken ++ passed).head? = some (.ofToken t)) (real : t.1.kind ≠ .endOfFile)
    (cause : Cause (taken ++ passed) r.ahead.line e) (within : q.In (c.declareAll declared))
    (outside : ∀ name ∈ declared, name ∈ namesOutside taken) : Called c p (.error e q)

theorem nextStatement_called {c : Context} {p : Parser} (within : p.In c) (steps : 0 < p.steps) :
    Called c p (nextStatement p) := by
  rcases peekKind_took p with ⟨t, q, peeked, held, took, scopes⟩ | ⟨failure, line, q, peeked, took, scopes⟩
  · have within : q.In c := within.of_took took (scopes ▸ within.shows_c)
    rw [nextStatement_eq peeked]
    split
    · next ending => exact .atEnd took held ending within
    · next real =>
      have ended : Ends .outside c (fun stmt => c.declareAll stmt.declares) (Stated c) q (declaration q.steps q) :=
        (rulesTake q.steps).declaration within
      generalize declaration q.steps q = result at ended
      cases ended with
      | ok placed declared inside more after stated => exact .read placed (took.trans inside) more stated after
      | @error e r taken declared inside cause after outside =>
        have enough : r.steps ≠ 0 := by
          rw [inside.steps, took.steps]
          omega
        obtain ⟨passed, s, some, later, same, synchronized⟩ := synchronize_took r.steps r
        have rest : s.In (c.declareAll declared) := after.of_took later (same ▸ after.shows_c)
        have first := (inside.trans later).head? (sees_of_held held)
          fun none => some enough (List.append_eq_nil_iff.mp none).2
        rcases synchronized with ran | ⟨e', ran, cause'⟩
        · simp only [ran]
          exact .givenUp (took.trans inside) later first real (cause.mono (List.subset_append_left _ _)) rest outside
        · simp only [ran]
          exact .givenUp (took.trans inside) later first real ((cause' _).mono (List.subset_append_right _ _)) rest outside
  · have failed : nextStatement p = .error (.unreadable failure) q := by
      simp only [nextStatement, bind, EStateM.bind, peeked]
    rw [failed]
    exact .unread took (within.of_took took (scopes ▸ within.shows_c))

/-- The parser after so many calls, whatever they have answered. -/
def afterCalls : Nat → Parser → Parser
  | 0, p => p
  | n + 1, p =>
    match nextStatement (afterCalls n p) with
    | .ok _ q => q
    | .error _ q => q

theorem in_ofLexer (lexer : Lexer) : (ofLexer lexer).In (.top []) where
  shows_c := ScopeStack.shows_start
  synced := nofun
  proper := by
    intro scan among t found
    obtain ⟨result, line⟩ := scan
    cases result with
    | ok token =>
      cases found
      exact Lexer.proper_of_scans among rfl
    | error => cases found

theorem in_afterCalls (lexer : Lexer) (calls : Nat) :
    ∃ names, (afterCalls calls (ofLexer lexer)).In (.top names) ∧ 0 < (afterCalls calls (ofLexer lexer)).steps := by
  induction calls with
  | zero => exact ⟨[], in_ofLexer lexer, by simp [afterCalls, ofLexer, stepsFor]⟩
  | succ calls ih =>
    obtain ⟨names, within, steps⟩ := ih
    rw [afterCalls]
    have called := nextStatement_called within steps
    generalize nextStatement (afterCalls calls (ofLexer lexer)) = result at called
    cases called with
    | atEnd took _ _ within => exact ⟨names, within, took.steps ▸ steps⟩
    | read placed took _ _ within =>
      exact ⟨_, within.congr (Context.names_declareAll_top _ _), took.steps ▸ steps⟩
    | unread took within => exact ⟨names, within, took.steps ▸ steps⟩
    | givenUp took later _ _ _ within =>
      exact ⟨_, within.congr (Context.names_declareAll_top _ _), later.steps.trans took.steps ▸ steps⟩

end Parser

/-- Whatever a call answers, the scopes are those of the top of the file before it and after it. A statement that is read
has the levels of the top and adds the names that it declares. A statement that is given up adds names that stand in
what has been read of it, outside all brackets, and no others: a name that it has declared in an inner scope is as free
as if it had never been read. -/
theorem scopes_of_calls (lexer : Lexer) (calls : Nat) :
    let p := (Parser.ofLexer lexer).afterCalls calls
    ∃ names, p.scopes.AtTop names ∧
      match Parser.nextStatement p with
      | .ok none q => q.scopes.AtTop names
      | .ok (some stmt) q => q.scopes.AtTop (stmt.declares.reverse ++ names) ∧ stmt.levelled (.top names) = stmt
      | .error _ q => ∃ taken passed declared, p.Took (taken ++ passed) q ∧
        (∀ name ∈ declared, name ∈ namesOutside taken) ∧ q.scopes.AtTop (declared ++ names) ∧
          ∀ name, name ∉ declared → name ∉ names →
            q.scopes.resolve name = ScopeStack.globalIndex ∧ q.scopes.declare? name ≠ none := by
  intro p
  obtain ⟨names, within, steps⟩ := Parser.in_afterCalls lexer calls
  refine ⟨names, within.shows_c.atTop, ?_⟩
  have called : Parser.Called (.top names) p (Parser.nextStatement p) := Parser.nextStatement_called within steps
  have levels {stmt : Stmt} {q : Parser} (answered : Parser.nextStatement p = .ok (some stmt) q) :
      stmt.levelled (.top names) = stmt := (Parser.nextStatement_reads within.shows_c answered).2
  generalize Parser.nextStatement p = result at called levels
  cases called with
  | atEnd took _ _ within => exact within.shows_c.atTop
  | read placed took _ _ within =>
    have within := within.congr (Context.names_declareAll_top _ _)
    exact ⟨within.shows_c.atTop, levels rfl⟩
  | @unread failure line q took within =>
    exact ⟨[⟨.error failure, line⟩], [], [], took, nofun, within.shows_c.atTop,
      fun name _ absent => within.shows_c.free absent⟩
  | @givenUp e r q t taken passed declared took later _ _ _ within outside =>
    have within := within.congr (Context.names_declareAll_top _ _)
    refine ⟨taken, passed, declared.reverse, took.trans later, ?_, within.shows_c.atTop, fun name unseen absent => ?_⟩
    · intro name among
      exact outside name (List.mem_reverse.mp among)
    · refine within.shows_c.free fun among => ?_
      exact (List.mem_append.mp among).elim unseen absent

end HookScript
