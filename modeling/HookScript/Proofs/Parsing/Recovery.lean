import Mathlib
import HookScript.Proofs.Parsing.RulesAgree
import HookScript.Proofs.Parsing.Progress

/-!
Recovery. What the parser reports about a text without braces can be told from its statements one by one: each is well
formed or malformed by itself, whatever stands around it. A complaint that comes before the semicolon of its statement
costs that statement only. A complaint about the semicolon comes after it has been taken, and then the statement after
it is passed over unread.
-/

namespace HookScript

namespace Parser

def ofTokens (tokens : List (Token × Nat)) : Parser :=
  ⟨.ofSource ⟨tokens.map .ofToken, 1⟩, .empty, stepsFor tokens.length⟩

def awaitsSemicolon (p : Parser) : Bool :=
  p.ahead.pending.any fun scan =>
    match scan.result with
    | .ok token => token.kind = .semicolon
    | .error _ => false

end Parser

section Verdicts

variable (segment : List (Token × Nat))

/-- The segment read as a statement, all by itself. -/
def readAlone : EStateM.Result ParseError Parser Stmt :=
  Parser.declaration (Parser.stepsFor segment.length) (.ofTokens segment)

def statementOf? : Option Stmt :=
  match readAlone segment with
  | .ok stmt _ => some stmt
  | .error _ _ => none

def complaintAbout? : Option ParseError :=
  match readAlone segment with
  | .ok _ _ => none
  | .error error _ => some error

/-- The complaint about the segment comes when its semicolon has been taken. -/
def complainsLate : Bool :=
  match readAlone segment with
  | .ok _ _ => false
  | .error _ p => !p.awaitsSemicolon

end Verdicts

/-- The segments that are read. One that comes after a late complaint is not. -/
def reached : Bool → List (List (Token × Nat)) → List (List (Token × Nat))
  | _, [] => []
  | true, _ :: rest => reached false rest
  | false, segment :: rest => segment :: reached (complainsLate segment) rest

def statements (segments : List (List (Token × Nat))) : List Stmt := (reached false segments).filterMap statementOf?

def complaints (segments : List (List (Token × Nat))) : List ParseError :=
  (reached false segments).filterMap complaintAbout?

inductive ParseError.Alike : ParseError → ParseError → Prop
  | malformed {line error error'} (alike : SyntaxError.Alike error error') :
    Alike (.malformed line error) (.malformed line error')

theorem reached_of_early {segments : List (List (Token × Nat))} (early : ∀ s ∈ segments, complainsLate s = false) :
    reached false segments = segments := by
  induction segments with
  | nil => rfl
  | cons segment rest ih =>
    obtain ⟨here, there⟩ := List.forall_mem_cons.mp early
    rw [reached, here, ih there]

section Cons

variable (segment : List (Token × Nat)) (rest : List (List (Token × Nat)))

theorem reached_cons : reached false (segment :: rest) =
    segment :: reached false (if complainsLate segment then rest.tail else rest) := by
  rw [reached]
  cases complainsLate segment with
  | false => rfl
  | true => cases rest <;> rfl

theorem statements_cons : statements (segment :: rest) =
    (statementOf? segment).toList ++ statements (if complainsLate segment then rest.tail else rest) := by
  rw [statements, reached_cons, List.filterMap_cons]
  cases statementOf? segment <;> rfl

theorem complaints_cons : complaints (segment :: rest) =
    (complaintAbout? segment).toList ++ complaints (if complainsLate segment then rest.tail else rest) := by
  rw [complaints, reached_cons, List.filterMap_cons]
  cases complaintAbout? segment <;> rfl

end Cons

namespace Parser

theorem Faces.awaitsSemicolon_eq_false {p : Parser} (faces : p.Faces []) : p.awaitsSemicolon = false := by
  obtain ⟨⟨ending, atEnd, pending⟩, -⟩ := faces
  rw [awaitsSemicolon, pending, List.any_eq_false]
  intro scan among
  obtain ⟨token, found, kind⟩ := atEnd scan among
  simp [found, kind]

theorem Faces.awaitsSemicolon_of_segment {p : Parser} {tokens : List (Token × Nat)} (faces : p.Faces tokens)
    (segment : IsSegment tokens) : p.awaitsSemicolon = true := by
  obtain ⟨⟨ending, atEnd, pending⟩, -⟩ := faces
  rw [awaitsSemicolon, pending, List.any_append, Bool.or_eq_true]
  clear pending
  left
  induction segment with
  | stop semicolon => simp [Scan.ofToken, semicolon]
  | more inner segment ih => rw [List.map_cons, List.any_cons, ih, Bool.or_true]

theorem peekKind_of_held {p : Parser} {t : Token × Nat} (held : p.ahead.held = some t) :
    peekKind p = .ok t.1.kind p := by
  obtain ⟨⟨source, front⟩, scopes, steps⟩ := p
  cases held
  rfl

theorem declaration_peeked {n : Nat} {p q : Parser} {t : Token × Nat} (peeked : peekKind p = .ok t.1.kind q)
    (held : q.ahead.held = some t) : declaration (n + 1) p = declaration (n + 1) q := by
  rw [declaration]
  simp only [Bind.bind, EStateM.bind, peeked, peekKind_of_held held]

theorem synchronize_segment {n : Nat} {p : Parser} {tokens later : List (Token × Nat)} (segment : IsSegment tokens)
    (faces : p.Faces (tokens ++ later)) : (∃ p', synchronize n p = .error .outOfSteps p') ∨
      ∃ p', synchronize n p = .ok () p' ∧ p'.Faces later ∧ p'.scopes = p.scopes := by
  induction segment generalizing p n with
  | @stop t semicolon =>
    cases n with
    | zero => exact .inl ⟨p, rfl⟩
    | succ n =>
      obtain ⟨ahead, taken, -, faces⟩ := faces.take
      refine .inr ⟨_, ?_, faces, rfl⟩
      rw [synchronize_succ, taken]
      simp [semicolon]
  | @more t rest inner segment ih =>
    cases n with
    | zero => exact .inl ⟨p, rfl⟩
    | succ n =>
      obtain ⟨ahead, taken, -, faces⟩ := faces.take
      have outer : [.endOfFile, .semicolon, .rightBrace] ⊆
          [.semicolon, .leftBrace, .rightBrace, .elseWord, TokenKind.endOfFile] := by decide
      have goesOn : t.1.kind ∉ [.endOfFile, .semicolon, .rightBrace] := fun ends => inner (outer ends)
      rw [synchronize_succ, taken]
      simp only [if_neg goesOn]
      exact ih faces

theorem synchronize_nil {n : Nat} {p : Parser} (faces : p.Faces []) :
    (∃ p', synchronize n p = .error .outOfSteps p') ∨
      ∃ p', synchronize n p = .ok () p' ∧ p'.Faces [] ∧ p'.scopes = p.scopes := by
  cases n with
  | zero => exact .inl ⟨p, rfl⟩
  | succ n =>
    obtain ⟨token, ahead, taken, isEnd, faces⟩ := faces.take_nil
    refine .inr ⟨_, ?_, faces, rfl⟩
    rw [synchronize_succ, taken]
    simp [isEnd]

theorem exists_setting {segment : List (Token × Nat)} {rest : List (List (Token × Nat))} {names : List String}
    (each : ∀ s ∈ rest, IsSegment s) (disjoint : ∀ name ∈ declaredNames segment, name ∉ names) :
    ∃ around : Setting, around.own = declaredNames segment ∧ around.others = names ∧ around.later = rest.flatten := by
  refine ⟨⟨declaredNames segment, names, rest.flatten, @disjoint, fun {t} follows => ?_⟩, rfl, rfl, rfl⟩
  obtain ⟨s, among, within⟩ := List.mem_flatten.mp follows
  exact fun isElse => (each s among).kind_not_mem within (by rw [isElse]; decide)

theorem declaration_agrees {p : Parser} {t : Token × Nat} {segment : List (Token × Nat)} {around : Setting}
    (isSegment : IsSegment (t :: segment)) (faces : p.Faces (t :: segment ++ around.later))
    (held : p.ahead.held = some t) (visible : p.scopes.visible = [around.others, []])
    (own : around.own = declaredNames (t :: segment)) (n : Nat) :
    Agrees around 1 (Stands around) (declaration n p) (readAlone (t :: segment)) := by
  have alone : (ofTokens (t :: segment)).Faces (t :: segment) :=
    .of_free ⟨[], nofun, (List.append_nil _).symm⟩ rfl
  obtain ⟨ahead, looked, heldAlone, line, alone⟩ := alone.peek
  have steps : stepsFor (t :: segment).length = 16 * (segment.length + 3) + 15 + 1 := by
    rw [stepsFor, List.length_cons]
    omega
  rw [readAlone, steps, declaration_peeked looked heldAlone]
  refine (rulesAgree n _).declaration isSegment ⟨?_, faces, alone, ?_, ?_⟩
  · rw [faces.line held, line]
  · exact ⟨[], [], rfl, nofun, visible, rfl⟩
  · exact fun declared => own ▸ declared

theorem readAlone_spent (segment : List (Token × Nat)) : Spent 1 (ofTokens segment) (readAlone segment) := by
  have left : (ofTokens segment).left = segment.length := List.length_map _
  exact (rulesSpend _).declaration (by rw [left, stepsFor]; omega)

theorem synchronize_segments {n : Nat} {p : Parser} {segments : List (List (Token × Nat))}
    (each : ∀ s ∈ segments, IsSegment s) (faces : p.Faces segments.flatten) :
    (∃ p', synchronize n p = .error .outOfSteps p') ∨
      ∃ p', synchronize n p = .ok () p' ∧ p'.Faces segments.tail.flatten ∧ p'.scopes = p.scopes := by
  cases segments with
  | nil => exact synchronize_nil faces
  | cons segment rest =>
    rw [List.flatten_cons] at faces
    exact synchronize_segment (each segment List.mem_cons_self) faces

structure GoesOn (names : List String) (segment : List (Token × Nat)) (rest : List (List (Token × Nat)))
    (p q : Parser) : Prop where
  after : p.After 1 q
  faces : q.Faces (if complainsLate segment then rest.tail else rest).flatten
  scopes : ∃ declared, (∀ name ∈ declared, name ∈ declaredNames segment) ∧ q.scopes.visible = [declared ++ names, []]

inductive TakesUp (names : List String) (segment : List (Token × Nat)) (rest : List (List (Token × Nat)))
    (p : Parser) : EStateM.Result ParseError Parser (Option Stmt) → Prop
  | read {stmt stmt' q} (sound : complaintAbout? segment = none) (alone : statementOf? segment = some stmt')
    (alike : stmt.Alike stmt') (goesOn : GoesOn names segment rest p q) :
    TakesUp names segment rest p (.ok (some stmt) q)
  | malformed {line error error' q} (alone : complaintAbout? segment = some (.malformed line error'))
    (alike : SyntaxError.Alike error error')
    (goesOn : GoesOn names segment rest p q) :
    TakesUp names segment rest p (.error (.malformed line error) q)

theorem nextStatement_segment {p : Parser} {names : List String} {segment : List (Token × Nat)}
    {rest : List (List (Token × Nat))} (isSegment : IsSegment segment) (each : ∀ s ∈ rest, IsSegment s)
    (disjoint : ∀ name ∈ declaredNames segment, name ∉ names) (enough : 16 * p.left + 15 ≤ p.steps)
    (faces : p.Faces (segment ++ rest.flatten)) (visible : p.scopes.visible = [names, []]) :
    TakesUp names segment rest p (nextStatement p) := by
  obtain ⟨around, own, others, later⟩ := exists_setting each disjoint
  rw [← later] at faces
  obtain ⟨t, tail, rfl⟩ := isSegment.exists_cons
  obtain ⟨ahead, looked, held, -, faces⟩ := faces.peek
  have inner : t.1.kind ≠ .endOfFile := fun ending =>
    isSegment.kind_not_mem List.mem_cons_self (by rw [ending]; decide)
  have advances := nextStatement_advances enough
  have agrees := declaration_agrees isSegment faces held (visible.trans (by rw [others])) own p.steps
  have spentAlone := readAlone_spent (t :: tail)
  rw [nextStatement_eq looked, if_neg inner] at advances ⊢
  dsimp only at advances ⊢
  have fewer := (After.of_peeked looked).left
  have spent := (rulesSpend p.steps).declaration (p := { p with ahead }) (by omega)
  rw [Spends] at spent
  generalize declaration p.steps { p with ahead } = result at agrees spent advances
  generalize alone : readAlone (t :: tail) = resultAlone at agrees spentAlone
  cases agrees with
  | starved => cases spent with | error known => exact absurd rfl known
  | starvedAlone => cases spentAlone with | error known => exact absurd rfl known
  | ok stands =>
    obtain ⟨alike, long, -, scopes⟩ := stands
    have early : complainsLate (t :: tail) = false := by simp only [complainsLate, alone]
    refine .read (by simp only [complaintAbout?, alone]) (by simp only [statementOf?, alone]) alike ⟨?_, ?_, ?_⟩
    · cases advances with | read after => exact after
    · rw [early]
      exact later ▸ long
    · exact own ▸ others ▸ scopes.declared
  | @error line error error' tokens r s alike within beside =>
    have passed : (∃ p', synchronize r.steps r = .error .outOfSteps p') ∨ ∃ p', synchronize r.steps r = .ok () p' ∧
        p'.Faces (if complainsLate (t :: tail) then rest.tail else rest).flatten ∧ p'.scopes = r.scopes := by
      rcases within with rfl | within
      · have late : complainsLate (t :: tail) = true := by
          simp only [complainsLate, alone, beside.alone.awaitsSemicolon_eq_false, Bool.not_false]
        rw [late]
        exact synchronize_segments each (later ▸ beside.long)
      · have early : complainsLate (t :: tail) = false := by
          simp only [complainsLate, alone, beside.alone.awaitsSemicolon_of_segment within, Bool.not_true]
        rw [early]
        exact synchronize_segment within (later ▸ beside.long)
    dsimp only at advances ⊢
    generalize synchronize r.steps r = skipping at passed advances ⊢
    rcases passed with ⟨p', rfl⟩ | ⟨p', rfl, faces, scopes⟩
    · cases advances
    · refine .malformed (by simp only [complaintAbout?, alone]) alike
        ⟨?_, faces, ?_⟩
      · cases advances with | malformed after => exact after
      rw [scopes]
      exact own ▸ others ▸ beside.scopes.declared

inductive Answers (segments : List (List (Token × Nat))) (stmts : List Stmt) (found : List ParseError) :
    Except (List ParseError) Program → Prop
  | accepted {read} (none : found = []) (sound : complaints segments = [])
    (alike : List.Forall₂ Stmt.Alike read (statements segments)) :
    Answers segments stmts found (.ok (stmts.reverse ++ read))
  | refused {errors} (some : found = [] → complaints segments ≠ [])
    (alike : List.Forall₂ ParseError.Alike errors (complaints segments)) :
    Answers segments stmts found (.error (found.reverse ++ errors))

namespace Answers

variable {segment : List (Token × Nat)} {rest : List (List (Token × Nat))} {stmts : List Stmt}
  {found : List ParseError} {result : Except (List ParseError) Program}

theorem nil (stmts : List Stmt) (found : List ParseError) :
    Answers [] stmts found (if found.isEmpty then .ok stmts.reverse else .error found.reverse) := by
  cases found with
  | nil =>
    change Answers [] stmts [] (.ok stmts.reverse)
    rw [← List.append_nil stmts.reverse]
    exact .accepted rfl rfl .nil
  | cons first others =>
    change Answers [] stmts (first :: others) (.error (first :: others).reverse)
    rw [← List.append_nil (first :: others).reverse]
    exact .refused (fun none => absurd none (List.cons_ne_nil _ _)) .nil

theorem read {stmt stmt' : Stmt} (sound : complaintAbout? segment = none) (alone : statementOf? segment = some stmt')
    (alike : stmt.Alike stmt')
    (answers : Answers (if complainsLate segment then rest.tail else rest) (stmt :: stmts) found result) :
    Answers (segment :: rest) stmts found result := by
  cases answers with
  | accepted none noComplaint same =>
    rw [List.reverse_cons, List.append_assoc]
    refine .accepted none ?_ ?_
    · rw [complaints_cons, sound, noComplaint]
      rfl
    · rw [statements_cons, alone]
      exact .cons alike same
  | refused some same =>
    refine .refused ?_ ?_
    · rwa [complaints_cons, sound]
    · rwa [complaints_cons, sound]

theorem malformed {line : Nat} {error error' : SyntaxError}
    (alone : complaintAbout? segment = some (.malformed line error')) (alike : SyntaxError.Alike error error')
    (answers : Answers (if complainsLate segment then rest.tail else rest) stmts (.malformed line error :: found)
      result) :
    Answers (segment :: rest) stmts found result := by
  cases answers with
  | accepted none => cases none
  | refused some same =>
    rw [List.reverse_cons, List.append_assoc]
    refine .refused ?_ ?_
    · rw [complaints_cons, alone]
      exact fun _ => List.cons_ne_nil _ _
    · rw [complaints_cons, alone]
      exact .cons (.malformed alike) same

end Answers

theorem collect_segments {fuel : Nat} {stmts : List Stmt} {found : List ParseError} {p : Parser} {names : List String}
    {segments : List (List (Token × Nat))} (each : ∀ s ∈ segments, IsSegment s)
    (distinct : segments.Pairwise fun s t => ∀ name ∈ declaredNames s, name ∉ declaredNames t)
    (disjoint : ∀ s ∈ segments, ∀ name ∈ declaredNames s, name ∉ names) (enough : 16 * p.left + 15 ≤ p.steps)
    (calls : p.left < fuel) (faces : p.Faces segments.flatten) (visible : p.scopes.visible = [names, []]) :
    Answers segments stmts found (collect fuel stmts found p) := by
  induction fuel generalizing stmts found p names segments with
  | zero => omega
  | succ fuel ih =>
    rw [collect]
    cases segments with
    | nil =>
      obtain ⟨ahead, looked, -⟩ := faces.peek_nil
      rw [nextStatement_eq looked]
      exact .nil stmts found
    | cons segment rest =>
      obtain ⟨isSegment, each⟩ := List.forall_mem_cons.mp each
      obtain ⟨apart, distinct⟩ := List.pairwise_cons.mp distinct
      obtain ⟨fresh, disjoint⟩ := List.forall_mem_cons.mp disjoint
      rw [List.flatten_cons] at faces
      have takesUp := nextStatement_segment isSegment each fresh enough faces visible
      have sub : (if complainsLate segment then rest.tail else rest).Sublist rest := by
        split
        · exact List.tail_sublist rest
        · exact .refl rest
      have goOn {q : Parser} (goesOn : GoesOn names segment rest p q) (stmts : List Stmt) (found : List ParseError) :
          Answers (if complainsLate segment then rest.tail else rest) stmts found (collect fuel stmts found q) := by
        obtain ⟨declared, own, visible⟩ := goesOn.scopes
        have := goesOn.after.left
        have := goesOn.after.steps
        refine ih (fun s among => each s (sub.subset among)) (distinct.sublist sub) (fun s among name within => ?_)
          (by omega) (by omega) goesOn.faces visible
        rw [List.mem_append]
        rintro (mine | other)
        · exact apart s (sub.subset among) name (own name mine) within
        · exact disjoint s (sub.subset among) name within other
      generalize nextStatement p = result at takesUp
      cases takesUp with
      | @read stmt _ q sound alone alike goesOn => exact .read sound alone alike (goOn goesOn (stmt :: stmts) found)
      | @malformed line error _ q alone alike goesOn =>
        exact .malformed alone alike (goOn goesOn stmts (.malformed line error :: found))

end Parser

/-- A text of statements without braces is read statement by statement. It is accepted when none of those that are
reached is malformed, and each of them is in the program. Otherwise there is one error for each malformed one, in order.
Every statement is reached unless a complaint comes late. -/
theorem errors_of_segments {lexer : Lexer} {segments : List (List (Token × Nat))} (each : ∀ s ∈ segments, IsSegment s)
    (distinct : (segments.flatMap declaredNames).Nodup) (text : Finds lexer.scans segments.flatten) :
    ((∃ program, Program.ofLexer lexer = .ok program ∧ complaints segments = [] ∧
        List.Forall₂ Stmt.Alike program (statements segments)) ∨
      ∃ errors, Program.ofLexer lexer = .error errors ∧ complaints segments ≠ [] ∧
        List.Forall₂ ParseError.Alike errors (complaints segments)) ∧
    ((∀ s ∈ segments, complainsLate s = false) →
      statements segments = segments.filterMap statementOf? ∧
        complaints segments = segments.filterMap complaintAbout?) := by
  refine ⟨?answer, fun early => by rw [statements, complaints, reached_of_early early]; exact ⟨rfl, rfl⟩⟩
  have left : (Parser.ofLexer lexer).left = lexer.scans.length := rfl
  have steps : (Parser.ofLexer lexer).steps = 16 * (lexer.scans.length + 3) := rfl
  have apart := (List.nodup_flatMap.mp distinct).2
  have answer : Parser.Answers segments [] [] (Program.ofLexer lexer) := Parser.collect_segments each
    (apart.imp fun disjoint name here there => disjoint here there) (fun _ _ _ _ => List.not_mem_nil) (by omega)
    (by omega) (.of_free text rfl) rfl
  generalize Program.ofLexer lexer = result at answer
  cases answer with
  | accepted _ sound alike => exact .inl ⟨_, rfl, sound, alike⟩
  | refused some alike => exact .inr ⟨_, rfl, some rfl, alike⟩

def recoveringSegments : List (List (Token × Nat)) :=
  [[(⟨.identifier, "a"⟩, 1), (⟨.identifier, "b"⟩, 1), (⟨.semicolon, ";"⟩, 1)],
    [(⟨.integer, "1"⟩, 2), (⟨.plus, "+"⟩, 2), (⟨.semicolon, ";"⟩, 2)],
    [(⟨.varWord, "var"⟩, 3), (⟨.identifier, "c"⟩, 3), (⟨.equal, "="⟩, 3), (⟨.semicolon, ";"⟩, 3)],
    [(⟨.varWord, "var"⟩, 4), (⟨.identifier, "d"⟩, 4), (⟨.semicolon, ";"⟩, 4)]]

theorem errors_of_recoveringSegments :
    (∀ s ∈ recoveringSegments, IsSegment s) ∧ (recoveringSegments.flatMap declaredNames).Nodup ∧
      Finds (Lexer.ofText "a b;\n1 + ;\nvar c = ;\nvar d;").scans recoveringSegments.flatten ∧
      ∃ errors, Program.ofText "a b;\n1 + ;\nvar c = ;\nvar d;" = .error errors ∧
        List.Forall₂ ParseError.Alike errors [.malformed 1 (.expected [.semicolon] ⟨.identifier, "b"⟩),
          .malformed 2 (.unexpected ⟨.semicolon, ";"⟩)] := by
  have each : ∀ s ∈ recoveringSegments, IsSegment s := by
    simp only [recoveringSegments, List.forall_mem_cons]
    exact ⟨.more (by decide) (.more (by decide) (.stop rfl)), .more (by decide) (.more (by decide) (.stop rfl)),
      .more (by decide) (.more (by decide) (.more (by decide) (.stop rfl))),
      .more (by decide) (.more (by decide) (.stop rfl)), nofun⟩
  have distinct : (recoveringSegments.flatMap declaredNames).Nodup := by decide
  have text : Finds (Lexer.ofText "a b;\n1 + ;\nvar c = ;\nvar d;").scans recoveringSegments.flatten :=
    ⟨[], nofun, by cbv⟩
  have reported : complaints recoveringSegments = [.malformed 1 (.expected [.semicolon] ⟨.identifier, "b"⟩),
      .malformed 2 (.unexpected ⟨.semicolon, ";"⟩)] := by cbv
  refine ⟨each, distinct, text, ?_⟩
  rcases (errors_of_segments each distinct text).1 with ⟨program, -, none, -⟩ | ⟨errors, failed, -, alike⟩
  · rw [reported] at none
    cases none
  · exact ⟨errors, failed, reported ▸ alike⟩

/-- Both statements are malformed. The second one is passed over with the semicolon of the first, and nothing is
reported about it. -/
theorem malformed_statement_passed_over :
    ∃ first second : List (Token × Nat), IsSegment first ∧ IsSegment second ∧
      Finds (Lexer.ofText "1 + ;\n2 + ;").scans (first ++ second) ∧ declaredNames (first ++ second) = [] ∧
      complaintAbout? first = some (.malformed 1 (.unexpected ⟨.semicolon, ";"⟩)) ∧
      complaintAbout? second = some (.malformed 2 (.unexpected ⟨.semicolon, ";"⟩)) ∧
      Program.ofText "1 + ;\n2 + ;" = .error [.malformed 1 (.unexpected ⟨.semicolon, ";"⟩)] := by
  refine ⟨[(⟨.integer, "1"⟩, 1), (⟨.plus, "+"⟩, 1), (⟨.semicolon, ";"⟩, 1)],
    [(⟨.integer, "2"⟩, 2), (⟨.plus, "+"⟩, 2), (⟨.semicolon, ";"⟩, 2)],
    .more (by decide) (.more (by decide) (.stop rfl)), .more (by decide) (.more (by decide) (.stop rfl)),
    ⟨[], nofun, ?scans⟩, by decide, ?first, ?second, ?reported⟩
  all_goals cbv

end HookScript
