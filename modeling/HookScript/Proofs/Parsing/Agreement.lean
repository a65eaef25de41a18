import HookScript.Proofs.Parsing.Segment

/-!
Rules that agree. A rule that reads a segment in its setting and the same rule reading it alone either both succeed, on
the same tokens and with trees that differ in levels only, or both fail there with the same complaint.
-/

namespace HookScript

/-- The expressions differ in levels only. -/
def Expr.Alike (e e' : Expr) : Prop := ∀ c, e.levelled c = e'.levelled c

def ExprsAlike (es es' : List Expr) : Prop := ∀ c, levelledExprs c es = levelledExprs c es'

def Stmt.Alike (stmt stmt' : Stmt) : Prop := ∀ c, stmt.levelled c = stmt'.levelled c

namespace Expr.Alike

variable {e e' value value' : Expr} {name : String} {level : Nat}

theorem symm (alike : e.Alike e') : e'.Alike e := fun c => (alike c).symm

theorem lookup_left (alike : (Expr.lookup name level).Alike e) : ∃ level', e = .lookup name level' := by
  have same := alike .start
  cases e with
  | lookup name' level' =>
    cases (Expr.lookup.inj same).1
    exact ⟨level', rfl⟩
  | _ => exact absurd same nofun

theorem isImportSource_levelled (e : Expr) (c : Context) :
    Parser.isImportSource (e.levelled c) = Parser.isImportSource e := by
  cases e with
  | literal literal => cases literal <;> rfl
  | _ => rfl

theorem isImportSource_eq (alike : e.Alike e') : Parser.isImportSource e = Parser.isImportSource e' := by
  rw [← isImportSource_levelled e .start, alike, isImportSource_levelled]

theorem assignmentTo?_levelled (e : Expr) (c : Context) :
    (Parser.assignmentTo? e).map (fun assign value => (assign value).levelled c) =
      (Parser.assignmentTo? (e.levelled c)).map fun assign value => assign (value.levelled c) := by
  cases e <;> rfl

theorem assign {make : Expr → Expr} (known : Parser.assignmentTo? e = some make) (alike : value.Alike value') :
    (make value).Alike (make value') := by
  intro c
  have here := assignmentTo?_levelled e c
  rw [known, Option.map_some] at here
  obtain ⟨put, -, same⟩ := Option.map_eq_some_iff.mp here.symm
  rw [← congrFun same value, ← congrFun same value', alike]

theorem assignmentTo? (alike : e.Alike e') :
    Option.Rel (fun make make' => ∀ value value', Expr.Alike value value' → (make value).Alike (make' value'))
      (Parser.assignmentTo? e) (Parser.assignmentTo? e') := by
  have same (c : Context) : (Parser.assignmentTo? e).map (fun make value => (make value).levelled c) =
      (Parser.assignmentTo? e').map (fun make value => (make value).levelled c) := by
    rw [assignmentTo?_levelled, assignmentTo?_levelled, alike]
  cases known : Parser.assignmentTo? e with
  | none =>
    cases known' : Parser.assignmentTo? e' with
    | none => exact .none
    | some make' => exact absurd (same .start) (by simp [known, known'])
  | some make =>
    cases known' : Parser.assignmentTo? e' with
    | none => exact absurd (same .start) (by simp [known, known'])
    | some make' =>
      simp only [known, known', Option.map_some, Option.some.injEq] at same
      exact .some fun value value' alikeValues c => (congrFun (same c) value).trans (assign known' alikeValues c)

end Expr.Alike

inductive SyntaxError.Alike : SyntaxError → SyntaxError → Prop
  | same {error} : Alike error error
  | importSource {source source'} (alike : source.Alike source') : Alike (.importSource source) (.importSource source')
  | unnamedExport {value value'} (alike : value.Alike value') : Alike (.unnamedExport value) (.unnamedExport value')

structure Beside (around : Setting) (depth : Nat) (tokens : List (Token × Nat)) (p q : Parser) : Prop where
  line : p.ahead.source.line = q.ahead.source.line
  long : p.Faces (tokens ++ around.later)
  alone : q.Faces tokens
  scopes : ScopesBeside around depth p.scopes q.scopes
  own {name : String} (declared : name ∈ declaredNames tokens) : name ∈ around.own

structure AtHand (around : Setting) (depth : Nat) (t : Token × Nat) (rest : List (Token × Nat)) (p q : Parser) :
    Prop where
  segment : IsSegment (t :: rest)
  beside : Beside around depth (t :: rest) p q
  held : p.ahead.held = some t
  heldAlone : q.ahead.held = some t

inductive Agrees {α : Type} (around : Setting) (depth : Nat) (done : α → α → Parser → Parser → Prop) :
    EStateM.Result ParseError Parser α → EStateM.Result ParseError Parser α → Prop
  | starved {p r} : Agrees around depth done (.error .outOfSteps p) r
  | starvedAlone {r q} : Agrees around depth done r (.error .outOfSteps q)
  | ok {a b p q} (result : done a b p q) : Agrees around depth done (.ok a p) (.ok b q)
  | error {line error error' tokens p q} (alike : SyntaxError.Alike error error')
    (within : tokens = [] ∨ IsSegment tokens) (beside : Beside around depth tokens p q) :
    Agrees around depth done (.error (.malformed line error) p) (.error (.malformed line error') q)

/-- Two rules agree, the first on `p` and the second on `q`. -/
def Agree {α : Type} (around : Setting) (depth : Nat) (done : α → α → Parser → Parser → Prop) (p q : Parser)
    (act act' : Parsing α) : Prop :=
  Agrees around depth done (act p) (act' q)

def Stands (around : Setting) (stmt stmt' : Stmt) (p q : Parser) : Prop :=
  stmt.Alike stmt' ∧ p.Faces around.later ∧ q.Faces [] ∧ ScopesBeside around 1 p.scopes q.scopes

def StillInside {α : Type} (around : Setting) (depth : Nat) (alike : α → α → Prop) (a b : α) (p q : Parser) : Prop :=
  alike a b ∧ ∃ tokens, IsSegment tokens ∧ Beside around depth tokens p q

def Never {α : Type} (_ _ : α) (_ _ : Parser) : Prop := False

namespace Beside

variable {around : Setting} {depth : Nat} {t : Token × Nat} {rest tokens : List (Token × Nat)} {p q : Parser}

theorem line_eq (beside : Beside around depth tokens p q) : p.ahead.line = q.ahead.line := by
  rw [beside.long.line_eq, beside.alone.line_eq, beside.line]

theorem peek (segment : IsSegment tokens) (beside : Beside around depth tokens p q) : ∃ t rest p' q',
    Parser.peekKind p = .ok t.1.kind p' ∧ Parser.peekKind q = .ok t.1.kind q' ∧ AtHand around depth t rest p' q' := by
  obtain ⟨t, rest, rfl⟩ := segment.exists_cons
  obtain ⟨ahead, looked, held, line, long⟩ := beside.long.peek
  obtain ⟨ahead', looked', held', line', alone⟩ := beside.alone.peek
  exact ⟨t, rest, _, _, looked, looked', segment, ⟨line.trans line'.symm, long, alone, beside.scopes, beside.own⟩,
    held, held'⟩

theorem take (beside : Beside around depth (t :: rest) p q) :
    ∃ p' q', Parser.take p = .ok t.1 p' ∧ Parser.take q = .ok t.1 q' ∧ Beside around depth rest p' q' := by
  obtain ⟨ahead, taken, line, long⟩ := beside.long.take
  obtain ⟨ahead', taken', line', alone⟩ := beside.alone.take
  exact ⟨_, _, taken, taken', line.trans line'.symm, long, alone, beside.scopes, fun declared =>
    beside.own (declaredNames_of_rest declared)⟩

theorem withScopes {depth' : Nat} {scopes alone : ScopeStack} (beside : Beside around depth tokens p q)
    (other : ScopesBeside around depth' scopes alone) :
    Beside around depth' tokens { p with scopes } { q with scopes := alone } :=
  ⟨beside.line, ⟨beside.long.pending, beside.long.line⟩, ⟨beside.alone.pending, beside.alone.line⟩, other, beside.own⟩

end Beside

theorem Agrees.withScopes {α : Type} {around : Setting} {depth depth' : Nat}
    (after afterAlone : Parser → ScopeStack)
    (beside : ∀ {p q : Parser}, ScopesBeside around depth' p.scopes q.scopes →
      ScopesBeside around depth (after p) (afterAlone q))
    (result result' : EStateM.Result ParseError Parser α) : Agrees around depth' Never result result' →
    Agrees around depth Never
      (match result with
      | .ok a p => .ok a { p with scopes := after p }
      | .error e p => .error e { p with scopes := after p })
      (match result' with
      | .ok a q => .ok a { q with scopes := afterAlone q }
      | .error e q => .error e { q with scopes := afterAlone q }) := by
  intro agrees
  cases agrees with
  | starved => exact .starved
  | starvedAlone => cases result <;> exact .starvedAlone
  | ok never => exact never.elim
  | error alike within readings => exact .error alike within (readings.withScopes (beside readings.scopes))

theorem AtHand.discard {around : Setting} {depth : Nat} {t : Token × Nat} {rest : List (Token × Nat)} {p q : Parser}
    (atHand : AtHand around depth t rest p q) :
    Beside around depth rest { p with ahead := p.ahead.discard } { q with ahead := q.ahead.discard } :=
  ⟨atHand.beside.line, atHand.beside.long.discard atHand.held, atHand.beside.alone.discard atHand.heldAlone,
    atHand.beside.scopes, fun declared => atHand.beside.own (declaredNames_of_rest declared)⟩

namespace Agree

variable {α β : Type} {around : Setting} {depth : Nat} {done : α → α → Parser → Parser → Prop}
  {done' : β → β → Parser → Parser → Prop} {p q : Parser} {t : Token × Nat} {tokens rest : List (Token × Nat)}

theorem bind {act act' : Parsing α} {next next' : α → Parsing β} (first : Agree around depth done p q act act')
    (second : ∀ a b p' q', done a b p' q' → Agree around depth done' p' q' (next a) (next' b)) :
    Agree around depth done' p q (act >>= next) (act' >>= next') := by
  simp only [Agree, Bind.bind, EStateM.bind] at *
  generalize act p = r at *
  generalize act' q = r' at *
  cases first with
  | starved => exact .starved
  | starvedAlone => cases r <;> exact .starvedAlone
  | ok result => exact second _ _ _ _ result
  | error alike within beside => exact .error alike within beside

theorem of_never {act act' : Parsing α} (agree : Agree around depth Never p q act act') :
    Agree around depth done p q act act' := by
  unfold Agree at *
  generalize act p = r at *
  generalize act' q = r' at *
  cases agree with
  | starved => exact .starved
  | starvedAlone => exact .starvedAlone
  | ok result => exact result.elim
  | error alike within beside => exact .error alike within beside

theorem never_bind {act act' : Parsing α} {next next' : α → Parsing β} (first : Agree around depth Never p q act act') :
    Agree around depth done' p q (act >>= next) (act' >>= next') :=
  first.bind fun _ _ _ _ => False.elim

theorem pure {a b : α} (result : done a b p q) : Agree around depth done p q (Pure.pure a) (Pure.pure b) := .ok result

theorem stands {stmt stmt' : Stmt} (alike : stmt.Alike stmt') (beside : Beside around 1 [] p q) :
    Agree around 1 (Stands around) p q (Pure.pure stmt) (Pure.pure stmt') :=
  .ok ⟨alike, beside.long, beside.alone, beside.scopes⟩

theorem fail {error error' : SyntaxError} (alike : error.Alike error') (within : tokens = [] ∨ IsSegment tokens)
    (beside : Beside around depth tokens p q) :
    Agree around depth done p q (Parser.fail error) (Parser.fail error') := by
  simp only [Agree, Parser.fail, beside.line_eq]
  exact .error alike within beside

theorem peek {next next' : TokenKind → Parsing β} (segment : IsSegment tokens) (beside : Beside around depth tokens p q)
    (later : ∀ t rest p' q', AtHand around depth t rest p' q' →
      Agree around depth done' p' q' (next t.1.kind) (next' t.1.kind)) :
    Agree around depth done' p q (Parser.peekKind >>= next) (Parser.peekKind >>= next') := by
  obtain ⟨t, rest, p', q', looked, looked', atHand⟩ := beside.peek segment
  simp only [Agree, Bind.bind, EStateM.bind, looked, looked']
  exact later t rest p' q' atHand

theorem discard {next next' : Unit → Parsing β} (atHand : AtHand around depth t rest p q)
    (later : ∀ p' q', Beside around depth rest p' q' → Agree around depth done' p' q' (next ()) (next' ())) :
    Agree around depth done' p q (Parser.discard >>= next) (Parser.discard >>= next') :=
  later _ _ atHand.discard

theorem discardSemicolon {next next' : Unit → Parsing β} (atHand : AtHand around depth t rest p q)
    (semicolon : t.1.kind = .semicolon) (later : ∀ p' q', Beside around depth [] p' q' →
      Agree around depth done' p' q' (next ()) (next' ())) :
    Agree around depth done' p q (Parser.discard >>= next) (Parser.discard >>= next') := by
  cases atHand.segment.rest_eq_nil semicolon
  exact .discard atHand later

theorem take {next next' : Token → Parsing β} (segment : IsSegment tokens) (beside : Beside around depth tokens p q)
    (later : ∀ t rest p' q', tokens = t :: rest → IsSegment (t :: rest) → Beside around depth rest p' q' →
      Agree around depth done' p' q' (next t.1) (next' t.1)) :
    Agree around depth done' p q (Parser.take >>= next) (Parser.take >>= next') := by
  obtain ⟨t, rest, rfl⟩ := segment.exists_cons
  obtain ⟨p', q', taken, taken', beside⟩ := beside.take
  simp only [Agree, Bind.bind, EStateM.bind, taken, taken']
  exact later t rest p' q' rfl segment beside

theorem expect {next next' : Token → Parsing β} {kinds : List TokenKind} (segment : IsSegment tokens)
    (beside : Beside around depth tokens p q)
    (later : ∀ t rest p' q', tokens = t :: rest → t.1.kind ∈ kinds → IsSegment (t :: rest) →
      Beside around depth rest p' q' → Agree around depth done' p' q' (next t.1) (next' t.1)) :
    Agree around depth done' p q (Parser.expect kinds >>= next) (Parser.expect kinds >>= next') := by
  unfold Parser.expect
  simp only [bind_assoc]
  refine .take segment beside fun t rest p' q' shape segment beside => ?_
  split
  · next known =>
    simp only [pure_bind]
    exact later t rest p' q' shape known segment beside
  · exact .never_bind (.fail .same segment.rest_or_nil beside)

theorem expectInner {next next' : Token → Parsing β} {kinds : List TokenKind} (segment : IsSegment tokens)
    (beside : Beside around depth tokens p q) (inner : .semicolon ∉ kinds)
    (later : ∀ token tokens p' q', token.kind ∈ kinds → IsSegment tokens → Beside around depth tokens p' q' →
      Agree around depth done' p' q' (next token) (next' token)) :
    Agree around depth done' p q (Parser.expect kinds >>= next) (Parser.expect kinds >>= next') :=
  .expect segment beside fun t rest p' q' _ known segment beside =>
    later t.1 rest p' q' known (segment.rest_of_ne fun semicolon => inner (semicolon ▸ known)) beside

theorem expectSemicolon {next next' : Token → Parsing β} (segment : IsSegment tokens)
    (beside : Beside around depth tokens p q)
    (later : ∀ token p' q', Beside around depth [] p' q' →
      Agree around depth done' p' q' (next token) (next' token)) :
    Agree around depth done' p q (Parser.expect [.semicolon] >>= next) (Parser.expect [.semicolon] >>= next') := by
  refine .expect segment beside fun t rest p' q' _ known segment beside => ?_
  cases segment.rest_eq_nil (List.mem_singleton.mp known)
  exact later t.1 p' q' beside

theorem expectBrace {next next' : Token → Parsing β} (segment : IsSegment tokens)
    (beside : Beside around depth tokens p q) :
    Agree around depth done' p q (Parser.expect [.leftBrace] >>= next) (Parser.expect [.leftBrace] >>= next') :=
  .expect segment beside fun t _ _ _ _ known segment _ => by
    rw [List.mem_singleton] at known
    exact absurd (segment.kind_not_mem List.mem_cons_self) (by rw [known]; decide)

theorem identifier {next next' : String → Parsing β} (segment : IsSegment tokens)
    (beside : Beside around depth tokens p q)
    (later : ∀ t rest p' q', tokens = t :: rest → t.1.kind = .identifier → IsSegment rest →
      Beside around depth rest p' q' → Agree around depth done' p' q' (next t.1.lexeme) (next' t.1.lexeme)) :
    Agree around depth done' p q (Parser.identifier >>= next) (Parser.identifier >>= next') := by
  unfold Parser.identifier
  simp only [bind_assoc, pure_bind]
  refine .expect segment beside fun t rest p' q' shape known segment beside => ?_
  have isName := List.mem_singleton.mp known
  exact later t rest p' q' shape isName (segment.rest_of_ne (by rw [isName]; decide)) beside

theorem resolve (name : String) (beside : Beside around depth tokens p q) :
    Agree around depth (fun _ _ p' q' => Beside around depth tokens p' q') p q (Parser.resolve name)
      (Parser.resolve name) :=
  .ok beside

theorem declare {name : String} (within : tokens = [] ∨ IsSegment tokens) (beside : Beside around depth tokens p q)
    (own : depth = 1 → name ∈ around.own) :
    Agree around depth (fun _ _ p' q' => Beside around depth tokens p' q') p q (Parser.declare name)
      (Parser.declare name) := by
  unfold Agree Parser.declare
  rcases beside.scopes.declare? own with ⟨failed, failed'⟩ | ⟨next, next', declared, declared', scopes⟩
  · simp only [failed, failed']
    exact Agree.fail .same within beside
  · simp only [declared, declared']
    exact .ok (beside.withScopes scopes)

theorem introduce {word : TokenKind} {next next' : String → Parsing β} (declares : word ∈ [.varWord, .functionWord])
    (segment : IsSegment tokens) (beside : Beside around depth tokens p q)
    (later : ∀ name tokens p' q', IsSegment tokens → Beside around depth tokens p' q' →
      Agree around depth done' p' q' (next name) (next' name)) :
    Agree around depth done' p q
      (do
        let _ ← Parser.expect [word]
        let name ← Parser.identifier
        Parser.declare name
        next name)
      (do
        let _ ← Parser.expect [word]
        let name ← Parser.identifier
        Parser.declare name
        next' name) := by
  have own := @beside.own
  refine .expect segment beside fun first others p' q' shape isWord segment beside => ?_
  have isWord := List.mem_singleton.mp isWord
  have inner : IsSegment others := segment.rest_of_ne fun semicolon => by
    rw [← isWord, semicolon] at declares
    exact absurd declares (by decide)
  refine .identifier inner beside fun second rest p' q' shape' isName goesOn beside => ?_
  have declared : second.1.lexeme ∈ declaredNames tokens := by
    rw [shape, shape', declaredNames, if_pos ⟨isWord ▸ declares, isName⟩]
    exact List.mem_cons_self
  exact (Agree.declare (.inr goesOn) beside fun _ => own declared).bind fun _ _ p' q' => later _ _ p' q' goesOn

theorem declareAll {names : List String} (within : tokens = [] ∨ IsSegment tokens)
    (beside : Beside around depth tokens p q) (inner : depth ≠ 1) :
    Agree around depth (fun _ _ p' q' => Beside around depth tokens p' q') p q (Parser.declareAll names)
      (Parser.declareAll names) := by
  induction names generalizing p q with
  | nil => exact .ok beside
  | cons name rest ih =>
    exact (Agree.declare within beside fun outer => absurd outer inner).bind fun _ _ p' q' beside => ih beside

theorem inScope {act act' : Parsing α} (outer : 1 ≤ depth)
    (inside : Agree around (depth + 1) Never { p with scopes := p.scopes.begin } { q with scopes := q.scopes.begin }
      act act') : Agree around depth Never p q (Parser.inScope act) (Parser.inScope act') :=
  Agrees.withScopes (fun p => p.scopes.finish) (fun q => q.scopes.finish) (fun scopes => scopes.finish outer) _ _ inside

theorem inMethod {act act' : Parsing α} (scopes : ScopesBeside around depth p.scopes q.scopes)
    (inside : Agree around 2 Never { p with scopes := p.scopes.forMethod } { q with scopes := q.scopes.forMethod }
      act act') : Agree around depth Never p q (Parser.inMethod act) (Parser.inMethod act') :=
  Agrees.withScopes (fun _ => p.scopes) (fun _ => q.scopes) (fun _ => scopes) _ _ inside

end Agree

end HookScript
