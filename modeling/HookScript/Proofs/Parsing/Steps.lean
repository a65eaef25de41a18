import HookScript.Program.Parser

/-!
Tokens that are left. A rule of the parser takes tokens and complains about the text, and it never gets more tokens
than it began with. How much of the text a rule has used up is the tokens that it began with less those that are left.
-/

namespace HookScript

namespace Parser

def left (p : Parser) : Nat :=
  match p.ahead.held with
  | some (token, _) => p.ahead.source.rest.length + if token.kind = .endOfFile then 0 else 1
  | none => p.ahead.source.rest.length

def Holds (p : Parser) : Prop := ∃ token line, p.ahead.held = some (token, line) ∧ token.kind ≠ .endOfFile

structure After (p : Parser) (k : Nat) (q : Parser) : Prop where
  left : q.left + k ≤ p.left
  steps : q.steps = p.steps
  holds (none : q.left = p.left) (at_hand : p.Holds) : q.Holds

namespace After

variable {p q r : Parser} {j k : Nat}

theorem refl (p : Parser) : p.After 0 p := ⟨Nat.le_refl _, rfl, fun _ => id⟩

theorem trans (first : p.After j q) (second : q.After k r) : p.After (j + k) r where
  left := by
    have := first.left
    have := second.left
    omega
  steps := second.steps.trans first.steps
  holds none at_hand := by
    have := first.left
    have := second.left
    exact second.holds (by omega) (first.holds (by omega) at_hand)

theorem mono (after : p.After k q) (fewer : j ≤ k) : p.After j q where
  left := by
    have := after.left
    omega
  steps := after.steps
  holds := after.holds

theorem of_ahead_eq (same : q.ahead = p.ahead) (steps : q.steps = p.steps) : p.After 0 q := by
  refine ⟨?_, steps, fun _ => ?_⟩
  · rw [Parser.left, Parser.left, same]
    exact Nat.le_refl _
  · rw [Holds, Holds, same]
    exact id

end After

inductive Spent {α : Type} (m : Nat) (p : Parser) : EStateM.Result ParseError Parser α → Prop
  | ok {a q} (after : p.After m q) : Spent m p (.ok a q)
  | error {e q} (known : e ≠ .outOfSteps) (after : p.After 0 q) : Spent m p (.error e q)

theorem Spent.withScopes {α : Type} {m : Nat} {p : Parser} {scopes : ScopeStack}
    {result : EStateM.Result ParseError Parser α} (spent : Spent m { p with scopes } result)
    (after : Parser → ScopeStack) :
    Spent m p (match result with
      | .ok a q => .ok a { q with scopes := after q }
      | .error e q => .error e { q with scopes := after q }) := by
  cases spent with
  | ok taken => exact .ok ⟨taken.left, taken.steps, taken.holds⟩
  | error known taken => exact .error known ⟨taken.left, taken.steps, taken.holds⟩

/-- How the rest of a rule ends that began with `p` and goes on with `q`. -/
def Spends {α : Type} (m : Nat) (p q : Parser) (act : Parsing α) : Prop := Spent m p (act q)

section Primitives

theorem peekKind_cases (p : Parser) :
    (∃ token line q, peekKind p = .ok token.kind q ∧ q.ahead.held = some (token, line) ∧ p.After 0 q) ∨
      ∃ failure q, peekKind p = .error (.unreadable failure) q ∧ p.After 0 q := by
  obtain ⟨⟨⟨scans, line⟩, held⟩, scopes, steps⟩ := p
  cases held with
  | some front => exact .inl ⟨front.1, front.2, _, rfl, rfl, .refl _⟩
  | none =>
    cases scans with
    | nil => exact .inl ⟨_, _, _, rfl, rfl, by simp [left, Token.ofKind], rfl, fun _ => nofun⟩
    | cons first rest =>
      obtain ⟨result, reached⟩ := first
      cases result with
      | ok token =>
        refine .inl ⟨token, reached, _, rfl, rfl, ?_, rfl, fun _ => nofun⟩
        simp only [left, List.length_cons]
        split <;> omega
      | error failure => exact .inr ⟨failure, _, rfl, by simp [left], rfl, fun _ => nofun⟩

theorem take_cases (p : Parser) :
    (∃ token q, take p = .ok token q ∧ p.After (if token.kind = .endOfFile then 0 else 1) q ∧
      (p.Holds → token.kind ≠ .endOfFile)) ∨
      ∃ failure q, take p = .error (.unreadable failure) q ∧ p.After 0 q := by
  obtain ⟨⟨⟨scans, line⟩, held⟩, scopes, steps⟩ := p
  cases held with
  | some front =>
    obtain ⟨token, reached⟩ := front
    have real : Holds ⟨⟨⟨scans, line⟩, some (token, reached)⟩, scopes, steps⟩ → token.kind ≠ .endOfFile := by
      rintro ⟨_, _, same, real⟩
      cases same
      exact real
    refine .inl ⟨token, _, rfl, ⟨by simp only [left]; omega, rfl, ?_⟩, real⟩
    intro none at_hand
    simp [left, real at_hand] at none
  | none =>
    cases scans with
    | nil =>
      exact .inl ⟨_, _, rfl,
        ⟨by simp [left, Token.ofKind, TokenSource.next, ScanList.next], rfl, fun _ => nofun⟩, nofun⟩
    | cons first rest =>
      obtain ⟨result, reached⟩ := first
      cases result with
      | ok token =>
        refine .inl ⟨token, _, rfl, ⟨?_, rfl, fun _ => nofun⟩, nofun⟩
        simp only [left, TokenSource.next, ScanList.next, List.length_cons]
        split <;> omega
      | error failure =>
        exact .inr ⟨failure, _, rfl, by simp [left, TokenSource.next, ScanList.next], rfl, fun _ => nofun⟩

theorem after_discard {p : Parser} {token : Token} {line : Nat} (held : p.ahead.held = some (token, line))
    (more : token.kind ≠ .endOfFile) : discard p = .ok () { p with ahead := p.ahead.discard } ∧
      p.After 1 { p with ahead := p.ahead.discard } := by
  have fewer : left { p with ahead := p.ahead.discard } + 1 = p.left := by
    simp [left, held, more, Lookahead.discard]
  exact ⟨rfl, Nat.le_of_eq fewer, rfl, fun none => by omega⟩

end Primitives

namespace Spends

variable {α β : Type} {m j k : Nat} {p q : Parser}

theorem since {act : Parsing α} (after : p.After k q) (spends : Spends j q q act) (fewer : m ≤ k + j) :
    Spends m p q act := by
  unfold Spends at *
  generalize act q = result at *
  cases spends with
  | ok later => exact .ok ((after.trans later).mono fewer)
  | error known later => exact .error known ((after.trans later).mono (Nat.zero_le _))

theorem bind {act : Parsing α} {rest : α → Parsing β} (after : p.After k q) (first : Spends j q q act)
    (second : ∀ a r, p.After (k + j) r → Spends m p r (rest a)) : Spends m p q (act >>= rest) := by
  simp only [Spends, Bind.bind, EStateM.bind] at *
  cases ran : act q with
  | ok a r =>
    rw [ran] at first
    cases first with
    | ok later => exact second a r (after.trans later)
  | error e r =>
    rw [ran] at first
    cases first with
    | error known later => exact .error known ((after.trans later).mono (Nat.zero_le _))

theorem pure {a : α} (after : p.After k q) (fewer : m ≤ k) : Spends m p q (Pure.pure a) := .ok (after.mono fewer)

theorem fail (after : p.After k q) (error : SyntaxError) : Spends m p q (Parser.fail error : Parsing α) :=
  .error nofun (after.mono (Nat.zero_le _))

variable {γ : Type}

theorem peek {rest : TokenKind → Parsing γ} (after : p.After k q)
    (later : ∀ token line r, r.ahead.held = some (token, line) → p.After k r → Spends m p r (rest token.kind)) :
    Spends m p q (peekKind >>= rest) := by
  simp only [Spends, Bind.bind, EStateM.bind] at *
  rcases peekKind_cases q with ⟨token, line, r, ran, held, since⟩ | ⟨failure, r, ran, since⟩
  · rw [ran]
    exact later token line r held (after.trans since)
  · rw [ran]
    exact .error nofun ((after.trans since).mono (Nat.zero_le _))

theorem discard {rest : Unit → Parsing γ} (after : p.After k q) {token : Token} {line : Nat}
    (held : q.ahead.held = some (token, line)) (more : token.kind ≠ .endOfFile)
    (later : ∀ r, p.After (k + 1) r → Spends m p r (rest ())) : Spends m p q (Parser.discard >>= rest) := by
  obtain ⟨ran, since⟩ := after_discard held more
  simp only [Spends, Bind.bind, EStateM.bind, ran] at *
  exact later _ (after.trans since)

theorem take {rest : Token → Parsing γ} (after : p.After k q)
    (later : ∀ token r, p.After (k + if token.kind = .endOfFile then 0 else 1) r →
      (q.Holds → token.kind ≠ .endOfFile) → Spends m p r (rest token)) :
    Spends m p q (Parser.take >>= rest) := by
  simp only [Spends, Bind.bind, EStateM.bind] at *
  rcases take_cases q with ⟨token, r, ran, since, real⟩ | ⟨failure, r, ran, since⟩
  · rw [ran]
    exact later token r (after.trans since) real
  · rw [ran]
    exact .error nofun ((after.trans since).mono (Nat.zero_le _))

theorem expect {rest : Token → Parsing γ} {kinds : List TokenKind} (after : p.After k q)
    (real : .endOfFile ∉ kinds)
    (later : ∀ token r, token.kind ∈ kinds → p.After (k + 1) r → Spends m p r (rest token)) :
    Spends m p q (Parser.expect kinds >>= rest) := by
  unfold Parser.expect
  rw [bind_assoc]
  refine .take after fun token r since _ => ?_
  split
  · next known =>
    rw [pure_bind]
    refine later token r known ?_
    have more : token.kind ≠ .endOfFile := fun ending => real (ending ▸ known)
    rwa [if_neg more] at since
  · exact .error nofun (since.mono (Nat.zero_le _))

theorem identifier {rest : String → Parsing γ} (after : p.After k q)
    (later : ∀ name r, p.After (k + 1) r → Spends m p r (rest name)) :
    Spends m p q (Parser.identifier >>= rest) := by
  unfold Parser.identifier
  rw [bind_assoc]
  refine .expect after (by decide) fun token r _ since => ?_
  rw [pure_bind]
  exact later token.lexeme r since

theorem declare (name : String) (p : Parser) : Spends 0 p p (Parser.declare name) := by
  unfold Spends Parser.declare
  split
  · exact .ok (.of_ahead_eq rfl rfl)
  · exact .error nofun (.refl p)

theorem declareAll (names : List String) (p : Parser) : Spends 0 p p (Parser.declareAll names) := by
  induction names generalizing p with
  | nil => exact .ok (.refl p)
  | cons name rest ih =>
    exact .bind (.refl p) (.declare name p) fun _ q after => .since after (ih q) (Nat.zero_le _)

theorem resolve (name : String) (p : Parser) : Spends 0 p p (Parser.resolve name) := .ok (.refl p)

theorem inScope {act : Parsing α} (inside : ∀ scopes, Spends m { p with scopes } { p with scopes } act) :
    Spends m p p (Parser.inScope act) :=
  (inside p.scopes.begin).withScopes fun q => q.scopes.finish

theorem inMethod {act : Parsing α} (inside : ∀ scopes, Spends m { p with scopes } { p with scopes } act) :
    Spends m p p (Parser.inMethod act) :=
  (inside p.scopes.forMethod).withScopes fun _ => p.scopes

end Spends

end Parser

end HookScript
