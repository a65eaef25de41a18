import HookScript.Proofs.Lexing.Scans
import HookScript.Proofs.Parsing.Segment

/-!
What the parser has taken. Between two of its states lie the scans that have been taken since the first: tokens that
were used up, ends of the file and failures of the reader. Lines never go back on the way. Among the tokens that have
been taken, a name that is declared at the top of a file stands outside all brackets.
-/

namespace HookScript

namespace Scan

def token? (scan : Scan) : Option (Token × Nat) :=
  match scan.result with
  | .ok token => some (token, scan.line)
  | .error _ => none

theorem token?_ofToken (t : Token × Nat) : (ofToken t).token? = some t := rfl

theorem filterMap_token?_ofToken (tokens : List (Token × Nat)) :
    (tokens.map ofToken).filterMap token? = tokens := by
  induction tokens with
  | nil => rfl
  | cons t rest ih => rw [List.map_cons, List.filterMap_cons, token?_ofToken, ih]

def IsSpent (scan : Scan) : Prop := scan.result = .ok (.ofKind .endOfFile)

end Scan

namespace Parser

/-- The line of the source is that of the token at hand. -/
def Synced (p : Parser) : Prop := ∀ t, p.ahead.held = some t → p.ahead.source.line = t.2

/-- The line that has been reached and those of the scans that are still to come. -/
def lines (p : Parser) : List Nat := p.ahead.source.line :: p.ahead.source.rest.map (·.line)

theorem Synced.line_eq {p : Parser} (synced : p.Synced) : p.ahead.line = p.ahead.source.line := by
  obtain ⟨⟨source, held⟩, scopes, steps⟩ := p
  cases held with
  | none => rfl
  | some t => exact (synced t rfl).symm

structure Took (p : Parser) (taken : List Scan) (q : Parser) : Prop where
  pending : ∃ spent, (∀ scan ∈ spent, scan.IsSpent) ∧ p.ahead.pending ++ spent = taken ++ q.ahead.pending
  lines : q.lines <:+ p.lines
  synced (before : p.Synced) : q.Synced
  steps : q.steps = p.steps

namespace Took

variable {p q r : Parser} {first second : List Scan}

theorem refl (p : Parser) : p.Took [] p := ⟨⟨[], nofun, List.append_nil _⟩, List.suffix_refl _, id, rfl⟩

theorem trans (early : p.Took first q) (late : q.Took second r) : p.Took (first ++ second) r where
  pending := by
    obtain ⟨spent, ends, early⟩ := early.pending
    obtain ⟨spent', ends', late⟩ := late.pending
    refine ⟨spent ++ spent', fun scan among => (List.mem_append.mp among).elim (ends scan) (ends' scan), ?_⟩
    rw [← List.append_assoc, early, List.append_assoc, late, List.append_assoc]
  lines := late.lines.trans early.lines
  synced before := late.synced (early.synced before)
  steps := late.steps.trans early.steps

end Took

theorem Took.all {p q : Parser} {taken : List Scan} {holds : Scan → Prop} (took : p.Took taken q)
    (atEnd : ∀ scan : Scan, scan.IsSpent → holds scan) (before : ∀ scan ∈ p.ahead.pending, holds scan) :
    (∀ scan ∈ taken, holds scan) ∧ ∀ scan ∈ q.ahead.pending, holds scan := by
  obtain ⟨spent, ends, same⟩ := took.pending
  have all : ∀ scan ∈ taken ++ q.ahead.pending, holds scan := by
    rw [← same]
    intro scan among
    exact (List.mem_append.mp among).elim (before scan) fun late => atEnd scan (ends scan late)
  exact ⟨fun scan among => all scan (List.mem_append_left _ among),
    fun scan among => all scan (List.mem_append_right _ among)⟩

/-- Every token that is still to come is spelled as its kind asks for. -/
def Proper (p : Parser) : Prop := ∀ scan ∈ p.ahead.pending, ∀ t ∈ scan.token?, t.1.IsProper

theorem Took.proper {p q : Parser} {taken : List Scan} (took : p.Took taken q) (before : p.Proper) :
    (∀ scan ∈ taken, ∀ t ∈ scan.token?, t.1.IsProper) ∧ q.Proper := by
  refine took.all (fun scan ends t found => ?_) before
  rw [Scan.token?, ends] at found
  cases Option.some.inj found
  exact .ofKind (by decide)

section Primitives

variable (p : Parser)

theorem peekKind_took :
    (∃ t q, peekKind p = .ok t.1.kind q ∧ q.ahead.held = some t ∧ p.Took [] q ∧ q.scopes = p.scopes) ∨
      ∃ failure line q, peekKind p = .error (.unreadable failure) q ∧ p.Took [⟨.error failure, line⟩] q ∧
        q.scopes = p.scopes := by
  obtain ⟨⟨⟨scans, line⟩, held⟩, scopes, steps⟩ := p
  cases held with
  | some t => exact .inl ⟨t, _, rfl, rfl, .refl _, rfl⟩
  | none =>
    cases scans with
    | nil =>
      refine .inl ⟨(.ofKind .endOfFile, line), _, rfl, rfl, ⟨⟨[⟨.ok (.ofKind .endOfFile), line⟩], ?_, rfl⟩, ?_, ?_, rfl⟩,
        rfl⟩
      · intro scan among
        rw [List.mem_singleton.mp among, Scan.IsSpent]
      · exact List.suffix_refl _
      · rintro - t held
        cases held
        rfl
    | cons first rest =>
      obtain ⟨result, reached⟩ := first
      cases result with
      | ok token =>
        refine .inl ⟨(token, reached), _, rfl, rfl, ⟨⟨[], nofun, List.append_nil _⟩, List.suffix_cons _ _, ?_, rfl⟩, rfl⟩
        rintro - t held
        cases held
        rfl
      | error failure =>
        exact .inr ⟨failure, reached, _, rfl,
          ⟨⟨[], nofun, List.append_nil _⟩, List.suffix_cons _ _, fun _ => nofun, rfl⟩, rfl⟩

theorem take_took :
    (∃ t q, take p = .ok t.1 q ∧ p.Took [.ofToken t] q ∧ q.scopes = p.scopes ∧ ∀ u ∈ p.ahead.held, t = u) ∨
      ∃ failure line q, take p = .error (.unreadable failure) q ∧ p.Took [⟨.error failure, line⟩] q ∧
        q.scopes = p.scopes := by
  obtain ⟨⟨⟨scans, line⟩, held⟩, scopes, steps⟩ := p
  cases held with
  | some t =>
    refine .inl ⟨t, _, rfl, ⟨⟨[], nofun, List.append_nil _⟩, List.suffix_refl _, fun _ => nofun, rfl⟩, rfl, ?_⟩
    intro u same
    exact Option.some.inj same
  | none =>
    cases scans with
    | nil =>
      refine .inl ⟨(.ofKind .endOfFile, line), _, rfl,
        ⟨⟨[⟨.ok (.ofKind .endOfFile), line⟩], ?_, rfl⟩, List.suffix_refl _, fun _ => nofun, rfl⟩, rfl, nofun⟩
      intro scan among
      rw [List.mem_singleton.mp among, Scan.IsSpent]
    | cons first rest =>
      obtain ⟨result, reached⟩ := first
      cases result with
      | ok token =>
        exact .inl ⟨(token, reached), _, rfl,
          ⟨⟨[], nofun, List.append_nil _⟩, List.suffix_cons _ _, fun _ => nofun, rfl⟩, rfl, nofun⟩
      | error failure =>
        exact .inr ⟨failure, reached, _, rfl,
          ⟨⟨[], nofun, List.append_nil _⟩, List.suffix_cons _ _, fun _ => nofun, rfl⟩, rfl⟩

theorem took_discard {t : Token × Nat} (held : p.ahead.held = some t) :
    p.Took [.ofToken t] { p with ahead := p.ahead.discard } := by
  obtain ⟨⟨source, front⟩, scopes, steps⟩ := p
  cases held
  exact ⟨⟨[], nofun, List.append_nil _⟩, List.suffix_refl _, fun _ => nofun, rfl⟩

end Primitives

end Parser

end HookScript
