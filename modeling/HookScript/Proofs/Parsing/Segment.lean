import HookScript.Program.Parser
import HookScript.Proofs.Scoping.Stack

/-!
Segments, the texts of statements without braces: tokens up to the semicolon that ends them. A segment can be read
where it stands, with other statements around it, or by itself. The two readings go side by side: they look at the
same tokens, and while both of them are inside the segment neither can see what is around it.
-/

namespace HookScript

namespace TokenKind

def Inner (kind : TokenKind) : Prop := kind ∉ [semicolon, leftBrace, rightBrace, elseWord, endOfFile]

instance (kind : TokenKind) : Decidable kind.Inner := inferInstanceAs (Decidable (_ ∉ _))

end TokenKind

namespace Scan

def ofToken (placed : Token × Nat) : Scan := ⟨.ok placed.1, placed.2⟩

theorem ofToken_injective {t u : Token × Nat} (same : ofToken t = ofToken u) : t = u := by
  obtain ⟨token, line⟩ := t
  obtain ⟨other, reached⟩ := u
  cases same
  rfl

def IsEnd (scan : Scan) : Prop := ∃ token, scan.result = .ok token ∧ token.kind = .endOfFile

end Scan

/-- The scans find these tokens, and after them nothing but the end of the file. -/
def Finds (scans : List Scan) (tokens : List (Token × Nat)) : Prop :=
  ∃ ending : List Scan, (∀ scan ∈ ending, scan.IsEnd) ∧ scans = tokens.map .ofToken ++ ending

inductive IsSegment : List (Token × Nat) → Prop
  | stop {t} (semicolon : t.1.kind = .semicolon) : IsSegment [t]
  | more {t rest} (inner : t.1.kind.Inner) (segment : IsSegment rest) : IsSegment (t :: rest)

/-- The names that come right after `var` and `function`. -/
def declaredNames : List (Token × Nat) → List String
  | first :: second :: rest =>
    if first.1.kind ∈ [.varWord, .functionWord] ∧ second.1.kind = .identifier then
      second.1.lexeme :: declaredNames (second :: rest)
    else declaredNames (second :: rest)
  | _ => []

namespace IsSegment

variable {t : Token × Nat} {rest : List (Token × Nat)}

theorem kind_cases (segment : IsSegment (t :: rest)) :
    t.1.kind = .semicolon ∧ rest = [] ∨ t.1.kind.Inner ∧ IsSegment rest := by
  cases segment with
  | stop semicolon => exact .inl ⟨semicolon, rfl⟩
  | more inner segment => exact .inr ⟨inner, segment⟩

theorem rest_of_ne (segment : IsSegment (t :: rest)) (more : t.1.kind ≠ .semicolon) : IsSegment rest := by
  rcases segment.kind_cases with ⟨semicolon, -⟩ | ⟨-, goesOn⟩
  · exact absurd semicolon more
  · exact goesOn

theorem rest_eq_nil (segment : IsSegment (t :: rest)) (semicolon : t.1.kind = .semicolon) : rest = [] := by
  rcases segment.kind_cases with ⟨-, ended⟩ | ⟨inner, -⟩
  · exact ended
  · rw [semicolon] at inner
    exact absurd inner (by decide)

theorem exists_cons {tokens : List (Token × Nat)} (segment : IsSegment tokens) : ∃ t rest, tokens = t :: rest := by
  cases segment with
  | stop => exact ⟨_, _, rfl⟩
  | more => exact ⟨_, _, rfl⟩

theorem rest_or_nil (segment : IsSegment (t :: rest)) : rest = [] ∨ IsSegment rest := by
  rcases segment.kind_cases with ⟨-, ended⟩ | ⟨-, goesOn⟩
  · exact .inl ended
  · exact .inr goesOn

theorem kind_not_mem {tokens : List (Token × Nat)} (segment : IsSegment tokens) {t : Token × Nat}
    (within : t ∈ tokens) : t.1.kind ∉ [.leftBrace, .rightBrace, .elseWord, .endOfFile] := by
  induction segment with
  | stop semicolon =>
    cases List.mem_singleton.mp within
    rw [semicolon]
    decide
  | more inner _ ih =>
    rcases List.mem_cons.mp within with rfl | within
    · exact fun outer => inner (List.mem_cons_of_mem _ outer)
    · exact ih within

end IsSegment

theorem declaredNames_of_rest {t : Token × Nat} {rest : List (Token × Nat)} {name : String}
    (declared : name ∈ declaredNames rest) : name ∈ declaredNames (t :: rest) := by
  cases rest with
  | nil => cases declared
  | cons second others =>
    rw [declaredNames]
    split
    · exact List.mem_cons_of_mem _ declared
    · exact declared

/-- The scans that are still to be taken, the held one first. -/
def Lookahead.pending (ahead : Lookahead ScanList) : List Scan := (ahead.held.map .ofToken).toList ++ ahead.source.rest

structure Parser.Faces (p : Parser) (tokens : List (Token × Nat)) : Prop where
  pending : Finds p.ahead.pending tokens
  line {t : Token × Nat} (held : p.ahead.held = some t) : p.ahead.source.line = t.2

namespace Parser.Faces

variable {p : Parser} {t : Token × Nat} {rest tokens : List (Token × Nat)}

theorem line_eq (faces : p.Faces tokens) : p.ahead.line = p.ahead.source.line := by
  obtain ⟨⟨source, held⟩, scopes, steps⟩ := p
  cases held with
  | none => rfl
  | some t => exact (faces.line rfl).symm

theorem ahead_cases (faces : p.Faces (t :: rest)) : ∃ scans, Finds scans rest ∧
    (p.ahead = ⟨⟨scans, t.2⟩, some t⟩ ∨ ∃ line, p.ahead = ⟨⟨.ofToken t :: scans, line⟩, none⟩) := by
  obtain ⟨⟨ending, atEnd, pending⟩, line⟩ := faces
  obtain ⟨⟨⟨scans, reached⟩, held⟩, scopes, steps⟩ := p
  refine ⟨rest.map .ofToken ++ ending, ⟨ending, atEnd, rfl⟩, ?_⟩
  cases held with
  | none =>
    cases pending
    exact .inr ⟨reached, rfl⟩
  | some front =>
    obtain ⟨same, later⟩ := List.cons.inj pending
    cases Scan.ofToken_injective same
    cases line rfl
    cases later
    exact .inl rfl

theorem of_held {scans : List Scan} (found : Finds scans rest) (held : p.ahead = ⟨⟨scans, t.2⟩, some t⟩) :
    p.Faces (t :: rest) := by
  obtain ⟨ending, atEnd, rfl⟩ := found
  refine ⟨⟨ending, atEnd, by rw [held]; rfl⟩, fun front => ?_⟩
  rw [held] at front ⊢
  cases front
  rfl

theorem of_free {scans : List Scan} {line : Nat} (found : Finds scans tokens)
    (free : p.ahead = ⟨⟨scans, line⟩, none⟩) : p.Faces tokens := by
  refine ⟨by rw [free]; exact found, fun front => ?_⟩
  rw [free] at front
  cases front

theorem peek (faces : p.Faces (t :: rest)) : ∃ ahead, peekKind p = .ok t.1.kind { p with ahead } ∧
    ahead.held = some t ∧ ahead.source.line = t.2 ∧ Parser.Faces { p with ahead } (t :: rest) := by
  obtain ⟨scans, found, held⟩ := faces.ahead_cases
  refine ⟨⟨⟨scans, t.2⟩, some t⟩, ?_, rfl, rfl, .of_held found rfl⟩
  rcases held with same | ⟨line, same⟩
  · rw [peekKind, same]
    rfl
  · rw [peekKind, same]
    rfl

theorem take (faces : p.Faces (t :: rest)) : ∃ ahead, Parser.take p = .ok t.1 { p with ahead } ∧
    ahead.source.line = t.2 ∧ Parser.Faces { p with ahead } rest := by
  obtain ⟨scans, found, held⟩ := faces.ahead_cases
  refine ⟨⟨⟨scans, t.2⟩, none⟩, ?_, rfl, .of_free found rfl⟩
  rcases held with same | ⟨line, same⟩
  · rw [Parser.take, same]
    rfl
  · rw [Parser.take, same]
    rfl

theorem discard (faces : p.Faces (t :: rest)) (held : p.ahead.held = some t) :
    Parser.Faces { p with ahead := p.ahead.discard } rest := by
  obtain ⟨scans, found, same | ⟨line, free⟩⟩ := faces.ahead_cases
  · exact .of_free found (by rw [same]; rfl)
  · rw [free] at held
    cases held

theorem nil_cases (faces : p.Faces []) : ∃ token line, token.kind = .endOfFile ∧
    ∃ scans, (∀ scan ∈ scans, Scan.IsEnd scan) ∧ (p.ahead = ⟨⟨scans, line⟩, some (token, line)⟩ ∨
      p.ahead.held = none ∧ p.ahead.source.next = (.ok token, ⟨scans, line⟩)) := by
  obtain ⟨⟨ending, atEnd, pending⟩, line⟩ := faces
  obtain ⟨⟨⟨scans, reached⟩, held⟩, scopes, steps⟩ := p
  cases held with
  | none =>
    cases ending with
    | nil =>
      cases pending
      exact ⟨.ofKind .endOfFile, reached, rfl, [], nofun, .inr ⟨rfl, rfl⟩⟩
    | cons first others =>
      cases pending
      obtain ⟨⟨token, found, kind⟩, othersEnd⟩ := List.forall_mem_cons.mp atEnd
      obtain ⟨result, next⟩ := first
      cases found
      exact ⟨token, next, kind, others, othersEnd, .inr ⟨rfl, rfl⟩⟩
  | some front =>
    cases pending
    obtain ⟨⟨token, found, kind⟩, scansEnd⟩ := List.forall_mem_cons.mp atEnd
    cases found
    cases line rfl
    exact ⟨front.1, front.2, kind, scans, scansEnd, .inl rfl⟩

theorem peek_nil (faces : p.Faces []) :
    ∃ ahead, peekKind p = .ok .endOfFile { p with ahead } ∧ Parser.Faces { p with ahead } [] := by
  obtain ⟨token, line, kind, scans, atEnd, held⟩ := faces.nil_cases
  have endless : ∀ scan ∈ Scan.ofToken (token, line) :: scans, scan.IsEnd :=
    List.forall_mem_cons.mpr ⟨⟨token, rfl, kind⟩, atEnd⟩
  refine ⟨⟨⟨scans, line⟩, some (token, line)⟩, ?_, ⟨_, endless, rfl⟩, fun front => ?_⟩
  · rcases held with same | ⟨free, next⟩
    · rw [peekKind, same, ← kind]
      rfl
    · simp only [peekKind, Lookahead.peek, free, TokenSource.next, next, kind]
      rfl
  · cases front
    rfl

theorem peek_any (faces : p.Faces tokens) : ∃ kind ahead, peekKind p = .ok kind { p with ahead } ∧
    (kind = .endOfFile ∨ ∃ t ∈ tokens, kind = t.1.kind) ∧ Parser.Faces { p with ahead } tokens := by
  cases tokens with
  | nil =>
    obtain ⟨ahead, looked, faces⟩ := faces.peek_nil
    exact ⟨_, ahead, looked, .inl rfl, faces⟩
  | cons t rest =>
    obtain ⟨ahead, looked, -, -, faces⟩ := faces.peek
    exact ⟨_, ahead, looked, .inr ⟨t, List.mem_cons_self, rfl⟩, faces⟩

theorem take_nil (faces : p.Faces []) : ∃ token ahead, Parser.take p = .ok token { p with ahead } ∧
    token.kind = .endOfFile ∧ Parser.Faces { p with ahead } [] := by
  obtain ⟨token, line, kind, scans, atEnd, held⟩ := faces.nil_cases
  refine ⟨token, ⟨⟨scans, line⟩, none⟩, ?_, kind, .of_free ⟨scans, atEnd, rfl⟩ rfl⟩
  rcases held with same | ⟨free, next⟩
  · rw [Parser.take, same]
    rfl
  · simp only [Parser.take, Lookahead.next, free, TokenSource.next, next]

end Parser.Faces

structure Setting where
  own : List String
  others : List String
  later : List (Token × Nat)
  disjoint {name : String} (declared : name ∈ own) : name ∉ others
  noElse {t : Token × Nat} (follows : t ∈ later) : t.1.kind ≠ .elseWord

/-- The same scopes, but for the global names of others. -/
def ScopesBeside (around : Setting) (depth : Nat) (scopes alone : ScopeStack) : Prop :=
  ∃ inner globals, inner.length + 1 = depth ∧ (∀ name ∈ globals, name ∈ around.own) ∧
    scopes.visible = inner ++ [globals ++ around.others, []] ∧ alone.visible = inner ++ [globals, []]

namespace ScopesBeside

variable {around : Setting} {depth : Nat} {scopes alone : ScopeStack}

theorem begin (beside : ScopesBeside around depth scopes alone) :
    ScopesBeside around (depth + 1) scopes.begin alone.begin := by
  obtain ⟨inner, globals, length, own, long, short⟩ := beside
  refine ⟨[] :: inner, globals, by rw [List.length_cons, length], own, ?_, ?_⟩
  · rw [ScopeStack.visible_begin, long]
    rfl
  · rw [ScopeStack.visible_begin, short]
    rfl

theorem depth_eq (beside : ScopesBeside around depth scopes alone) : scopes.depth = depth ∧ alone.depth = depth := by
  obtain ⟨inner, globals, length, -, long, short⟩ := beside
  have first := scopes.length_visible
  have second := alone.length_visible
  rw [long] at first
  rw [short] at second
  simp only [List.length_append, List.length_cons, List.length_nil] at first second
  omega

theorem finish (beside : ScopesBeside around (depth + 1) scopes alone) (outer : 1 ≤ depth) :
    ScopesBeside around depth scopes.finish alone.finish := by
  obtain ⟨first, second⟩ := beside.depth_eq
  obtain ⟨inner, globals, length, own, long, short⟩ := beside
  have deep : ScopeStack.globalIndex < depth + 1 := Nat.lt_succ_of_le outer
  cases inner with
  | nil =>
    simp only [List.length_nil] at length
    omega
  | cons innermost inner =>
    refine ⟨inner, globals, Nat.succ.inj length, own, ?_, ?_⟩
    · rw [ScopeStack.visible_finish (first ▸ deep), long]
      rfl
    · rw [ScopeStack.visible_finish (second ▸ deep), short]
      rfl

theorem forMethod (beside : ScopesBeside around depth scopes alone) :
    ScopesBeside around 2 scopes.forMethod alone.forMethod := by
  obtain ⟨first, second⟩ := beside.depth_eq
  obtain ⟨inner, globals, length, own, long, short⟩ := beside
  have found := scopes.globals_eq
  have foundAlone := alone.globals_eq
  have last : depth - 1 = inner.length := by omega
  rw [first, last, long, List.getElem?_append_right (Nat.le_refl _), Nat.sub_self] at found
  rw [second, last, short, List.getElem?_append_right (Nat.le_refl _), Nat.sub_self] at foundAlone
  refine ⟨[["this"]], globals, rfl, own, ?_, ?_⟩
  · rw [ScopeStack.visible_forMethod, ← Option.some.inj found]
    rfl
  · rw [ScopeStack.visible_forMethod, ← Option.some.inj foundAlone]
    rfl

theorem declare? {name : String} (beside : ScopesBeside around depth scopes alone)
    (own : depth = 1 → name ∈ around.own) :
    scopes.declare? name = none ∧ alone.declare? name = none ∨
      ∃ next next', scopes.declare? name = some next ∧ alone.declare? name = some next' ∧
        ScopesBeside around depth next next' := by
  obtain ⟨inner, globals, length, within, long, short⟩ := beside
  have top := long.symm.trans scopes.visible_eq_cons
  have topAlone := short.symm.trans alone.visible_eq_cons
  cases inner with
  | nil =>
    have own := own length.symm
    have same : name ∈ scopes.innermost ↔ name ∈ alone.innermost := by
      rw [← (List.cons.inj top).1, ← (List.cons.inj topAlone).1, List.mem_append, or_iff_left (around.disjoint own)]
    refine (ScopeStack.declare?_alike same).imp_right ?_
    rintro ⟨next, next', declared, declared', visible, visible'⟩
    rw [long, ← (List.cons.inj top).1] at visible
    rw [short, ← (List.cons.inj topAlone).1] at visible'
    exact ⟨next, next', declared, declared', [], name :: globals, length, List.forall_mem_cons.mpr ⟨own, within⟩,
      visible, visible'⟩
  | cons innermost inner =>
    have same : scopes.innermost = alone.innermost := (List.cons.inj top).1.symm.trans (List.cons.inj topAlone).1
    refine (ScopeStack.declare?_alike (by rw [same])).imp_right ?_
    rintro ⟨next, next', declared, declared', visible, visible'⟩
    rw [long, ← (List.cons.inj top).1] at visible
    rw [short, ← (List.cons.inj topAlone).1] at visible'
    exact ⟨next, next', declared, declared', (name :: innermost) :: inner, globals, length, within, visible, visible'⟩

theorem declared (beside : ScopesBeside around 1 scopes alone) : ∃ declared, (∀ name ∈ declared, name ∈ around.own) ∧
    scopes.visible = [declared ++ around.others, []] := by
  obtain ⟨inner, globals, length, own, long, -⟩ := beside
  cases List.length_eq_zero_iff.mp (Nat.succ.inj length)
  exact ⟨globals, own, long⟩

end ScopesBeside

end HookScript
