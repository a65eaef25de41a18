import HookScript.Lookahead
import HookScript.Proofs.Lexing.Cuts
import HookScript.Proofs.Lexing.Scans

/-!
Sources that give the same answers. Whoever asks one source for tokens and lines cannot tell it from another one that
gives the same answers, however often it is asked. Two lexers are such sources if the same bytes are still to come and
they are on the same line, and so are a lexer and the list of all its answers.
-/

namespace HookScript

namespace TokenSource

variable {σ τ υ : Type} [TokenSource σ] [TokenSource τ] [TokenSource υ]

def after (source : σ) : Nat → σ
  | 0 => source
  | n + 1 => (next (after source n)).2

/-- Every time that the two sources are asked they give the same answer, and they are on the same line all along. -/
def SameAnswers (source : σ) (other : τ) : Prop :=
  ∀ n, line (after source n) = line (after other n) ∧ (next (after source n)).1 = (next (after other n)).1

theorem after_next (source : σ) (n : Nat) : after (next source).2 n = after source (n + 1) := by
  induction n with
  | zero => rfl
  | succ n ih => rw [after, ih, ← after]

namespace SameAnswers

variable {source : σ} {other : τ} {third : υ}

theorem symm (same : SameAnswers source other) : SameAnswers other source :=
  fun n => ⟨(same n).1.symm, (same n).2.symm⟩

theorem trans (first : SameAnswers source other) (second : SameAnswers other third) : SameAnswers source third :=
  fun n => ⟨(first n).1.trans (second n).1, (first n).2.trans (second n).2⟩

theorem line_eq (same : SameAnswers source other) : line source = line other := (same 0).1

theorem answer_eq (same : SameAnswers source other) : (next source).1 = (next other).1 := (same 0).2

theorem next (same : SameAnswers source other) : SameAnswers (TokenSource.next source).2 (TokenSource.next other).2 := by
  intro n
  rw [after_next, after_next]
  exact same (n + 1)

theorem of_step {R : σ → τ → Prop}
    (step : ∀ source other, R source other → line source = line other ∧
      (TokenSource.next source).1 = (TokenSource.next other).1 ∧
      R (TokenSource.next source).2 (TokenSource.next other).2)
    (holds : R source other) : SameAnswers source other := by
  have onward (n : Nat) : R (after source n) (after other n) := by
    induction n with
    | zero => exact holds
    | succ n ih => exact (step _ _ ih).2.2
  intro n
  obtain ⟨lines, answers, -⟩ := step _ _ (onward n)
  exact ⟨lines, answers⟩

end SameAnswers

end TokenSource

namespace Delivery

theorem Brings.newlines_eq {deliveries : List Delivery} {bytes : List UInt8} (brings : Brings deliveries bytes) :
    newlines deliveries = bytes.count Lexer.newline := by
  induction brings with
  | nil => rfl
  | interrupted _ ih => exact ih
  | data _ _ ih => rw [newlines, ih, List.count_append]

theorem Brings.unique {deliveries : List Delivery} {bytes bytes' : List UInt8} (brings : Brings deliveries bytes)
    (brings' : Brings deliveries bytes') : bytes = bytes' := by
  induction brings generalizing bytes' with
  | nil =>
    cases brings'
    rfl
  | interrupted _ ih =>
    cases brings' with
    | interrupted brings' => exact ih brings'
  | data _ _ ih =>
    cases brings' with
    | data _ brings' => rw [ih brings']

end Delivery

namespace Lexer

open TokenSource (SameAnswers)

variable {s t : Lexer} {bytes : List UInt8}

theorem Awaits.newlines_eq (awaits : s.Awaits bytes) : s.newlines = bytes.count newline := by
  obtain ⟨later, rfl, brings⟩ := awaits
  rw [newlines, brings.newlines_eq, List.count_append]

theorem Awaits.unique {bytes' : List UInt8} (awaits : s.Awaits bytes) (awaits' : s.Awaits bytes') : bytes = bytes' := by
  obtain ⟨later, rfl, brings⟩ := awaits
  obtain ⟨later', rfl, brings'⟩ := awaits'
  rw [brings.unique brings']

theorem Yields.unique {α : Type} {act : Scanning α} {a a' : α} {rest rest' : List UInt8}
    (yields : Yields bytes act a rest) (yields' : Yields bytes act a' rest') : a = a' ∧ rest = rest' := by
  obtain ⟨t, ran, left⟩ := yields _ (awaits_ofBytes bytes)
  obtain ⟨t', ran', left'⟩ := yields' _ (awaits_ofBytes bytes)
  cases ran.symm.trans ran'
  exact ⟨rfl, left.unique left'⟩

theorem exists_yields (bytes : List UInt8) : ∃ token later, Yields bytes nextToken token later := by
  rcases nextToken_cases bytes with ends | ⟨token, source, later, rfl, -, -, stands⟩
  · exact ⟨_, _, ends⟩
  · exact ⟨token, later, stands.read (List.prefix_refl _)⟩

theorem line_of_scan {later : List UInt8} {scan : Scan} {u : Lexer} (awaits : s.Awaits bytes) (ran : s.scan = (scan, u))
    (left : u.Awaits later) : scan.line = u.line ∧ u.line + later.count newline = s.line + bytes.count newline := by
  have answered := answered_scan s
  rw [ran] at answered
  refine ⟨answered.line, ?_⟩
  rw [← left.newlines_eq, ← awaits.newlines_eq]
  exact answered.onward.newlines

theorem sameAnswers_of_awaits (awaits : s.Awaits bytes) (other : t.Awaits bytes) (lines : s.line = t.line) :
    SameAnswers s t := by
  refine .of_step (R := fun s t => ∃ bytes, s.Awaits bytes ∧ t.Awaits bytes ∧ s.line = t.line) ?_
    ⟨bytes, awaits, other, lines⟩
  rintro s t ⟨bytes, awaits, other, lines⟩
  obtain ⟨token, later, yields⟩ := exists_yields bytes
  obtain ⟨line, u, ran, left⟩ := scan_of_yields yields awaits
  obtain ⟨line', v, ran', left'⟩ := scan_of_yields yields other
  have here := line_of_scan awaits ran left
  have there := line_of_scan other ran' left'
  simp only [TokenSource.next, TokenSource.line, ran, ran', true_and]
  exact ⟨lines, later, left, left', by omega⟩

theorem scan_of_isExhausted (exhausted : s.IsExhausted) : s.scan = (⟨.ok (.ofKind .endOfFile), s.line⟩, s) := by
  obtain ⟨deliveries, capacity, unread, line, positive⟩ := s
  obtain ⟨rfl, rfl⟩ := exhausted
  have seen : peek ⟨[], capacity, [], line, positive⟩ = .ok none ⟨[], capacity, [], line, positive⟩ := rfl
  have ran : nextToken ⟨[], capacity, [], line, positive⟩ =
      .ok (.ofKind .endOfFile) ⟨[], capacity, [], line, positive⟩ := by
    simp only [nextToken, Bind.bind, EStateM.bind, skipIgnored_nothing seen, seen]
    rfl
  rw [scan, ran]

theorem sameAnswers_ofLexer (s : Lexer) : SameAnswers s (ScanList.ofLexer s) := by
  refine .of_step (R := fun s scans => scans = ScanList.ofLexer s) ?_ rfl
  rintro s _ rfl
  by_cases exhausted : s.IsExhausted
  · have none : s.scans = [] := by rw [scans, if_pos exhausted]
    simp only [TokenSource.next, TokenSource.line, ScanList.next, ScanList.ofLexer, none, scan_of_isExhausted exhausted,
      and_self]
  · have some : s.scans = s.scan.1 :: s.scan.2.scans := by rw [scans, if_neg exhausted]
    simp only [TokenSource.next, TokenSource.line, ScanList.next, ScanList.ofLexer, some, (answered_scan s).line,
      and_self]

end Lexer

end HookScript
