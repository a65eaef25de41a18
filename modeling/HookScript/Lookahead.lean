import HookScript.Lexer.Scan

/-!
One token of lookahead over any source of tokens. A held token keeps the line that it was found on; a
failure of the source is passed on and never held.
-/

namespace HookScript

class TokenSource (σ : Type) where
  next : σ → Except ReadFailure Token × σ
  line : σ → Nat

instance : TokenSource Lexer where
  next s := (s.scan.1.result, s.scan.2)
  line s := s.line

structure ScanList where
  rest : List Scan
  line : Nat

namespace ScanList

def ofLexer (lexer : Lexer) : ScanList := ⟨lexer.scans, lexer.line⟩

def next (scans : ScanList) : Except ReadFailure Token × ScanList :=
  match scans.rest with
  | [] => (.ok (.ofKind .endOfFile), scans)
  | first :: rest => (first.result, ⟨rest, first.line⟩)

end ScanList

instance : TokenSource ScanList where
  next := ScanList.next
  line := ScanList.line

structure Lookahead (σ : Type) where
  source : σ
  held : Option (Token × Nat)

namespace Lookahead

variable {σ : Type} [TokenSource σ]

def ofSource (source : σ) : Lookahead σ := ⟨source, none⟩

def line (ahead : Lookahead σ) : Nat :=
  match ahead.held with
  | some (_, line) => line
  | none => TokenSource.line ahead.source

/-- The next token, which stays to be taken. -/
def peek (ahead : Lookahead σ) : Except ReadFailure Token × Lookahead σ :=
  match ahead.held with
  | some (token, _) => (.ok token, ahead)
  | none =>
    match TokenSource.next ahead.source with
    | (.ok token, source) => (.ok token, ⟨source, some (token, TokenSource.line source)⟩)
    | (.error failure, source) => (.error failure, ⟨source, none⟩)

def next (ahead : Lookahead σ) : Except ReadFailure Token × Lookahead σ :=
  match ahead.held with
  | some (token, _) => (.ok token, ⟨ahead.source, none⟩)
  | none =>
    let answer := TokenSource.next ahead.source
    (answer.1, ⟨answer.2, none⟩)

def discard (ahead : Lookahead σ) : Lookahead σ := ⟨ahead.source, none⟩

end Lookahead

end HookScript
