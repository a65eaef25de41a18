import HookScript.Lexer.Basic
import HookScript.Token

/-!
Tokens. Each one is the longest that starts where the ignored text before it ends. Asking for one uses up
some of what is still to come, so a stream has finitely many answers before the end of the file stays.
-/

namespace HookScript

namespace Lexer

/-- Digits, then perhaps a point and further digits. The fraction may be empty. -/
def number : Scanning Token := do
  let whole ← takeWhile isDigit
  if (← peek) = some 0x2E then
    let _ ← bump
    let fraction ← takeWhile isDigit
    return ⟨.float, Text.Utf8.decodeLenient whole ++ "." ++ Text.Utf8.decodeLenient fraction⟩
  else
    return ⟨.integer, Text.Utf8.decodeLenient whole⟩

def word : Scanning Token := do
  let bytes ← takeWhile isWordByte
  return .ofWord (Text.Utf8.decodeLenient bytes)

/-- The text between two quotes. Without a closing quote, everything up to the end is illegal. -/
def string : Scanning Token := do
  let bytes ← takeWhile (· != 0x22)
  match ← bump with
  | some _ => return ⟨.string, Text.Utf8.decodeLenient bytes⟩
  | none => return ⟨.illegal, "\"" ++ Text.Utf8.decodeLenient bytes⟩

def orEqual (single double : TokenKind) : Scanning Token := do
  if (← peek) = some 0x3D then
    let _ ← bump
    return .ofKind double
  else
    return .ofKind single

/-- An operator that is a byte written twice. Whatever else follows the byte is illegal together with it. -/
def doubled (first : UInt8) (kind : TokenKind) : Scanning Token := do
  match ← bump with
  | some second =>
    if second = first then return .ofKind kind
    else return ⟨.illegal, Text.Utf8.decodeLenient [first, second]⟩
  | none => return ⟨.illegal, Text.Utf8.decodeLenient [first]⟩

def single? : UInt8 → Option TokenKind
  | 0x28 => some .leftParen
  | 0x29 => some .rightParen
  | 0x7B => some .leftBrace
  | 0x7D => some .rightBrace
  | 0x5B => some .leftBracket
  | 0x5D => some .rightBracket
  | 0x2C => some .comma
  | 0x2E => some .dot
  | 0x3A => some .colon
  | 0x3B => some .semicolon
  | 0x2D => some .minus
  | 0x2B => some .plus
  | 0x2F => some .slash
  | 0x2A => some .star
  | _ => none

def orEqual? : UInt8 → Option (TokenKind × TokenKind)
  | 0x21 => some (.bang, .bangEqual)
  | 0x3D => some (.equal, .equalEqual)
  | 0x3C => some (.less, .lessEqual)
  | 0x3E => some (.greater, .greaterEqual)
  | _ => none

def doubled? : UInt8 → Option TokenKind
  | 0x26 => some .and
  | 0x7C => some .or
  | _ => none

def quote : UInt8 := 0x22

def afterMark (b : UInt8) : Scanning Token :=
  match single? b, orEqual? b, doubled? b with
  | some kind, _, _ => return .ofKind kind
  | none, some (alone, together), _ => orEqual alone together
  | none, none, some kind => doubled b kind
  | none, none, none =>
    if b = quote then string else return ⟨.illegal, Text.Utf8.decodeLenient [b]⟩

def mark : Scanning Token := do
  match ← bump with
  | none => return .ofKind .endOfFile
  | some b => afterMark b

def tokenAt (b : UInt8) : Scanning Token :=
  if isDigit b then number else if isLetter b then word else mark

/-- The next token. A failing read drops the bytes of the token that it interrupts. -/
def nextToken : Scanning Token := do
  skipIgnored
  match ← peek with
  | none => return .ofKind .endOfFile
  | some b => tokenAt b

/-- A step that never adds to what is still to come. -/
def Shrinks {α : Type} (act : Scanning α) : Prop := ∀ s, (stateOf (act s)).size ≤ s.size

theorem Shrinks.pure {α : Type} (a : α) : Shrinks (Pure.pure a : Scanning α) :=
  fun _ => Nat.le_refl _

theorem Shrinks.bind {α β : Type} {act : Scanning α} {next : α → Scanning β}
    (first : Shrinks act) (later : ∀ a, Shrinks (next a)) : Shrinks (act >>= next) := by
  intro s
  have le := first s
  simp only [Bind.bind, EStateM.bind]
  split
  · next a s' h => rw [h] at le; exact Nat.le_trans (later a s') le
  · next h => rw [h] at le; exact le

theorem shrinks_peek : Shrinks peek := peek_size_le

theorem shrinks_takeWhile (p : UInt8 → Bool) : Shrinks (takeWhile p) := takeWhile_size_le p

theorem shrinks_bump : Shrinks bump :=
  shrinks_peek.bind fun _ => Shrinks.bind (fun s => advance_size_le s) fun _ => .pure _

theorem shrinks_orEqual (single double : TokenKind) : Shrinks (orEqual single double) := by
  refine shrinks_peek.bind fun _ => ?_
  split
  · exact shrinks_bump.bind fun _ => .pure _
  · exact .pure _

theorem shrinks_doubled (first : UInt8) (kind : TokenKind) : Shrinks (doubled first kind) := by
  refine shrinks_bump.bind fun front => ?_
  split
  · split <;> exact .pure _
  · exact .pure _

theorem shrinks_string : Shrinks string := by
  refine (shrinks_takeWhile _).bind fun _ => shrinks_bump.bind fun _ => ?_
  split <;> exact .pure _

theorem shrinks_afterMark (b : UInt8) : Shrinks (afterMark b) := by
  unfold afterMark
  split
  · exact .pure _
  · exact shrinks_orEqual _ _
  · exact shrinks_doubled _ _
  · split
    · exact shrinks_string
    · exact .pure _

theorem shrinks_mark : Shrinks mark := by
  refine shrinks_bump.bind fun front => ?_
  split
  · exact .pure _
  · exact shrinks_afterMark _

theorem bind_size_lt {α β : Type} {act : Scanning α} {next : α → Scanning β} {s : Lexer}
    (first : (stateOf (act s)).size < s.size) (later : ∀ a, Shrinks (next a)) :
    (stateOf ((act >>= next) s)).size < s.size := by
  simp only [Bind.bind, EStateM.bind]
  split
  · next a s' h => rw [h] at first; exact Nat.lt_of_le_of_lt (later a s') first
  · next h => rw [h] at first; exact first

theorem bump_size_lt {s : Lexer} {b : UInt8} (front : s.unread.head? = some b) :
    (stateOf (bump s)).size < s.size := by
  have ne : s.unread ≠ [] := by intro h; simp [h] at front
  simp only [bump, Bind.bind, EStateM.bind, peek_of_unread front]
  exact advance_size_lt ne

theorem takeWhile_size_lt {p : UInt8 → Bool} {s : Lexer} {b : UInt8}
    (front : s.unread.head? = some b) (holds : p b = true) :
    (stateOf (takeWhile p s)).size < s.size := by
  have ne : s.unread ≠ [] := by intro h; simp [h] at front
  have le := takeWhile_size_le p s.advance
  have lt := advance_size_lt ne
  have seen := peek_of_unread front
  rw [takeWhile]
  split
  · next h => rw [seen] at h; cases h
  · next h => rw [seen] at h; cases h
  · next h =>
    rw [seen] at h
    cases h
    simp only [holds, if_true]
    split
    all_goals
      next h =>
        rw [h] at le
        exact Nat.lt_of_le_of_lt le lt

theorem tokenAt_size_lt {s : Lexer} {b : UInt8} (front : s.unread.head? = some b) :
    (stateOf (tokenAt b s)).size < s.size := by
  unfold tokenAt
  split
  · next digit =>
    refine bind_size_lt (takeWhile_size_lt front digit) fun _ => shrinks_peek.bind fun _ => ?_
    split
    · exact shrinks_bump.bind fun _ => (shrinks_takeWhile _).bind fun _ => .pure _
    · exact .pure _
  · split
    · next letter =>
      have holds : isWordByte b = true := by simp [isWordByte, letter]
      exact bind_size_lt (takeWhile_size_lt front holds) fun _ => .pure _
    · refine bind_size_lt (bump_size_lt front) fun front => ?_
      split
      · exact .pure _
      · exact shrinks_afterMark _

theorem shrinks_tokenAt (b : UInt8) : Shrinks (tokenAt b) := by
  unfold tokenAt
  split
  · refine (shrinks_takeWhile _).bind fun _ => shrinks_peek.bind fun _ => ?_
    split
    · exact shrinks_bump.bind fun _ => (shrinks_takeWhile _).bind fun _ => .pure _
    · exact .pure _
  · split
    · exact (shrinks_takeWhile _).bind fun _ => .pure _
    · exact shrinks_mark

/-- While anything is left, asking for a token uses some of it up. -/
theorem nextToken_size_lt {s : Lexer} (more : ¬ s.IsExhausted) :
    (stateOf (nextToken s)).size < s.size := by
  rcases skipIgnored_progress more with lt | ⟨b, s', skipped, front⟩
  · refine bind_size_lt lt fun _ => shrinks_peek.bind fun front => ?_
    split
    · exact .pure _
    · exact shrinks_tokenAt _
  · have le := skipIgnored_size_le s
    rw [skipped] at le
    have lt := Nat.lt_of_lt_of_le (tokenAt_size_lt front) le
    simpa only [nextToken, Bind.bind, EStateM.bind, skipped, peek_of_unread front] using lt

end Lexer

structure Scan where
  result : Except ReadFailure Token
  line : Nat

namespace Lexer

def scan (s : Lexer) : Scan × Lexer :=
  match nextToken s with
  | .ok token s' => (⟨.ok token, s'.line⟩, s')
  | .error failure s' => (⟨.error failure, s'.line⟩, s')

theorem scan_state (s : Lexer) : s.scan.2 = stateOf (nextToken s) := by
  unfold scan
  split <;> simp [stateOf, *]

/-- Every answer until nothing is left to read. After these, each answer is the end of the file. -/
def scans (s : Lexer) : List Scan :=
  if s.IsExhausted then []
  else
    let first := s.scan
    first.1 :: scans first.2
termination_by s.size
decreasing_by exact scan_state s ▸ nextToken_size_lt ‹_›

end Lexer

end HookScript
