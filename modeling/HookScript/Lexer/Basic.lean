import HookScript.Delivery
import HookScript.Text.Utf8

/-!
A lexer's place in a byte stream: what the stream will still deliver, a read buffer of bounded capacity,
and the line. Passing over a byte, or seeing none, uses up some of what is still to come.
-/

namespace HookScript

structure Lexer where
  deliveries : List Delivery
  capacity : Nat
  unread : List UInt8
  line : Nat
  capacity_pos : 0 < capacity

abbrev Scanning := EStateM ReadFailure Lexer

namespace Lexer

def defaultCapacity : Nat := 512

def withCapacity? (capacity : Nat) (deliveries : List Delivery) : Option Lexer :=
  if positive : 0 < capacity then some ⟨deliveries, capacity, [], 1, positive⟩ else none

def illegalCapacityMessage (capacity : Nat) : String := "illegal lexer buffer length: " ++ toString capacity

def ofDeliveries (deliveries : List Delivery) : Lexer :=
  ⟨deliveries, defaultCapacity, [], 1, by decide⟩

def ofBytes (bytes : List UInt8) : Lexer := ofDeliveries [.data bytes]

def ofText (text : String) : Lexer := ofBytes (Text.Utf8.encode text)

/-- The next byte, which stays where it is, or nothing when the stream delivers nothing right now. -/
def peek : Scanning (Option UInt8) := fun s =>
  match s.unread with
  | b :: _ => .ok (some b) s
  | [] =>
    match Delivery.read s.capacity s.deliveries with
    | (.ok bytes, rest) => .ok bytes.head? { s with deliveries := rest, unread := bytes }
    | (.error failure, rest) => .error failure { s with deliveries := rest }

def newline : UInt8 := 0x0A

def advance (s : Lexer) : Lexer :=
  match s.unread with
  | [] => s
  | b :: rest => { s with unread := rest, line := if b = newline then s.line + 1 else s.line }

def bump : Scanning (Option UInt8) := do
  let front ← peek
  modify advance
  return front

/-- An upper bound for the tokens still to come: every byte and every delivery counts. -/
def size (s : Lexer) : Nat := s.unread.length + Delivery.totalSize s.deliveries

def IsExhausted (s : Lexer) : Prop := s.unread = [] ∧ s.deliveries = []

instance (s : Lexer) : Decidable s.IsExhausted := inferInstanceAs (Decidable (_ ∧ _))

theorem advance_size_le (s : Lexer) : s.advance.size ≤ s.size := by
  unfold advance
  split
  · exact Nat.le_refl _
  · next h => simp only [size, h, List.length_cons]; omega

theorem advance_size_lt {s : Lexer} (h : s.unread ≠ []) : s.advance.size < s.size := by
  unfold advance
  split
  · next h' => exact absurd h' h
  · next h' => simp only [size, h', List.length_cons]; omega

def stateOf {α : Type} : EStateM.Result ReadFailure Lexer α → Lexer
  | .ok _ s => s
  | .error _ s => s

theorem peek_size_le (s : Lexer) : (stateOf (peek s)).size ≤ s.size := by
  have bound := Delivery.read_size_le s.capacity s.deliveries
  unfold peek
  split
  · exact Nat.le_refl _
  · next h =>
    split
    all_goals
      next hr =>
        simp only [hr] at bound
        simp only [stateOf, size, h, List.length_nil]
        omega

theorem unread_of_peek {s s' : Lexer} {b : UInt8} (h : peek s = .ok (some b) s') :
    s'.unread.head? = some b := by
  unfold peek at h
  split at h
  · next h' =>
    simp only [EStateM.Result.ok.injEq, Option.some.injEq] at h
    obtain ⟨rfl, rfl⟩ := h
    simp [h']
  · split at h
    · simp only [EStateM.Result.ok.injEq] at h
      obtain ⟨h, rfl⟩ := h
      exact h
    · simp at h

theorem peek_of_unread {s : Lexer} {b : UInt8} (front : s.unread.head? = some b) :
    peek s = .ok (some b) s := by
  unfold peek
  cases h : s.unread with
  | nil => simp [h] at front
  | cons b' rest =>
    simp only [h, List.head?_cons, Option.some.injEq] at front
    simp [front]

theorem advance_size_lt_of_peek {s s' : Lexer} {b : UInt8} (h : peek s = .ok (some b) s') :
    s'.advance.size < s.size := by
  have le := peek_size_le s
  rw [h] at le
  have ne : s'.unread ≠ [] := by
    have := unread_of_peek h
    intro empty
    simp [empty] at this
  exact Nat.lt_of_lt_of_le (advance_size_lt ne) le

theorem peek_size_lt {s : Lexer} (more : ¬ s.IsExhausted)
    (none_seen : ∀ b s', peek s ≠ .ok (some b) s') : (stateOf (peek s)).size < s.size := by
  have bound := Delivery.read_size_le s.capacity s.deliveries
  unfold peek at none_seen ⊢
  split
  · next b rest h =>
    rw [h] at none_seen
    exact absurd rfl (none_seen b s)
  · next h =>
    have deliveries : s.deliveries ≠ [] := fun h' => more ⟨h, h'⟩
    rw [h] at none_seen
    split
    · next bytes rest hr =>
      simp only [hr] at none_seen
      have empty : bytes = [] := by
        cases bytes with
        | nil => rfl
        | cons b bs => exact absurd rfl (none_seen b _)
      subst empty
      have strict := Delivery.read_size_lt s.capacity_pos deliveries (by rw [hr])
      rw [hr] at strict
      simpa [stateOf, size, h] using strict
    · next hr =>
      simp only [hr] at bound
      simp only [stateOf, size, h, List.length_nil]
      omega

/-- The longest run of bytes with property `p`, consumed as far as it is delivered. -/
def takeWhile (p : UInt8 → Bool) (s : Lexer) : EStateM.Result ReadFailure Lexer (List UInt8) :=
  match _seen : peek s with
  | .error failure s' => .error failure s'
  | .ok none s' => .ok [] s'
  | .ok (some b) s' =>
    if p b then
      match takeWhile p s'.advance with
      | .ok bytes s'' => .ok (b :: bytes) s''
      | .error failure s'' => .error failure s''
    else .ok [] s'
termination_by s.size
decreasing_by exact advance_size_lt_of_peek ‹_›

theorem takeWhile_size_le (p : UInt8 → Bool) (s : Lexer) :
    (stateOf (takeWhile p s)).size ≤ s.size := by
  fun_induction takeWhile p s with
  | case1 s failure s' seen => simpa [seen, stateOf] using peek_size_le s
  | case2 s s' seen => simpa [seen, stateOf] using peek_size_le s
  | case3 s b s' seen hp bytes s'' hr ih =>
    rw [hr] at ih
    exact Nat.le_of_lt (Nat.lt_of_le_of_lt ih (advance_size_lt_of_peek seen))
  | case4 s b s' seen hp failure s'' hr ih =>
    rw [hr] at ih
    exact Nat.le_of_lt (Nat.lt_of_le_of_lt ih (advance_size_lt_of_peek seen))
  | case5 s b s' seen hp => simpa [seen, stateOf] using peek_size_le s

def isBlank (b : UInt8) : Bool :=
  b = 0x20 || b = 0x09 || b = 0x0A || b = 0x0C || b = 0x0D

def isDigit (b : UInt8) : Bool := 0x30 ≤ b && b ≤ 0x39

def isLetter (b : UInt8) : Bool := (0x41 ≤ b && b ≤ 0x5A) || (0x61 ≤ b && b ≤ 0x7A)

def isWordByte (b : UInt8) : Bool := isLetter b || isDigit b || b = 0x5F

def commentMark : UInt8 := 0x23

/-- Passes over blanks and comments. A comment ends before the next newline. -/
def skipIgnored (s : Lexer) : EStateM.Result ReadFailure Lexer Unit :=
  match _seen : peek s with
  | .error failure s' => .error failure s'
  | .ok none s' => .ok () s'
  | .ok (some b) s' =>
    if b = commentMark then
      match _comment : takeWhile (· != newline) s'.advance with
      | .error failure s'' => .error failure s''
      | .ok _ s'' => skipIgnored s''
    else if isBlank b then skipIgnored s'.advance
    else .ok () s'
termination_by s.size
decreasing_by
  · have le := takeWhile_size_le (· != newline) s'.advance
    simp only [_comment, stateOf] at le
    exact Nat.lt_of_le_of_lt le (advance_size_lt_of_peek ‹_›)
  · exact advance_size_lt_of_peek ‹_›

theorem skipIgnored_size_le (s : Lexer) : (stateOf (skipIgnored s)).size ≤ s.size := by
  fun_induction skipIgnored s with
  | case1 s failure s' seen => simpa [seen, stateOf] using peek_size_le s
  | case2 s s' seen => simpa [seen, stateOf] using peek_size_le s
  | case3 s s' failure s'' comment seen =>
    have le := takeWhile_size_le (· != newline) s'.advance
    rw [comment] at le
    exact Nat.le_of_lt (Nat.lt_of_le_of_lt le (advance_size_lt_of_peek seen))
  | case4 s s' bytes s'' comment seen ih =>
    have le := takeWhile_size_le (· != newline) s'.advance
    rw [comment] at le
    exact Nat.le_of_lt (Nat.lt_of_le_of_lt ih (Nat.lt_of_le_of_lt le (advance_size_lt_of_peek seen)))
  | case5 s b s' seen _ _ ih =>
    exact Nat.le_of_lt (Nat.lt_of_le_of_lt ih (advance_size_lt_of_peek seen))
  | case6 s b s' seen => simpa [seen, stateOf] using peek_size_le s

theorem skipIgnored_progress {s : Lexer} (more : ¬ s.IsExhausted) :
    (stateOf (skipIgnored s)).size < s.size ∨
      ∃ b s', skipIgnored s = .ok () s' ∧ s'.unread.head? = some b := by
  rw [skipIgnored]
  split
  · next h => exact .inl (by simpa [h, stateOf] using peek_size_lt more (by simp [h]))
  · next h => exact .inl (by simpa [h, stateOf] using peek_size_lt more (by simp [h]))
  · next b s' h =>
    have lt := advance_size_lt_of_peek h
    split
    · have le := takeWhile_size_le (· != newline) s'.advance
      split
      · next h' => rw [h'] at le; exact .inl (Nat.lt_of_le_of_lt le lt)
      · next h' =>
        rw [h'] at le
        exact .inl (Nat.lt_of_le_of_lt (skipIgnored_size_le _) (Nat.lt_of_le_of_lt le lt))
    · split
      · exact .inl (Nat.lt_of_le_of_lt (skipIgnored_size_le _) lt)
      · exact .inr ⟨b, s', rfl, unread_of_peek h⟩

end Lexer

end HookScript
