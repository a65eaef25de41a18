import HookScript.Lexer.Scan

/-!
Bytes that are still to come. However a stream is cut into deliveries, what a lexer does depends on the bytes only: it
sees the first of them, passes over a longest run, and leaves the rest to come.
-/

namespace HookScript

namespace Delivery

inductive Brings : List Delivery → List UInt8 → Prop
  | nil : Brings [] []
  | interrupted {deliveries bytes} (brings : Brings deliveries bytes) : Brings (.interrupted :: deliveries) bytes
  | data {deliveries bytes chunk} (last : chunk = [] → bytes = []) (brings : Brings deliveries bytes) :
    Brings (.data chunk :: deliveries) (chunk ++ bytes)

theorem Brings.read {capacity : Nat} (positive : 0 < capacity) {deliveries : List Delivery} {bytes : List UInt8}
    (brings : Brings deliveries bytes) : ∃ front later rest, Delivery.read capacity deliveries = (.ok front, rest) ∧
      bytes = front ++ later ∧ (front = [] → later = []) ∧ Brings rest later := by
  induction brings with
  | nil => exact ⟨[], [], [], rfl, rfl, id, .nil⟩
  | interrupted _ ih => exact ih
  | @data deliveries bytes chunk last brings ih =>
    refine ⟨chunk.take capacity, chunk.drop capacity ++ bytes, _, rfl, ?_, fun none => ?_, ?_⟩
    · rw [← List.append_assoc, List.take_append_drop]
    · have empty : chunk = [] := (List.take_eq_nil_iff.mp none).resolve_left (Nat.ne_of_gt positive)
      rw [last empty, empty, List.drop_nil]
      rfl
    · split
      · next drained =>
        rw [drained]
        exact brings
      · next left =>
        exact .data (fun none => absurd none left) brings

end Delivery

namespace Lexer

section Peeked

variable {p : UInt8 → Bool} {s t : Lexer} {b : UInt8}

theorem takeWhile_nothing (seen : peek s = .ok none t) : takeWhile p s = .ok [] t := by
  rw [takeWhile]
  split <;> next other => cases seen.symm.trans other <;> rfl

theorem takeWhile_stop (seen : peek s = .ok (some b) t) (other : p b = false) : takeWhile p s = .ok [] t := by
  rw [takeWhile]
  split <;> next same => cases seen.symm.trans same <;> simp [other]

theorem takeWhile_more {bytes : List UInt8} {u : Lexer} (seen : peek s = .ok (some b) t) (holds : p b = true)
    (passed : takeWhile p t.advance = .ok bytes u) : takeWhile p s = .ok (b :: bytes) u := by
  rw [takeWhile]
  split <;> next same => cases seen.symm.trans same <;> simp [holds, passed]

theorem skipIgnored_nothing (seen : peek s = .ok none t) : skipIgnored s = .ok () t := by
  rw [skipIgnored]
  split <;> next other => cases seen.symm.trans other <;> rfl

theorem skipIgnored_stop (seen : peek s = .ok (some b) t) (noMark : b ≠ commentMark) (noBlank : isBlank b = false) :
    skipIgnored s = .ok () t := by
  rw [skipIgnored]
  split <;> next same => cases seen.symm.trans same <;> simp [noMark, noBlank]

theorem skipIgnored_blank (seen : peek s = .ok (some b) t) (noMark : b ≠ commentMark) (blank : isBlank b = true) :
    skipIgnored s = skipIgnored t.advance := by
  rw [skipIgnored]
  split <;> next same => cases seen.symm.trans same <;> simp [noMark, blank]

theorem skipIgnored_comment {bytes : List UInt8} {u : Lexer} (seen : peek s = .ok (some commentMark) t)
    (comment : takeWhile (· != newline) t.advance = .ok bytes u) : skipIgnored s = skipIgnored u := by
  rw [skipIgnored]
  split
  · next same => cases seen.symm.trans same
  · next same => cases seen.symm.trans same
  · next same =>
    cases seen.symm.trans same
    rw [if_pos rfl]
    split <;> next other => cases comment.symm.trans other <;> rfl

end Peeked

inductive Ignored : List UInt8 → Prop
  | nil : Ignored []
  | blank {b rest} (blank : isBlank b = true) (ignored : Ignored rest) : Ignored (b :: rest)
  | comment {text rest} (line : newline ∉ text) (ignored : Ignored rest) :
    Ignored (commentMark :: (text ++ newline :: rest))

def Awaits (s : Lexer) (bytes : List UInt8) : Prop :=
  ∃ later, s.unread ++ later = bytes ∧ Delivery.Brings s.deliveries later

theorem awaits_ofBytes (bytes : List UInt8) : (ofBytes bytes).Awaits bytes := by
  have whole : Delivery.Brings [.data bytes] (bytes ++ []) := .data (fun _ => rfl) .nil
  rw [List.append_nil] at whole
  exact ⟨bytes, rfl, whole⟩

namespace Awaits

variable {s : Lexer} {bytes rest : List UInt8} {b : UInt8}

theorem eq_nil (awaits : s.Awaits bytes) (exhausted : s.IsExhausted) : bytes = [] := by
  obtain ⟨later, rfl, brings⟩ := awaits
  rw [exhausted.2] at brings
  cases brings
  rw [exhausted.1]
  rfl

theorem peek (awaits : s.Awaits bytes) :
    ∃ t, Lexer.peek s = .ok bytes.head? t ∧ t.Awaits bytes ∧ t.unread.head? = bytes.head? := by
  obtain ⟨later, rfl, brings⟩ := awaits
  unfold Lexer.peek
  cases front : s.unread with
  | cons b others => exact ⟨s, rfl, ⟨later, by rw [front], brings⟩, by rw [front]; rfl⟩
  | nil =>
    obtain ⟨chunk, left, rest, read, rfl, last, brings⟩ := brings.read s.capacity_pos
    have same : chunk.head? = (chunk ++ left).head? := by
      cases chunk with
      | nil => rw [last rfl]; rfl
      | cons => rfl
    dsimp only
    rw [read]
    dsimp only
    rw [List.nil_append]
    exact ⟨_, by rw [same], ⟨left, rfl, brings⟩, same⟩

theorem advance (awaits : s.Awaits (b :: rest)) (seen : s.unread.head? = some b) : s.advance.Awaits rest := by
  obtain ⟨later, same, brings⟩ := awaits
  unfold Lexer.advance
  cases front : s.unread with
  | nil =>
    rw [front] at seen
    cases seen
  | cons first others =>
    rw [front] at same
    exact ⟨later, (List.cons.inj same).2, brings⟩

theorem advance_nil (awaits : s.Awaits []) : s.advance.Awaits [] := by
  obtain ⟨later, same, brings⟩ := awaits
  obtain ⟨unread, rfl⟩ := List.append_eq_nil_iff.mp same
  unfold Lexer.advance
  rw [unread]
  exact ⟨[], by rw [unread]; rfl, brings⟩

theorem bump (awaits : s.Awaits bytes) : ∃ t, Lexer.bump s = .ok bytes.head? t ∧ t.Awaits bytes.tail := by
  obtain ⟨t, looked, awaits, seen⟩ := awaits.peek
  refine ⟨t.advance, ?_, ?_⟩
  · simp only [Lexer.bump, bind, EStateM.bind, looked]
    rfl
  · cases bytes with
    | nil => exact awaits.advance_nil
    | cons b rest => exact awaits.advance seen

theorem takeWhile (p : UInt8 → Bool) (awaits : s.Awaits bytes) :
    ∃ t, Lexer.takeWhile p s = .ok (bytes.takeWhile p) t ∧ t.Awaits (bytes.dropWhile p) := by
  induction bytes generalizing s with
  | nil =>
    obtain ⟨t, seen, awaits, -⟩ := awaits.peek
    exact ⟨t, takeWhile_nothing seen, awaits⟩
  | cons b rest ih =>
    obtain ⟨t, seen, awaits, front⟩ := awaits.peek
    cases holds : p b with
    | false =>
      refine ⟨t, ?_, ?_⟩
      · rw [takeWhile_stop seen holds, List.takeWhile_cons, holds]
        rfl
      · rw [List.dropWhile_cons, holds]
        exact awaits
    | true =>
      obtain ⟨u, passed, awaits⟩ := ih (awaits.advance front)
      refine ⟨u, ?_, ?_⟩
      · rw [takeWhile_more seen holds passed, List.takeWhile_cons, holds]
        rfl
      · rw [List.dropWhile_cons, holds]
        exact awaits

theorem skipBlank (awaits : s.Awaits (b :: rest)) (blank : isBlank b = true) :
    ∃ t, skipIgnored s = skipIgnored t ∧ t.Awaits rest := by
  obtain ⟨t, seen, awaits, front⟩ := awaits.peek
  have noMark : b ≠ commentMark := by
    rintro rfl
    exact absurd blank (by decide)
  exact ⟨t.advance, skipIgnored_blank seen noMark blank, awaits.advance front⟩

theorem skipBlanks {blanks : List UInt8} (ignored : Ignored blanks) (awaits : s.Awaits (blanks ++ rest)) :
    ∃ t, Lexer.skipIgnored s = Lexer.skipIgnored t ∧ t.Awaits rest := by
  induction ignored generalizing s with
  | nil => exact ⟨s, rfl, awaits⟩
  | blank blank _ ih =>
    obtain ⟨t, same, awaits⟩ := awaits.skipBlank blank
    rw [same]
    exact ih awaits
  | @comment text blanks line _ ih =>
    rw [List.cons_append, List.append_assoc, List.cons_append] at awaits
    obtain ⟨t, seen, awaits, front⟩ := awaits.peek
    obtain ⟨u, passed, awaits⟩ := (awaits.advance front).takeWhile (· != newline)
    have inside : ∀ b ∈ text, (b != newline) = true := fun b among =>
      bne_iff_ne.mpr fun same => line (same ▸ among)
    rw [List.dropWhile_append_of_pos inside, List.dropWhile_cons, if_neg (by decide)] at awaits
    obtain ⟨v, same, awaits⟩ := awaits.skipBlank (by decide)
    rw [skipIgnored_comment seen passed, same]
    exact ih awaits

theorem skipIgnored {blanks : List UInt8} (ignored : Ignored blanks) (awaits : s.Awaits (blanks ++ rest))
    (starts : ∀ b ∈ rest.head?, b ≠ commentMark ∧ isBlank b = false) :
    ∃ t, Lexer.skipIgnored s = .ok () t ∧ t.Awaits rest := by
  obtain ⟨t, same, awaits⟩ := awaits.skipBlanks ignored
  obtain ⟨u, seen, awaits, -⟩ := awaits.peek
  rw [same]
  cases rest with
  | nil => exact ⟨u, skipIgnored_nothing seen, awaits⟩
  | cons b others =>
    obtain ⟨noMark, noBlank⟩ := starts b rfl
    exact ⟨u, skipIgnored_stop seen noMark noBlank, awaits⟩

end Awaits

/-- Of these bytes the scan makes `a`, and it leaves the rest to come. -/
def Yields {α : Type} (bytes : List UInt8) (act : Scanning α) (a : α) (rest : List UInt8) : Prop :=
  ∀ s : Lexer, s.Awaits bytes → ∃ t, act s = .ok a t ∧ t.Awaits rest

namespace Yields

variable {α β : Type} {bytes rest later : List UInt8} {act : Scanning α} {next : α → Scanning β} {a : α} {b : β}

theorem pure : Yields bytes (Pure.pure a) a bytes := fun s awaits => ⟨s, rfl, awaits⟩

theorem bind (first : Yields bytes act a rest) (second : Yields rest (next a) b later) :
    Yields bytes (act >>= next) b later := by
  intro s awaits
  obtain ⟨t, ran, awaits⟩ := first s awaits
  simp only [Bind.bind, EStateM.bind, ran]
  exact second t awaits

theorem peek : Yields bytes Lexer.peek bytes.head? bytes := by
  intro s awaits
  obtain ⟨t, seen, awaits, -⟩ := awaits.peek
  exact ⟨t, seen, awaits⟩

theorem bump : Yields bytes Lexer.bump bytes.head? bytes.tail := fun _ awaits => awaits.bump

theorem takeWhile {p : UInt8 → Bool} {run : List UInt8} (all : ∀ b ∈ run, p b = true)
    (ends : ∀ b ∈ rest.head?, p b = false) :
    Yields (run ++ rest) (Lexer.takeWhile p) run rest := by
  intro s awaits
  obtain ⟨t, passed, awaits⟩ := awaits.takeWhile p
  rw [List.takeWhile_append_of_pos all] at passed
  rw [List.dropWhile_append_of_pos all] at awaits
  cases rest with
  | nil => exact ⟨t, by simpa using passed, awaits⟩
  | cons b others =>
    have stops := ends b rfl
    rw [List.takeWhile_cons, stops] at passed
    rw [List.dropWhile_cons, stops] at awaits
    exact ⟨t, by simpa using passed, awaits⟩

theorem skipIgnored {blanks : List UInt8} (ignored : Ignored blanks)
    (starts : ∀ b ∈ rest.head?, b ≠ commentMark ∧ isBlank b = false) :
    Yields (blanks ++ rest) Lexer.skipIgnored () rest := fun _ awaits => awaits.skipIgnored ignored starts

end Yields

end Lexer

end HookScript
