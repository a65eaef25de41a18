import Mathlib
import HookScript.Proofs.Lexing.Munch

/-!
Reads that fail. A failing read cuts short the one call that it happens in, wherever in a token or before it that is. What
the call has passed over by then is lost: some of what is ignored and perhaps the front of the token that would have come
next. The later calls go on with the byte behind that, as if the text began there.
-/

namespace HookScript

namespace Delivery

/-- The stream delivers these bytes in pieces, with interruptions and these failures in between. A read gives nothing only
when no more bytes are left. -/
inductive Carries : List Delivery → List UInt8 → List ReadFailure → Prop
  | nil : Carries [] [] []
  | interrupted {deliveries bytes failures} (carries : Carries deliveries bytes failures) :
    Carries (.interrupted :: deliveries) bytes failures
  | failed {deliveries bytes failures failure} (carries : Carries deliveries bytes failures) :
    Carries (.failed failure :: deliveries) bytes (failure :: failures)
  | data {deliveries bytes failures chunk} (last : chunk = [] → bytes = []) (carries : Carries deliveries bytes failures) :
    Carries (.data chunk :: deliveries) (chunk ++ bytes) failures

section

variable {deliveries : List Delivery} {bytes : List UInt8} {failures : List ReadFailure}

theorem Brings.carries (brings : Brings deliveries bytes) : Carries deliveries bytes [] := by
  induction brings with
  | nil => exact .nil
  | interrupted _ ih => exact .interrupted ih
  | data last _ ih => exact .data last ih

theorem Carries.brings (carries : Carries deliveries bytes []) : Brings deliveries bytes := by
  generalize none : ([] : List ReadFailure) = failures at carries
  induction carries with
  | nil => exact .nil
  | interrupted _ ih => exact .interrupted (ih none)
  | failed => cases none
  | data last _ ih => exact .data last (ih none)

theorem Carries.newlines_eq (carries : Carries deliveries bytes failures) :
    newlines deliveries = bytes.count Lexer.newline := by
  induction carries with
  | nil => rfl
  | interrupted _ ih => exact ih
  | failed _ ih => exact ih
  | data _ _ ih => rw [newlines, ih, List.count_append]

theorem Carries.read {capacity : Nat} (positive : 0 < capacity) (carries : Carries deliveries bytes failures) :
    (∃ front later rest, Delivery.read capacity deliveries = (.ok front, rest) ∧ bytes = front ++ later ∧
      (front = [] → later = []) ∧ Carries rest later failures) ∨
    ∃ failure others rest, failures = failure :: others ∧ Delivery.read capacity deliveries = (.error failure, rest) ∧
      Carries rest bytes others := by
  induction carries with
  | nil => exact .inl ⟨[], [], [], rfl, rfl, id, .nil⟩
  | interrupted _ ih => exact ih
  | failed carries => exact .inr ⟨_, _, _, rfl, rfl, carries⟩
  | @data deliveries bytes failures chunk last carries =>
    refine .inl ⟨chunk.take capacity, chunk.drop capacity ++ bytes, _, rfl, ?_, fun none => ?_, ?_⟩
    · rw [← List.append_assoc, List.take_append_drop]
    · have empty : chunk = [] := (List.take_eq_nil_iff.1 none).resolve_left (Nat.ne_of_gt positive)
      rw [last empty, empty, List.drop_nil]
      rfl
    · split
      · next drained =>
        rw [drained]
        exact carries
      · next left =>
        exact .data (fun none => absurd none left) carries

end

def bytes : List Delivery → List UInt8
  | [] => []
  | .data chunk :: rest => chunk ++ bytes rest
  | _ :: rest => bytes rest

theorem Carries.bytes_eq {deliveries : List Delivery} {delivered : List UInt8} {failures : List ReadFailure}
    (carries : Carries deliveries delivered failures) : bytes deliveries = delivered := by
  induction carries with
  | nil => rfl
  | interrupted _ ih => exact ih
  | failed _ ih => exact ih
  | data _ _ ih => rw [bytes, ih]

end Delivery

namespace Lexer

def Holds (s : Lexer) (bytes : List UInt8) (failures : List ReadFailure) : Prop :=
  ∃ later, s.unread ++ later = bytes ∧ Delivery.Carries s.deliveries later failures

namespace Holds

variable {s : Lexer} {bytes rest : List UInt8} {failures : List ReadFailure} {b : UInt8}

theorem of_awaits (awaits : s.Awaits bytes) : s.Holds bytes [] := by
  obtain ⟨later, same, brings⟩ := awaits
  exact ⟨later, same, brings.carries⟩

theorem awaits (holds : s.Holds bytes []) : s.Awaits bytes := by
  obtain ⟨later, same, carries⟩ := holds
  exact ⟨later, same, carries.brings⟩

theorem newlines_eq (holds : s.Holds bytes failures) : s.newlines = bytes.count newline := by
  obtain ⟨later, rfl, carries⟩ := holds
  rw [newlines, carries.newlines_eq, List.count_append]

theorem peek (holds : s.Holds bytes failures) :
    (∃ t, Lexer.peek s = .ok bytes.head? t ∧ t.Holds bytes failures ∧ t.unread.head? = bytes.head?) ∨
    ∃ failure others t, failures = failure :: others ∧ Lexer.peek s = .error failure t ∧ t.Holds bytes others := by
  obtain ⟨later, rfl, carries⟩ := holds
  unfold Lexer.peek
  cases front : s.unread with
  | cons b others => exact .inl ⟨s, rfl, ⟨later, by rw [front], carries⟩, by rw [front]; rfl⟩
  | nil =>
    rcases carries.read s.capacity_pos with ⟨chunk, left, rest, read, rfl, last, carries⟩ |
      ⟨failure, others, rest, rfl, read, carries⟩
    · have same : chunk.head? = (chunk ++ left).head? := by
        cases chunk with
        | nil => rw [last rfl]; rfl
        | cons => rfl
      dsimp only
      rw [read]
      dsimp only
      rw [List.nil_append]
      exact .inl ⟨_, by rw [same], ⟨left, rfl, carries⟩, same⟩
    · dsimp only
      rw [read]
      exact .inr ⟨failure, others, _, rfl, rfl, later, rfl, carries⟩

theorem advance (holds : s.Holds bytes failures) (seen : s.unread.head? = bytes.head?) :
    s.advance.Holds bytes.tail failures := by
  obtain ⟨later, rfl, carries⟩ := holds
  unfold Lexer.advance
  cases front : s.unread with
  | nil =>
    rw [front] at seen
    cases later with
    | nil => exact ⟨[], by rw [front]; rfl, carries⟩
    | cons => cases seen
  | cons first others => exact ⟨later, rfl, carries⟩

end Holds

inductive Ended {α : Type} (bytes : List UInt8) (a : α) (rest : List UInt8) (failures : List ReadFailure) :
    EStateM.Result ReadFailure Lexer α → Prop
  | ok {t} (holds : t.Holds rest failures) : Ended bytes a rest failures (.ok a t)
  | error {failure others left t} (first : failures = failure :: others) (holds : t.Holds left others)
    (further : rest <:+ left) (within : left <:+ bytes) : Ended bytes a rest failures (.error failure t)

structure Tries {α : Type} (bytes : List UInt8) (act : Scanning α) (a : α) (rest : List UInt8) : Prop where
  within : rest <:+ bytes
  ended {s failures} (holds : Holds s bytes failures) : Ended bytes a rest failures (act s)

namespace Tries

variable {α β : Type} {bytes rest later : List UInt8} {act : Scanning α} {next : α → Scanning β} {a : α} {b : β}

theorem yields (tries : Tries bytes act a rest) : Yields bytes act a rest := by
  intro s awaits
  have ended := tries.ended (.of_awaits awaits)
  generalize act s = result at ended
  cases ended with
  | ok holds => exact ⟨_, rfl, holds.awaits⟩
  | error first => cases first

theorem pure : Tries bytes (Pure.pure a) a bytes := ⟨List.suffix_refl _, fun holds => .ok holds⟩

theorem bind (first : Tries bytes act a rest) (second : Tries rest (next a) b later) :
    Tries bytes (act >>= next) b later := by
  refine ⟨second.within.trans first.within, fun {s failures} holds => ?_⟩
  have ran := first.ended holds
  simp only [Bind.bind, EStateM.bind]
  generalize act s = result at ran
  cases ran with
  | error first' holds further within => exact .error first' holds (second.within.trans further) within
  | @ok t holds =>
    have ran := second.ended holds
    dsimp only
    generalize next a t = result at ran
    cases ran with
    | ok holds => exact .ok holds
    | error first' holds further within => exact .error first' holds further (within.trans first.within)

theorem peek : Tries bytes Lexer.peek bytes.head? bytes := by
  refine ⟨List.suffix_refl _, fun {s failures} holds => ?_⟩
  rcases holds.peek with ⟨t, seen, holds, -⟩ | ⟨failure, others, t, first, seen, holds⟩
  · rw [seen]
    exact .ok holds
  · rw [seen]
    exact .error first holds (List.suffix_refl _) (List.suffix_refl _)

theorem bump : Tries bytes Lexer.bump bytes.head? bytes.tail := by
  refine ⟨List.tail_suffix _, fun {s failures} holds => ?_⟩
  rcases holds.peek with ⟨t, seen, holds, front⟩ | ⟨failure, others, t, first, seen, holds⟩
  · have ran : Lexer.bump s = .ok bytes.head? t.advance := by
      simp only [Lexer.bump, Bind.bind, EStateM.bind, seen]
      rfl
    rw [ran]
    exact .ok (holds.advance front)
  · have ran : Lexer.bump s = .error failure t := by simp only [Lexer.bump, Bind.bind, EStateM.bind, seen]
    rw [ran]
    exact .error first holds (List.tail_suffix _) (List.suffix_refl _)

end Tries

theorem bump_of_peek {s t : Lexer} {b : UInt8} (seen : peek s = .ok (some b) t) : bump t = .ok (some b) t.advance := by
  simp only [bump, Bind.bind, EStateM.bind, peek_of_unread (unread_of_peek seen)]
  rfl

theorem takeWhile_eq (p : UInt8 → Bool) : @Eq (Scanning (List UInt8)) (takeWhile p) (do
    match ← peek with
    | none => return []
    | some b =>
      if p b then
        let _ ← bump
        let bytes ← takeWhile p
        return b :: bytes
      else return []) := by
  funext s
  rw [takeWhile]
  simp only [Bind.bind, EStateM.bind]
  split
  · next seen => rw [seen]
  · next seen => rw [seen]; rfl
  · next b t seen =>
    rw [seen]
    dsimp only
    split
    · simp only [EStateM.bind, bump_of_peek seen]
      split
      · next ran => rw [ran]; rfl
      · next ran => rw [ran]
    · rfl

theorem skipIgnored_eq : @Eq (Scanning Unit) skipIgnored (do
    match ← peek with
    | none => return ()
    | some b =>
      if b = commentMark then
        let _ ← bump
        let _ ← takeWhile (· != newline)
        skipIgnored
      else if isBlank b then
        let _ ← bump
        skipIgnored
      else return ()) := by
  funext s
  rw [skipIgnored]
  simp only [Bind.bind, EStateM.bind]
  split
  · next seen => rw [seen]
  · next seen => rw [seen]; rfl
  · next b t seen =>
    rw [seen]
    dsimp only
    split
    · simp only [EStateM.bind, bump_of_peek seen]
      split <;> next ran => rw [ran]
    · split
      · simp only [EStateM.bind, bump_of_peek seen]
      · rfl

theorem tries_takeWhile (p : UInt8 → Bool) (bytes : List UInt8) :
    Tries bytes (takeWhile p) (bytes.takeWhile p) (bytes.dropWhile p) := by
  induction bytes with
  | nil =>
    rw [takeWhile_eq]
    exact .bind .peek .pure
  | cons b rest ih =>
    rw [takeWhile_eq]
    refine .bind .peek ?_
    rw [List.takeWhile_cons, List.dropWhile_cons, List.head?_cons]
    dsimp only
    cases p b with
    | false => exact .pure
    | true => exact .bind .bump (.bind ih .pure)

theorem exists_tries_skipIgnored (bytes : List UInt8) : ∃ rest, Tries bytes skipIgnored () rest := by
  generalize size : bytes.length = n
  induction n using Nat.strongRecOn generalizing bytes with
  | ind n ih =>
    subst size
    rw [skipIgnored_eq]
    cases bytes with
    | nil => exact ⟨[], .bind .peek .pure⟩
    | cons b others =>
      by_cases mark : b = commentMark
      · have shorter : (others.dropWhile (· != newline)).length < (b :: others).length :=
          Nat.lt_succ_of_le (List.dropWhile_suffix _).length_le
        obtain ⟨rest, tries⟩ := ih _ shorter _ rfl
        refine ⟨rest, .bind .peek ?_⟩
        simp only [List.head?_cons, mark, if_true]
        exact .bind .bump (.bind (tries_takeWhile _ _) tries)
      · cases blank : isBlank b with
        | true =>
          obtain ⟨rest, tries⟩ := ih others.length (Nat.lt_succ_self _) others rfl
          refine ⟨rest, .bind .peek ?_⟩
          simp only [List.head?_cons, mark, blank, if_false, if_true]
          exact .bind .bump tries
        | false =>
          refine ⟨b :: others, .bind .peek ?_⟩
          simp only [List.head?_cons, mark, blank, if_false, Bool.false_eq_true]
          exact .pure

/-- Whatever is to come, the scan makes something of it unless a read fails. -/
def Resumes {α : Type} (act : Scanning α) : Prop := ∀ bytes, ∃ a rest, Tries bytes act a rest

namespace Resumes

variable {α β : Type} {act : Scanning α} {next : α → Scanning β} {a : α}

theorem pure : Resumes (Pure.pure a) := fun bytes => ⟨a, bytes, .pure⟩

theorem bind (first : Resumes act) (second : ∀ a, Resumes (next a)) : Resumes (act >>= next) := by
  intro bytes
  obtain ⟨a, rest, tries⟩ := first bytes
  obtain ⟨b, later, tries'⟩ := second a rest
  exact ⟨b, later, tries.bind tries'⟩

theorem peek : Resumes Lexer.peek := fun _ => ⟨_, _, .peek⟩

theorem bump : Resumes Lexer.bump := fun _ => ⟨_, _, .bump⟩

theorem takeWhile (p : UInt8 → Bool) : Resumes (Lexer.takeWhile p) := fun bytes => ⟨_, _, tries_takeWhile p bytes⟩

theorem skipIgnored : Resumes Lexer.skipIgnored := fun bytes => ⟨(), exists_tries_skipIgnored bytes⟩

end Resumes

inductive Built : {α : Type} → Scanning α → Prop
  | pure {α : Type} (a : α) : Built (Pure.pure a : Scanning α)
  | bind {α β : Type} {act : Scanning α} {next : α → Scanning β} (first : Built act) (second : ∀ a, Built (next a)) :
    Built (act >>= next)
  | peek : Built Lexer.peek
  | bump : Built Lexer.bump
  | takeWhile (p : UInt8 → Bool) : Built (Lexer.takeWhile p)
  | skipIgnored : Built Lexer.skipIgnored

theorem Built.resumes {α : Type} {act : Scanning α} (built : Built act) : Resumes act := by
  induction built with
  | pure => exact .pure
  | bind _ _ first second => exact first.bind second
  | peek => exact .peek
  | bump => exact .bump
  | takeWhile p => exact .takeWhile p
  | skipIgnored => exact .skipIgnored

theorem built_number : Built number := by
  refine (Built.takeWhile _).bind fun whole => Built.peek.bind fun front => ?_
  split
  · exact Built.bump.bind fun _ => (Built.takeWhile _).bind fun _ => .pure _
  · exact .pure _

theorem built_string : Built string := by
  refine (Built.takeWhile _).bind fun bytes => Built.bump.bind fun closing => ?_
  split <;> exact .pure _

theorem built_afterMark (b : UInt8) : Built (afterMark b) := by
  unfold afterMark
  split
  · exact .pure _
  · refine Built.peek.bind fun front => ?_
    split
    · exact Built.bump.bind fun _ => .pure _
    · exact .pure _
  · refine Built.bump.bind fun front => ?_
    split
    · split <;> exact .pure _
    · exact .pure _
  · split
    · exact built_string
    · exact .pure _

theorem built_nextToken : Built nextToken := by
  refine Built.skipIgnored.bind fun _ => Built.peek.bind fun front => ?_
  split
  · exact .pure _
  · unfold tokenAt
    split
    · exact built_number
    · split
      · exact (Built.takeWhile _).bind fun _ => .pure _
      · refine Built.bump.bind fun front => ?_
        split
        · exact .pure _
        · exact built_afterMark _

/-! ### Calls -/

open TokenSource (after next line)

inductive Consumes : List UInt8 → Except ReadFailure Token → List UInt8 → Prop
  | token {blanks source token later} (skipped : Longest Skips blanks (source ++ later))
    (longest : Longest IsLexeme source later) (lexeme : Lexeme token source later) :
    Consumes (blanks ++ (source ++ later)) (.ok token) later
  | ending {blanks} (skipped : Longest Skips blanks []) : Consumes blanks (.ok (.ofKind .endOfFile)) []
  | failedBefore {front blanks later failure} (skipped : Longest Skips (front ++ blanks) later) :
    Consumes (front ++ (blanks ++ later)) (.error failure) (blanks ++ later)
  | failedWithin {blanks front source later failure} (skipped : Longest Skips blanks (front ++ (source ++ later)))
    (longest : Longest IsLexeme (front ++ source) later) :
    Consumes (blanks ++ (front ++ (source ++ later))) (.error failure) (source ++ later)

section Calls

variable {s t : Lexer} {bytes rest left : List UInt8} {failures : List ReadFailure} {token : Token}

theorem consumes_of_yields (yields : Yields bytes nextToken token rest) : Consumes bytes (.ok token) rest := by
  obtain ⟨pieces, munched⟩ := exists_munched bytes
  cases munched with
  | nil skipped =>
    obtain ⟨rfl, rfl⟩ := yields.unique (nextToken_of_skipped skipped)
    exact .ending skipped
  | cons skipped longest lexeme _ =>
    obtain ⟨rfl, rfl⟩ := yields.unique (nextToken_of_piece skipped longest lexeme)
    rw [Piece.bytes, List.append_assoc]
    exact .token skipped longest lexeme

theorem consumes_of_failure (yields : Yields bytes nextToken token rest) (further : rest <:+ left) (within : left <:+ bytes)
    (failure : ReadFailure) : Consumes bytes (.error failure) left := by
  obtain ⟨pieces, munched⟩ := exists_munched bytes
  obtain ⟨front, rfl⟩ := within
  obtain ⟨back, rfl⟩ := further
  generalize whole : front ++ (back ++ rest) = bytes at munched yields
  cases munched with
  | nil skipped =>
    obtain ⟨-, rfl⟩ := yields.unique (nextToken_of_skipped skipped)
    rw [List.append_nil] at whole
    subst whole
    have failed : Consumes (front ++ (back ++ [])) (.error failure) (back ++ []) := .failedBefore skipped
    rwa [List.append_nil] at failed ⊢
  | @cons piece _ _ skipped longest lexeme _ =>
    obtain ⟨-, rfl⟩ := yields.unique (nextToken_of_piece skipped longest lexeme)
    obtain ⟨blanks, source, token⟩ := piece
    rw [← List.append_assoc] at whole
    dsimp only at skipped longest
    rcases List.append_eq_append_iff.1 (List.append_cancel_right whole) with ⟨more, rfl, rfl⟩ | ⟨more, rfl, rfl⟩
    · rw [Piece.bytes, List.append_assoc, List.append_assoc, List.append_assoc]
      exact .failedBefore skipped
    · rw [List.append_assoc] at skipped
      rw [Piece.bytes, List.append_assoc, List.append_assoc]
      exact .failedWithin skipped longest

theorem next_cases (holds : s.Holds bytes failures) : ∃ token rest, Yields bytes nextToken token rest ∧
    ((next s).1 = .ok token ∧ (next s).2.Holds rest failures ∨
      ∃ failure others left, failures = failure :: others ∧ (next s).1 = .error failure ∧ (next s).2.Holds left others ∧
        Consumes bytes (.error failure) left) := by
  obtain ⟨token, rest, tries⟩ := built_nextToken.resumes bytes
  refine ⟨token, rest, tries.yields, ?_⟩
  have ended := tries.ended holds
  rw [next_eq, scan]
  generalize nextToken s = result at ended
  cases ended with
  | ok holds => exact .inl ⟨rfl, holds⟩
  | error first holds further within =>
    exact .inr ⟨_, _, _, first, rfl, holds, consumes_of_failure tries.yields further within _⟩

def failure? : Except ReadFailure Token → Option ReadFailure
  | .error failure => some failure
  | .ok _ => none

theorem next_of_holds (holds : s.Holds bytes failures) : ∃ left others, Consumes bytes (next s).1 left ∧
    failures = (failure? (next s).1).toList ++ others ∧ (next s).2.Holds left others := by
  obtain ⟨token, rest, yields, ⟨found, holds⟩ | ⟨failure, others, left, rfl, failed, holds, consumes⟩⟩ := next_cases holds
  · rw [found]
    exact ⟨rest, failures, consumes_of_yields yields, rfl, holds⟩
  · rw [failed]
    exact ⟨left, others, consumes, rfl, holds⟩

theorem Consumes.exists_used {answer : Except ReadFailure Token} (consumes : Consumes bytes answer left) :
    ∃ used, bytes = used ++ left := by
  cases consumes with
  | token => exact ⟨_, (List.append_assoc _ _ _).symm⟩
  | ending => exact ⟨_, (List.append_nil _).symm⟩
  | failedBefore => exact ⟨_, rfl⟩
  | failedWithin => exact ⟨_, (List.append_assoc _ _ _).symm⟩

end Calls

/-! ### Runs -/

/-- The failures that have been reported when the lexer has been asked so many times. -/
def reported (s : Lexer) (n : Nat) : List ReadFailure :=
  (List.range n).filterMap fun k => failure? (next (after s k)).1

def pending (s : Lexer) : List UInt8 := s.unread ++ Delivery.bytes s.deliveries

section Runs

variable {s t : Lexer} {bytes : List UInt8} {failures : List ReadFailure}

theorem Holds.pending_eq (holds : s.Holds bytes failures) : s.pending = bytes := by
  obtain ⟨later, rfl, carries⟩ := holds
  rw [pending, carries.bytes_eq]

theorem reported_succ (s : Lexer) (n : Nat) :
    reported s (n + 1) = reported s n ++ (failure? (next (after s n)).1).toList := by
  rw [reported, List.range_succ, List.filterMap_append, ← reported]
  cases same : failure? (next (after s n)).1 <;> simp [same]

theorem after_after (s : Lexer) (n k : Nat) : after (after s n) k = after s (n + k) := by
  induction k with
  | zero => rfl
  | succ k ih => rw [after, ih, ← Nat.add_assoc, after]

/-- By induction on the number of calls: each failure is reported once and no byte comes twice. -/
theorem holds_after (holds : s.Holds bytes failures) (n : Nat) : ∃ used left others, bytes = used ++ left ∧
    failures = reported s n ++ others ∧ (after s n).Holds left others := by
  induction n with
  | zero => exact ⟨[], bytes, failures, rfl, rfl, holds⟩
  | succ n ih =>
    obtain ⟨used, before, further, rfl, rfl, now⟩ := ih
    obtain ⟨left, others, consumes, rfl, later⟩ := next_of_holds now
    obtain ⟨passed, rfl⟩ := consumes.exists_used
    exact ⟨used ++ passed, left, others, (List.append_assoc _ _ _).symm,
      by rw [reported_succ, List.append_assoc], later⟩

theorem isExhausted_or_size_le (s : Lexer) (n : Nat) : (after s n).IsExhausted ∨ (after s n).size + n ≤ s.size := by
  induction n with
  | zero => exact .inr (Nat.le_refl _)
  | succ n ih =>
    by_cases exhausted : (after s n).IsExhausted
    · rw [after, next_eq, scan_of_isExhausted exhausted]
      exact .inl exhausted
    · have less := nextToken_size_lt exhausted
      rw [← scan_state] at less
      have before := ih.resolve_left exhausted
      refine .inr ?_
      rw [after, next_eq]
      dsimp only
      omega

theorem reported_eq (holds : s.Holds bytes failures) {n : Nat} (enough : s.size < n) : reported s n = failures := by
  obtain ⟨used, left, others, -, rfl, later, -, carries⟩ := holds_after holds n
  have exhausted : (after s n).IsExhausted := (isExhausted_or_size_le s n).resolve_right (by omega)
  rw [exhausted.2] at carries
  cases carries
  exact (List.append_nil _).symm

theorem alike_after (holds : s.Holds bytes failures) (awaits : t.Awaits bytes) {n : Nat}
    (found : ∀ k < n, ∃ token, (next (after s k)).1 = .ok token) :
    ∃ left, (after s n).Holds left failures ∧ (after t n).Awaits left := by
  induction n with
  | zero => exact ⟨bytes, holds, awaits⟩
  | succ n ih =>
    obtain ⟨left, holds, awaits⟩ := ih fun k before => found k (Nat.lt_succ_of_lt before)
    obtain ⟨token, rest, yields, ⟨-, holds⟩ | ⟨failure, -, -, -, failed, -⟩⟩ := next_cases holds
    · exact ⟨rest, holds, (next_of_yields yields awaits).2⟩
    · obtain ⟨token, found⟩ := found n (Nat.lt_succ_self n)
      cases failed.symm.trans found

theorem answers_alike (holds : s.Holds bytes failures) (awaits : t.Awaits bytes) {n : Nat}
    (found : ∀ k ≤ n, ∃ token, (next (after s k)).1 = .ok token) :
    (next (after s n)).1 = (next (after t n)).1 ∧
      line (after s (n + 1)) + line t = line s + line (after t (n + 1)) := by
  constructor
  · obtain ⟨left, holds, awaits⟩ := alike_after holds awaits fun k before => found k (Nat.le_of_lt before)
    obtain ⟨token, rest, yields, ⟨same, -⟩ | ⟨failure, -, -, -, failed, -⟩⟩ := next_cases holds
    · exact same.trans (next_of_yields yields awaits).1.symm
    · obtain ⟨token, found⟩ := found n (Nat.le_refl n)
      cases failed.symm.trans found
  · obtain ⟨left, holds', awaits'⟩ := alike_after holds awaits fun k before => found k (Nat.le_of_lt_succ before)
    have lines := line_after s (n + 1)
    have lines' := line_after t (n + 1)
    rw [holds'.newlines_eq, holds.newlines_eq] at lines
    rw [awaits'.newlines_eq, awaits.newlines_eq] at lines'
    have start : line s = s.line := rfl
    have start' : line t = t.line := rfl
    omega

end Runs

/-- A failing read costs at most the token that it interrupts. Each failure is reported once, in order, and in the end all of
them are. Each call takes up where the one before it has stopped: it passes over what is ignored and the lexeme behind
that and gives its token, or it fails within these bytes. The line is one further on for each newline that has been
passed over. From any call on, and so after a failure, the tokens are those of the bytes to come alone until the next
failure, and the lines go up as they do there. -/
theorem resumes_of_carries {capacity : Nat} (positive : 0 < capacity) {deliveries : List Delivery} {bytes : List UInt8}
    {failures : List ReadFailure} (carries : Delivery.Carries deliveries bytes failures) :
    ∃ lexer, withCapacity? capacity deliveries = some lexer ∧ lexer.pending = bytes ∧
      (∀ n, reported lexer n <+: failures) ∧ (∃ enough, ∀ n, enough ≤ n → reported lexer n = failures) ∧
      (∀ n, Consumes (after lexer n).pending (next (after lexer n)).1 (after lexer (n + 1)).pending) ∧
      (∀ n, ∃ used, bytes = used ++ (after lexer n).pending ∧ line (after lexer n) = 1 + used.count newline) ∧
      ∀ n k, (∀ j ≤ k, ∃ token, (next (after lexer (n + j))).1 = .ok token) →
        (next (after lexer (n + k))).1 = (next (after (ofBytes (after lexer n).pending) k)).1 ∧
          line (after lexer (n + k + 1)) + 1 =
            line (after lexer n) + line (after (ofBytes (after lexer n).pending) (k + 1)) := by
  have start : (Lexer.mk deliveries capacity [] 1 positive).Holds bytes failures := ⟨bytes, rfl, carries⟩
  refine ⟨_, dif_pos positive, start.pending_eq, fun n => ?_, ⟨_, fun n enough => reported_eq start enough⟩, fun n => ?_,
    fun n => ?_, fun n k found => ?_⟩
  · obtain ⟨_, _, others, _, same, _⟩ := holds_after start n
    exact ⟨others, same.symm⟩
  · obtain ⟨_, left, _, _, _, now⟩ := holds_after start n
    obtain ⟨rest, _, consumes, _, later⟩ := next_of_holds now
    rw [now.pending_eq, after, later.pending_eq]
    exact consumes
  · obtain ⟨used, left, _, whole, _, now⟩ := holds_after start n
    have lines := line_after (Lexer.mk deliveries capacity [] 1 positive) n
    rw [now.newlines_eq, start.newlines_eq, whole, List.count_append] at lines
    dsimp only at lines
    exact ⟨used, by rw [now.pending_eq, whole], by omega⟩
  · obtain ⟨_, left, _, _, _, now⟩ := holds_after start n
    rw [now.pending_eq, Nat.add_assoc, ← after_after, ← after_after]
    refine answers_alike now (awaits_ofBytes left) fun j before => ?_
    rw [after_after]
    exact found j before

def tornReads : List Delivery :=
  [.data [0x31], .failed ⟨"first"⟩, .data [0x2E, 0x35, 0x3D], .failed ⟨"second"⟩, .data [0x3D, 0x22, 0x63], .interrupted,
    .failed ⟨"third"⟩, .data [0x64, 0x0A, 0x32], .data []]

/-- After the failure in the string, what is left of it is read as a word. -/
theorem resumes_of_tornReads : ∃ lexer, withCapacity? 2 tornReads = some lexer ∧
    (∃ enough, ∀ n, enough ≤ n → reported lexer n = [⟨"first"⟩, ⟨"second"⟩, ⟨"third"⟩]) ∧
    (next (after lexer 5)).1 = .error ⟨"third"⟩ ∧ (after lexer 6).pending = [0x64, 0x0A, 0x32] ∧
    (next (after lexer 7)).1 = .ok ⟨.integer, "2"⟩ ∧ line (after lexer 8) = 2 := by
  have carries : Delivery.Carries tornReads [0x31, 0x2E, 0x35, 0x3D, 0x3D, 0x22, 0x63, 0x64, 0x0A, 0x32]
      [⟨"first"⟩, ⟨"second"⟩, ⟨"third"⟩] :=
    .data nofun (.failed (.data nofun (.failed (.data nofun (.interrupted (.failed (.data nofun
      (.data (fun _ => rfl) .nil))))))))
  obtain ⟨lexer, made, _, _, all, _, _, resumed⟩ := resumes_of_carries (by decide : 0 < 2) carries
  cases made
  have left : (after (Lexer.mk tornReads 2 [] 1 (by decide)) 6).pending = [0x64, 0x0A, 0x32] := by cbv
  obtain ⟨same, lines⟩ := resumed 6 1 fun j before => by
    rcases Nat.le_one_iff_eq_zero_or_eq_one.1 before with rfl | rfl
    · exact ⟨⟨.identifier, "d"⟩, by cbv⟩
    · exact ⟨⟨.integer, "2"⟩, by cbv⟩
  rw [left] at same lines
  exact ⟨_, rfl, all, by cbv, left, same.trans (by cbv), by cbv⟩

end Lexer

end HookScript
