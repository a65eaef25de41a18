import HookScript.Proofs.Lexing.Failures

/-!
Reads that give nothing although there are bytes behind them. To the lexer such a read is the end of the text. If it is
what ends the skipping, the call looks for the first byte of its token with a further read and takes what that read gives,
without skipping again: a blank or the mark of a comment becomes an illegal token. Illegal tokens begin so in no other way.
-/

namespace HookScript

open Text.Utf8 (encode decodeLenient)
open TokenSource (after next)

namespace Delivery

/-- The reads of nothing that have bytes behind them. -/
def pauses : List Delivery → Nat
  | [] => 0
  | .data [] :: rest => pauses rest + if bytes rest = [] then 0 else 1
  | _ :: rest => pauses rest

section

variable {deliveries rest : List Delivery} {chunk front : List UInt8}

theorem pauses_of_chunk (some : chunk ≠ []) : pauses (.data chunk :: rest) = pauses rest := by
  cases chunk with
  | nil => exact absurd rfl some
  | cons => rfl

theorem pauses_le_data (chunk : List UInt8) (rest : List Delivery) : pauses rest ≤ pauses (.data chunk :: rest) := by
  cases chunk with
  | nil => exact Nat.le_add_right _ _
  | cons => exact Nat.le_refl _

theorem Carries.pauses_eq {delivered : List UInt8} {failures : List ReadFailure}
    (carries : Carries deliveries delivered failures) : pauses deliveries = 0 := by
  induction carries with
  | nil => rfl
  | interrupted _ ih => exact ih
  | failed _ ih => exact ih
  | @data _ _ _ chunk last carries ih =>
    cases chunk with
    | nil => rw [pauses, carries.bytes_eq, last rfl, ih, if_pos rfl]
    | cons => exact ih

theorem pauses_read_le (capacity : Nat) (deliveries : List Delivery) :
    pauses (read capacity deliveries).2 ≤ pauses deliveries := by
  fun_induction read capacity deliveries with
  | case1 => exact Nat.le_refl _
  | case2 rest ih => exact ih
  | case3 => exact Nat.le_refl _
  | case4 chunk rest =>
    dsimp only
    split
    · exact pauses_le_data chunk rest
    · next left =>
      rw [pauses_of_chunk left]
      exact pauses_le_data chunk rest

theorem pauses_read_lt {capacity : Nat} (positive : 0 < capacity) (gave : read capacity deliveries = (.ok [], rest))
    (more : bytes rest ≠ []) : pauses rest < pauses deliveries := by
  fun_induction read capacity deliveries with
  | case1 =>
    cases gave
    exact absurd rfl more
  | case2 rest ih => exact ih gave
  | case3 => cases gave
  | case4 chunk later =>
    obtain ⟨none, left⟩ := Prod.mk.inj gave
    have empty : chunk = [] := (List.take_eq_nil_iff.1 (Except.ok.inj none)).resolve_left (Nat.ne_of_gt positive)
    rw [empty, List.drop_nil] at left
    obtain rfl : later = rest := left
    subst empty
    rw [pauses, if_neg more]
    exact Nat.lt_succ_self _

theorem bytes_of_read {capacity : Nat} (gave : read capacity deliveries = (.ok front, rest)) :
    bytes deliveries = front ++ bytes rest := by
  fun_induction read capacity deliveries with
  | case1 =>
    cases gave
    rfl
  | case2 rest ih => exact ih gave
  | case3 => cases gave
  | case4 chunk later =>
    obtain ⟨taken, left⟩ := Prod.mk.inj gave
    obtain rfl := Except.ok.inj taken
    subst left
    split
    · next drained => rw [bytes, List.take_of_length_le (List.drop_eq_nil_iff.1 drained)]
    · rw [bytes, bytes, ← List.append_assoc, List.take_append_drop]

end

end Delivery

namespace Lexer

def pauses (s : Lexer) : Nat := Delivery.pauses s.deliveries

section Pauses

variable {s t : Lexer} {b : UInt8}

theorem advance_pauses (s : Lexer) : s.advance.pauses = s.pauses := by
  unfold advance
  split <;> rfl

theorem peek_pauses_le (s : Lexer) : (stateOf (peek s)).pauses ≤ s.pauses := by
  have less := Delivery.pauses_read_le s.capacity s.deliveries
  unfold peek
  split
  · exact Nat.le_refl _
  · split
    all_goals
      next gave =>
        rw [gave] at less
        exact less

theorem pauses_le_of_peek {seen : Option UInt8} (looked : peek s = .ok seen t) : t.advance.pauses ≤ s.pauses := by
  have less := peek_pauses_le s
  rw [looked] at less
  rwa [advance_pauses]

theorem takeWhile_pauses_le (p : UInt8 → Bool) (s : Lexer) : (stateOf (takeWhile p s)).pauses ≤ s.pauses := by
  fun_induction takeWhile p s with
  | case1 s failure t seen => simpa [seen, stateOf] using peek_pauses_le s
  | case2 s t seen => simpa [seen, stateOf] using peek_pauses_le s
  | case3 s b t seen _ bytes u passed ih =>
    rw [passed] at ih
    exact Nat.le_trans ih (pauses_le_of_peek seen)
  | case4 s b t seen _ failure u passed ih =>
    rw [passed] at ih
    exact Nat.le_trans ih (pauses_le_of_peek seen)
  | case5 s b t seen => simpa [seen, stateOf] using peek_pauses_le s

theorem pauses_le_of_comment {bytes : List UInt8} {u : Lexer} (seen : peek s = .ok (some commentMark) t)
    (passed : takeWhile (· != newline) t.advance = .ok bytes u) : u.pauses ≤ s.pauses := by
  have less := takeWhile_pauses_le (· != newline) t.advance
  rw [passed] at less
  exact Nat.le_trans less (pauses_le_of_peek seen)

theorem skipIgnored_pauses_le (s : Lexer) : (stateOf (skipIgnored s)).pauses ≤ s.pauses := by
  fun_induction skipIgnored s with
  | case1 s failure t seen => simpa [seen, stateOf] using peek_pauses_le s
  | case2 s t seen => simpa [seen, stateOf] using peek_pauses_le s
  | case3 s t failure u passed seen =>
    have less := takeWhile_pauses_le (· != newline) t.advance
    rw [passed] at less
    exact Nat.le_trans less (pauses_le_of_peek seen)
  | case4 s t bytes u passed seen ih => exact Nat.le_trans ih (pauses_le_of_comment seen passed)
  | case5 s b t seen _ _ ih => exact Nat.le_trans ih (pauses_le_of_peek seen)
  | case6 s b t seen => simpa [seen, stateOf] using peek_pauses_le s

theorem Built.pauses_le {α : Type} {act : Scanning α} (built : Built act) (s : Lexer) :
    (stateOf (act s)).pauses ≤ s.pauses := by
  induction built generalizing s with
  | pure => exact Nat.le_refl _
  | bind _ _ first second =>
    have less := first s
    simp only [Bind.bind, EStateM.bind]
    split
    · next a t ran =>
      rw [ran] at less
      exact Nat.le_trans (second a t) less
    · next ran =>
      rw [ran] at less
      exact less
  | peek => exact peek_pauses_le s
  | bump =>
    have less := peek_pauses_le s
    simp only [Lexer.bump, Bind.bind, EStateM.bind]
    split
    · next seen =>
      rw [seen] at less
      exact Nat.le_trans (Nat.le_of_eq (advance_pauses _)) less
    · next seen =>
      rw [seen] at less
      exact less
  | takeWhile p => exact takeWhile_pauses_le p s
  | skipIgnored => exact skipIgnored_pauses_le s

end Pauses

/-! ### Where skipping ends -/

def startsIgnored (b : UInt8) : Bool := b = commentMark || isBlank b

/-- Skipping ends with a read of nothing, and the read after that one gives `b` first. -/
def PausesBefore (s : Lexer) (b : UInt8) (t : Lexer) : Prop :=
  ∃ u, skipIgnored s = .ok () u ∧ u.unread = [] ∧ peek u = .ok (some b) t

section Skipping

variable {s t : Lexer} {b : UInt8}

theorem read_of_peek {front : Option UInt8} (seen : peek s = .ok front t) (drained : s.unread = []) :
    Delivery.read s.capacity s.deliveries = (.ok t.unread, t.deliveries) ∧ front = t.unread.head? := by
  unfold peek at seen
  rw [drained] at seen
  dsimp only at seen
  split at seen
  · next gave =>
    cases seen
    exact ⟨gave, rfl⟩
  · cases seen

theorem unread_of_peek_none (seen : peek s = .ok none t) : s.unread = [] ∧ t.unread = [] := by
  cases drained : s.unread with
  | nil => exact ⟨rfl, List.head?_eq_none_iff.1 (read_of_peek seen drained).2.symm⟩
  | cons b others =>
    have front : s.unread.head? = some b := by rw [drained]; rfl
    cases seen.symm.trans (peek_of_unread front)

theorem front_of_skipIgnored (ran : skipIgnored s = .ok () t) : ∀ b ∈ t.unread.head?, startsIgnored b = false := by
  fun_induction skipIgnored s with
  | case1 => cases ran
  | case2 s u seen =>
    cases ran
    rw [(unread_of_peek_none seen).2]
    intro first none
    cases none
  | case3 => cases ran
  | case4 s u bytes v passed seen ih => exact ih ran
  | case5 s b u seen _ _ ih => exact ih ran
  | case6 s b u seen noMark noBlank =>
    cases ran
    intro first front
    obtain rfl : b = first := Option.some.inj ((unread_of_peek seen).symm.trans front)
    simpa [startsIgnored, noMark] using noBlank

theorem pauses_lt_of_skipIgnored (ran : skipIgnored s = .ok () t) (drained : t.unread = [])
    (more : Delivery.bytes t.deliveries ≠ []) : t.pauses < s.pauses := by
  fun_induction skipIgnored s with
  | case1 => cases ran
  | case2 s u seen =>
    cases ran
    have gave := (read_of_peek seen (unread_of_peek_none seen).1).1
    rw [drained] at gave
    exact Delivery.pauses_read_lt s.capacity_pos gave more
  | case3 => cases ran
  | case4 s u bytes v passed seen ih => exact Nat.lt_of_lt_of_le (ih ran) (pauses_le_of_comment seen passed)
  | case5 s b u seen _ _ ih => exact Nat.lt_of_lt_of_le (ih ran) (pauses_le_of_peek seen)
  | case6 s b u seen =>
    cases ran
    have front := unread_of_peek seen
    rw [drained] at front
    cases front

theorem PausesBefore.pauses_lt (before : s.PausesBefore b t) : t.advance.pauses < s.pauses := by
  obtain ⟨u, ran, drained, seen⟩ := before
  refine Nat.lt_of_le_of_lt (pauses_le_of_peek seen) (pauses_lt_of_skipIgnored ran drained fun none => ?_)
  obtain ⟨gave, front⟩ := read_of_peek seen drained
  have whole := Delivery.bytes_of_read gave
  rw [none] at whole
  rw [(List.append_eq_nil_iff.1 whole.symm).1] at front
  cases front

end Skipping

/-! ### Tokens that begin like what is ignored -/

/-- An illegal token that begins like a blank or a comment. -/
def misread : Except ReadFailure Token → Bool
  | .ok token => token.kind = .illegal && (encode token.lexeme).head?.any startsIgnored
  | .error _ => false

section Misread

variable {s t : Lexer} {b : UInt8}

theorem misread_of_kind {kind : TokenKind} {lexeme : String} (other : kind ≠ .illegal) :
    misread (.ok ⟨kind, lexeme⟩) = false := by
  simp [misread, other]

theorem misread_of_fixed {kind : TokenKind} (fixed : kind.Fixed) : misread (.ok (.ofKind kind)) = false :=
  misread_of_kind fun same => absurd fixed (by rw [same]; decide)

theorem misread_of_head {lexeme : String} {first : UInt8} (head : (encode lexeme).head? = some first)
    (clean : startsIgnored first = false) : misread (.ok ⟨.illegal, lexeme⟩) = false := by
  simp [misread, head, clean]

theorem misread_byte (clean : startsIgnored b = false) : misread (.ok ⟨.illegal, decodeLenient [b]⟩) = false := by
  by_cases small : b.toNat < 0x80
  · exact misread_of_head (Text.Utf8.head?_encode_decodeLenient small []) clean
  · exact misread_of_head (Text.Utf8.head?_encode_replacement (Nat.not_lt.1 small)) (by decide)

theorem afterMark_of_ignored (ignored : startsIgnored b = true) : isDigit b = false ∧ isLetter b = false ∧
    b.toNat < 0x80 ∧ afterMark b = return ⟨.illegal, decodeLenient [b]⟩ := by
  have first : b = commentMark ∨ isBlank b = true := by simpa [startsIgnored] using ignored
  simp only [isBlank, Bool.or_eq_true, decide_eq_true_eq, or_assoc] at first
  rcases first with rfl | rfl | rfl | rfl | rfl | rfl
  all_goals exact ⟨by decide, by decide, by decide, rfl⟩

theorem tracks_number_clean : Tracks number fun token => misread (.ok token) = false := by
  refine (tracks_takeWhile _).bind fun whole _ => tracks_peek.bind fun front _ => ?_
  split
  · exact tracks_bump.bind fun _ _ => (tracks_takeWhile _).bind fun _ _ => .pure (misread_of_kind (by decide))
  · exact .pure (misread_of_kind (by decide))

theorem tracks_word_clean : Tracks word fun token => misread (.ok token) = false := by
  refine (tracks_takeWhile _).bind fun bytes _ => .pure ?_
  unfold Token.ofWord
  split
  · exact misread_of_kind (by decide)
  · split
    · next kind known =>
      have keywords : ∀ kind ∈ TokenKind.keywords, kind.Fixed := by decide
      exact misread_of_fixed (keywords kind (List.mem_of_find?_eq_some known))
    · exact misread_of_kind (by decide)

theorem tracks_afterMark_clean (clean : startsIgnored b = false) :
    Tracks (afterMark b) fun token => misread (.ok token) = false := by
  unfold afterMark
  split
  · next known => exact .pure (misread_of_fixed (fixed_of_single? known))
  · next known =>
    obtain ⟨alone, together⟩ := fixed_of_orEqual? known
    refine tracks_peek.bind fun front _ => ?_
    split
    · exact tracks_bump.bind fun _ _ => .pure (misread_of_fixed together)
    · exact .pure (misread_of_fixed alone)
  · next known =>
    refine tracks_bump.bind fun second _ => ?_
    have small : ∀ half ∈ halves, half.1.toNat < 0x80 := by decide
    split
    · split
      · exact .pure (misread_of_fixed (fixed_of_doubled? known))
      · exact .pure (misread_of_head (Text.Utf8.head?_encode_decodeLenient (small _ (halves_of_doubled known)) _) clean)
    · exact .pure (misread_byte clean)
  · split
    · refine (tracks_takeWhile _).bind fun text _ => tracks_bump.bind fun closing _ => ?_
      split
      · exact .pure (misread_of_kind (by decide))
      · have head : (encode ("\"" ++ decodeLenient text)).head? = some quote := by
          rw [Text.Utf8.encode_append]
          rfl
        exact .pure (misread_of_head head (by decide))
    · exact .pure (misread_byte clean)

theorem tokenAt_of_front (front : s.unread.head? = some b) (noDigit : isDigit b = false) (noLetter : isLetter b = false) :
    tokenAt b s = afterMark b s.advance := by
  have passed := bump_of_peek (peek_of_unread front)
  simp only [tokenAt, noDigit, noLetter, Bool.false_eq_true, if_false, mark, Bind.bind, EStateM.bind, passed]

theorem tracked_tokenAt_clean (front : s.unread.head? = some b) (clean : startsIgnored b = false) :
    Tracked (fun token => misread (.ok token) = false) s (tokenAt b s) := by
  cases noDigit : isDigit b with
  | true =>
    rw [tokenAt, if_pos noDigit]
    exact tracks_number_clean s
  | false =>
    cases noLetter : isLetter b with
    | true =>
      rw [tokenAt, if_neg (by simp [noDigit]), if_pos noLetter]
      exact tracks_word_clean s
    | false =>
      rw [tokenAt_of_front front noDigit noLetter]
      exact .after (onward_advance s) (tracks_afterMark_clean clean s.advance)

theorem next_of_pausesBefore (ignored : startsIgnored b = true) (before : s.PausesBefore b t) :
    next s = (.ok ⟨.illegal, decodeLenient [b]⟩, t.advance) := by
  obtain ⟨u, skipped, -, seen⟩ := before
  obtain ⟨noDigit, noLetter, -, taken⟩ := afterMark_of_ignored ignored
  have ran : nextToken s = .ok ⟨.illegal, decodeLenient [b]⟩ t.advance := by
    simp only [nextToken, Bind.bind, EStateM.bind, skipped, seen,
      tokenAt_of_front (unread_of_peek seen) noDigit noLetter, taken]
    rfl
  rw [next_eq, scan, ran]

theorem nextToken_courses (s : Lexer) : (∃ failure t, nextToken s = .error failure t) ∨
    (∃ t, nextToken s = .ok (.ofKind .endOfFile) t) ∨
    ∃ b t u, skipIgnored s = .ok () u ∧ peek u = .ok (some b) t ∧ nextToken s = tokenAt b t := by
  simp only [nextToken, Bind.bind, EStateM.bind]
  cases skipped : skipIgnored s with
  | error failure u => exact .inl ⟨failure, u, rfl⟩
  | ok _ u =>
    dsimp only
    cases seen : peek u with
    | error failure t => exact .inl ⟨failure, t, rfl⟩
    | ok front t =>
      cases front with
      | none => exact .inr (.inl ⟨t, rfl⟩)
      | some b => exact .inr (.inr ⟨b, t, u, rfl, seen, rfl⟩)

theorem pausesBefore_of_ignored {u : Lexer} (skipped : skipIgnored s = .ok () u) (seen : peek u = .ok (some b) t)
    (ignored : startsIgnored b = true) : s.PausesBefore b t := by
  refine ⟨u, skipped, ?_, seen⟩
  cases drained : u.unread with
  | nil => rfl
  | cons first others =>
    have front : u.unread.head? = some first := by rw [drained]; rfl
    cases seen.symm.trans (peek_of_unread front)
    cases ignored.symm.trans (front_of_skipIgnored skipped b front)

theorem misread_iff : misread (next s).1 = true ↔ ∃ b t, startsIgnored b = true ∧ s.PausesBefore b t := by
  constructor
  · intro wrong
    rw [next_eq, scan] at wrong
    rcases nextToken_courses s with ⟨failure, t, ran⟩ | ⟨t, ran⟩ | ⟨b, t, u, skipped, seen, ran⟩
    · rw [ran] at wrong
      cases wrong
    · rw [ran] at wrong
      cases wrong
    · cases ignored : startsIgnored b with
      | true => exact ⟨b, t, ignored, pausesBefore_of_ignored skipped seen ignored⟩
      | false =>
        have tracked := tracked_tokenAt_clean (unread_of_peek seen) ignored
        rw [← ran] at tracked
        generalize nextToken s = result at tracked wrong
        cases tracked with
        | ok _ clean => cases clean.symm.trans wrong
        | error => cases wrong
  · rintro ⟨b, t, ignored, before⟩
    obtain ⟨-, -, small, -⟩ := afterMark_of_ignored ignored
    rw [next_of_pausesBefore ignored before]
    simp [misread, Text.Utf8.head?_encode_decodeLenient small, ignored]

theorem pauses_next (s : Lexer) : (if misread (next s).1 then 1 else 0) + (next s).2.pauses ≤ s.pauses := by
  split
  · next wrong =>
    obtain ⟨b, t, ignored, before⟩ := misread_iff.1 wrong
    rw [next_of_pausesBefore ignored before, Nat.add_comm]
    exact before.pauses_lt
  · rw [next_eq, scan_state, Nat.zero_add]
    exact built_nextToken.pauses_le s

/-- By induction on the number of calls: each illegal token of this sort has taken a pause of its own. -/
theorem misreads_add_pauses_le (s : Lexer) (n : Nat) :
    (List.range n).countP (fun k => misread (next (after s k)).1) + (after s n).pauses ≤ s.pauses := by
  induction n with
  | zero => exact Nat.le_of_eq (Nat.zero_add _)
  | succ n ih =>
    have less := pauses_next (after s n)
    rw [List.range_succ, List.countP_append, List.countP_singleton, after]
    omega

end Misread

/-- An illegal token begins like a blank or a comment in one case only, whatever the reader does and however often the lexer
has been asked: when skipping has ended with a read of nothing and the read after that one begins so. It is just the one
byte, then, and the next call goes on behind it. There are no more such tokens than there are reads of nothing with bytes
behind them, so there are none if reads give nothing only at the end, whether other reads fail or not. -/
theorem misreads_at_pauses (s : Lexer) :
    (∀ n, misread (next (after s n)).1 = true ↔ ∃ b t, startsIgnored b = true ∧ (after s n).PausesBefore b t) ∧
      (∀ n b t, startsIgnored b = true → (after s n).PausesBefore b t →
        (next (after s n)).1 = .ok ⟨.illegal, decodeLenient [b]⟩ ∧ after s (n + 1) = t.advance) ∧
      (∀ n, (List.range n).countP (fun k => misread (next (after s k)).1) ≤ Delivery.pauses s.deliveries) ∧
      ∀ bytes failures, Delivery.Carries s.deliveries bytes failures → ∀ n, misread (next (after s n)).1 = false := by
  have bound (n : Nat) := Nat.le_trans (Nat.le_add_right _ _) (misreads_add_pauses_le s n)
  refine ⟨fun n => misread_iff, fun n b t ignored before => ?_, bound, fun bytes failures carries n => ?_⟩
  · rw [after, next_of_pausesBefore ignored before]
    exact ⟨rfl, rfl⟩
  · have none := Nat.le_zero.1 (Nat.le_trans (bound (n + 1)) (Nat.le_of_eq carries.pauses_eq))
    rw [List.range_succ, List.countP_append, Nat.add_eq_zero_iff] at none
    simpa using none.2

def pausingReads : List Delivery := [.data [], .data [0x20]]

theorem misreads_at_pausingReads :
    (next (.ofDeliveries pausingReads : Lexer)).1 = .ok ⟨.illegal, decodeLenient [0x20]⟩ ∧
      ∀ n, (List.range n).countP (fun k => misread (next (after (ofDeliveries pausingReads) k)).1) ≤ 1 := by
  obtain ⟨-, taken, bound, -⟩ := misreads_at_pauses (.ofDeliveries pausingReads)
  have drained : peek (ofDeliveries pausingReads) = .ok none (ofDeliveries [.data [0x20]]) := rfl
  have before : (ofDeliveries pausingReads).PausesBefore 0x20 ⟨[], 512, [0x20], 1, by decide⟩ :=
    ⟨_, skipIgnored_nothing drained, rfl, rfl⟩
  exact ⟨(taken 0 0x20 _ (by decide) before).1, bound⟩

theorem blank_misread : ¬ ∀ (s : Lexer) (n : Nat), misread (next (after s n)).1 = false := fun never =>
  Bool.false_ne_true ((never (.ofDeliveries pausingReads) 0).symm.trans (by cbv))

end Lexer

end HookScript
