import HookScript.Proofs.Lexing.Answers
import Mathlib

/-!
Looking one token ahead. Whatever is asked of a source with one token of lookahead, the source itself is asked for each of
its answers once, in order and only when no token is held. A token that has been looked at is given again until it is
taken or dropped, a failure is not held, and the line is that of the source all along.
-/

namespace HookScript

inductive LookRequest where
  | peek
  | next
  | discard
  | line
  deriving DecidableEq

inductive LookAnswer where
  | found (result : Except ReadFailure Token)
  | dropped
  | line (n : Nat)

namespace Lookahead

open TokenSource (after after_next)

variable {σ : Type} [TokenSource σ]

def answer (ahead : Lookahead σ) : LookRequest → LookAnswer × Lookahead σ
  | .peek => (.found ahead.peek.1, ahead.peek.2)
  | .next => (.found ahead.next.1, ahead.next.2)
  | .discard => (.dropped, ahead.discard)
  | .line => (.line ahead.line, ahead)

def run (ahead : Lookahead σ) (requests : List LookRequest) : Lookahead σ :=
  requests.foldl (fun ahead request => (ahead.answer request).2) ahead

def fresh? (ahead : Lookahead σ) (request : LookRequest) : Option (Except ReadFailure Token) :=
  match ahead.held, (ahead.answer request).1 with
  | none, .found result => some result
  | _, _ => none

/-- What the requests find that come when no token is held, in order. -/
def fresh (ahead : Lookahead σ) : List LookRequest → List (Except ReadFailure Token)
  | [] => []
  | request :: rest => (ahead.fresh? request).toList ++ fresh (ahead.answer request).2 rest

def heldToken (ahead : Lookahead σ) : Option Token := ahead.held.map Prod.fst

/-- The request leaves a token that is held where it is. -/
def Looks (request : LookRequest) : Prop := request = .peek ∨ request = .line

section Steps

variable (ahead : Lookahead σ) (request : LookRequest)

theorem run_append (first second : List LookRequest) : ahead.run (first ++ second) = (ahead.run first).run second :=
  List.foldl_append

theorem run_singleton : ahead.run [request] = (ahead.answer request).2 := rfl

variable {ahead}

theorem peek_of_held {token : Token} {line : Nat} (held : ahead.held = some (token, line)) :
    ahead.peek = (.ok token, ahead) := by
  rw [peek, held]

theorem next_of_held {token : Token} {line : Nat} (held : ahead.held = some (token, line)) :
    ahead.next = (.ok token, ahead.discard) := by
  rw [next, held]
  rfl

theorem peek_of_free (free : ahead.held = none) :
    (∃ token line, ahead.peek = (.ok token, ⟨(TokenSource.next ahead.source).2, some (token, line)⟩) ∧
      (TokenSource.next ahead.source).1 = .ok token ∧ line = TokenSource.line (TokenSource.next ahead.source).2) ∨
    ∃ failure, ahead.peek = (.error failure, ⟨(TokenSource.next ahead.source).2, none⟩) ∧
      (TokenSource.next ahead.source).1 = .error failure := by
  rw [peek, free]
  rcases asked : TokenSource.next ahead.source with ⟨failure | token, source⟩
  · exact .inr ⟨failure, rfl, rfl⟩
  · exact .inl ⟨token, _, rfl, rfl, rfl⟩

theorem next_of_free (free : ahead.held = none) :
    ahead.next = ((TokenSource.next ahead.source).1, ⟨(TokenSource.next ahead.source).2, none⟩) := by
  rw [next, free]

omit [TokenSource σ] in
theorem discard_of_free (free : ahead.held = none) : ahead.discard = ahead := by
  obtain ⟨source, held⟩ := ahead
  cases free
  rfl

theorem answer_cases (ahead : Lookahead σ) (request : LookRequest) :
    (ahead.fresh? request = some (TokenSource.next ahead.source).1 ∧
      (ahead.answer request).2.source = (TokenSource.next ahead.source).2) ∨
    ahead.fresh? request = none ∧ (ahead.answer request).2.source = ahead.source := by
  cases holding : ahead.held with
  | some held =>
    refine .inr ⟨by rw [fresh?, holding], ?_⟩
    cases request with
    | peek => rw [answer, peek_of_held holding]
    | next => rw [answer, next_of_held holding]; rfl
    | discard | line => rfl
  | none =>
    cases request with
    | peek =>
      refine .inl ?_
      rcases peek_of_free holding with ⟨token, line, looked, asked, -⟩ | ⟨failure, looked, asked⟩
      all_goals simp only [fresh?, holding, answer, looked, asked, and_self]
    | next =>
      refine .inl ?_
      simp only [fresh?, holding, answer, next_of_free holding, and_self]
    | discard | line => exact .inr ⟨by simp only [fresh?, holding, answer], rfl⟩

end Steps

/-- A held token keeps the line that the source is on. -/
def LineKept (ahead : Lookahead σ) : Prop := ∀ held ∈ ahead.held, held.2 = TokenSource.line ahead.source

theorem LineKept.line_eq {ahead : Lookahead σ} (kept : ahead.LineKept) : ahead.line = TokenSource.line ahead.source := by
  rw [line]
  split
  · next held => exact kept _ held
  · rfl

theorem LineKept.answer {ahead : Lookahead σ} (kept : ahead.LineKept) (request : LookRequest) :
    (ahead.answer request).2.LineKept := by
  cases request with
  | peek =>
    cases holding : ahead.held with
    | some held => rwa [Lookahead.answer, peek_of_held holding]
    | none =>
      rcases peek_of_free holding with ⟨token, line, looked, -, same⟩ | ⟨failure, looked, -⟩
      · rw [Lookahead.answer, looked]
        rintro _ ⟨⟩
        exact same
      · rw [Lookahead.answer, looked]
        exact nofun
  | next =>
    cases holding : ahead.held with
    | some held =>
      rw [Lookahead.answer, next_of_held holding]
      exact nofun
    | none =>
      rw [Lookahead.answer, next_of_free holding]
      exact nofun
  | discard => exact nofun
  | line => exact kept

theorem LineKept.run {ahead : Lookahead σ} (kept : ahead.LineKept) (requests : List LookRequest) :
    (ahead.run requests).LineKept := by
  induction requests generalizing ahead with
  | nil => exact kept
  | cons request rest ih => exact ih (kept.answer request)

theorem fresh_of_run (ahead : Lookahead σ) (requests : List LookRequest) :
    ahead.fresh requests =
        (List.range (ahead.fresh requests).length).map (fun n => (TokenSource.next (after ahead.source n)).1) ∧
      (ahead.run requests).source = after ahead.source (ahead.fresh requests).length := by
  induction requests generalizing ahead with
  | nil => exact ⟨rfl, rfl⟩
  | cons request rest ih =>
    obtain ⟨results, asked⟩ := ih (ahead.answer request).2
    change _ ∧ ((ahead.answer request).2.run rest).source = _
    rcases answer_cases ahead request with ⟨found, source⟩ | ⟨found, source⟩
    · rw [source] at results asked
      simp only [after_next] at results asked
      rw [fresh, found, Option.toList_some, List.singleton_append, List.length_cons, List.range_succ_eq_map, List.map_cons,
        List.map_map]
      exact ⟨congrArg (_ :: ·) results, asked⟩
    · rw [source] at results asked
      rw [fresh, found, Option.toList_none, List.nil_append]
      exact ⟨results, asked⟩

section Held

variable {ahead : Lookahead σ} {token : Token}

omit [TokenSource σ] in
theorem heldToken_eq_some : ahead.heldToken = some token ↔ ∃ line, ahead.held = some (token, line) := by
  simp [heldToken]

theorem heldToken_looks {request : LookRequest} (looks : Looks request) (held : ahead.heldToken = some token) :
    (ahead.answer request).2.heldToken = some token := by
  obtain ⟨line, holding⟩ := heldToken_eq_some.1 held
  rcases looks with rfl | rfl
  · rw [answer, peek_of_held holding]
    exact held
  · exact held

theorem heldToken_run {looks : List LookRequest} (all : ∀ request ∈ looks, Looks request)
    (held : ahead.heldToken = some token) : (ahead.run looks).heldToken = some token := by
  induction looks generalizing ahead with
  | nil => exact held
  | cons request rest ih =>
    obtain ⟨looks, others⟩ := List.forall_mem_cons.1 all
    exact ih others (heldToken_looks looks held)

theorem heldToken_peek (found : ahead.peek.1 = .ok token) : ahead.peek.2.heldToken = some token := by
  cases holding : ahead.held with
  | some held =>
    rw [peek_of_held holding] at found ⊢
    cases found
    exact heldToken_eq_some.2 ⟨held.2, holding⟩
  | none =>
    rcases peek_of_free holding with ⟨other, line, looked, -, -⟩ | ⟨failure, looked, -⟩
    · rw [looked] at found ⊢
      cases found
      rfl
    · rw [looked] at found
      cases found

theorem held_of_failure {failure : ReadFailure} (failed : ahead.peek.1 = .error failure) : ahead.peek.2.held = none := by
  cases holding : ahead.held with
  | some held =>
    rw [peek_of_held holding] at failed
    cases failed
  | none =>
    rcases peek_of_free holding with ⟨token, line, looked, -, -⟩ | ⟨other, looked, -⟩
    · rw [looked] at failed
      cases failed
    · rw [looked]

theorem heldToken_iff (free : ahead.held = none) (requests : List LookRequest) :
    (ahead.run requests).heldToken = some token ↔ ∃ before looks, requests = before ++ .peek :: looks ∧
      (∀ request ∈ looks, Looks request) ∧ (ahead.run before).peek.1 = .ok token := by
  constructor
  · intro held
    induction requests using List.reverseRecOn with
    | nil =>
      obtain ⟨line, holding⟩ := heldToken_eq_some.1 held
      cases free.symm.trans holding
    | append_singleton earlier last ih =>
      rw [run_append, run_singleton] at held
      have onward (looking : Looks last) (earlierHeld : (ahead.run earlier).heldToken = some token) :
          ∃ before looks, earlier ++ [last] = before ++ .peek :: looks ∧ (∀ request ∈ looks, Looks request) ∧
            (ahead.run before).peek.1 = .ok token := by
        obtain ⟨before, looks, rfl, all, found⟩ := ih earlierHeld
        refine ⟨before, looks ++ [last], by simp, List.forall_mem_append.2 ⟨all, ?_⟩, found⟩
        exact List.forall_mem_singleton.2 looking
      cases last with
      | peek =>
        cases holding : (ahead.run earlier).held with
        | some pair =>
          rw [answer, peek_of_held holding] at held
          exact onward (.inl rfl) held
        | none =>
          refine ⟨earlier, [], rfl, nofun, ?_⟩
          rcases peek_of_free holding with ⟨other, line, looked, -, -⟩ | ⟨failure, looked, -⟩
          · rw [answer, looked] at held
            cases held
            rw [looked]
          · rw [answer, looked] at held
            cases held
      | next =>
        cases holding : (ahead.run earlier).held with
        | some pair =>
          rw [answer, next_of_held holding] at held
          cases held
        | none =>
          rw [answer, next_of_free holding] at held
          cases held
      | discard => cases held
      | line => exact onward (.inr rfl) held
  · rintro ⟨before, looks, rfl, all, found⟩
    rw [run_append]
    change ((ahead.run before).peek.2.run looks).heldToken = some token
    exact heldToken_run all (heldToken_peek found)

end Held

/-- Looking ahead changes nothing but when the source is asked. The requests that come when no token is held find the
answers of the source, each of them once and in order. All along the source has been asked just as often, and the line is
the one that it is on. A token is held exactly when a look has found it and nothing but looking has followed. Then every
request for a token finds it and leaves the source alone, and to discard it is to take it. When none is held there is
nothing to discard, and none is held after a failure. -/
theorem asked_in_order (source : σ) (requests : List LookRequest) :
    let ahead := (ofSource source).run requests
    let found := (ofSource source).fresh requests
    found = (List.range found.length).map (fun n => (TokenSource.next (after source n)).1) ∧
      ahead.source = after source found.length ∧
      ahead.line = TokenSource.line ahead.source ∧
      (∀ token, ahead.heldToken = some token ↔ ∃ before looks, requests = before ++ .peek :: looks ∧
        (∀ request ∈ looks, Looks request) ∧ ((ofSource source).run before).peek.1 = .ok token) ∧
      (∀ token, ahead.heldToken = some token → ahead.peek = (.ok token, ahead) ∧ ahead.next = (.ok token, ahead.discard)) ∧
      (ahead.discard.source = ahead.source ∧ ahead.discard.held = none) ∧
      (ahead.heldToken = none → ahead.discard = ahead) ∧
      ∀ failure, ahead.peek.1 = .error failure → ahead.peek.2.held = none := by
  intro ahead found
  obtain ⟨results, asked⟩ := fresh_of_run (ofSource source) requests
  have start : (ofSource source).LineKept := nofun
  refine ⟨results, asked, (start.run requests).line_eq, fun token => heldToken_iff rfl requests, fun token held => ?_,
    ⟨rfl, rfl⟩, fun free => discard_of_free (Option.map_eq_none_iff.1 free), fun failure => held_of_failure⟩
  obtain ⟨line, holding⟩ := heldToken_eq_some.1 held
  exact ⟨peek_of_held holding, next_of_held holding⟩

def failingBetween : Lexer := .ofDeliveries [.data [0x61, 0x20], .failed ⟨"broken"⟩, .data [0x62]]

theorem asked_in_order_of_failingBetween :
    (ofSource failingBetween).fresh [.peek, .line, .peek, .next, .peek, .peek, .discard, .peek, .next] =
        [.ok ⟨.identifier, "a"⟩, .error ⟨"broken"⟩, .ok ⟨.identifier, "b"⟩, .ok (.ofKind .endOfFile)] ∧
      ((ofSource failingBetween).run [.peek, .line, .peek]).next.1 = .ok ⟨.identifier, "a"⟩ ∧
      ((ofSource failingBetween).run [.next, .peek]).held = none := by
  have held : ((ofSource failingBetween).run [.peek, .line, .peek]).heldToken = some ⟨.identifier, "a"⟩ := by cbv
  have failed : ((ofSource failingBetween).run [.next]).peek.1 = .error ⟨"broken"⟩ := by cbv
  obtain ⟨-, -, -, -, taken, -⟩ := asked_in_order failingBetween [.peek, .line, .peek]
  obtain ⟨-, -, -, -, -, -, -, unheld⟩ := asked_in_order failingBetween [.next]
  exact ⟨by cbv, congrArg Prod.fst (taken _ held).2, unheld _ failed⟩

end Lookahead

end HookScript
