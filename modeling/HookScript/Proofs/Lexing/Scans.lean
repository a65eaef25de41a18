import HookScript.Lexer.Scan

/-!
What a lexer finds. Its tokens are spelled as their kinds ask for. Its line goes up by one at every newline that it
passes over and at nothing else, so that the line and the newlines still to come add up to the same number all along. It
fails only where a delivery fails.
-/

namespace HookScript

def TokenKind.Fixed (kind : TokenKind) : Prop := kind ∉ [.identifier, .string, .integer, .float, .boolean, .illegal]

instance (kind : TokenKind) : Decidable kind.Fixed := inferInstanceAs (Decidable (_ ∉ _))

structure Token.IsProper (token : Token) : Prop where
  fixed (one : token.kind.Fixed) : token = .ofKind token.kind
  boolean (truth : token.kind = .boolean) : token.lexeme = "true" ∨ token.lexeme = "false"

namespace Token.IsProper

theorem ofKind {kind : TokenKind} (fixed : kind.Fixed) : (Token.ofKind kind).IsProper where
  fixed _ := rfl
  boolean truth := absurd fixed (by rw [show kind = .boolean from truth]; decide)

theorem eq_ofKind {token : Token} {kind : TokenKind} (proper : token.IsProper) (known : token.kind = kind)
    (fixed : kind.Fixed) : token = .ofKind kind := by
  subst known
  exact proper.fixed fixed

theorem of_free {kind : TokenKind} {lexeme : String} (free : ¬ kind.Fixed) (other : kind ≠ .boolean) :
    (Token.mk kind lexeme).IsProper where
  fixed one := absurd one free
  boolean truth := absurd truth other

theorem ofWord (word : String) : (Token.ofWord word).IsProper := by
  unfold Token.ofWord
  split
  · next truth =>
    have free : ¬ TokenKind.boolean.Fixed := by decide
    exact ⟨fun one => absurd one free, fun _ => truth⟩
  · split
    · next kind found =>
      have keywords : ∀ kind ∈ TokenKind.keywords, kind.Fixed := by decide
      exact .ofKind (keywords kind (List.mem_of_find?_eq_some found))
    · exact .of_free (by decide) (by decide)

end Token.IsProper

namespace Delivery

def newlines : List Delivery → Nat
  | [] => 0
  | .data bytes :: rest => bytes.count Lexer.newline + newlines rest
  | _ :: rest => newlines rest

def Steady (deliveries : List Delivery) : Prop := ∀ failure, .failed failure ∉ deliveries

theorem newlines_read (capacity : Nat) (deliveries : List Delivery) :
    (match (read capacity deliveries).1 with
      | .ok bytes => bytes.count Lexer.newline
      | .error _ => 0) + newlines (read capacity deliveries).2 = newlines deliveries := by
  fun_induction read capacity deliveries with
  | case1 => rfl
  | case2 rest ih => exact ih
  | case3 failure rest => exact Nat.zero_add _
  | case4 bytes rest =>
    have whole := congrArg (List.count Lexer.newline) (List.take_append_drop capacity bytes)
    rw [List.count_append] at whole
    simp only [newlines]
    split
    · next drained =>
      rw [drained] at whole
      simp only [List.count_nil] at whole
      omega
    · simp only [newlines]
      omega

theorem Steady.read (capacity : Nat) {deliveries : List Delivery} (steady : Steady deliveries) :
    Steady (read capacity deliveries).2 ∧ ∀ failure, (Delivery.read capacity deliveries).1 ≠ .error failure := by
  fun_induction Delivery.read capacity deliveries with
  | case1 => exact ⟨steady, fun _ same => by cases same⟩
  | case2 rest ih => exact ih fun failure among => steady failure (List.mem_cons_of_mem _ among)
  | case3 failure rest => exact absurd List.mem_cons_self (steady failure)
  | case4 bytes rest =>
    have later : Steady rest := fun failure among => steady failure (List.mem_cons_of_mem _ among)
    refine ⟨?_, fun _ same => by cases same⟩
    dsimp only
    split
    · exact later
    · intro failure among
      exact later failure ((List.mem_cons.mp among).resolve_left Delivery.noConfusion)

end Delivery

namespace Lexer

def newlines (s : Lexer) : Nat := s.unread.count newline + Delivery.newlines s.deliveries

structure Onward (s t : Lexer) : Prop where
  line : s.line ≤ t.line
  newlines : t.line + t.newlines = s.line + s.newlines
  steady (before : Delivery.Steady s.deliveries) : Delivery.Steady t.deliveries

namespace Onward

variable {s t u : Lexer}

theorem refl (s : Lexer) : s.Onward s := ⟨Nat.le_refl _, rfl, id⟩

theorem trans (first : s.Onward t) (second : t.Onward u) : s.Onward u :=
  ⟨Nat.le_trans first.line second.line, second.newlines.trans first.newlines, second.steady ∘ first.steady⟩

end Onward

inductive Tracked {α : Type} (holds : α → Prop) (s : Lexer) : EStateM.Result ReadFailure Lexer α → Prop
  | ok {a t} (onward : s.Onward t) (read : holds a) : Tracked holds s (.ok a t)
  | error {failure t} (onward : s.Onward t) (unsteady : ¬ Delivery.Steady s.deliveries) :
    Tracked holds s (.error failure t)

theorem Tracked.after {α : Type} {holds : α → Prop} {s t : Lexer} {result : EStateM.Result ReadFailure Lexer α}
    (onward : s.Onward t) (tracked : Tracked holds t result) : Tracked holds s result := by
  cases tracked with
  | ok later read => exact .ok (onward.trans later) read
  | error later unsteady => exact .error (onward.trans later) (unsteady ∘ onward.steady)

/-- However it ends, the scan keeps account of the lines, and what it yields has the property. -/
def Tracks {α : Type} (act : Scanning α) (holds : α → Prop) : Prop := ∀ s, Tracked holds s (act s)

namespace Tracks

variable {α β : Type} {act : Scanning α} {rest : α → Scanning β} {holds : α → Prop} {holds' : β → Prop}

theorem pure {a : α} (read : holds a) : Tracks (Pure.pure a) holds := fun s => .ok (.refl s) read

theorem bind (first : Tracks act holds) (second : ∀ a, holds a → Tracks (rest a) holds') :
    Tracks (act >>= rest) holds' := by
  intro s
  have ran := first s
  simp only [Bind.bind, EStateM.bind]
  generalize act s = result at ran
  cases ran with
  | @ok a t onward read =>
    exact .after onward (second a read t)
  | error onward unsteady => exact .error onward unsteady

end Tracks

theorem onward_advance (s : Lexer) : s.Onward s.advance := by
  unfold advance
  split
  · exact .refl s
  · next b rest front =>
    have count : s.unread.count newline = rest.count newline + if b = newline then 1 else 0 := by
      simp only [front, List.count_cons, beq_iff_eq]
    refine ⟨?_, ?_, id⟩
    · dsimp only
      split <;> omega
    · simp only [newlines, count]
      split <;> omega

theorem tracks_peek : Tracks peek fun _ => True := by
  intro s
  have count := Delivery.newlines_read s.capacity s.deliveries
  have calm (steady : Delivery.Steady s.deliveries) := steady.read s.capacity
  unfold peek
  split
  · exact .ok (.refl s) trivial
  · next empty =>
    split
    · next bytes rest delivered =>
      simp only [delivered] at count calm
      refine .ok ⟨Nat.le_refl _, ?_, fun steady => (calm steady).1⟩ trivial
      simp only [newlines, empty, List.count_nil]
      omega
    · next failure rest delivered =>
      simp only [delivered] at count calm
      refine .error ⟨Nat.le_refl _, ?_, fun steady => (calm steady).1⟩ fun steady => (calm steady).2 failure rfl
      simp only [newlines, empty, List.count_nil]
      omega

theorem tracks_bump : Tracks bump fun _ => True :=
  tracks_peek.bind fun _ _ => Tracks.bind (fun s => .ok (onward_advance s) trivial) fun _ (_ : True) => .pure trivial

theorem onward_of_peek {s s' : Lexer} {b : UInt8} (seen : peek s = .ok (some b) s') : s.Onward s'.advance := by
  have looked := tracks_peek s
  rw [seen] at looked
  cases looked with
  | ok onward => exact onward.trans (onward_advance s')

theorem tracks_takeWhile (p : UInt8 → Bool) : Tracks (takeWhile p) fun _ => True := by
  intro s
  have looked := tracks_peek s
  fun_induction takeWhile p s with
  | case1 s failure s' seen =>
    rw [seen] at looked
    cases looked with
    | error onward unsteady => exact .error onward unsteady
  | case2 s s' seen =>
    rw [seen] at looked
    cases looked with
    | ok onward => exact .ok onward trivial
  | case3 s b s' seen _ bytes s'' taken ih =>
    rw [taken] at ih
    cases ih (tracks_peek _) with
    | ok later => exact .ok ((onward_of_peek seen).trans later) trivial
  | case4 s b s' seen _ failure s'' taken ih =>
    rw [taken] at ih
    exact Tracked.after (onward_of_peek seen) (ih (tracks_peek _))
  | case5 s b s' seen =>
    rw [seen] at looked
    cases looked with
    | ok onward => exact .ok onward trivial

theorem tracks_skipIgnored : Tracks skipIgnored fun _ => True := by
  intro s
  have looked := tracks_peek s
  fun_induction skipIgnored s with
  | case1 s failure s' seen =>
    rw [seen] at looked
    cases looked with
    | error onward unsteady => exact .error onward unsteady
  | case2 s s' seen =>
    rw [seen] at looked
    cases looked with
    | ok onward => exact .ok onward trivial
  | case3 s s' failure s'' comment seen =>
    have passed := tracks_takeWhile (· != newline) s'.advance
    rw [comment] at passed
    cases passed with
    | error later unsteady =>
      exact .after (onward_of_peek seen) (.error later unsteady)
  | case4 s s' bytes s'' comment seen ih =>
    have passed := tracks_takeWhile (· != newline) s'.advance
    rw [comment] at passed
    cases passed with
    | ok later => exact Tracked.after ((onward_of_peek seen).trans later) (ih (tracks_peek _))
  | case5 s b s' seen _ _ ih => exact Tracked.after (onward_of_peek seen) (ih (tracks_peek _))
  | case6 s b s' seen =>
    rw [seen] at looked
    cases looked with
    | ok onward => exact .ok onward trivial

theorem tracks_number : Tracks number Token.IsProper := by
  refine (tracks_takeWhile _).bind fun whole _ => tracks_peek.bind fun front _ => ?_
  split
  · exact tracks_bump.bind fun _ _ => (tracks_takeWhile _).bind fun fraction _ => .pure (.of_free (by decide) (by decide))
  · exact .pure (.of_free (by decide) (by decide))

theorem tracks_word : Tracks word Token.IsProper := (tracks_takeWhile _).bind fun _ _ => .pure (.ofWord _)

theorem tracks_string : Tracks string Token.IsProper := by
  refine (tracks_takeWhile _).bind fun bytes _ => tracks_bump.bind fun closing _ => ?_
  split
  · exact .pure (.of_free (by decide) (by decide))
  · exact .pure (.of_free (by decide) (by decide))

theorem tracks_orEqual {single double : TokenKind} (fixed : single.Fixed) (fixed' : double.Fixed) :
    Tracks (orEqual single double) Token.IsProper := by
  refine tracks_peek.bind fun front _ => ?_
  split
  · exact tracks_bump.bind fun _ _ => .pure (.ofKind fixed')
  · exact .pure (.ofKind fixed)

theorem tracks_doubled (first : UInt8) {kind : TokenKind} (fixed : kind.Fixed) :
    Tracks (doubled first kind) Token.IsProper := by
  refine tracks_bump.bind fun front _ => ?_
  split
  · split
    · exact .pure (.ofKind fixed)
    · exact .pure (.of_free (by decide) (by decide))
  · exact .pure (.of_free (by decide) (by decide))

theorem fixed_of_single? {b : UInt8} {kind : TokenKind} (known : single? b = some kind) : kind.Fixed := by
  unfold single? at known
  split at known <;> cases known <;> decide

theorem fixed_of_orEqual? {b : UInt8} {alone together : TokenKind} (known : orEqual? b = some (alone, together)) :
    alone.Fixed ∧ together.Fixed := by
  unfold orEqual? at known
  split at known <;> cases known <;> decide

theorem fixed_of_doubled? {b : UInt8} {kind : TokenKind} (known : doubled? b = some kind) : kind.Fixed := by
  unfold doubled? at known
  split at known <;> cases known <;> decide

theorem tracks_afterMark (b : UInt8) : Tracks (afterMark b) Token.IsProper := by
  unfold afterMark
  split
  · next known => exact .pure (.ofKind (fixed_of_single? known))
  · next known => exact tracks_orEqual (fixed_of_orEqual? known).1 (fixed_of_orEqual? known).2
  · next known => exact tracks_doubled b (fixed_of_doubled? known)
  · split
    · exact tracks_string
    · exact .pure (.of_free (by decide) (by decide))

theorem tracks_nextToken : Tracks nextToken Token.IsProper := by
  refine tracks_skipIgnored.bind fun _ _ => tracks_peek.bind fun front _ => ?_
  split
  · exact .pure (.ofKind (by decide))
  · unfold tokenAt
    split
    · exact tracks_number
    · split
      · exact tracks_word
      · refine tracks_bump.bind fun front _ => ?_
        split
        · exact .pure (.ofKind (by decide))
        · exact tracks_afterMark _

structure Answered (s : Lexer) (scan : Scan) (t : Lexer) : Prop where
  onward : s.Onward t
  line : scan.line = t.line
  proper {token : Token} (found : scan.result = .ok token) : token.IsProper
  found (steady : Delivery.Steady s.deliveries) : ∃ token, scan.result = .ok token

theorem answered_scan (s : Lexer) : s.Answered s.scan.1 s.scan.2 := by
  have tracked := tracks_nextToken s
  unfold scan
  generalize nextToken s = result at tracked
  cases tracked with
  | ok onward proper =>
    refine ⟨onward, rfl, fun found => ?_, fun _ => ⟨_, rfl⟩⟩
    cases found
    exact proper
  | error onward unsteady => exact ⟨onward, rfl, nofun, fun steady => absurd steady unsteady⟩

theorem proper_of_scans {s : Lexer} {scan : Scan} (among : scan ∈ s.scans) {token : Token}
    (found : scan.result = .ok token) : token.IsProper := by
  fun_induction scans s with
  | case1 => cases among
  | case2 s more first ih =>
    rcases List.mem_cons.mp among with rfl | later
    · exact (answered_scan s).proper found
    · exact ih later

theorem line_of_scans {s : Lexer} {scan : Scan} (among : scan ∈ s.scans) :
    s.line ≤ scan.line ∧ scan.line ≤ s.line + s.newlines := by
  fun_induction scans s with
  | case1 => cases among
  | case2 s more first ih =>
    obtain ⟨⟨line, newlines, -⟩, reached, -, -⟩ := answered_scan s
    change s.line ≤ first.2.line at line
    change first.2.line + first.2.newlines = s.line + s.newlines at newlines
    change first.1.line = first.2.line at reached
    rcases List.mem_cons.mp among with rfl | later
    · omega
    · have := ih later
      omega

theorem pairwise_line_scans (s : Lexer) : (s.line :: s.scans.map (·.line)).Pairwise (· ≤ ·) := by
  fun_induction scans s with
  | case1 => exact List.pairwise_singleton _ _
  | case2 s more first ih =>
    have answered := answered_scan s
    rw [← answered.line] at ih
    refine List.pairwise_cons.mpr ⟨fun line among => ?_, ih⟩
    have reached : s.line ≤ first.1.line := answered.line ▸ answered.onward.line
    rcases List.mem_cons.mp among with rfl | later
    · exact reached
    · exact Nat.le_trans reached ((List.pairwise_cons.mp ih).1 line later)

theorem found_of_scans {s : Lexer} (steady : Delivery.Steady s.deliveries) {scan : Scan} (among : scan ∈ s.scans) :
    ∃ token, scan.result = .ok token := by
  fun_induction scans s with
  | case1 => cases among
  | case2 s more first ih =>
    have answered := answered_scan s
    rcases List.mem_cons.mp among with rfl | later
    · exact answered.found steady
    · exact ih (answered.onward.steady steady) later

end Lexer

end HookScript
