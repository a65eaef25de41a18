import HookScript.Proofs.Lexing.Spelling

/-!
Cutting a text between its tokens. A token is read from its own bytes, and the byte after them can only end it. So if a
text is cut behind a token, the part before the cut has the tokens up to there and the other part has the later ones.
-/

namespace HookScript

namespace Lexer

open Text.Utf8 (decodeLenient)

structure Stands (act : Scanning Token) (t : Token) (source later : List UInt8) : Prop where
  real : t.kind ≠ .endOfFile
  read {front : List UInt8} (shorter : front <+: later) : Yields (source ++ front) act t front

def EndsPlain (bytes : List UInt8) : Prop := ∃ b ∈ bytes.getLast?, b.toNat < 0x80

theorem EndsPlain.append {bytes : List UInt8} (plain : EndsPlain bytes) (before : List UInt8) :
    EndsPlain (before ++ bytes) := by
  obtain ⟨b, last, small⟩ := plain
  exact ⟨b, by simp [List.getLast?_append, Option.mem_def.1 last], small⟩

theorem endsPlain_of_forall {bytes : List UInt8} (some : bytes ≠ []) (small : ∀ b ∈ bytes, b.toNat < 0x80) :
    EndsPlain bytes :=
  ⟨bytes.getLast some, List.getLast?_eq_some_getLast some, small _ (List.getLast_mem some)⟩

section

variable {b : UInt8} {p : UInt8 → Bool} {bytes front later : List UInt8}

theorem head?_of_isPrefix (shorter : front <+: later) : ∀ b ∈ front.head?, b ∈ later.head? := by
  obtain ⟨rest, rfl⟩ := shorter
  cases front with
  | nil => nofun
  | cons first others => exact fun b among => among

theorem exists_run (p : UInt8 → Bool) (bytes : List UInt8) : ∃ run later, bytes = run ++ later ∧
    (∀ b ∈ run, p b = true) ∧ ∀ b ∈ later.head?, p b = false := by
  refine ⟨bytes.takeWhile p, bytes.dropWhile p, (List.takeWhile_append_dropWhile).symm, ?_, ?_⟩
  · exact List.all_eq_true.1 List.all_takeWhile
  · have stops := List.head?_dropWhile_not p bytes
    intro b front
    rw [Option.mem_def.1 front] at stops
    simpa using stops

theorem exists_run_cons (holds : p b = true) (bytes : List UInt8) : ∃ run later, bytes = run ++ later ∧
    (∀ c ∈ b :: run, p c = true) ∧ ∀ c ∈ later.head?, p c = false := by
  obtain ⟨run, later, same, all, ends⟩ := exists_run p bytes
  exact ⟨run, later, same, List.forall_mem_cons.2 ⟨holds, all⟩, ends⟩

theorem toNat_lt_of_isDigit (digit : isDigit b = true) : b.toNat < 0x80 := by
  simp only [isDigit, Bool.and_eq_true, decide_eq_true_eq, UInt8.le_iff_toNat_le, UInt8.reduceToNat] at digit
  omega

theorem toNat_lt_of_isWordByte (known : isWordByte b = true) : b.toNat < 0x80 := by
  simp only [isWordByte, isLetter, isDigit, Bool.or_eq_true, Bool.and_eq_true, decide_eq_true_eq, UInt8.le_iff_toNat_le,
    UInt8.reduceToNat] at known
  rcases known with (known | known) | rfl
  · omega
  · omega
  · decide

end

theorem kind_ofWord_ne (word : String) : (Token.ofWord word).kind ≠ .endOfFile := by
  unfold Token.ofWord
  split
  · exact nofun
  · split
    · next kind found =>
      have others : ∀ kind ∈ TokenKind.keywords, kind ≠ .endOfFile := by decide
      exact others kind (List.mem_of_find?_eq_some found)
    · exact nofun

theorem exists_number {b : UInt8} (digit : isDigit b = true) (bytes : List UInt8) : ∃ t source later,
    bytes = source ++ later ∧ EndsPlain (b :: source) ∧ Stands number t (b :: source) later := by
  obtain ⟨whole, later, rfl, all, ends⟩ := exists_run_cons digit bytes
  by_cases point : later.head? = some 0x2E
  · obtain ⟨after, rfl⟩ := List.head?_eq_some_iff.1 point
    obtain ⟨fraction, later, rfl, all', ends'⟩ := exists_run isDigit after
    have plain : ∀ c ∈ 0x2E :: fraction, c.toNat < 0x80 :=
      List.forall_mem_cons.2 ⟨by decide, fun c among => toNat_lt_of_isDigit (all' c among)⟩
    refine ⟨⟨.float, decodeLenient (b :: whole) ++ "." ++ decodeLenient fraction⟩, whole ++ 0x2E :: fraction, later,
      by simp, (endsPlain_of_forall (List.cons_ne_nil _ _) plain).append (b :: whole), nofun, fun {front} shorter => ?_⟩
    have read := yields_float all all' fun c first => ends' c (head?_of_isPrefix shorter c first)
    simpa using read
  · have plain : ∀ c ∈ b :: whole, c.toNat < 0x80 := fun c among => toNat_lt_of_isDigit (all c among)
    refine ⟨⟨.integer, decodeLenient (b :: whole)⟩, whole, later, rfl, endsPlain_of_forall (List.cons_ne_nil _ _) plain,
      nofun, fun {front} shorter => yields_integer all fun c first => ?_⟩
    have next := head?_of_isPrefix shorter c first
    exact ⟨ends c next, fun same => point (same ▸ next)⟩

theorem exists_word {b : UInt8} (letter : isLetter b = true) (bytes : List UInt8) : ∃ t source later,
    bytes = source ++ later ∧ EndsPlain (b :: source) ∧ Stands word t (b :: source) later := by
  have known : isWordByte b = true := by simp [isWordByte, letter]
  obtain ⟨run, later, rfl, all, ends⟩ := exists_run_cons known bytes
  have plain : ∀ c ∈ b :: run, c.toNat < 0x80 := fun c among => toNat_lt_of_isWordByte (all c among)
  refine ⟨.ofWord (decodeLenient (b :: run)), run, later, rfl, endsPlain_of_forall (List.cons_ne_nil _ _) plain,
    kind_ofWord_ne _, fun {front} shorter => ?_⟩
  exact yields_ofWord all fun c first => ends c (head?_of_isPrefix shorter c first)

theorem exists_orEqual {alone together : TokenKind} (real : alone ≠ .endOfFile ∧ together ≠ .endOfFile) {b : UInt8}
    (small : b.toNat < 0x80) (bytes : List UInt8) : ∃ t source later, bytes = source ++ later ∧
      EndsPlain (b :: source) ∧ Stands (orEqual alone together) t source later := by
  by_cases second : bytes.head? = some 0x3D
  · obtain ⟨later, rfl⟩ := List.head?_eq_some_iff.1 second
    exact ⟨.ofKind together, [0x3D], later, rfl, ⟨0x3D, rfl, by decide⟩, real.2, fun _ => yields_orEqual_double⟩
  · exact ⟨.ofKind alone, [], bytes, rfl, ⟨b, rfl, small⟩, real.1,
      fun shorter => yields_orEqual_single fun first => second (head?_of_isPrefix shorter _ first)⟩

theorem exists_doubled {kind : TokenKind} (real : kind ≠ .endOfFile) {b : UInt8} (small : b.toNat < 0x80)
    (bytes : List UInt8) : ∃ t source later, bytes = source ++ later ∧ (t.kind ≠ .illegal → EndsPlain (b :: source)) ∧
      Stands (doubled b kind) t source later := by
  cases bytes with
  | nil =>
    refine ⟨⟨.illegal, decodeLenient [b]⟩, [], [], rfl, absurd rfl, nofun, fun shorter => ?_⟩
    rw [List.prefix_nil.1 shorter]
    exact .bind .bump .pure
  | cons second later =>
    by_cases same : second = b
    · subst same
      refine ⟨.ofKind kind, [second], later, rfl, fun _ => ⟨second, rfl, small⟩, real, fun _ => .bind .bump ?_⟩
      simp only [List.cons_append, List.nil_append, List.head?_cons, if_true]
      exact .pure
    · refine ⟨⟨.illegal, decodeLenient [b, second]⟩, [second], later, rfl, absurd rfl, nofun, fun _ => .bind .bump ?_⟩
      simp only [List.cons_append, List.nil_append, List.head?_cons, if_neg same]
      exact .pure

theorem exists_string (b : UInt8) (bytes : List UInt8) : ∃ t source later, bytes = source ++ later ∧
    (t.kind ≠ .illegal → EndsPlain (b :: source)) ∧ Stands string t source later := by
  obtain ⟨text, later, rfl, free, ends⟩ := exists_run (· != quote) bytes
  cases later with
  | nil =>
    refine ⟨⟨.illegal, "\"" ++ decodeLenient text⟩, text, [], rfl, absurd rfl, nofun, fun shorter => ?_⟩
    rw [List.prefix_nil.1 shorter]
    exact .bind (.takeWhile free nofun) (.bind .bump .pure)
  | cons last later =>
    obtain rfl : last = quote := by simpa using ends last rfl
    refine ⟨⟨.string, decodeLenient text⟩, text ++ [quote], later, by simp, fun _ => ?_, nofun, fun _ => ?_⟩
    · exact EndsPlain.append ⟨quote, rfl, by decide⟩ (b :: text)
    · rw [List.append_assoc]
      exact yields_string free

theorem exists_afterMark (b : UInt8) (bytes : List UInt8) : ∃ t source later, bytes = source ++ later ∧
    (t.kind ≠ .illegal → EndsPlain (b :: source)) ∧ Stands (afterMark b) t source later := by
  unfold afterMark
  split
  · next kind known =>
    have single : kind ≠ .endOfFile ∧ b.toNat < 0x80 := by
      unfold single? at known
      split at known <;> cases known <;> decide
    exact ⟨.ofKind kind, [], bytes, rfl, fun _ => ⟨b, rfl, single.2⟩, single.1, fun _ => .pure⟩
  · next alone together _ known =>
    have operators : (alone ≠ .endOfFile ∧ together ≠ .endOfFile) ∧ b.toNat < 0x80 := by
      unfold orEqual? at known
      split at known <;> cases known <;> decide
    obtain ⟨t, source, later, same, plain, stands⟩ := exists_orEqual operators.1 operators.2 bytes
    exact ⟨t, source, later, same, fun _ => plain, stands⟩
  · next kind _ _ known =>
    have operator : kind ≠ .endOfFile ∧ b.toNat < 0x80 := by
      unfold doubled? at known
      split at known <;> cases known <;> decide
    exact exists_doubled operator.1 operator.2 bytes
  · split
    · exact exists_string b bytes
    · exact ⟨⟨.illegal, decodeLenient [b]⟩, [], bytes, rfl, absurd rfl, nofun, fun _ => .pure⟩

theorem exists_token (b : UInt8) (bytes : List UInt8) : ∃ t source later, bytes = source ++ later ∧
    (t.kind ≠ .illegal → EndsPlain (b :: source)) ∧ Stands (tokenAt b) t (b :: source) later := by
  unfold tokenAt
  split
  · next digit =>
    obtain ⟨t, source, later, same, plain, stands⟩ := exists_number digit bytes
    exact ⟨t, source, later, same, fun _ => plain, stands⟩
  · split
    · next letter =>
      obtain ⟨t, source, later, same, plain, stands⟩ := exists_word letter bytes
      exact ⟨t, source, later, same, fun _ => plain, stands⟩
    · obtain ⟨t, source, later, same, plain, stands⟩ := exists_afterMark b bytes
      exact ⟨t, source, later, same, plain, stands.real, fun shorter => .bind .bump (stands.read shorter)⟩

theorem exists_blanks (bytes : List UInt8) : ∃ blanks rest, bytes = blanks ++ rest ∧ Ignored blanks ∧
    (rest = [] ∨ (∃ text, rest = commentMark :: text ∧ newline ∉ text) ∨
      ∃ b later, rest = b :: later ∧ b ≠ commentMark ∧ isBlank b = false) := by
  generalize size : bytes.length = n
  induction n using Nat.strongRecOn generalizing bytes with
  | ind n ih =>
    subst size
    cases bytes with
    | nil => exact ⟨[], [], rfl, .nil, .inl rfl⟩
    | cons b others =>
      by_cases mark : b = commentMark
      · subst mark
        obtain ⟨text, later, rfl, inside, ends⟩ := exists_run (· != newline) others
        have line : newline ∉ text := fun among => absurd (inside _ among) (by decide)
        cases later with
        | nil => exact ⟨[], _, rfl, .nil, .inr (.inl ⟨text, by simp, line⟩)⟩
        | cons last later =>
          obtain rfl : last = newline := by simpa using ends last rfl
          obtain ⟨blanks, rest, rfl, ignored, front⟩ := ih later.length (by simp; omega) later rfl
          exact ⟨_, rest, by simp, .comment line ignored, front⟩
      · cases blank : isBlank b with
        | true =>
          obtain ⟨blanks, rest, rfl, ignored, front⟩ := ih others.length (by simp) others rfl
          exact ⟨_, rest, rfl, .blank blank ignored, front⟩
        | false => exact ⟨[], _, rfl, .nil, .inr (.inr ⟨b, others, rfl, mark, blank⟩)⟩

theorem nextToken_of_comment {blanks text : List UInt8} (ignored : Ignored blanks) (line : newline ∉ text) :
    Yields (blanks ++ commentMark :: text) nextToken (.ofKind .endOfFile) [] := by
  have skipped : Yields (blanks ++ commentMark :: text) skipIgnored () [] := by
    intro s awaits
    obtain ⟨t, same, awaits⟩ := awaits.skipBlanks ignored
    obtain ⟨u, seen, awaits, front⟩ := awaits.peek
    obtain ⟨v, passed, awaits⟩ := (awaits.advance front).takeWhile (· != newline)
    have inside : ∀ b ∈ text, (b != newline) = true := fun b among => bne_iff_ne.2 fun same => line (same ▸ among)
    rw [← List.append_nil text, List.dropWhile_append_of_pos inside, List.dropWhile_nil] at awaits
    obtain ⟨w, last, awaits, -⟩ := awaits.peek
    rw [same, skipIgnored_comment seen passed]
    exact ⟨w, skipIgnored_nothing last, awaits⟩
  exact .bind skipped (.bind .peek .pure)

theorem nextToken_cases (bytes : List UInt8) : Yields bytes nextToken (.ofKind .endOfFile) [] ∨
    ∃ t source later, bytes = source ++ later ∧ source ≠ [] ∧ (t.kind ≠ .illegal → EndsPlain source) ∧
      Stands nextToken t source later := by
  obtain ⟨blanks, rest, rfl, ignored, rfl | ⟨text, rfl, line⟩ | ⟨b, others, rfl, starts⟩⟩ := exists_blanks bytes
  · rw [List.append_nil]
    exact .inl (nextToken_of_ignored ignored)
  · exact .inl (nextToken_of_comment ignored line)
  · obtain ⟨t, source, later, rfl, plain, stands⟩ := exists_token b others
    refine .inr ⟨t, blanks ++ b :: source, later, by simp, by simp, fun legal => (plain legal).append blanks, stands.real,
      fun {front} shorter => ?_⟩
    have read := stands.read shorter
    rw [List.append_assoc]
    refine .bind (.skipIgnored ignored fun first front => ?_) (.bind .peek read)
    cases front
    exact starts

inductive Cut : List Token → List UInt8 → Prop
  | nil {bytes} (ending : Yields bytes nextToken (.ofKind .endOfFile) []) : Cut [] bytes
  | cons {t tokens source later} (some : source ≠ []) (plain : t.kind ≠ .illegal → EndsPlain source)
    (stands : Stands nextToken t source later) (cut : Cut tokens later) : Cut (t :: tokens) (source ++ later)

section

variable {s : Lexer} {tokens later : List Token} {bytes : List UInt8}

theorem finds_of_cut (cut : Cut tokens bytes) (awaits : s.Awaits bytes) :
    ∃ placed, placed.map Prod.fst = tokens ∧ Finds s.scans placed := by
  induction cut generalizing s with
  | nil ending => exact ⟨[], rfl, s.scans, isEnd_of_ending ending awaits, rfl⟩
  | cons some _ stands _ ih =>
    exact finds_cons (by simp [some]) (stands.read (List.prefix_refl _)) awaits fun u awaits => ih awaits

theorem cut_of_scans {placed : List (Token × Nat)} {ending : List Scan} (awaits : s.Awaits bytes)
    (found : s.scans = placed.map .ofToken ++ ending) (atEnd : ∀ scan ∈ ending.head?, scan.IsEnd)
    (real : ∀ t ∈ placed, t.1.kind ≠ .endOfFile) : Cut (placed.map Prod.fst) bytes := by
  induction placed generalizing s bytes with
  | nil =>
    rcases nextToken_cases bytes with ends | ⟨t, source, later, rfl, some, plain, stands⟩
    · exact .nil ends
    · obtain ⟨line, u, read, -⟩ := scan_of_yields (stands.read (List.prefix_refl _)) awaits
      have more : ¬ s.IsExhausted := fun exhausted => some (List.append_eq_nil_iff.1 (awaits.eq_nil exhausted)).1
      have front : ending = ⟨.ok t, line⟩ :: u.scans := by
        rw [scans, if_neg more, read] at found
        exact found.symm
      obtain ⟨last, same, ended⟩ := atEnd ⟨.ok t, line⟩ (front ▸ rfl)
      cases same
      exact absurd ended stands.real
  | cons first rest ih =>
    obtain ⟨real, others⟩ := List.forall_mem_cons.1 real
    rw [scans] at found
    split at found
    · cases found
    · rcases nextToken_cases bytes with ends | ⟨t, source, later, rfl, some, plain, stands⟩
      · obtain ⟨line, u, read, -⟩ := scan_of_yields ends awaits
        rw [read] at found
        have same : TokenKind.endOfFile = first.1.kind :=
          congrArg Token.kind (Except.ok.inj (congrArg Scan.result (List.cons.inj found).1))
        exact absurd same.symm real
      · obtain ⟨line, u, read, awaits⟩ := scan_of_yields (stands.read (List.prefix_refl _)) awaits
        rw [read] at found
        obtain ⟨here, there⟩ := List.cons.inj found
        obtain rfl : t = first.1 := Except.ok.inj (congrArg Scan.result here)
        exact .cons some plain stands (ih awaits there others)

theorem Cut.eq_nil (cut : Cut tokens bytes) (none : bytes = []) : tokens = [] := by
  cases cut with
  | nil => rfl
  | cons some => exact absurd (List.append_eq_nil_iff.1 none).1 some

theorem Cut.split (cut : Cut (tokens ++ later) bytes) : ∃ front back, bytes = front ++ back ∧ Cut tokens front ∧
    Cut later back ∧ (front = [] ∨ ∃ t ∈ tokens.getLast?, t.kind ≠ .illegal → EndsPlain front) := by
  induction tokens generalizing bytes with
  | nil => exact ⟨[], bytes, rfl, .nil (nextToken_of_ignored .nil), cut, .inl rfl⟩
  | cons first rest ih =>
    cases cut with
    | @cons _ _ source _ some plain stands cut =>
      obtain ⟨front, back, rfl, before, after, ends⟩ := ih cut
      have here : Stands nextToken first source front :=
        ⟨stands.real, fun shorter => stands.read (shorter.trans (List.prefix_append _ _))⟩
      refine ⟨source ++ front, back, (List.append_assoc _ _ _).symm, .cons some plain here before, after, .inr ?_⟩
      rcases ends with rfl | ⟨t, last, ends⟩
      · obtain rfl := before.eq_nil rfl
        exact ⟨first, rfl, by simpa using plain⟩
      · exact ⟨t, by simp [List.getLast?_cons, Option.mem_def.1 last], fun legal => (ends legal).append _⟩

end

end Lexer

end HookScript
