import HookScript.Proofs.Lexing.Answers

/-!
Maximal munch. A grammar says which bytes can be ignored and which bytes are a lexeme of which token. It leaves open how
far they go: a part of a word is a word, too. Every text is cut in one way into the longest that can be ignored and the
longest lexeme, one after the other, and these are the tokens and the places that the lexer finds.
-/

namespace HookScript

open Text.Utf8 (encode decodeLenient)

def TokenKind.marks : List TokenKind :=
  [leftParen, rightParen, leftBrace, rightBrace, leftBracket, rightBracket, comma, dot, colon, semicolon, minus, plus,
    slash, star, bang, bangEqual, equal, equalEqual, greater, greaterEqual, less, lessEqual]

namespace Lexer

def halves : List (UInt8 × TokenKind) := [(0x26, .and), (0x7C, .or)]

/-- Bytes that can be ignored before the later ones: blanks and comments. A comment goes up to a newline, which is not in
it, or to the end of the text. -/
inductive Skips : List UInt8 → List UInt8 → Prop
  | nil {later} : Skips [] later
  | blank {b run later} (blank : isBlank b = true) (skips : Skips run later) : Skips (b :: run) later
  | comment {text run later} (line : newline ∉ text) (ends : ∀ b ∈ (run ++ later).head?, b = newline)
    (skips : Skips run later) : Skips (commentMark :: (text ++ run)) later

structure IsWord (bytes : List UInt8) : Prop where
  first : ∃ b ∈ bytes.head?, isLetter b = true
  all : ∀ b ∈ bytes, isWordByte b = true

structure IsStray (b : UInt8) : Prop where
  noBlank : isBlank b = false
  noComment : b ≠ commentMark
  noDigit : isDigit b = false
  noLetter : isLetter b = false
  noQuote : b ≠ quote
  noHalf : b ∉ halves.map Prod.fst
  noMark : ∀ kind ∈ TokenKind.marks, encode kind.spelling ≠ [b]

/-- The first bytes are a lexeme of the token if the other bytes come after them. Neither a longer nor a shorter lexeme at
the same place is excluded. -/
inductive Lexeme : Token → List UInt8 → List UInt8 → Prop
  | integer {digits later} (some : digits ≠ []) (all : ∀ b ∈ digits, isDigit b = true) :
    Lexeme ⟨.integer, decodeLenient digits⟩ digits later
  | float {whole fraction later} (some : whole ≠ []) (all : ∀ b ∈ whole, isDigit b = true)
    (all' : ∀ b ∈ fraction, isDigit b = true) :
    Lexeme ⟨.float, decodeLenient whole ++ "." ++ decodeLenient fraction⟩ (whole ++ 0x2E :: fraction) later
  | boolean {word later} (isWord : IsWord word) (truth : decodeLenient word ∈ ["true", "false"]) :
    Lexeme ⟨.boolean, decodeLenient word⟩ word later
  | keyword {word kind later} (isWord : IsWord word) (among : kind ∈ TokenKind.keywords)
    (same : decodeLenient word = kind.spelling) : Lexeme (.ofKind kind) word later
  | identifier {word later} (isWord : IsWord word) (noTruth : decodeLenient word ∉ ["true", "false"])
    (noKeyword : ∀ kind ∈ TokenKind.keywords, decodeLenient word ≠ kind.spelling) :
    Lexeme ⟨.identifier, decodeLenient word⟩ word later
  | string {text later} (free : quote ∉ text) : Lexeme ⟨.string, decodeLenient text⟩ (quote :: (text ++ [quote])) later
  | unclosed {text} (free : quote ∉ text) : Lexeme ⟨.illegal, "\"" ++ decodeLenient text⟩ (quote :: text) []
  | mark {kind later} (among : kind ∈ TokenKind.marks) : Lexeme (.ofKind kind) (encode kind.spelling) later
  | doubled {half kind later} (among : (half, kind) ∈ halves) : Lexeme (.ofKind kind) [half, half] later
  | mixed {half kind second later} (among : (half, kind) ∈ halves) (other : second ≠ half) :
    Lexeme ⟨.illegal, decodeLenient [half, second]⟩ [half, second] later
  | half {half kind} (among : (half, kind) ∈ halves) : Lexeme ⟨.illegal, decodeLenient [half]⟩ [half] []
  | stray {b later} (stray : IsStray b) : Lexeme ⟨.illegal, decodeLenient [b]⟩ [b] later

structure Longest (P : List UInt8 → List UInt8 → Prop) (source later : List UInt8) : Prop where
  holds : P source later
  longest {source' later'} (same : source' ++ later' = source ++ later) (holds : P source' later') :
    source'.length ≤ source.length

namespace Longest

variable {P : List UInt8 → List UInt8 → Prop} {source source' later later' : List UInt8}

theorem unique (longest : Longest P source later) (longest' : Longest P source' later')
    (same : source ++ later = source' ++ later') : source = source' ∧ later = later' :=
  List.append_inj same (Nat.le_antisymm (longest'.longest same longest.holds) (longest.longest same.symm longest'.holds))

end Longest

/-- Wherever something has the property, the scan goes at least as far and no further than to where the property holds
again. -/
def Munches {α : Type} (P : List UInt8 → List UInt8 → Prop) (act : Scanning α) : Prop :=
  ∀ ⦃source later⦄, P source later →
    ∃ a more rest, later = more ++ rest ∧ P (source ++ more) rest ∧ Yields (source ++ later) act a rest

namespace Munches

variable {α : Type} {P : List UInt8 → List UInt8 → Prop} {act : Scanning α} {source later : List UInt8}

theorem yields (munches : Munches P act) (longest : Longest P source later) : ∃ a, Yields (source ++ later) act a later := by
  obtain ⟨a, more, rest, rfl, holds, yields⟩ := munches longest.holds
  have length := longest.longest (List.append_assoc source more rest) holds
  obtain rfl : more = [] := by
    rw [List.length_append] at length
    exact List.eq_nil_of_length_eq_zero (by omega)
  exact ⟨a, yields⟩

theorem exists_longest (munches : Munches P act) (holds : P source later) :
    ∃ source' later', source ++ later = source' ++ later' ∧ Longest P source' later' := by
  obtain ⟨a, more, rest, rfl, further, yields⟩ := munches holds
  refine ⟨source ++ more, rest, (List.append_assoc _ _ _).symm, further, fun {source' later'} same holds' => ?_⟩
  obtain ⟨a', more', rest', rfl, -, yields'⟩ := munches holds'
  rw [same, List.append_assoc] at yields'
  obtain ⟨-, rfl⟩ := yields.unique yields'
  rw [← List.append_assoc] at same
  rw [← List.append_cancel_right same]
  simp

end Munches

/-! ### What can be ignored -/

theorem Skips.append {run more rest : List UInt8} (skips : Skips run (more ++ rest)) (further : Skips more rest) :
    Skips (run ++ more) rest := by
  generalize whole : more ++ rest = later at skips
  induction skips with
  | nil => exact further
  | blank blank _ ih => exact .blank blank (ih whole)
  | comment line ends _ ih =>
    subst whole
    rw [List.cons_append, List.append_assoc]
    exact .comment line (by rwa [List.append_assoc]) (ih rfl)

theorem skips_of_ignored {blanks rest : List UInt8} (ignored : Ignored blanks) : Skips blanks rest := by
  induction ignored with
  | nil => exact .nil
  | blank blank _ ih => exact .blank blank ih
  | comment line _ ih => exact .comment line (by simp) (.blank (by decide) ih)

theorem Awaits.skip {s : Lexer} {run rest : List UInt8} (skips : Skips run rest) (awaits : s.Awaits (run ++ rest)) :
    ∃ t, Lexer.skipIgnored s = Lexer.skipIgnored t ∧ t.Awaits rest := by
  induction skips generalizing s with
  | nil => exact ⟨s, rfl, awaits⟩
  | blank blank _ ih =>
    obtain ⟨t, same, awaits⟩ := awaits.skipBlank blank
    rw [same]
    exact ih awaits
  | @comment text run later line ends _ ih =>
    rw [List.cons_append, List.append_assoc] at awaits
    obtain ⟨t, seen, awaits, front⟩ := awaits.peek
    have inside : ∀ b ∈ text, (b != newline) = true := fun b among => bne_iff_ne.mpr fun same => line (same ▸ among)
    have ends' : ∀ b ∈ (run ++ later).head?, (b != newline) = false := fun b first => by simp [ends b first]
    obtain ⟨u, passed, awaits⟩ := Yields.takeWhile inside ends' _ (awaits.advance front)
    rw [skipIgnored_comment seen passed]
    exact ih awaits

theorem exists_skips (bytes : List UInt8) : ∃ run rest, bytes = run ++ rest ∧ Skips run rest ∧
    ∀ b ∈ rest.head?, b ≠ commentMark ∧ isBlank b = false := by
  obtain ⟨blanks, rest, rfl, ignored, rfl | ⟨text, rfl, line⟩ | ⟨b, later, rfl, starts⟩⟩ := exists_blanks bytes
  · exact ⟨blanks, [], rfl, skips_of_ignored ignored, nofun⟩
  · have comment : Skips (commentMark :: (text ++ [])) [] := .comment line nofun .nil
    rw [List.append_nil] at comment
    refine ⟨blanks ++ commentMark :: text, [], by simp, (skips_of_ignored ignored).append comment, nofun⟩
  · refine ⟨blanks, b :: later, rfl, skips_of_ignored ignored, fun first front => ?_⟩
    cases front
    exact starts

theorem munches_skipIgnored : Munches Skips skipIgnored := by
  intro run later skips
  obtain ⟨more, rest, rfl, further, starts⟩ := exists_skips later
  refine ⟨(), more, rest, rfl, skips.append further, fun s awaits => ?_⟩
  rw [← List.append_assoc] at awaits
  obtain ⟨t, same, awaits⟩ := awaits.skip (skips.append further)
  obtain ⟨u, stopped, awaits⟩ := awaits.skipIgnored .nil starts
  exact ⟨u, same.trans stopped, awaits⟩

/-! ### Lexemes -/

section Lexemes

variable {b : UInt8} {bytes source later rest : List UInt8} {t : Token}

def frontToken : Scanning Token := do
  match ← peek with
  | none => return .ofKind .endOfFile
  | some b => tokenAt b

theorem yields_front_number (first : ∃ b ∈ bytes.head?, isDigit b = true) (read : Yields bytes number t rest) :
    Yields bytes frontToken t rest := by
  obtain ⟨b, front, digit⟩ := first
  refine .bind .peek ?_
  simp only [Option.mem_def.1 front, tokenAt, digit, if_true]
  exact read

theorem yields_front_word (first : ∃ b ∈ bytes.head?, isLetter b = true) (read : Yields bytes word t rest) :
    Yields bytes frontToken t rest := by
  obtain ⟨b, front, letter⟩ := first
  refine .bind .peek ?_
  simp only [Option.mem_def.1 front, tokenAt, not_isDigit_of_isLetter letter, letter, Bool.false_eq_true, if_false, if_true]
  exact read

theorem yields_front_mark (noDigit : isDigit b = false) (noLetter : isLetter b = false)
    (read : Yields bytes (afterMark b) t rest) : Yields (b :: bytes) frontToken t rest := by
  refine .bind .peek ?_
  simp only [List.head?_cons, tokenAt, noDigit, noLetter, Bool.false_eq_true, if_false]
  exact .bind .bump read

theorem mark_cases {kind : TokenKind} (among : kind ∈ TokenKind.marks) :
    ∃ b, isDigit b = false ∧ isLetter b = false ∧ ((encode kind.spelling = [b] ∧ afterMark b = return .ofKind kind) ∨
      (∃ together ∈ TokenKind.marks, encode kind.spelling = [b] ∧ encode together.spelling = [b, 0x3D] ∧
        afterMark b = orEqual kind together) ∨
      ∃ alone, encode kind.spelling = [b, 0x3D] ∧ afterMark b = orEqual alone kind) := by
  cases kind
  all_goals first
    | exact absurd among (by decide)
    | exact ⟨_, by decide, by decide, .inl ⟨rfl, rfl⟩⟩
    | exact ⟨_, by decide, by decide, .inr (.inl ⟨_, by decide, rfl, rfl, rfl⟩)⟩
    | exact ⟨_, by decide, by decide, .inr (.inr ⟨_, rfl, rfl⟩)⟩

theorem marks_of_single {kind : TokenKind} (known : single? b = some kind) :
    kind ∈ TokenKind.marks ∧ encode kind.spelling = [b] := by
  unfold single? at known
  split at known <;> cases known
  all_goals exact ⟨by decide, rfl⟩

theorem marks_of_orEqual {kinds : TokenKind × TokenKind} (known : orEqual? b = some kinds) :
    kinds.1 ∈ TokenKind.marks ∧ encode kinds.1.spelling = [b] := by
  unfold orEqual? at known
  split at known <;> cases known
  all_goals exact ⟨by decide, rfl⟩

theorem halves_of_doubled {kind : TokenKind} (known : doubled? b = some kind) : (b, kind) ∈ halves := by
  unfold doubled? at known
  split at known <;> cases known
  all_goals decide

theorem IsWord.append {run : List UInt8} (isWord : IsWord bytes) (all : ∀ b ∈ run, isWordByte b = true) :
    IsWord (bytes ++ run) := by
  obtain ⟨⟨b, front, letter⟩, others⟩ := isWord
  exact ⟨⟨b, by simp [Option.mem_def.1 front], letter⟩, List.forall_mem_append.2 ⟨others, all⟩⟩

theorem lexeme_ofWord (isWord : IsWord bytes) : Lexeme (.ofWord (decodeLenient bytes)) bytes later := by
  unfold Token.ofWord TokenKind.ofKeyword?
  split
  · next truth => exact .boolean isWord (by simpa using truth)
  · next noTruth =>
    split
    · next kind found =>
      have same : kind.spelling = decodeLenient bytes := by simpa using List.find?_some found
      exact .keyword isWord (List.mem_of_find?_eq_some found) same.symm
    · next none =>
      refine .identifier isWord (by simpa using noTruth) fun kind among same => ?_
      have other := List.find?_eq_none.1 none kind among
      exact absurd same.symm (by simpa using other)

/-- The scan at the front goes on from the lexeme to one that is as long or longer. If it is no longer, it is the same. -/
def Reaches (t : Token) (source later : List UInt8) : Prop :=
  ∃ t' more rest, later = more ++ rest ∧ Lexeme t' (source ++ more) rest ∧
    Yields (source ++ later) frontToken t' rest ∧ (more = [] → t' = t)

theorem Reaches.here (lexeme : Lexeme t source later) (read : Yields (source ++ later) frontToken t later) :
    Reaches t source later :=
  ⟨t, [], later, rfl, by rwa [List.append_nil], read, fun _ => rfl⟩

theorem head?_of_all {p : UInt8 → Bool} (some : bytes ≠ []) (all : ∀ b ∈ bytes, p b = true) (later : List UInt8) :
    ∃ b ∈ (bytes ++ later).head?, p b = true := by
  obtain ⟨b, others, rfl⟩ := List.exists_cons_of_ne_nil some
  exact ⟨b, rfl, all b List.mem_cons_self⟩

theorem reaches_integer {digits : List UInt8} (some : digits ≠ []) (all : ∀ b ∈ digits, isDigit b = true)
    (later : List UInt8) : Reaches ⟨.integer, decodeLenient digits⟩ digits later := by
  obtain ⟨run, rest, rfl, all', ends⟩ := exists_run isDigit later
  have whole : ∀ b ∈ digits ++ run, isDigit b = true := List.forall_mem_append.2 ⟨all, all'⟩
  have some' : digits ++ run ≠ [] := List.append_ne_nil_of_left_ne_nil some run
  have front := head?_of_all some all (run ++ rest)
  by_cases point : rest.head? = .some 0x2E
  · obtain ⟨after, rfl⟩ := List.head?_eq_some_iff.1 point
    obtain ⟨fraction, rest, rfl, all'', ends'⟩ := exists_run isDigit after
    refine ⟨⟨.float, decodeLenient (digits ++ run) ++ "." ++ decodeLenient fraction⟩, run ++ 0x2E :: fraction, rest,
      by simp, ?_, ?_, by simp⟩
    · rw [← List.append_assoc]
      exact .float some' whole all''
    · have read := yields_float whole all'' ends'
      rw [List.append_assoc] at read
      exact yields_front_number front read
  · refine ⟨⟨.integer, decodeLenient (digits ++ run)⟩, run, rest, rfl, .integer some' whole, ?_, ?_⟩
    · have read := yields_integer whole fun b first => ⟨ends b first, fun same => point (same ▸ first)⟩
      rw [List.append_assoc] at read
      exact yields_front_number front read
    · rintro rfl
      rw [List.append_nil]

theorem reaches_float {whole fraction : List UInt8} (some : whole ≠ []) (all : ∀ b ∈ whole, isDigit b = true)
    (all' : ∀ b ∈ fraction, isDigit b = true) (later : List UInt8) :
    Reaches ⟨.float, decodeLenient whole ++ "." ++ decodeLenient fraction⟩ (whole ++ 0x2E :: fraction) later := by
  obtain ⟨run, rest, rfl, all'', ends⟩ := exists_run isDigit later
  have digits : ∀ b ∈ fraction ++ run, isDigit b = true := List.forall_mem_append.2 ⟨all', all''⟩
  refine ⟨⟨.float, decodeLenient whole ++ "." ++ decodeLenient (fraction ++ run)⟩, run, rest, rfl, ?_, ?_, ?_⟩
  · rw [List.append_assoc]
    exact .float some all digits
  · have read := yields_float all digits ends
    rw [List.append_assoc, List.cons_append]
    rw [List.append_assoc] at read
    exact yields_front_number (head?_of_all some all _) read
  · rintro rfl
    rw [List.append_nil]

theorem reaches_word (isWord : IsWord bytes) (known : Token.ofWord (decodeLenient bytes) = t) (later : List UInt8) :
    Reaches t bytes later := by
  obtain ⟨run, rest, rfl, all, ends⟩ := exists_run isWordByte later
  have isWord' := isWord.append all
  refine ⟨.ofWord (decodeLenient (bytes ++ run)), run, rest, rfl, lexeme_ofWord isWord', ?_, ?_⟩
  · have read := yields_ofWord isWord'.all ends
    rw [List.append_assoc] at read
    obtain ⟨b, front, letter⟩ := isWord.first
    exact yields_front_word ⟨b, by simp [Option.mem_def.1 front], letter⟩ read
  · rintro rfl
    rw [List.append_nil, known]

theorem reaches_mark {kind : TokenKind} (among : kind ∈ TokenKind.marks) (later : List UInt8) :
    Reaches (.ofKind kind) (encode kind.spelling) later := by
  have lexeme {later : List UInt8} : Lexeme (.ofKind kind) (encode kind.spelling) later := .mark among
  obtain ⟨b, noDigit, noLetter, ⟨same, read⟩ | ⟨together, among', same, same', read⟩ | ⟨alone, same, read⟩⟩ :=
    mark_cases among
  · refine .here lexeme ?_
    rw [same]
    exact yields_front_mark noDigit noLetter (read ▸ .pure)
  · by_cases second : later.head? = some 0x3D
    · obtain ⟨rest, rfl⟩ := List.head?_eq_some_iff.1 second
      refine ⟨.ofKind together, [0x3D], rest, rfl, ?_, ?_, nofun⟩
      · rw [same, List.singleton_append, ← same']
        exact .mark among'
      · rw [same]
        exact yields_front_mark noDigit noLetter (read ▸ yields_orEqual_double)
    · refine .here lexeme ?_
      rw [same]
      exact yields_front_mark noDigit noLetter (read ▸ yields_orEqual_single second)
  · refine .here lexeme ?_
    rw [same]
    exact yields_front_mark noDigit noLetter (read ▸ yields_orEqual_double)

theorem yields_half {half : UInt8} {kind : TokenKind} (among : (half, kind) ∈ halves)
    (read : Yields bytes (doubled half kind) t rest) : Yields (half :: bytes) frontToken t rest := by
  rcases List.mem_cons.1 among with same | among
  · cases same
    exact yields_front_mark (by decide) (by decide) read
  · cases List.mem_singleton.1 among
    exact yields_front_mark (by decide) (by decide) read

theorem afterMark_stray (stray : IsStray b) : afterMark b = return ⟨.illegal, decodeLenient [b]⟩ := by
  unfold afterMark
  split
  · next known => exact absurd (marks_of_single known).2 (stray.noMark _ (marks_of_single known).1)
  · next known => exact absurd (marks_of_orEqual known).2 (stray.noMark _ (marks_of_orEqual known).1)
  · next known => exact absurd (List.mem_map_of_mem (halves_of_doubled known)) stray.noHalf
  · exact if_neg stray.noQuote

theorem reaches_of_lexeme (lexeme : Lexeme t source later) : Reaches t source later := by
  cases lexeme with
  | integer some all => exact reaches_integer some all later
  | float some all all' => exact reaches_float some all all' later
  | boolean isWord truth => exact reaches_word isWord (if_pos (by simpa using truth)) later
  | @keyword _ kind _ isWord among same =>
    have known : ∀ kind ∈ TokenKind.keywords, Token.ofWord kind.spelling = .ofKind kind := by decide
    exact reaches_word isWord (same ▸ known kind among) later
  | identifier isWord noTruth noKeyword =>
    have none : TokenKind.ofKeyword? (decodeLenient source) = none :=
      List.find?_eq_none.2 fun kind among => by simpa using (noKeyword kind among).symm
    refine reaches_word isWord ?_ later
    rw [Token.ofWord, if_neg (by simpa using noTruth), none]
  | @string text _ free =>
    have free' : ∀ b ∈ text, (b != quote) = true := fun b among => bne_iff_ne.2 fun same => free (same ▸ among)
    refine .here (.string free) ?_
    rw [List.cons_append, List.append_assoc]
    exact yields_front_mark (by decide) (by decide) (yields_string free')
  | @unclosed text free =>
    have free' : ∀ b ∈ text, (b != quote) = true := fun b among => bne_iff_ne.2 fun same => free (same ▸ among)
    refine .here (.unclosed free) (yields_front_mark (by decide) (by decide) ?_)
    exact .bind (.takeWhile free' nofun) (.bind .bump .pure)
  | mark among => exact reaches_mark among later
  | doubled among =>
    refine .here (.doubled among) (yields_half among (.bind .bump ?_))
    dsimp only [List.append_eq, List.singleton_append, List.head?_cons]
    rw [if_pos rfl]
    exact .pure
  | mixed among other =>
    refine .here (.mixed among other) (yields_half among (.bind .bump ?_))
    dsimp only [List.append_eq, List.singleton_append, List.head?_cons]
    rw [if_neg other]
    exact .pure
  | half among => exact .here (.half among) (yields_half among (.bind .bump .pure))
  | stray stray =>
    refine .here (.stray stray) (yields_front_mark stray.noDigit stray.noLetter ?_)
    rw [afterMark_stray stray]
    exact .pure

theorem exists_lexeme (noComment : b ≠ commentMark) (noBlank : isBlank b = false) (others : List UInt8) :
    ∃ t source later, b :: others = source ++ later ∧ Lexeme t source later := by
  by_cases digit : isDigit b = true
  · exact ⟨_, [b], others, rfl, .integer (List.cons_ne_nil _ _) (by simpa using digit)⟩
  by_cases letter : isLetter b = true
  · exact ⟨_, [b], others, rfl, lexeme_ofWord ⟨⟨b, rfl, letter⟩, by simp [isWordByte, letter]⟩⟩
  by_cases quoted : b = quote
  · subst quoted
    obtain ⟨text, later, rfl, inside, ends⟩ := exists_run (· != quote) others
    have free : quote ∉ text := fun among => absurd (inside _ among) (by decide)
    cases later with
    | nil => exact ⟨_, quote :: text, [], by simp, .unclosed free⟩
    | cons last later =>
      obtain rfl : last = quote := by simpa using ends last rfl
      exact ⟨_, quote :: (text ++ [quote]), later, by simp, .string free⟩
  by_cases half : b ∈ halves.map Prod.fst
  · obtain ⟨⟨b, kind⟩, among, rfl⟩ := List.mem_map.1 half
    cases others with
    | nil => exact ⟨_, [b], [], rfl, .half among⟩
    | cons second later =>
      by_cases same : second = b
      · subst same
        exact ⟨_, [second, second], later, rfl, .doubled among⟩
      · exact ⟨_, [b, second], later, rfl, .mixed among same⟩
  by_cases mark : ∃ kind ∈ TokenKind.marks, encode kind.spelling = [b]
  · obtain ⟨kind, among, same⟩ := mark
    exact ⟨_, encode kind.spelling, others, by rw [same]; rfl, .mark among⟩
  · refine ⟨_, [b], others, rfl, .stray ⟨noBlank, noComment, by simpa using digit, by simpa using letter, quoted, half, ?_⟩⟩
    exact fun kind among same => mark ⟨kind, among, same⟩

theorem Lexeme.ne_nil (lexeme : Lexeme t source later) : source ≠ [] := by
  cases lexeme with
  | integer some => exact some
  | boolean isWord | keyword isWord | identifier isWord =>
    obtain ⟨b, front, -⟩ := isWord.first
    rintro rfl
    cases front
  | mark among =>
    obtain ⟨b, -, -, ⟨same, -⟩ | ⟨-, -, same, -⟩ | ⟨-, same, -⟩⟩ := mark_cases among
    all_goals rw [same]; exact List.cons_ne_nil _ _
  | _ => simp

theorem Lexeme.kind_ne (lexeme : Lexeme t source later) : t.kind ≠ .endOfFile := by
  cases lexeme with
  | mark among =>
    rintro rfl
    exact absurd among (by decide)
  | keyword _ among =>
    rintro rfl
    exact absurd among (by decide)
  | doubled among =>
    rintro rfl
    simp [halves] at among
  | _ => exact nofun

end Lexemes

/-! ### Pieces of a text -/

open TokenSource (after next line)

def IsLexeme (source later : List UInt8) : Prop := ∃ t, Lexeme t source later

theorem munches_frontToken : Munches IsLexeme frontToken := by
  rintro source later ⟨t, lexeme⟩
  obtain ⟨t', more, rest, same, further, read, -⟩ := reaches_of_lexeme lexeme
  exact ⟨t', more, rest, same, ⟨t', further⟩, read⟩

structure Piece where
  blanks : List UInt8
  source : List UInt8
  token : Token

def Piece.bytes (piece : Piece) : List UInt8 := piece.blanks ++ piece.source

/-- The text is cut into the pieces. In each of them the longest that can be ignored comes before the longest lexeme, and
after the last one there is nothing but what can be ignored. -/
inductive Munched : List Piece → List UInt8 → Prop
  | nil {blanks} (skipped : Longest Skips blanks []) : Munched [] blanks
  | cons {piece pieces later} (skipped : Longest Skips piece.blanks (piece.source ++ later))
    (longest : Longest IsLexeme piece.source later) (lexeme : Lexeme piece.token piece.source later)
    (munched : Munched pieces later) : Munched (piece :: pieces) (piece.bytes ++ later)

section Pieces

variable {t t' : Token} {piece : Piece} {pieces pieces' : List Piece} {bytes blanks source later : List UInt8} {s : Lexer}

theorem yields_of_longest (longest : Longest IsLexeme source later) (lexeme : Lexeme t source later) :
    Yields (source ++ later) frontToken t later := by
  obtain ⟨t', more, rest, rfl, further, read, same⟩ := reaches_of_lexeme lexeme
  have length := longest.longest (List.append_assoc source more rest) ⟨t', further⟩
  obtain rfl : more = [] := by
    rw [List.length_append] at length
    exact List.eq_nil_of_length_eq_zero (by omega)
  exact same rfl ▸ read

theorem Lexeme.unique (longest : Longest IsLexeme source later) (lexeme : Lexeme t source later)
    (lexeme' : Lexeme t' source later) : t = t' :=
  ((yields_of_longest longest lexeme).unique (yields_of_longest longest lexeme')).1

theorem nextToken_of_piece (skipped : Longest Skips piece.blanks (piece.source ++ later))
    (longest : Longest IsLexeme piece.source later) (lexeme : Lexeme piece.token piece.source later) :
    Yields (piece.bytes ++ later) nextToken piece.token later := by
  obtain ⟨⟨⟩, skipped⟩ := munches_skipIgnored.yields skipped
  rw [Piece.bytes, List.append_assoc]
  exact .bind skipped (yields_of_longest longest lexeme)

theorem nextToken_of_skipped (skipped : Longest Skips blanks []) : Yields blanks nextToken (.ofKind .endOfFile) [] := by
  obtain ⟨⟨⟩, skipped⟩ := munches_skipIgnored.yields skipped
  rw [List.append_nil] at skipped
  exact .bind skipped (.bind .peek .pure)

theorem Longest.starts {b : UInt8} {others : List UInt8} (skipped : Longest Skips blanks (b :: others)) :
    b ≠ commentMark ∧ isBlank b = false := by
  have further {more rest : List UInt8} (same : b :: others = more ++ rest) (skips : Skips more rest) : more = [] := by
    have whole := skipped.holds
    rw [same] at whole
    have length := skipped.longest (by rw [same, List.append_assoc]) (whole.append skips)
    rw [List.length_append] at length
    exact List.eq_nil_of_length_eq_zero (by omega)
  constructor
  · rintro rfl
    obtain ⟨text, rest, rfl, inside, ends⟩ := exists_run (· != newline) others
    have line : newline ∉ text := fun among => absurd (inside _ among) (by decide)
    have comment : Skips (commentMark :: (text ++ [])) rest := .comment line (by simpa using ends) .nil
    exact absurd (further (by simp) comment) (List.cons_ne_nil _ _)
  · rw [← Bool.not_eq_true]
    intro blank
    have single : Skips [b] others := .blank blank .nil
    exact absurd (further rfl single) (List.cons_ne_nil _ _)

/-- By induction on the length of the text, of which each lexeme takes something away. -/
theorem exists_munched (bytes : List UInt8) : ∃ pieces, Munched pieces bytes := by
  generalize size : bytes.length = n
  induction n using Nat.strongRecOn generalizing bytes with
  | ind n ih =>
    have none : Skips [] bytes := .nil
    obtain ⟨blanks, rest, whole, skipped⟩ := munches_skipIgnored.exists_longest none
    rw [List.nil_append] at whole
    subst whole size
    cases rest with
    | nil => exact ⟨[], by rw [List.append_nil]; exact .nil skipped⟩
    | cons b others =>
      obtain ⟨t, source, later, same, lexeme⟩ := exists_lexeme skipped.starts.1 skipped.starts.2 others
      obtain ⟨source, later, same', longest⟩ := munches_frontToken.exists_longest ⟨t, lexeme⟩
      obtain ⟨t, lexeme⟩ := longest.holds
      rw [same, same'] at skipped ih ⊢
      have some := List.length_pos_iff.2 lexeme.ne_nil
      obtain ⟨pieces, munched⟩ := ih later.length (by simp only [List.length_append]; omega) later rfl
      refine ⟨⟨blanks, source, t⟩ :: pieces, ?_⟩
      rw [← List.append_assoc]
      exact .cons skipped longest lexeme munched

theorem Munched.unique (munched : Munched pieces bytes) (munched' : Munched pieces' bytes) : pieces = pieces' := by
  induction munched generalizing pieces' with
  | @nil blanks skipped =>
    cases munched' with
    | nil => rfl
    | @cons piece _ later skipped' _ lexeme =>
      have same := (skipped.unique skipped' (by rw [List.append_nil, Piece.bytes, List.append_assoc])).2
      exact absurd (List.append_eq_nil_iff.1 same.symm).1 lexeme.ne_nil
  | @cons piece pieces later skipped longest lexeme _ ih =>
    generalize whole : piece.bytes ++ later = bytes at munched'
    rw [Piece.bytes, List.append_assoc] at whole
    cases munched' with
    | nil skipped' =>
      have same := (skipped.unique skipped' (by rw [whole, List.append_nil])).2
      exact absurd (List.append_eq_nil_iff.1 same).1 lexeme.ne_nil
    | @cons piece' pieces' later' skipped' longest' lexeme' munched' =>
      obtain ⟨blanks, source, t⟩ := piece
      obtain ⟨blanks', source', t'⟩ := piece'
      rw [Piece.bytes, List.append_assoc] at whole
      obtain ⟨rfl, same⟩ := skipped.unique skipped' whole
      obtain ⟨rfl, rfl⟩ := longest.unique longest' same
      obtain rfl := lexeme.unique longest lexeme'
      rw [ih munched']

theorem Munched.real (munched : Munched pieces bytes) :
    ∀ piece ∈ pieces, piece.source ≠ [] ∧ piece.token.kind ≠ .endOfFile := by
  induction munched with
  | nil => nofun
  | cons _ _ lexeme _ ih => exact List.forall_mem_cons.2 ⟨⟨lexeme.ne_nil, lexeme.kind_ne⟩, ih⟩

/-- The bytes that are used up when the lexer has been asked so many times: the pieces up to there, and everything once it
has been asked for the end of the file. -/
def consumed (pieces : List Piece) (bytes : List UInt8) (n : Nat) : List UInt8 :=
  if n ≤ pieces.length then (pieces.take n).flatMap Piece.bytes else bytes

theorem consumed_succ (whole : bytes = consumed pieces bytes 1 ++ later) (n : Nat) :
    consumed pieces bytes (n + 1) = consumed pieces bytes 1 ++ consumed pieces.tail later n := by
  cases pieces with
  | nil =>
    have all : consumed [] bytes 1 = bytes := rfl
    obtain rfl : later = [] := by
      rw [all] at whole
      exact List.self_eq_append_right.1 whole
    rw [all]
    simp [consumed]
  | cons piece pieces =>
    have first : consumed (piece :: pieces) bytes 1 = piece.bytes := by simp [consumed]
    rw [first] at whole ⊢
    by_cases more : n ≤ pieces.length
    · simp only [consumed, List.length_cons, Nat.add_le_add_iff_right, List.tail_cons, more, if_true, List.take_succ_cons,
        List.flatMap_cons]
    · simp only [consumed, List.length_cons, Nat.add_le_add_iff_right, List.tail_cons, more, if_false]
      exact whole

theorem next_eq (s : Lexer) : next s = (s.scan.1.result, s.scan.2) := rfl

theorem next_of_yields {token : Token} {later : List UInt8} (yields : Yields bytes nextToken token later)
    (awaits : s.Awaits bytes) : (next s).1 = .ok token ∧ (next s).2.Awaits later := by
  obtain ⟨line, u, ran, left⟩ := scan_of_yields yields awaits
  rw [next_eq, ran]
  exact ⟨rfl, left⟩

theorem next_of_munched (munched : Munched pieces bytes) (awaits : s.Awaits bytes) : ∃ later,
    bytes = consumed pieces bytes 1 ++ later ∧ Munched pieces.tail later ∧ (next s).2.Awaits later ∧
      (next s).1 = .ok ((pieces.map Piece.token).headD (.ofKind .endOfFile)) := by
  cases munched with
  | nil skipped =>
    obtain ⟨answer, left⟩ := next_of_yields (nextToken_of_skipped skipped) awaits
    have none : Longest Skips [] [] := ⟨.nil, fun same _ => by simp [(List.append_eq_nil_iff.1 same).1]⟩
    exact ⟨[], (List.append_nil _).symm, .nil none, left, answer⟩
  | cons skipped longest lexeme munched =>
    obtain ⟨answer, left⟩ := next_of_yields (nextToken_of_piece skipped longest lexeme) awaits
    exact ⟨_, by simp [consumed], munched, left, answer⟩

theorem answers_of_munched (munched : Munched pieces bytes) (awaits : s.Awaits bytes) (n : Nat) :
    (next (after s n)).1 = .ok ((pieces.map Piece.token).getD n (.ofKind .endOfFile)) ∧
      ∃ later, bytes = consumed pieces bytes n ++ later ∧ (after s n).Awaits later := by
  induction n generalizing s pieces bytes with
  | zero =>
    obtain ⟨-, -, -, -, answer⟩ := next_of_munched munched awaits
    exact ⟨by rw [after, answer, List.headD_eq_head?_getD, List.getD_eq_getElem?_getD, List.head?_eq_getElem?],
      bytes, by simp [consumed], awaits⟩
  | succ n ih =>
    obtain ⟨later, whole, munched', left, -⟩ := next_of_munched munched awaits
    obtain ⟨answer, rest, whole', left'⟩ := ih munched' left
    rw [TokenSource.after_next] at answer left'
    refine ⟨?_, rest, ?_, left'⟩
    · rw [answer]
      cases pieces <;> rfl
    · rw [consumed_succ whole, List.append_assoc, ← whole']
      exact whole

theorem line_after (s : Lexer) (n : Nat) : line (after s n) + (after s n).newlines = s.line + s.newlines := by
  induction n with
  | zero => rfl
  | succ n ih =>
    rw [← ih]
    exact (answered_scan (after s n)).onward.newlines

end Pieces

/-- Every text is cut in just one way into pieces that end with a longest lexeme. The lexer finds the tokens of the pieces
and then the end of the file again and again. Each time it has used up all the bytes up to there, and it is on the line
that follows from the newlines among them. -/
theorem answers_of_pieces (bytes : List UInt8) : ∃ pieces, Munched pieces bytes ∧
    (∀ pieces', Munched pieces' bytes → pieces' = pieces) ∧
    (∀ piece ∈ pieces, piece.source ≠ [] ∧ piece.token.kind ≠ .endOfFile) ∧
    ∀ n, (next (after (ofBytes bytes) n)).1 = .ok ((pieces.map Piece.token).getD n (.ofKind .endOfFile)) ∧
      line (after (ofBytes bytes) n) = 1 + (consumed pieces bytes n).count newline ∧
      ∃ later, bytes = consumed pieces bytes n ++ later ∧ (after (ofBytes bytes) n).Awaits later := by
  obtain ⟨pieces, munched⟩ := exists_munched bytes
  refine ⟨pieces, munched, fun pieces' munched' => munched'.unique munched, munched.real, fun n => ?_⟩
  obtain ⟨answer, later, whole, left⟩ := answers_of_munched munched (awaits_ofBytes bytes) n
  refine ⟨answer, ?_, later, whole, left⟩
  have lines := line_after (ofBytes bytes) n
  have start : (ofBytes bytes).line = 1 := rfl
  have count := congrArg (List.count newline) whole
  rw [List.count_append] at count
  rw [left.newlines_eq, (awaits_ofBytes bytes).newlines_eq] at lines
  omega

end Lexer

end HookScript
