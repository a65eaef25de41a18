import HookScript.Proofs.Lexing.Bytes
import HookScript.Proofs.Parsing.Segment
import HookScript.Proofs.Text.Utf8

/-!
Spellings of tokens. A token that is spelled out is found again where its spelling stands, if what comes after it does
not go on with it. What stands between two tokens is ignored, so a text that is laid out from tokens gives them back.
-/

namespace HookScript

def isWord (text : String) : Bool :=
  match text.toList with
  | [] => false
  | first :: rest => first.isAlpha && rest.all fun c => c.isAlphanum || c = '_'

def isDigits (text : String) : Bool := text.toList.all Char.isDigit

open Text.Utf8 (encode decodeLenient) in
inductive Token.Spells : Token → List UInt8 → List UInt8 → Prop
  | word {text later} (word : isWord text = true) (ends : ∀ b ∈ later.head?, Lexer.isWordByte b = false) :
    Spells (.ofWord text) (encode text) later
  | integer {text later} (some : text ≠ "") (digits : isDigits text = true)
    (ends : ∀ b ∈ later.head?, Lexer.isDigit b = false ∧ b ≠ 0x2E) : Spells ⟨.integer, text⟩ (encode text) later
  | float {whole fraction later} (some : whole ≠ "") (digits : isDigits whole = true) (digits' : isDigits fraction = true)
    (ends : ∀ b ∈ later.head?, Lexer.isDigit b = false) :
    Spells ⟨.float, whole ++ "." ++ fraction⟩ (encode (whole ++ "." ++ fraction)) later
  | string {text later} (free : '"' ∉ text.toList) :
    Spells ⟨.string, text⟩ (Lexer.quote :: (encode text ++ [Lexer.quote])) later
  | single {b kind later} (known : Lexer.single? b = some kind) : Spells (.ofKind kind) [b] later
  | alone {b kinds later} (known : Lexer.orEqual? b = some kinds) (ends : later.head? ≠ some 0x3D) :
    Spells (.ofKind kinds.1) [b] later
  | together {b kinds later} (known : Lexer.orEqual? b = some kinds) : Spells (.ofKind kinds.2) [b, 0x3D] later
  | doubled {b kind later} (known : Lexer.doubled? b = some kind) : Spells (.ofKind kind) [b, b] later

inductive Laid : List Token → List UInt8 → Prop
  | nil {blanks} (ignored : Lexer.Ignored blanks) : Laid [] blanks
  | cons {t rest blanks source later} (ignored : Lexer.Ignored blanks) (spells : t.Spells source later)
    (laid : Laid rest later) : Laid (t :: rest) (blanks ++ (source ++ later))

theorem Laid.blank {tokens : List Token} {b : UInt8} {bytes : List UInt8} (laid : Laid tokens bytes)
    (blank : Lexer.isBlank b = true) : Laid tokens (b :: bytes) := by
  cases laid with
  | nil ignored => exact .nil (.blank blank ignored)
  | cons ignored spells laid => exact .cons (.blank blank ignored) spells laid

namespace Lexer

open Text.Utf8

section Characters

variable {c : Char}

theorem toNat_of_isAlpha (alpha : c.isAlpha = true) :
    0x41 ≤ c.toNat ∧ c.toNat ≤ 0x5A ∨ 0x61 ≤ c.toNat ∧ c.toNat ≤ 0x7A := by
  have ranges : (decide (0x41 ≤ c.val ∧ c.val ≤ 0x5A) || decide (0x61 ≤ c.val) && decide (c.val ≤ 0x7A)) = true :=
    alpha
  simpa [UInt32.le_iff_toNat_le] using ranges

theorem toNat_of_isDigit (digit : c.isDigit = true) : 0x30 ≤ c.toNat ∧ c.toNat ≤ 0x39 := by
  simpa [Char.isDigit, UInt32.le_iff_toNat_le] using digit

theorem isLetter_of_isAlpha (alpha : c.isAlpha = true) : isLetter (UInt8.ofNat c.toNat) = true := by
  have bounds := toNat_of_isAlpha alpha
  simp only [isLetter, Bool.or_eq_true, Bool.and_eq_true, decide_eq_true_eq, UInt8.le_iff_toNat_le]
  rw [toNat_ofNat (by omega)]
  simpa using bounds

theorem isDigit_of_isDigit (digit : c.isDigit = true) : isDigit (UInt8.ofNat c.toNat) = true := by
  have bounds := toNat_of_isDigit digit
  simp only [isDigit, Bool.and_eq_true, decide_eq_true_eq, UInt8.le_iff_toNat_le]
  rw [toNat_ofNat (by omega)]
  simpa using bounds

theorem isWordByte_of_wordChar (known : (c.isAlphanum || c = '_') = true) :
    c.toNat < 0x80 ∧ isWordByte (UInt8.ofNat c.toNat) = true := by
  simp only [Char.isAlphanum, Bool.or_eq_true, decide_eq_true_eq] at known
  rcases known with (alpha | digit) | rfl
  · have bounds := toNat_of_isAlpha alpha
    exact ⟨by omega, by simp [isWordByte, isLetter_of_isAlpha alpha]⟩
  · have bounds := toNat_of_isDigit digit
    exact ⟨by omega, by simp [isWordByte, isDigit_of_isDigit digit]⟩
  · decide

end Characters

section Lexemes

variable {text : String}

theorem encode_eq_map (small : ∀ c ∈ text.toList, c.toNat < 0x80) :
    encode text = text.toList.map fun c => UInt8.ofNat c.toNat := by
  rw [encode, List.map_eq_flatMap, List.flatMap_def, List.flatMap_def]
  exact congrArg List.flatten (List.map_congr_left fun c among => utf8EncodeChar_of_lt (small c among))

theorem encode_ne_nil (some : text ≠ "") : encode text ≠ [] := by
  intro none
  have again := decodeLenient_encode text
  rw [none] at again
  exact some (again.symm.trans (by simp [decodeLenient, scalars]))

theorem encode_of_isDigits (digits : isDigits text = true) : ∀ b ∈ encode text, isDigit b = true := by
  have all := List.all_eq_true.mp digits
  have small : ∀ c ∈ text.toList, c.toNat < 0x80 := fun c among => by
    have bounds := toNat_of_isDigit (all c among)
    omega
  rw [encode_eq_map small]
  intro b found
  obtain ⟨c, among, rfl⟩ := List.mem_map.mp found
  exact isDigit_of_isDigit (all c among)

theorem encode_of_isWord (word : isWord text = true) :
    ∃ b rest, encode text = b :: rest ∧ isLetter b = true ∧ ∀ b ∈ encode text, isWordByte b = true := by
  unfold isWord at word
  split at word
  · cases word
  · next first rest chars =>
    simp only [Bool.and_eq_true, List.all_eq_true] at word
    obtain ⟨alpha, others⟩ := word
    have all : ∀ c ∈ text.toList, (c.isAlphanum || c = '_') = true := by
      rw [chars]
      refine List.forall_mem_cons.mpr ⟨by simp [Char.isAlphanum, alpha], fun c among => by simpa using others c among⟩
    have small : ∀ c ∈ text.toList, c.toNat < 0x80 := fun c among => (isWordByte_of_wordChar (all c among)).1
    have bytes := encode_eq_map small
    rw [chars, List.map_cons] at bytes
    refine ⟨_, _, bytes, isLetter_of_isAlpha alpha, ?_⟩
    rw [encode_eq_map small]
    intro b found
    obtain ⟨c, among, rfl⟩ := List.mem_map.mp found
    exact (isWordByte_of_wordChar (all c among)).2

theorem encode_of_free (free : '"' ∉ text.toList) : ∀ b ∈ encode text, (b != quote) = true := by
  intro b among
  obtain ⟨c, within, among⟩ := List.mem_flatMap.mp among
  refine bne_iff_ne.mpr fun same => free ?_
  have value := toNat_of_mem_utf8EncodeChar among (by rw [same]; decide)
  rw [same] at value
  have isQuote : c = '"' := Char.toNat_inj.mp value.symm
  rwa [← isQuote]

end Lexemes

theorem not_isDigit_of_isLetter {b : UInt8} (letter : isLetter b = true) : isDigit b = false := by
  simp only [isLetter, Bool.or_eq_true, Bool.and_eq_true, decide_eq_true_eq, UInt8.le_iff_toNat_le] at letter
  simp only [isDigit, Bool.and_eq_false_iff, decide_eq_false_iff_not, UInt8.le_iff_toNat_le]
  simp only [UInt8.reduceToNat] at *
  omega

theorem starts_of_isWordByte {b : UInt8} (known : isWordByte b = true) : b ≠ commentMark ∧ isBlank b = false := by
  constructor
  · rintro rfl
    exact absurd known (by decide)
  · rw [← Bool.not_eq_true]
    intro blank
    simp only [isBlank, Bool.or_eq_true, decide_eq_true_eq] at blank
    rcases blank with (((rfl | rfl) | rfl) | rfl) | rfl <;> exact absurd known (by decide)

section Scans

variable {t : Token} {b : UInt8} {bytes source later : List UInt8}

theorem yields_integer {digits : List UInt8} (all : ∀ b ∈ digits, isDigit b = true)
    (ends : ∀ b ∈ later.head?, isDigit b = false ∧ b ≠ 0x2E) :
    Yields (digits ++ later) number ⟨.integer, decodeLenient digits⟩ later := by
  refine .bind (.takeWhile all fun b front => (ends b front).1) (.bind .peek ?_)
  have noPoint : later.head? ≠ some 0x2E := fun front => (ends _ front).2 rfl
  rw [if_neg noPoint]
  exact .pure

theorem yields_float {whole fraction : List UInt8} (all : ∀ b ∈ whole, isDigit b = true)
    (all' : ∀ b ∈ fraction, isDigit b = true) (ends : ∀ b ∈ later.head?, isDigit b = false) :
    Yields (whole ++ 0x2E :: (fraction ++ later)) number
      ⟨.float, decodeLenient whole ++ "." ++ decodeLenient fraction⟩ later := by
  refine .bind (.takeWhile all fun b front => by cases front; decide) (.bind .peek ?_)
  rw [List.head?_cons, if_pos rfl]
  exact .bind .bump (.bind (.takeWhile all' ends) .pure)

theorem yields_string {text : List UInt8} (free : ∀ b ∈ text, (b != quote) = true) :
    Yields (text ++ quote :: later) string ⟨.string, decodeLenient text⟩ later :=
  .bind (.takeWhile free fun b front => by cases front; decide) (.bind .bump .pure)

theorem yields_ofWord {word : List UInt8} (all : ∀ b ∈ word, isWordByte b = true)
    (ends : ∀ b ∈ later.head?, isWordByte b = false) :
    Yields (word ++ later) Lexer.word (.ofWord (decodeLenient word)) later :=
  .bind (.takeWhile all ends) .pure

theorem yields_orEqual_single {single double : TokenKind} (ends : later.head? ≠ some 0x3D) :
    Yields later (orEqual single double) (.ofKind single) later := by
  refine .bind .peek ?_
  rw [if_neg ends]
  exact .pure

theorem yields_orEqual_double {single double : TokenKind} :
    Yields (0x3D :: later) (orEqual single double) (.ofKind double) later := by
  refine .bind .peek ?_
  rw [List.head?_cons, if_pos rfl]
  exact .bind .bump .pure

theorem yields_of_spells (spells : t.Spells source later) : ∃ b rest, source = b :: rest ∧
    (b ≠ commentMark ∧ isBlank b = false) ∧ Yields (source ++ later) (tokenAt b) t later := by
  have mark {b : UInt8} {rest bytes : List UInt8} (noDigit : isDigit b = false) (noLetter : isLetter b = false)
      (read : Yields (rest ++ later) (afterMark b) t bytes) : Yields (b :: rest ++ later) (tokenAt b) t bytes := by
    rw [tokenAt, noDigit, noLetter, if_neg Bool.false_ne_true, if_neg Bool.false_ne_true]
    exact .bind .bump read
  cases spells with
  | @word text _ known ends =>
    obtain ⟨b, rest, bytes, letter, all⟩ := encode_of_isWord known
    refine ⟨b, rest, bytes, starts_of_isWordByte (by simp [isWordByte, letter]), ?_⟩
    rw [tokenAt, not_isDigit_of_isLetter letter, if_neg Bool.false_ne_true, if_pos letter]
    have read := yields_ofWord all ends
    rwa [decodeLenient_encode] at read
  | @integer text _ some digits ends =>
    obtain ⟨b, rest, bytes⟩ := List.exists_cons_of_ne_nil (encode_ne_nil some)
    have digit := encode_of_isDigits digits b (bytes ▸ List.mem_cons_self)
    refine ⟨b, rest, bytes, starts_of_isWordByte (by simp [isWordByte, digit]), ?_⟩
    have read := yields_integer (encode_of_isDigits digits) ends
    rw [decodeLenient_encode] at read
    rwa [tokenAt, if_pos digit]
  | @float whole fraction _ some digits digits' ends =>
    obtain ⟨b, rest, bytes⟩ := List.exists_cons_of_ne_nil (encode_ne_nil some)
    have digit := encode_of_isDigits digits b (bytes ▸ List.mem_cons_self)
    have parts : encode (whole ++ "." ++ fraction) = encode whole ++ 0x2E :: encode fraction := by
      rw [encode_append, encode_append, List.append_assoc]
      rfl
    refine ⟨b, rest ++ 0x2E :: encode fraction, by rw [parts, bytes]; rfl,
      starts_of_isWordByte (by simp [isWordByte, digit]), ?_⟩
    have read := yields_float (encode_of_isDigits digits) (encode_of_isDigits digits') ends
    rw [decodeLenient_encode, decodeLenient_encode] at read
    rwa [tokenAt, if_pos digit, parts, List.append_assoc]
  | string free =>
    refine ⟨quote, _, rfl, by decide, mark (by decide) (by decide) ?_⟩
    have read : Yields _ string _ later := yields_string (encode_of_free free)
    rw [decodeLenient_encode] at read
    rwa [List.append_assoc]
  | single known =>
    unfold single? at known
    split at known <;> cases known
    all_goals exact ⟨_, _, rfl, by decide, mark (by decide) (by decide) .pure⟩
  | alone known ends =>
    unfold orEqual? at known
    split at known <;> cases known
    all_goals exact ⟨_, _, rfl, by decide, mark (by decide) (by decide) (yields_orEqual_single ends)⟩
  | together known =>
    unfold orEqual? at known
    split at known <;> cases known
    all_goals exact ⟨_, _, rfl, by decide, mark (by decide) (by decide) yields_orEqual_double⟩
  | doubled known =>
    unfold doubled? at known
    split at known <;> cases known
    all_goals exact ⟨_, _, rfl, by decide, mark (by decide) (by decide) (.bind .bump .pure)⟩

theorem nextToken_of_spells {blanks : List UInt8} (ignored : Ignored blanks) (spells : t.Spells source later) :
    Yields (blanks ++ (source ++ later)) nextToken t later := by
  obtain ⟨b, rest, rfl, starts, read⟩ := yields_of_spells spells
  refine .bind (.skipIgnored ignored fun first front => ?_) (.bind .peek read)
  cases front
  exact starts

theorem nextToken_of_ignored {blanks : List UInt8} (ignored : Ignored blanks) :
    Yields blanks nextToken (.ofKind .endOfFile) [] := by
  have skipped : Yields (blanks ++ []) skipIgnored () [] := .skipIgnored ignored nofun
  rw [List.append_nil] at skipped
  exact .bind skipped (.bind .peek .pure)

end Scans

section Laid

variable {s : Lexer} {blanks bytes : List UInt8} {tokens : List Token}

theorem scan_of_yields {t : Token} {later : List UInt8} (yields : Yields bytes nextToken t later)
    (awaits : s.Awaits bytes) :
    ∃ line u, s.scan = (⟨.ok t, line⟩, u) ∧ u.Awaits later := by
  obtain ⟨u, read, awaits⟩ := yields s awaits
  exact ⟨u.line, u, by rw [scan, read], awaits⟩

theorem isEnd_of_ending (ending : Yields bytes nextToken (.ofKind .endOfFile) []) (awaits : s.Awaits bytes) :
    ∀ scan ∈ s.scans, scan.IsEnd := by
  generalize size : s.size = n
  induction n using Nat.strongRecOn generalizing s bytes with
  | ind n ih =>
    intro scan among
    rw [scans] at among
    split at among
    · cases among
    · next more =>
      obtain ⟨line, u, read, awaits⟩ := scan_of_yields ending awaits
      have fewer : u.size < n := by
        have less := nextToken_size_lt more
        rw [← scan_state, read] at less
        exact size ▸ less
      rw [read] at among
      rcases List.mem_cons.mp among with rfl | among
      · exact ⟨_, rfl, rfl⟩
      · exact ih _ fewer (nextToken_of_ignored .nil) awaits rfl scan among

theorem finds_cons {t : Token} {later : List UInt8} (some : bytes ≠ []) (yields : Yields bytes nextToken t later)
    (awaits : s.Awaits bytes)
    (onward : ∀ u : Lexer, u.Awaits later → ∃ placed, placed.map Prod.fst = tokens ∧ Finds u.scans placed) :
    ∃ placed, placed.map Prod.fst = t :: tokens ∧ Finds s.scans placed := by
  obtain ⟨line, u, read, awaits'⟩ := scan_of_yields yields awaits
  obtain ⟨placed, rfl, ending, atEnd, found⟩ := onward u awaits'
  have more : ¬ s.IsExhausted := fun exhausted => some (awaits.eq_nil exhausted)
  refine ⟨(t, line) :: placed, rfl, ending, atEnd, ?_⟩
  rw [scans, if_neg more, read]
  exact congrArg (_ :: ·) found

theorem finds_of_laid (laid : Laid tokens bytes) (awaits : s.Awaits bytes) :
    ∃ placed, placed.map Prod.fst = tokens ∧ Finds s.scans placed := by
  induction laid generalizing s with
  | nil ignored => exact ⟨[], rfl, s.scans, isEnd_of_ending (nextToken_of_ignored ignored) awaits, rfl⟩
  | cons ignored spells _ ih =>
    obtain ⟨b, others, rfl, -⟩ := yields_of_spells spells
    exact finds_cons (by simp) (nextToken_of_spells ignored spells) awaits fun u awaits => ih awaits

end Laid

end Lexer

end HookScript
