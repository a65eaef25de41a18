import Mathlib
import HookScript.Proofs.Lexing.Munch
import HookScript.Proofs.Parsing.Spellable

/-!
Texts that are laid out from tokens. Each token is written in one of its ways, with blanks and comments before it. None are
needed where the two neighbours cannot be taken for something else together. From such a text, in whatever pieces it
arrives, the lexer finds the tokens again, and then the end of the file.
-/

namespace HookScript

open Text.Utf8 (encode)

inductive Token.Legal : Token → Prop
  | identifier {name} (known : isName name) : Legal ⟨.identifier, name⟩
  | integer {digits} (some : digits ≠ "") (known : isDigits digits = true) : Legal ⟨.integer, digits⟩
  | float {whole fraction} (some : whole ≠ "") (known : isDigits whole = true) (known' : isDigits fraction = true) :
    Legal ⟨.float, whole ++ "." ++ fraction⟩
  | boolean {text} (truth : text ∈ ["true", "false"]) : Legal ⟨.boolean, text⟩
  | string {text} (quotable : Quotable text) : Legal ⟨.string, text⟩
  | keyword {kind} (among : kind ∈ TokenKind.keywords) : Legal (.ofKind kind)
  | mark {kind} (among : kind ∈ TokenKind.marks) : Legal (.ofKind kind)

def Token.writings (t : Token) : List String :=
  match t.kind with
  | .string => ["\"" ++ t.lexeme ++ "\""]
  | .and => [t.lexeme, "&&"]
  | .or => [t.lexeme, "||"]
  | _ => [t.lexeme]

def blankChars : List Char := [' ', '\t', '\n', '\x0c', '\r']

inductive IsGap : List Char → Prop
  | nil : IsGap []
  | blank {c rest} (blank : c ∈ blankChars) (gap : IsGap rest) : IsGap (c :: rest)
  | comment {text rest} (line : '\n' ∉ text) (gap : IsGap rest) : IsGap ('#' :: (text ++ '\n' :: rest))

structure Writing where
  gap : String
  token : Token
  source : String

namespace Writing

structure Legal (w : Writing) : Prop where
  gap : IsGap w.gap.toList
  token : w.token.Legal
  source : w.source ∈ w.token.writings

def text (writings : List Writing) (ending : String) : String :=
  writings.foldr (fun w rest => w.gap ++ (w.source ++ rest)) ending

def IsWord (w : Writing) : Prop :=
  w.token.kind ∈ .identifier :: .boolean :: TokenKind.keywords ∧ w.source = w.token.lexeme

def IsNumber (w : Writing) : Prop := w.token.kind ∈ [.integer, .float]

instance (w : Writing) : Decidable w.IsWord := inferInstanceAs (Decidable (_ ∧ _))

instance (w : Writing) : Decidable w.IsNumber := inferInstanceAs (Decidable (_ ∈ _))

/-- The last character of the one and the first character of the other are an operator. -/
def MeetAsOperator (first second : Writing) : Prop :=
  ∃ a ∈ first.source.toList.getLast?, ∃ b ∈ second.source.toList.head?, String.ofList [a, b] ∈ ["==", "!=", "<=", ">="]

/-- Next to each other the two could be taken for something else. -/
def Merges (first second : Writing) : Prop :=
  (first.IsWord ∨ first.IsNumber) ∧ (second.IsWord ∨ second.IsNumber) ∨
    first.IsNumber ∧ second.token.kind = .dot ∨ first.MeetAsOperator second

/-- The second can come after the first. -/
def Fits (first second : Writing) : Prop := second.gap ≠ "" ∨ ¬ first.Merges second

instance (first second : Writing) : Decidable (first.MeetAsOperator second) :=
  decidable_of_iff ((first.source.toList.getLast?.any fun a => second.source.toList.head?.any fun b =>
    String.ofList [a, b] ∈ ["==", "!=", "<=", ">="]) = true) (by simp [MeetAsOperator, Option.any_eq_true])

instance (first second : Writing) : Decidable (first.Fits second) := inferInstanceAs (Decidable (_ ∨ ¬ (_ ∨ _ ∨ _)))

end Writing

namespace Lexer

open Text.Utf8 (encode_append toNat_of_mem_utf8EncodeChar utf8EncodeChar_of_lt step_utf8EncodeChar)

section Characters

variable {chars : List Char} {text : String} {b : UInt8}

theorem not_mem_newline (line : '\n' ∉ chars) : newline ∉ chars.flatMap String.utf8EncodeChar := by
  intro among
  obtain ⟨c, within, among⟩ := List.mem_flatMap.1 among
  have value := toNat_of_mem_utf8EncodeChar among (by decide)
  have same : c = '\n' := Char.toNat_inj.1 value.symm
  exact line (same ▸ within)

theorem encode_of_blankChars : ∀ c ∈ blankChars, ∃ b, String.utf8EncodeChar c = [b] ∧ isBlank b = true := by
  intro c among
  simp only [blankChars, List.mem_cons, List.not_mem_nil, or_false] at among
  rcases among with rfl | rfl | rfl | rfl | rfl
  all_goals exact ⟨_, utf8EncodeChar_of_lt (by decide), by decide⟩

theorem ignored_of_isGap (gap : IsGap chars) : Ignored (chars.flatMap String.utf8EncodeChar) := by
  induction gap with
  | nil => exact .nil
  | blank blank _ ih =>
    obtain ⟨b, byte, blank⟩ := encode_of_blankChars _ blank
    rw [List.flatMap_cons, byte]
    exact .blank blank ih
  | comment line _ ih =>
    have mark : String.utf8EncodeChar '#' = [commentMark] := by decide
    have last : String.utf8EncodeChar '\n' = [newline] := by decide
    rw [List.flatMap_cons, List.flatMap_append, List.flatMap_cons, mark, last]
    exact .comment (not_mem_newline line) ih

theorem head?_of_encode (small : b.toNat < 0x80) {later : List UInt8} (some : text ≠ "")
    (first : b ∈ (encode text ++ later).head?) : ∃ c ∈ text.toList.head?, c.toNat = b.toNat := by
  cases chars : text.toList with
  | nil => exact absurd (String.toList_eq_nil_iff.1 chars) some
  | cons c rest =>
    obtain ⟨first', others, bytes, -⟩ := step_utf8EncodeChar c []
    rw [encode, chars, List.flatMap_cons, bytes, List.cons_append, List.cons_append, List.head?_cons] at first
    obtain rfl : first' = b := Option.some.inj first
    exact ⟨c, rfl, (toNat_of_mem_utf8EncodeChar (bytes ▸ List.mem_cons_self) small).symm⟩

end Characters

theorem wordChar_of_isWordByte {c : Char} (known : isWordByte b = true) (same : c.toNat = b.toNat) :
    (c.isAlphanum || c = '_') = true := by
  simp only [isWordByte, isLetter, isDigit, Bool.or_eq_true, Bool.and_eq_true, decide_eq_true_eq, UInt8.le_iff_toNat_le,
    UInt8.reduceToNat, ← same] at known
  have alpha : c.isAlpha = true ↔ 0x41 ≤ c.toNat ∧ c.toNat ≤ 0x5A ∨ 0x61 ≤ c.toNat ∧ c.toNat ≤ 0x7A := by
    simp [Char.isAlpha, Char.isUpper, Char.isLower, UInt32.le_iff_toNat_le]
  have digit : c.isDigit = true ↔ 0x30 ≤ c.toNat ∧ c.toNat ≤ 0x39 := by
    simp [Char.isDigit, UInt32.le_iff_toNat_le]
  rw [Char.isAlphanum]
  rcases known with (known | known) | rfl
  · simp [alpha.2 known]
  · simp [digit.2 known]
  · have isLine : c = '_' := Char.toNat_inj.1 same
    simp [isLine]

theorem starts_of_ignored {bytes : List UInt8} (ignored : Ignored bytes) :
    ∀ b ∈ bytes.head?, isWordByte b = false ∧ b ≠ 0x2E ∧ b ≠ 0x3D := by
  have blanks (b : UInt8) (blank : isBlank b = true) : isWordByte b = false ∧ b ≠ 0x2E ∧ b ≠ 0x3D := by
    simp only [isBlank, Bool.or_eq_true, decide_eq_true_eq] at blank
    rcases blank with (((rfl | rfl) | rfl) | rfl) | rfl <;> decide
  intro b first
  cases ignored with
  | nil => cases first
  | blank blank _ =>
    cases first
    exact blanks _ blank
  | comment _ _ =>
    cases first
    decide

end Lexer

namespace Token

theorem writings_of_keyword : ∀ kind ∈ TokenKind.keywords, ∀ source ∈ (ofKind kind).writings,
    source = kind.spelling ∨ (kind, source) ∈ [(.and, "&&"), (.or, "||")] := by decide

theorem writings_of_mark : ∀ kind ∈ TokenKind.marks, (ofKind kind).writings = [kind.spelling] := by decide

end Token

namespace Writing

variable {w first second : Writing} {next : Option UInt8} {later : List UInt8}

structure Ends (w : Writing) (next : Option UInt8) : Prop where
  run (run : w.IsWord ∨ w.IsNumber) : ∀ b ∈ next, Lexer.isWordByte b = false
  point (number : w.IsNumber) : ∀ b ∈ next, b ≠ 0x2E
  equal (single : w.token.kind ∈ [.bang, .equal, .less, .greater]) : ∀ b ∈ next, b ≠ 0x3D

theorem Legal.spells (legal : w.Legal) (ends : w.Ends later.head?) : w.token.Spells (encode w.source) later := by
  obtain ⟨gap, token, source⟩ := w
  obtain ⟨-, legal, written⟩ := legal
  obtain ⟨run, point, equal⟩ := ends
  dsimp only [IsWord, IsNumber] at *
  cases legal with
  | identifier known =>
    obtain rfl := List.mem_singleton.1 written
    exact Token.spells_word (Token.ofWord_of_isName known) (run (.inl ⟨by simp, rfl⟩))
  | boolean truth =>
    obtain rfl := List.mem_singleton.1 written
    exact Token.spells_word (Token.ofWord_of_truth _ truth) (run (.inl ⟨by simp, rfl⟩))
  | integer some known =>
    obtain rfl := List.mem_singleton.1 written
    refine .integer some known fun b front => ⟨?_, point (by simp) b front⟩
    have noWord := run (.inr (by simp)) b front
    simp only [Lexer.isWordByte, Bool.or_eq_false_iff] at noWord
    exact noWord.1.2
  | float some known known' =>
    obtain rfl := List.mem_singleton.1 written
    refine .float some known known' fun b front => ?_
    have noWord := run (.inr (by simp)) b front
    simp only [Lexer.isWordByte, Bool.or_eq_false_iff] at noWord
    exact noWord.1.2
  | string quotable =>
    obtain rfl := List.mem_singleton.1 written
    exact Token.spells_string quotable
  | keyword among =>
    rcases Token.writings_of_keyword _ among _ written with rfl | double
    · exact Token.spells_word (Token.ofWord_of_keyword _ among) (run (.inl ⟨by simp [among, Token.ofKind], rfl⟩))
    · simp only [List.mem_cons, Prod.mk.injEq, List.not_mem_nil, or_false] at double
      rcases double with ⟨rfl, rfl⟩ | ⟨rfl, rfl⟩
      · exact .doubled (b := 0x26) rfl
      · exact .doubled (b := 0x7C) rfl
  | @mark kind among =>
    have kinds : ∀ kind ∈ TokenKind.marks, kind.Fixed ∧ kind ≠ .endOfFile ∧ kind ∉ TokenKind.keywords := by decide
    rw [Token.writings_of_mark _ among] at written
    obtain rfl := List.mem_singleton.1 written
    obtain ⟨fixed, real, noWord⟩ := kinds _ among
    exact Token.spells_mark fixed real noWord fun single front => equal single _ front rfl

theorem head_of_isDigits {text : String} (some : text ≠ "") (known : isDigits text = true) :
    ∃ c rest, text.toList = c :: rest ∧ c ≠ '.' := by
  obtain ⟨c, rest, chars⟩ := List.exists_cons_of_ne_nil (mt String.toList_eq_nil_iff.1 some)
  rw [isDigits, chars] at known
  refine ⟨c, rest, chars, ?_⟩
  rintro rfl
  cases known

theorem head_of_isWord {text : String} (word : isWord text = true) : ∃ c rest, text.toList = c :: rest ∧ c ≠ '.' := by
  unfold isWord at word
  cases chars : text.toList with
  | nil =>
    rw [chars] at word
    cases word
  | cons c rest =>
    rw [chars] at word
    refine ⟨c, rest, rfl, ?_⟩
    rintro rfl
    cases word

theorem Legal.starts (legal : w.Legal) : ∃ c ∈ w.source.toList.head?,
    ((c.isAlphanum || c = '_') = true → w.IsWord ∨ w.IsNumber) ∧ (c = '.' → w.token.kind = .dot) := by
  obtain ⟨gap, token, source⟩ := w
  obtain ⟨-, legal, written⟩ := legal
  dsimp only [IsWord, IsNumber] at *
  cases legal with
  | @identifier name known =>
    obtain rfl := List.mem_singleton.1 written
    obtain ⟨c, rest, chars, noPoint⟩ := head_of_isWord known.1
    exact ⟨c, by rw [chars]; rfl, fun _ => .inl ⟨by simp, rfl⟩, fun point => absurd point noPoint⟩
  | boolean truth =>
    obtain rfl := List.mem_singleton.1 written
    have words : ∀ text ∈ ["true", "false"], text.toList.head?.any (· != '.') = true := by decide
    obtain ⟨c, front, noPoint⟩ := (Option.any_eq_true _ _).1 (words _ truth)
    exact ⟨c, front, fun _ => .inl ⟨by simp, rfl⟩, fun point => absurd point (bne_iff_ne.1 noPoint)⟩
  | integer some known =>
    obtain rfl := List.mem_singleton.1 written
    obtain ⟨c, rest, chars, noPoint⟩ := head_of_isDigits some known
    exact ⟨c, by rw [chars]; rfl, fun _ => .inr (by simp), fun point => absurd point noPoint⟩
  | float some known known' =>
    obtain rfl := List.mem_singleton.1 written
    obtain ⟨c, rest, chars, noPoint⟩ := head_of_isDigits some known
    refine ⟨c, ?_, fun _ => .inr (by simp), fun point => absurd point noPoint⟩
    rw [String.toList_append, String.toList_append, chars]
    rfl
  | string quotable =>
    obtain rfl := List.mem_singleton.1 written
    refine ⟨'"', ?_, fun word => absurd word (by decide), fun point => absurd point (by decide)⟩
    rw [String.toList_append, String.toList_append]
    rfl
  | keyword among =>
    rcases Token.writings_of_keyword _ among _ written with rfl | double
    · have words : ∀ kind ∈ TokenKind.keywords, kind.spelling.toList.head?.any (· != '.') = true := by decide
      obtain ⟨c, front, noPoint⟩ := (Option.any_eq_true _ _).1 (words _ among)
      exact ⟨c, front, fun _ => .inl ⟨by simp [among, Token.ofKind], rfl⟩,
        fun point => absurd point (bne_iff_ne.1 noPoint)⟩
    · simp only [List.mem_cons, Prod.mk.injEq, List.not_mem_nil, or_false] at double
      rcases double with ⟨rfl, rfl⟩ | ⟨rfl, rfl⟩
      · exact ⟨'&', rfl, fun word => absurd word (by decide), fun point => absurd point (by decide)⟩
      · exact ⟨'|', rfl, fun word => absurd word (by decide), fun point => absurd point (by decide)⟩
  | mark among =>
    have marks : ∀ kind ∈ TokenKind.marks, kind.spelling.toList.head?.any
        (fun c => (c.isAlphanum || c = '_') = false ∧ (c = '.' → kind = .dot)) = true := by decide
    rw [Token.writings_of_mark _ among] at written
    obtain rfl := List.mem_singleton.1 written
    obtain ⟨c, front, other⟩ := (Option.any_eq_true _ _).1 (marks _ among)
    obtain ⟨noWord, dot⟩ := of_decide_eq_true other
    exact ⟨c, front, fun word => absurd word (by simp [noWord]), dot⟩

theorem Legal.source_ne (legal : w.Legal) : w.source ≠ "" := by
  intro none
  obtain ⟨c, front, -⟩ := legal.starts
  rw [none] at front
  cases front

theorem Legal.meetAsOperator (legal : first.Legal) (single : first.token.kind ∈ [.bang, .equal, .less, .greater])
    (equal : '=' ∈ second.source.toList.head?) : first.MeetAsOperator second := by
  obtain ⟨gap, token, source⟩ := first
  obtain ⟨-, legal, written⟩ := legal
  have doubles : ∀ kind ∈ [TokenKind.bang, .equal, .less, .greater], kind.spelling.toList.getLast?.any
      (fun a => String.ofList [a, '='] ∈ ["==", "!=", "<=", ">="]) = true := by decide
  dsimp only at *
  cases legal with
  | mark among =>
    rw [Token.writings_of_mark _ among] at written
    obtain rfl := List.mem_singleton.1 written
    obtain ⟨a, last, double⟩ := (Option.any_eq_true _ _).1 (doubles _ single)
    exact ⟨a, last, '=', equal, of_decide_eq_true double⟩
  | keyword among =>
    have words : ∀ kind ∈ TokenKind.keywords, kind ∉ [.bang, .equal, .less, .greater] := by decide
    exact absurd single (words _ among)
  | _ => simp at single

theorem ends_of_source (legal : first.Legal) (legal' : second.Legal) (apart : ¬ first.Merges second) :
    first.Ends (encode second.source ++ later).head? := by
  obtain ⟨c, front, word, point⟩ := legal'.starts
  have read {b : UInt8} (small : b.toNat < 0x80) (next : b ∈ (encode second.source ++ later).head?) : c.toNat = b.toNat := by
    obtain ⟨c', front', same⟩ := Lexer.head?_of_encode small legal'.source_ne next
    cases front.symm.trans front'
    exact same
  refine ⟨fun run b next => ?_, fun number b next same => ?_, fun single b next same => ?_⟩
  · rw [← Bool.not_eq_true]
    intro known
    have same := read (Lexer.toNat_lt_of_isWordByte known) next
    exact apart (.inl ⟨run, word (Lexer.wordChar_of_isWordByte known same)⟩)
  · subst same
    have isPoint : c = '.' := Char.toNat_inj.1 (read (by decide) next)
    exact apart (.inr (.inl ⟨number, point isPoint⟩))
  · subst same
    have isEqual : c = '=' := Char.toNat_inj.1 (read (by decide) next)
    exact apart (.inr (.inr (legal.meetAsOperator single (isEqual ▸ front))))

theorem ends_of_ignored {bytes : List UInt8} (ignored : Lexer.Ignored bytes) : w.Ends bytes.head? where
  run _ b next := (Lexer.starts_of_ignored ignored b next).1
  point _ b next := (Lexer.starts_of_ignored ignored b next).2.1
  equal _ b next := (Lexer.starts_of_ignored ignored b next).2.2

theorem ends_of_fits (legal : first.Legal) (legal' : second.Legal) (fits : first.Fits second) :
    first.Ends (encode second.gap ++ (encode second.source ++ later)).head? := by
  by_cases none : second.gap = ""
  · have nothing : encode second.gap = [] := by rw [none]; rfl
    rw [nothing, List.nil_append]
    exact ends_of_source legal legal' (fits.resolve_left (not_not_intro none))
  · rw [List.head?_append_of_ne_nil _ (Lexer.encode_ne_nil none)]
    exact ends_of_ignored (Lexer.ignored_of_isGap legal'.gap)

theorem laid_text {writings : List Writing} {ending : String} (legal : ∀ w ∈ writings, w.Legal)
    (last : IsGap ending.toList) (fits : writings.IsChain Fits) :
    Laid (writings.map Writing.token) (encode (text writings ending)) := by
  induction writings with
  | nil => exact .nil (Lexer.ignored_of_isGap last)
  | cons w rest ih =>
    obtain ⟨here, others⟩ := List.forall_mem_cons.1 legal
    have bytes : encode (text (w :: rest) ending) = encode w.gap ++ (encode w.source ++ encode (text rest ending)) := by
      rw [← Text.Utf8.encode_append, ← Text.Utf8.encode_append]
      rfl
    rw [bytes]
    refine .cons (Lexer.ignored_of_isGap here.gap) (here.spells ?_) (ih others fits.tail)
    cases rest with
    | nil => exact ends_of_ignored (Lexer.ignored_of_isGap last)
    | cons second rest =>
      have bytes : encode (text (second :: rest) ending) =
          encode second.gap ++ (encode second.source ++ encode (text rest ending)) := by
        rw [← Text.Utf8.encode_append, ← Text.Utf8.encode_append]
        rfl
      rw [bytes]
      exact ends_of_fits here (others second List.mem_cons_self) (List.isChain_cons_cons.1 fits).1

end Writing

open TokenSource (after next)

theorem Lexer.next_of_laid {s : Lexer} {tokens : List Token} {bytes : List UInt8} (laid : Laid tokens bytes)
    (awaits : s.Awaits bytes) : (next s).1 = .ok (tokens.headD (.ofKind .endOfFile)) ∧
      ∃ later, Laid tokens.tail later ∧ (next s).2.Awaits later := by
  cases laid with
  | nil ignored =>
    obtain ⟨answer, left⟩ := next_of_yields (nextToken_of_ignored ignored) awaits
    exact ⟨answer, [], .nil .nil, left⟩
  | cons ignored spells laid =>
    obtain ⟨answer, left⟩ := next_of_yields (nextToken_of_spells ignored spells) awaits
    exact ⟨answer, _, laid, left⟩

theorem Lexer.answers_of_laid {s : Lexer} {tokens : List Token} {bytes : List UInt8} (laid : Laid tokens bytes)
    (awaits : s.Awaits bytes) (n : Nat) : (next (after s n)).1 = .ok (tokens.getD n (.ofKind .endOfFile)) := by
  induction n generalizing s tokens bytes with
  | zero =>
    rw [after, (next_of_laid laid awaits).1]
    cases tokens <;> rfl
  | succ n ih =>
    obtain ⟨-, later, laid', left⟩ := next_of_laid laid awaits
    rw [← TokenSource.after_next, ih laid' left]
    cases tokens <;> rfl

/-- To lex a text undoes writing its tokens. Whichever of its writings each token has, whatever is ignored before each of
them and at the end, and in whatever pieces the bytes arrive, the lexer finds the tokens and then the end of the file again
and again. Something must be ignored between two neighbours only if both are words or numbers, if a number stands before a
point, or if the characters where they meet are an operator. -/
theorem tokens_of_text {writings : List Writing} {ending : String} (legal : ∀ w ∈ writings, w.Legal)
    (last : IsGap ending.toList) (fits : writings.IsChain Writing.Fits) {lexer : Lexer}
    (awaits : lexer.Awaits (encode (Writing.text writings ending))) (n : Nat) :
    (next (after lexer n)).1 = .ok ((writings.map Writing.token).getD n (.ofKind .endOfFile)) :=
  Lexer.answers_of_laid (Writing.laid_text legal last fits) awaits n

def denseWritings : List Writing :=
  [⟨"# \u00e9\n", ⟨.identifier, "x"⟩, "x"⟩, ⟨"", .ofKind .equal, "="⟩, ⟨" ", .ofKind .equalEqual, "=="⟩,
    ⟨"", ⟨.integer, "12"⟩, "12"⟩, ⟨"\t", .ofKind .dot, "."⟩, ⟨"", ⟨.float, "5."⟩, "5."⟩, ⟨"", ⟨.string, "#\n"⟩, "\"#\n\""⟩,
    ⟨"", .ofKind .and, "&&"⟩, ⟨"", .ofKind .or, "or"⟩, ⟨"\x0c", ⟨.identifier, "or1"⟩, "or1"⟩]

theorem tokens_of_denseWritings : (∀ w ∈ denseWritings, w.Legal) ∧ IsGap " #\n".toList ∧
    denseWritings.IsChain Writing.Fits ∧
    Writing.text denseWritings " #\n" = "# \u00e9\nx= ==12\t.5.\"#\n\"&&or\x0cor1 #\n" ∧
    ∀ n, (next (after (Lexer.ofText "# \u00e9\nx= ==12\t.5.\"#\n\"&&or\x0cor1 #\n") n)).1 =
      .ok ((denseWritings.map Writing.token).getD n (.ofKind .endOfFile)) := by
  have comment : IsGap "# \u00e9\n".toList := @IsGap.comment [' ', '\u00e9'] [] (by decide) .nil
  have last : IsGap " #\n".toList := .blank (by decide) (@IsGap.comment [] [] (by decide) .nil)
  have x : isName "x" := by unfold isName; decide
  have or1 : isName "or1" := by unfold isName; decide
  have legal : ∀ w ∈ denseWritings, w.Legal := by
    simp only [denseWritings, List.forall_mem_cons, List.not_mem_nil, false_implies, implies_true, and_true]
    refine ⟨⟨comment, .identifier x, by decide⟩, ⟨.nil, .mark (by decide), by decide⟩,
      ⟨.blank (by decide) .nil, .mark (by decide), by decide⟩,
      ⟨.nil, .integer (by decide) (by decide), by decide⟩, ⟨.blank (by decide) .nil, .mark (by decide), by decide⟩,
      ⟨.nil, @Token.Legal.float "5" "" (by decide) (by decide) (by decide), by decide⟩,
      ⟨.nil, .string (by unfold Quotable; decide), by decide⟩, ⟨.nil, .keyword (by decide), by decide⟩,
      ⟨.nil, .keyword (by decide), by decide⟩, ⟨.blank (by decide) .nil, .identifier or1, by decide⟩⟩
  have fits : denseWritings.IsChain Writing.Fits := by decide
  have text : Writing.text denseWritings " #\n" = "# \u00e9\nx= ==12\t.5.\"#\n\"&&or\x0cor1 #\n" := by decide
  exact ⟨legal, last, fits, text, fun n => tokens_of_text legal last fits (text ▸ Lexer.awaits_ofBytes _) n⟩

end HookScript
