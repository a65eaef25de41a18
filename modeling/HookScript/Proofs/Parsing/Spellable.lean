import HookScript.Proofs.Lexing.Scans
import HookScript.Proofs.Lexing.Spelling
import HookScript.Proofs.Parsing.Grammar

/-!
Programs that can be written out. Their names are words that mean nothing else, their strings have no quote inside, and
their numbers are values of numerals. Such a program is written with tokens that can be spelled, and those can be laid
out as a text.
-/

namespace HookScript

open Text.Utf8 (encode)

def isName (text : String) : Prop :=
  isWord text = true ∧ text ≠ "true" ∧ text ≠ "false" ∧ TokenKind.ofKeyword? text = none

def Quotable (text : String) : Prop := '"' ∉ text.toList

def Literal.Spellable : Literal → Prop
  | float x => ∃ whole fraction : String, whole ≠ "" ∧ isDigits whole = true ∧ isDigits fraction = true ∧
    Parser.floatValue (whole ++ "." ++ fraction) = x
  | string s => Quotable s
  | _ => True

mutual

/-- Every name, key and literal of the expression can be spelled. -/
def Expr.Spellable : Expr → Prop
  | .lookup name _ => isName name
  | .assign name _ value => isName name ∧ value.Spellable
  | .item target index => target.Spellable ∧ index.Spellable
  | .setItem target index value => target.Spellable ∧ index.Spellable ∧ value.Spellable
  | .property target name => target.Spellable ∧ Quotable name
  | .setProperty target name value => target.Spellable ∧ Quotable name ∧ value.Spellable
  | .literal literal => literal.Spellable
  | .group inner => inner.Spellable
  | .unary _ operand => operand.Spellable
  | .binary left _ right => left.Spellable ∧ right.Spellable
  | .logical left _ right => left.Spellable ∧ right.Spellable
  | .call callee args => callee.Spellable ∧ ElementsSpellable args
  | .list items => ElementsSpellable items
  | .object properties => PropertiesSpellable properties
  | .method params body => (∀ name ∈ params, isName name) ∧ StmtsSpellable body

def ElementsSpellable : List Expr → Prop
  | [] => True
  | first :: rest => first.Spellable ∧ ElementsSpellable rest

def PropertiesSpellable : List (String × Expr) → Prop
  | [] => True
  | (key, value) :: rest => Quotable key ∧ value.Spellable ∧ PropertiesSpellable rest

def Stmt.Spellable : Stmt → Prop
  | .expression value => value.Spellable
  | .declare name none => isName name
  | .declare name (some initial) => isName name ∧ initial.Spellable
  | .block body => StmtsSpellable body
  | .branch condition yes none => condition.Spellable ∧ yes.Spellable
  | .branch condition yes (some no) => condition.Spellable ∧ yes.Spellable ∧ no.Spellable
  | .loop condition body => condition.Spellable ∧ StmtsSpellable body
  | .function name params body => isName name ∧ (∀ name ∈ params, isName name) ∧ StmtsSpellable body
  | .giveBack none => True
  | .giveBack (some value) => value.Spellable
  | .leaveLoop => True
  | .nextRound => True
  | .importFrom source => source.Spellable
  | .exportAs name value => isName name ∧ value.Spellable
  | .empty => True

def StmtsSpellable : List Stmt → Prop
  | [] => True
  | first :: rest => first.Spellable ∧ StmtsSpellable rest

end

def Program.Spellable (program : Program) : Prop := StmtsSpellable program

namespace Token

section Spells

variable {later : List UInt8}

theorem spells_word {t : Token} {text : String} (word : isWord text = true ∧ ofWord text = t)
    (ends : ∀ b ∈ later.head?, Lexer.isWordByte b = false) : t.Spells (encode text) later :=
  word.2 ▸ .word word.1 ends

theorem ofWord_of_isName {name : String} (known : isName name) :
    isWord name = true ∧ ofWord name = ⟨.identifier, name⟩ := by
  obtain ⟨word, noTruth, noFalsity, noKeyword⟩ := known
  exact ⟨word, by rw [ofWord, if_neg (fun truth => truth.elim noTruth noFalsity), noKeyword]⟩

theorem ofWord_of_truth : ∀ text ∈ ["true", "false"], isWord text = true ∧ ofWord text = ⟨.boolean, text⟩ := by decide

theorem ofWord_of_keyword :
    ∀ kind ∈ TokenKind.keywords, isWord kind.spelling = true ∧ ofWord kind.spelling = .ofKind kind := by decide

theorem spells_string {text : String} (quotable : Quotable text) :
    Spells ⟨.string, text⟩ (encode ("\"" ++ text ++ "\"")) later := by
  have bytes : encode ("\"" ++ text ++ "\"") = Lexer.quote :: (encode text ++ [Lexer.quote]) := by
    rw [Text.Utf8.encode_append, Text.Utf8.encode_append, List.append_assoc]
    rfl
  rw [bytes]
  exact .string quotable

theorem spells_mark {kind : TokenKind} (fixed : kind.Fixed) (real : kind ≠ .endOfFile) (noWord : kind ∉ TokenKind.keywords)
    (ends : kind ∈ [.bang, .equal, .less, .greater] → later.head? ≠ some 0x3D) :
    (ofKind kind).Spells (encode kind.spelling) later := by
  cases kind
  case leftParen | rightParen | leftBrace | rightBrace | leftBracket | rightBracket | comma | dot | colon | semicolon
    | minus | plus | slash | star => exact .single rfl
  case bang => exact .alone (b := 0x21) rfl (ends (by decide))
  case equal => exact .alone (b := 0x3D) rfl (ends (by decide))
  case less => exact .alone (b := 0x3C) rfl (ends (by decide))
  case greater => exact .alone (b := 0x3E) rfl (ends (by decide))
  case bangEqual => exact .together (b := 0x21) rfl
  case equalEqual => exact .together (b := 0x3D) rfl
  case lessEqual => exact .together (b := 0x3C) rfl
  case greaterEqual => exact .together (b := 0x3E) rfl
  case endOfFile => exact absurd rfl real
  case identifier | string | integer | float | boolean | illegal => exact absurd fixed (by decide)
  all_goals exact absurd (by decide) noWord

end Spells

def Spellable (t : Token) : Prop := ∃ source : String, ∀ later, t.Spells (encode source) (0x20 :: later)

theorem spellable_word {t : Token} {text : String} (word : isWord text = true ∧ ofWord text = t) : Spellable t :=
  ⟨text, fun _ => spells_word word fun b front => by cases front; decide⟩

theorem spellable_identifier {name : String} (known : isName name) : Spellable ⟨.identifier, name⟩ :=
  spellable_word (ofWord_of_isName known)

theorem spellable_string {text : String} (quotable : Quotable text) : Spellable ⟨.string, text⟩ :=
  ⟨_, fun _ => spells_string quotable⟩

theorem spellable_boolean (b : Bool) : Spellable ⟨.boolean, if b then "true" else "false"⟩ :=
  spellable_word (ofWord_of_truth _ (by cases b <;> decide))

theorem spellable_ofKind {kind : TokenKind} (fixed : kind.Fixed) (real : kind ≠ .endOfFile) :
    Spellable (.ofKind kind) := by
  by_cases word : kind ∈ TokenKind.keywords
  · exact spellable_word (ofWord_of_keyword kind word)
  · exact ⟨kind.spelling, fun _ => spells_mark fixed real word nofun⟩

theorem spellable_integer {digits : String} (some : digits ≠ "") (known : isDigits digits = true) :
    Spellable ⟨.integer, digits⟩ :=
  ⟨digits, fun _ => .integer some known fun b front => by cases front; decide⟩

theorem spellable_float {whole fraction : String} (some : whole ≠ "") (known : isDigits whole = true)
    (known' : isDigits fraction = true) : Spellable ⟨.float, whole ++ "." ++ fraction⟩ :=
  ⟨_, fun _ => .float some known known' fun b front => by cases front; decide⟩

end Token

theorem exists_digits (n : Nat) : ∃ digits : String, digits ≠ "" ∧ isDigits digits = true ∧
    Parser.decimalValue digits.toList = n := by
  refine ⟨String.ofList (Nat.toDigits 10 n), ?_, ?_, ?_⟩
  · exact fun none => Nat.toDigits_ne_nil (String.ofList_eq_empty_iff.mp none)
  · rw [isDigits, String.toList_ofList, List.all_eq_true]
    exact fun c among => Nat.isDigit_of_mem_toDigits (by decide) (by decide) among
  · have value := Nat.ofDigitChars_toDigits (b := 10) (n := n) (by decide) (by decide)
    rw [Nat.ofDigitChars] at value
    simpa only [Parser.decimalValue, String.toList_ofList, Nat.mul_comm] using value

theorem Literal.exists_spelled (l : Literal) (spellable : l.Spellable) : ∃ t, l.Spelled t ∧ t.Spellable := by
  cases l with
  | integer n =>
    obtain ⟨digits, some, known, value⟩ := exists_digits n
    exact ⟨⟨.integer, digits⟩, ⟨rfl, value⟩, Token.spellable_integer some known⟩
  | float x =>
    obtain ⟨whole, fraction, some, known, known', value⟩ := spellable
    exact ⟨⟨.float, whole ++ "." ++ fraction⟩, ⟨rfl, value⟩, Token.spellable_float some known known'⟩
  | string s => exact ⟨⟨.string, s⟩, rfl, Token.spellable_string spellable⟩
  | boolean b => exact ⟨⟨.boolean, if b then "true" else "false"⟩, rfl, Token.spellable_boolean b⟩
  | nil => exact ⟨.ofKind .nilWord, rfl, Token.spellable_ofKind (by decide) (by decide)⟩

def AllSpellable (ts : List Token) : Prop := ∀ t ∈ ts, t.Spellable

namespace AllSpellable

variable {t : Token} {a b ts : List Token}

theorem nil : AllSpellable [] := nofun

theorem cons (first : t.Spellable) (rest : AllSpellable ts) : AllSpellable (t :: ts) :=
  List.forall_mem_cons.mpr ⟨first, rest⟩

theorem append (first : AllSpellable a) (second : AllSpellable b) : AllSpellable (a ++ b) :=
  List.forall_mem_append.mpr ⟨first, second⟩

theorem ofKind {kind : TokenKind} (rest : AllSpellable ts) (fixed : kind.Fixed ∧ kind ≠ .endOfFile := by decide) :
    AllSpellable (.ofKind kind :: ts) := .cons (Token.spellable_ofKind fixed.1 fixed.2) rest

theorem parameterTokens {names : List String} (known : ∀ name ∈ names, isName name) :
    AllSpellable (HookScript.parameterTokens names) := by
  induction names with
  | nil => exact .ofKind .nil
  | cons name others ih =>
    obtain ⟨first, rest⟩ := List.forall_mem_cons.mp known
    cases others with
    | nil => exact .cons (Token.spellable_identifier first) (.ofKind .nil)
    | cons second others => exact .cons (Token.spellable_identifier first) (.ofKind (ih rest))

end AllSpellable

mutual

theorem Expr.exists_written : ∀ e : Expr, e.Spellable → ∃ ts, e.Written ts ∧ AllSpellable ts
  | .lookup _ _, name => ⟨_, rfl, .cons (Token.spellable_identifier name) .nil⟩
  | .assign _ _ value, ⟨name, given⟩ => by
    obtain ⟨v, written, all⟩ := value.exists_written given
    exact ⟨_, ⟨v, written, rfl⟩, .cons (Token.spellable_identifier name) (.ofKind all)⟩
  | .item target index, ⟨place, inside⟩ => by
    obtain ⟨a, written, all⟩ := target.exists_written place
    obtain ⟨b, written', all'⟩ := index.exists_written inside
    exact ⟨_, ⟨a, b, written, written', rfl⟩, .append all (.ofKind (.append all' (.ofKind .nil)))⟩
  | .setItem target index value, ⟨place, inside, given⟩ => by
    obtain ⟨a, written, all⟩ := target.exists_written place
    obtain ⟨b, written', all'⟩ := index.exists_written inside
    obtain ⟨v, written'', all''⟩ := value.exists_written given
    exact ⟨_, ⟨a, b, v, written, written', written'', rfl⟩,
      .append all (.ofKind (.append all' (.ofKind (.ofKind all''))))⟩
  | .property target name, ⟨place, quotable⟩ => by
    obtain ⟨a, written, all⟩ := target.exists_written place
    exact ⟨_, ⟨a, ⟨.string, name⟩, written, .inr rfl, rfl⟩,
      .append all (.ofKind (.cons (Token.spellable_string quotable) .nil))⟩
  | .setProperty target name value, ⟨place, quotable, given⟩ => by
    obtain ⟨a, written, all⟩ := target.exists_written place
    obtain ⟨v, written', all'⟩ := value.exists_written given
    exact ⟨_, ⟨a, ⟨.string, name⟩, v, written, .inr rfl, written', rfl⟩,
      .append all (.ofKind (.cons (Token.spellable_string quotable) (.ofKind all')))⟩
  | .literal literal, spellable => by
    obtain ⟨t, spelled, known⟩ := literal.exists_spelled spellable
    exact ⟨_, ⟨t, spelled, rfl⟩, .cons known .nil⟩
  | .group inner, spellable => by
    obtain ⟨a, written, all⟩ := inner.exists_written spellable
    exact ⟨_, ⟨a, written, rfl⟩, .ofKind (.append all (.ofKind .nil))⟩
  | .unary op operand, spellable => by
    obtain ⟨a, written, all⟩ := operand.exists_written spellable
    exact ⟨_, ⟨a, written, rfl⟩, .ofKind all (by cases op <;> decide)⟩
  | .binary left op right, ⟨first, second⟩ => by
    obtain ⟨a, written, all⟩ := left.exists_written first
    obtain ⟨b, written', all'⟩ := right.exists_written second
    exact ⟨_, ⟨a, b, written, written', rfl⟩, .append all (.ofKind all' (by cases op <;> decide))⟩
  | .logical left op right, ⟨first, second⟩ => by
    obtain ⟨a, written, all⟩ := left.exists_written first
    obtain ⟨b, written', all'⟩ := right.exists_written second
    exact ⟨_, ⟨a, b, written, written', rfl⟩, .append all (.ofKind all' (by cases op <;> decide))⟩
  | .call callee args, ⟨place, inside⟩ => by
    obtain ⟨a, written, all⟩ := callee.exists_written place
    obtain ⟨b, written', all'⟩ := exists_elementsWritten .rightParen (by decide) args inside
    exact ⟨_, ⟨a, b, written, written', rfl⟩, .append all (.ofKind all')⟩
  | .list items, inside => by
    obtain ⟨b, written, all⟩ := exists_elementsWritten .rightBracket (by decide) items inside
    exact ⟨_, ⟨b, written, rfl⟩, .ofKind all⟩
  | .object properties, inside => by
    obtain ⟨b, written, all⟩ := exists_propertiesWritten properties inside
    exact ⟨_, ⟨b, written, rfl⟩, .ofKind (.ofKind all)⟩
  | .method params body, ⟨names, inside⟩ => by
    obtain ⟨b, written, all⟩ := exists_stmtsWritten body inside
    exact ⟨_, ⟨b, written, rfl⟩,
      .ofKind (.ofKind (.append (.parameterTokens names) (.ofKind (.append all (.ofKind .nil)))))⟩

theorem exists_elementsWritten (close : TokenKind) (fixed : close.Fixed ∧ close ≠ .endOfFile) :
    ∀ es : List Expr, ElementsSpellable es → ∃ ts, ElementsWritten close es ts ∧ AllSpellable ts
  | [], _ => ⟨_, rfl, .ofKind .nil fixed⟩
  | first :: others, ⟨here, there⟩ => by
    obtain ⟨a, written, all⟩ := first.exists_written here
    obtain ⟨b, written', all'⟩ := exists_elementsWritten close fixed others there
    exact ⟨_, ⟨a, b, written, written', .inl rfl⟩, .append all (.ofKind all')⟩

theorem exists_propertiesWritten : ∀ properties : List (String × Expr), PropertiesSpellable properties →
    ∃ ts, PropertiesWritten properties ts ∧ AllSpellable ts
  | [], _ => ⟨_, rfl, .ofKind .nil⟩
  | (key, value) :: others, ⟨quotable, here, there⟩ => by
    obtain ⟨a, written, all⟩ := value.exists_written here
    obtain ⟨b, written', all'⟩ := exists_propertiesWritten others there
    exact ⟨_, ⟨⟨.string, key⟩, a, b, .inr rfl, written, written', .inl rfl⟩,
      .append (.cons (Token.spellable_string quotable) (.ofKind all)) (.ofKind all')⟩

theorem Stmt.exists_written : ∀ stmt : Stmt, stmt.Spellable → ∃ ts, stmt.Written ts ∧ AllSpellable ts
  | .expression value, spellable => by
    obtain ⟨a, written, all⟩ := value.exists_written spellable
    exact ⟨_, ⟨a, written, rfl⟩, .append all (.ofKind .nil)⟩
  | .declare _ none, name => ⟨_, rfl, .ofKind (.cons (Token.spellable_identifier name) (.ofKind .nil))⟩
  | .declare _ (some initial), ⟨name, given⟩ => by
    obtain ⟨a, written, all⟩ := initial.exists_written given
    exact ⟨_, ⟨a, written, rfl⟩,
      .ofKind (.cons (Token.spellable_identifier name) (.ofKind (.append all (.ofKind .nil))))⟩
  | .block body, inside => by
    obtain ⟨b, written, all⟩ := exists_stmtsWritten body inside
    exact ⟨_, ⟨b, written, rfl⟩, .ofKind (.append all (.ofKind .nil))⟩
  | .branch condition yes none, ⟨asked, first⟩ => by
    obtain ⟨a, written, all⟩ := condition.exists_written asked
    obtain ⟨b, written', all'⟩ := yes.exists_written first
    exact ⟨_, ⟨a, b, written, written', rfl⟩, .ofKind (.append all all')⟩
  | .branch condition yes (some no), ⟨asked, first, second⟩ => by
    obtain ⟨a, written, all⟩ := condition.exists_written asked
    obtain ⟨b, written', all'⟩ := yes.exists_written first
    obtain ⟨d, written'', all''⟩ := no.exists_written second
    exact ⟨_, ⟨a, b, d, written, written', written'', rfl⟩, .ofKind (.append all (.append all' (.ofKind all'')))⟩
  | .loop condition body, ⟨asked, inside⟩ => by
    obtain ⟨a, written, all⟩ := condition.exists_written asked
    obtain ⟨b, written', all'⟩ := exists_stmtsWritten body inside
    exact ⟨_, ⟨a, b, written, written', rfl⟩, .ofKind (.append all (.ofKind (.append all' (.ofKind .nil))))⟩
  | .function _ params body, ⟨name, names, inside⟩ => by
    obtain ⟨b, written, all⟩ := exists_stmtsWritten body inside
    exact ⟨_, ⟨b, written, rfl⟩, .ofKind (.cons (Token.spellable_identifier name) (.ofKind
      (.append (.parameterTokens names) (.ofKind (.append all (.ofKind .nil))))))⟩
  | .giveBack none, _ => ⟨_, rfl, .ofKind (.ofKind .nil)⟩
  | .giveBack (some value), spellable => by
    obtain ⟨a, written, all⟩ := value.exists_written spellable
    exact ⟨_, ⟨a, written, rfl⟩, .ofKind (.append all (.ofKind .nil))⟩
  | .leaveLoop, _ => ⟨_, rfl, .ofKind (.ofKind .nil)⟩
  | .nextRound, _ => ⟨_, rfl, .ofKind (.ofKind .nil)⟩
  | .importFrom source, spellable => by
    obtain ⟨a, written, all⟩ := source.exists_written spellable
    exact ⟨_, ⟨a, written, rfl⟩, .ofKind (.append all (.ofKind .nil))⟩
  | .exportAs _ value, ⟨name, given⟩ => by
    obtain ⟨a, written, all⟩ := value.exists_written given
    exact ⟨_, ⟨a, written, .inl rfl⟩,
      .ofKind (.append all (.ofKind (.cons (Token.spellable_identifier name) (.ofKind .nil))))⟩
  | .empty, _ => ⟨_, rfl, .ofKind .nil⟩

theorem exists_stmtsWritten : ∀ stmts : List Stmt, StmtsSpellable stmts → ∃ ts, StmtsWritten stmts ts ∧ AllSpellable ts
  | [], _ => ⟨_, rfl, .nil⟩
  | first :: others, ⟨here, there⟩ => by
    obtain ⟨a, written, all⟩ := first.exists_written here
    obtain ⟨b, written', all'⟩ := exists_stmtsWritten others there
    exact ⟨_, ⟨a, b, written, written', rfl⟩, .append all all'⟩

end

theorem exists_laid {ts : List Token} (all : AllSpellable ts) : ∃ text : String, Laid ts (encode text) := by
  induction ts with
  | nil => exact ⟨"", .nil .nil⟩
  | cons t rest ih =>
    obtain ⟨here, there⟩ := List.forall_mem_cons.mp all
    obtain ⟨source, spells⟩ := here
    obtain ⟨text, laid⟩ := ih there
    refine ⟨source ++ " " ++ text, ?_⟩
    rw [Text.Utf8.encode_append, Text.Utf8.encode_append, List.append_assoc, ← List.nil_append (_ ++ _)]
    exact .cons .nil (spells (encode text)) (laid.blank rfl)

end HookScript
