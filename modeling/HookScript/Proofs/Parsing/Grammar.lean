import HookScript.Program.Parser
import HookScript.Proofs.Scoping.Names

/-!
The grammar of programs, told by the finished tree. A tree says which tokens it is written with, and it says by itself
whether every operand binds as tightly as its place asks for and every scope declares its names once. Nothing here
knows of tokens that are looked at, taken and expected one after another.
-/

namespace HookScript

namespace UnaryOp

def kind : UnaryOp → TokenKind
  | negate => .minus
  | not => .bang

end UnaryOp

namespace BinaryOp

def kind : BinaryOp → TokenKind
  | equal => .equalEqual
  | notEqual => .bangEqual
  | less => .less
  | lessEqual => .lessEqual
  | greater => .greater
  | greaterEqual => .greaterEqual
  | plus => .plus
  | minus => .minus
  | times => .star
  | divide => .slash

def tier : BinaryOp → Parser.Tier
  | equal | notEqual => .equality
  | less | lessEqual | greater | greaterEqual => .comparison
  | plus | minus => .sum
  | times | divide => .product

end BinaryOp

namespace LogicalOp

def kind : LogicalOp → TokenKind
  | and => .and
  | or => .or

end LogicalOp

namespace Literal

def kind : Literal → TokenKind
  | integer _ => .integer
  | float _ => .float
  | string _ => .string
  | boolean _ => .boolean
  | nil => .nilWord

/-- A numeral may be spelled with any digits that have its value. -/
def Spelled : Literal → Token → Prop
  | integer n, t => t.kind = .integer ∧ Parser.decimalValue t.lexeme.toList = n
  | float x, t => t.kind = .float ∧ Parser.floatValue t.lexeme = x
  | string s, t => t = ⟨.string, s⟩
  | boolean b, t => t = ⟨.boolean, if b then "true" else "false"⟩
  | nil, t => t = .ofKind .nilWord

end Literal

def SpellsKey (key : String) (t : Token) : Prop := t = ⟨.identifier, key⟩ ∨ t = ⟨.string, key⟩

def parameterTokens : List String → List Token
  | [] => [.ofKind .rightParen]
  | [name] => [⟨.identifier, name⟩, .ofKind .rightParen]
  | name :: rest => ⟨.identifier, name⟩ :: .ofKind .comma :: parameterTokens rest

/-- The items of a list, of which these are the tokens of the first and of the rest up to the closing one. A comma
stands between two items and may follow the last. -/
def Separated {α : Type} (others : List α) (first later ts : List Token) : Prop :=
  ts = first ++ .ofKind .comma :: later ∨ others = [] ∧ ts = first ++ later

mutual

/-- The tokens are those of the expression in order, with parentheses where it has a group. -/
def Expr.Written : Expr → List Token → Prop
  | .lookup name _, ts => ts = [⟨.identifier, name⟩]
  | .assign name _ value, ts => ∃ v, value.Written v ∧ ts = ⟨.identifier, name⟩ :: .ofKind .equal :: v
  | .item target index, ts => ∃ a b, target.Written a ∧ index.Written b ∧
    ts = a ++ .ofKind .leftBracket :: (b ++ [.ofKind .rightBracket])
  | .setItem target index value, ts => ∃ a b v, target.Written a ∧ index.Written b ∧ value.Written v ∧
    ts = a ++ .ofKind .leftBracket :: (b ++ .ofKind .rightBracket :: .ofKind .equal :: v)
  | .property target name, ts => ∃ a key, target.Written a ∧ SpellsKey name key ∧ ts = a ++ [.ofKind .dot, key]
  | .setProperty target name value, ts => ∃ a key v, target.Written a ∧ SpellsKey name key ∧ value.Written v ∧
    ts = a ++ .ofKind .dot :: key :: .ofKind .equal :: v
  | .literal literal, ts => ∃ t, literal.Spelled t ∧ ts = [t]
  | .group inner, ts => ∃ a, inner.Written a ∧ ts = .ofKind .leftParen :: (a ++ [.ofKind .rightParen])
  | .unary op operand, ts => ∃ a, operand.Written a ∧ ts = .ofKind op.kind :: a
  | .binary left op right, ts => ∃ a b, left.Written a ∧ right.Written b ∧ ts = a ++ .ofKind op.kind :: b
  | .logical left op right, ts => ∃ a b, left.Written a ∧ right.Written b ∧ ts = a ++ .ofKind op.kind :: b
  | .call callee args, ts => ∃ a b, callee.Written a ∧ ElementsWritten .rightParen args b ∧
    ts = a ++ .ofKind .leftParen :: b
  | .list items, ts => ∃ b, ElementsWritten .rightBracket items b ∧ ts = .ofKind .leftBracket :: b
  | .object properties, ts => ∃ b, PropertiesWritten properties b ∧
    ts = .ofKind .objectWord :: .ofKind .leftBrace :: b
  | .method params body, ts => ∃ b, StmtsWritten body b ∧
    ts = .ofKind .functionWord :: .ofKind .leftParen ::
      (parameterTokens params ++ .ofKind .leftBrace :: (b ++ [.ofKind .rightBrace]))

def ElementsWritten (close : TokenKind) : List Expr → List Token → Prop
  | [], ts => ts = [.ofKind close]
  | first :: rest, ts => ∃ a b, first.Written a ∧ ElementsWritten close rest b ∧ Separated rest a b ts

def PropertiesWritten : List (String × Expr) → List Token → Prop
  | [], ts => ts = [.ofKind .rightBrace]
  | (key, value) :: rest, ts => ∃ k a b, SpellsKey key k ∧ value.Written a ∧ PropertiesWritten rest b ∧
    Separated rest (k :: .ofKind .colon :: a) b ts

/-- The tokens are those of the statement in order. A variable that is exported under its own name need not repeat
it. -/
def Stmt.Written : Stmt → List Token → Prop
  | .expression value, ts => ∃ a, value.Written a ∧ ts = a ++ [.ofKind .semicolon]
  | .declare name none, ts => ts = [.ofKind .varWord, ⟨.identifier, name⟩, .ofKind .semicolon]
  | .declare name (some initial), ts => ∃ a, initial.Written a ∧
    ts = .ofKind .varWord :: ⟨.identifier, name⟩ :: .ofKind .equal :: (a ++ [.ofKind .semicolon])
  | .block body, ts => ∃ b, StmtsWritten body b ∧ ts = .ofKind .leftBrace :: (b ++ [.ofKind .rightBrace])
  | .branch condition yes none, ts => ∃ a b, condition.Written a ∧ yes.Written b ∧
    ts = .ofKind .ifWord :: (a ++ b)
  | .branch condition yes (some no), ts => ∃ a b d, condition.Written a ∧ yes.Written b ∧ no.Written d ∧
    ts = .ofKind .ifWord :: (a ++ (b ++ .ofKind .elseWord :: d))
  | .loop condition body, ts => ∃ a b, condition.Written a ∧ StmtsWritten body b ∧
    ts = .ofKind .whileWord :: (a ++ .ofKind .leftBrace :: (b ++ [.ofKind .rightBrace]))
  | .function name params body, ts => ∃ b, StmtsWritten body b ∧
    ts = .ofKind .functionWord :: ⟨.identifier, name⟩ :: .ofKind .leftParen ::
      (parameterTokens params ++ .ofKind .leftBrace :: (b ++ [.ofKind .rightBrace]))
  | .giveBack none, ts => ts = [.ofKind .returnWord, .ofKind .semicolon]
  | .giveBack (some value), ts => ∃ a, value.Written a ∧ ts = .ofKind .returnWord :: (a ++ [.ofKind .semicolon])
  | .leaveLoop, ts => ts = [.ofKind .breakWord, .ofKind .semicolon]
  | .nextRound, ts => ts = [.ofKind .continueWord, .ofKind .semicolon]
  | .importFrom source, ts => ∃ a, source.Written a ∧ ts = .ofKind .importWord :: (a ++ [.ofKind .semicolon])
  | .exportAs name value, ts => ∃ a, value.Written a ∧
    (ts = .ofKind .exportWord :: (a ++ [.ofKind .asWord, ⟨.identifier, name⟩, .ofKind .semicolon]) ∨
      (∃ level, value = .lookup name level) ∧ ts = .ofKind .exportWord :: (a ++ [.ofKind .semicolon]))
  | .empty, ts => ts = [.ofKind .semicolon]

def StmtsWritten : List Stmt → List Token → Prop
  | [], ts => ts = []
  | first :: rest, ts => ∃ a b, first.Written a ∧ StmtsWritten rest b ∧ ts = a ++ b

end

def Program.Written (program : Program) (ts : List Token) : Prop := StmtsWritten program ts

def Parser.Tier.binding : Parser.Tier → Nat
  | .logical => 1
  | .equality => 2
  | .comparison => 3
  | .sum => 4
  | .product => 5

def prefixBinding : Nat := 6

/-- What can be called, indexed and asked for a property binds as tightly as any expression can. -/
def accessBinding : Nat := 7

/-- How tightly a token binds that may go on an expression before it. -/
def TokenKind.binding? : TokenKind → Option Nat
  | .equal => some 0
  | .and | .or => some Parser.Tier.logical.binding
  | .equalEqual | .bangEqual => some Parser.Tier.equality.binding
  | .less | .lessEqual | .greater | .greaterEqual => some Parser.Tier.comparison.binding
  | .plus | .minus => some Parser.Tier.sum.binding
  | .star | .slash => some Parser.Tier.product.binding
  | .leftParen | .leftBracket | .dot => some accessBinding
  | _ => none

def TokenKind.Ends (least : Nat) (kind : TokenKind) : Prop := ∀ binding ∈ kind.binding?, binding < least

namespace Expr

/-- How tightly the outermost construct of an expression binds. -/
def binding : Expr → Nat
  | .assign _ _ _ | .setItem _ _ _ | .setProperty _ _ _ => 0
  | .logical _ _ _ => Parser.Tier.logical.binding
  | .binary _ op _ => op.tier.binding
  | .unary _ _ => prefixBinding
  | _ => accessBinding

def opening : Expr → TokenKind
  | .lookup _ _ | .assign _ _ _ => .identifier
  | .item target _ | .setItem target _ _ | .property target _ | .setProperty target _ _ => target.opening
  | .literal value => value.kind
  | .group _ => .leftParen
  | .unary op _ => op.kind
  | .binary left _ _ | .logical left _ _ => left.opening
  | .call callee _ => callee.opening
  | .list _ => .leftBracket
  | .object _ => .objectWord
  | .method _ _ => .functionWord

end Expr

namespace Stmt

def opening : Stmt → TokenKind
  | .expression value => value.opening
  | .declare _ _ => .varWord
  | .block _ => .leftBrace
  | .branch _ _ _ => .ifWord
  | .loop _ _ => .whileWord
  | .function _ _ _ => .functionWord
  | .giveBack _ => .returnWord
  | .leaveLoop => .breakWord
  | .nextRound => .continueWord
  | .importFrom _ => .importWord
  | .exportAs _ _ => .exportWord
  | .empty => .semicolon

/-- The statement ends with a branch that could still take an `else`. -/
def awaitsElse : Stmt → Bool
  | .branch _ _ none => true
  | .branch _ _ (some no) => no.awaitsElse
  | _ => false

end Stmt

mutual

/-- Every operand binds as tightly as its place asks for: operators of one tier group to the left, an assignment stands
only where no operand does, and integers are in range. Every scope declares its names once. -/
def Expr.Shaped : Expr → Prop
  | .lookup _ _ => True
  | .assign _ _ value => value.Shaped
  | .item target index => target.Shaped ∧ index.Shaped ∧ target.binding = accessBinding ∧ 0 < index.binding
  | .setItem target index value => target.Shaped ∧ index.Shaped ∧ value.Shaped ∧ target.binding = accessBinding ∧
    0 < index.binding
  | .property target _ => target.Shaped ∧ target.binding = accessBinding
  | .setProperty target _ value => target.Shaped ∧ value.Shaped ∧ target.binding = accessBinding
  | .literal (.integer n) => n < Parser.integerLimit
  | .literal _ => True
  | .group inner => inner.Shaped ∧ 0 < inner.binding
  | .unary _ operand => operand.Shaped ∧ prefixBinding ≤ operand.binding
  | .binary left op right => left.Shaped ∧ right.Shaped ∧ op.tier.binding ≤ left.binding ∧
    op.tier.binding < right.binding
  | .logical left _ right => left.Shaped ∧ right.Shaped ∧ Parser.Tier.logical.binding ≤ left.binding ∧
    Parser.Tier.logical.binding < right.binding
  | .call callee args => callee.Shaped ∧ callee.binding = accessBinding ∧ ElementsShaped args
  | .list items => ElementsShaped items
  | .object properties => PropertiesShaped properties
  | .method params body => (params ++ declaresAll body).Nodup ∧ StmtsShaped body

def ElementsShaped : List Expr → Prop
  | [] => True
  | first :: rest => first.Shaped ∧ 0 < first.binding ∧ ElementsShaped rest

def PropertiesShaped : List (String × Expr) → Prop
  | [] => True
  | (_, value) :: rest => value.Shaped ∧ 0 < value.binding ∧ PropertiesShaped rest

/-- A branch is no declaration of a variable, what comes after a condition does not go on with it, and an `else` belongs
to the nearest `if` that can take it. A method at the start of a statement would be a function. -/
def Stmt.Shaped : Stmt → Prop
  | .expression value => value.Shaped ∧ value.opening ≠ .functionWord
  | .declare _ none => True
  | .declare _ (some initial) => initial.Shaped ∧ 0 < initial.binding
  | .block body => (declaresAll body).Nodup ∧ StmtsShaped body
  | .branch condition yes none => condition.Shaped ∧ 0 < condition.binding ∧ yes.Shaped ∧ yes.opening ≠ .varWord ∧
    yes.opening.Ends 1
  | .branch condition yes (some no) => condition.Shaped ∧ 0 < condition.binding ∧ yes.Shaped ∧ yes.opening ≠ .varWord ∧
    yes.opening.Ends 1 ∧ yes.awaitsElse = false ∧ no.Shaped ∧ no.opening ≠ .varWord
  | .loop condition body => condition.Shaped ∧ 0 < condition.binding ∧ (declaresAll body).Nodup ∧ StmtsShaped body
  | .function _ params body => (params ++ declaresAll body).Nodup ∧ StmtsShaped body
  | .giveBack none => True
  | .giveBack (some value) => value.Shaped ∧ 0 < value.binding
  | .leaveLoop => True
  | .nextRound => True
  | .importFrom source => Parser.isImportSource source = true
  | .exportAs _ value => value.Shaped
  | .empty => True

def StmtsShaped : List Stmt → Prop
  | [] => True
  | first :: rest => first.Shaped ∧ StmtsShaped rest

end

def Program.Shaped (program : Program) : Prop := (declaresAll program).Nodup ∧ StmtsShaped program

def openings : List TokenKind :=
  [.identifier, .string, .integer, .float, .boolean, .nilWord, .leftParen, .leftBracket, .objectWord, .functionWord,
    .minus, .bang]

theorem spellsKey_of_kind {t : Token} (known : t.kind ∈ [.identifier, .string]) : SpellsKey t.lexeme t := by
  obtain ⟨kind, lexeme⟩ := t
  rcases List.mem_cons.mp known with isName | isText
  · cases isName
    exact .inl rfl
  · cases List.mem_singleton.mp isText
    exact .inr rfl

theorem SpellsKey.kind_mem {key : String} {t : Token} (spelled : SpellsKey key t) : t.kind ∈ [.identifier, .string] := by
  rcases spelled with rfl | rfl <;> simp

theorem SpellsKey.lexeme_eq {key : String} {t : Token} (spelled : SpellsKey key t) : t.lexeme = key := by
  rcases spelled with rfl | rfl <;> rfl

theorem Literal.Spelled.kind_eq {literal : Literal} {t : Token} (spelled : literal.Spelled t) :
    t.kind = literal.kind := by
  cases literal with
  | integer | float => exact spelled.1
  | _ => cases spelled; rfl

theorem Literal.spelled_boolean {t : Token} (known : t.kind = .boolean) (truth : t.lexeme = "true" ∨ t.lexeme = "false") :
    (Literal.boolean (t.lexeme = "true")).Spelled t := by
  obtain ⟨kind, lexeme⟩ := t
  cases known
  rcases truth with rfl | rfl
  · rfl
  · rfl

theorem Literal.kind_mem_openings (literal : Literal) : literal.kind ∈ openings := by
  cases literal <;> simp [kind, openings]

theorem Expr.opening_mem : ∀ e : Expr, e.opening ∈ openings
  | .lookup _ _ | .assign _ _ _ => by rw [opening]; decide
  | .group _ | .list _ | .object _ | .method _ _ => by rw [opening]; decide
  | .literal value => value.kind_mem_openings
  | .unary op _ => by cases op <;> simp [opening, UnaryOp.kind, openings]
  | .item target _ | .setItem target _ _ => target.opening_mem
  | .property target _ | .setProperty target _ _ => target.opening_mem
  | .binary left _ _ | .logical left _ _ => left.opening_mem
  | .call callee _ => callee.opening_mem

theorem Stmt.opening_ne {kind : TokenKind} (ends : kind ∈ [.rightBrace, .endOfFile, .elseWord]) :
    ∀ stmt : Stmt, stmt.opening ≠ kind
  | .expression value => by
    intro same
    have known := value.opening_mem
    rw [show value.opening = kind from same] at known
    simp only [List.mem_cons, List.not_mem_nil, or_false] at ends
    rcases ends with rfl | rfl | rfl <;> exact absurd known (by decide)
  | .declare _ _ | .block _ | .branch _ _ _ | .loop _ _ | .function _ _ _ | .giveBack _ | .leaveLoop | .nextRound
  | .importFrom _ | .exportAs _ _ | .empty => by
    rintro rfl
    exact absurd ends (by simp [opening])

theorem Expr.Written.head : ∀ {e : Expr} {ts : List Token}, e.Written ts → ∃ t rest, ts = t :: rest ∧ t.kind = e.opening
  | .lookup _ _, _, written => ⟨_, _, written, rfl⟩
  | .assign _ _ _, _, ⟨_, _, same⟩ => ⟨_, _, same, rfl⟩
  | .item _ _, _, ⟨_, _, target, _, same⟩ | .setItem _ _ _, _, ⟨_, _, _, target, _, _, same⟩
  | .property _ _, _, ⟨_, _, target, _, same⟩ | .setProperty _ _ _, _, ⟨_, _, _, target, _, _, same⟩
  | .binary _ _ _, _, ⟨_, _, target, _, same⟩ | .logical _ _ _, _, ⟨_, _, target, _, same⟩
  | .call _ _, _, ⟨_, _, target, _, same⟩ => by
    obtain ⟨t, rest, rfl, kind⟩ := target.head
    exact ⟨t, _, same, kind⟩
  | .literal _, _, ⟨t, spelled, same⟩ => ⟨t, _, same, spelled.kind_eq⟩
  | .group _, _, ⟨_, _, same⟩ | .unary _ _, _, ⟨_, _, same⟩ => ⟨_, _, same, rfl⟩
  | .list _, _, ⟨_, _, same⟩ | .object _, _, ⟨_, _, same⟩ | .method _ _, _, ⟨_, _, same⟩ => ⟨_, _, same, rfl⟩

theorem Stmt.Written.head : ∀ {stmt : Stmt} {ts : List Token},
    stmt.Written ts → ∃ t rest, ts = t :: rest ∧ t.kind = stmt.opening
  | .expression _, _, ⟨_, value, same⟩ => by
    obtain ⟨t, rest, rfl, kind⟩ := value.head
    exact ⟨t, _, same, kind⟩
  | .declare _ none, _, same | .giveBack none, _, same | .leaveLoop, _, same | .nextRound, _, same
  | .empty, _, same => ⟨_, _, same, rfl⟩
  | .declare _ (some _), _, ⟨_, _, same⟩ | .block _, _, ⟨_, _, same⟩ | .function _ _ _, _, ⟨_, _, same⟩
  | .giveBack (some _), _, ⟨_, _, same⟩ | .importFrom _, _, ⟨_, _, same⟩ => ⟨_, _, same, rfl⟩
  | .branch _ _ none, _, ⟨_, _, _, _, same⟩ | .loop _ _, _, ⟨_, _, _, _, same⟩ => ⟨_, _, same, rfl⟩
  | .branch _ _ (some _), _, ⟨_, _, _, _, _, _, same⟩ => ⟨_, _, same, rfl⟩
  | .exportAs _ _, _, ⟨_, _, .inl same⟩ | .exportAs _ _, _, ⟨_, _, .inr ⟨_, same⟩⟩ => ⟨_, _, same, rfl⟩

theorem ElementsWritten.ne_nil {close : TokenKind} {es : List Expr} {ts : List Token}
    (written : ElementsWritten close es ts) : ts ≠ [] := by
  rintro rfl
  cases es with
  | nil => cases written
  | cons first others =>
    obtain ⟨a, b, first, -, separated⟩ := written
    obtain ⟨t, rest, rfl, -⟩ := first.head
    rcases separated with same | ⟨-, same⟩ <;> cases same

theorem ElementsWritten.eq_nil {close : TokenKind} {es : List Expr} {t : Token} {rest : List Token}
    (written : ElementsWritten close es (t :: rest)) (closes : t.kind = close) (other : close ∉ openings) : es = [] := by
  cases es with
  | nil => rfl
  | cons first others =>
    obtain ⟨a, b, first, -, separated⟩ := written
    obtain ⟨u, more, rfl, kind⟩ := first.head
    have same : t = u := by
      rcases separated with same | ⟨-, same⟩
      · exact (List.cons.inj same).1
      · exact (List.cons.inj same).1
    rw [← closes, same, kind] at other
    exact absurd (Expr.opening_mem _) other

theorem accessBinding_pos : 0 < accessBinding := by decide

theorem Expr.binding_le (e : Expr) : e.binding ≤ accessBinding := by
  cases e with
  | binary left op right => cases op <;> simp [binding, BinaryOp.tier, accessBinding, Parser.Tier.binding]
  | _ => simp [binding, accessBinding, prefixBinding, Parser.Tier.binding]

theorem BinaryOp.combine?_kind (op : BinaryOp) : op.tier.combine? op.kind = some (.binary · op ·) := by
  cases op <;> rfl

theorem LogicalOp.combine?_kind (op : LogicalOp) : Parser.Tier.logical.combine? op.kind = some (.logical · op ·) := by
  cases op <;> rfl

namespace Parser

theorem Tier.binding_pos (tier : Tier) : 0 < tier.binding := by
  cases tier <;> decide

theorem Tier.binding_tighter {tier tighter : Tier} (h : tier.tighter? = some tighter) :
    tighter.binding = tier.binding + 1 := by
  cases tier <;> cases h <;> rfl

theorem Tier.binding_of_tightest {tier : Tier} (h : tier.tighter? = none) : tier.binding + 1 = prefixBinding := by
  cases tier <;> cases h
  rfl

theorem Tier.combine?_cases {tier : Tier} {kind : TokenKind} {combine : Expr → Expr → Expr}
    (known : tier.combine? kind = some combine) :
    (∃ op : BinaryOp, op.kind = kind ∧ op.tier = tier ∧ combine = (.binary · op ·)) ∨
      ∃ op : LogicalOp, op.kind = kind ∧ tier = .logical ∧ combine = (.logical · op ·) := by
  unfold combine? at known
  split at known <;> cases known
  · exact .inr ⟨.and, rfl, rfl, rfl⟩
  · exact .inr ⟨.or, rfl, rfl, rfl⟩
  · exact .inl ⟨.equal, rfl, rfl, rfl⟩
  · exact .inl ⟨.notEqual, rfl, rfl, rfl⟩
  · exact .inl ⟨.less, rfl, rfl, rfl⟩
  · exact .inl ⟨.lessEqual, rfl, rfl, rfl⟩
  · exact .inl ⟨.greater, rfl, rfl, rfl⟩
  · exact .inl ⟨.greaterEqual, rfl, rfl, rfl⟩
  · exact .inl ⟨.plus, rfl, rfl, rfl⟩
  · exact .inl ⟨.minus, rfl, rfl, rfl⟩
  · exact .inl ⟨.times, rfl, rfl, rfl⟩
  · exact .inl ⟨.divide, rfl, rfl, rfl⟩

theorem Tier.combine?_eq_none {tier : Tier} {kind : TokenKind} :
    tier.combine? kind = none ↔ kind.binding? ≠ some tier.binding := by
  cases tier <;> cases kind <;> simp [combine?, TokenKind.binding?, binding, accessBinding]

theorem assignmentTo?_written {target value : Expr} {assign : Expr → Expr} {a v : List Token}
    (known : assignmentTo? target = some assign) (target_written : target.Written a) (value_written : value.Written v) :
    (assign value).Written (a ++ .ofKind .equal :: v) := by
  unfold assignmentTo? at known
  split at known <;> cases known
  · cases target_written
    exact ⟨v, value_written, rfl⟩
  · obtain ⟨b, key, written, spelled, rfl⟩ := target_written
    exact ⟨b, key, v, written, spelled, value_written, by simp⟩
  · obtain ⟨b, i, written, index, rfl⟩ := target_written
    exact ⟨b, i, v, written, index, value_written, by simp⟩

theorem assignmentTo?_shaped {target value : Expr} {assign : Expr → Expr}
    (known : assignmentTo? target = some assign) (target_shaped : target.Shaped) (value_shaped : value.Shaped) :
    (assign value).Shaped := by
  unfold assignmentTo? at known
  split at known <;> cases known
  · exact value_shaped
  · obtain ⟨shaped, tight⟩ := target_shaped
    exact ⟨shaped, value_shaped, tight⟩
  · obtain ⟨shaped, index, tight⟩ := target_shaped
    exact ⟨shaped, index, value_shaped, tight⟩

end Parser

namespace TokenKind.Ends

variable {least most : Nat} {kind : TokenKind}

theorem mono (ends : kind.Ends least) (le : least ≤ most) : kind.Ends most :=
  fun binding found => Nat.lt_of_lt_of_le (ends binding found) le

theorem of_binding?_eq_none (none : kind.binding? = none) : kind.Ends least := by
  intro binding found
  rw [none] at found
  cases found

theorem combine?_eq_none {tier : Parser.Tier} (ends : kind.Ends tier.binding) : tier.combine? kind = none :=
  Parser.Tier.combine?_eq_none.mpr fun found => Nat.lt_irrefl _ (ends _ found)

theorem of_combine? {tier : Parser.Tier} {combine : Expr → Expr → Expr} (known : tier.combine? kind = some combine) :
    kind.Ends (tier.binding + 1) := by
  intro binding found
  have same : kind.binding? = some tier.binding := Decidable.byContradiction fun other => by
    rw [Parser.Tier.combine?_eq_none.mpr other] at known
    cases known
  rw [same] at found
  cases found
  exact Nat.lt_succ_self _

theorem ne_of_binding {other : TokenKind} (ends : kind.Ends least) (found : other.binding? = some least) :
    kind ≠ other := by
  rintro rfl
  exact Nat.lt_irrefl _ (ends _ found)

theorem prefixed (ends : kind.Ends accessBinding) : kind.Ends prefixBinding := by
  intro binding found
  have below := ends binding found
  cases kind <;> cases found <;> first | exact absurd below (Nat.lt_irrefl _) | decide

theorem of_combine?_eq_none {tier : Parser.Tier} (ends : kind.Ends (tier.binding + 1))
    (none : tier.combine? kind = none) : kind.Ends tier.binding := by
  intro binding found
  have below := ends binding found
  have other : binding ≠ tier.binding := by
    rintro rfl
    exact Parser.Tier.combine?_eq_none.mp none found
  omega

theorem access (noCall : kind ≠ .leftParen) (noItem : kind ≠ .leftBracket) (noProperty : kind ≠ .dot) :
    kind.Ends accessBinding := by
  intro binding found
  cases kind <;> cases found <;> first | contradiction | decide

end TokenKind.Ends

end HookScript
