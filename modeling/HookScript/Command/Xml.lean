import HookScript.Document.Xml.Event

/-!
The XML reader of the command. A document is text and markup by turns, and each piece of it is one event. What follows
a piece that is not well formed means nothing.
-/

namespace HookScript.Xml

inductive Piece where
  | event (event : Event)
  | closing (name : List UInt8)

/-- Stands for every message of a reader. -/
def unspecified : String := "..."

def Piece.malformed : Piece := .event (.malformed unspecified)

def isBlank (b : UInt8) : Bool := b = 0x20 || b = 0x09 || b = 0x0A || b = 0x0D

def lt : UInt8 := 0x3C

def gt : UInt8 := 0x3E

def skipBlanks (bytes : List UInt8) : List UInt8 := bytes.dropWhile isBlank

def dropTrailing (p : UInt8 → Bool) (bytes : List UInt8) : List UInt8 := (bytes.reverse.dropWhile p).reverse

def splitAt (stop : UInt8) (bytes : List UInt8) : List UInt8 × List UInt8 :=
  (bytes.takeWhile (· != stop), (bytes.dropWhile (· != stop)).drop 1)

theorem length_dropWhile_le (p : UInt8 → Bool) (bytes : List UInt8) :
    (bytes.dropWhile p).length ≤ bytes.length :=
  (List.dropWhile_sublist p).length_le

theorem splitAt_length_le (stop : UInt8) (bytes : List UInt8) :
    (splitAt stop bytes).2.length ≤ bytes.length := by
  have := length_dropWhile_le (· != stop) bytes
  simp only [splitAt, List.length_drop]
  omega

/-! References -/

def digitsValue? (base : Nat) (digit? : Char → Option Nat) (digits : List Char) : Option Nat :=
  digits.foldlM (fun n c => (digit? c).map (n * base + ·)) 0

def decimalDigit? (c : Char) : Option Nat := if c.isDigit then some (c.toNat - '0'.toNat) else none

def hexDigit? (c : Char) : Option Nat :=
  if c.isDigit then some (c.toNat - '0'.toNat)
  else if 'a' ≤ c ∧ c ≤ 'f' then some (c.toNat - 'a'.toNat + 10)
  else if 'A' ≤ c ∧ c ≤ 'F' then some (c.toNat - 'A'.toNat + 10)
  else none

/-- The code point after `#`. Only as many digits are allowed as the largest code point has. -/
def codePoint? : List Char → Option Nat
  | 'x' :: digits => if 6 < digits.length then none else digitsValue? 16 hexDigit? digits
  | digits => if 7 < digits.length then none else digitsValue? 10 decimalDigit? digits

def referenced? : List Char → Option Char
  | '#' :: digits => do
    let code ← codePoint? digits
    if code ≠ 0 ∧ code.isValidChar then return Char.ofNat code else none
  | name =>
    if name = "lt".toList then some '<'
    else if name = "gt".toList then some '>'
    else if name = "amp".toList then some '&'
    else if name = "quot".toList then some '"'
    else if name = "apos".toList then some '\''
    else none

/-- Puts characters in the place of references, each from `&` to the next `;` with no `&` in between. The
second argument holds what has been read of a reference, backwards. -/
def unescapeFrom? : List Char → Option (List Char) → Option (List Char)
  | [], none => some []
  | [], some _ => none
  | '&' :: rest, none => unescapeFrom? rest (some [])
  | c :: rest, none => (unescapeFrom? rest none).map (c :: ·)
  | ';' :: rest, some name => do
    let c ← referenced? name.reverse
    let cs ← unescapeFrom? rest none
    return c :: cs
  | '&' :: _, some _ => none
  | c :: rest, some name => unescapeFrom? rest (some (c :: name))

def unescape? (bytes : List UInt8) : Option String := do
  let text ← Text.Utf8.decode? bytes
  let chars ← unescapeFrom? text.toList none
  return String.ofList chars

/-! Attributes -/

def attribute? (first : UInt8) (bytes : List UInt8) : Option (List UInt8 × List UInt8 × List UInt8) :=
  let inKey (b : UInt8) : Bool := b != 0x3D && !isBlank b
  let key := first :: bytes.takeWhile inKey
  match skipBlanks (bytes.dropWhile inKey) with
  | 0x3D :: rest =>
    match skipBlanks rest with
    | quote :: rest =>
      if (quote = 0x22 ∨ quote = 0x27) ∧ quote ∈ rest then
        some (key, (splitAt quote rest).1, (splitAt quote rest).2)
      else none
    | [] => none
  | _ => none

theorem attribute?_length_lt {first : UInt8} {bytes key value rest : List UInt8}
    (h : attribute? first bytes = some (key, value, rest)) : rest.length < bytes.length := by
  simp only [attribute?] at h
  split at h
  · next r₁ h₁ =>
    split at h
    · next quote r₂ h₂ =>
      split at h
      · simp only [Option.some.injEq, Prod.mk.injEq] at h
        have bound₁ := congrArg List.length h₁
        have bound₂ := congrArg List.length h₂
        have le₁ := length_dropWhile_le isBlank (bytes.dropWhile fun b => b != 0x3D && !isBlank b)
        have le₂ := length_dropWhile_le (fun b => b != 0x3D && !isBlank b) bytes
        have le₃ := length_dropWhile_le isBlank r₁
        have le₄ := splitAt_length_le quote r₂
        simp only [skipBlanks, List.length_cons] at bound₁ bound₂
        rw [← h.2.2]
        omega
      · cases h
    · cases h
  · cases h

/-- Keys and values up to the end of a tag. No key may come up twice. -/
def attributesFrom? (bytes : List UInt8) (seen : List (List UInt8)) : Option (List (String × String)) :=
  match _trimmed : skipBlanks bytes with
  | [] => some []
  | first :: after =>
    match _read : attribute? first after with
    | none => none
    | some (key, value, rest) =>
      if key ∈ seen then none
      else do
        let text ← unescape? value
        let others ← attributesFrom? rest (key :: seen)
        return (localName key, text) :: others
termination_by bytes.length
decreasing_by
  have le := length_dropWhile_le isBlank bytes
  have lt := attribute?_length_lt _read
  have bound := congrArg List.length _trimmed
  simp only [skipBlanks, List.length_cons] at bound
  omega

/-! Tags -/

/-- The inside of an opening tag: it ends at the first `>` outside quotes, or where the text ends. -/
def tagBody (quote : Option UInt8) : List UInt8 → List UInt8 × List UInt8
  | [] => ([], [])
  | b :: rest =>
    match quote with
    | none =>
      if b = gt then ([], rest)
      else
        let more := tagBody (if b = 0x22 ∨ b = 0x27 then some b else none) rest
        (b :: more.1, more.2)
    | some q =>
      let more := tagBody (if b = q then none else some q) rest
      (b :: more.1, more.2)

theorem tagBody_length_le (quote : Option UInt8) (bytes : List UInt8) :
    (tagBody quote bytes).2.length ≤ bytes.length := by
  induction bytes generalizing quote with
  | nil => simp [tagBody]
  | cons b rest ih =>
    simp only [tagBody]
    split
    · split
      · simp
      · exact Nat.le_succ_of_le (ih _)
    · exact Nat.le_succ_of_le (ih _)

def openingTag (body : List UInt8) : Piece :=
  let closed := body.getLast? = some 0x2F
  let body := if closed then body.dropLast else body
  let name := body.takeWhile fun b => !isBlank b
  match attributesFrom? (body.drop name.length) [] with
  | none => .malformed
  | some attributes => .event (if closed then .empty name attributes else .start name attributes)

/-- Blanks may stand between the name and the end of a closing tag, but not instead of the name. -/
def closingName (body : List UInt8) : List UInt8 :=
  match dropTrailing isBlank body with
  | [] => body
  | name => name

def closingTag (body : List UInt8) : Piece := .closing (closingName body)

def instruction (body : List UInt8) : Piece :=
  if 2 ≤ body.length ∧ body.getLast? = some 0x3F then .event .ignored else .malformed

/-! Comments, character data and document types, each from the byte after `!` -/

def upToGt? (stops : List UInt8 → Bool) : List UInt8 → List UInt8 → Option (List UInt8 × List UInt8)
  | _, [] => none
  | before, b :: rest =>
    if b = gt ∧ stops before then some (before.reverse, rest) else upToGt? stops (b :: before) rest

theorem upToGt?_length_lt {stops : List UInt8 → Bool} {before bytes body rest : List UInt8}
    (h : upToGt? stops before bytes = some (body, rest)) : rest.length < bytes.length := by
  induction bytes generalizing before with
  | nil => simp [upToGt?] at h
  | cons b bs ih =>
    simp only [upToGt?] at h
    split at h
    · simp only [Option.some.injEq, Prod.mk.injEq] at h
      simp [h.2]
    · exact Nat.lt_succ_of_lt (ih h)

def endsComment (before : List UInt8) : Bool := 4 ≤ before.length && [0x2D, 0x2D].isPrefixOf before

def endsCharacterData (before : List UInt8) : Bool := [0x5D, 0x5D].isPrefixOf before

def endsDoctype (before : List UInt8) : Bool := before.count lt = before.count gt

def lower (b : UInt8) : UInt8 := if 0x41 ≤ b ∧ b ≤ 0x5A then b + 0x20 else b

/-- Whether `bytes` begin with a word written in lower case, in any case. -/
def startsWith (word : String) (bytes : List UInt8) : Bool :=
  (Text.Utf8.encode word).isPrefixOf (bytes.map lower)

def comment (body : List UInt8) : Piece := if startsWith "--" body then .event .ignored else .malformed

def characterData (body : List UInt8) : Piece :=
  if startsWith "[cdata[" body then .event (.cdata (Text.Utf8.decodeLenient ((body.drop 7).dropLast.dropLast)))
  else .malformed

def doctype (body : List UInt8) : Piece :=
  if startsWith "doctype" body ∧ skipBlanks (body.drop 7) ≠ [] then .event .ignored else .malformed

/-- Where markup after `!` ends and what it is, told by its first byte. -/
def bangKind? : Option UInt8 → Option ((List UInt8 → Bool) × (List UInt8 → Piece))
  | some 0x2D => some (endsComment, comment)
  | some 0x5B => some (endsCharacterData, characterData)
  | some 0x44 | some 0x64 => some (endsDoctype, doctype)
  | _ => none

def bang (bytes : List UInt8) : Piece × List UInt8 :=
  match bangKind? bytes.head? with
  | none => (.malformed, [])
  | some (stops, piece) =>
    match upToGt? stops [] bytes with
    | none => (.malformed, [])
    | some (body, rest) => (piece body, rest)

theorem bang_length_le (bytes : List UInt8) : (bang bytes).2.length ≤ bytes.length := by
  unfold bang
  split
  · simp
  · split
    · simp
    · next h => exact Nat.le_of_lt (upToGt?_length_lt h)

def markup (first : UInt8) (bytes : List UInt8) : Piece × List UInt8 :=
  match first with
  | 0x21 => bang bytes
  | 0x3F => (instruction (splitAt gt bytes).1, (splitAt gt bytes).2)
  | 0x2F => (closingTag (splitAt gt bytes).1, (splitAt gt bytes).2)
  | _ => (openingTag (tagBody none (first :: bytes)).1, (tagBody none (first :: bytes)).2)

theorem markup_length_le (first : UInt8) (bytes : List UInt8) :
    (markup first bytes).2.length ≤ bytes.length + 1 := by
  unfold markup
  split
  · exact Nat.le_succ_of_le (bang_length_le _)
  · exact Nat.le_succ_of_le (splitAt_length_le _ _)
  · exact Nat.le_succ_of_le (splitAt_length_le _ _)
  · exact tagBody_length_le _ _

/-- The text before the next `<`, without the blanks around it, if there is any. -/
def textPiece? (bytes : List UInt8) : Option Piece :=
  match skipBlanks bytes with
  | [] => none
  | b :: rest =>
    if b = lt then none
    else
      match unescape? (dropTrailing isBlank (splitAt lt (b :: rest)).1) with
      | some text => some (.event (.text text))
      | none => some .malformed

def pieces (bytes : List UInt8) : List Piece :=
  let text := (textPiece? bytes).toList
  match _split : (splitAt lt bytes).2 with
  | [] => text
  | first :: rest =>
    let piece := markup first rest
    text ++ piece.1 :: pieces piece.2
termination_by bytes.length
decreasing_by
  have le := markup_length_le first rest
  have bound := congrArg List.length _split
  have total : (splitAt lt bytes).2.length < bytes.length := by
    simp only [splitAt, List.length_drop] at bound ⊢
    have := length_dropWhile_le (· != lt) bytes
    simp only [List.length_cons] at bound
    omega
  simp only [List.length_cons] at bound
  omega

/-- A mark at the very beginning that tells the encoding is passed over. -/
def piecesOfBytes : List UInt8 → List Piece
  | 0xEF :: 0xBB :: 0xBF :: rest => pieces rest
  | bytes => pieces bytes

/-- The events inside the elements `names`, innermost first. A closing tag has to have the name of the innermost. -/
def matching : List (List UInt8) → List Piece → List Event
  | _, [] => []
  | names, .event (.start name attributes) :: rest => .start name attributes :: matching (name :: names) rest
  | names, .event event :: rest => event :: matching names rest
  | [], .closing _ :: _ => [.malformed unspecified]
  | innermost :: names, .closing name :: rest =>
    if name = innermost then .finish :: matching names rest else [.malformed unspecified]

def eventsOfBytes (bytes : List UInt8) : List Event := matching [] (piecesOfBytes bytes)

end HookScript.Xml
