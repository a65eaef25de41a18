import HookScript.Document.Basic
import HookScript.Text.Utf8

/-!
The JSON reader of the command. Reading is strict: nothing may follow the value, nesting is limited, and a number has
to be within the range of a float. Of members with the same name the last one counts. A number is made of the leading
digits that fit into a word, multiplied or divided by a power of ten, so it may be off by a unit in the last place.
-/

namespace HookScript.Json

def isBlank (c : Char) : Bool := c = ' ' || c = '\t' || c = '\n' || c = '\r'

def skipBlanks (text : List Char) : List Char := text.dropWhile isBlank

def digitValue (c : Char) : Nat := c.toNat - '0'.toNat

def hexValue? (c : Char) : Option Nat :=
  if c.isDigit then some (digitValue c)
  else if 'a' ≤ c ∧ c ≤ 'f' then some (c.toNat - 'a'.toNat + 10)
  else if 'A' ≤ c ∧ c ≤ 'F' then some (c.toNat - 'A'.toNat + 10)
  else none

def hexUnit? : List Char → Option (Nat × List Char)
  | a :: b :: c :: d :: rest => do
    let a ← hexValue? a
    let b ← hexValue? b
    let c ← hexValue? c
    let d ← hexValue? d
    return (((a * 16 + b) * 16 + c) * 16 + d, rest)
  | _ => none

/-- The character after `\u`. A high surrogate needs a low one right after it; no other surrogate may stand. -/
def unicodeEscape? (text : List Char) : Option (Char × List Char) := do
  let (high, rest) ← hexUnit? text
  if high < 0xD800 ∨ 0xDFFF < high then return (Char.ofNat high, rest)
  else if 0xDC00 ≤ high then none
  else
    match rest with
    | '\\' :: 'u' :: rest =>
      let (low, rest) ← hexUnit? rest
      if 0xDC00 ≤ low ∧ low ≤ 0xDFFF then
        return (Char.ofNat (0x10000 + (high - 0xD800) * 0x400 + (low - 0xDC00)), rest)
      else none
    | _ => none

def escape? : List Char → Option (Char × List Char)
  | '"' :: rest => some ('"', rest)
  | '\\' :: rest => some ('\\', rest)
  | '/' :: rest => some ('/', rest)
  | 'b' :: rest => some ('\x08', rest)
  | 'f' :: rest => some ('\x0c', rest)
  | 'n' :: rest => some ('\n', rest)
  | 'r' :: rest => some ('\r', rest)
  | 't' :: rest => some ('\t', rest)
  | 'u' :: rest => unicodeEscape? rest
  | _ => none

def string? : Nat → List Char → Option (List Char × List Char)
  | 0, _ => none
  | fuel + 1, text =>
    match text with
    | [] => none
    | '"' :: rest => some ([], rest)
    | '\\' :: rest => do
      let (c, rest) ← escape? rest
      let (cs, rest) ← string? fuel rest
      return (c :: cs, rest)
    | c :: rest =>
      if c < ' ' then none
      else do
        let (cs, rest) ← string? fuel rest
        return (c :: cs, rest)

def natValue (digits : List Char) : Nat := digits.foldl (fun n c => n * 10 + digitValue c) 0

/-- Takes digits as long as the number that they write fits into a word; the digits behind them are left. -/
def leading : Nat → List Char → Nat × List Char
  | n, [] => (n, [])
  | n, c :: rest => if n * 10 + digitValue c < 2 ^ 64 then leading (n * 10 + digitValue c) rest else (n, c :: rest)

def powerOfTen (n : Nat) : Float := Float.ofScientific 1 false n

/-- Goes down in steps of the largest power of ten that a float has. -/
def scale? (x : Float) (exponent : Int) : Option Float :=
  if exponent.natAbs ≤ 308 then
    if exponent < 0 then some (x / powerOfTen exponent.natAbs)
    else
      let y := x * powerOfTen exponent.natAbs
      if y.isInf then none else some y
  else if x == 0 then some x
  else if exponent < 0 then scale? (x / powerOfTen 308) (exponent + 308)
  else none
termination_by exponent.natAbs
decreasing_by omega

def floatOf? (whole fraction : List Char) (power : Int) : Option Float :=
  let (n, wholeRest) := leading 0 whole
  let (n, fractionRest) := leading n fraction
  scale? (.ofNat n) (power + wholeRest.length - (fraction.length - fractionRest.length))

def fraction? : List Char → Option (List Char × List Char)
  | '.' :: rest =>
    let digits := rest.takeWhile Char.isDigit
    if digits = [] then none else some (digits, rest.dropWhile Char.isDigit)
  | text => some ([], text)

def exponentDigits? (text : List Char) : Option (Nat × List Char) :=
  let digits := text.takeWhile Char.isDigit
  if digits = [] then none else some (natValue digits, text.dropWhile Char.isDigit)

/-- The power of ten after the digits, zero if there is none. -/
def exponent? : List Char → Option (Int × List Char)
  | [] => some (0, [])
  | e :: rest =>
    if e = 'e' ∨ e = 'E' then
      match rest with
      | '-' :: rest => (exponentDigits? rest).map fun (n, rest) => (-(n : Int), rest)
      | '+' :: rest => (exponentDigits? rest).map fun (n, rest) => ((n : Int), rest)
      | rest => (exponentDigits? rest).map fun (n, rest) => ((n : Int), rest)
    else some (0, e :: rest)

/-- A number without its sign. A zero in front stands alone. -/
def unsigned? (text : List Char) : Option (Float × List Char) := do
  let whole := text.takeWhile Char.isDigit
  if whole = [] ∨ (whole.head? = some '0' ∧ 1 < whole.length) then none
  else
    let (fraction, rest) ← fraction? (text.dropWhile Char.isDigit)
    let (power, rest) ← exponent? rest
    let x ← floatOf? whole fraction power
    return (x, rest)

def number? : List Char → Option (Float × List Char)
  | '-' :: rest => (unsigned? rest).map fun (x, rest) => (-x, rest)
  | text => unsigned? text

def literal? (word : List Char) (document : Document) (text : List Char) :
    Option (Document × List Char) :=
  if word.isPrefixOf text then some (document, text.drop word.length) else none

mutual

/-- A value that begins right here, with at most `depth` more lists and objects inside one another. -/
def value? : Nat → Nat → List Char → Option (Document × List Char)
  | 0, _, _ => none
  | fuel + 1, depth, text =>
    match text with
    | 'n' :: _ => literal? "null".toList .nil text
    | 't' :: _ => literal? "true".toList (.boolean true) text
    | 'f' :: _ => literal? "false".toList (.boolean false) text
    | '"' :: rest => (string? (rest.length + 1) rest).map fun (cs, rest) => (.string (.ofList cs), rest)
    | '[' :: rest =>
      match depth with
      | 0 => none
      | depth + 1 =>
        match skipBlanks rest with
        | ']' :: rest => some (.list [], rest)
        | rest => (items? fuel depth rest).map fun (items, rest) => (.list items, rest)
    | '\x7b' :: rest =>
      match depth with
      | 0 => none
      | depth + 1 =>
        match skipBlanks rest with
        | '\x7d' :: rest => some (.object [], rest)
        | rest => (members? fuel depth rest).map fun (members, rest) =>
          (.object (Table.ofList members).entries, rest)
    | _ => (number? text).map fun (x, rest) => (.number x, rest)

def items? : Nat → Nat → List Char → Option (List Document × List Char)
  | 0, _, _ => none
  | fuel + 1, depth, text => do
    let (first, rest) ← value? fuel depth text
    match skipBlanks rest with
    | ']' :: rest => return ([first], rest)
    | ',' :: rest =>
      let (others, rest) ← items? fuel depth (skipBlanks rest)
      return (first :: others, rest)
    | _ => none

def members? : Nat → Nat → List Char → Option (List (String × Document) × List Char)
  | 0, _, _ => none
  | fuel + 1, depth, text => do
    match text with
    | '"' :: rest =>
      let (key, rest) ← string? (rest.length + 1) rest
      match skipBlanks rest with
      | ':' :: rest =>
        let (first, rest) ← value? fuel depth (skipBlanks rest)
        match skipBlanks rest with
        | '\x7d' :: rest => return ([(.ofList key, first)], rest)
        | ',' :: rest =>
          let (others, rest) ← members? fuel depth (skipBlanks rest)
          return ((.ofList key, first) :: others, rest)
        | _ => none
      | _ => none
    | _ => none

end

def maxDepth : Nat := 127

def ofText? (text : String) : Option Document := do
  let chars := text.toList
  let (document, rest) ← value? (2 * chars.length + 2) maxDepth (skipBlanks chars)
  if skipBlanks rest = [] then return document else none

def ofBytes? (bytes : List UInt8) : Option Document := do
  ofText? (← Text.Utf8.decode? bytes)

end HookScript.Json
