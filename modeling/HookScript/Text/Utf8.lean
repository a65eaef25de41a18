/-!
UTF-8. One step of decoding takes a character, or one maximal ill-formed subpart, off the front of a
byte sequence. Strict reading refuses an ill-formed subpart; lenient reading writes U+FFFD in its place.
-/

namespace HookScript.Text.Utf8

structure Lead where
  bits : Nat
  following : Nat
  low : UInt8
  high : UInt8

/-- The narrowed ranges after E0, ED, F0 and F4 keep out overlong forms, surrogates and code points
above 10FFFF. -/
def Lead.ofByte? (b : UInt8) : Option Lead :=
  if b < 0x80 then some ⟨b.toNat, 0, 0x80, 0xBF⟩
  else if b < 0xC2 then none
  else if b < 0xE0 then some ⟨b.toNat - 0xC0, 1, 0x80, 0xBF⟩
  else if b = 0xE0 then some ⟨0x0, 2, 0xA0, 0xBF⟩
  else if b = 0xED then some ⟨0xD, 2, 0x80, 0x9F⟩
  else if b < 0xF0 then some ⟨b.toNat - 0xE0, 2, 0x80, 0xBF⟩
  else if b = 0xF0 then some ⟨0x0, 3, 0x90, 0xBF⟩
  else if b < 0xF4 then some ⟨b.toNat - 0xF0, 3, 0x80, 0xBF⟩
  else if b = 0xF4 then some ⟨0x4, 3, 0x80, 0x8F⟩
  else none

/-- Reads the bytes after a lead byte. An ill-formed subpart ends before the first byte out of range. -/
def finish : Nat → UInt8 → UInt8 → Nat → List UInt8 → Option Char × List UInt8
  | 0, _, _, code, rest => (some (Char.ofNat code), rest)
  | _ + 1, _, _, _, [] => (none, [])
  | n + 1, low, high, code, b :: rest =>
    if low ≤ b ∧ b ≤ high then finish n 0x80 0xBF (code * 64 + (b.toNat - 0x80)) rest
    else (none, b :: rest)

theorem finish_length_le (n : Nat) (low high : UInt8) (code : Nat) (bytes : List UInt8) :
    (finish n low high code bytes).2.length ≤ bytes.length := by
  induction n generalizing low high code bytes with
  | zero => simp [finish]
  | succ n ih =>
    cases bytes with
    | nil => simp [finish]
    | cons b rest =>
      simp only [finish]
      split
      · exact Nat.le_succ_of_le (ih _ _ _ _)
      · simp

/-- The character at the front and what follows it, or nothing and what follows the ill-formed subpart. -/
def step (b : UInt8) (rest : List UInt8) : Option Char × List UInt8 :=
  match Lead.ofByte? b with
  | none => (none, rest)
  | some lead => finish lead.following lead.low lead.high lead.bits rest

theorem step_length_le (b : UInt8) (rest : List UInt8) : (step b rest).2.length ≤ rest.length := by
  unfold step
  split
  · simp
  · exact finish_length_le _ _ _ _ _

def scalars : List UInt8 → List (Option Char)
  | [] => []
  | b :: rest =>
    let front := step b rest
    front.1 :: scalars front.2
termination_by bytes => bytes.length
decreasing_by exact Nat.lt_succ_of_le (step_length_le b rest)

/-- U+FFFD stands for each ill-formed subpart. -/
def decodeLenient (bytes : List UInt8) : String :=
  String.ofList ((scalars bytes).map (·.getD '\uFFFD'))

/-- The text that `bytes` encode, if they are well formed throughout. -/
def decode? (bytes : List UInt8) : Option String :=
  ((scalars bytes).mapM id).map String.ofList

def encode (text : String) : List UInt8 :=
  text.toList.flatMap String.utf8EncodeChar

end HookScript.Text.Utf8
