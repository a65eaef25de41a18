import HookScript.Number.Shortest

/-!
Numerals. Scripts show a number by its shortest digits and never with an exponent. Listings of a program
keep a point in every number and turn to an exponent for the very small and the very large.
-/

namespace HookScript.Number

structure Layout where
  /-- The least and the greatest place of the point that are written without an exponent, if limited. -/
  positional : Option (Int × Int)
  /-- Whether a whole number written without an exponent shows a point and a zero. -/
  pointed : Bool

/-- Never an exponent, and a whole number has no point. -/
def Layout.plain : Layout := ⟨none, false⟩

/-- Numbers from `1e-4` to below `1e16` are written without an exponent. -/
def Layout.listing : Layout := ⟨some (-3, 16), true⟩

def zeros (n : Nat) : String := String.ofList (List.replicate n '0')

def Layout.withPoint (layout : Layout) (digits : String) (place : Int) : String :=
  if place ≤ 0 then "0." ++ zeros (-place).toNat ++ digits
  else if place.toNat < digits.length then
    String.ofList (digits.toList.take place.toNat) ++ "." ++ String.ofList (digits.toList.drop place.toNat)
  else digits ++ zeros (place.toNat - digits.length) ++ (if layout.pointed then ".0" else "")

def withExponent (digits : String) (place : Int) : String :=
  let fraction := String.ofList (digits.toList.drop 1)
  String.ofList (digits.toList.take 1) ++ (if fraction = "" then "" else "." ++ fraction) ++ "e"
    ++ toString (place - 1)

def Layout.ofDecimal (layout : Layout) (d : Decimal) : String :=
  let digits := toString d.coefficient
  let place := d.exponent + digits.length
  match layout.positional with
  | none => layout.withPoint digits place
  | some (least, greatest) =>
    if least ≤ place ∧ place ≤ greatest then layout.withPoint digits place else withExponent digits place

def signed (negative : Bool) (text : String) : String := if negative then "-" ++ text else text

def Layout.text (layout : Layout) (x : Float) : String :=
  match Binary.ofFloat x with
  | .nan => "NaN"
  | .infinite negative => signed negative "inf"
  | .finite negative 0 _ => signed negative (if layout.pointed then "0.0" else "0")
  | .finite negative significand exponent =>
    signed negative (layout.ofDecimal (shortest significand exponent))

def text (x : Float) : String := Layout.plain.text x

def listing (x : Float) : String := Layout.listing.text x

end HookScript.Number
