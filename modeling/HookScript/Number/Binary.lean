/-!
What the bits of a floating-point number say: a sign, and a significand times a power of two. All of it is
exact, so digits and comparisons can be worked out in whole numbers.
-/

namespace HookScript.Number

def powerOfTwo (n : Nat) : Nat := Nat.pow 2 n

def powerOfTen (n : Nat) : Nat := Nat.pow 10 n

inductive Binary where
  | nan
  | infinite (negative : Bool)
  | finite (negative : Bool) (significand : Nat) (exponent : Int)
  deriving DecidableEq, Repr

namespace Binary

def fractionBits : Nat := 52

def exponentBits : Nat := 11

def leastExponent : Int := -1074

/-- A biased exponent of zero drops the hidden bit; the largest one is kept for what is not finite. -/
def ofBits (bits : Nat) : Binary :=
  let negative := bits / powerOfTwo (fractionBits + exponentBits) % 2 = 1
  let biased := bits / powerOfTwo fractionBits % powerOfTwo exponentBits
  let fraction := bits % powerOfTwo fractionBits
  if biased = powerOfTwo exponentBits - 1 then
    if fraction = 0 then .infinite negative else .nan
  else if biased = 0 then .finite negative fraction leastExponent
  else .finite negative (powerOfTwo fractionBits + fraction) (leastExponent + (biased - 1 : Nat))

def ofFloat (x : Float) : Binary := ofBits x.toBits.toNat

end Binary

end HookScript.Number
