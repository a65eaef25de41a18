import HookScript.Number.Binary

/-!
The shortest decimal that reads back as a given binary number. The numbers that round to `m * 2 ^ q` form an
interval; on the grids of one, two, … seventeen leading digits, the first that has a neighbour of the number
inside the interval supplies the digits. Of two such neighbours the nearer one wins, and the upper one when
both are equally near.
-/

namespace HookScript.Number

structure Decimal where
  coefficient : Nat
  exponent : Int
  deriving DecidableEq, Repr

structure Interval where
  low : Nat
  value : Nat
  high : Nat
  denominator : Nat
  closed : Bool

namespace Interval

/-- The bounds lie half way to the neighbours. Below a power of two the neighbour is half as far, unless the
exponent is the least there is. An even significand takes the bounds in. -/
def ofBinary (significand : Nat) (exponent : Int) : Interval :=
  let narrow := significand = powerOfTwo Binary.fractionBits ∧ exponent ≠ Binary.leastExponent
  let unit := powerOfTwo (exponent - 2).toNat
  ⟨(4 * significand - if narrow then 1 else 2) * unit, 4 * significand * unit,
    (4 * significand + 2) * unit, powerOfTwo (2 - exponent).toNat, significand % 2 = 0⟩

def scale (i : Interval) (k : Int) : Interval :=
  let up := powerOfTen (-k).toNat
  ⟨i.low * up, i.value * up, i.high * up, i.denominator * powerOfTen k.toNat, i.closed⟩

def holds (i : Interval) (n : Nat) : Bool :=
  let x := n * i.denominator
  if i.closed then i.low ≤ x && x ≤ i.high else i.low < x && x < i.high

/-- The whole number nearest to the value among its two neighbours inside the interval. -/
def neighbour? (i : Interval) : Option Nat :=
  let below := i.value / i.denominator
  let above := below + 1
  match i.holds below, i.holds above with
  | true, true =>
    if above * i.denominator - i.value ≤ i.value - below * i.denominator then some above else some below
  | true, false => some below
  | false, true => some above
  | false, false => none

end Interval

def decimalLength (n : Nat) : Nat := (Nat.toDigits 10 n).length

/-- The place of the point: the least `p` with `num / den < 10 ^ p`, unless the quotient is a negative power
of ten. -/
def pointPlace (num den : Nat) : Int :=
  if den ≤ num then decimalLength (num / den) else 1 - (decimalLength (den / num) : Int)

def Decimal.strip (d : Decimal) : Decimal :=
  if h : d.coefficient ≠ 0 ∧ d.coefficient % 10 = 0 then
    strip ⟨d.coefficient / 10, d.exponent + 1⟩
  else d
termination_by d.coefficient
decreasing_by omega

def maxDigits : Nat := 17

/-- The shortest decimal for a positive number `significand * 2 ^ exponent`. -/
def shortest (significand : Nat) (exponent : Int) : Decimal :=
  let i := Interval.ofBinary significand exponent
  let place := pointPlace i.value i.denominator
  let found := (List.range maxDigits).findSome? fun n =>
    let k := place - (n + 1 : Nat)
    (i.scale k).neighbour?.map fun c => (⟨c, k⟩ : Decimal)
  (found.getD ⟨i.value, 0⟩).strip

end HookScript.Number
