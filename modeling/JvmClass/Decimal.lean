/-!
# Shortest decimals of binary floating-point numbers

A finite float is `m · 2^q`. Its shortest decimal has the fewest digits among the decimals that lie
in the interval of reals rounding to the float (ends included exactly when `m` is even); among those
with that many digits it is the nearest to the float, and the upper one of two that are equally
near.
-/

namespace JvmClass.Decimal

/-- Layout of a binary interchange format. -/
structure Format where
  /-- Stored bits of the significand. -/
  fractionBits : Nat
  exponentBits : Nat

def single : Format := ⟨23, 8⟩

def double : Format := ⟨52, 11⟩

/-- The digits of a decimal and the position of its point: the value is `0.d₁d₂… · 10 ^ point`. -/
structure Digits where
  digits : List Char
  point : Int

/-- A positive number `significand · 2 ^ exponent`, and whether the float below it is only half as
far away as the one above. -/
structure Positive where
  significand : Nat
  exponent : Int
  narrowBelow : Bool

/-- What the bits of a float stand for, sign apart. -/
inductive Magnitude where
  | zero
  | infinite
  | notANumber
  | positive (value : Positive)

/-- Reads the bits of a float. -/
def Format.magnitude (f : Format) (bits : Nat) : Magnitude :=
  let fraction := bits % Nat.pow 2 f.fractionBits
  let exponent := bits / Nat.pow 2 f.fractionBits % Nat.pow 2 f.exponentBits
  let bias : Int := (Nat.pow 2 (f.exponentBits - 1) : Int) - 1 + f.fractionBits
  if exponent = Nat.pow 2 f.exponentBits - 1 then
    if fraction = 0 then .infinite else .notANumber
  else if exponent = 0 then
    if fraction = 0 then .zero else .positive ⟨fraction, 1 - bias, false⟩
  else
    .positive
      ⟨Nat.pow 2 f.fractionBits + fraction, exponent - bias, fraction = 0 && exponent != 1⟩

/-- Whether the sign bit is set. -/
def Format.isNegative (f : Format) (bits : Nat) : Bool :=
  bits / Nat.pow 2 (f.fractionBits + f.exponentBits) % 2 = 1

/-- The power of ten above `num / den`: the least `e` with `num / den < 10 ^ e`. -/
def pointOf (num den : Nat) : Int :=
  if den ≤ num then ((toString (num / den)).length : Int)
  else 1 - ((toString ((den + num - 1) / num - 1)).length : Int)

/-- `numerator / denominator` of a power of ten. -/
def powerOfTen (e : Int) : Nat × Nat :=
  if 0 ≤ e then (Nat.pow 10 e.toNat, 1) else (1, Nat.pow 10 (-e).toNat)

/-- The interval of reals that round to a float, as numerators over one denominator. -/
structure Interval where
  low : Nat
  value : Nat
  high : Nat
  den : Nat
  closed : Bool

def Positive.interval (p : Positive) : Interval :=
  let low := 4 * p.significand - if p.narrowBelow then 1 else 2
  let (scale, den) :=
    if 0 ≤ p.exponent then (Nat.pow 2 p.exponent.toNat, 4)
    else (1, 4 * Nat.pow 2 (-p.exponent).toNat)
  { low := low * scale
    value := 4 * p.significand * scale
    high := (4 * p.significand + 2) * scale
    den
    closed := p.significand % 2 = 0 }

/-- Whether `n · 10 ^ e` lies in the interval. -/
def Interval.holds (i : Interval) (n : Nat) (e : Int) : Bool :=
  let (up, down) := powerOfTen e
  let x := n * up * i.den
  if i.closed then i.low * down ≤ x && x ≤ i.high * down
  else i.low * down < x && x < i.high * down

/-- The decimal `n · 10 ^ e` in the interval that is nearest to its float, if one of the two
neighbours of the float on that grid is in it. -/
def Interval.nearest? (i : Interval) (e : Int) : Option Nat :=
  let (up, down) := powerOfTen e
  let below := i.value * down / (i.den * up)
  match i.holds below e && below != 0, i.holds (below + 1) e with
  | false, false => none
  | true, false => some below
  | false, true => some (below + 1)
  | true, true =>
    if 2 * (i.value * down - below * (i.den * up)) < i.den * up then some below
    else some (below + 1)

/-- The shortest decimal with at least `count` digits, `more` giving how many longer ones to try. -/
def Interval.shortestFrom (i : Interval) (point : Int) : (count more : Nat) → Digits
  | _, 0 => ⟨[], point⟩
  | count, more + 1 =>
    match i.nearest? (point - count) with
    | some n =>
      let digits := toString n
      -- Rounding up to the next power of ten gives one digit more than the grid has.
      let point := point + (digits.length - count : Int)
      ⟨(digits.toList.reverse.dropWhile (· = '0')).reverse, point⟩
    | none => i.shortestFrom point (count + 1) more

/-- The shortest decimal of a positive float; seventeen digits tell all doubles apart. -/
def Positive.shortest (p : Positive) : Digits :=
  let i := p.interval
  i.shortestFrom (pointOf i.value i.den) 1 17

/-- How numbers are written. -/
structure Style where
  /-- The least power of ten above a number that is written with an exponent. -/
  longFrom : Int
  /-- A number below `10 ^ shortBelow` is written with an exponent. -/
  shortBelow : Int
  infinity : String
  notANumber : String

/-- Plain decimals always show a point, and exponents are used from `10 ^ 16` on and below
`10 ^ -4`. -/
def plain : Style := ⟨17, -3, "inf", "NaN"⟩

/-- Writes digits with their point in place, with at least one digit on either side. -/
def Digits.positional (d : Digits) : String :=
  let count := d.digits.length
  if d.point ≤ 0 then
    "0." ++ String.ofList (List.replicate (-d.point).toNat '0' ++ d.digits)
  else if (count : Int) ≤ d.point then
    String.ofList (d.digits ++ List.replicate (d.point.toNat - count) '0') ++ ".0"
  else
    String.ofList (d.digits.take d.point.toNat) ++ "." ++
      String.ofList (d.digits.drop d.point.toNat)

/-- Writes digits with one of them before the point and an exponent. -/
def Digits.scientific (d : Digits) : String :=
  match d.digits with
  | [] => "0.0"
  | first :: [] => s!"{first}e{d.point - 1}"
  | first :: rest => s!"{first}.{String.ofList rest}e{d.point - 1}"

/-- The text of a float given by its bits. -/
def Format.text (f : Format) (style : Style) (bits : Nat) : String :=
  let sign := if f.isNegative bits then "-" else ""
  match f.magnitude bits with
  | .notANumber => style.notANumber
  | .infinite => sign ++ style.infinity
  | .zero => sign ++ "0.0"
  | .positive p =>
    let d := p.shortest
    sign ++ if style.longFrom ≤ d.point || d.point < style.shortBelow then d.scientific
      else d.positional

end JvmClass.Decimal
