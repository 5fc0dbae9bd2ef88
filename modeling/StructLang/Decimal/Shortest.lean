namespace StructLang.Decimal

/-- The positive rational `value / unit` with the ends `low / unit` and `high / unit` of an interval
around it; `closed` says whether the ends belong to the interval. -/
structure Interval where
  low : Nat
  value : Nat
  high : Nat
  unit : Nat
  closed : Bool

structure Scientific where
  digits : Nat
  exponent : Int
  deriving DecidableEq, Repr

namespace Interval

def shift (i : Interval) : Int → Interval
  | .ofNat n =>
    ⟨i.low * Nat.pow 10 n, i.value * Nat.pow 10 n, i.high * Nat.pow 10 n, i.unit, i.closed⟩
  | .negSucc n => ⟨i.low, i.value, i.high, i.unit * Nat.pow 10 (n + 1), i.closed⟩

def contains (i : Interval) (n : Nat) : Bool :=
  if i.closed then i.low ≤ n * i.unit && n * i.unit ≤ i.high
  else i.low < n * i.unit && n * i.unit < i.high

def integer? (i : Interval) : Option Nat :=
  let below := i.value / i.unit
  let above := below + 1
  match i.contains below, i.contains above with
  | true, true =>
    if i.value - below * i.unit < above * i.unit - i.value then some below else some above
  | true, false => some below
  | false, true => some above
  | false, false => none

/-- The power of ten just above the value: `10 ^ (p - 1) ≤ value / unit < 10 ^ p`. -/
def magnitude (i : Interval) : Int :=
  if i.unit ≤ i.value then ((Nat.toDigits 10 (i.value / i.unit)).length : Int)
  else 1 - ((Nat.toDigits 10 ((i.unit + i.value - 1) / i.value - 1)).length : Int)

def shortestFrom (i : Interval) (magnitude : Int) : Nat → Nat → Scientific
  | 0, count => ⟨(i.shift (count - magnitude)).value / (i.shift (count - magnitude)).unit, magnitude - count⟩
  | tries + 1, count =>
    match (i.shift (count - magnitude)).integer? with
    | some digits => ⟨digits, magnitude - count⟩
    | none => shortestFrom i magnitude tries (count + 1)

/-- Seventeen digits tell any two binary64 numbers apart. -/
def shortest (i : Interval) : Scientific := shortestFrom i i.magnitude 17 1

end Interval

structure Style where
  least : Int
  most : Int

def dropZeros (digits : List Char) : List Char := (digits.reverse.dropWhile (· == '0')).reverse

def positional (digits : List Char) : Int → List Char
  | .negSucc n => '0' :: '.' :: (List.replicate (n + 1) '0' ++ digits)
  | .ofNat 0 => '0' :: '.' :: digits
  | .ofNat n =>
    if digits.length ≤ n then digits ++ List.replicate (n - digits.length) '0' ++ ['.', '0']
    else digits.take n ++ '.' :: digits.drop n

def exponential (digits : List Char) (exponent : Int) : List Char :=
  let fraction := if digits.length ≤ 1 then digits else digits.take 1 ++ '.' :: digits.drop 1
  fraction ++ 'e' :: (toString exponent).toList

/-- A whole number keeps `.0` in positional form and has no point in exponential form. -/
def Scientific.render (style : Style) (number : Scientific) : String :=
  let all := Nat.toDigits 10 number.digits
  let exponent := number.exponent + all.length - 1
  let digits := dropZeros all
  if style.least ≤ exponent && exponent ≤ style.most then
    String.ofList (positional digits (exponent + 1))
  else
    String.ofList (exponential digits exponent)

end StructLang.Decimal
