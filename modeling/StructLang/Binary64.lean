import StructLang.Decimal.Shortest

namespace StructLang

structure Binary64 where
  bits : UInt64
  deriving DecidableEq, Repr, Inhabited

namespace Binary64

def negative (x : Binary64) : Bool := x.bits >>> 63 == 1

def exponent (x : Binary64) : Nat := ((x.bits >>> 52) &&& 0x7ff).toNat

def fraction (x : Binary64) : Nat := (x.bits &&& 0xfffffffffffff).toNat

def isNaN (x : Binary64) : Bool := x.exponent == 0x7ff && x.fraction != 0

def isInfinite (x : Binary64) : Bool := x.exponent == 0x7ff && x.fraction == 0

def isZero (x : Binary64) : Bool := x.exponent == 0 && x.fraction == 0

def toFloat (x : Binary64) : Float := Float.ofBits x.bits

def roundQuotient (a b : Nat) : Nat :=
  let below := a / b
  let rest := 2 * (a % b)
  if rest < b ∨ rest = b ∧ below % 2 = 0 then below else below + 1

def infinity : Nat := 0x7ff0000000000000

/-- The positive number nearest to `a / b`; a number too large is infinite. Numbers are counted in
units of `2 ^ -1074`, the least of them, and `power` leaves fifty-three bits of that count. -/
def ofQuotient (a b : Nat) : Binary64 :=
  let units := a <<< 1074
  let power := (units / b).log2 - 52
  ⟨UInt64.ofNat (min infinity ((power <<< 52) + roundQuotient units (b <<< power)))⟩

def ofDecimal (digits places : Nat) : Binary64 := ofQuotient digits (Nat.pow 10 places)

/-- The reals that round to the absolute value of a finite number other than zero. They lie within
half a step of it, and below a power of two a step is half as long. -/
def interval (x : Binary64) : Decimal.Interval :=
  let significand := if x.exponent = 0 then x.fraction else x.fraction + 0x10000000000000
  let power := max x.exponent 1
  let low := if x.fraction = 0 ∧ 1 < x.exponent then 4 * significand - 1 else 4 * significand - 2
  let scale := power - 1077
  ⟨low <<< scale, (4 * significand) <<< scale, (4 * significand + 2) <<< scale, 1 <<< (1077 - power),
    significand % 2 == 0⟩

def style : Decimal.Style := ⟨-4, 15⟩

def render (x : Binary64) : String :=
  if x.isNaN then "NaN"
  else
    let sign := if x.negative then "-" else ""
    if x.isInfinite then sign ++ "inf"
    else if x.isZero then sign ++ "0.0"
    else sign ++ x.interval.shortest.render style

end Binary64

end StructLang
