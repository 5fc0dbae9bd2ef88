import StructLang.Ir.Basic

namespace StructLang.Machine

inductive Scalar
  | i8 | i16 | i32 | i64 | f32 | f64
  deriving DecidableEq, Repr, Inhabited

abbrev Word := UInt64

inductive Trap
  | divisionByZero
  | divisionOverflow
  | badAddress
  | unreachable
  | foreignCall (name : String)
  deriving DecidableEq, Repr

namespace Scalar

def bytes : Scalar → Nat
  | .i8 => 1
  | .i16 => 2
  | .i32 | .f32 => 4
  | .i64 | .f64 => 8

def isInt : Scalar → Bool
  | .i8 | .i16 | .i32 | .i64 => true
  | .f32 | .f64 => false

def isAddress : Scalar → Bool
  | .i32 | .i64 => true
  | .i8 | .i16 | .f32 | .f64 => false

def mask : Scalar → Word
  | .i8 => 0xff
  | .i16 => 0xffff
  | .i32 | .f32 => 0xffffffff
  | .i64 | .f64 => 0xffffffffffffffff

def truncate (s : Scalar) (w : Word) : Word := w &&& s.mask

def signed (s : Scalar) (w : Word) : Int64 :=
  match s with
  | .i8 => w.toUInt8.toInt8.toInt64
  | .i16 => w.toUInt16.toInt16.toInt64
  | .i32 | .f32 => w.toUInt32.toInt32.toInt64
  | .i64 | .f64 => w.toInt64

def least : Scalar → Int64
  | .i8 => -0x80
  | .i16 => -0x8000
  | .i32 | .f32 => -0x80000000
  | .i64 | .f64 => -0x8000000000000000

def divide (s : Scalar) (a b : Word) : Except Trap Word :=
  if s.truncate b = 0 then .error .divisionByZero
  else if s.signed a = s.least ∧ s.signed b = -1 then .error .divisionOverflow
  else .ok (s.truncate (s.signed a / s.signed b).toUInt64)

end Scalar

def ofBool (b : Bool) : Word := if b then 1 else 0

def isNaN64 (w : Word) : Bool := (Binary64.mk w).isNaN

def isNaN32 (w : Word) : Bool := ((w >>> 23) &&& 0xff) == 0xff && (w &&& 0x7fffff) != 0

def float64 (f : Float → Float → Float) (a b : Word) : Word :=
  if isNaN64 a then a ||| 0x8000000000000
  else if isNaN64 b then b ||| 0x8000000000000
  else
    let result := (f (Float.ofBits a) (Float.ofBits b)).toBits
    if isNaN64 result then 0xfff8000000000000 else result

def float32 (f : Float32 → Float32 → Float32) (a b : Word) : Word :=
  if isNaN32 a then a ||| 0x400000
  else if isNaN32 b then b ||| 0x400000
  else
    let result := (f (Float32.ofBits a.toUInt32) (Float32.ofBits b.toUInt32)).toBits.toUInt64
    if isNaN32 result then 0xffc00000 else result

def floatOp (s : Scalar) (f : Float → Float → Float) (g : Float32 → Float32 → Float32) (a b : Word) :
    Word :=
  if s = .f32 then float32 g a b else float64 f a b

/-- A number rounded to binary32; of what is not a number the sign and the leading bits are kept. -/
def narrow (x : Binary64) : Word :=
  if x.isNaN then
    let sign : Word := (x.bits >>> 32) &&& 0x80000000
    let payload : Word := (x.bits >>> 29) &&& 0x7fffff
    sign ||| 0x7fc00000 ||| payload
  else x.toFloat.toFloat32.toBits.toUInt64

def evalBinary (op : Ir.BinOp) (s : Scalar) (a b : Word) : Except Trap Word :=
  match op with
  | .add => .ok (s.truncate (a + b))
  | .sub => .ok (s.truncate (a - b))
  | .mul => .ok (s.truncate (a * b))
  | .sdiv => s.divide a b
  | .fadd => .ok (floatOp s (· + ·) (· + ·) a b)
  | .fsub => .ok (floatOp s (· - ·) (· - ·) a b)
  | .fmul => .ok (floatOp s (· * ·) (· * ·) a b)
  | .fdiv => .ok (floatOp s (· / ·) (· / ·) a b)

def evalNeg (s : Scalar) (a : Word) : Word := s.truncate (0 - a)

def evalFneg (s : Scalar) (a : Word) : Word :=
  if s = .f32 then a ^^^ 0x80000000 else a ^^^ 0x8000000000000000

def evalIcmp (pred : Ir.IntPred) (s : Scalar) (a b : Word) : Bool :=
  match pred with
  | .eq => a == b
  | .ne => a != b
  | .slt => s.signed a < s.signed b
  | .sgt => s.signed b < s.signed a
  | .sle => s.signed a ≤ s.signed b
  | .sge => s.signed b ≤ s.signed a

def compare64 (pred : Ir.FloatPred) (a b : Float) : Bool :=
  match pred with
  | .ueq => a == b
  | .ult => a < b
  | .ugt => b < a
  | .ule => a ≤ b
  | .uge => b ≤ a

def compare32 (pred : Ir.FloatPred) (a b : Float32) : Bool :=
  match pred with
  | .ueq => a == b
  | .ult => a < b
  | .ugt => b < a
  | .ule => a ≤ b
  | .uge => b ≤ a

def evalFcmp (pred : Ir.FloatPred) (s : Scalar) (a b : Word) : Bool :=
  if s = .f32 then
    isNaN32 a || isNaN32 b || compare32 pred (Float32.ofBits a.toUInt32) (Float32.ofBits b.toUInt32)
  else isNaN64 a || isNaN64 b || compare64 pred (Float.ofBits a) (Float.ofBits b)

end StructLang.Machine
