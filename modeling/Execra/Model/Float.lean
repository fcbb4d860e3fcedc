import Execra.Model.Data
import Mathlib.Data.Rat.Floor

/-!
The float arithmetic of the source. Results are computed exactly and rounded to
the nearest value of the format, ties to even; a result beyond the largest
finite value becomes infinite. There is one zero, without a sign: no operation
here tells the two apart.
-/

namespace Execra

/-- A binary format: the bits of a significand, and the exponents its leading
bit can have. -/
structure FloatFormat where
  precision : Nat
  minExponent : Int
  maxExponent : Int

def binary32 : FloatFormat := { precision := 24, minExponent := -126, maxExponent := 127 }

def binary64 : FloatFormat := { precision := 53, minExponent := -1022, maxExponent := 1023 }

/-- The nearest integer, of two equally near ones the even one. -/
def roundTiesEven (q : ℚ) : Int :=
  let rest := q - q.floor
  if rest < 1 / 2 ∨ (rest = 1 / 2 ∧ q.floor % 2 = 0) then q.floor else q.floor + 1

/-- The nearest integer, of two equally near ones the one farther from zero. -/
def roundTiesAway (q : ℚ) : Int :=
  if 0 ≤ q then (q + 1 / 2).floor else -(-q + 1 / 2).floor

/-- The exponent of the leading bit of a number other than zero. -/
def leadingExponent (q : ℚ) : Int :=
  let e : Int := (q.num.natAbs.log2 : Int) - q.den.log2
  if (2 : ℚ) ^ e ≤ |q| then e else e - 1

/-- The nearest value of the format, or `none` on overflow. -/
def FloatFormat.nearest (format : FloatFormat) (q : ℚ) : Option ℚ :=
  let unit : ℚ := 2 ^ (max (leadingExponent q) format.minExponent - (format.precision - 1))
  let rounded := roundTiesEven (q / unit) * unit
  if |rounded| < 2 ^ (format.maxExponent + 1) then some rounded else none

namespace F32

def ofRat (q : ℚ) : F32 :=
  match binary32.nearest q with
  | some rounded => .finite rounded
  | none => .inf (q < 0)

def neg : F32 → F32
  | .nan => .nan
  | .inf negative => .inf !negative
  | .finite q => .finite (-q)

def add : F32 → F32 → F32
  | .nan, _ | _, .nan => .nan
  | .inf negative, .inf negative' => if negative = negative' then .inf negative else .nan
  | .inf negative, .finite _ | .finite _, .inf negative => .inf negative
  | .finite q, .finite r => ofRat (q + r)

def sub (x y : F32) : F32 := x.add y.neg

def mul : F32 → F32 → F32
  | .nan, _ | _, .nan => .nan
  | .inf negative, .inf negative' => .inf (negative ^^ negative')
  | .inf negative, .finite q | .finite q, .inf negative =>
      if q = 0 then .nan else .inf (negative ^^ decide (q < 0))
  | .finite q, .finite r => ofRat (q * r)

def lt : F32 → F32 → Bool
  | .nan, _ | _, .nan => false
  | .inf negative, .inf negative' => negative && !negative'
  | .inf negative, .finite _ => negative
  | .finite _, .inf negative => !negative
  | .finite q, .finite r => decide (q < r)

def le : F32 → F32 → Bool
  | .nan, _ | _, .nan => false
  | x, y => !y.lt x

/-- `f32::min`, which ignores a NaN. -/
def min : F32 → F32 → F32
  | .nan, y => y
  | x, .nan => x
  | x, y => if y.lt x then y else x

/-- `x.round() as i32`: a cast saturates, and that of a NaN is 0. -/
def roundToI32 : F32 → Int
  | .nan => 0
  | .inf negative => if negative then -2 ^ 31 else 2 ^ 31 - 1
  | .finite q => max (-2 ^ 31) (Min.min (roundTiesAway q) (2 ^ 31 - 1))

end F32

/-- A double-precision float. -/
inductive F64 where
  | nan
  | inf (negative : Bool)
  | finite (q : ℚ)
deriving DecidableEq, Repr

namespace F64

def ofRat (q : ℚ) : F64 :=
  match binary64.nearest q with
  | some rounded => .finite rounded
  | none => .inf (q < 0)

def pos : F64 → Bool
  | .nan => false
  | .inf negative => !negative
  | .finite q => decide (0 < q)

/-- A quotient by a positive number. -/
def divPos : F64 → F64 → F64
  | .nan, _ | _, .nan => .nan
  | .inf _, .inf _ => .nan
  | .inf negative, .finite _ => .inf negative
  | .finite _, .inf _ => .finite 0
  | .finite q, .finite r => ofRat (q / r)

/-- `x.clamp(0.0, 1.0)`. -/
def clampUnit : F64 → F64
  | .nan => .nan
  | .inf negative => .finite (if negative then 0 else 1)
  | .finite q => .finite (max 0 (min q 1))

/-- `x as f32`. -/
def toF32 : F64 → F32
  | .nan => .nan
  | .inf negative => .inf negative
  | .finite q => F32.ofRat q

/-- The number a row of decimal digits denotes. -/
def digitsValue (digits : List Char) : Nat :=
  digits.foldl (fun value c => 10 * value + (c.toNat - '0'.toNat)) 0

/-- A leading sign, and whether it is a minus. -/
def parseSign : List Char → Bool × List Char
  | '-' :: rest => (true, rest)
  | '+' :: rest => (false, rest)
  | text => (false, text)

/-- The exponent of a decimal number; it ends the text. -/
def parseExponent : List Char → Option Int
  | [] => some 0
  | c :: rest =>
      let (negative, digits) := parseSign rest
      if c.toLower = 'e' ∧ digits ≠ [] ∧ digits.all Char.isDigit then
        some (if negative then -(digitsValue digits : Int) else digitsValue digits)
      else none

/-- A decimal number without a sign: digits on one side of the point at least. -/
def parseDecimal (text : List Char) : Option ℚ :=
  let whole := text.takeWhile Char.isDigit
  let (fraction, rest) :=
    match text.dropWhile Char.isDigit with
    | '.' :: rest => (rest.takeWhile Char.isDigit, rest.dropWhile Char.isDigit)
    | rest => ([], rest)
  if whole = [] ∧ fraction = [] then none
  else (parseExponent rest).map (fun exponent =>
    (digitsValue (whole ++ fraction) : ℚ) * (10 : ℚ) ^ (exponent - (fraction.length : Int)))

/-- `str::parse::<f64>`. -/
def parse (text : String) : Option F64 :=
  let (negative, rest) := parseSign text.toList
  let word := rest.map Char.toLower
  if word = "inf".toList ∨ word = "infinity".toList then some (.inf negative)
  else if word = "nan".toList then some .nan
  else (parseDecimal rest).map (fun q =>
    match ofRat q with
    | .finite q => .finite (if negative then -q else q)
    | .inf _ => .inf negative
    | .nan => .nan)

end F64

end Execra
