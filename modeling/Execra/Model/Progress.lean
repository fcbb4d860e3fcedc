import Execra.Model.Float

/-!
The rest of `progress.rs`: what a progress is made from, and the single ratio a
consumer reads off it.
-/

namespace Execra

namespace F32

/-- `n as f32`. -/
def ofNat (n : Nat) : F32 := ofRat n

/-- A quotient. The zero has no sign here, so a quotient by it takes the sign of the
dividend. -/
def div : F32 → F32 → F32
  | .nan, _ | _, .nan => .nan
  | .inf _, .inf _ => .nan
  | .inf negative, .finite q => .inf (negative ^^ decide (q < 0))
  | .finite _, .inf _ => .finite 0
  | .finite q, .finite r =>
      if r = 0 then if q = 0 then .nan else .inf (q < 0) else ofRat (q / r)

end F32

namespace F64

def mul : F64 → F64 → F64
  | .nan, _ | _, .nan => .nan
  | .inf negative, .inf negative' => .inf (negative ^^ negative')
  | .inf negative, .finite q | .finite q, .inf negative =>
      if q = 0 then .nan else .inf (negative ^^ decide (q < 0))
  | .finite q, .finite r => ofRat (q * r)

/-- `x.max(0.0) as u64`: a cast saturates, and the maximum of a NaN is 0. -/
def toU64 : F64 → Nat
  | .nan => 0
  | .inf negative => if negative then 0 else 2 ^ 64 - 1
  | .finite q => min q.floor.toNat (2 ^ 64 - 1)

end F64

namespace Progress

/-- `Progress::count`. -/
def count (done total : Nat) : Progress := .determinate (.count done total)

/-- `Progress::bytes`. -/
def bytes (done : Nat) (total : Option Nat) : Progress := .determinate (.bytes done total)

/-- `Progress::bytes_mb`. -/
def bytesMb (doneMb totalMb : F64) : Progress :=
  let toBytes (mb : F64) := (mb.mul (.finite 1000000)).toU64
  bytes (toBytes doneMb) (some (toBytes totalMb))

/-- The share of a total, if there is one. -/
def share (done total : Nat) : Option F32 :=
  if total > 0 then some (clamp01 ((F32.ofNat done).div (F32.ofNat total))) else none

/-- `Progress::as_fraction`. -/
def asFraction : Progress → Option F32
  | .unknown | .indeterminate _ => none
  | .determinate (.fraction value) => some value
  | .determinate (.count done total) => share done total
  | .determinate (.bytes done (some total)) => share done total
  | .determinate (.bytes _ none) => none

end Progress

end Execra
