import Execra.Model.Forwarder
import Execra.Model.Interpret

/-!
The arithmetic of the source with the rounding left open. Rounded to the nearest
value of the format it is the arithmetic of `Execra.Model.Float`; not rounded at all
it is that of the rational numbers. The special values are the same either way.
-/

namespace Execra

/-- How the exact result of an operation is stored. -/
structure Rounding where
  single : ℚ → F32
  double : ℚ → F64

/-- The rounding of the formats. -/
def Rounding.nearest : Rounding := { single := F32.ofRat, double := F64.ofRat }

/-- No rounding. -/
def Rounding.exact : Rounding := { single := .finite, double := .finite }

section Rounding

variable (r : Rounding)

namespace F32

def addBy : F32 → F32 → F32
  | .finite p, .finite q => r.single (p + q)
  | x, y => x.add y

def subBy (x y : F32) : F32 := x.addBy r y.neg

def mulBy : F32 → F32 → F32
  | .finite p, .finite q => r.single (p * q)
  | x, y => x.mul y

end F32

namespace F64

def divPosBy : F64 → F64 → F64
  | .finite p, .finite q => r.double (p / q)
  | x, y => x.divPos y

def toF32By : F64 → F32
  | .finite q => r.single q
  | x => x.toF32

/-- `str::parse::<f64>`. -/
def parseBy (text : String) : Option F64 :=
  let (negative, rest) := parseSign text.toList
  let word := rest.map Char.toLower
  if word = "inf".toList ∨ word = "infinity".toList then some (.inf negative)
  else if word = "nan".toList then some .nan
  else (parseDecimal rest).map (fun q =>
    match r.double q with
    | .finite q => .finite (if negative then -q else q)
    | .inf _ => .inf negative
    | .nan => .nan)

end F64

/-- The fraction of a `ByteProgressMb` rule. -/
def RuleInterpreter.byteFractionBy (self : RuleInterpreter) (d t : F64) : F32 :=
  let ratio := (d.divPosBy r t).clampUnit.toF32By r
  match self.currentPhase.bind self.phases with
  | some (start, stop) => start.addBy r (ratio.mulBy r (stop.subBy r start))
  | none => ratio

/-- The events of a `ByteProgressMb` rule. -/
def RuleInterpreter.byteEventsBy (self : RuleInterpreter) (caps : Captures) :
    List InterpreterEvent :=
  match (caps 1).bind (F64.parseBy r), (caps 2).bind (F64.parseBy r) with
  | some d, some t => if t.pos then [.progress (.fraction (self.byteFractionBy r d t))] else []
  | _, _ => []

namespace CreepState

def newBy (start finish : F32) : CreepState where
  cap := start.addBy r ((r.single (95 / 100)).mulBy r (finish.subBy r start))
  cur := start
  done := false

def tickBy (cs : CreepState) : Option F32 × CreepState :=
  if cs.done then (none, cs)
  else if cs.cap.le (cs.cur.addBy r (r.single (1 / 10000))) then (none, { cs with done := true })
  else
    let new :=
      (cs.cur.addBy r ((cs.cap.subBy r cs.cur).mulBy r (r.single (2 / 100)))).min cs.cap
    let percent (value : F32) := (value.mulBy r (.finite 100)).roundToI32
    (if percent new = percent cs.cur then none else some new, { cs with cur := new })

end CreepState

end Rounding

/-! The rounding of the formats. -/

@[simp] theorem F32.addBy_nearest (x y : F32) : x.addBy .nearest y = x.add y := by
  cases x <;> cases y <;> rfl

@[simp] theorem F32.subBy_nearest (x y : F32) : x.subBy .nearest y = x.sub y :=
  F32.addBy_nearest x y.neg

@[simp] theorem F32.mulBy_nearest (x y : F32) : x.mulBy .nearest y = x.mul y := by
  cases x <;> cases y <;> rfl

@[simp] theorem F64.divPosBy_nearest (x y : F64) : x.divPosBy .nearest y = x.divPos y := by
  cases x <;> cases y <;> rfl

@[simp] theorem F64.toF32By_nearest (x : F64) : x.toF32By .nearest = x.toF32 := by
  cases x <;> rfl

@[simp] theorem F64.parseBy_nearest (text : String) : parseBy .nearest text = parse text := by
  unfold parseBy parse
  rfl

theorem RuleInterpreter.byteFractionBy_nearest (self : RuleInterpreter) (d t : F64) :
    self.byteFractionBy .nearest d t = self.byteFraction d t := by
  unfold byteFractionBy byteFraction
  cases self.currentPhase.bind self.phases with
  | none => simp only [F64.divPosBy_nearest, F64.toF32By_nearest]
  | some range =>
      simp only [F64.divPosBy_nearest, F64.toF32By_nearest, F32.addBy_nearest, F32.mulBy_nearest,
        F32.subBy_nearest]

theorem CreepState.newBy_nearest (start finish : F32) :
    newBy .nearest start finish = new start finish := by
  simp only [newBy, new, F32.addBy_nearest, F32.mulBy_nearest, F32.subBy_nearest]
  rfl

theorem CreepState.tickBy_nearest (cs : CreepState) : cs.tickBy .nearest = cs.tick := by
  simp only [tickBy, tick, F32.addBy_nearest, F32.mulBy_nearest, F32.subBy_nearest]
  rfl

end Execra
