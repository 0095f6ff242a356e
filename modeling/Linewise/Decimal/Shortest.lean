import Linewise.Decimal.Binary64

namespace Linewise.Decimal

/-- Whether `d * 10 ^ p` reads back as `mantissa * 2 ^ exponent`: it lies between the midpoints to
the neighbouring numbers, which belong to an even mantissa. All sides are scaled to whole
numbers. -/
def readsBack (mantissa : Nat) (exponent : Int) (d : Nat) (p : Int) : Bool :=
  let unit := tenTo 324 <<< (exponent + 1074).toNat
  let high := (4 * mantissa + 2) * unit
  let below := if 2 * mantissa = mantissaBound && -1074 < exponent then 1 else 2
  let low := (4 * mantissa - below) * unit
  let x := (d * tenTo (p + 324).toNat) <<< 1076
  if mantissa % 2 = 0 then low ≤ x && x ≤ high else low < x && x < high

/-- The multiple of `10 ^ p` that reads back, the nearer one if there are two, and the greater one of
two equally near. -/
def onGrid? (m : Nat) (exponent p : Int) : Option (Nat × Int) :=
  let value := (4 * m * tenTo 324) <<< (exponent + 1074).toNat
  let unit := tenTo (p + 324).toNat <<< 1076
  let d := value / unit
  match readsBack m exponent d p, readsBack m exponent (d + 1) p with
  | true, true => some (if 2 * (value % unit) < unit then d else d + 1, p)
  | true, false => some (d, p)
  | false, true => some (d + 1, p)
  | false, false => none

def shortest (mantissa : Nat) (exponent : Int) : Nat × Int :=
  let grid (k : Nat) : Option (Nat × Int) := onGrid? mantissa exponent (309 - (k : Int))
  ((List.range 634).findSome? grid).getD (0, 0)

def positional (d : Nat) (p : Int) : String :=
  let digits := toString d
  let zeros (n : Nat) : String := String.ofList (List.replicate n '0')
  let places := (-p).toNat
  if 0 ≤ p then digits ++ zeros p.toNat ++ ".0"
  else
    let padded := (zeros (places + 1 - digits.length) ++ digits).toList
    let whole := padded.length - places
    String.ofList (padded.take whole) ++ "." ++ String.ofList (padded.drop whole)

def Binary64.toText : Binary64 → String
  | .nan => "NaN"
  | .infinite negative => if negative then "-inf" else "inf"
  | .finite negative m e =>
    let (d, p) := if m = 0 then (0, 0) else shortest m e
    (if negative then "-" else "") ++ positional d p

end Linewise.Decimal
