namespace Linewise.Decimal

/-- A floating point number; a finite one has the absolute value `mantissa * 2 ^ exponent`, with a
mantissa below `2 ^ 53` and an exponent from -1074 to 971. -/
inductive Binary64 where
  | finite (negative : Bool) (mantissa : Nat) (exponent : Int)
  | infinite (negative : Bool)
  | nan
deriving DecidableEq, Repr

def mantissaBound : Nat := 1 <<< 53

def tenTo (n : Nat) : Nat := Nat.pow 10 n

def roundDiv (num den : Nat) : Nat :=
  let q := num / den
  let twice := 2 * (num % den)
  if den < twice || (twice == den && q % 2 == 1) then q + 1 else q

namespace Binary64

def zero (negative : Bool) : Binary64 := finite negative 0 (-1074)

def ofQuotient (negative : Bool) (num den : Nat) : Binary64 :=
  let scaled (e : Int) : Nat × Nat := (num <<< (-e).toNat, den <<< e.toNat)
  let guess : Int := max ((num.log2 : Int) - den.log2 - 53) (-1074)
  let (n, d) := scaled guess
  let e := if mantissaBound ≤ n / d then guess + 1 else guess
  let (n, d) := scaled e
  let m := roundDiv n d
  let (m, e) := if m = mantissaBound then (mantissaBound / 2, e + 1) else (m, e)
  if 971 < e then infinite negative else finite negative m e

def ofDecimal (negative : Bool) (digits : Nat) (exponent : Int) : Binary64 :=
  let size : Int := exponent + (Nat.toDigits 10 digits).length
  if digits = 0 || size < -330 then zero negative
  else if 310 < size then infinite negative
  else ofQuotient negative (digits * tenTo exponent.toNat) (tenTo (-exponent).toNat)

end Binary64

end Linewise.Decimal
