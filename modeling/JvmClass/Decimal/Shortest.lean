/-!
The shortest decimal that reads back as a given binary number.
A finite number other than zero is a positive `mantissa` times a power of two.  The reals that
round to it form an interval, which holds its ends exactly when the mantissa is even.  For one
digit, two digits and so on, the two decimals around the number on that grid are tried, and the
first grid with a hit wins; of two hits the nearer one does, and the greater one if both are as
near.  All of it is exact arithmetic.
-/

namespace JvmClass.Decimal

/-- A positive number `mantissa * 2 ^ exponent`; below a power of two the numbers lie closer, and
`narrow` says that this one is such a power. -/
structure Binary where
  mantissa : Nat
  exponent : Int
  narrow : Bool

/-- Digits without the point, and the place of the point counted from the left of the first
digit. -/
structure Digits where
  digits : Nat
  count : Nat
  point : Int

/-- A ratio of two naturals with the given power of two and of ten in it. -/
def scaled (n : Nat) (two ten : Int) : Nat × Nat :=
  ((n * Nat.pow 10 ten.toNat) <<< two.toNat, Nat.pow 10 (-ten).toNat <<< (-two).toNat)

def ratioLt (a b : Nat × Nat) : Bool := a.1 * b.2 < b.1 * a.2

def ratioLe (a b : Nat × Nat) : Bool := a.1 * b.2 ≤ b.1 * a.2

namespace Binary

/-- Four times the number, and the ends of its interval, in units of a quarter of its last
binary place. -/
def low (x : Binary) : Nat := 4 * x.mantissa - (if x.narrow then 1 else 2)

def high (x : Binary) : Nat := 4 * x.mantissa + 2

def admits (x : Binary) (d : Nat) (e : Int) : Bool :=
  let value := scaled d 0 e
  let low := scaled x.low (x.exponent - 2) 0
  let high := scaled x.high (x.exponent - 2) 0
  if x.mantissa % 2 = 0 then ratioLe low value && ratioLe value high
  else ratioLt low value && ratioLt value high

/-- The greatest `d` such that `d * 10 ^ e` is at most the number, and whether the next step is at
least as near to the number. -/
def floorAt (x : Binary) (e : Int) : Nat × Bool :=
  let (num, den) := scaled x.mantissa x.exponent (-e)
  let d := num / den
  (d, den ≤ 2 * (num - d * den))

/-- The power of ten just above the number: the number is below `10 ^ p` and not below
`10 ^ (p - 1)`.  The search starts at an estimate that is never too large. -/
def pointFrom (x : Binary) : Nat → Int → Int
  | 0, p => p
  | fuel + 1, p =>
    if ratioLt (scaled x.mantissa x.exponent 0) (scaled 1 0 p) then p
    else x.pointFrom fuel (p + 1)

def point (x : Binary) : Int :=
  let bits : Int := x.mantissa.log2 + x.exponent
  x.pointFrom 4 (Int.fdiv (bits * 30103) 100000 - 1)

def withDigits? (x : Binary) (point : Int) (count : Nat) : Option Nat :=
  let e := point - count
  let (d, upper) := x.floorAt e
  let below := x.admits d e
  let above := x.admits (d + 1) e
  if below && above then some (if upper then d + 1 else d)
  else if below then some d
  else if above then some (d + 1)
  else none

def shortestFrom (x : Binary) (point : Int) : Nat → Nat → Digits
  | 0, count => ⟨(x.floorAt (point - count)).1, count, point⟩
  | fuel + 1, count =>
    match x.withDigits? point count with
    | some d => ⟨d, count, point⟩
    | none => x.shortestFrom point fuel (count + 1)

/-- Drops zeros at the end, and moves the point when the digits ran over into one more place. -/
def normalize (d : Digits) : Digits :=
  let digits := Nat.toDigits 10 d.digits
  let kept := (digits.reverse.dropWhile (· == '0')).reverse
  ⟨kept.foldl (fun n c => n * 10 + (c.toNat - 48)) 0, kept.length,
    d.point + (digits.length - d.count : Int)⟩

def shortest (x : Binary) : Digits := normalize (x.shortestFrom x.point 17 1)

end Binary

structure Format where
  exponentBits : Nat
  mantissaBits : Nat

def single : Format := ⟨8, 23⟩

def double : Format := ⟨11, 52⟩

inductive Value where
  | notANumber
  | infinite (negative : Bool)
  | zero (negative : Bool)
  | finite (negative : Bool) (x : Binary)

def Format.decode (f : Format) (bits : Nat) : Value :=
  let hidden := 1 <<< f.mantissaBits
  let exponents := 1 <<< f.exponentBits
  let fraction := bits % hidden
  let exponent := bits / hidden % exponents
  let negative := bits / hidden / exponents % 2 == 1
  let least : Int := 2 - (exponents / 2 : Nat) - f.mantissaBits
  if exponent = exponents - 1 then
    if fraction = 0 then .infinite negative else .notANumber
  else if exponent = 0 then
    if fraction = 0 then .zero negative else .finite negative ⟨fraction, least, false⟩
  else
    .finite negative ⟨hidden + fraction, least + (exponent - 1 : Int),
      fraction == 0 && exponent > 1⟩

/-- Plain numbers have at least one digit behind the point, and numbers below `1e-4` or from
`1e16` on have an exponent. -/
def Digits.render (d : Digits) : String :=
  let digits := toString d.digits
  let cs := digits.toList
  if d.point ≤ -4 ∨ 17 ≤ d.point then
    let fraction := match cs.tail with
      | [] => ""
      | tail => "." ++ String.ofList tail
    String.ofList (cs.take 1) ++ fraction ++ s!"e{d.point - 1}"
  else if d.point ≤ 0 then
    "0." ++ String.ofList (List.replicate (-d.point).toNat '0') ++ digits
  else if d.count ≤ d.point.toNat then
    digits ++ String.ofList (List.replicate (d.point.toNat - d.count) '0') ++ ".0"
  else
    String.ofList (cs.take d.point.toNat) ++ "." ++ String.ofList (cs.drop d.point.toNat)

def Value.render : Value → String
  | .notANumber => "NaN"
  | .infinite negative => if negative then "-inf" else "inf"
  | .zero negative => if negative then "-0.0" else "0.0"
  | .finite negative x => (if negative then "-" else "") ++ x.shortest.render

def renderBits (f : Format) (bits : Nat) : String := (f.decode bits).render

end JvmClass.Decimal
