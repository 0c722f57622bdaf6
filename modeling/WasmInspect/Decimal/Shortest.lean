/-!
# Shortest decimal form of a binary floating-point number

A bit pattern stands for a number `m * 2 ^ q`. All reals closer to it than to its neighbours round to it, and the reals half way
round to it exactly if `m` is even. `shortest` gives the decimal `digits * 10 ^ exponent` with the fewest digits in that
interval, and of these the one nearest to the number.

It tries the grids of the multiples of `10 ^ k` from a coarse one down. If a grid has a point in the interval, then one of the
two points next to the number is in it, so only these two are tried.
-/

namespace WasmInspect.Decimal

/-- The layout of a floating-point number: a sign, an exponent and a fraction, from the highest bit to the lowest. -/
structure Format where
  fractionBits : Nat
  exponentBits : Nat

/-- The layout of 32 bits. -/
def Format.single : Format := ⟨23, 8⟩

/-- The layout of 64 bits. -/
def Format.double : Format := ⟨52, 11⟩

/-- A positive number `mantissa * 2 ^ exponent`. -/
structure Magnitude where
  mantissa : Nat
  exponent : Int
  /-- The number below is half as far away as the number above, as it is where the exponent changes. -/
  narrowBelow : Bool

/-- What a bit pattern stands for, but for its sign. -/
inductive Reading where
  | notANumber
  | infinity
  | zero
  | finite (v : Magnitude)

/-- What a bit pattern stands for: whether its sign bit is set, and the rest. -/
def Format.read (f : Format) (bits : Nat) : Bool × Reading :=
  let fractions := Nat.pow 2 f.fractionBits
  let exponents := Nat.pow 2 f.exponentBits
  let fraction := bits % fractions
  let exponent := bits / fractions % exponents
  let negative := bits / (fractions * exponents) % 2 = 1
  let lowest : Int := 2 - (exponents / 2 : Nat) - f.fractionBits
  if exponent = exponents - 1 then (negative, if fraction = 0 then .infinity else .notANumber)
  else if exponent = 0 then (negative, if fraction = 0 then .zero else .finite ⟨fraction, lowest, false⟩)
  else
    (negative, .finite ⟨fractions + fraction, lowest + (exponent - 1 : Nat), fraction = 0 && 1 < exponent⟩)

/-- The decimal number `digits * 10 ^ exponent`. -/
structure Scaled where
  digits : Nat
  exponent : Int

/-- The point of the grid of step `10 ^ k` that is nearest to the number among those next to it which round to the number; an
exact tie goes to the even point. The ends of the interval and the point's place are compared in quarters of the number's last
binary place, multiplied out to whole numbers. -/
def Magnitude.onGrid? (v : Magnitude) (k : Int) : Option Scaled :=
  let unit := Nat.pow 10 k.toNat * Nat.pow 2 (2 - v.exponent).toNat
  let quarter := Nat.pow 2 (v.exponent - 2).toNat * Nat.pow 10 (-k).toNat
  let value := 4 * v.mantissa * quarter
  let low := (4 * v.mantissa - if v.narrowBelow then 1 else 2) * quarter
  let high := (4 * v.mantissa + 2) * quarter
  let inside (c : Nat) : Bool :=
    if v.mantissa % 2 = 0 then low ≤ c * unit && c * unit ≤ high else low < c * unit && c * unit < high
  let down := value / unit
  let up := down + 1
  let below := value - down * unit
  let above := up * unit - value
  let preferDown := below < above || (below = above && down % 2 = 0)
  if inside down && (preferDown || !inside up) then some ⟨down, k⟩
  else if inside up then some ⟨up, k⟩
  else none

/-- The first grid with a point for the number, from step `10 ^ k` down through `fuel` grids more. -/
def Magnitude.search (v : Magnitude) (k : Int) : Nat → Scaled
  | 0 => (v.onGrid? k).getD ⟨0, k⟩
  | fuel + 1 =>
    match v.onGrid? k with
    | some s => s
    | none => v.search (k - 1) fuel

/-- The shortest decimal that rounds to the number. The search starts at a power of ten above the number (the logarithm of two
is below 0.30103) and goes on for as many grids as there are bits, of which each halves the step at least. -/
def Magnitude.shortest (v : Magnitude) : Scaled :=
  let width := v.mantissa.log2 + 1
  v.search ((width + v.exponent) * 30103 / 100000 + 1) (width + 3)

end WasmInspect.Decimal
