import Calculator.Double.Basic

/-!
# Shortest decimals

A decimal is a natural number of digits times a power of ten. The shortest decimal of a binary64
magnitude is the one with the fewest digits among those that read back as the magnitude, and the
nearest of those; of two at the same distance the greater.

Everything is a whole multiple of `10^-1074`: a unit of `2^-1074` is `5^1074` of these grains. The
decimals that read back form an interval around the magnitude that ends halfway to its neighbours,
so its ends are whole numbers of quarter grains.

* `ReadBack.around n`: that interval.
* `shortestHit n j`: the decimal of grid `10^j` grains that is to be chosen, if the grid has one.
* `Decimal.shortest n`: the hit of the coarsest grid.
-/

namespace Calculator

/-- The number `digits * 10^exponent`. -/
structure Decimal where
  digits : Nat
  exponent : Int
  deriving DecidableEq

/-- How many grains of `10^-1074` make one unit of `2^-1074`. -/
def grainsPerUnit : Nat := 5 ^ unitPlaces

/-- The numbers that round to one magnitude, in quarter grains. -/
structure ReadBack where
  low : Nat
  high : Nat
  /-- Whether the ends belong to it. -/
  closed : Bool

namespace ReadBack

/-- The numbers that round to the magnitude of `n` units. The neighbour below is twice as near
where the magnitude is the least with its exponent. An end is a tie and rounds to the even
significand. -/
def around (n : Nat) : ReadBack :=
  let step := 2 ^ surplusBits n
  let below := if n = 2 ^ 52 * step ∧ 1 < step then step else 2 * step
  ⟨(4 * n - below) * grainsPerUnit, (4 * n + 2 * step) * grainsPerUnit, n / step % 2 = 0⟩

def contains (i : ReadBack) (x : Nat) : Bool :=
  if i.closed then i.low ≤ x && x ≤ i.high else i.low < x && x < i.high

end ReadBack

/-- The multiple of `10^j` grains that is chosen for a value of `value` grains among its two
neighbours on that grid, by its factor: a neighbour that reads back, the nearer if both do. -/
def shortestHit (i : ReadBack) (value j : Nat) : Option Nat :=
  let grid := 10 ^ j
  let d := value / grid
  match i.contains (4 * (d * grid)), i.contains (4 * ((d + 1) * grid)) with
  | true, true => if 2 * (value % grid) < grid then some d else some (d + 1)
  | true, false => some d
  | false, true => some (d + 1)
  | false, false => none

/-- The hit of the coarsest grid from `10^j` grains down. The finest grid, one grain, holds every
value. -/
def coarsestHit (i : ReadBack) (value : Nat) : Nat → Nat × Nat
  | 0 => (value, 0)
  | j + 1 =>
    match shortestHit i value (j + 1) with
    | some d => (d, j + 1)
    | none => coarsestHit i value j

/-- The shortest decimal that reads back as the magnitude of `n` units. The search starts at a
grid beyond the value. -/
def Decimal.shortest (n : Nat) : Decimal :=
  if n = 0 then ⟨0, 0⟩
  else
    let value := n * grainsPerUnit
    let hit := coarsestHit (.around n) value (value.log2 / 3 + 1)
    ⟨hit.1, hit.2 - unitPlaces⟩

end Calculator
