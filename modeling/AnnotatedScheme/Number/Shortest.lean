import AnnotatedScheme.Number.Double

/-!
# Shortest digits

Many decimal fractions are read as one and the same double. `Double.Size.shortest` is, among
those with the fewest digits, the one nearest to the double, a tie going to the even last digit.

For `n = 1, 2, … 17` digits the grid of `n`-digit fractions has two neighbours of the double; the
first grid with a neighbour that is read back as the double wins (`readBack_onGrid?`). The exact
digits of the double stand behind.
-/

namespace AnnotatedScheme.Double.Size

/-- the exact digits: a unit is `5^1074` on the grid of `10^-1074` -/
def exactDecimal (x : Size) : Decimal := ⟨false, x.units * Nat.pow 5 1074, -1074⟩

/-- the exponent `e` with `10^(e-1) ≤ x < 10^e`, for `x` not zero -/
def decimalMagnitude (x : Size) : Int :=
  if x.units < twoPow 1074 then -digitCount ((twoPow 1074 - 1) / x.units) + 1
  else digitCount (x.units / twoPow 1074)

/-- whether a fraction is read as `x` -/
def readBack (x : Size) (d : Decimal) : Bool := ofDecimal d = .finite d.negative x

/-- the better of the two neighbours of `x` on the grid of `10^exponent` that are read as `x` -/
def onGrid? (x : Size) (exponent : Int) : Option Decimal :=
  let num := x.units * tenPow (-exponent).toNat
  let den := twoPow 1074 * tenPow exponent.toNat
  let near := roundDiv num den
  let far := if near = num / den then near + 1 else num / den
  ([near, far].map fun digits => ⟨false, digits, exponent⟩).find? x.readBack

def shortest (x : Size) : Decimal :=
  let grids := (List.range 17).map fun n : Nat => x.decimalMagnitude - n - 1
  (grids.findSome? x.onGrid?).getD x.exactDecimal

theorem readBack_onGrid? {x : Size} {exponent : Int} {d : Decimal}
    (h : x.onGrid? exponent = some d) : x.readBack d = true :=
  List.find?_some h

end AnnotatedScheme.Double.Size
