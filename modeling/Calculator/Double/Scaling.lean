import Calculator.Double.Arithmetic

/-!
# Scaling by powers of two

`scale x k` multiplies `x` by `2^k` in steps of at most `2^±512`, each of which rounds.
Where the product is at least `2^-1022` in magnitude no step loses anything; below that the result
may be rounded more than once.
-/

namespace Calculator.Double

/-- The largest exponent of one scaling step. -/
def scalingStep : Int := 512

/-- `2^k`, exact for every `k` from `-1074` to `1023`. -/
def powerOfTwo (k : Int) : Double := ofRatio false (2 ^ (k + unitPlaces).toNat) 1

/-- The exponent of the next step toward `k`. -/
def nextStep (k : Int) : Int := max (-scalingStep) (min scalingStep k)

/-- `x * 2^k`, by steps; zeros, infinities and NaN stay as they are. -/
def scale (x : Double) (k : Int) : Double :=
  if k = 0 ∨ x.isZero ∨ !x.isFinite then x
  else scale (x * powerOfTwo (nextStep k)) (k - nextStep k)
termination_by k.natAbs
decreasing_by
  simp only [nextStep, scalingStep]
  omega

end Calculator.Double
