import RunningStats.Binary.Native
import RunningStats.FixedPoint.Angle

/-!
# Quantiles of Student's distribution

A quantile to compute confidence intervals with (`inverse_cdf` of a library, for probabilities of
one half or more). With `n` degrees of freedom, the probability that a value lies between `-t` and
`t` is a finite sum in the angle whose tangent is `t / √n`:

* for even `n`, `sin · (1 + 1/2 cos² + (1·3)/(2·4) cos⁴ + …)` with `n / 2` terms;
* for odd `n`, `2/π · (angle + sin · (cos + 2/3 cos³ + (2·4)/(3·5) cos⁵ + …))` with `(n - 1) / 2`
  terms in the inner sum.

The sum is evaluated in fixed point. It grows with `t`, and the quantile is found by bisection, in
time proportional to `n`. How the library computes it is not modelled, and its last places differ.
-/

namespace RunningStats.StudentT

open FixedPoint

/-- A sum so far with `count` more terms, each one the term before times `square` times a ratio. -/
def sumTerms (square : Nat) (ratio : Nat → Nat × Nat) : (count index term sum : Nat) → Nat
  | 0, _, _, sum => sum
  | count + 1, index, term, sum =>
    let r := ratio index
    sumTerms square ratio count (index + 1) (mul term square * r.1 / r.2) (sum + term)

/-- The probability of the values up to `t` in size. -/
def central (n t : Nat) : Nat :=
  let hypotenuse := root ((n * one) * one + t * t)
  let sine := div t hypotenuse
  let square := (n * one) * (one * one) / ((n * one) * one + t * t)
  if n % 2 = 0 then
    mul sine (sumTerms square (fun i => (2 * i + 1, 2 * i + 2)) (n / 2) 0 one 0)
  else
    let cosine := sqrt square
    let angle := 2 * arctan (halfTangent sine cosine)
    let rest := mul sine (sumTerms square (fun i => (2 * i + 2, 2 * i + 3)) (n / 2) 0 cosine 0)
    div (2 * (angle + rest)) pi

/-- The largest multiple of `step / 2 ^ k` reached from `low` by halving steps with a value of a
monotone function that does not exceed `target`. -/
def bisect (f : Nat → Nat) (target : Nat) : (halvings low step : Nat) → Nat
  | 0, low, _ => low
  | k + 1, low, step =>
    let middle := low + step
    bisect f target k (if f middle ≤ target then middle else low) (step / 2)

/-- The point that the values reach in size with the given probability, below `2 ^ 64` and to
`2 ^ -128`. -/
def centralQuantile (n probability : Nat) : Nat :=
  bisect (central n) probability 192 0 (one <<< 63)

/-- The quantile of a probability of one half or more. It is zero at one half, infinite at one,
and undefined elsewhere. -/
def quantile (degrees : UInt64) (p : Float) : Float :=
  if p == 0.5 then 0
  else if p == 1 then 1 / 0
  else
    match Patterned.datum p with
    | .finite false significand exponent =>
      let r := Binary.ratio significand exponent
      let doubled := 2 * (r.1 * one / r.2)
      if one < doubled ∧ doubled < 2 * one then
        Patterned.ofPattern
          (Binary.binary64.nearest false (centralQuantile degrees.toNat (doubled - one)) one)
      else 0 / 0
    | _ => 0 / 0

end RunningStats.StudentT
