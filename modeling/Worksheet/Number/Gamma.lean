import Worksheet.Number.Binary

/-! The gamma function by a Lanczos sum with `g = 7`, and factorials. -/

namespace Worksheet

def pi : Float := 3.14159265358979323846

namespace Gamma

/-- The terms of the Lanczos sum behind its constant one; the first belongs to `z + 1`. -/
def terms : List Float :=
  [676.5203681218851, -1259.1392167224028, 771.32342877765313, -176.61502916214059, 12.507343278686905,
    -0.13857109526572012, 9.9843695780195716e-6, 1.5056327351493116e-7]

/-- The Lanczos sum at `z`. -/
def series (z : Float) : Float :=
  (terms.foldl (fun (acc : Float × Float) c => (acc.1 + c / (z + acc.2), acc.2 + 1)) (0.99999999999980993, 1)).1

/-- The gamma function right of `0.5`. -/
def right (x : Float) : Float :=
  let z := x - 1.0
  let t := z + 7.0 + 0.5
  Float.sqrt (2.0 * pi) * Float.pow t (z + 0.5) * Float.exp (-t) * series z

/-- The gamma function; left of `0.5` by reflection. -/
def gamma (x : Float) : Float := if x < 0.5 then pi / (Float.sin (pi * x) * right (1.0 - x)) else right x

/-- `n!`, through the gamma function where `n` is not whole. -/
def factorial (n : Float) : Float :=
  if n.isNaN || n < 0 then Binary.nan
  else if n == 0 || n == 1 then 1.0
  else if n > 170 then Binary.infinity
  else if n != Binary.floor n then gamma (n + 1.0)
  else (List.range (Binary.wholePart n - 1)).foldl (fun r i => r * Binary.ofNat (i + 2)) 1.0

end Gamma
end Worksheet
