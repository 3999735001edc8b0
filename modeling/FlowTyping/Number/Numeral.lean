import FlowTyping.Number.Double

/-!
Decimal numerals as they are spelled in a document, and their values as whole
numbers and as doubles.
-/

namespace FlowTyping

/-- A decimal numeral: sign, digits before and after the point, exponent. -/
structure Numeral where
  negative : Bool
  whole : List Nat
  fraction : List Nat
  exponent : Option Int
  deriving DecidableEq, Repr

namespace Numeral

def ofDigits (digits : List Nat) : Nat := digits.foldl (fun n d => 10 * n + d) 0

def digitsOf (n : Nat) : List Nat :=
  (Nat.toDigits 10 n).map fun c => c.toNat - '0'.toNat

def ofInt (n : Int) : Numeral := ⟨n < 0, digitsOf n.natAbs, [], none⟩

def ofNat (n : Nat) : Numeral := ofInt n

def isIntegral (n : Numeral) : Bool := n.fraction.isEmpty && n.exponent.isNone

/-- The numeral as a 64-bit whole number, signed or unsigned. A negative zero, a
point and an exponent make it no whole number. -/
def toInt? (n : Numeral) : Option Int :=
  let value := ofDigits n.whole
  if n.isIntegral = false then none
  else if n.negative then
    if 0 < value ∧ value ≤ Nat.pow 2 63 then some (-value) else none
  else if value < Nat.pow 2 64 then some value
  else none

/-- Reads digits onto `s` as long as the result fits in 64 bits, and gives the
result, the number of digits read, and the digits left. -/
def absorb : Nat → List Nat → Nat × Nat × List Nat
  | s, [] => (s, 0, [])
  | s, d :: ds =>
      if 10 * s + d < Nat.pow 2 64 then
        let (s', k, left) := absorb (10 * s + d) ds
        (s', k + 1, left)
      else (s, 0, d :: ds)

/-- The largest power of ten that is a double. -/
def largestPower : Nat := 308

def powerOfTen (k : Nat) : Double := Double.ofNat (Nat.pow 10 k)

/-- A double divided by a power of ten, in steps of at most the largest power,
each rounded. -/
def descend : Nat → Double → Nat → Double
  | 0, x, _ => x
  | fuel + 1, x, k =>
      if x.isZero then x
      else if k ≤ largestPower then
        Double.ofRatio false (x.magnitude.div (powerOfTen k).magnitude)
      else
        descend fuel
          (Double.ofRatio false (x.magnitude.div (powerOfTen largestPower).magnitude))
          (k - largestPower)

/-- A 64-bit significand times a power of ten: the significand is rounded first
and the scaled number again. There is no result past the finite doubles. -/
def scaled? (significand : Nat) : Int → Option Double
  | .ofNat k =>
      let x := Double.ofNat significand
      if largestPower < k then if x.isZero then some x else none
      else
        let y := Double.ofRatio false (x.magnitude.mul (powerOfTen k).magnitude)
        if y.isFinite then some y else none
  | .negSucc k => some (descend 4 (Double.ofNat significand) (k + 1))

/-- The numeral as a double. Digits past 64 bits of significand count by their
position only. -/
def toDouble? (n : Numeral) : Option Double :=
  let magnitude :=
    if n.isIntegral ∧ ofDigits n.whole < Nat.pow 2 64 then
      some (Double.ofNat (ofDigits n.whole))
    else
      let (s, _, left) := absorb 0 n.whole
      let (s', places, _) := absorb s n.fraction
      scaled? s' ((left.length : Int) - places + n.exponent.getD 0)
  magnitude.map fun x => if n.negative then x.neg else x

/-- The shortest numeral of a double: positional between `1e-5` and `1e16`, with an
exponent outside, and never without a point or an exponent. -/
def ofDouble (x : Double) : Numeral :=
  let (d, e) := x.shortest
  let digits := digitsOf d
  let point := (digits.length : Int) + e
  let make := fun whole fraction exponent =>
    (⟨x.isNegative, whole, fraction, exponent⟩ : Numeral)
  if d = 0 then make [0] [0] none
  else if 0 ≤ e ∧ point ≤ 16 then make (digits ++ List.replicate e.toNat 0) [0] none
  else if 0 < point ∧ point ≤ 16 then
    make (digits.take point.toNat) (digits.drop point.toNat) none
  else if -5 < point ∧ point ≤ 0 then
    make [0] (List.replicate (-point).toNat 0 ++ digits) none
  else make (digits.take 1) (digits.drop 1) (some (point - 1))

def digitText (digits : List Nat) : List Char := digits.map Nat.digitChar

/-- The spelling of a numeral. -/
def text (n : Numeral) : List Char :=
  (if n.negative then ['-'] else []) ++ digitText n.whole ++
    (if n.fraction.isEmpty then [] else '.' :: digitText n.fraction) ++
    (match n.exponent with
      | none => []
      | some e =>
          'e' :: (if e < 0 then ['-'] else []) ++ Nat.toDigits 10 e.natAbs)

end Numeral

end FlowTyping
