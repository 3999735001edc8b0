/-!
Double-precision binary numbers, kept as their 64 bits. All arithmetic here is
exact natural-number arithmetic followed by one rounding.
-/

namespace FlowTyping

/-- A binary64 number by its bit pattern: sign, eleven exponent bits, and
fifty-two fraction bits. -/
structure Double where
  bits : UInt64
  deriving DecidableEq, Repr, Inhabited

namespace Double

/-- The nonnegative rational `num / den`, as an unreduced pair. -/
structure Ratio where
  num : Nat
  den : Nat
  deriving DecidableEq, Repr

namespace Ratio

def mul (a b : Ratio) : Ratio := ⟨a.num * b.num, a.den * b.den⟩

def div (a b : Ratio) : Ratio := ⟨a.num * b.den, a.den * b.num⟩

/-- The ratio times a power of a base, the exponent being of either sign. -/
def scale (base : Nat) (a : Ratio) : Int → Ratio
  | .ofNat k => ⟨a.num * Nat.pow base k, a.den⟩
  | .negSucc k => ⟨a.num, a.den * Nat.pow base (k + 1)⟩

/-- The integer nearest to the ratio; of two equally near ones, the even one. -/
def round (a : Ratio) : Nat :=
  let q := a.num / a.den
  let r := a.num % a.den
  if 2 * r < a.den then q
  else if a.den < 2 * r then q + 1
  else q + q % 2

/-- The exponent `k` with `10 ^ k ≤ a < 10 ^ (k + 1)`, for a positive ratio. -/
def decimalExponent (a : Ratio) : Int :=
  let width := fun (n : Nat) => ((Nat.toDigits 10 n).length : Int)
  let k := width a.num - width a.den
  let shifted := a.scale 10 (-k)
  if shifted.den ≤ shifted.num then k else k - 1

end Ratio

/-- The bit pattern of positive infinity, which is also the first pattern that
is no finite magnitude. -/
def infinityBits : Nat := 0x7FF * Nat.pow 2 52

/-- The bits of the double nearest to a nonnegative ratio, ties to even. A
magnitude past the largest finite one has the bits of infinity. -/
def nearestBits (a : Ratio) : Nat :=
  if a.num = 0 then 0
  else
    let low := max ((Nat.log2 a.num : Int) - Nat.log2 a.den - 53) (-1074)
    let trial := a.scale 2 (-low)
    let q := if Nat.pow 2 53 ≤ trial.num / trial.den then low + 1 else low
    let m := (a.scale 2 (-q)).round
    min ((q + 1074).toNat * Nat.pow 2 52 + m) infinityBits

/-- The double of the given sign nearest to a nonnegative ratio. -/
def ofRatio (negative : Bool) (a : Ratio) : Double :=
  ⟨UInt64.ofNat ((if negative then Nat.pow 2 63 else 0) + nearestBits a)⟩

def ofNat (n : Nat) : Double := ofRatio false ⟨n, 1⟩

def isNegative (x : Double) : Bool := Nat.pow 2 63 ≤ x.bits.toNat

def magnitudeBits (x : Double) : Nat := x.bits.toNat % Nat.pow 2 63

def isFinite (x : Double) : Bool := x.magnitudeBits < infinityBits

def isZero (x : Double) : Bool := x.magnitudeBits = 0

/-- Significand `m` and exponent `q`: the magnitude is `m * 2 ^ q`. -/
def decompose (x : Double) : Nat × Int :=
  let biased : Nat := x.magnitudeBits / Nat.pow 2 52
  let fraction : Nat := x.magnitudeBits % Nat.pow 2 52
  if biased = 0 then (fraction, -1074)
  else (fraction + Nat.pow 2 52, (biased : Int) - 1075)

/-- The magnitude of a finite double, exactly. -/
def magnitude (x : Double) : Ratio :=
  Ratio.scale 2 ⟨x.decompose.1, 1⟩ x.decompose.2

def neg (x : Double) : Double :=
  ⟨UInt64.ofNat (if x.isNegative then x.magnitudeBits else x.magnitudeBits + Nat.pow 2 63)⟩

/-- The bit pattern as sixteen lower-case hexadecimal digits. -/
def hex (x : Double) : String :=
  let digits := Nat.toDigits 16 x.bits.toNat
  String.ofList (List.replicate (16 - digits.length) '0' ++ digits)

end Double

/-!
Decimal texts of doubles: the fewest digits that read back as the same number,
written positionally or with an exponent, and a fixed number of decimals.
-/

namespace Double

/-- The ends of the interval of reals that round to a positive double, and
whether the ends belong to it: they do when the significand is even. -/
def roundingInterval (x : Double) : Ratio × Ratio × Bool :=
  let (m, q) := x.decompose
  let low :=
    if m = Nat.pow 2 52 ∧ -1074 < q then Ratio.scale 2 ⟨4 * m - 1, 1⟩ (q - 2)
    else Ratio.scale 2 ⟨2 * m - 1, 1⟩ (q - 1)
  (low, Ratio.scale 2 ⟨2 * m + 1, 1⟩ (q - 1), m % 2 = 0)

def Ratio.le (a b : Ratio) : Bool := a.num * b.den ≤ b.num * a.den

def Ratio.lt (a b : Ratio) : Bool := a.num * b.den < b.num * a.den

/-- Whether a real number rounds to the positive double `x`. -/
def roundsTo (x : Double) (a : Ratio) : Bool :=
  let (low, high, closed) := x.roundingInterval
  if closed then low.le a && a.le high else low.lt a && a.lt high

/-- Of the two points around `x` on the grid of multiples of `10 ^ e`, the one
that reads back as `x`; when both do, the nearer one. -/
def gridPoint? (x : Double) (e : Int) : Option Nat :=
  let scaled := x.magnitude.scale 10 (-e)
  let below := scaled.num / scaled.den
  let point := fun (d : Nat) => Ratio.scale 10 ⟨d, 1⟩ e
  match x.roundsTo (point below), x.roundsTo (point (below + 1)) with
  | true, true => some scaled.round
  | true, false => some below
  | false, true => some (below + 1)
  | false, false => none

/-- The first decimal, by number of digits, that reads back as `x`. -/
def searchDigits (x : Double) (k : Int) : List Nat → Nat × Int
  | [] => (0, 0)
  | n :: more =>
      match x.gridPoint? (k - n) with
      | some d => (d, k - n)
      | none => searchDigits x k more

def dropZeros : Nat → Nat × Int → Nat × Int
  | 0, d => d
  | fuel + 1, (d, e) => if d % 10 = 0 then dropZeros fuel (d / 10, e + 1) else (d, e)

/-- Digits `d` and exponent `e` of the shortest decimal `d * 10 ^ e` that reads
back as the finite magnitude of `x`; zero has no digits. -/
def shortest (x : Double) : Nat × Int :=
  if x.isZero then (0, 0)
  else dropZeros 17 (searchDigits x x.magnitude.decimalExponent (List.range 17))

private def zeros (n : Nat) : List Char := List.replicate n '0'

/-- The shortest decimal in positional notation, with no point when there is
nothing after it. -/
def positional (x : Double) : String :=
  let (d, e) := x.shortest
  let digits := Nat.toDigits 10 d
  let body :=
    match e with
    | .ofNat k => if d = 0 then ['0'] else digits ++ zeros k
    | .negSucc k =>
        let places := k + 1
        let padded := zeros (places + 1 - digits.length) ++ digits
        padded.take (padded.length - places) ++ '.' :: padded.drop (padded.length - places)
  String.ofList (if x.isNegative then '-' :: body else body)

end Double

/-- A nonnegative ratio with a fixed number of decimals; a half goes to the even
neighbour. -/
def Double.Ratio.fixed (places : Nat) (a : Double.Ratio) : String :=
  let scaled := (a.scale 10 places).round
  let digits := Nat.toDigits 10 scaled
  let padded := List.replicate (places + 1 - digits.length) '0' ++ digits
  let point := padded.length - places
  if places = 0 then String.ofList padded
  else String.ofList (padded.take point ++ '.' :: padded.drop point)

end FlowTyping
