/-!
The shortest decimal of a double. A finite double `m · 2 ^ q` stands for the interval of reals
that round to it under round-half-to-even: the interval reaches halfway to each neighbouring
double and holds its ends exactly when `m` is even. The shortest decimal is the decimal with the
fewest significant digits in that interval; of two with that many digits the one nearer the
double wins, and an exact tie goes to the even digit string. All arithmetic is exact on natural
numbers.

For a count of `n` digits only the two grid points next to the double can lie in the interval,
since the interval is convex and holds the double, so the search tests those two for
`n = 1, 2, …, 17`; seventeen digits always suffice for a double.
-/

namespace Lox

/-- A finite decimal `digits · 10 ^ exponent`. -/
structure Decimal where
  digits : Nat
  exponent : Int
  deriving Repr, BEq, DecidableEq, Inhabited

/-- A double split into sign, integer significand and binary exponent: `significand · 2 ^ exponent`. -/
structure BinaryParts where
  negative : Bool
  significand : Nat
  exponent : Int
  -- The double below is nearer than the double above: the significand is a bare power of two and
  -- the exponent is not the smallest.
  narrowBelow : Bool
  deriving Repr

namespace BinaryParts

/-- The parts of a finite double, read off its bits. -/
def ofFloat (x : Float) : BinaryParts :=
  let bits : Nat := x.toBits.toNat
  let biased : Nat := (bits / Nat.pow 2 52) % 2048
  let fraction : Nat := bits % Nat.pow 2 52
  let negative := decide (bits ≥ Nat.pow 2 63)
  if biased = 0 then
    ⟨negative, fraction, -1074, false⟩
  else
    ⟨negative, fraction + Nat.pow 2 52, (biased : Int) - 1075, fraction == 0 && decide (biased ≥ 2)⟩

end BinaryParts

namespace Decimal

/-- Compares `c · 10 ^ k` with `n · 2 ^ s` exactly, by clearing both denominators. -/
def compareScaled (c : Nat) (k : Int) (n : Nat) (s : Int) : Ordering :=
  compare (c * Nat.pow 10 k.toNat * Nat.pow 2 (-s).toNat) (n * Nat.pow 2 s.toNat * Nat.pow 10 (-k).toNat)

/-- The integer part of `n · 2 ^ s / 10 ^ k`. -/
def floorScaled (n : Nat) (s : Int) (k : Int) : Nat :=
  (n * Nat.pow 2 s.toNat * Nat.pow 10 (-k).toNat) / (Nat.pow 2 (-s).toNat * Nat.pow 10 k.toNat)

/-- The power of ten of the leading digit of `n · 2 ^ s` for `n > 0`: the `e` with
`10 ^ e ≤ n · 2 ^ s < 10 ^ (e + 1)`. The estimate from the bit length is off by at most one
either way, and the comparisons settle it. -/
def leadingExponent (n : Nat) (s : Int) : Int :=
  let estimate := ((Nat.log2 n : Int) + s) * 1233 / 4096
  let up := fun e : Int => if compareScaled 1 (e + 1) n s != .gt then e + 1 else e
  let raised := up (up estimate)
  if compareScaled 1 raised n s == .gt then raised - 1 else raised

/-- Removes trailing zero digits, raising the exponent; `fuel` bounds the number removed. -/
def trimZeros : Nat → Nat → Int → Decimal
  | 0, c, k => ⟨c, k⟩
  | fuel + 1, c, k =>
    if c ≠ 0 ∧ c % 10 = 0 then trimZeros fuel (c / 10) (k + 1) else ⟨c, k⟩

/-- The decimal `c · 10 ^ k` without trailing zeros. -/
def normal (c : Nat) (k : Int) : Decimal := trimZeros c c k

/-- The rounding interval of a double `m · 2 ^ q`, scaled by `2 ^ (2 - q)`: the double is
`4m`, its upper end `4m + 2`, its lower end `4m - 2` or, below a power of two, `4m - 1`. -/
structure Interval where
  value : Nat
  low : Nat
  high : Nat
  scale : Int
  closed : Bool

def Interval.ofParts (p : BinaryParts) : Interval :=
  let m := p.significand
  ⟨4 * m, if p.narrowBelow then 4 * m - 1 else 4 * m - 2, 4 * m + 2, p.exponent - 2,
    m % 2 == 0⟩

/-- Whether `c · 10 ^ k` lies in the interval. -/
def Interval.holds (r : Interval) (c : Nat) (k : Int) : Bool :=
  let below := compareScaled c k r.low r.scale
  let above := compareScaled c k r.high r.scale
  if r.closed then below != .lt && above != .gt else below == .gt && above == .lt

/-- Of the two grid points `c · 10 ^ k` and `(c + 1) · 10 ^ k` around the double, the nearer, an
exact tie going to the even one. -/
def Interval.nearer (r : Interval) (c : Nat) (k : Int) : Nat :=
  match compareScaled (2 * c + 1) k (2 * r.value) r.scale with
  | .gt => c
  | .lt => c + 1
  | .eq => if c % 2 = 0 then c else c + 1

/-- The search over digit counts `n, n + 1, …`: at count `n` the grid has step `10 ^ k` with
`k = e - n + 1`, where `e` is the leading exponent. `left` counts the counts still to try. -/
def Interval.search (r : Interval) (e : Int) : Nat → Nat → Decimal
  | 0, _ => ⟨0, 0⟩
  | left + 1, n =>
    let k := e - (n : Int) + 1
    let c := floorScaled r.value r.scale k
    if compareScaled c k r.value r.scale == .eq then normal c k
    else
      let lowIn := r.holds c k
      let highIn := r.holds (c + 1) k
      if lowIn && highIn then normal (r.nearer c k) k
      else if lowIn then normal c k
      else if highIn then normal (c + 1) k
      else if left = 0 then normal (r.nearer c k) k
      else r.search e left (n + 1)

/-- The shortest decimal of the magnitude of a finite double; zero for a zero. An integer below
`2 ^ 53` is its own shortest decimal, since the grid of any fewer digits is at least ten apart
while the interval is at most one wide. -/
def ofParts (p : BinaryParts) : Decimal :=
  if p.significand = 0 then ⟨0, 0⟩
  else if p.exponent ≤ 0 ∧ p.significand % Nat.pow 2 (-p.exponent).toNat = 0 then
    normal (p.significand / Nat.pow 2 (-p.exponent).toNat) 0
  else
    let r := Interval.ofParts p
    r.search (leadingExponent r.value r.scale) 17 1

def shortest (x : Float) : Decimal := ofParts (BinaryParts.ofFloat x)

/-- The digits as text, most significant first; `"0"` for zero. -/
def digitText (d : Decimal) : String := Nat.repr d.digits

def leading (d : Decimal) : Int := (d.digitText.length : Int) - 1 + d.exponent

end Decimal

end Lox
