import Lox.Number.Shortest

/-!
Reading decimal numerals into doubles. A numeral's exact value is rounded to the nearest double,
ties to even; magnitudes far outside the range of doubles are settled as zero or infinity before
any power of ten is formed. The float syntax accepted by `readFloat?` is the common one of
decimal literals: an optional sign, digits with an optional fraction or a fraction alone, an
optional exponent, single underscores between digits, and the words `inf`, `infinity` and `nan`
in any case, all between optional blanks.
-/

namespace Lox

namespace Decimal

/-- The double nearest to the decimal, negated when `negative` holds. -/
def toFloat (d : Decimal) (negative : Bool) : Float :=
  let size : Int := (Nat.repr d.digits).length
  let magnitude : Float :=
    if d.digits = 0 then 0.0
    else if size + d.exponent < -400 then 0.0
    else if size - 1 + d.exponent > 400 then Float.ofScientific 1 false 400
    else if d.exponent < 0 then Float.ofScientific d.digits true d.exponent.natAbs
    else Float.ofScientific d.digits false d.exponent.toNat
  if negative then -magnitude else magnitude

def digitsValue (ds : List Char) : Nat :=
  ds.foldl (fun acc c => 10 * acc + (c.toNat - '0'.toNat)) 0

/-- The decimal of a numeral with integer digits, fraction digits and an exponent. -/
def ofNumeral (whole fraction : List Char) (exponent : Int) : Decimal :=
  ⟨digitsValue (whole ++ fraction), exponent - fraction.length⟩

end Decimal

namespace FloatText

def isBlank (c : Char) : Bool :=
  c = ' ' || c = '\t' || c = '\n' || c = '\r' || c = '\x0b' || c = '\x0c'

/-- A nonempty run of digits in which single underscores may stand between two digits; the
digits without the underscores and the rest. An underscore that does not stand between two
digits can stand nowhere in a float literal, so the run then fails. -/
def digitRun : List Char → Option (List Char × List Char)
  | [] => none
  | [c] => if c.isDigit then some ([c], []) else none
  | c :: '_' :: tail@(d :: _) =>
    if c.isDigit && d.isDigit then (digitRun tail).map fun (ds, rest) => (c :: ds, rest) else none
  | c :: tail@(d :: _) =>
    if !c.isDigit then none
    else if d.isDigit then (digitRun tail).map fun (ds, rest) => (c :: ds, rest)
    else if d = '_' then none
    else some ([c], tail)

def optionalRun (cs : List Char) : Option (List Char × List Char) :=
  match cs with
  | c :: _ => if c.isDigit then digitRun cs else some ([], cs)
  | [] => some ([], [])

/-- An optional exponent, `e` or `E` then an optional sign and digits. -/
def exponentPart : List Char → Option (Int × List Char)
  | e :: rest =>
    if e = 'e' || e = 'E' then
      let (negative, body) :=
        match rest with
        | '-' :: b => (true, b)
        | '+' :: b => (false, b)
        | b => (false, b)
      match digitRun body with
      | some (ds, after) =>
        let v : Int := Decimal.digitsValue ds
        some (if negative then -v else v, after)
      | none => none
    else some (0, e :: rest)
  | [] => some (0, [])

/-- The decimal spelled by a whole unsigned numeral, if it is one. -/
def unsignedDecimal? (cs : List Char) : Option Decimal := do
  let (whole, afterWhole) ← optionalRun cs
  let (fraction, afterFraction) ←
    match afterWhole with
    | '.' :: rest => optionalRun rest
    | rest => some ([], rest)
  if whole.isEmpty && fraction.isEmpty then none
  else
    let (exponent, rest) ← exponentPart afterFraction
    if rest.isEmpty then some (Decimal.ofNumeral whole fraction exponent) else none

end FloatText

/-- The double that a float literal denotes, if the text is one. -/
def readFloat? (text : String) : Option Float :=
  let cs := ((text.toList.dropWhile FloatText.isBlank).reverse.dropWhile FloatText.isBlank).reverse
  let (negative, body) :=
    match cs with
    | '-' :: b => (true, b)
    | '+' :: b => (false, b)
    | b => (false, b)
  let word := String.ofList (body.map Char.toLower)
  if word = "inf" || word = "infinity" then
    some (if negative then -(1.0 / 0.0) else 1.0 / 0.0)
  else if word = "nan" then some (0.0 / 0.0)
  else (FloatText.unsignedDecimal? body).map (·.toFloat negative)

end Lox
