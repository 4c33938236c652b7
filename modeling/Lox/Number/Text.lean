import Lox.Number.Shortest

/-!
Number text: a double is written from its shortest decimal, positionally when the power of ten
of its leading digit lies in a range and with an exponent otherwise. A `NumberStyle` record holds
every choice a format makes; Lox values and JSON documents each have one.
-/

namespace Lox

/-- The choices a number format makes beyond the digits themselves. -/
structure NumberStyle where
  plainLow : Int
  plainHigh : Int
  -- A positional integer ends in `.0`.
  pointZero : Bool
  -- A mantissa of one digit in exponent form is written `d.0`.
  mantissaPointZero : Bool
  exponentMark : String
  -- A nonnegative exponent carries `+`.
  exponentPlus : Bool
  exponentDigits : Nat
  nanText : String
  -- The text of positive infinity; negative infinity has a `-` before it.
  infinityText : String

namespace NumberStyle

/-- Lox numbers: positional from `1e-3` up to below `1e7` with no `.0` on integers, otherwise
`d.rE<exp>` with at least one digit after the point. -/
def lox : NumberStyle :=
  ⟨-3, 7, false, true, "E", false, 1, "NaN", "Infinity"⟩

/-- Numbers in JSON documents: positional from `1e-4` up to below `1e16` with `.0` on integers,
otherwise `d.re+XX` with a two-digit exponent at least. -/
def json : NumberStyle :=
  ⟨-4, 16, true, false, "e", true, 2, "NaN", "Infinity"⟩

/-- Numbers as the interpreter's host writes a double it shows: the layout of `json`, with
`nan` and `inf` for the values outside the reals. -/
def shown : NumberStyle := { json with nanText := "nan", infinityText := "inf" }

def zeros (n : Nat) : String := String.ofList (List.replicate n '0')

/-- The positional text of a decimal with digit text `ds` and leading power `e`. -/
def positional (st : NumberStyle) (ds : String) (e : Int) : String :=
  let point := e + 1
  let len := (ds.length : Int)
  if point ≤ 0 then "0." ++ zeros (-point).toNat ++ ds
  else if len ≤ point then
    ds ++ zeros (point - len).toNat ++ (if st.pointZero then ".0" else "")
  else
    String.ofList (ds.toList.take point.toNat) ++ "." ++ String.ofList (ds.toList.drop point.toNat)

/-- The exponent text of a decimal with digit text `ds` and leading power `e`. -/
def scientific (st : NumberStyle) (ds : String) (e : Int) : String :=
  let cs := ds.toList
  let mantissa :=
    match cs with
    | [] => "0"
    | [d] => String.ofList [d] ++ (if st.mantissaPointZero then ".0" else "")
    | d :: rest => String.ofList [d] ++ "." ++ String.ofList rest
  let magnitude := Nat.repr e.natAbs
  let padded := zeros (st.exponentDigits - magnitude.length) ++ magnitude
  let sign := if e < 0 then "-" else if st.exponentPlus then "+" else ""
  mantissa ++ st.exponentMark ++ sign ++ padded

/-- The text of a decimal magnitude: zero and leading powers in range positionally, others with
an exponent. -/
def magnitude (st : NumberStyle) (d : Decimal) : String :=
  if d.digits = 0 then (if st.pointZero then "0.0" else "0")
  else if st.plainLow ≤ d.leading ∧ d.leading < st.plainHigh then
    st.positional d.digitText d.leading
  else st.scientific d.digitText d.leading

def render (st : NumberStyle) (x : Float) : String :=
  if x.isNaN then st.nanText
  else
    let p := BinaryParts.ofFloat x
    let sign := if p.negative then "-" else ""
    if x.isInf then sign ++ st.infinityText
    else sign ++ st.magnitude (Decimal.ofParts p)

end NumberStyle

end Lox
