import GrammarInduction.Binary64.Basic

/-!
Decimal text of floating-point numbers. A number is written with the fewest digits that read back
to it; a text is read as the number nearest to it.
-/
namespace GrammarInduction
namespace Binary64

/-- A positive finite number as `significand * 2 ^ exponent`. The gap to the number below is
`narrow` where it is half the gap to the number above. -/
structure Dyadic where
  significand : Nat
  exponent : Int
  narrow : Bool

def dyadic (magnitude : Nat) : Dyadic :=
  let e := magnitude / exponentWeight
  let f := magnitude % exponentWeight
  if e = 0 then ⟨f, -1074, false⟩ else ⟨exponentWeight + f, e - 1075, f == 0 && 1 < e⟩

/-- A power of ten; one for a negative exponent. -/
def pow10 (e : Int) : Nat := Nat.pow 10 e.toNat

/-- Compares `a * 10 ^ i` with `n * 2 ^ j`. -/
def compareScaled (a : Nat) (i : Int) (n : Nat) (j : Int) : Ordering :=
  compare (a * pow10 i * pow2 (-j)) (n * pow2 j * pow10 (-i))

/-- Whether `digits * 10 ^ scale` is nearer to the number than to its neighbours. An end halfway
between two numbers belongs to the one with the even significand. -/
def Dyadic.readsBack (x : Dyadic) (digits : Nat) (scale : Int) : Bool :=
  let low := if x.narrow then 4 * x.significand - 1 else 4 * x.significand - 2
  let high := 4 * x.significand + 2
  let ends := x.significand % 2 == 0
  let below := compareScaled digits scale low (x.exponent - 2)
  let above := compareScaled digits scale high (x.exponent - 2)
  (below == .gt || (ends && below == .eq)) && (above == .lt || (ends && above == .eq))

/-- The number of digits in front of the point; not positive for a number below one tenth. -/
def Dyadic.places (x : Dyadic) : Int :=
  let guess : Int := ((x.significand.log2 : Int) + x.exponent) * 30103 / 100000
  -- The estimate is at most one too small on either side of a power of ten.
  (List.range 4).foldl
    (fun k _ => if compareScaled 1 k x.significand x.exponent == .gt then k else k + 1) (guess - 1)

/-- The multiple of `10 ^ scale` nearest to the number among those that read back, the larger of
two equally near ones. -/
def Dyadic.onGrid? (x : Dyadic) (scale : Int) : Option Nat :=
  let num := x.significand * pow2 x.exponent * pow10 (-scale)
  let den := pow2 (-x.exponent) * pow10 scale
  let d := num / den
  match x.readsBack d scale, x.readsBack (d + 1) scale with
  | true, true => some (if 2 * num < (2 * d + 1) * den then d else d + 1)
  | true, false => some d
  | false, true => some (d + 1)
  | false, false => none

/-- Digits and scale of the shortest decimal that reads back. Seventeen digits suffice; the exact
value stands last. -/
def Dyadic.shortest (x : Dyadic) : Nat × Int :=
  let k := x.places
  match (List.range 17).findSome? fun n =>
      (x.onGrid? (k - (n + 1 : Nat))).map fun d => (d, k - (n + 1 : Nat)) with
  | some r => r
  | none => (x.significand * pow2 x.exponent * Nat.pow 5 (-x.exponent).toNat, min x.exponent 0)

def zeros (n : Nat) : String := String.ofList (List.replicate n '0')

def dropZeros (ds : List Char) : List Char := (ds.reverse.dropWhile (· == '0')).reverse

/-- Writes `digits * 10 ^ scale`: with a point and at least one digit after it from one
ten-thousandth up to sixteen places, with an exponent otherwise. -/
def layout (digits : Nat) (scale : Int) : String :=
  let ds := Nat.toDigits 10 digits
  let point : Int := scale + ds.length
  let kept := dropZeros ds
  if -4 < point ∧ point ≤ 16 then
    if point ≤ 0 then "0." ++ zeros (-point).toNat ++ String.ofList kept
    else
      let whole := kept.take point.toNat
      let fraction := kept.drop point.toNat
      String.ofList whole ++ zeros (point.toNat - whole.length) ++ "." ++
        (if fraction.isEmpty then "0" else String.ofList fraction)
  else
    String.ofList (kept.take 1) ++ (if kept.length ≤ 1 then "" else ".") ++
      String.ofList (kept.drop 1) ++ "e" ++ toString (point - 1)

def text (x : Binary64) : String :=
  if x.isNaN then "NaN"
  else
    let unsigned :=
      if x.magnitude = infiniteMagnitude then "inf"
      else if x.magnitude = 0 then "0.0"
      else
        let (digits, scale) := (dyadic x.magnitude).shortest
        layout digits scale
    if x.isNegative then "-" ++ unsigned else unsigned

example : (ofNat 0).text = "0.0" ∧ (-ofNat 0).text = "-0.0" ∧ (ofNat 100).text = "100.0" := by
  decide +kernel
example : (ofRatio 23 32).text = "0.71875" ∧ (ofRatio 1 10).text = "0.1" := by decide +kernel
example : (ofNat (pow10 15)).text = "1000000000000000.0" ∧ (ofNat (pow10 16)).text = "1e16" := by
  decide +kernel
example : (ofNat (pow2 64 - 1)).text = "1.8446744073709552e19" := by decide +kernel

def digitValue (ds : List Char) : Nat := ds.foldl (fun n d => 10 * n + (d.toNat - 48)) 0

/-- Splits off a sign; true stands for minus. -/
def splitSign : List Char → Bool × List Char
  | '+' :: rest => (false, rest)
  | '-' :: rest => (true, rest)
  | cs => (false, cs)

/-- Reads the exponent part of a decimal: nothing, or a mark, a sign and digits. -/
def readExponent? : List Char → Option Int
  | [] => some 0
  | c :: rest =>
    if c.toLower = 'e' then
      let (negative, ds) := splitSign rest
      if ds ≠ [] ∧ ds.all Char.isDigit then
        some (if negative then -(digitValue ds : Int) else digitValue ds)
      else none
    else none

/-- The number nearest to `digits * 10 ^ scale`. Beyond the range of the format no power is
computed. -/
def ofDecimal (digits : Nat) (scale : Int) : Binary64 :=
  let point := scale + (Nat.toDigits 10 digits).length
  if digits = 0 ∨ point < -400 then ofNat 0
  else if 400 < point then infinity
  else ofRatio (digits * pow10 scale) (pow10 (-scale))

def readUnsigned? (cs : List Char) : Option Binary64 :=
  let word := String.ofList (cs.map Char.toLower)
  if word = "nan" then some nan
  else if word = "inf" ∨ word = "infinity" then some infinity
  else
    let whole := cs.takeWhile Char.isDigit
    let rest := cs.dropWhile Char.isDigit
    let (fraction, rest) := match rest with
      | '.' :: rest => (rest.takeWhile Char.isDigit, rest.dropWhile Char.isDigit)
      | rest => ([], rest)
    if whole = [] ∧ fraction = [] then none
    else (readExponent? rest).map fun e =>
      ofDecimal (digitValue (whole ++ fraction)) (e - fraction.length)

def ofText? (s : String) : Option Binary64 :=
  let (negative, cs) := splitSign s.toList
  (readUnsigned? cs).map fun x => if negative then -x else x

example : ofText? "0.71875" = some (ofRatio 23 32) ∧ ofText? "-0.0" = some (-ofNat 0) ∧
    ofText? "1.8446744073709552e19" = some (ofNat (pow2 64 - 1)) := by decide +kernel
example : ofText? "inf" = some infinity ∧ ofText? "" = none ∧ ofText? "." = none := by
  decide +kernel

end Binary64
end GrammarInduction
