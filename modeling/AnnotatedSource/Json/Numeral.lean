/-!
Number literals of JSON: a sign, a whole part, the digits after a point, and an exponent.  A literal
is read with as many digits as fit a 64-bit word and then scaled, both roundings being to a
double; it has no value when the result is not finite.
-/

set_option autoImplicit false
set_option relaxedAutoImplicit false

namespace AnnotatedSource

structure Numeral where
  negative : Bool
  whole : Nat
  fraction : List Nat
  exponent : Option Int
deriving DecidableEq

namespace Numeral

def ofNat (n : Nat) : Numeral := ⟨false, n, [], none⟩

def natural? (literal : Numeral) : Option Nat :=
  if literal.negative || !literal.fraction.isEmpty || literal.exponent.isSome then none
  else some literal.whole

/-- The number of values a 64-bit word may take. -/
abbrev wordBound : Nat := 0x10000000000000000

/-- The leading digits of a number that fit a word, and the number of digits behind them. -/
def leadingDigits (n : Nat) : Nat × Nat :=
  if fits : n < wordBound then (n, 0)
  else
    have : n / 10 < n := by
      unfold wordBound at fits
      omega
    let (leading, behind) := leadingDigits (n / 10)
    (leading, behind + 1)

/-- The digits after the point that still fit a word, each of which lowers the exponent. -/
def appendFraction (significand : Nat) (exponent : Int) : List Nat → Nat × Int
  | [] => (significand, exponent)
  | digit :: rest =>
    let longer := significand * 10 + digit
    if longer < wordBound then appendFraction longer (exponent - 1) rest else (significand, exponent)

/-- A natural number rounded to 53 significant bits, a tie going to the even neighbour. -/
def roundToDouble (n : Nat) : Nat :=
  let unit := Nat.pow 2 (n.log2 + 1 - 53)
  let quotient := n / unit
  let rest := n % unit
  let up := unit < 2 * rest || (unit == 2 * rest && quotient % 2 == 1)
  (if up then quotient + 1 else quotient) * unit

/-- The least magnitude that rounds to infinity. -/
def infinite : Nat := (Nat.pow 2 54 - 1) * Nat.pow 2 970

def isFinite (literal : Numeral) : Bool :=
  let (leading, behind) := leadingDigits literal.whole
  let (significand, point) := appendFraction leading behind literal.fraction
  let exponent := point + literal.exponent.getD 0
  significand == 0 || exponent < 0 ||
    (exponent ≤ 308 &&
      roundToDouble significand * roundToDouble (Nat.pow 10 exponent.toNat) < infinite)

def digits? (text : List Char) : Option (List Nat × List Char) :=
  match text.takeWhile Char.isDigit with
  | [] => none
  | run => some (run.map fun c => c.toNat - '0'.toNat, text.dropWhile Char.isDigit)

def ofDigits (digits : List Nat) : Nat := digits.foldl (fun n digit => 10 * n + digit) 0

/-- The whole part at the front of a text, which has no needless zero in front, and the text after
it. -/
def whole? (text : List Char) : Option (Nat × List Char) :=
  match digits? text with
  | some (0 :: _ :: _, _) => none
  | some (digits, rest) => some (ofDigits digits, rest)
  | none => none

/-- The digits after a point at the front of a text, if there is one, and the text after them. -/
def fraction? : List Char → Option (List Nat × List Char)
  | '.' :: text => digits? text
  | text => some ([], text)

def exponent? : List Char → Option (Option Int)
  | [] => some none
  | mark :: text =>
    if mark = 'e' ∨ mark = 'E' then
      let (negative, text) :=
        match text with
        | '-' :: rest => (true, rest)
        | '+' :: rest => (false, rest)
        | rest => (false, rest)
      match digits? text with
      | some (digits, []) =>
        let magnitude : Int := ofDigits digits
        some (some (if negative then -magnitude else magnitude))
      | _ => none
    else none

def ofChars? (text : List Char) : Option Numeral := do
  let (negative, text) :=
    match text with
    | '-' :: rest => (true, rest)
    | rest => (false, rest)
  let (whole, text) ← whole? text
  let (fraction, text) ← fraction? text
  let exponent ← exponent? text
  return ⟨negative, whole, fraction, exponent⟩

end Numeral

end AnnotatedSource
