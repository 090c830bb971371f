import AnnotatedSource.Json.Numeral

/-!
Lexemes of JSON texts.  A scan takes the text character by character and holds the lexeme it is in;
a word or a number is over at the first character that cannot belong to it.
-/

set_option autoImplicit false
set_option relaxedAutoImplicit false

namespace AnnotatedSource.Json

/-- A lexeme.  A string has no value when it holds half of a surrogate pair. -/
inductive Lexeme where
  | beginArray
  | endArray
  | beginObject
  | endObject
  | colon
  | comma
  | null
  | bool (value : Bool)
  | number (literal : Numeral)
  | string (value : Option String)
deriving DecidableEq

namespace Lexeme

def ofMark? : Char → Option Lexeme
  | '[' => some .beginArray
  | ']' => some .endArray
  | '{' => some .beginObject
  | '}' => some .endObject
  | ':' => some .colon
  | ',' => some .comma
  | _ => none

def ofWord? (word : List Char) : Option Lexeme :=
  if word = ['n', 'u', 'l', 'l'] then some .null
  else if word = ['t', 'r', 'u', 'e'] then some (.bool true)
  else if word = ['f', 'a', 'l', 's', 'e'] then some (.bool false)
  else none

def isHighHalf (code : Nat) : Bool := 0xD800 ≤ code && code < 0xDC00

def isLowHalf (code : Nat) : Bool := 0xDC00 ≤ code && code < 0xE000

/-- The characters of a string given by codes, in which the halves of every surrogate pair must
meet. -/
def joinHalves? : List Nat → Option (List Char)
  | [] => some []
  | [code] => if isHighHalf code || isLowHalf code then none else some [Char.ofNat code]
  | code :: next :: rest =>
    if isHighHalf code then
      if isLowHalf next then do
        let chars ← joinHalves? rest
        return Char.ofNat (0x10000 + (code - 0xD800) * 0x400 + (next - 0xDC00)) :: chars
      else none
    else if isLowHalf code then none
    else do
      let chars ← joinHalves? (next :: rest)
      return Char.ofNat code :: chars

def ofEscape? : Char → Option Nat
  | '"' => some 0x22
  | '\\' => some 0x5C
  | '/' => some 0x2F
  | 'b' => some 0x8
  | 'f' => some 0xC
  | 'n' => some 0xA
  | 'r' => some 0xD
  | 't' => some 0x9
  | _ => none

def hexDigit? (c : Char) : Option Nat :=
  if c.isDigit then some (c.toNat - '0'.toNat)
  else if 'a' ≤ c ∧ c ≤ 'f' then some (c.toNat - 'a'.toNat + 10)
  else if 'A' ≤ c ∧ c ≤ 'F' then some (c.toNat - 'A'.toNat + 10)
  else none

end Lexeme

/-- Where a scan stands, with what it has read of the lexeme it is in, the last character first. -/
inductive Scan.Place where
  | between
  | word (read : List Char)
  | number (read : List Char)
  | string (read : List Nat)
  | escape (read : List Nat)
  | hex (read : List Nat) (digits value : Nat)

/-- A scan: where it stands, and the lexemes it has found, the last one first. -/
structure Scan where
  place : Scan.Place
  found : List Lexeme

namespace Scan

def start : Scan := ⟨.between, []⟩

/-- The scan that begins a lexeme at a character, or passes over a blank one. -/
def begin? (found : List Lexeme) (c : Char) : Option Scan :=
  if c = ' ' ∨ c = '\n' ∨ c = '\r' ∨ c = '\t' then some ⟨.between, found⟩
  else if c = '"' then some ⟨.string [], found⟩
  else if c = '-' ∨ c.isDigit then some ⟨.number [c], found⟩
  else if c.isLower then some ⟨.word [c], found⟩
  else (Lexeme.ofMark? c).map fun lexeme => ⟨.between, lexeme :: found⟩

def end? (scan : Scan) : Option (List Lexeme) :=
  match scan.place with
  | .between => some scan.found
  | .word read => (Lexeme.ofWord? read.reverse).map (· :: scan.found)
  | .number read => (Numeral.ofChars? read.reverse).map fun literal => .number literal :: scan.found
  | _ => none

def continuesNumber (c : Char) : Bool :=
  c.isDigit || c = '+' || c = '-' || c = '.' || c = 'e' || c = 'E'

def step? (scan : Scan) (c : Char) : Option Scan :=
  match scan.place with
  | .between => begin? scan.found c
  | .word read =>
    if c.isLower then some { scan with place := .word (c :: read) }
    else do begin? (← scan.end?) c
  | .number read =>
    if continuesNumber c then some { scan with place := .number (c :: read) }
    else do begin? (← scan.end?) c
  | .string read =>
    if c = '"' then
      let value := (Lexeme.joinHalves? read.reverse).map String.ofList
      some ⟨.between, .string value :: scan.found⟩
    else if c = '\\' then some { scan with place := .escape read }
    else if c.toNat < 0x20 then none
    else some { scan with place := .string (c.toNat :: read) }
  | .escape read =>
    if c = 'u' then some { scan with place := .hex read 0 0 }
    else (Lexeme.ofEscape? c).map fun code => { scan with place := .string (code :: read) }
  | .hex read digits value => do
    let code := 16 * value + (← Lexeme.hexDigit? c)
    if digits = 3 then some { scan with place := .string (code :: read) }
    else some { scan with place := .hex read (digits + 1) code }

end Scan

def lexemes? (text : List Char) : Option (List Lexeme) := do
  let scan ← text.foldlM Scan.step? Scan.start
  return (← scan.end?).reverse

end AnnotatedSource.Json
