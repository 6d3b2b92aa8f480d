import VantaCore.Lib.Json.Strings

/-! # JSON texts

The values of a JSON text (`JsonTree`), an object with its entries in the order of the text and
keys as they come, the printer of `json.dumps` (`print`) and the scanner of `json.loads` (`parse`).
The finite floats are a parameter: a type with the `repr` of Python and the reading of a number
with a fraction or an exponent (`FloatText`). -/

namespace VantaCore.Lib.Json.Text

open VantaCore.Lib.Json.Strings

/-! ### Numbers -/

/-- `-` or nothing. -/
def scanSign : List Char → List Char × List Char
  | '-' :: cs => (['-'], cs)
  | cs => ([], cs)

/-- `0`, or digits that do not start with it. -/
def scanInt : List Char → Option (List Char × List Char)
  | [] => none
  | '0' :: cs => some (['0'], cs)
  | c :: cs =>
    if c.isDigit then some ((c :: cs).takeWhile Char.isDigit, (c :: cs).dropWhile Char.isDigit)
    else none

/-- `.` and digits, or nothing. -/
def scanFrac : List Char → List Char × List Char
  | '.' :: c :: cs =>
    if c.isDigit then
      ('.' :: (c :: cs).takeWhile Char.isDigit, (c :: cs).dropWhile Char.isDigit)
    else ([], '.' :: c :: cs)
  | cs => ([], cs)

/-- A sign, or nothing. -/
def scanExpSign : List Char → List Char × List Char
  | '+' :: cs => (['+'], cs)
  | '-' :: cs => (['-'], cs)
  | cs => ([], cs)

/-- `e` or `E`, a sign and digits, or nothing. -/
def scanExp : List Char → List Char × List Char
  | [] => ([], [])
  | c :: cs =>
    if c = 'e' ∨ c = 'E' then
      let (sign, ds) := scanExpSign cs
      match ds with
      | d :: _ =>
        if d.isDigit then
          (c :: sign ++ ds.takeWhile Char.isDigit, ds.dropWhile Char.isDigit)
        else ([], c :: cs)
      | [] => ([], c :: cs)
    else ([], c :: cs)

/-- A number of a text: an integer, or the literal of a float. -/
inductive Number where
  | int (z : ℤ)
  | float (literal : List Char)
deriving DecidableEq, Repr

/-- The integer of a sign and digits. -/
def intValue (sign digits : List Char) : ℤ :=
  if sign = [] then Nat.ofDigitChars 10 digits 0 else -Nat.ofDigitChars 10 digits 0

/-- `_match_number`. -/
def scanNumber (cs : List Char) : Option (Number × List Char) :=
  let (sign, cs) := scanSign cs
  match scanInt cs with
  | none => none
  | some (digits, cs) =>
    let (frac, cs) := scanFrac cs
    let (exp, cs) := scanExp cs
    if frac = [] ∧ exp = [] then some (.int (intValue sign digits), cs)
    else some (.float (sign ++ digits ++ frac ++ exp), cs)

/-- What may stand behind a number: no digit, point or exponent. -/
def NumberEnd : List Char → Prop
  | [] => True
  | c :: _ => c.isDigit = false ∧ c ≠ '.' ∧ c ≠ 'e' ∧ c ≠ 'E'

/-- A float. -/
inductive PyFloat (F : Type) where
  | finite (x : F)
  | nan
  | infinity
  | negInfinity
deriving DecidableEq, Repr

/-- The finite floats `F`: their value, their `repr`, and the float of a literal. The `repr` of a
finite float is a literal with a fraction or an exponent, and is read as that float. -/
class FloatText (F : Type) where
  value : F → ℚ
  repr : F → List Char
  ofLiteral : List Char → PyFloat F
  scan_repr : ∀ x cs, NumberEnd cs → scanNumber (repr x ++ cs) = some (.float (repr x), cs)
  ofLiteral_repr : ∀ x, ofLiteral (repr x) = .finite x
  repr_line : ∀ x, '\n' ∉ repr x

/-- Values without finite floats. -/
instance : FloatText Empty where
  value := Empty.elim
  repr := Empty.elim
  ofLiteral _ := .nan
  scan_repr x := x.elim
  ofLiteral_repr x := x.elim
  repr_line x := x.elim

/-! ### Values -/

/-- A value of a JSON text. -/
inductive JsonTree (F : Type) where
  | null
  | bool (b : Bool)
  | int (z : ℤ)
  | float (x : PyFloat F)
  | str (us : List CodeUnit)
  | arr (xs : List (JsonTree F))
  | obj (es : List (List CodeUnit × JsonTree F))

variable {F : Type} [FloatText F]

/-- `true` and `false`. -/
def printBool (b : Bool) : List Char :=
  if b then ['t', 'r', 'u', 'e'] else ['f', 'a', 'l', 's', 'e']

/-- `int.__repr__`. -/
def printInt (z : ℤ) : List Char :=
  if z < 0 then '-' :: Nat.toDigits 10 z.natAbs else Nat.toDigits 10 z.natAbs

/-- `floatstr`. -/
def printFloat : PyFloat F → List Char
  | .finite x => FloatText.repr x
  | .nan => ['N', 'a', 'N']
  | .infinity => ['I', 'n', 'f', 'i', 'n', 'i', 't', 'y']
  | .negInfinity => ['-', 'I', 'n', 'f', 'i', 'n', 'i', 't', 'y']

mutual

/-- The text of a value. -/
def print : JsonTree F → List Char
  | .null => ['n', 'u', 'l', 'l']
  | .bool b => printBool b
  | .int z => printInt z
  | .float x => printFloat x
  | .str us => quote us
  | .arr [] => ['[', ']']
  | .arr (x :: xs) => '[' :: (print x ++ printItems xs)
  | .obj [] => ['{', '}']
  | .obj ((k, x) :: es) => '{' :: (quote k ++ ':' :: ' ' :: (print x ++ printEntries es))

/-- The items behind the first, and the end of the array. -/
def printItems : List (JsonTree F) → List Char
  | [] => [']']
  | x :: xs => ',' :: ' ' :: (print x ++ printItems xs)

/-- The entries behind the first, and the end of the object. -/
def printEntries : List (List CodeUnit × JsonTree F) → List Char
  | [] => ['}']
  | (k, x) :: es => ',' :: ' ' :: (quote k ++ ':' :: ' ' :: (print x ++ printEntries es))

end

/-! ### Scanning -/

/-- White space. -/
def skipSpace (cs : List Char) : List Char :=
  cs.dropWhile fun c => c = ' ' || c = '\t' || c = '\n' || c = '\r'

/-- A word that stands for a value. -/
def scanWord : List Char → Option (JsonTree F × List Char)
  | 'n' :: 'u' :: 'l' :: 'l' :: cs => some (.null, cs)
  | 't' :: 'r' :: 'u' :: 'e' :: cs => some (.bool true, cs)
  | 'f' :: 'a' :: 'l' :: 's' :: 'e' :: cs => some (.bool false, cs)
  | 'N' :: 'a' :: 'N' :: cs => some (.float .nan, cs)
  | 'I' :: 'n' :: 'f' :: 'i' :: 'n' :: 'i' :: 't' :: 'y' :: cs => some (.float .infinity, cs)
  | '-' :: 'I' :: 'n' :: 'f' :: 'i' :: 'n' :: 'i' :: 't' :: 'y' :: cs =>
    some (.float .negInfinity, cs)
  | _ => none

/-- A number or a word. -/
def scanScalar (cs : List Char) : Option (JsonTree F × List Char) :=
  match scanNumber cs with
  | some (.int z, cs) => some (.int z, cs)
  | some (.float literal, cs) => some (.float (FloatText.ofLiteral literal), cs)
  | none => scanWord cs

/-- The key of an entry and its colon. -/
def scanKey : List Char → Option (List CodeUnit × List Char)
  | '"' :: cs =>
    match scanString cs with
    | none => none
    | some (k, cs) =>
      match skipSpace cs with
      | ':' :: cs => some (k, skipSpace cs)
      | _ => none
  | _ => none

mutual

/-- `scan_once`. -/
def scanValue : ℕ → List Char → Option (JsonTree F × List Char)
  | 0, _ => none
  | n + 1, cs =>
    match cs with
    | '"' :: cs => (scanString cs).map fun p => (.str p.1, p.2)
    | '[' :: cs =>
      match skipSpace cs with
      | ']' :: cs => some (.arr [], cs)
      | cs =>
        match scanValue n cs with
        | none => none
        | some (x, cs) => (scanItems n cs).map fun p => (.arr (x :: p.1), p.2)
    | '{' :: cs =>
      match skipSpace cs with
      | '}' :: cs => some (.obj [], cs)
      | cs =>
        match scanKey cs with
        | none => none
        | some (k, cs) =>
          match scanValue n cs with
          | none => none
          | some (x, cs) => (scanEntries n cs).map fun p => (.obj ((k, x) :: p.1), p.2)
    | cs => scanScalar cs

/-- The items behind one, up to the end of the array. -/
def scanItems : ℕ → List Char → Option (List (JsonTree F) × List Char)
  | 0, _ => none
  | n + 1, cs =>
    match skipSpace cs with
    | ']' :: cs => some ([], cs)
    | ',' :: cs =>
      match scanValue n (skipSpace cs) with
      | none => none
      | some (x, cs) => (scanItems n cs).map fun p => (x :: p.1, p.2)
    | _ => none

/-- The entries behind one, up to the end of the object. -/
def scanEntries : ℕ → List Char → Option (List (List CodeUnit × JsonTree F) × List Char)
  | 0, _ => none
  | n + 1, cs =>
    match skipSpace cs with
    | '}' :: cs => some ([], cs)
    | ',' :: cs =>
      match scanKey (skipSpace cs) with
      | none => none
      | some (k, cs) =>
        match scanValue n cs with
        | none => none
        | some (x, cs) => (scanEntries n cs).map fun p => ((k, x) :: p.1, p.2)
    | _ => none

end

/-- The value of a text; every round reads a character, so the length of the text bounds them. -/
def parse (cs : List Char) : Option (JsonTree F) :=
  match scanValue (cs.length + 1) (skipSpace cs) with
  | some (x, cs) => if skipSpace cs = [] then some x else none
  | none => none

end VantaCore.Lib.Json.Text
