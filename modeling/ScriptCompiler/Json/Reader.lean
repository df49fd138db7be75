import ScriptCompiler.Json.Value

/-!
# Reading JSON text

The grammar is strict: blanks are space, tab, line feed and carriage return; a number has no leading
zero and no bare point; a string holds no control character; nothing but blanks follows the value.
Depth is not limited here. The readers work on lists of characters and give what is left of them.
The reader of values recurses on a count that bounds the calls still to come, and `read?` gives it
enough for every text, since no more than two calls stand between one consumed character and the
next.
-/

namespace ScriptCompiler.Json

namespace Reader

/-- White space between tokens. -/
def isSpace (c : Char) : Bool := c == ' ' || c == '\n' || c == '\t' || c == '\r'

/-- The text after its leading white space. -/
def skipSpace (cs : List Char) : List Char := cs.dropWhile isSpace

/-- The text after `word`, if it starts with it. -/
def after? (word : List Char) (cs : List Char) : Option (List Char) :=
  if word.isPrefixOf cs then some (cs.drop word.length) else none

/-! ## Strings -/

/-- A piece of a string literal: a character, or the sixteen bits that a numeric escape gives. -/
inductive Piece where
  | char (c : Char)
  | unit (code : Nat)

/-- The character of a one-letter escape. -/
def escaped? : Char → Option Char
  | '"' => some '"'
  | '\\' => some '\\'
  | '/' => some '/'
  | 'b' => some '\x08'
  | 'f' => some '\x0c'
  | 'n' => some '\n'
  | 'r' => some '\r'
  | 't' => some '\t'
  | _ => none

/-- The pieces of a string literal up to its closing quote, last piece first, and what follows. -/
def pieces? (acc : List Piece) : List Char → Option (List Piece × List Char)
  | [] => none
  | '"' :: rest => some (acc, rest)
  | '\\' :: 'u' :: a :: b :: c :: d :: rest =>
    match Text.ofHex? [a, b, c, d] with
    | some code => pieces? (.unit code :: acc) rest
    | none => none
  | '\\' :: e :: rest =>
    match escaped? e with
    | some c => pieces? (.char c :: acc) rest
    | none => none
  | c :: rest => if c.toNat < 0x20 ∨ c = '\\' then none else pieces? (.char c :: acc) rest

/-- A code unit that begins a surrogate pair. -/
def isHigh (code : Nat) : Bool := 0xD800 ≤ code && code < 0xDC00

/-- A code unit that ends a surrogate pair. -/
def isLow (code : Nat) : Bool := 0xDC00 ≤ code && code < 0xE000

/-- The characters of a list of pieces, put in front of `acc`; the pieces are given last first.
`none` when a surrogate lacks its other half. -/
def chars? (acc : List Char) : List Piece → Option (List Char)
  | [] => some acc
  | .char c :: rest => chars? (c :: acc) rest
  | .unit low :: .unit high :: rest =>
    if isLow low then
      if isHigh high then
        chars? (Char.ofNat (0x10000 + (high - 0xD800) * 0x400 + (low - 0xDC00)) :: acc) rest
      else none
    else if isHigh low then none
    else chars? (Char.ofNat low :: acc) (.unit high :: rest)
  | .unit code :: rest =>
    if isLow code || isHigh code then none else chars? (Char.ofNat code :: acc) rest

/-- A string literal after its opening quote. -/
def string? (cs : List Char) : Option (Option String × List Char) :=
  match pieces? [] cs with
  | some (pieces, rest) => some ((chars? [] pieces).map String.ofList, rest)
  | none => none

/-! ## Numbers -/

/-- The number that a list of decimal digits stands for. -/
def decimalValue (digits : List Char) : Nat :=
  digits.foldl (fun n c => 10 * n + (c.toNat - '0'.toNat)) 0

/-- A run of at least one digit, and what follows. -/
def digits? (cs : List Char) : Option (List Char × List Char) :=
  match cs.takeWhile Char.isDigit with
  | [] => none
  | digits => some (digits, cs.dropWhile Char.isDigit)

/-- The digits before the point: a zero alone, or a run that does not start with one. -/
def wholeDigits? (cs : List Char) : Option (List Char × List Char) :=
  match digits? cs with
  | some ('0' :: _ :: _, _) => none
  | found => found

/-- The digits after a point, none when there is no point. -/
def fractionDigits? : List Char → Option (List Char × List Char)
  | '.' :: rest => digits? rest
  | cs => some ([], cs)

/-- The exponent, `none` inside when there is none. -/
def exponent? : List Char → Option (Option Int × List Char)
  | c :: rest =>
    if c = 'e' ∨ c = 'E' then
      let (negative, rest) := match rest with
        | '-' :: rest => (true, rest)
        | '+' :: rest => (false, rest)
        | rest => (false, rest)
      match digits? rest with
      | some (digits, rest) =>
        let size : Int := decimalValue digits
        some (some (if negative then -size else size), rest)
      | none => none
    else some (none, c :: rest)
  | [] => some (none, [])

/-- The whole number that a sign and digits stand for, when a word can hold it. A zero with a sign
is none, since it is not the same as a zero without. -/
def wholeNumber? (negative : Bool) (size : Nat) : Option Int :=
  if negative then if 0 < size ∧ size ≤ 0x8000000000000000 then some (-size) else none
  else if size < 0x10000000000000000 then some size else none

/-- A number literal. -/
def number? (cs : List Char) : Option (Json × List Char) := do
  let (negative, cs) := match cs with
    | '-' :: rest => (true, rest)
    | cs => (false, cs)
  let (front, cs) ← wholeDigits? cs
  let (fraction, cs) ← fractionDigits? cs
  let (exponent, cs) ← exponent? cs
  let size := decimalValue (front ++ fraction)
  let whole := if fraction.isEmpty && exponent.isNone then wholeNumber? negative size else none
  match whole with
  | some n => return (.whole n, cs)
  | none =>
    return (.real (Double.ofDecimal? negative size (exponent.getD 0 - fraction.length)), cs)

/-! ## Values -/

mutual

/-- A value, and what follows it. -/
def value? : Nat → List Char → Option (Json × List Char)
  | 0, _ => none
  | calls + 1, cs =>
    match skipSpace cs with
    | '"' :: rest => (string? rest).map fun (s, rest) => (.text s, rest)
    | '[' :: rest =>
      match skipSpace rest with
      | ']' :: rest => some (.array [], rest)
      | _ => items? calls [] rest
    | '\x7b' :: rest =>
      match skipSpace rest with
      | '\x7d' :: rest => some (.object [], rest)
      | _ => fields? calls [] rest
    | 'n' :: rest => (after? ['u', 'l', 'l'] rest).map fun rest => (.null, rest)
    | 't' :: rest => (after? ['r', 'u', 'e'] rest).map fun rest => (.bool true, rest)
    | 'f' :: rest => (after? ['a', 'l', 's', 'e'] rest).map fun rest => (.bool false, rest)
    | cs => number? cs

/-- The elements of an array from the next one on; `acc` holds those before it, last first. -/
def items? : Nat → List Json → List Char → Option (Json × List Char)
  | 0, _, _ => none
  | calls + 1, acc, cs =>
    match value? calls cs with
    | none => none
    | some (item, rest) =>
      match skipSpace rest with
      | ',' :: rest => items? calls (item :: acc) rest
      | ']' :: rest => some (.array (item :: acc).reverse, rest)
      | _ => none

/-- The fields of an object from the next one on; `acc` holds those before it, last first. -/
def fields? : Nat → List (Option String × Json) → List Char → Option (Json × List Char)
  | 0, _, _ => none
  | calls + 1, acc, cs =>
    match skipSpace cs with
    | '"' :: rest =>
      match string? rest with
      | none => none
      | some (name, rest) =>
        match skipSpace rest with
        | ':' :: rest =>
          match value? calls rest with
          | none => none
          | some (value, rest) =>
            match skipSpace rest with
            | ',' :: rest => fields? calls ((name, value) :: acc) rest
            | '\x7d' :: rest => some (.object ((name, value) :: acc).reverse, rest)
            | _ => none
        | _ => none
    | _ => none

end

end Reader

/-- The value that a whole text is. -/
def read? (text : String) : Option Json :=
  let cs := text.toList
  match Reader.value? (2 * cs.length + 2) cs with
  | some (value, rest) => if (Reader.skipSpace rest).isEmpty then some value else none
  | none => none

end ScriptCompiler.Json
