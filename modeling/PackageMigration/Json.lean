/-
  Reading JSON text.

  * `Json`: a value, with numbers reduced to the fact that they are well formed.
  * `Json.parse?`: the value a text holds, if the whole text is one value between blanks.

  A string literal may name half of a surrogate pair by escapes; it is then well formed but no text,
  and `Json.string` holds `none`.
-/
namespace PackageMigration

/-- A JSON value. Object members keep their order and may repeat. -/
inductive Json where
  | null
  | bool (b : Bool)
  | number
  | string (text : Option String)
  | array (items : List Json)
  | object (members : List (Option String × Json))

namespace Json

/-- A parser that returns what it read and the rest. -/
abbrev Reader (α : Type) := List Char → Option (α × List Char)

def isBlank (c : Char) : Bool := c = ' ' || c = '\t' || c = '\n' || c = '\r'

def skipBlanks (cs : List Char) : List Char := cs.dropWhile isBlank

/-- The value of a hexadecimal digit. -/
def hexDigit? (c : Char) : Option Nat :=
  if '0' ≤ c ∧ c ≤ '9' then some (c.toNat - '0'.toNat)
  else if 'a' ≤ c ∧ c ≤ 'f' then some (c.toNat - 'a'.toNat + 10)
  else if 'A' ≤ c ∧ c ≤ 'F' then some (c.toNat - 'A'.toNat + 10)
  else none

/-- The code unit of four hexadecimal digits. -/
def unit? (a b c d : Char) : Option Nat := do
  let a ← hexDigit? a
  let b ← hexDigit? b
  let c ← hexDigit? c
  let d ← hexDigit? d
  return ((a * 16 + b) * 16 + c) * 16 + d

/-- The code point of a one-letter escape. -/
def shortEscape? (c : Char) : Option Nat :=
  match c with
  | '"' => some 0x22
  | '\\' => some 0x5C
  | '/' => some 0x2F
  | 'b' => some 0x08
  | 'f' => some 0x0C
  | 'n' => some 0x0A
  | 'r' => some 0x0D
  | 't' => some 0x09
  | _ => none

/-- The code points and escaped code units up to the closing quote, behind the ones read, which come
last first. -/
def units? : List Nat → Reader (List Nat)
  | read, '"' :: rest => some (read.reverse, rest)
  | read, '\\' :: 'u' :: a :: b :: c :: d :: rest =>
    match unit? a b c d with
    | none => none
    | some u => units? (u :: read) rest
  | read, '\\' :: c :: rest =>
    match shortEscape? c with
    | none => none
    | some u => units? (u :: read) rest
  | read, c :: rest => if c.toNat < 0x20 then none else units? (c.toNat :: read) rest
  | _, [] => none

/-- Text from code points and UTF-16 code units: a high surrogate needs a low one after it, and a
low one a high one before it. -/
def text? : List Nat → Option (List Char)
  | [] => some []
  | u :: rest =>
    if 0xD800 ≤ u ∧ u ≤ 0xDBFF then
      match rest with
      | v :: rest =>
        if 0xDC00 ≤ v ∧ v ≤ 0xDFFF then
          (text? rest).map (Char.ofNat (0x10000 + (u - 0xD800) * 0x400 + (v - 0xDC00)) :: ·)
        else none
      | [] => none
    else if 0xDC00 ≤ u ∧ u ≤ 0xDFFF then none
    else (text? rest).map (Char.ofNat u :: ·)

/-- A string literal after its opening quote. -/
def string? : Reader (Option String) := fun cs => do
  let (us, rest) ← units? [] cs
  return ((text? us).map String.ofList, rest)

/-- One or more digits. -/
def digits? : List Char → Option (List Char)
  | [] => none
  | c :: rest => if c.isDigit then some (rest.dropWhile Char.isDigit) else none

/-- An optional exponent. -/
def exponent? (cs : List Char) : Option (List Char) :=
  match cs with
  | c :: rest =>
    if c = 'e' ∨ c = 'E' then
      match rest with
      | '+' :: rest | '-' :: rest => digits? rest
      | rest => digits? rest
    else some cs
  | [] => some cs

/-- The rest after a number: no needless leading zero, a digit after the point. -/
def number? (cs : List Char) : Option (List Char) := do
  let cs := match cs with
    | '-' :: rest => rest
    | _ => cs
  let rest ← match cs with
    | '0' :: c :: rest => if c.isDigit then none else some (c :: rest)
    | cs => digits? cs
  match rest with
  | '.' :: rest => exponent? (← digits? rest)
  | rest => exponent? rest

mutual

/-- A value after blanks. Each turn uses up a character, so the number of characters bounds the
turns. -/
def value? : Nat → Reader Json
  | 0, _ => none
  | fuel + 1, cs =>
    match skipBlanks cs with
    | 'n' :: 'u' :: 'l' :: 'l' :: rest => some (.null, rest)
    | 't' :: 'r' :: 'u' :: 'e' :: rest => some (.bool true, rest)
    | 'f' :: 'a' :: 'l' :: 's' :: 'e' :: rest => some (.bool false, rest)
    | '"' :: rest => (string? rest).map fun (s, rest) => (.string s, rest)
    | '[' :: rest =>
      match skipBlanks rest with
      | ']' :: rest => some (.array [], rest)
      | rest => items? fuel [] rest
    | '\x7b' :: rest =>
      match skipBlanks rest with
      | '\x7d' :: rest => some (.object [], rest)
      | rest => members? fuel [] rest
    | cs => (number? cs).map fun rest => (.number, rest)

/-- The items of an array up to its closing bracket. -/
def items? : Nat → List Json → Reader Json
  | 0, _, _ => none
  | fuel + 1, read, cs =>
    match value? fuel cs with
    | none => none
    | some (v, rest) =>
      match skipBlanks rest with
      | ',' :: rest => items? fuel (v :: read) rest
      | ']' :: rest => some (.array (v :: read).reverse, rest)
      | _ => none

/-- The members of an object up to its closing brace. -/
def members? : Nat → List (Option String × Json) → Reader Json
  | 0, _, _ => none
  | fuel + 1, read, cs =>
    match skipBlanks cs with
    | '"' :: rest =>
      match string? rest with
      | none => none
      | some (key, rest) =>
        match skipBlanks rest with
        | ':' :: rest =>
          match value? fuel rest with
          | none => none
          | some (v, rest) =>
            match skipBlanks rest with
            | ',' :: rest => members? fuel ((key, v) :: read) rest
            | '\x7d' :: rest => some (.object ((key, v) :: read).reverse, rest)
            | _ => none
        | _ => none
    | _ => none

end

/-- The value that the whole text holds. -/
def parse? (text : String) : Option Json := do
  let cs := text.toList
  let (v, rest) ← value? (2 * cs.length + 2) cs
  if skipBlanks rest = [] then some v else none

end Json

end PackageMigration
