import QueryPlanning.Json.Basic

/-!
# Reading JSON

`Json.parse?` reads a whole text as one JSON value. Every reader below takes characters off the
front and returns what it read with the rest, or nothing if the text does not go on as JSON has to.
Half of a surrogate pair is no fault of the form: the value that it stands in becomes unreadable.
-/

namespace QueryPlanning.Json

def isSpace (c : Char) : Bool :=
  c = ' ' || c = '\n' || c = '\t' || c = '\r'

def skipSpace (cs : List Char) : List Char :=
  cs.dropWhile isSpace

/-! ## Numbers -/

/-- Takes a run of digits that must not be empty. -/
def digits? (cs : List Char) : Option (List Char × List Char) :=
  let run := cs.takeWhile Char.isDigit
  if run.isEmpty then none else some (run, cs.dropWhile Char.isDigit)

/-- The digits before the point: no zero in front of another digit. -/
def whole? (cs : List Char) : Option (Nat × List Char) :=
  match digits? cs with
  | some ('0' :: _ :: _, _) => none
  | some (run, rest) => some (Double.digitsValue run, rest)
  | none => none

def fraction? : List Char → Option (List Char × List Char)
  | '.' :: rest => digits? rest
  | cs => some ([], cs)

def exponent? : List Char → Option (Option Int × List Char)
  | c :: rest =>
    if c = 'e' || c = 'E' then
      let (negative, body) := Double.splitSign rest
      match digits? body with
      | some (run, rest) =>
        let n : Int := Double.digitsValue run
        some (some (if negative then -n else n), rest)
      | none => none
    else some (none, c :: rest)
  | [] => some (none, [])

def numeral? (cs : List Char) : Option (Numeral × List Char) := do
  let (negative, cs) :=
    match cs with
    | '-' :: rest => (true, rest)
    | _ => (false, cs)
  let (whole, cs) ← whole? cs
  let (fraction, cs) ← fraction? cs
  let (exponent, cs) ← exponent? cs
  return (⟨negative, whole, fraction, exponent⟩, cs)

/-! ## Text -/

def hexValue? (c : Char) : Option Nat :=
  if c.isDigit then some (c.toNat - '0'.toNat)
  else if 'a' ≤ c && c ≤ 'f' then some (c.toNat - 'a'.toNat + 10)
  else if 'A' ≤ c && c ≤ 'F' then some (c.toNat - 'A'.toNat + 10)
  else none

/-- Four hexadecimal digits as one unit of UTF-16. -/
def unit? (a b c d : Char) : Option Nat := do
  return (← hexValue? a) * 4096 + (← hexValue? b) * 256 + (← hexValue? c) * 16 + (← hexValue? d)

def isLead (n : Nat) : Bool := 0xD800 ≤ n && n < 0xDC00

def isTrail (n : Nat) : Bool := 0xDC00 ≤ n && n < 0xE000

/-- The character of a one-letter escape. -/
def shortEscape? (c : Char) : Option Char :=
  match c with
  | '"' => some '"'
  | '\\' => some '\\'
  | '/' => some '/'
  | 'b' => some (Char.ofNat 8)
  | 'f' => some (Char.ofNat 12)
  | 'n' => some '\n'
  | 'r' => some '\r'
  | 't' => some '\t'
  | _ => none

/-- Reads up to the closing quote, as code points and units of UTF-16; `read` holds those so far,
the last one first. Only an escape can give a surrogate. -/
def units? (read : List Nat) : List Char → Option (List Nat × List Char)
  | [] => none
  | '"' :: rest => some (read.reverse, rest)
  | '\\' :: 'u' :: a :: b :: c :: d :: rest =>
    match unit? a b c d with
    | some n => units? (n :: read) rest
    | none => none
  | '\\' :: c :: rest =>
    match shortEscape? c with
    | some e => units? (e.toNat :: read) rest
    | none => none
  | '\\' :: [] => none
  | c :: rest => if c.toNat < 32 then none else units? (c.toNat :: read) rest

/-- Joins the surrogates to characters, if each is one half of a pair; `read` holds the characters
so far, the last one first. -/
def joinUnits? (read : List Char) : List Nat → Option (List Char)
  | [] => some read.reverse
  | [n] => if isLead n || isTrail n then none else some (Char.ofNat n :: read).reverse
  | n :: m :: rest =>
    if isLead n then
      if isTrail m then
        joinUnits? (Char.ofNat (0x10000 + (n - 0xD800) * 1024 + (m - 0xDC00)) :: read) rest
      else none
    else if isTrail n then none
    else joinUnits? (Char.ofNat n :: read) (m :: rest)

/-- Reads up to the closing quote. There is no text if it holds half of a surrogate pair. -/
def text? (cs : List Char) : Option (Option String × List Char) := do
  let (units, rest) ← units? [] cs
  return ((joinUnits? [] units).map String.ofList, rest)

/-- An object, unless one of its names is no text. -/
def ofMembers (members : List (Option String × Json)) : Json :=
  match members.mapM fun (name, value) ↦ name.map (·, value) with
  | some members => .object members
  | none => .unreadable

/-! ## Values -/

mutual

/-- Reads a value. Each round of `fuel` is paid for by at least one character. -/
def value? : Nat → List Char → Option (Json × List Char)
  | 0, _ => none
  | fuel + 1, cs =>
    match skipSpace cs with
    | 'n' :: 'u' :: 'l' :: 'l' :: rest => some (.null, rest)
    | 't' :: 'r' :: 'u' :: 'e' :: rest => some (.bool true, rest)
    | 'f' :: 'a' :: 'l' :: 's' :: 'e' :: rest => some (.bool false, rest)
    | '"' :: rest => (text? rest).map fun (s, rest) ↦ (s.elim .unreadable .text, rest)
    | '[' :: rest =>
      match skipSpace rest with
      | ']' :: rest => some (.array [], rest)
      | rest => (items? fuel [] rest).map fun (items, rest) ↦ (.array items, rest)
    | '{' :: rest =>
      match skipSpace rest with
      | '}' :: rest => some (.object [], rest)
      | rest => (members? fuel [] rest).map fun (members, rest) ↦ (ofMembers members, rest)
    | rest => (numeral? rest).map fun (n, rest) ↦ (.number n, rest)

/-- Reads the items of an array up to its bracket; `read` holds those so far, the last first. -/
def items? : Nat → List Json → List Char → Option (List Json × List Char)
  | 0, _, _ => none
  | fuel + 1, read, cs =>
    match value? fuel cs with
    | none => none
    | some (item, rest) =>
      match skipSpace rest with
      | ',' :: rest => items? fuel (item :: read) rest
      | ']' :: rest => some ((item :: read).reverse, rest)
      | _ => none

/-- Reads the members of an object up to its brace; `read` holds those so far, the last first. -/
def members? :
    Nat → List (Option String × Json) → List Char →
      Option (List (Option String × Json) × List Char)
  | 0, _, _ => none
  | fuel + 1, read, cs =>
    match skipSpace cs with
    | '"' :: rest =>
      match text? rest with
      | none => none
      | some (name, rest) =>
        match skipSpace rest with
        | ':' :: rest =>
          match value? fuel rest with
          | none => none
          | some (value, rest) =>
            match skipSpace rest with
            | ',' :: rest => members? fuel ((name, value) :: read) rest
            | '}' :: rest => some (((name, value) :: read).reverse, rest)
            | _ => none
        | _ => none
    | _ => none

end

/-- Reads a whole text as one value. -/
def parse? (s : String) : Option Json :=
  let cs := s.toList
  match value? (cs.length + 1) cs with
  | some (value, rest) => if (skipSpace rest).isEmpty then some value else none
  | none => none

end QueryPlanning.Json
