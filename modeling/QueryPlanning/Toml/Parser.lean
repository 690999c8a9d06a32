import QueryPlanning.Json.Parser
import QueryPlanning.Toml.Basic

/-!
# Reading TOML

`Toml.parse?` reads a document. As with JSON, each reader takes characters off the front and returns
the rest with what it read. A document is a list of lines; a value may reach over several. Neither
values nor keys nest more than 79 levels deep.
-/

namespace QueryPlanning.Toml

abbrev Reader (α : Type) := List Char → Option (α × List Char)

/-! ## Blanks, comments and line ends -/

def isSpace (c : Char) : Bool := c = ' ' || c = '\t'

def skipSpace (cs : List Char) : List Char := cs.dropWhile isSpace

/-- A control character other than the tab. -/
def isControl (c : Char) : Bool := (c.toNat < 32 && c ≠ '\t') || c.toNat = 127

/-- The end of a line, if the text goes on with one. -/
def newline? : List Char → Option (List Char)
  | '\n' :: rest => some rest
  | '\r' :: '\n' :: rest => some rest
  | _ => none

/-- Skips a comment up to the end of its line. -/
def skipComment? : List Char → Option (List Char)
  | '#' :: rest =>
    let rest := rest.dropWhile fun c ↦ !isControl c
    match rest with
    | [] => some []
    | _ => if (newline? rest).isSome then some rest else none
  | cs => some cs

/-- Skips blanks, comments and line ends, as between the items of an array. -/
def skipLines? : Nat → List Char → Option (List Char)
  | 0, _ => none
  | fuel + 1, cs => do
    let rest ← skipComment? (skipSpace cs)
    match newline? rest with
    | some rest => skipLines? fuel rest
    | none => some rest

/-- Ends a line: blanks, a comment, and the end of the line or of the text. -/
def endLine? (cs : List Char) : Option (List Char) := do
  let rest ← skipComment? (skipSpace cs)
  match rest with
  | [] => some []
  | _ => newline? rest

/-! ## Text -/

/-- The number written by hexadecimal digits. -/
def hexNumber? (cs : List Char) : Option Nat :=
  cs.foldlM (fun n c ↦ (Json.hexValue? c).map (16 * n + ·)) 0

/-- A character given by its number in `width` hexadecimal digits. -/
def scalar? (width : Nat) : Reader Char := fun cs ↦ do
  let digits := cs.take width
  let n ← if digits.length = width then hexNumber? digits else none
  if n < 0xD800 || (0xDFFF < n && n < 0x110000) then some (Char.ofNat n, cs.drop width) else none

/-- The character of an escape, without its backslash. -/
def escape? : Reader Char
  | 'b' :: rest => some (Char.ofNat 8, rest)
  | 't' :: rest => some ('\t', rest)
  | 'n' :: rest => some ('\n', rest)
  | 'f' :: rest => some (Char.ofNat 12, rest)
  | 'r' :: rest => some ('\r', rest)
  | '"' :: rest => some ('"', rest)
  | '\\' :: rest => some ('\\', rest)
  | 'u' :: rest => scalar? 4 rest
  | 'U' :: rest => scalar? 8 rest
  | _ => none

/-- The rest of a text in double quotes; `read` holds the characters so far, the last first. -/
def basic? : Nat → List Char → Reader String
  | 0, _, _ => none
  | _, _, [] => none
  | fuel + 1, read, c :: rest =>
    if c = '"' then some (String.ofList read.reverse, rest)
    else if c = '\\' then do
      let (e, rest) ← escape? rest
      basic? fuel (e :: read) rest
    else if isControl c then none
    else basic? fuel (c :: read) rest

/-- The rest of a text in single quotes. -/
def literal? (cs : List Char) : Option (String × List Char) :=
  let inside := cs.takeWhile fun c ↦ c ≠ '\'' && !isControl c
  match cs.drop inside.length with
  | '\'' :: rest => some (String.ofList inside, rest)
  | _ => none

/-- The quotes that end a text over several lines: three close it, and up to two more before these
belong to it. -/
def closing? (quote : Char) (cs : List Char) : Option (List Char × List Char) :=
  let run := (cs.takeWhile (· = quote)).take 5
  if 3 ≤ run.length then some (run.drop 3, cs.drop run.length) else none

/-- Drops blanks and line ends. -/
def skipBlankLines : List Char → List Char
  | '\r' :: '\n' :: rest => skipBlankLines rest
  | c :: rest => if isSpace c || c = '\n' then skipBlankLines rest else c :: rest
  | [] => []

/-- Drops blanks and line ends, at least one of them, after a backslash at the end of a line. -/
def skipFold? (cs : List Char) : Option (List Char) :=
  (newline? (skipSpace cs)).map skipBlankLines

/-- The rest of a text over several lines, with escapes if its quotes are double. -/
def lines? (quote : Char) : Nat → List Char → Reader String
  | 0, _, _ => none
  | _, _, [] => none
  | fuel + 1, read, c :: rest =>
    match closing? quote (c :: rest) with
    | some (kept, rest) => some (String.ofList (kept ++ read).reverse, rest)
    | none =>
      if quote = '"' ∧ c = '\\' then
        match skipFold? rest with
        | some rest => lines? quote fuel read rest
        | none => do
          let (e, rest) ← escape? rest
          lines? quote fuel (e :: read) rest
      else match newline? (c :: rest) with
        | some rest => lines? quote fuel ('\n' :: read) rest
        | none => if isControl c then none else lines? quote fuel (c :: read) rest

/-- Reads a quoted text; one line break right after three quotes does not count. -/
def text? (cs : List Char) : Option (String × List Char) :=
  match cs with
  | '"' :: '"' :: '"' :: rest =>
    lines? '"' (rest.length + 1) [] ((newline? rest).getD rest)
  | '\'' :: '\'' :: '\'' :: rest =>
    lines? '\'' (rest.length + 1) [] ((newline? rest).getD rest)
  | '"' :: rest => basic? (rest.length + 1) [] rest
  | '\'' :: rest => literal? rest
  | _ => none

/-! ## Keys -/

def isBare (c : Char) : Bool := c.isAlphanum || c = '_' || c = '-'

def simpleKey? (cs : List Char) : Option (String × List Char) :=
  match cs with
  | '"' :: rest => basic? (rest.length + 1) [] rest
  | '\'' :: rest => literal? rest
  | _ =>
    let bare := cs.takeWhile isBare
    if bare.isEmpty then none else some (String.ofList bare, cs.drop bare.length)

/-- The levels that values nest, and the parts of a key. -/
def maxDepth : Nat := 79

/-- Reads a key of at most `room` parts with points between them. -/
def keyWithin? : Nat → Reader (List String)
  | 0, _ => none
  | room + 1, cs => do
    let (first, rest) ← simpleKey? (skipSpace cs)
    match skipSpace rest with
    | '.' :: rest =>
      let (path, rest) ← keyWithin? room rest
      return (first :: path, rest)
    | rest => return ([first], rest)

def key? : Reader (List String) := keyWithin? maxDepth

/-! ## Numbers, truth values and times -/

/-- Digits of a base with single underscores between them. -/
def plainDigits? (isDigit : Char → Bool) : List Char → Option (List Char)
  | [] => none
  | [c] => if isDigit c then some [c] else none
  | c :: '_' :: rest => if isDigit c then (plainDigits? isDigit rest).map (c :: ·) else none
  | c :: rest => if isDigit c then (plainDigits? isDigit rest).map (c :: ·) else none

/-- Decimal digits without a zero in front of others. -/
def wholeDigits? (cs : List Char) : Option (List Char) :=
  match plainDigits? Char.isDigit cs with
  | some ('0' :: _ :: _) => none
  | digits => digits

def inInt64? (n : Int) : Option Value :=
  if Number.fitsSigned 64 n then some (.integer n) else none

def integer? : List Char → Option Value
  | '0' :: 'x' :: digits => do
    inInt64? (← hexNumber? (← plainDigits? (fun c ↦ (Json.hexValue? c).isSome) digits))
  | '0' :: 'o' :: digits => do
    let digits ← plainDigits? (fun c ↦ '0' ≤ c && c ≤ '7') digits
    inInt64? (digits.foldl (fun n c ↦ 8 * n + (c.toNat - '0'.toNat)) 0 : Nat)
  | '0' :: 'b' :: digits => do
    let digits ← plainDigits? (fun c ↦ c = '0' || c = '1') digits
    inInt64? (digits.foldl (fun n c ↦ 2 * n + (c.toNat - '0'.toNat)) 0 : Nat)
  | cs => do
    let (negative, body) := Double.splitSign cs
    let n : Int := Double.digitsValue (← wholeDigits? body)
    inInt64? (if negative then -n else n)

/-- Whether a text is a decimal number with a point or an exponent, or one of `inf` and `nan`. -/
def isFloat (cs : List Char) : Bool :=
  let (_, body) := Double.splitSign cs
  let isMark (c : Char) : Bool := c = 'e' || c = 'E'
  let mantissa := body.takeWhile fun c ↦ !isMark c
  let exponent := body.drop mantissa.length
  let whole := mantissa.takeWhile (· ≠ '.')
  let fraction := mantissa.drop whole.length
  body = ['i', 'n', 'f'] || body = ['n', 'a', 'n'] ||
    ((wholeDigits? whole).isSome &&
      (fraction.isEmpty || (plainDigits? Char.isDigit (fraction.drop 1)).isSome) &&
      (exponent.isEmpty ||
        (plainDigits? Char.isDigit (Double.splitSign (exponent.drop 1)).2).isSome) &&
      !(fraction.isEmpty && exponent.isEmpty))

/-- Whether a decimal number is positive and beyond the range of doubles, which is refused; a
negative number there is negative infinity. -/
def isTooLarge (cs : List Char) : Bool :=
  let (negative, body) := Double.splitSign cs
  !negative && Double.decimalText? (body.filter (· ≠ '_')) == some Double.infinity

/-- A number of two digits within bounds. -/
def twoDigits? (low high : Nat) (a b : Char) : Option Nat :=
  let n := Double.digitsValue [a, b]
  if a.isDigit && b.isDigit && low ≤ n && n ≤ high then some n else none

/-- The number of days of a month. -/
def daysOf (year month : Nat) : Nat :=
  if month = 2 then
    if (year % 4 = 0 ∧ year % 100 ≠ 0) ∨ year % 400 = 0 then 29 else 28
  else if month = 4 ∨ month = 6 ∨ month = 9 ∨ month = 11 then 30
  else 31

/-- Takes a date off the front. -/
def date? : List Char → Option (List Char)
  | a :: b :: c :: d :: '-' :: e :: f :: '-' :: g :: h :: rest => do
    let digits := [a, b, c, d]
    let year ← if digits.all Char.isDigit then some (Double.digitsValue digits) else none
    let month ← twoDigits? 1 12 e f
    let _ ← twoDigits? 1 (daysOf year month) g h
    return rest
  | _ => none

/-- Takes a time of day off the front. -/
def clock? : List Char → Option (List Char)
  | a :: b :: ':' :: c :: d :: ':' :: e :: f :: rest => do
    let _ ← twoDigits? 0 23 a b
    let _ ← twoDigits? 0 59 c d
    let _ ← twoDigits? 0 60 e f
    match rest with
    | '.' :: more =>
      let run := more.takeWhile Char.isDigit
      if run.isEmpty then none else some (more.drop run.length)
    | _ => some rest
  | _ => none

/-- Whether a text is the distance from universal time. -/
def isOffset : List Char → Bool
  | [] => true
  | [c] => c = 'Z' || c = 'z'
  | [sign, a, b, ':', c, d] =>
    (sign = '+' || sign = '-') && (twoDigits? 0 23 a b).isSome && (twoDigits? 0 59 c d).isSome
  | _ => false

/-- Whether a text is a date, a time of day, or both with a letter or blank between them. -/
def isTime (cs : List Char) : Bool :=
  match date? cs with
  | some [] => true
  | some (mark :: rest) =>
    (mark = 'T' || mark = 't' || mark = ' ') &&
      match clock? rest with
      | some rest => isOffset rest
      | none => false
  | none => clock? cs == some []

/-- The characters up to the end of a value without quotes or brackets. -/
def wordOf (cs : List Char) : List Char :=
  cs.takeWhile fun c ↦
    !(isSpace c || isControl c || c = ',' || c = ']' || c = '}' || c = '#' || c = '=')

/-- As `wordOf`; a date takes the time after a single blank along. -/
def scalarOf (cs : List Char) : List Char :=
  let word := wordOf cs
  match date? word, cs.drop word.length with
  | some [], ' ' :: c :: rest =>
    if c.isDigit then word ++ ' ' :: wordOf (c :: rest) else word
  | _, _ => word

def scalarValue? (cs : List Char) : Option Value :=
  if cs = ['t', 'r', 'u', 'e'] then some (.boolean true)
  else if cs = ['f', 'a', 'l', 's', 'e'] then some (.boolean false)
  else if isTime cs then some (.time (String.ofList cs))
  else if isFloat cs then if isTooLarge cs then none else some (.float (String.ofList cs))
  else integer? cs

/-! ## Values -/

mutual

/-- Reads a value that nests at most `room` levels. Each round of `fuel` is paid for by at least one
character. -/
def value? (room : Nat) : Nat → Reader Value
  | 0, _ => none
  | fuel + 1, cs =>
    match cs with
    | '"' :: _ | '\'' :: _ => (text? cs).map fun (s, rest) ↦ (.string s, rest)
    | '[' :: rest =>
      if room = 0 then none
      else (items? (room - 1) fuel [] rest).map fun (items, rest) ↦ (.array items, rest)
    | '{' :: rest =>
      if room = 0 then none
      else match skipSpace rest with
        | '}' :: rest => some (.table [], rest)
        | rest =>
          (members? (room - 1) fuel [] rest).map fun (entries, rest) ↦
            (.table (Node.entriesToValues entries), rest)
    | _ =>
      let word := scalarOf cs
      (scalarValue? word).map fun v ↦ (v, cs.drop word.length)

/-- Reads the items of an array up to its bracket, over several lines and with a last comma. -/
def items? (room : Nat) : Nat → List Value → Reader (List Value)
  | 0, _, _ => none
  | fuel + 1, read, cs => do
    match ← skipLines? (cs.length + 1) cs with
    | ']' :: rest => return (read.reverse, rest)
    | start =>
      let (item, rest) ← value? room fuel start
      match ← skipLines? (rest.length + 1) rest with
      | ',' :: rest => items? room fuel (item :: read) rest
      | ']' :: rest => return ((item :: read).reverse, rest)
      | _ => none

/-- Reads the entries of an inline table up to its brace, on one line and without a last comma. -/
def members? (room : Nat) : Nat → Entries → Reader Entries
  | 0, _, _ => none
  | fuel + 1, entries, cs => do
    let (path, rest) ← key? cs
    match rest with
    | '=' :: rest =>
      let (value, rest) ← value? room fuel (skipSpace rest)
      let entries ← entries.insert? value path
      match skipSpace rest with
      | ',' :: rest => members? room fuel entries rest
      | '}' :: rest => return (entries, rest)
      | _ => none
    | _ => none

end

/-! ## Documents -/

/-- A document so far: its entries and the table that the next keys belong to. -/
structure Document where
  entries : Entries := []
  current : List String := []

/-- Reads the line at the front of the text. -/
def line? (doc : Document) (cs : List Char) : Option (Document × List Char) :=
  match skipSpace cs with
  | '[' :: '[' :: rest => do
    let (path, rest) ← key? rest
    match rest with
    | ']' :: ']' :: rest =>
      return (⟨← doc.entries.openArray? path, path⟩, ← endLine? rest)
    | _ => none
  | '[' :: rest => do
    let (path, rest) ← key? rest
    match rest with
    | ']' :: rest => return (⟨← doc.entries.openTable? path, path⟩, ← endLine? rest)
    | _ => none
  | start =>
    match endLine? start with
    | some rest => some (doc, rest)
    | none => do
      let (path, rest) ← key? start
      match rest with
      | '=' :: rest =>
        let start := skipSpace rest
        let (value, rest) ← value? maxDepth (start.length + 1) start
        let entries ← doc.entries.modify? (Entries.insert? value · path) doc.current
        return (⟨entries, doc.current⟩, ← endLine? rest)
      | _ => none

/-- Reads lines to the end of the text. -/
def lines : Nat → Document → List Char → Option Document
  | 0, _, _ => none
  | _, doc, [] => some doc
  | fuel + 1, doc, cs => do
    let (doc, rest) ← line? doc cs
    lines fuel doc rest

/-- Drops a byte order mark. -/
def skipMark : List Char → List Char
  | c :: rest => if c.toNat = 0xFEFF then rest else c :: rest
  | [] => []

/-- Reads a document as its top-level entries. -/
def parse? (s : String) : Option (List (String × Value)) := do
  let cs := skipMark s.toList
  let doc ← lines (cs.length + 1) {} cs
  return Node.entriesToValues doc.entries

end QueryPlanning.Toml
