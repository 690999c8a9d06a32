import QueryPlanning.Error
import QueryPlanning.Json.Basic

/-!
# Taking values out of JSON

A reader turns a JSON value into a value of some type or refuses it. Readers of objects look up the
members they know and pass over all others; a member that is looked up must not occur twice.

A tagged object says in its member `type` which of several shapes it has. Its content is taken in
as a whole before the shape is known, so all of it has to be readable, even what the shape does not
look at. Values are then read from the content that is held, under rules of its own: it has no room
for integers of 128 bits, an empty object also stands for no content, and a tag can be given by its
position among the tags.
-/

namespace QueryPlanning.Json

open Number

/-- Why a value was not taken: it does not have the form asked for, or it has and is an error. -/
inductive Refusal
  | malformed
  | invalid (e : Error)

abbrev Read (α : Type) := Except Refusal α

def refuse {α : Type} : Read α := .error .malformed

def ofOption {α : Type} : Option α → Read α
  | some a => .ok a
  | none => refuse

/-- Where a value is read from: a text, or the content of a tagged object. -/
inductive Source
  | text
  | held
  deriving DecidableEq, Repr

/-! ## Scalars -/

def readBool : Json → Read Bool
  | .bool b => .ok b
  | _ => refuse

def readText : Json → Read String
  | .text s => .ok s
  | _ => refuse

def readInt (accepts : Int → Bool) : Json → Read Int
  | .number n =>
    match n.int? with
    | some i => if accepts i then .ok i else refuse
    | none => refuse
  | _ => refuse

def readInt64 : Json → Read Int := readInt (fitsSigned 64)

def readInt32 : Json → Read Int := readInt (fitsSigned 32)

/-- A natural number in the range of unsigned words of 64 bits. -/
def readNat (j : Json) : Read Nat :=
  return (← readInt (fitsUnsigned 64) j).toNat

def readUInt32 (j : Json) : Read UInt32 :=
  return .ofNat (← readInt (fitsUnsigned 32) j).toNat

def readUInt8 (j : Json) : Read UInt8 :=
  return .ofNat (← readInt (fitsUnsigned 8) j).toNat

def readDouble : Json → Read Double
  | .number n => ofOption n.toDouble?
  | _ => refuse

def readList {α : Type} (read : Json → Read α) : Json → Read (List α)
  | .array items => items.mapM read
  | _ => refuse

/-- `null` stands for no value. -/
def readOption {α : Type} (read : Json → Read α) : Json → Read (Option α)
  | .null => .ok none
  | j => some <$> read j

/-! ## Members -/

abbrev Members := List (String × Json)

def readMembers : Json → Read Members
  | .object members => .ok members
  | _ => refuse

/-- The members of an object in which `null` stands for a missing member. -/
def readPresent (j : Json) : Read Members :=
  return (← readMembers j).filter fun
    | (_, .null) => false
    | _ => true

namespace Members

/-- The member of a name, if there is one; two are refused. -/
def find (members : Members) (name : String) : Read (Option Json) :=
  match members.filter (·.1 == name) with
  | [] => .ok none
  | [(_, value)] => .ok (some value)
  | _ => refuse

def required {α : Type} (members : Members) (name : String) (read : Json → Read α) : Read α := do
  match ← members.find name with
  | some value => read value
  | none => refuse

def withDefault {α : Type} (members : Members) (name : String) (default : α)
    (read : Json → Read α) : Read α := do
  match ← members.find name with
  | some value => read value
  | none => return default

/-- A member that may be left out or `null`. -/
def optional {α : Type} (members : Members) (name : String) (read : Json → Read α) :
    Read (Option α) :=
  members.withDefault name none (readOption read)

end Members

/-! ## Shapes -/

/-- A named alternative with its content: a text alone has no content. -/
def readAlternative : Json → Read (String × Json)
  | .text name => .ok (name, .null)
  | .object [(name, content)] => .ok (name, content)
  | _ => refuse

/-- The content of an alternative that has none. -/
def readNothing : Source → Json → Read Unit
  | _, .null => .ok ()
  | .held, .object [] => .ok ()
  | _, _ => refuse

/-- Reads one of a set of names, which may also be given as an alternative without content. -/
def readNameFrom {α : Type} (source : Source) (ofName? : String → Option α) (j : Json) :
    Read α := do
  let (name, content) ← readAlternative j
  readNothing source content
  ofOption (ofName? name)

def readName {α : Type} (ofName? : String → Option α) : Json → Read α :=
  readNameFrom .text ofName?

/-- Reads one of some tags; held content can give it by its position. -/
def readTag (source : Source) (tags : List String) : Json → Read String
  | .number n =>
    match source with
    | .text => refuse
    | .held => ofOption ((n.int?.bind Int.toNat?).bind (tags[·]?))
  | j => readText j

/-- The tag and the members of a tagged object with one of some tags. -/
def readTagged (source : Source) (tags : List String) (j : Json) : Read (String × Members) := do
  let members ← readMembers j
  if j.isReadable then return (← members.required "type" (readTag source tags), members)
  else refuse

/-- The nesting that readers of whole texts accept. -/
def maxDepth : Nat := 127

/-- Reads a whole value. What nests too deeply can only be passed over. -/
def readWhole {α : Type} (read : Json → Read α) (j : Json) : Read α :=
  read (j.within maxDepth)

end QueryPlanning.Json
