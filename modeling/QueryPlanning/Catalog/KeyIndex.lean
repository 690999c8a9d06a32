import QueryPlanning.Catalog.Column
import QueryPlanning.Catalog.IdSet
import QueryPlanning.Catalog.Literal

/-!
# Key index

For each clustering column of a table the index lists the values that occur, in ascending order,
each with the set of partitions that have it; partitions with a null there are kept in a set apart.
The statistics of the columns are counted along: `nulls` with every added null, `distinct` with
every value, null included, that comes to the first partition or goes with the last.
-/

namespace QueryPlanning

/-- The index of one clustering column. -/
structure KeyColumn where
  /-- Ascending in the order of literals. -/
  buckets : List (Literal × IdSet) := []
  nulls : IdSet := []
  deriving Inhabited

namespace KeyColumn

/-- The partitions in the bucket of a value, if there is one. -/
def bucket? (v : Literal) : List (Literal × IdSet) → Option IdSet
  | [] => none
  | (k, ids) :: rest =>
    match v.compare k with
    | .lt => none
    | .eq => some ids
    | .gt => bucket? v rest

/-- Puts a partition into the bucket of a value, which is made in its place if need be. -/
def insertKey (v : Literal) (id : PartitionId) : List (Literal × IdSet) → List (Literal × IdSet)
  | [] => [(v, [id])]
  | (k, ids) :: rest =>
    match v.compare k with
    | .lt => (v, [id]) :: (k, ids) :: rest
    | .eq => (k, ids.insert id) :: rest
    | .gt => (k, ids) :: insertKey v id rest

/-- Takes a partition out of the bucket of a value; an empty bucket goes. -/
def eraseKey (v : Literal) (id : PartitionId) : List (Literal × IdSet) → List (Literal × IdSet)
  | [] => []
  | (k, ids) :: rest =>
    match v.compare k with
    | .lt => (k, ids) :: rest
    | .eq => if (ids.erase id).isEmpty then rest else (k, ids.erase id) :: rest
    | .gt => (k, ids) :: eraseKey v id rest

def add (id : PartitionId) (v : Literal) (c : KeyColumn) (s : ColumnStats) :
    KeyColumn × ColumnStats :=
  if v.isNull then
    ({ c with nulls := c.nulls.insert id },
      ⟨s.nulls + 1, if c.nulls.isEmpty then s.distinct + 1 else s.distinct⟩)
  else
    ({ c with buckets := insertKey v id c.buckets },
      if (bucket? v c.buckets).isNone then { s with distinct := s.distinct + 1 } else s)

def remove (id : PartitionId) (v : Literal) (c : KeyColumn) (s : ColumnStats) :
    KeyColumn × ColumnStats :=
  if v.isNull then
    if c.nulls.contains id then
      let nulls := c.nulls.erase id
      ({ c with nulls },
        ⟨s.nulls - 1, if nulls.isEmpty then s.distinct - 1 else s.distinct⟩)
    else (c, s)
  else match bucket? v c.buckets with
    | none => (c, s)
    | some ids =>
      ({ c with buckets := eraseKey v id c.buckets },
        if (ids.erase id).isEmpty then { s with distinct := s.distinct - 1 } else s)

end KeyColumn

structure KeyIndex where
  columns : List KeyColumn
  ids : IdSet := []
  deriving Inhabited

namespace KeyIndex

/-- The index of a table without partitions. -/
def empty (clustering : Nat) : KeyIndex := ⟨List.replicate clustering {}, []⟩

/-- Changes the index of each column that has a value, along with the statistics of the column. -/
def update (f : Literal → KeyColumn → ColumnStats → KeyColumn × ColumnStats) :
    List Literal → List KeyColumn → List ColumnStats → List KeyColumn × List ColumnStats
  | v :: vs, c :: cs, s :: ss =>
    let (c, s) := f v c s
    let (cs, ss) := update f vs cs ss
    (c :: cs, s :: ss)
  | _, cs, ss => (cs, ss)

/-- Adds a partition under its values. -/
def add (ix : KeyIndex) (id : PartitionId) (values : List Literal) (stats : List ColumnStats) :
    KeyIndex × List ColumnStats :=
  let (columns, stats) := update (KeyColumn.add id) values ix.columns stats
  (⟨columns, ix.ids.insert id⟩, stats)

/-- Takes a partition out from under its values. -/
def remove (ix : KeyIndex) (id : PartitionId) (values : List Literal) (stats : List ColumnStats) :
    KeyIndex × List ColumnStats :=
  let (columns, stats) := update (KeyColumn.remove id) values ix.columns stats
  (⟨columns, ix.ids.erase id⟩, stats)

def clear (ix : KeyIndex) : KeyIndex := empty ix.columns.length

def buckets? (ix : KeyIndex) (col : Nat) : Option (List (Literal × IdSet)) :=
  ix.columns[col]?.map (·.buckets)

def nulls? (ix : KeyIndex) (col : Nat) : Option IdSet :=
  ix.columns[col]?.map (·.nulls)

/-- The partitions with a value in a column; a null finds the partitions with a null. -/
def withValue (ix : KeyIndex) (col : Nat) (v : Literal) : IdSet :=
  match ix.columns[col]? with
  | none => []
  | some c => if v.isNull then c.nulls else (KeyColumn.bucket? v c.buckets).getD []

end KeyIndex

/-! ## Ranges -/

/-- One end of a range of values. -/
structure RangeBound where
  value : Literal
  inclusive : Bool := false
  deriving DecidableEq, Inhabited

namespace RangeBound

/-- Whether a value is on the inner side of a lower end. -/
def isBelow (b : RangeBound) (v : Literal) : Bool :=
  match b.value.compare v with
  | .lt => true
  | .eq => b.inclusive
  | .gt => false

/-- Whether a value is on the inner side of an upper end. -/
def isAbove (b : RangeBound) (v : Literal) : Bool :=
  match v.compare b.value with
  | .lt => true
  | .eq => b.inclusive
  | .gt => false

/-- Whether no value can lie between two ends. -/
def excludesAll (lower upper : RangeBound) : Bool :=
  match lower.value.compare upper.value with
  | .lt => false
  | .eq => !(lower.inclusive && upper.inclusive)
  | .gt => true

end RangeBound

/-- The partitions whose value in a column is no null and lies in a range. -/
def KeyIndex.inRange (ix : KeyIndex) (col : Nat) (lower upper : Option RangeBound) : IdSet :=
  let isEmpty :=
    match lower, upper with
    | some l, some u => l.excludesAll u
    | _, _ => false
  if isEmpty then []
  else
    let within (v : Literal) : Bool :=
      lower.all (·.isBelow v) && upper.all (·.isAbove v)
    let hits := ((ix.buckets? col).getD []).filter fun (k, _) ↦ within k
    hits.foldr (fun (_, ids) found ↦ IdSet.union ids found) []

end QueryPlanning
