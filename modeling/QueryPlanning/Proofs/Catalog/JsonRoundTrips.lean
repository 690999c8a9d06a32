import QueryPlanning.Catalog.Partition
import QueryPlanning.Proofs.Json.Reading

/-!
# The catalog in JSON

What is written of the catalog is read back as it was: column types, literals, the records of files
and partitions that hold them, and columns. A reader of column types goes down as many levels as its
value has, so it has not run out where a type ends. The integers of a record are in the range of the
words that they are written as, and a literal is no double, whose digits are not those it was read
from.
-/

namespace QueryPlanning

open Json Number Outcome

namespace ColumnType

mutual

theorem readWithin_toJson {t : ColumnType} {fuel : Nat} (h : t.toJson.depth < fuel) :
    readWithin fuel t.toJson = .ok t := by
  obtain ⟨fuel, rfl⟩ : ∃ n, fuel = n + 1 := ⟨fuel - 1, by omega⟩
  cases t with
  | array item =>
    simp only [toJson, depth, depthOfMembers] at h
    have hitem : readWithin fuel item.toJson = .ok item := readWithin_toJson (by omega)
    simp [toJson, readWithin, ofName?, ok_bind, hitem]
  | map key value =>
    simp only [toJson, depth, depthOfMembers] at h
    have hkey : readWithin fuel key.toJson = .ok key := readWithin_toJson (by omega)
    have hvalue : readWithin fuel value.toJson = .ok value := readWithin_toJson (by omega)
    simp [toJson, readWithin, ofName?, ok_bind, hkey, hvalue]
  | struct fields =>
    simp only [toJson, depth, depthOfMembers] at h
    have hfields : readList (readField (readWithin fuel)) (.array (fieldsToJson fields)) =
        .ok fields := readFields_toJson (by omega)
    simp [toJson, readWithin, ofName?, ok_bind, hfields]
  | _ => simp [toJson, readWithin, ofName?, ok_bind]

theorem readFields_toJson {fields : List (String × ColumnType)} {fuel : Nat}
    (h : depthOfItems (fieldsToJson fields) ≤ fuel) :
    readList (readField (readWithin fuel)) (.array (fieldsToJson fields)) = .ok fields := by
  cases fields with
  | nil => rfl
  | cons field rest =>
    obtain ⟨name, type⟩ := field
    simp only [fieldsToJson, depthOfItems, depth] at h
    have htype : readWithin fuel type.toJson = .ok type := readWithin_toJson (by omega)
    have hrest : (fieldsToJson rest).mapM (readField (readWithin fuel)) = .ok rest :=
      readFields_toJson (by omega)
    simp [readList, fieldsToJson, readField, ok_bind, htype, hrest]

end

theorem read_toJson (t : ColumnType) : read t.toJson = .ok t :=
  readWithin_toJson (Nat.lt_succ_self _)

end ColumnType

namespace Literal

def isDouble : Literal → Bool
  | .double _ => true
  | _ => false

def isDecimal : Literal → Bool
  | .decimal _ => true
  | _ => false

@[simp]
theorem readUnscaled_int (n : Int) : readUnscaled (.int n) = .ok n := by
  simp [readUnscaled, Json.int, ofOption]

theorem readDecimal_toJson (d : Decimal) :
    readDecimal (.object [("unscaled", .int d.unscaled), ("scale", .nat d.scale.toNat)]) =
      .ok d := by
  simp [readDecimal, ok_bind, ofOption]

theorem readInt64_toInt (n : Int64) : readInt64 (.int n.toInt) = .ok n.toInt := by
  have hlow := n.le_toInt
  have hhigh := n.toInt_lt
  refine readInt64_int ?_
  simp only [fitsSigned, Bool.and_eq_true, decide_eq_true_eq]
  omega

/-- A decimal is read from a text only, all other literals but doubles wherever they stand. -/
theorem readFrom_toJson {source : Source} {v : Literal} (hdouble : v.isDouble = false)
    (hdecimal : source = .held → v.isDecimal = false) : readFrom source v.toJson = .ok v := by
  cases v with
  | null => simp [toJson, readFrom, ok_bind]
  | boolean b => simp [toJson, readFrom, readScalar, ok_bind]
  | integer n => simp [toJson, readFrom, readScalar, ok_bind, readInt64_toInt]
  | double x => cases hdouble
  | decimal d =>
    cases source with
    | text => simp [toJson, readFrom, ok_bind, readDecimal_toJson]
    | held => cases hdecimal rfl
  | string s => simp [toJson, readFrom, readScalar, ok_bind]

theorem read_toJson {v : Literal} (hdouble : v.isDouble = false) : read v.toJson = .ok v :=
  readFrom_toJson hdouble nofun

theorem depth_toJson_le {v : Literal} (hdouble : v.isDouble = false) : v.toJson.depth ≤ 2 := by
  cases v with
  | double x => cases hdouble
  | _ => simp [toJson, depth, depthOfMembers, Json.int, Json.nat]

end Literal

/-- The numbers of a record fit into the words that they are written as. -/
def Replica.FitsWords (r : Replica) : Prop :=
  fitsUnsigned 64 r.host = true

theorem Replica.read_toJson {r : Replica} (h : r.FitsWords) : read r.toJson = .ok r := by
  simp [read, toJson, ok_bind, readNat_nat h]

structure Block.FitsWords (b : Block) : Prop where
  offset : fitsSigned 64 b.offset = true
  length : fitsSigned 64 b.length = true
  replicas : ∀ r ∈ b.replicas, r.FitsWords

namespace Block

theorem read_toJson {b : Block} (h : b.FitsWords) : read b.toJson = .ok b := by
  have hreplicas : readList Replica.read (.array (b.replicas.map Replica.toJson)) =
      .ok b.replicas :=
    readList_map fun r hr ↦ Replica.read_toJson (h.replicas r hr)
  simp [read, toJson, ok_bind, readInt64_int h.offset, readInt64_int h.length, hreplicas]

theorem depth_toJson_le (b : Block) : b.toJson.depth ≤ 3 := by
  have hreplicas : depthOfItems (b.replicas.map Replica.toJson) ≤ 1 := by
    simp [depthOfItems_le, Replica.toJson, depth, depthOfMembers, Json.int, Json.nat]
  simp only [toJson, depth, depthOfMembers, Json.int]
  omega

end Block

structure DataFile.FitsWords (f : DataFile) : Prop where
  length : fitsSigned 64 f.length = true
  modified : fitsSigned 64 f.modified = true
  blocks : ∀ b ∈ f.blocks, b.FitsWords

namespace DataFile

theorem read_toJson {f : DataFile} (h : f.FitsWords) : read f.toJson = .ok f := by
  have hcompression : Compression.read f.compression.toJson = .ok f.compression :=
    readName_text (by simp)
  have hblocks : readList Block.read (.array (f.blocks.map Block.toJson)) = .ok f.blocks :=
    readList_map fun b hb ↦ Block.read_toJson (h.blocks b hb)
  simp [read, toJson, ok_bind, readInt64_int h.length, readInt64_int h.modified, hcompression,
    hblocks]

theorem depth_toJson_le (f : DataFile) : f.toJson.depth ≤ 5 := by
  have hblocks : depthOfItems (f.blocks.map Block.toJson) ≤ 3 := by
    simp [depthOfItems_le, Block.depth_toJson_le]
  simp only [toJson, depth, depthOfMembers, Json.int, Compression.toJson]
  omega

end DataFile

namespace KeyValue

theorem read_toJson {kv : KeyValue} (hdouble : kv.value.isDouble = false) :
    read kv.toJson = .ok kv := by
  simp [read, toJson, ok_bind, Literal.read_toJson hdouble]

theorem depth_toJson_le {kv : KeyValue} (hdouble : kv.value.isDouble = false) :
    kv.toJson.depth ≤ 3 := by
  have hvalue := Literal.depth_toJson_le hdouble
  simp only [toJson, depth, depthOfMembers]
  omega

end KeyValue

structure Partition.FitsWords (p : Partition) : Prop where
  id : fitsSigned 64 p.id.val = true
  rows : fitsSigned 64 p.rows = true
  files : ∀ f ∈ p.files, f.FitsWords

namespace Partition

theorem read_toJson {p : Partition} (h : p.FitsWords)
    (hdouble : ∀ v ∈ p.values, v.isDouble = false) : read p.toJson = .ok p := by
  have hformat : FileFormat.read p.format.toJson = .ok p.format := readName_text (by simp)
  have haccess : Access.read p.access.toJson = .ok p.access := readName_text (by simp)
  have hvalues : readList Literal.read (.array (p.values.map Literal.toJson)) = .ok p.values :=
    readList_map fun v hv ↦ Literal.read_toJson (hdouble v hv)
  have hfiles : readList DataFile.read (.array (p.files.map DataFile.toJson)) = .ok p.files :=
    readList_map fun f hf ↦ DataFile.read_toJson (h.files f hf)
  simp [read, toJson, ok_bind, readInt64_int h.id, readInt64_int h.rows, hformat, haccess,
    hvalues, hfiles]

theorem depth_toJson_le {p : Partition} (hdouble : ∀ v ∈ p.values, v.isDouble = false) :
    p.toJson.depth ≤ 7 := by
  have hvalues : depthOfItems (p.values.map Literal.toJson) ≤ 2 := by
    simpa [depthOfItems_le] using fun v hv ↦ Literal.depth_toJson_le (hdouble v hv)
  have hfiles : depthOfItems (p.files.map DataFile.toJson) ≤ 5 := by
    simp [depthOfItems_le, DataFile.depth_toJson_le]
  simp only [toJson, depth, depthOfMembers, Json.int, FileFormat.toJson, Access.toJson]
  omega

end Partition

structure Column.FitsWords (c : Column) : Prop where
  position : fitsUnsigned 64 c.position = true
  nulls : fitsSigned 64 c.stats.nulls = true
  distinct : fitsSigned 64 c.stats.distinct = true

namespace Column

theorem read_toJson {c : Column} (h : c.FitsWords) : read c.toJson = .ok c := by
  have hstats : readStats (statsToJson c.stats) = .ok c.stats := by
    simp [readStats, statsToJson, ok_bind, readInt64_int h.nulls, readInt64_int h.distinct]
  obtain ⟨name, type, position, comment, stats⟩ := c
  cases comment <;>
    simp [read, toJson, ok_bind, readNat_nat h.position, ColumnType.read_toJson, Members.optional,
      readOption, hstats]

end Column

/-- What is written of the catalog is read back as it was. -/
theorem catalog_read_toJson :
    (∀ t : ColumnType, t.toJson.depth ≤ maxDepth → readWhole ColumnType.read t.toJson = .ok t) ∧
    (∀ v : Literal, v.isDouble = false → readWhole Literal.read v.toJson = .ok v) ∧
    (∀ kv : KeyValue, kv.value.isDouble = false → readWhole KeyValue.read kv.toJson = .ok kv) ∧
    (∀ b : Block, b.FitsWords → readWhole Block.read b.toJson = .ok b) ∧
    (∀ f : DataFile, f.FitsWords → readWhole DataFile.read f.toJson = .ok f) ∧
    (∀ p : Partition, p.FitsWords → (∀ v ∈ p.values, v.isDouble = false) →
      readWhole Partition.read p.toJson = .ok p) ∧
    (∀ c : Column, c.FitsWords → c.toJson.depth ≤ maxDepth →
      readWhole Column.read c.toJson = .ok c) := by
  refine ⟨fun t hdepth ↦ ?types, fun v hdouble ↦ ?literals, fun kv hdouble ↦ ?keyValues,
    fun b h ↦ ?blocks, fun f h ↦ ?files, fun p h hdouble ↦ ?partitions, fun c h hdepth ↦ ?columns⟩
  case types => rw [readWhole_eq hdepth, ColumnType.read_toJson]
  case literals =>
    rw [readWhole_eq (Nat.le_trans (Literal.depth_toJson_le hdouble) (by decide)),
      Literal.read_toJson hdouble]
  case keyValues =>
    rw [readWhole_eq (Nat.le_trans (KeyValue.depth_toJson_le hdouble) (by decide)),
      KeyValue.read_toJson hdouble]
  case blocks =>
    rw [readWhole_eq (Nat.le_trans b.depth_toJson_le (by decide)), Block.read_toJson h]
  case files =>
    rw [readWhole_eq (Nat.le_trans f.depth_toJson_le (by decide)), DataFile.read_toJson h]
  case partitions =>
    rw [readWhole_eq (Nat.le_trans (Partition.depth_toJson_le hdouble) (by decide)),
      Partition.read_toJson h hdouble]
  case columns => rw [readWhole_eq hdepth, Column.read_toJson h]

/-- A cached file of a partition whose key is the smallest decimal, and the column of that key. -/
theorem catalog_read_toJson_smallest :
    let type : ColumnType := .struct [("price", .decimal 38 38), ("tags", .array (.varchar 10))]
    let smallest : Literal :=
      .decimal ⟨-0x80000000000000000000000000000000, 38, by decide⟩
    let block : Block := ⟨0, 1024, [⟨0, true⟩]⟩
    let file := DataFile.named "part-0.gz" 1024 (-1) [block]
    let partition : Partition :=
      { id := ⟨1⟩, values := [smallest, .null], location := "/", format := .text, files := [file] }
    let column : Column := { name := "price", type := type, position := 0 }
    readWhole ColumnType.read type.toJson = .ok type ∧
      readWhole Literal.read smallest.toJson = .ok smallest ∧
      readWhole KeyValue.read (KeyValue.toJson ⟨"price", smallest⟩) = .ok ⟨"price", smallest⟩ ∧
      readWhole Block.read block.toJson = .ok block ∧
      readWhole DataFile.read file.toJson = .ok file ∧
      readWhole Partition.read partition.toJson = .ok partition ∧
      readWhole Column.read column.toJson = .ok column := by
  intro type smallest block file partition column
  obtain ⟨types, literals, keyValues, blocks, files, partitions, columns⟩ := catalog_read_toJson
  have hblock : block.FitsWords :=
    ⟨by decide, by decide, List.forall_mem_singleton.mpr (show fitsUnsigned 64 0 = true by decide)⟩
  have hfile : file.FitsWords :=
    ⟨by decide, by decide, List.forall_mem_singleton.mpr hblock⟩
  exact ⟨types type (by decide), literals smallest rfl, keyValues _ rfl, blocks block hblock,
    files file hfile,
    partitions partition ⟨by decide, by decide, List.forall_mem_singleton.mpr hfile⟩ (by decide),
    columns column ⟨by decide, by decide, by decide⟩ (by decide)⟩

end QueryPlanning
