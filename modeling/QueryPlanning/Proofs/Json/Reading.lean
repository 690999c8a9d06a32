import QueryPlanning.Json.Reader
import QueryPlanning.Proofs.Outcome

/-!
# Reading what was written

A reader that is given a member by its name takes it out of a list of members wherever it stands, as
long as the name occurs only once. Numbers that fit into the word of their reader, texts, lists and
names are read back as they were written, and a value that does not nest too deeply is read by
`readWhole` as it is.
-/

namespace QueryPlanning.Json

open Number Outcome

variable {α : Type}

mutual

theorem within_of_depth_le {room : Nat} {j : Json} (h : j.depth ≤ room) : j.within room = j := by
  cases j with
  | array items =>
    rw [depth] at h
    obtain ⟨room, rfl⟩ : ∃ r, room = r + 1 := ⟨room - 1, by omega⟩
    rw [within, itemsWithin_of_depth_le (by omega)]
  | object members =>
    rw [depth] at h
    obtain ⟨room, rfl⟩ : ∃ r, room = r + 1 := ⟨room - 1, by omega⟩
    rw [within, membersWithin_of_depth_le (by omega)]
  | null | bool | number | text | unreadable => rw [within] <;> simp

theorem itemsWithin_of_depth_le {room : Nat} {items : List Json} (h : depthOfItems items ≤ room) :
    itemsWithin room items = items := by
  cases items with
  | nil => rw [itemsWithin]
  | cons item rest =>
    rw [depthOfItems] at h
    rw [itemsWithin, within_of_depth_le (by omega), itemsWithin_of_depth_le (by omega)]

theorem membersWithin_of_depth_le {room : Nat} {members : Members}
    (h : depthOfMembers members ≤ room) : membersWithin room members = members := by
  cases members with
  | nil => rw [membersWithin]
  | cons member rest =>
    obtain ⟨name, value⟩ := member
    rw [depthOfMembers] at h
    rw [membersWithin, within_of_depth_le (by omega), membersWithin_of_depth_le (by omega)]

end

theorem readWhole_eq {read : Json → Read α} {j : Json} (h : j.depth ≤ maxDepth) :
    readWhole read j = read j := by
  rw [readWhole, within_of_depth_le h]

theorem depthOfItems_le {items : List Json} {bound : Nat} :
    depthOfItems items ≤ bound ↔ ∀ j ∈ items, j.depth ≤ bound := by
  induction items with
  | nil => simp [depthOfItems]
  | cons item rest ih => rw [depthOfItems, Nat.max_le, ih, List.forall_mem_cons]

@[simp]
theorem readInt_int {accepts : Int → Bool} {n : Int} (h : accepts n = true) :
    readInt accepts (.int n) = .ok n := by
  simp [readInt, int, h]

@[simp]
theorem readInt64_int {n : Int} (h : fitsSigned 64 n = true) : readInt64 (.int n) = .ok n :=
  readInt_int h

@[simp]
theorem readNat_nat {n : Nat} (h : fitsUnsigned 64 n = true) : readNat (.nat n) = .ok n := by
  simp [readNat, nat, readInt_int h]

@[simp]
theorem readUInt32_nat (w : UInt32) : readUInt32 (.nat w.toNat) = .ok w := by
  have hfits : fitsUnsigned 32 w.toNat = true := by
    have hlt := w.toNat_lt
    simp only [fitsUnsigned, Bool.and_eq_true, decide_eq_true_eq]
    omega
  simp [readUInt32, nat, readInt_int hfits]

@[simp]
theorem readUInt8_nat (w : UInt8) : readUInt8 (.nat w.toNat) = .ok w := by
  have hfits : fitsUnsigned 8 w.toNat = true := by
    have hlt := w.toNat_lt
    simp only [fitsUnsigned, Bool.and_eq_true, decide_eq_true_eq]
    omega
  simp [readUInt8, nat, readInt_int hfits]

@[simp]
theorem readBool_bool (b : Bool) : readBool (.bool b) = .ok b := rfl

@[simp]
theorem readText_text (s : String) : readText (.text s) = .ok s := rfl

theorem readList_map {read : Json → Read α} {write : α → Json} {l : List α}
    (h : ∀ a ∈ l, read (write a) = .ok a) : readList read (.array (l.map write)) = .ok l := by
  rw [readList, mapM_eq_ok, List.forall₂_map_left_iff, List.forall₂_same]
  exact h

@[simp]
theorem readAlternative_text (name : String) : readAlternative (.text name) = .ok (name, .null) :=
  rfl

@[simp]
theorem readAlternative_object (name : String) (content : Json) :
    readAlternative (.object [(name, content)]) = .ok (name, content) :=
  rfl

@[simp]
theorem readNothing_null (source : Source) : readNothing source .null = .ok () := by
  rw [readNothing]

@[simp]
theorem readMembers_object (members : Members) : readMembers (.object members) = .ok members :=
  rfl

theorem readName_text {ofName? : String → Option α} {name : String} {a : α}
    (h : ofName? name = some a) : readName ofName? (.text name) = .ok a := by
  simp [readName, readNameFrom, h, ofOption, ok_bind]

namespace Members

@[simp]
theorem find_cons_of_ne {other name : String} {value : Json} {rest : Members}
    (h : other ≠ name) : find ((other, value) :: rest) name = find rest name := by
  simp [find, h]

@[simp]
theorem find_cons_self {name : String} {value : Json} {rest : Members}
    (h : ∀ m ∈ rest, m.1 ≠ name) : find ((name, value) :: rest) name = .ok (some value) := by
  have hnone : rest.filter (·.1 == name) = [] := by simpa using h
  simp [find, hnone]

@[simp]
theorem required_cons_of_ne {other name : String} {value : Json} {rest : Members}
    {read : Json → Read α} (h : other ≠ name) :
    required ((other, value) :: rest) name read = required rest name read := by
  rw [required, find_cons_of_ne h, required]

/-- The member of a name that occurs once is what its reader makes of it. -/
@[simp]
theorem required_cons_self {name : String} {value : Json} {rest : Members} {read : Json → Read α}
    (h : ∀ m ∈ rest, m.1 ≠ name) : required ((name, value) :: rest) name read = read value := by
  rw [required, find_cons_self h]
  rfl

@[simp]
theorem withDefault_nil {name : String} {default : α} {read : Json → Read α} :
    withDefault [] name default read = .ok default := rfl

@[simp]
theorem withDefault_cons_of_ne {other name : String} {value : Json} {rest : Members} {default : α}
    {read : Json → Read α} (h : other ≠ name) :
    withDefault ((other, value) :: rest) name default read =
      withDefault rest name default read := by
  rw [withDefault, find_cons_of_ne h, withDefault]

@[simp]
theorem withDefault_cons_self {name : String} {value : Json} {rest : Members} {default : α}
    {read : Json → Read α} (h : ∀ m ∈ rest, m.1 ≠ name) :
    withDefault ((name, value) :: rest) name default read = read value := by
  rw [withDefault, find_cons_self h]
  rfl

end Members

end QueryPlanning.Json
