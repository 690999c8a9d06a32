import Mathlib.Data.List.Forall2
import Mathlib.Data.List.Nodup
import Mathlib.Logic.Function.Basic
import QueryPlanning.Catalog.Hosts

/-!
# Numbered hosts

A numbering that goes on keeps what it has said: a number leads to its address for good, whatever
else is numbered, and also where an address comes twice. No address is added twice, so numbers and
addresses belong to each other one by one. A map of the numbers that is kept beside the addresses
and changed along with them finds the same numbers as a search through the addresses.
-/

namespace QueryPlanning.Hosts

variable {h h' h'' : Hosts}

/-- Every number keeps its address. -/
def Keeps (h h' : Hosts) : Prop := ∀ i a, h.address? i = some a → h'.address? i = some a

theorem Keeps.refl (h : Hosts) : h.Keeps h := fun _ _ ↦ id

theorem Keeps.trans (hk : h.Keeps h') (hk' : h'.Keeps h'') : h.Keeps h'' :=
  fun i a hi ↦ hk' i a (hk i a hi)

theorem keeps_number (h : Hosts) (a : Address) : h.Keeps (h.number a).2 :=
  fun _ _ ↦ address?_number

/-- The number of an address leads to it. -/
theorem address?_number_self (h : Hosts) (a : Address) :
    (h.number a).2.address? (h.number a).1 = some a := by
  unfold number
  cases hfind : h.find? a with
  | some i =>
    obtain ⟨hlt, hi, -⟩ := List.idxOf?_eq_some_iff.mp hfind
    exact List.getElem?_eq_some_iff.mpr ⟨hlt, hi⟩
  | none => exact List.getElem?_concat_length

/-- Numbers given one after the other all lead to their addresses in the end. -/
theorem forall₂_numberAll (h : Hosts) (addresses : List Address) :
    h.Keeps (h.numberAll addresses).2 ∧
      List.Forall₂ (fun i a ↦ (h.numberAll addresses).2.address? i = some a)
        (h.numberAll addresses).1 addresses := by
  induction addresses generalizing h with
  | nil => exact ⟨.refl h, .nil⟩
  | cons a rest ih =>
    obtain ⟨hkeeps, hrest⟩ := ih (h.number a).2
    exact ⟨(h.keeps_number a).trans hkeeps, .cons (hkeeps _ _ (h.address?_number_self a)) hrest⟩

/-- An address is added only if it is new, and at the end. -/
theorem addresses_number (h : Hosts) (a : Address) :
    (h.number a).2.addresses = if a ∈ h.addresses then h.addresses else h.addresses ++ [a] := by
  unfold number
  cases hfind : h.find? a with
  | some i =>
    have hmem : a ∈ h.addresses := List.isSome_idxOf?.mp (Option.isSome_of_eq_some hfind)
    rw [if_pos hmem]
  | none => rw [if_neg (List.idxOf?_eq_none_iff.mp hfind)]

theorem nodup_number (hn : h.addresses.Nodup) (a : Address) :
    (h.number a).2.addresses.Nodup := by
  rw [addresses_number]
  split
  · exact hn
  · rename_i hnew
    rw [← List.concat_eq_append]
    exact hn.concat hnew

theorem nodup_numberAll (hn : h.addresses.Nodup) (addresses : List Address) :
    (h.numberAll addresses).2.addresses.Nodup := by
  induction addresses generalizing h with
  | nil => exact hn
  | cons a rest ih => exact ih (nodup_number hn a)

/-- The first place of an address is the only one. -/
theorem find?_eq_some_iff (hn : h.addresses.Nodup) {a : Address} {i : Nat} :
    h.find? a = some i ↔ h.address? i = some a := by
  rw [find?, address?, List.idxOf?_eq_some_iff, List.getElem?_eq_some_iff]
  constructor
  · rintro ⟨hlt, hget, -⟩
    exact ⟨hlt, hget⟩
  · rintro ⟨hlt, hget⟩
    refine ⟨hlt, hget, fun j hj hsame ↦ ?_⟩
    have hji : j = i := (hn.getElem_inj_iff).mp (hsame.trans hget.symm)
    omega

/-- The addresses come in the order in which they were first seen. -/
theorem addresses_numberAll (h : Hosts) (addresses : List Address) :
    (h.numberAll addresses).2.addresses =
      h.addresses ++ (addresses.removeAll h.addresses).eraseDups := by
  induction addresses generalizing h with
  | nil => exact (List.append_nil _).symm
  | cons a rest ih =>
    have hstep : (h.numberAll (a :: rest)).2 = ((h.number a).2.numberAll rest).2 := rfl
    rw [hstep, ih, addresses_number, List.cons_removeAll]
    by_cases hmem : a ∈ h.addresses
    · simp [hmem]
    · have hfilter : rest.removeAll (h.addresses ++ [a]) =
          (rest.removeAll h.addresses).filter fun b ↦ !b == a := by
        simp only [List.removeAll, List.filter_filter]
        apply List.filter_congr
        intro b _
        simp only [List.elem_eq_contains, List.contains_append, List.contains_cons,
          List.contains_nil, Bool.or_false, Bool.not_or, Bool.and_comm]
      simp [hmem, hfilter, List.eraseDups_cons]

/-- What a search finds once a new address has been added. -/
theorem find?_concat {a : Address} (hnew : h.find? a = none) :
    (⟨h.addresses ++ [a]⟩ : Hosts).find? = Function.update h.find? a (some h.size) := by
  funext b
  have happend : (⟨h.addresses ++ [a]⟩ : Hosts).find? b =
      (h.find? b).or (if a = b then some h.size else none) := by
    unfold find? List.idxOf? size
    rw [List.findIdx?_append]
    by_cases hab : a = b <;> simp [hab]
  by_cases hab : a = b
  · rw [happend, if_pos hab, ← hab, hnew, Function.update_self, Option.none_or]
  · rw [happend, if_neg hab, Option.or_none, Function.update_of_ne (Ne.symm hab)]

/-- The addresses of a numbering with a map of their numbers beside them, so that no address has to
be searched for. -/
structure Indexed where
  addresses : List Address := []
  numbers : Address → Option Nat := fun _ ↦ none

namespace Indexed

/-- The number of an address. One that is new is entered into both the list and the map. -/
def number (t : Indexed) (a : Address) : Nat × Indexed :=
  match t.numbers a with
  | some i => (i, t)
  | none =>
    (t.addresses.length,
      { addresses := t.addresses ++ [a]
        numbers := Function.update t.numbers a (some t.addresses.length) })

def numberAll (t : Indexed) : List Address → List Nat × Indexed
  | [] => ([], t)
  | a :: rest =>
    let (i, t) := t.number a
    let (is, t) := t.numberAll rest
    (i :: is, t)

/-- The map says of each address where the list has it. -/
structure Represents (t : Indexed) (h : Hosts) : Prop where
  addresses : t.addresses = h.addresses
  numbers : t.numbers = h.find?

variable {t : Indexed}

theorem Represents.number (hr : t.Represents h) (a : Address) :
    (t.number a).1 = (h.number a).1 ∧ (t.number a).2.Represents (h.number a).2 := by
  unfold Indexed.number Hosts.number
  rw [hr.numbers, hr.addresses]
  cases hfind : h.find? a with
  | some i => exact ⟨rfl, hr⟩
  | none => exact ⟨rfl, ⟨rfl, (find?_concat hfind).symm⟩⟩

theorem Represents.numberAll (hr : t.Represents h) (addresses : List Address) :
    (t.numberAll addresses).1 = (h.numberAll addresses).1 ∧
      (t.numberAll addresses).2.Represents (h.numberAll addresses).2 := by
  induction addresses generalizing t h with
  | nil => exact ⟨rfl, hr⟩
  | cons a rest ih =>
    obtain ⟨hfirst, hr'⟩ := hr.number a
    obtain ⟨hrest, hend⟩ := ih hr'
    exact ⟨congrArg₂ List.cons hfirst hrest, hend⟩

end Indexed

/-- After any calls on an empty numbering, numbers and addresses are inverse to each other. The
numbers in use are those below the size, given in the order in which the addresses were first seen;
each call has returned the number of its address, and so does the next one. Later calls change
neither the address of a number nor the number of an address. A list with a map beside it, which
are changed together, gives the same answers. -/
theorem numberAll_bijective (addresses : List Address) :
    let numbers := (({} : Hosts).numberAll addresses).1
    let h := (({} : Hosts).numberAll addresses).2
    let t := (({} : Indexed).numberAll addresses).2
    (∀ a i, h.find? a = some i ↔ h.address? i = some a) ∧
      (∀ i, (∃ a, h.find? a = some i) ↔ i < h.size) ∧
      (∀ i, h.address? i = addresses.eraseDups[i]?) ∧
      List.Forall₂ (fun i a ↦ h.address? i = some a) numbers addresses ∧
      (∀ a, (h.number a).2.address? (h.number a).1 = some a) ∧
      (∀ later i a, h.address? i = some a → (h.numberAll later).2.address? i = some a) ∧
      (∀ later i a, h.find? a = some i → (h.numberAll later).2.find? a = some i) ∧
      (({} : Indexed).numberAll addresses).1 = numbers ∧
      (∀ i, t.addresses[i]? = h.address? i) ∧ ∀ a, t.numbers a = h.find? a := by
  intro numbers h t
  have hnodup : h.addresses.Nodup := nodup_numberAll List.nodup_nil addresses
  have hfind (a : Address) (i : Nat) : h.find? a = some i ↔ h.address? i = some a :=
    find?_eq_some_iff hnodup
  have horder : h.addresses = addresses.eraseDups := by
    have hall := addresses_numberAll {} addresses
    simpa [List.removeAll] using hall
  have hempty : ({} : Indexed).Represents {} := ⟨rfl, rfl⟩
  obtain ⟨hsame, hrepresents⟩ := hempty.numberAll addresses
  refine ⟨hfind, fun i ↦ ?_, fun i ↦ ?_, (forall₂_numberAll {} addresses).2,
    h.address?_number_self, fun later ↦ (h.forall₂_numberAll later).1, fun later i a hi ↦ ?_, hsame,
    fun i ↦ ?_, fun a ↦ congrFun hrepresents.numbers a⟩
  · simp only [hfind]
    rw [← Option.isSome_iff_exists, address?, isSome_getElem?]
    rfl
  · rw [address?, horder]
  · rw [find?_eq_some_iff (nodup_numberAll hnodup later)]
    exact (h.forall₂_numberAll later).1 i a ((hfind a i).mp hi)
  · rw [hrepresents.addresses]
    rfl

end QueryPlanning.Hosts
