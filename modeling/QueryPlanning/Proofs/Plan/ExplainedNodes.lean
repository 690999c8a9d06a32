import QueryPlanning.Plan.Explain
import QueryPlanning.Proofs.Plan.OwnNodes

/-!
# What the text of a plan shows

A line of the text shows a node if it has a number behind its margin, and a fragment if it begins
with an F. No other line looks like that: details begin with words, and so do the lines of sinks.
The nodes of a fragment come in another order than on a walk, because the first child of a node is
shown last, but there is one line for each.
-/

namespace QueryPlanning

namespace Line

/-- Blanks, bars and branches stand in front of what a line shows. -/
def isMargin (c : Char) : Bool := c = ' ' || c = '|' || c = '-'

/-- What a line shows behind its margin. -/
def body (line : String) : List Char := line.toList.dropWhile isMargin

/-- The number and the name of a node, if the line shows one. -/
def nodeTitle? (line : String) : Option String :=
  if (body line).head?.any Char.isDigit then some (.ofList (body line)) else none

def opensFragment (line : String) : Bool := line.toList.head? = some 'F'

/-- A margin leaves the first column to fragments and plans. -/
structure Margin (margin : String) : Prop where
  ne_nil : margin.toList ≠ []
  all : ∀ c ∈ margin.toList, isMargin c = true

variable {margin text line : String} {c : Char}

theorem Margin.append (h : Margin margin) (text : String)
    (htext : text.toList.all isMargin = true) : Margin (margin ++ text) where
  ne_nil := by simp [h.ne_nil]
  all c hc := by
    rw [String.toList_append, List.mem_append] at hc
    exact hc.elim (h.all c) (List.all_eq_true.mp htext c)

theorem Margin.body_append (h : Margin margin) : body (margin ++ text) = body text := by
  rw [body, String.toList_append, List.dropWhile_append_of_pos h.all, body]

theorem head?_body_append (h : (body line).head? = some c) :
    (body (line ++ text)).head? = some c := by
  have hne : (body line).isEmpty = false := by
    cases hbody : body line with
    | nil => simp [hbody] at h
    | cons => rfl
  rw [body, String.toList_append, List.dropWhile_append, ← body, hne]
  simp [List.head?_append, h]

/-- The line begins with a word, perhaps behind a margin. -/
def Worded (line : String) : Prop := ∃ c, (body line).head? = some c ∧ c.isDigit = false

theorem Worded.append (h : Worded line) (text : String) : Worded (line ++ text) := by
  obtain ⟨c, hhead, hc⟩ := h
  exact ⟨c, head?_body_append hhead, hc⟩

theorem Worded.nodeTitle? (h : Worded line) : nodeTitle? line = none := by
  obtain ⟨c, hhead, hc⟩ := h
  simp [Line.nodeTitle?, hhead, hc]

/-- The number of a node stands right behind the margin. -/
theorem Margin.nodeTitle? (h : Margin margin) {c : Char} (hdigit : c.isDigit = true)
    (htext : text.toList.head? = some c) : Line.nodeTitle? (margin ++ text) = some text := by
  have hc : isMargin c = false := by
    rw [← Bool.not_eq_true]
    intro hc
    rw [isMargin, Bool.or_eq_true, Bool.or_eq_true, decide_eq_true_iff, decide_eq_true_iff,
      decide_eq_true_iff] at hc
    rcases hc with (rfl | rfl) | rfl <;> cases hdigit
  have hbody : body text = text.toList := by
    cases hcons : text.toList with
    | nil => simp [hcons] at htext
    | cons d rest =>
      rw [hcons, List.head?_cons, Option.some.injEq] at htext
      rw [body, hcons, List.dropWhile_cons_of_neg (by simp [htext, hc])]
  rw [Line.nodeTitle?, h.body_append, hbody, htext, Option.any_some, if_pos hdigit,
    String.ofList_toList]

end Line

namespace Session

variable {s : Session} {level : Detail}

open Line

/-- How many hosts execute a fragment, if the level of detail asks for it. -/
def hostsText (s : Session) (level : Detail) (i : FragmentId) : Except Error String :=
  if level.atLeast .extended then (fun hosts ↦ " hosts=" ++ toString hosts) <$> s.hostsOf i
  else pure ""

/-- A title gives the number of a node, its name and what belongs to it. -/
def NodeTitle (s : Session) (i : NodeId) (title : String) : Prop :=
  ∃ n header, s.node? i = some n ∧ s.header n = .ok header ∧
    title = i.text ++ ":" ++ n.name ++ header

/-- The line at which a fragment begins gives its number and how its rows are spread. -/
def FragmentLine (s : Session) (level : Detail) (f : FragmentId) (line : String) : Prop :=
  ∃ x hosts, s.fragment? f = some x ∧ s.hostsText level f = .ok hosts ∧
    line = "F" ++ f.text ++ ":PLAN FRAGMENT [" ++ x.partitioning.text ++ "]" ++ hosts

/-- The lines show some fragments, in their order, and some nodes, each once. -/
structure Shows (s : Session) (level : Detail) (lines : List String)
    (fragments : List FragmentId) (nodes : List NodeId) : Prop where
  fragments : List.Forall₂ (s.FragmentLine level) fragments (lines.filter opensFragment)
  nodes : ∃ order, order.Perm nodes ∧ List.Forall₂ s.NodeTitle order (lines.filterMap nodeTitle?)

namespace Shows

variable {lines lines' : List String} {fs fs' : List FragmentId} {ns ns' : List NodeId}

theorem append (h : s.Shows level lines fs ns) (h' : s.Shows level lines' fs' ns') :
    s.Shows level (lines ++ lines') (fs ++ fs') (ns ++ ns') where
  fragments := by
    rw [List.filter_append]
    exact List.rel_append h.fragments h'.fragments
  nodes := by
    obtain ⟨order, hperm, htitles⟩ := h.nodes
    obtain ⟨order', hperm', htitles'⟩ := h'.nodes
    rw [List.filterMap_append]
    exact ⟨order ++ order', hperm.append hperm', List.rel_append htitles htitles'⟩

theorem perm (h : s.Shows level lines fs ns) (hns : ns.Perm ns') : s.Shows level lines fs ns' := by
  obtain ⟨order, hperm, htitles⟩ := h.nodes
  exact ⟨h.fragments, order, hperm.trans hns, htitles⟩

end Shows

end Session

end QueryPlanning
