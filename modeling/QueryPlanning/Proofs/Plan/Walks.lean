import Mathlib.Order.Bounds.Basic
import QueryPlanning.Plan.Walk
import QueryPlanning.Proofs.Plan.OwnNodes

/-!
# Walks over plans

A walk goes down the nodes of one fragment after the other and ends in all of them when the visitor
ends it, so that it comes to what the visitor makes of the list of their nodes. The row bound is
found by a visitor that keeps a maximum until it meets a node without one.
-/

namespace QueryPlanning

namespace Visitor

variable {σ : Type}

/-- Shows nodes to a visitor until it ends the walk, and says whether it has not. -/
def pass (visit : Visitor σ) : List Node → σ → σ × Bool
  | [], st => (st, true)
  | n :: rest, st =>
    if (visit n st).2 then visit.pass rest (visit n st).1 else ((visit n st).1, false)

theorem pass_append (visit : Visitor σ) (ms ns : List Node) (st : σ) :
    visit.pass (ms ++ ns) st =
      if (visit.pass ms st).2 then visit.pass ns (visit.pass ms st).1
      else ((visit.pass ms st).1, false) := by
  induction ms generalizing st with
  | nil => rfl
  | cons m ms ih =>
    rw [List.cons_append, pass, pass]
    cases (visit m st).2 with
    | true => exact ih _
    | false => rfl

end Visitor

namespace Session

variable {σ α : Type} {s : Session} {visit : Visitor σ} {f : FragmentId}

/-- A walk along items shows the nodes of one after the other. -/
theorem walkAlong_eq {step : α → σ → Except Error (σ × Bool)} {as : List α}
    {blocks : List (List Node)}
    (h : List.Forall₂ (fun a ns ↦ ∀ st, step a st = .ok (visit.pass ns st)) as blocks) (st : σ) :
    walkAlong step as st = .ok (visit.pass blocks.flatten st) := by
  induction h generalizing st with
  | nil => rfl
  | @cons a ns as blocks ha _ ih =>
    rw [walkAlong, ha, List.flatten_cons, Visitor.pass_append]
    simp only [Outcome.ok_bind]
    split
    · exact ih _
    · rfl

/-- A walk that is ended at a node, or below it, goes no further. -/
theorem visitWithin_eq {depth : Nat} {i : NodeId} {ns : List Node}
    (h : s.executedWithin f depth i = .ok ns) (st : σ) :
    s.visitWithin visit f depth i st = .ok (visit.pass ns st) := by
  induction depth generalizing i ns st with
  | zero => cases h
  | succ depth ih =>
    obtain ⟨n, hn, h⟩ := Outcome.bind_eq_ok.mp h
    rw [visitWithin, hn]
    simp only [Outcome.ok_bind]
    by_cases hfragment : n.fragment ≠ f
    · rw [if_pos hfragment] at h ⊢
      obtain rfl := Outcome.pure_eq_ok.mp h
      rfl
    rw [if_neg hfragment] at h ⊢
    have hpass (rest : List Node) : visit.pass (n :: rest) st =
        if (visit n st).2 then visit.pass rest (visit n st).1 else ((visit n st).1, false) := rfl
    by_cases hexchange : n.isExchange
    · rw [if_pos hexchange] at h ⊢
      obtain rfl := Outcome.pure_eq_ok.mp h
      rw [hpass]
      cases (visit n st).2 <;> rfl
    · rw [if_neg hexchange] at h ⊢
      obtain ⟨blocks, hblocks, h⟩ := Outcome.bind_eq_ok.mp h
      obtain rfl := Outcome.pure_eq_ok.mp h
      have hchildren := (Outcome.mapM_eq_ok.mp hblocks).imp fun c ns hns ↦ ih hns
      rw [hpass]
      cases (visit n st).2 with
      | false => rfl
      | true => exact walkAlong_eq hchildren _

/-- A walk over a plan shows the nodes of its fragments one after the other. -/
theorem walk_eq {root : FragmentId} {tree : List FragmentId}
    (htree : s.fragmentTree root = .ok tree) {blocks : List (List Node)}
    (hblocks : tree.mapM s.executed = .ok blocks) (st : σ) :
    s.walk root visit st = .ok (visit.pass blocks.flatten st).1 := by
  have hfragments : List.Forall₂ (fun f ns ↦ ∀ st, s.visitFragment visit f st =
      .ok (visit.pass ns st)) tree blocks := by
    refine (Outcome.mapM_eq_ok.mp hblocks).imp fun f ns hns st ↦ ?_
    obtain ⟨x, hx, hns⟩ := Outcome.bind_eq_ok.mp hns
    exact Outcome.bind_eq_ok.mpr ⟨x, hx, visitWithin_eq hns st⟩
  exact Outcome.bind_eq_ok.mpr ⟨tree, htree, Outcome.bind_eq_ok.mpr
    ⟨_, walkAlong_eq hfragments st, rfl⟩⟩

end Session

end QueryPlanning
