import QueryPlanning.Plan.Split
import QueryPlanning.Proofs.Outcome

/-!
# Runs of a split

A split reads and changes its state and can fail. Here a successful run is taken apart: a sequence
runs if its parts run one after the other, and each primitive step says what it makes of the state.
-/

namespace QueryPlanning.Split

variable {α β : Type} {st st' : Splitting}

/-- A computation takes one state to another one without failing. -/
def Runs (x : Split α) (st : Splitting) (a : α) (st' : Splitting) : Prop :=
  x.run.run st = (.ok a, st')

@[simp]
theorem runs_pure {a b : α} : Runs (pure a) st b st' ↔ a = b ∧ st = st' := Outcome.runs_pure

theorem runs_bind {x : Split α} {f : α → Split β} {b : β} :
    Runs (x >>= f) st b st' ↔ ∃ a mid, Runs x st a mid ∧ Runs (f a) mid b st' := Outcome.runs_bind

theorem runs_map {x : Split α} {f : α → β} {b : β} :
    Runs (f <$> x) st b st' ↔ ∃ a, Runs x st a st' ∧ f a = b := Outcome.runs_map

@[simp]
theorem not_runs_throw {e : Error} {a : α} : ¬Runs (throw e) st a st' := Outcome.not_runs_throw

theorem runs_get {a : Splitting} : Runs get st a st' ↔ st = a ∧ st = st' := Outcome.runs_get

theorem runs_modify {f : Splitting → Splitting} {u : Unit} :
    Runs (modify f) st u st' ↔ f st = st' := Outcome.runs_modify

theorem runs_lift {x : Except Error α} {a : α} :
    Runs (liftM x) st a st' ↔ x = .ok a ∧ st = st' := Outcome.runs_lift

theorem runs_ask {f : Session → Except Error α} {a : α} :
    Runs (ask f) st a st' ↔ f st.session = .ok a ∧ st = st' := by
  unfold ask
  rw [runs_bind]
  constructor
  · rintro ⟨_, _, hget, hlift⟩
    obtain ⟨rfl, rfl⟩ := runs_get.mp hget
    exact runs_lift.mp hlift
  · rintro ⟨hf, rfl⟩
    exact ⟨st, st, runs_get.mpr ⟨rfl, rfl⟩, runs_lift.mpr ⟨hf, rfl⟩⟩

theorem runs_change {f : Session → Except Error (α × Session)} {a : α} :
    Runs (change f) st a st' ↔
      ∃ session, f st.session = .ok (a, session) ∧ { st with session } = st' := by
  unfold change
  simp only [runs_bind]
  constructor
  · rintro ⟨_, _, hget, ⟨b, session⟩, _, hlift, _, _, hmodify, hpure⟩
    obtain ⟨rfl, rfl⟩ := runs_get.mp hget
    obtain ⟨hf, rfl⟩ := runs_lift.mp hlift
    obtain ⟨rfl, rfl⟩ := runs_pure.mp hpure
    exact ⟨session, hf, runs_modify.mp hmodify⟩
  · rintro ⟨session, hf, rfl⟩
    exact ⟨st, st, runs_get.mpr ⟨rfl, rfl⟩, (a, session), st, runs_lift.mpr ⟨hf, rfl⟩, (), _,
      runs_modify.mpr rfl, runs_pure.mpr ⟨rfl, rfl⟩⟩

theorem runs_update {f : Session → Session} {u : Unit} :
    Runs (update f) st u st' ↔ { st with session := f st.session } = st' :=
  runs_modify

theorem runs_takeTable {table : JoinTableId} :
    Runs takeTable st table st' ↔
      st.tables.peek = table ∧ { st with tables := st.tables.take.2 } = st' := by
  constructor
  · rintro ⟨⟩
    exact ⟨rfl, rfl⟩
  · rintro ⟨rfl, rfl⟩
    rfl

theorem runs_takePlan {plan : PlanId} :
    Runs takePlan st plan st' ↔
      st.plans.peek = plan ∧ { st with plans := st.plans.take.2 } = st' := by
  constructor
  · rintro ⟨⟩
    exact ⟨rfl, rfl⟩
  · rintro ⟨rfl, rfl⟩
    rfl

theorem runs_takeCohort {cohort : CohortId} :
    Runs takeCohort st cohort st' ↔
      st.cohorts.peek = cohort ∧ { st with cohorts := st.cohorts.take.2 } = st' := by
  constructor
  · rintro ⟨⟩
    exact ⟨rfl, rfl⟩
  · rintro ⟨rfl, rfl⟩
    rfl

theorem runs_forM_nil {f : β → Split Unit} {u : Unit} :
    Runs (([] : List β).forM f) st u st' ↔ st = st' := Outcome.runs_forM_nil

theorem runs_forM_cons {f : β → Split Unit} {b : β} {l : List β} {u : Unit} :
    Runs ((b :: l).forM f) st u st' ↔ ∃ mid, Runs (f b) st () mid ∧ Runs (l.forM f) mid u st' :=
  Outcome.runs_forM_cons

/-- A loop of questions leaves the state as it is. -/
theorem eq_of_forM_ask {f : β → Session → Except Error Unit} {l : List β} {u : Unit}
    (h : Runs (l.forM fun b ↦ ask (f b)) st u st') : st = st' := by
  induction l generalizing st with
  | nil => exact runs_forM_nil.mp h
  | cons b l ih =>
    obtain ⟨mid, hb, hl⟩ := runs_forM_cons.mp h
    rw [(runs_ask.mp hb).2, ih hl]

/-- A loop of changes is a loop over sessions. -/
theorem foldlM_of_forM_change {g : Session → β → Except Error Session} {l : List β} {u : Unit}
    (h : Runs (l.forM fun b ↦ change fun s ↦ return ((), ← g s b)) st u st') :
    ∃ session, l.foldlM g st.session = .ok session ∧ { st with session } = st' := by
  induction l generalizing st with
  | nil =>
    obtain rfl := runs_forM_nil.mp h
    exact ⟨st.session, rfl, rfl⟩
  | cons b l ih =>
    obtain ⟨mid, hb, hl⟩ := runs_forM_cons.mp h
    obtain ⟨session, hsession, rfl⟩ := runs_change.mp hb
    obtain ⟨s', hg, hpair⟩ := Outcome.bind_eq_ok.mp hsession
    obtain rfl := (Prod.mk.inj (Outcome.pure_eq_ok.mp hpair)).2
    obtain ⟨s'', hfold, rfl⟩ := ih hl
    exact ⟨s'', Outcome.foldlM_cons_eq_ok.mpr ⟨s', hg, hfold⟩, rfl⟩

/-- If a computation fails from a state, then with an error that is allowed. -/
def FailsOnly (x : Split α) (st : Splitting) (allowed : Error → Prop) : Prop :=
  ∀ e st', x.run.run st = (.error e, st') → allowed e

variable {allowed : Error → Prop}

theorem failsOnly_mono {x : Split α} {allowed' : Error → Prop} (hx : FailsOnly x st allowed)
    (h : ∀ e, allowed e → allowed' e) : FailsOnly x st allowed' :=
  fun e st' hrun ↦ h e (hx e st' hrun)

theorem failsOnly_pure (a : α) : FailsOnly (pure a) st allowed := by
  intro e st' h
  cases h

/-- A sequence fails where its first part fails, or its second one after a run of the first. -/
theorem failsOnly_bind {x : Split α} {f : α → Split β} (hx : FailsOnly x st allowed)
    (hf : ∀ a mid, Runs x st a mid → FailsOnly (f a) mid allowed) :
    FailsOnly (x >>= f) st allowed := by
  intro e st' h
  rw [ExceptT.run_bind, StateT.run_bind] at h
  cases hrun : x.run.run st with
  | mk r mid =>
    rw [hrun] at h
    cases r with
    | ok a => exact hf a mid hrun e st' h
    | error e' =>
      obtain ⟨he, _⟩ := Prod.mk.inj h
      rw [← Except.error.inj he]
      exact hx e' mid hrun

theorem failsOnly_map {x : Split α} (f : α → β) (hx : FailsOnly x st allowed) :
    FailsOnly (f <$> x) st allowed := by
  rw [← bind_pure_comp]
  exact failsOnly_bind hx fun a _ _ ↦ failsOnly_pure (f a)

theorem failsOnly_lift {x : Except Error α} (h : ∀ e, x = .error e → allowed e) :
    FailsOnly (liftM x) st allowed := by
  intro e st' hrun
  cases x with
  | ok a => cases hrun
  | error e' =>
    obtain ⟨he, _⟩ := Prod.mk.inj hrun
    rw [← Except.error.inj he]
    exact h e' rfl

theorem failsOnly_get : FailsOnly get st allowed := by
  intro e st' h
  cases h

theorem failsOnly_modify (f : Splitting → Splitting) : FailsOnly (modify f) st allowed := by
  intro e st' h
  cases h

theorem failsOnly_ask {f : Session → Except Error α}
    (h : ∀ e, f st.session = .error e → allowed e) : FailsOnly (ask f) st allowed := by
  refine failsOnly_bind failsOnly_get fun _ _ hget ↦ ?_
  obtain ⟨rfl, rfl⟩ := runs_get.mp hget
  exact failsOnly_lift h

theorem failsOnly_change {f : Session → Except Error (α × Session)}
    (h : ∀ e, f st.session = .error e → allowed e) : FailsOnly (change f) st allowed := by
  refine failsOnly_bind failsOnly_get fun _ _ hget ↦ ?_
  obtain ⟨rfl, rfl⟩ := runs_get.mp hget
  exact failsOnly_bind (failsOnly_lift h) fun _ _ _ ↦
    failsOnly_bind (failsOnly_modify _) fun _ _ _ ↦ failsOnly_pure _

/-- A question that has an answer does not fail. -/
theorem failsOnly_ask_of_ok {f : Session → Except Error α} {a : α} (h : f st.session = .ok a) :
    FailsOnly (ask f) st allowed := by
  refine failsOnly_ask fun e he ↦ ?_
  cases h.symm.trans he

theorem failsOnly_change_of_ok {f : Session → Except Error (α × Session)} {r : α × Session}
    (h : f st.session = .ok r) : FailsOnly (change f) st allowed := by
  refine failsOnly_change fun e he ↦ ?_
  cases h.symm.trans he

theorem failsOnly_update (f : Session → Session) : FailsOnly (update f) st allowed :=
  failsOnly_modify _

theorem failsOnly_takeTable : FailsOnly takeTable st allowed := by
  intro e st' h
  cases h

theorem failsOnly_takePlan : FailsOnly takePlan st allowed := by
  intro e st' h
  cases h

theorem failsOnly_takeCohort : FailsOnly takeCohort st allowed := by
  intro e st' h
  cases h

/-- A loop fails at one of its steps, after a run of those before it. -/
theorem failsOnly_forM {f : β → Split Unit} {l : List β}
    (h : ∀ done b rest, l = done ++ b :: rest → ∀ mid, Runs (done.forM f) st () mid →
      FailsOnly (f b) mid allowed) : FailsOnly (l.forM f) st allowed := by
  induction l generalizing st with
  | nil => exact failsOnly_pure ()
  | cons b l ih =>
    have hfirst := h [] b l rfl st (runs_forM_nil.mpr rfl)
    refine failsOnly_bind hfirst fun _ mid hb ↦ ih fun done b' rest hl mid' hdone ↦ ?_
    refine h (b :: done) b' rest ?_ mid' (runs_forM_cons.mpr ⟨mid, hb, hdone⟩)
    rw [hl]
    rfl

end QueryPlanning.Split
