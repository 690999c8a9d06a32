import Mathlib.Data.List.Forall2
import QueryPlanning.Error

/-!
# Computations that succeed

What it means that a computation with errors ends well: each of its steps does. Loops over lists
are taken apart in the same way, so that a proof about a successful run can follow the run, and so
are computations that change a state.
-/

namespace QueryPlanning.Outcome

variable {ε α β : Type}

-- A proof by `rfl` would let `simp` leave the whole run to the kernel.
theorem ok_bind {a : α} {f : α → Except ε β} : Except.ok a >>= f = f a :=
  pure_bind a f

theorem bind_eq_ok {x : Except ε α} {f : α → Except ε β} {b : β} :
    x >>= f = .ok b ↔ ∃ a, x = .ok a ∧ f a = .ok b := by
  cases x with
  | ok a =>
    constructor
    · intro h
      exact ⟨a, rfl, h⟩
    · rintro ⟨_, ⟨⟩, h⟩
      exact h
  | error e =>
    constructor
    · intro h
      cases h
    · rintro ⟨_, ⟨⟩, _⟩

theorem bind_eq_error {x : Except ε α} {f : α → Except ε β} {e : ε} :
    x >>= f = .error e ↔ x = .error e ∨ ∃ a, x = .ok a ∧ f a = .error e := by
  cases x with
  | ok a =>
    constructor
    · intro h
      exact .inr ⟨a, rfl, h⟩
    · rintro (⟨⟨⟩⟩ | ⟨_, ⟨⟩, h⟩)
      exact h
  | error e' =>
    constructor
    · intro h
      exact .inl (congrArg Except.error (Except.error.inj h))
    · rintro (h | ⟨_, ⟨⟩, _⟩)
      exact congrArg Except.error (Except.error.inj h)

@[simp]
theorem pure_eq_ok {a b : α} : (pure a : Except ε α) = .ok b ↔ a = b := by
  constructor
  · rintro ⟨⟩
    rfl
  · rintro rfl
    rfl

theorem elim_eq_ok {x : Option α} {e : ε} {a : α} :
    x.elim (.error e) .ok = (.ok a : Except ε α) ↔ x = some a := by
  cases x with
  | none => constructor <;> rintro ⟨⟩
  | some b =>
    constructor
    · rintro ⟨⟩
      rfl
    · rintro ⟨⟩
      rfl

theorem elim_eq_error {x : Option α} {e e' : ε} :
    x.elim (.error e) .ok = (.error e' : Except ε α) ↔ e' = e ∧ x = none := by
  cases x with
  | none =>
    constructor
    · rintro ⟨⟩
      exact ⟨rfl, rfl⟩
    · rintro ⟨rfl, -⟩
      rfl
  | some b =>
    constructor
    · rintro ⟨⟩
    · rintro ⟨-, ⟨⟩⟩

theorem map_eq_ok {x : Except ε α} {f : α → β} {b : β} :
    f <$> x = .ok b ↔ ∃ a, x = .ok a ∧ f a = b := by
  rw [map_eq_pure_bind, bind_eq_ok]
  simp only [pure_eq_ok]

theorem toOption_eq_some {x : Except ε α} {a : α} : x.toOption = some a ↔ x = .ok a := by
  cases x with
  | ok b => exact ⟨fun h ↦ congrArg Except.ok (Option.some.inj h), fun h ↦ by rw [h]; rfl⟩
  | error e => exact ⟨nofun, nofun⟩

theorem mapM_eq_ok {f : α → Except ε β} {l : List α} {bs : List β} :
    l.mapM f = .ok bs ↔ List.Forall₂ (fun a b ↦ f a = .ok b) l bs := by
  induction l generalizing bs with
  | nil =>
    rw [List.mapM_nil, pure_eq_ok, List.forall₂_nil_left_iff]
    exact eq_comm
  | cons a l ih =>
    rw [List.mapM_cons, bind_eq_ok, List.forall₂_cons_left_iff]
    constructor
    · rintro ⟨b, hb, h⟩
      obtain ⟨rest, hrest, h⟩ := bind_eq_ok.mp h
      exact ⟨b, rest, hb, ih.mp hrest, (pure_eq_ok.mp h).symm⟩
    · rintro ⟨b, rest, hb, hrest, rfl⟩
      exact ⟨b, hb, bind_eq_ok.mpr ⟨rest, ih.mpr hrest, rfl⟩⟩

/-- What is matched from the left. -/
theorem exists_of_mem_forall₂ {R : α → β → Prop} {l : List α} {bs : List β}
    (h : List.Forall₂ R l bs) {b : β} (hb : b ∈ bs) : ∃ a ∈ l, R a b := by
  induction h with
  | nil => cases hb
  | cons hab _ ih =>
    rcases List.mem_cons.mp hb with rfl | hb
    · exact ⟨_, List.mem_cons_self, hab⟩
    · obtain ⟨a, ha, hr⟩ := ih hb
      exact ⟨a, List.mem_cons_of_mem _ ha, hr⟩

theorem foldlM_cons_eq_ok {f : β → α → Except ε β} {a : α} {l : List α} {b c : β} :
    (a :: l).foldlM f b = .ok c ↔ ∃ d, f b a = .ok d ∧ l.foldlM f d = .ok c := by
  rw [List.foldlM_cons, bind_eq_ok]

/-- What every step of a loop keeps holds at its end. -/
theorem foldlM_invariant {f : β → α → Except ε β} (invariant : β → Prop) {l : List α}
    (step : ∀ a b c, invariant b → f b a = .ok c → invariant c) {b c : β}
    (h : l.foldlM f b = .ok c) (hb : invariant b) : invariant c := by
  induction l generalizing b with
  | nil =>
    rw [← pure_eq_ok.mp h]
    exact hb
  | cons a l ih =>
    obtain ⟨d, hd, h⟩ := foldlM_cons_eq_ok.mp h
    exact ih h (step a b d hb hd)

/-- A loop each step of which settles its item, and leaves settled what is, settles all items. -/
theorem foldlM_settles {f : β → α → Except ε β} (invariant : β → Prop) (settled : α → β → Prop)
    {l : List α} (step : ∀ a ∈ l, ∀ b c, invariant b → f b a = .ok c →
      invariant c ∧ settled a c ∧ ∀ a', settled a' b → settled a' c) {b c : β}
    (h : l.foldlM f b = .ok c) (hb : invariant b) :
    invariant c ∧ (∀ a ∈ l, settled a c) ∧ ∀ a, settled a b → settled a c := by
  induction l generalizing b with
  | nil =>
    rw [← pure_eq_ok.mp h]
    exact ⟨hb, fun a ha ↦ absurd ha List.not_mem_nil, fun _ ↦ id⟩
  | cons a l ih =>
    obtain ⟨hfirst, hrest⟩ := List.forall_mem_cons.mp step
    obtain ⟨d, hd, h⟩ := foldlM_cons_eq_ok.mp h
    obtain ⟨hinvariant, hsettled, hkept⟩ := hfirst b d hb hd
    obtain ⟨hend, hall, hkept'⟩ := ih hrest h hinvariant
    exact ⟨hend, List.forall_mem_cons.mpr ⟨hkept' a hsettled, hall⟩,
      fun a' ha' ↦ hkept' a' (hkept a' ha')⟩

/-- A loop whose steps keep an invariant or fail comes to its end or fails at one of its items. -/
theorem foldlM_cases {f : β → α → Except ε β} {invariant : β → Prop} {good : α → Prop}
    {bad : α → ε → Prop} {l : List α}
    (step : ∀ a ∈ l, ∀ b, invariant b → (good a ∧ ∃ c, f b a = .ok c ∧ invariant c) ∨
      ∃ e, bad a e ∧ f b a = .error e) {b : β} (hb : invariant b) :
    ((∀ a ∈ l, good a) ∧ ∃ c, l.foldlM f b = .ok c ∧ invariant c) ∨
      ∃ a ∈ l, ∃ e, bad a e ∧ l.foldlM f b = .error e := by
  induction l generalizing b with
  | nil => exact .inl ⟨fun a ha ↦ absurd ha List.not_mem_nil, b, rfl, hb⟩
  | cons a l ih =>
    obtain ⟨hfirst, hrest⟩ := List.forall_mem_cons.mp step
    rcases hfirst b hb with ⟨hgood, c, hc, hinvariant⟩ | ⟨e, hbad, he⟩
    · rcases ih hrest hinvariant with ⟨hall, d, hd, hend⟩ | ⟨a', ha', e, hbad, he⟩
      · exact .inl ⟨List.forall_mem_cons.mpr ⟨hgood, hall⟩, d,
          foldlM_cons_eq_ok.mpr ⟨c, hc, hd⟩, hend⟩
      · refine .inr ⟨a', List.mem_cons_of_mem _ ha', e, hbad, ?_⟩
        rw [List.foldlM_cons, hc]
        exact he
    · refine .inr ⟨a, List.mem_cons_self, e, hbad, ?_⟩
      rw [List.foldlM_cons, he]
      rfl

theorem exists_of_mem_mapM {f : α → Except ε β} {l : List α} {bs : List β}
    (h : l.mapM f = .ok bs) {a : α} (ha : a ∈ l) : ∃ b, f a = .ok b := by
  obtain ⟨i, hi⟩ := List.mem_iff_getElem?.mp ha
  have hall := List.forall₂_iff_get.mp (mapM_eq_ok.mp h)
  obtain ⟨hlt, rfl⟩ := List.getElem?_eq_some_iff.mp hi
  exact ⟨_, hall.2 i hlt (hall.1 ▸ hlt)⟩

theorem exists_mapM {f : α → Except ε β} {l : List α} (h : ∀ a ∈ l, ∃ b, f a = .ok b) :
    ∃ bs, l.mapM f = .ok bs := by
  induction l with
  | nil => exact ⟨[], rfl⟩
  | cons a l ih =>
    obtain ⟨b, hb⟩ := h a List.mem_cons_self
    obtain ⟨bs, hbs⟩ := ih fun a' ha' ↦ h a' (List.mem_cons_of_mem _ ha')
    exact ⟨b :: bs, mapM_eq_ok.mpr (.cons hb (mapM_eq_ok.mp hbs))⟩

/-- A loop fails as one of its steps does. -/
theorem exists_of_mapM_eq_error {f : α → Except ε β} {l : List α} {e : ε}
    (h : l.mapM f = .error e) : ∃ a ∈ l, f a = .error e := by
  induction l with
  | nil => cases h
  | cons a l ih =>
    rw [List.mapM_cons] at h
    cases ha : f a with
    | error e' =>
      rw [ha] at h
      obtain rfl := Except.error.inj h
      exact ⟨a, List.mem_cons_self, ha⟩
    | ok b =>
      cases hl : l.mapM f with
      | error e' =>
        rw [ha, hl] at h
        obtain rfl := Except.error.inj h
        obtain ⟨a', hmem, ha'⟩ := ih hl
        exact ⟨a', List.mem_cons_of_mem _ hmem, ha'⟩
      | ok bs =>
        rw [ha, hl] at h
        cases h

/-- What a successful loop collects, by the steps that it comes from. -/
theorem mem_flatten_of_mapM {f : α → Except ε (List β)} {l : List α} {bs : List (List β)}
    (h : l.mapM f = .ok bs) {b : β} :
    b ∈ bs.flatten ↔ ∃ a ∈ l, ∃ c, f a = .ok c ∧ b ∈ c := by
  induction l generalizing bs with
  | nil =>
    obtain rfl := List.forall₂_nil_left_iff.mp (mapM_eq_ok.mp h)
    simp
  | cons a l ih =>
    obtain ⟨c, rest, hc, hrest, rfl⟩ := List.forall₂_cons_left_iff.mp (mapM_eq_ok.mp h)
    rw [List.flatten_cons, List.mem_append, ih (mapM_eq_ok.mpr hrest)]
    simp [hc]

/-- What a loop collects has no repetitions if the loop has none and no two steps share a result. -/
theorem nodup_flatten_of_mapM {f : α → Except ε (List β)} {l : List α} {bs : List (List β)}
    (h : l.mapM f = .ok bs) (hl : l.Nodup)
    (hf : ∀ a ∈ l, ∀ c, f a = .ok c → c.Nodup)
    (hd : ∀ a ∈ l, ∀ a' ∈ l, a ≠ a' → ∀ c c', f a = .ok c → f a' = .ok c' → ∀ b ∈ c, b ∉ c') :
    bs.flatten.Nodup := by
  induction l generalizing bs with
  | nil =>
    obtain rfl := List.forall₂_nil_left_iff.mp (mapM_eq_ok.mp h)
    exact List.nodup_nil
  | cons a l ih =>
    obtain ⟨c, rest, hc, hrest, rfl⟩ := List.forall₂_cons_left_iff.mp (mapM_eq_ok.mp h)
    have hrest := mapM_eq_ok.mpr hrest
    obtain ⟨hal, hl⟩ := List.nodup_cons.mp hl
    rw [List.flatten_cons, List.nodup_append]
    refine ⟨hf a List.mem_cons_self c hc, ?_, ?_⟩
    · apply ih hrest hl (fun a' ha' ↦ hf a' (List.mem_cons_of_mem _ ha'))
      intro a' ha' a'' ha''
      exact hd a' (List.mem_cons_of_mem _ ha') a'' (List.mem_cons_of_mem _ ha'')
    · rintro b hb b' hb' rfl
      obtain ⟨a', ha', c', hc', hb'⟩ := (mem_flatten_of_mapM hrest).mp hb'
      have hne : a ≠ a' := by
        rintro rfl
        exact hal ha'
      exact hd a List.mem_cons_self a' (List.mem_cons_of_mem _ ha') hne c c' hc hc' b hb hb'

/-- A loop whose steps collect less than those of another one collects less. -/
theorem sublist_flatten_of_mapM {f g : α → Except ε (List β)} {l : List α} {bs cs : List (List β)}
    (hf : l.mapM f = .ok bs) (hg : l.mapM g = .ok cs)
    (h : ∀ a b c, a ∈ l → f a = .ok b → g a = .ok c → b.Sublist c) :
    bs.flatten.Sublist cs.flatten := by
  induction l generalizing bs cs with
  | nil =>
    obtain rfl := List.forall₂_nil_left_iff.mp (mapM_eq_ok.mp hf)
    exact List.nil_sublist _
  | cons a l ih =>
    obtain ⟨b, bs, hb, hbs, rfl⟩ := List.forall₂_cons_left_iff.mp (mapM_eq_ok.mp hf)
    obtain ⟨c, cs, hc, hcs, rfl⟩ := List.forall₂_cons_left_iff.mp (mapM_eq_ok.mp hg)
    rw [List.flatten_cons, List.flatten_cons]
    apply (h a b c List.mem_cons_self hb hc).append
    exact ih (mapM_eq_ok.mpr hbs) (mapM_eq_ok.mpr hcs) fun a' b' c' ha' ↦
      h a' b' c' (List.mem_cons_of_mem _ ha')

/-- A loop that collects nothing for some items collects the same as one without these. -/
theorem exists_mapM_of_filter {f g : α → Except ε (List β)} {p : α → Bool} {l : List α}
    {bs : List (List β)} (h : (l.filter p).mapM f = .ok bs)
    (hkept : ∀ a ∈ l, p a = true → ∀ b, f a = .ok b → g a = .ok b)
    (hleft : ∀ a ∈ l, p a = false → g a = .ok []) :
    ∃ cs, l.mapM g = .ok cs ∧ cs.flatten = bs.flatten := by
  induction l generalizing bs with
  | nil => exact ⟨bs, h, rfl⟩
  | cons a l ih =>
    obtain ⟨hkept₁, hkept⟩ := List.forall_mem_cons.mp hkept
    obtain ⟨hleft₁, hleft⟩ := List.forall_mem_cons.mp hleft
    cases ha : p a with
    | true =>
      rw [List.filter_cons_of_pos ha] at h
      obtain ⟨b, rest, hb, hrest, rfl⟩ := List.forall₂_cons_left_iff.mp (mapM_eq_ok.mp h)
      obtain ⟨cs, hcs, heq⟩ := ih (mapM_eq_ok.mpr hrest) hkept hleft
      refine ⟨b :: cs, mapM_eq_ok.mpr (.cons (hkept₁ ha b hb) (mapM_eq_ok.mp hcs)), ?_⟩
      rw [List.flatten_cons, List.flatten_cons, heq]
    | false =>
      rw [List.filter_cons_of_neg (by simp [ha])] at h
      obtain ⟨cs, hcs, heq⟩ := ih h hkept hleft
      exact ⟨[] :: cs, mapM_eq_ok.mpr (.cons (hleft₁ ha) (mapM_eq_ok.mp hcs)), heq⟩

variable {σ : Type} {st st' : σ}

/-- A computation takes one state to another one without failing. -/
def Runs (x : ExceptT ε (StateM σ) α) (st : σ) (a : α) (st' : σ) : Prop :=
  x.run.run st = (.ok a, st')

@[simp]
theorem runs_pure {a b : α} :
    Runs (pure a : ExceptT ε (StateM σ) α) st b st' ↔ a = b ∧ st = st' := by
  constructor
  · rintro ⟨⟩
    exact ⟨rfl, rfl⟩
  · rintro ⟨rfl, rfl⟩
    rfl

theorem runs_bind {x : ExceptT ε (StateM σ) α} {f : α → ExceptT ε (StateM σ) β} {b : β} :
    Runs (x >>= f) st b st' ↔ ∃ a mid, Runs x st a mid ∧ Runs (f a) mid b st' := by
  unfold Runs
  rw [ExceptT.run_bind, StateT.run_bind]
  cases hx : x.run.run st with
  | mk r mid =>
    cases r with
    | ok a =>
      constructor
      · intro h
        exact ⟨a, mid, rfl, h⟩
      · rintro ⟨_, _, ⟨⟩, h⟩
        exact h
    | error e =>
      constructor
      · intro h
        cases h
      · rintro ⟨_, _, ⟨⟩, _⟩

theorem runs_map {x : ExceptT ε (StateM σ) α} {f : α → β} {b : β} :
    Runs (f <$> x) st b st' ↔ ∃ a, Runs x st a st' ∧ f a = b := by
  rw [← bind_pure_comp, runs_bind]
  constructor
  · rintro ⟨a, mid, hx, hf⟩
    obtain ⟨rfl, rfl⟩ := runs_pure.mp hf
    exact ⟨a, hx, rfl⟩
  · rintro ⟨a, hx, rfl⟩
    exact ⟨a, st', hx, runs_pure.mpr ⟨rfl, rfl⟩⟩

@[simp]
theorem not_runs_throw {e : ε} {a : α} :
    ¬Runs (throw e : ExceptT ε (StateM σ) α) st a st' := by
  intro h
  cases h

theorem runs_get {a : σ} :
    Runs (get : ExceptT ε (StateM σ) σ) st a st' ↔ st = a ∧ st = st' := by
  constructor
  · rintro ⟨⟩
    exact ⟨rfl, rfl⟩
  · rintro ⟨rfl, rfl⟩
    rfl

theorem runs_set {a : σ} {u : PUnit} :
    Runs (set a : ExceptT ε (StateM σ) PUnit) st u st' ↔ a = st' := by
  constructor
  · rintro ⟨⟩
    rfl
  · rintro rfl
    rfl

theorem runs_modify {f : σ → σ} {u : PUnit} :
    Runs (modify f : ExceptT ε (StateM σ) PUnit) st u st' ↔ f st = st' := by
  constructor
  · rintro ⟨⟩
    rfl
  · rintro rfl
    rfl

theorem runs_lift {x : Except ε α} {a : α} :
    Runs (liftM x : ExceptT ε (StateM σ) α) st a st' ↔ x = .ok a ∧ st = st' := by
  cases x with
  | ok b =>
    constructor
    · rintro ⟨⟩
      exact ⟨rfl, rfl⟩
    · rintro ⟨⟨⟩, rfl⟩
      rfl
  | error e =>
    constructor
    · intro h
      cases h
    · rintro ⟨⟨⟩, _⟩

theorem runs_forM_nil {f : β → ExceptT ε (StateM σ) PUnit} {u : PUnit} :
    Runs (([] : List β).forM f) st u st' ↔ st = st' := by
  change Runs (pure ()) st u st' ↔ st = st'
  rw [runs_pure]
  exact and_iff_right rfl

theorem runs_forM_cons {f : β → ExceptT ε (StateM σ) PUnit} {b : β} {l : List β} {u : PUnit} :
    Runs ((b :: l).forM f) st u st' ↔
      ∃ mid, Runs (f b) st () mid ∧ Runs (l.forM f) mid u st' := by
  change Runs (f b >>= fun _ ↦ l.forM f) st u st' ↔ _
  rw [runs_bind]
  constructor
  · rintro ⟨_, mid, hb, hl⟩
    exact ⟨mid, hb, hl⟩
  · rintro ⟨mid, hb, hl⟩
    exact ⟨(), mid, hb, hl⟩

/-- What the steps of a loop give, where the states only go on in a way that keeps it. -/
theorem forall₂_of_runs_mapM {f : α → ExceptT ε (StateM σ) β} {le : σ → σ → Prop}
    {gives : σ → α → β → Prop} (refl : ∀ st, le st st)
    (trans : ∀ st₁ st₂ st₃, le st₁ st₂ → le st₂ st₃ → le st₁ st₃)
    (mono : ∀ st₁ st₂ a b, le st₁ st₂ → gives st₁ a b → gives st₂ a b) {l : List α}
    (step : ∀ a ∈ l, ∀ st b st', Runs (f a) st b st' → le st st' ∧ gives st' a b) {bs : List β}
    (h : Runs (l.mapM f) st bs st') : le st st' ∧ List.Forall₂ (gives st') l bs := by
  induction l generalizing st bs with
  | nil =>
    rw [List.mapM_nil] at h
    obtain ⟨rfl, rfl⟩ := runs_pure.mp h
    exact ⟨refl st, .nil⟩
  | cons a l ih =>
    rw [List.mapM_cons] at h
    obtain ⟨b, mid, hb, h⟩ := runs_bind.mp h
    obtain ⟨rest, st₁, hrest, h⟩ := runs_bind.mp h
    obtain ⟨rfl, rfl⟩ := runs_pure.mp h
    obtain ⟨hfirst, hgives⟩ := step a List.mem_cons_self st b mid hb
    obtain ⟨hlater, hall⟩ := ih (fun a' ha' ↦ step a' (List.mem_cons_of_mem _ ha')) hrest
    exact ⟨trans st mid st₁ hfirst hlater, .cons (mono mid st₁ a b hlater hgives) hall⟩

/-- A computation fails from a state. -/
def Fails (x : ExceptT ε (StateM σ) α) (st : σ) (e : ε) : Prop :=
  ∃ st', x.run.run st = (.error e, st')

/-- Whether a computation succeeds depends on a condition and on no state; if it fails, then with
an error of some kind. -/
def Hinges (x : ExceptT ε (StateM σ) α) (condition : Prop) (kind : ε → Prop) : Prop :=
  ∀ st, (condition ∧ ∃ a st', Runs x st a st') ∨ (¬condition ∧ ∃ e, Fails x st e ∧ kind e)

variable {kind : ε → Prop} {condition condition' : Prop}

theorem not_fails_of_runs {x : ExceptT ε (StateM σ) α} {a : α} {e : ε} (h : Runs x st a st') :
    ¬Fails x st e := by
  rintro ⟨st'', hfails⟩
  cases (Prod.mk.inj (h.symm.trans hfails)).1

theorem Hinges.exists_runs_iff {x : ExceptT ε (StateM σ) α} (h : Hinges x condition kind) (st : σ) :
    (∃ a st', Runs x st a st') ↔ condition := by
  constructor
  · rintro ⟨a, st', hrun⟩
    rcases h st with ⟨hcondition, -⟩ | ⟨-, e, hfails, -⟩
    · exact hcondition
    · exact absurd hfails (not_fails_of_runs hrun)
  · intro hcondition
    exact (h st).elim (·.2) fun hnot ↦ absurd hcondition hnot.1

theorem Hinges.exists_fails_iff {x : ExceptT ε (StateM σ) α} (h : Hinges x condition kind)
    (st : σ) : (∃ e, Fails x st e ∧ kind e) ↔ ¬condition := by
  constructor
  · rintro ⟨e, hfails, -⟩ hcondition
    obtain ⟨a, st', hrun⟩ := (h.exists_runs_iff st).mpr hcondition
    exact not_fails_of_runs hrun hfails
  · intro hnot
    exact (h st).elim (fun hholds ↦ absurd hholds.1 hnot) (·.2)

theorem Hinges.congr {x : ExceptT ε (StateM σ) α} (h : Hinges x condition kind)
    (hiff : condition ↔ condition') : Hinges x condition' kind :=
  propext hiff ▸ h

theorem hinges_pure (a : α) : Hinges (pure a : ExceptT ε (StateM σ) α) True kind :=
  fun st ↦ .inl ⟨trivial, a, st, rfl⟩

theorem hinges_throw {e : ε} (he : kind e) :
    Hinges (throw e : ExceptT ε (StateM σ) α) False kind :=
  fun st ↦ .inr ⟨id, e, ⟨st, rfl⟩, he⟩

theorem fails_bind_left {x : ExceptT ε (StateM σ) α} (f : α → ExceptT ε (StateM σ) β) {e : ε}
    (h : Fails x st e) : Fails (x >>= f) st e := by
  obtain ⟨st', hrun⟩ := h
  refine ⟨st', ?_⟩
  rw [ExceptT.run_bind, StateT.run_bind, hrun]
  rfl

theorem fails_bind_right {x : ExceptT ε (StateM σ) α} {f : α → ExceptT ε (StateM σ) β} {a : α}
    {e : ε} (hx : Runs x st a st') (hf : Fails (f a) st' e) : Fails (x >>= f) st e := by
  obtain ⟨st'', hrun⟩ := hf
  refine ⟨st'', ?_⟩
  rw [ExceptT.run_bind, StateT.run_bind, hx]
  exact hrun

theorem hinges_bind {x : ExceptT ε (StateM σ) α} {f : α → ExceptT ε (StateM σ) β}
    (hx : Hinges x condition kind) (hf : ∀ a, Hinges (f a) condition' kind) :
    Hinges (x >>= f) (condition ∧ condition') kind := by
  intro st
  rcases hx st with ⟨hholds, a, mid, ha⟩ | ⟨hnot, e, hfails, he⟩
  · rcases hf a mid with ⟨hholds', b, st', hb⟩ | ⟨hnot, e, hfails, he⟩
    · exact .inl ⟨⟨hholds, hholds'⟩, b, st', runs_bind.mpr ⟨a, mid, ha, hb⟩⟩
    · exact .inr ⟨fun hboth ↦ hnot hboth.2, e, fails_bind_right ha hfails, he⟩
  · exact .inr ⟨fun hboth ↦ hnot hboth.1, e, fails_bind_left f hfails, he⟩

/-- A step that cannot fail changes nothing. -/
theorem hinges_bind_pure {x : ExceptT ε (StateM σ) α} {f : α → ExceptT ε (StateM σ) β}
    (hx : Hinges x condition kind) (hf : ∀ a, Hinges (f a) True kind) :
    Hinges (x >>= f) condition kind :=
  (hinges_bind hx hf).congr (and_iff_left trivial)

/-- A loop succeeds if each of its steps does. -/
theorem hinges_mapM {f : α → ExceptT ε (StateM σ) β} {good : α → Prop} {l : List α}
    (h : ∀ a, Hinges (f a) (good a) kind) : Hinges (l.mapM f) (∀ a ∈ l, good a) kind := by
  induction l with
  | nil =>
    rw [List.mapM_nil]
    exact (hinges_pure []).congr (iff_of_true trivial nofun)
  | cons a l ih =>
    rw [List.mapM_cons]
    have hrest (b : β) : Hinges (do let bs ← l.mapM f; pure (b :: bs)) (∀ a ∈ l, good a) kind :=
      hinges_bind_pure ih fun bs ↦ hinges_pure (b :: bs)
    exact (hinges_bind (h a) hrest).congr List.forall_mem_cons.symm

end QueryPlanning.Outcome
