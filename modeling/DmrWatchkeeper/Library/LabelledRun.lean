import Mathlib.Data.List.Induction

/-! Runs of a labelled transition function. A label determines a step where one
is possible, so a run is a list of labels. What one step preserves holds
throughout a run, and what one step makes or breaks is told by its steps. -/
namespace LabelledRun

variable {σ α : Type*} (step : σ → α → Option σ)

/-- The state after the steps of a run, if all of them are possible. -/
def run : σ → List α → Option σ
  | s, [] => some s
  | s, a :: as => (step s a).bind fun t => run t as

/-- A property of the start state and of every state that a run passes. -/
def Throughout (P : σ → Prop) (s : σ) (as : List α) : Prop :=
  ∀ front back t, as = front ++ back → run step s front = some t → P t

/-- A property of every step of a run, in the state in which it is taken. -/
def EveryStep (C : σ → α → Prop) (s : σ) (as : List α) : Prop :=
  ∀ front a back t, as = front ++ a :: back → run step s front = some t → C t a

variable {step} {P Q Inv : σ → Prop} {C : σ → α → Prop} {s t u : σ} {a : α} {as : List α}

@[simp] theorem run_nil (s : σ) : run step s [] = some s := rfl

theorem run_cons : run step s (a :: as) = some u ↔
    ∃ t, step s a = some t ∧ run step t as = some u := Option.bind_eq_some_iff

/-- The invariant rule. -/
theorem run_invariant (start : Inv s) (preserved : ∀ s a t, Inv s → step s a = some t → Inv t)
    (ran : run step s as = some t) : Inv t := by
  induction as generalizing s with
  | nil =>
    cases ran
    exact start
  | cons a as ih =>
    obtain ⟨next, taken, rest⟩ := run_cons.mp ran
    exact ih (preserved s a next start taken) rest

theorem throughout_nil : Throughout step P s [] ↔ P s := by
  constructor
  · exact fun holds => holds [] [] s rfl rfl
  · intro here front back t split ran
    obtain ⟨rfl, rfl⟩ := List.append_eq_nil_iff.mp split.symm
    cases ran
    exact here

theorem throughout_cons (taken : step s a = some t) :
    Throughout step P s (a :: as) ↔ P s ∧ Throughout step P t as := by
  constructor
  · intro holds
    refine ⟨holds [] _ s rfl rfl, fun front back u split ran => ?_⟩
    exact holds (a :: front) back u (by rw [split, List.cons_append]) (run_cons.mpr ⟨t, taken, ran⟩)
  · rintro ⟨here, later⟩ front back u split ran
    cases front with
    | nil =>
      cases ran
      exact here
    | cons b front =>
      obtain ⟨rfl, rest⟩ := List.cons.inj split
      obtain ⟨next, taken', ran⟩ := run_cons.mp ran
      cases taken.symm.trans taken'
      exact later front back u rest ran

theorem everyStep_nil : EveryStep step C s ([] : List α) := by
  intro front a back t split
  simp at split

theorem everyStep_cons (taken : step s a = some t) :
    EveryStep step C s (a :: as) ↔ C s a ∧ EveryStep step C t as := by
  constructor
  · intro holds
    refine ⟨holds [] a as s rfl rfl, fun front b back u split ran => ?_⟩
    exact holds (a :: front) b back u (by rw [split, List.cons_append]) (run_cons.mpr ⟨t, taken, ran⟩)
  · rintro ⟨here, later⟩ front b back u split ran
    cases front with
    | nil =>
      obtain ⟨rfl, -⟩ := List.cons.inj split
      cases ran
      exact here
    | cons c front =>
      obtain ⟨rfl, rest⟩ := List.cons.inj split
      obtain ⟨next, taken', ran⟩ := run_cons.mp ran
      cases taken.symm.trans taken'
      exact later front b back u rest ran

/-- The invariant rule for the runs whose steps all meet a condition. -/
theorem EveryStep.throughout (every : EveryStep step C s as) (start : Inv s) (holds : P s)
    (preserved : ∀ s a t, Inv s → step s a = some t → Inv t)
    (kept : ∀ s a t, Inv s → P s → C s a → step s a = some t → P t)
    (ran : run step s as = some u) : Throughout step P s as := by
  induction as generalizing s with
  | nil => exact throughout_nil.mpr holds
  | cons a as ih =>
    obtain ⟨t, taken, rest⟩ := run_cons.mp ran
    obtain ⟨meets, later⟩ := (everyStep_cons taken).mp every
    have next := preserved s a t start taken
    exact (throughout_cons taken).mpr
      ⟨holds, ih later next (kept s a t start holds meets taken) rest⟩

/-- What holds throughout a run tells what its steps are like. -/
theorem Throughout.everyStep (throughout : Throughout step P s as) (start : Inv s)
    (preserved : ∀ s a t, Inv s → step s a = some t → Inv t)
    (told : ∀ s a t, Inv s → P s → step s a = some t → P t → C s a)
    (ran : run step s as = some u) : EveryStep step C s as := by
  induction as generalizing s with
  | nil => exact everyStep_nil
  | cons a as ih =>
    obtain ⟨t, taken, rest⟩ := run_cons.mp ran
    obtain ⟨here, later⟩ := (throughout_cons taken).mp throughout
    have now : P t := later [] as t rfl rfl
    exact (everyStep_cons taken).mpr
      ⟨told s a t start here taken now, ih later (preserved s a t start taken) rest⟩

/-- The exactness rule: where a step keeps a property exactly if it meets a
condition, the property holds throughout a run exactly if every step does. -/
theorem throughout_iff_everyStep (start : Inv s) (holds : P s)
    (preserved : ∀ s a t, Inv s → step s a = some t → Inv t)
    (exactly : ∀ s a t, Inv s → P s → step s a = some t → (P t ↔ C s a))
    (ran : run step s as = some u) : Throughout step P s as ↔ EveryStep step C s as := by
  constructor
  · intro throughout
    exact throughout.everyStep start preserved
      (fun s a t inv here taken => (exactly s a t inv here taken).mp) ran
  · intro every
    exact every.throughout start holds preserved
      (fun s a t inv here meets taken => (exactly s a t inv here taken).mpr meets) ran

theorem Throughout.imp (implies : ∀ s, P s → Q s) (holds : Throughout step P s as) :
    Throughout step Q s as :=
  fun front back t split ran => implies t (holds front back t split ran)

end LabelledRun

/-! Progress of one party among others: its own turns lower a measure, and the
turns of the others do not raise it. Every turn is possible here. -/
namespace Countdown

variable {σ τ : Type*} {step : σ → τ → σ} {I : σ → Prop} (measure : σ → ℕ) {own : τ → Bool}

/-- What every step keeps holds after every run. -/
theorem run_keeps (keeps : ∀ s t, I s → I (step s t)) {s : σ} (start : I s) (turns : List τ) :
    I (turns.foldl step s) := by
  induction turns generalizing s with
  | nil => exact start
  | cons t turns ih => exact ih (keeps s t start)

/-- A run lowers the measure by the number of own turns, as far as it goes. -/
theorem run_le (keeps : ∀ s t, I s → I (step s t))
    (falls : ∀ s t, I s → measure (step s t) ≤ measure s - (own t).toNat) {s : σ} (start : I s)
    (turns : List τ) : measure (turns.foldl step s) ≤ measure s - turns.countP own := by
  induction turns generalizing s with
  | nil => exact Nat.le_refl _
  | cons t turns ih =>
    have now := falls s t start
    have later := ih (keeps s t start)
    rw [List.foldl_cons, List.countP_cons]
    cases mine : own t <;> simp only [mine, Bool.toNat_false, Bool.toNat_true, if_true] at now ⊢ <;>
      simp <;> omega

/-- With as many own turns as the measure, it is used up. -/
theorem run_done (keeps : ∀ s t, I s → I (step s t))
    (falls : ∀ s t, I s → measure (step s t) ≤ measure s - (own t).toNat) {s : σ} (start : I s)
    {turns : List τ} (enough : measure s ≤ turns.countP own) : measure (turns.foldl step s) = 0 := by
  have low := run_le measure keeps falls start turns
  omega

/-- A measure that no turn raises is not raised by a run. -/
theorem run_not_raised (keeps : ∀ s t, I s → I (step s t))
    (falls : ∀ s t, I s → measure (step s t) ≤ measure s) {s : σ} (start : I s) (turns : List τ) :
    measure (turns.foldl step s) ≤ measure s := by
  let nobody : τ → Bool := fun _ => false
  have still : ∀ s t, I s → measure (step s t) ≤ measure s - (nobody t).toNat := falls
  exact Nat.le_trans (run_le measure keeps still start turns) (Nat.sub_le ..)

end Countdown
