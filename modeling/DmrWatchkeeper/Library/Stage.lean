import Mathlib.Data.List.Basic
import Mathlib.Data.List.Induction

/-! Callback-driven stages: a stage consumes one item at a time, keeps its own
state and may invoke its callback once per item. Emissions carry the position
of the item on which the callback ran. -/
namespace Stage

variable {σ τ α β γ : Type*}

/-- The state after a list of items. -/
def after (step : σ → α → σ × Option β) (s : σ) (xs : List α) : σ :=
  xs.foldl (fun s x => (step s x).1) s

/-- The callback invocations of a run whose first item has position `n + 1`. -/
def emitted (step : σ → α → σ × Option β) : ℕ → σ → List α → List (ℕ × β)
  | _, _, [] => []
  | n, s, x :: xs =>
    ((step s x).2.map ((n + 1, ·))).toList ++ emitted step (n + 1) (step s x).1 xs

/-- The callback arguments of a run, in order. -/
def outputs (step : σ → α → σ × Option β) (s : σ) (xs : List α) : List β :=
  (emitted step 0 s xs).map Prod.snd

variable (step : σ → α → σ × Option β)

@[simp] theorem after_nil (s : σ) : after step s [] = s := rfl

@[simp] theorem after_cons (s : σ) (x : α) (xs : List α) :
    after step s (x :: xs) = after step (step s x).1 xs := rfl

theorem after_append (s : σ) (xs ys : List α) :
    after step s (xs ++ ys) = after step (after step s xs) ys := by
  simp [after, List.foldl_append]

@[simp] theorem emitted_nil (n : ℕ) (s : σ) : emitted step n s [] = [] := rfl

theorem emitted_cons (n : ℕ) (s : σ) (x : α) (xs : List α) :
    emitted step n s (x :: xs) =
      ((step s x).2.map ((n + 1, ·))).toList ++ emitted step (n + 1) (step s x).1 xs := rfl

theorem emitted_append (n : ℕ) (s : σ) (xs ys : List α) :
    emitted step n s (xs ++ ys) =
      emitted step n s xs ++ emitted step (n + xs.length) (after step s xs) ys := by
  induction xs generalizing n s with
  | nil => rfl
  | cons x xs ih =>
    rw [List.cons_append, emitted_cons, ih, emitted_cons, after_cons, List.length_cons,
      List.append_assoc, Nat.add_right_comm, Nat.add_assoc]

/-- Renumbering the items renumbers the emissions. -/
theorem emitted_shift (k n : ℕ) (s : σ) (xs : List α) :
    emitted step (k + n) s xs = (emitted step n s xs).map fun e => (k + e.1, e.2) := by
  induction xs generalizing n s with
  | nil => rfl
  | cons x xs ih =>
    rw [emitted_cons, emitted_cons, List.map_append, ← ih, Nat.add_assoc]
    cases (step s x).2 <;> rfl

/-- An emission comes from the step on the item at its position. -/
theorem exists_step_of_mem_emitted {m n : ℕ} {s : σ} {xs : List α} {b : β}
    (member : (m, b) ∈ emitted step n s xs) : ∃ front x back, xs = front ++ x :: back ∧
      m = n + front.length + 1 ∧ (step (after step s front) x).2 = some b := by
  induction xs generalizing n s with
  | nil => cases member
  | cons x xs ih =>
    rw [emitted_cons, List.mem_append] at member
    rcases member with now | later
    · refine ⟨[], x, xs, rfl, ?_⟩
      cases out : (step s x).2 with
      | none => simp [out] at now
      | some b' => simp_all
    · obtain ⟨front, y, back, rfl, position, emits⟩ := ih later
      exact ⟨x :: front, y, back, rfl, by rw [position, List.length_cons]; omega, emits⟩

/-- There is at most one emission for each item. -/
theorem emitted_positions (n : ℕ) (s : σ) (xs : List α) :
    ((emitted step n s xs).map Prod.fst).Sublist (List.range' (n + 1) xs.length) := by
  induction xs generalizing n s with
  | nil => exact List.Sublist.refl _
  | cons x xs ih =>
    rw [emitted_cons, List.length_cons, List.range'_succ]
    cases (step s x).2 with
    | none => exact (ih (n + 1) _).cons _
    | some b => exact (ih (n + 1) _).cons_cons _

theorem map_snd_emitted (n : ℕ) (s : σ) (xs : List α) :
    (emitted step n s xs).map Prod.snd = outputs step s xs := by
  rw [outputs, ← Nat.add_zero n, emitted_shift, List.map_map]
  rfl

theorem outputs_append (s : σ) (xs ys : List α) :
    outputs step s (xs ++ ys) = outputs step s xs ++ outputs step (after step s xs) ys := by
  rw [outputs, emitted_append, List.map_append, map_snd_emitted, map_snd_emitted]

theorem outputs_cons (s : σ) (x : α) (xs : List α) :
    outputs step s (x :: xs) = (step s x).2.toList ++ outputs step (step s x).1 xs := by
  rw [outputs, emitted_cons, List.map_append, map_snd_emitted]
  cases (step s x).2 <;> rfl

/-- A loop that appends what a stage emits to a buffer. -/
theorem foldl_collect (s : σ) (buffer : List β) (xs : List α) :
    xs.foldl (fun acc x => ((step acc.1 x).1, acc.2 ++ (step acc.1 x).2.toList)) (s, buffer) =
      (after step s xs, buffer ++ outputs step s xs) := by
  induction xs generalizing s buffer with
  | nil => simp [outputs]
  | cons x xs ih => rw [List.foldl_cons, ih, after_cons, outputs_cons, List.append_assoc]

/-- Calls that each take a batch of items, with what they emit in order. -/
def batched {κ : Type*} (call : τ → κ → τ × List β) (t : τ) (batches : List κ) : τ × List β :=
  batches.foldl (fun acc batch => ((call acc.1 batch).1, acc.2 ++ (call acc.1 batch).2)) (t, [])

/-- Where every call runs a stage over its items, seen through a view of the
state, a sequence of calls runs it over all items together. -/
theorem batched_run {κ : Type*} (call : τ → κ → τ × List β) (view : τ → σ) (items : κ → List α)
    (runs : ∀ t batch, view (call t batch).1 = after step (view t) (items batch) ∧
      (call t batch).2 = outputs step (view t) (items batch))
    (t : τ) (batches : List κ) :
    view (batched call t batches).1 = after step (view t) (batches.flatMap items) ∧
      (batched call t batches).2 = outputs step (view t) (batches.flatMap items) := by
  suffices general : ∀ earlier, view (batches.foldl (fun acc batch =>
      ((call acc.1 batch).1, acc.2 ++ (call acc.1 batch).2)) (t, earlier)).1 =
        after step (view t) (batches.flatMap items) ∧
      (batches.foldl (fun acc batch =>
      ((call acc.1 batch).1, acc.2 ++ (call acc.1 batch).2)) (t, earlier)).2 =
        earlier ++ outputs step (view t) (batches.flatMap items) by
    exact general []
  induction batches generalizing t with
  | nil =>
    intro earlier
    exact ⟨rfl, (List.append_nil earlier).symm⟩
  | cons batch batches ih =>
    intro earlier
    obtain ⟨state, emits⟩ := runs t batch
    rw [List.foldl_cons, List.flatMap_cons, after_append, outputs_append, ← state, ← emits,
      ← List.append_assoc]
    exact ih _ _

/-- The invariant rule: what every step keeps holds after every run. -/
theorem after_invariant {I : σ → Prop} (keeps : ∀ s x, I s → I (step s x).1) {s : σ}
    (start : I s) (xs : List α) : I (after step s xs) := by
  induction xs generalizing s with
  | nil => exact start
  | cons x xs ih => exact ih (keeps s x start)

/-- The same for items of one kind, and what is emitted for them. -/
theorem run_keeps {I : σ → Prop} {Q : α → Prop} {P : β → Prop}
    (keeps : ∀ s x, I s → Q x → I (step s x).1 ∧ ∀ y ∈ (step s x).2, P y) {s : σ} (start : I s) {xs : List α}
    (given : ∀ x ∈ xs, Q x) : I (after step s xs) ∧ ∀ y ∈ outputs step s xs, P y := by
  induction xs generalizing s with
  | nil => exact ⟨start, by simp [outputs]⟩
  | cons x xs ih =>
    obtain ⟨next, now⟩ := keeps s x start (given x List.mem_cons_self)
    obtain ⟨final, later⟩ := ih next fun y member => given y (List.mem_cons_of_mem _ member)
    refine ⟨final, fun y member => ?_⟩
    rw [outputs_cons, List.mem_append, Option.mem_toList] at member
    exact member.elim (now y) (later y)

/-- The rule for a stage that emits on every `D`th item: the state after `n`
items is characterised by `I n`, and what is emitted then by `f n`. -/
theorem outputs_every {I : ℕ → σ → Prop} {f : ℕ → β} {D : ℕ} {s : σ} {xs : List α}
    (start : I 0 s) (next : ∀ n (bound : n < xs.length) s, I n s →
      I (n + 1) (step s xs[n]).1 ∧ (step s xs[n]).2 = if D ∣ n + 1 then some (f (n + 1)) else none) :
    I xs.length (after step s xs) ∧
      outputs step s xs = (List.range (xs.length / D)).map fun m => f ((m + 1) * D) := by
  induction xs using List.reverseRecOn with
  | nil => exact ⟨start, by simp [outputs]⟩
  | append_singleton xs x ih =>
    obtain ⟨here, earlier⟩ := ih fun n bound s holds => by
      have step_ := next n (by rw [List.length_append]; omega) s holds
      rwa [List.getElem_append_left bound] at step_
    have last := next xs.length (by simp) _ here
    rw [List.getElem_concat_length rfl] at last
    obtain ⟨there, emits⟩ := last
    rw [after_append, outputs_append, earlier, List.length_append, List.length_singleton,
      Nat.succ_div]
    refine ⟨there, ?_⟩
    rw [outputs_cons, emits]
    by_cases due : D ∣ xs.length + 1
    · have index : (xs.length / D + 1) * D = xs.length + 1 := by
        have quotient := Nat.succ_div_of_dvd due
        rw [← quotient, Nat.div_mul_cancel due]
      rw [if_pos due, if_pos due, List.range_succ, List.map_append, List.map_singleton, index]
      rfl
    · rw [if_neg due, if_neg due, Nat.add_zero]
      exact List.append_nil _

/-- The simulation rule: steps that keep two machines related and agree on
what they emit make whole runs agree. -/
theorem run_simulates {step' : τ → α → τ × Option β} {R : σ → τ → Prop}
    (simulates : ∀ s t x, R s t →
      R (step s x).1 (step' t x).1 ∧ (step s x).2 = (step' t x).2)
    {s : σ} {t : τ} (start : R s t) (xs : List α) :
    R (after step s xs) (after step' t xs) ∧ outputs step s xs = outputs step' t xs := by
  induction xs generalizing s t with
  | nil => exact ⟨start, rfl⟩
  | cons x xs ih =>
    obtain ⟨related, emits⟩ := simulates s t x start
    obtain ⟨ends, rest⟩ := ih related
    rw [outputs_cons, outputs_cons, emits, rest]
    exact ⟨ends, rfl⟩

/-! ### Wiring one stage's callback into the next stage -/

/-- The first stage's callback feeds the second stage. -/
def cascade (first : σ → α → σ × Option β) (second : τ → β → τ × Option γ) :
    σ × τ → α → (σ × τ) × Option γ := fun s x =>
  match (first s.1 x).2 with
  | none => (((first s.1 x).1, s.2), none)
  | some b => (((first s.1 x).1, (second s.2 b).1), (second s.2 b).2)

section Cascade
variable {first : σ → α → σ × Option β} {second : τ → β → τ × Option γ}

theorem cascade_quiet {s : σ} {x : α} (t : τ) (quiet : (first s x).2 = none) :
    cascade first second (s, t) x = (((first s x).1, t), none) := by
  simp only [cascade, quiet]

theorem cascade_called {s : σ} {x : α} {b : β} (t : τ) (called : (first s x).2 = some b) :
    cascade first second (s, t) x = (((first s x).1, (second t b).1), (second t b).2) := by
  simp only [cascade, called]

theorem after_cascade (s : σ) (t : τ) (xs : List α) :
    after (cascade first second) (s, t) xs =
      (after first s xs, after second t (outputs first s xs)) := by
  induction xs generalizing s t with
  | nil => rfl
  | cons x xs ih =>
    rw [after_cons, after_cons, outputs_cons]
    cases out : (first s x).2 with
    | none => rw [cascade_quiet t out, ih, Option.toList_none, List.nil_append]
    | some b => rw [cascade_called t out, ih, Option.toList_some, List.singleton_append, after_cons]

/-- A cascade emits what the second stage emits on the first stage's outputs. -/
theorem outputs_cascade (s : σ) (t : τ) (xs : List α) :
    outputs (cascade first second) (s, t) xs = outputs second t (outputs first s xs) := by
  induction xs generalizing s t with
  | nil => rfl
  | cons x xs ih =>
    rw [outputs_cons, outputs_cons first]
    cases out : (first s x).2 with
    | none => rw [cascade_quiet t out, ih, Option.toList_none, List.nil_append, Option.toList_none,
        List.nil_append]
    | some b => rw [cascade_called t out, ih, Option.toList_some, List.singleton_append, outputs_cons]

end Cascade
end Stage
