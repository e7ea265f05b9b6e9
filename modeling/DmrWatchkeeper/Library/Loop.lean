import Mathlib.Data.Fin.Basic

/-! Bounded counting loops: a loop invariant indexed by the number of
completed iterations, the effect of a loop that writes one slot of a fixed-size
array per iteration, and of one that updates the slot its item belongs to. -/
namespace Loop

variable {α β : Type*} {n m : ℕ}

/-- The invariant rule of a counting loop. -/
theorem foldl_invariant (body : α → Fin n → α) (init : α) (P : ℕ → α → Prop)
    (start : P 0 init) (step : ∀ (i : Fin n) (a : α), P i a → P (i + 1) (body a i)) :
    P n (Fin.foldl n body init) := by
  induction n with
  | zero => simpa using start
  | succ n ih =>
    have before : P n (Fin.foldl n (fun a i => body a i.castSucc) init) :=
      ih _ fun i a held => step i.castSucc a held
    rw [Fin.foldl_succ_last]
    exact step (Fin.last n) _ before

section Writes
variable {slot : Fin n → Fin m} {value : Fin n → β} {cells : Vector β m}

/-- After `done` iterations of the writing loop the visited slots hold their
values and the others are as before. -/
private theorem written_so_far (injective : Function.Injective slot) :
    (∀ i, (Fin.foldl n (fun acc i => acc.set (slot i) (value i)) cells)[slot i] = value i) ∧
      ∀ k, (∀ i, slot i ≠ k) →
        (Fin.foldl n (fun acc i => acc.set (slot i) (value i)) cells)[k] = cells[k] := by
  have written := foldl_invariant (fun acc i => acc.set (slot i) (value i)) cells
    (fun done acc => (∀ i : Fin n, i < done → acc[slot i] = value i) ∧
      ∀ k : Fin m, (∀ i : Fin n, i < done → slot i ≠ k) → acc[k] = cells[k])
    ⟨fun i impossible => absurd impossible (Nat.not_lt_zero _), fun _ _ => rfl⟩ ?_
  · exact ⟨fun i => written.1 i i.isLt, fun k untouched => written.2 k fun i _ => untouched i⟩
  · rintro i acc ⟨hit, miss⟩
    refine ⟨fun j before => ?_, fun k untouched => ?_⟩
    · by_cases here : j = i
      · simp [here]
      · have apart : (slot i : ℕ) ≠ slot j := fun same => here (injective (Fin.ext same)).symm
        rw [Fin.getElem_fin, Vector.getElem_set_ne _ _ apart]
        exact hit j (by omega)
    · have apart : (slot i : ℕ) ≠ k := fun same => untouched i (by omega) (Fin.ext same)
      rw [Fin.getElem_fin, Vector.getElem_set_ne _ _ apart]
      exact miss k fun j before => untouched j (by omega)

theorem foldl_set_hit (injective : Function.Injective slot) (value : Fin n → β)
    (cells : Vector β m) (i : Fin n) :
    (Fin.foldl n (fun acc i => acc.set (slot i) (value i)) cells)[slot i] = value i :=
  (written_so_far injective).1 i

theorem foldl_set_miss (injective : Function.Injective slot) (value : Fin n → β)
    (cells : Vector β m) {k : Fin m} (untouched : ∀ i, slot i ≠ k) :
    (Fin.foldl n (fun acc i => acc.set (slot i) (value i)) cells)[k] = cells[k] :=
  (written_so_far injective).2 k untouched

end Writes

/-- A loop that updates the slot of each item: a slot sees its own items only,
in their order. -/
theorem foldl_routed (slot : α → Fin m) (update : β → α → β) (cells : Vector β m) (items : List α)
    (k : Fin m) :
    (items.foldl (fun cells x => cells.set (slot x) (update cells[slot x] x)) cells)[k] =
      (items.filter (slot · = k)).foldl update cells[k] := by
  induction items generalizing cells with
  | nil => rfl
  | cons x items ih =>
    rw [List.foldl_cons, ih, List.filter_cons]
    by_cases here : slot x = k
    · subst here
      simp
    · have apart : (slot x : ℕ) ≠ k := fun same => here (Fin.ext same)
      simp [here, apart]

end Loop
