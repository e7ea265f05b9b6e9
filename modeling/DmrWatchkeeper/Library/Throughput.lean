import DmrWatchkeeper.Library.Stage
import Mathlib.Tactic.Linarith

/-! How often a stage calls back. Every item is worth one, a state saves up what
it has not used, and each call costs a fixed price. Wired stages multiply their
prices. -/
namespace Stage

variable {σ τ α β γ K : Type*} [Field K] [LinearOrder K] {f : σ → α → σ × Option β} {g : τ → β → τ × Option γ}
  {p q l m : K} {I : σ → Prop} {J : τ → Prop} {saved : σ → K} {put : τ → K} {s : σ}

/-- In the states of `I`, each call of the stage is paid for at the price `p`,
with savings of at most `l`. -/
structure Paced (f : σ → α → σ × Option β) (p l : K) (I : σ → Prop) (saved : σ → K) : Prop where
  keeps : ∀ s x, I s → I (f s x).1
  range : ∀ s, I s → 0 ≤ saved s ∧ saved s ≤ l
  pays : ∀ s x, I s → p * (f s x).2.toList.length + saved (f s x).1 ≤ saved s + 1

variable [IsStrictOrderedRing K]

/-- Whatever a stage does, it calls at most once for each item. -/
theorem paced_by_items (f : σ → α → σ × Option β) : Paced f (1 : K) 0 (fun _ => True) fun _ => 0 where
  keeps _ _ _ := trivial
  range _ _ := ⟨le_rfl, le_rfl⟩
  pays s x _ := by cases (f s x).2 <;> simp

theorem Paced.run (paced : Paced f p l I saved) (start : I s) (xs : List α) :
    I (after f s xs) ∧ p * (outputs f s xs).length + saved (after f s xs) ≤ saved s + xs.length := by
  induction xs generalizing s with
  | nil => exact ⟨start, by simp [outputs]⟩
  | cons x xs ih =>
    obtain ⟨kept, rest⟩ := ih (paced.keeps s x start)
    have now := paced.pays s x start
    refine ⟨kept, ?_⟩
    rw [outputs_cons, List.length_append, List.length_cons, after_cons]
    push_cast
    linarith

/-- In any stretch of items, the calls cost no more than the items and the
savings. -/
theorem Paced.run_le (paced : Paced f p l I saved) (start : I s) (xs : List α) :
    p * (outputs f s xs).length ≤ saved s + xs.length := by
  obtain ⟨kept, total⟩ := paced.run start xs
  linarith [(paced.range _ kept).1]

/-- A stage behind another one is paid in the other's calls. -/
theorem Paced.cascade (first : Paced f p l I saved) (second : Paced g q m J put) (positive : 0 ≤ p) :
    Paced (Stage.cascade f g) (p * q) (l + p * m) (fun s => I s.1 ∧ J s.2) fun s => saved s.1 + p * put s.2 where
  keeps := by
    rintro ⟨s, t⟩ x ⟨held, held'⟩
    cases out : (f s x).2 with
    | none => rw [cascade_quiet t out]; exact ⟨first.keeps s x held, held'⟩
    | some b => rw [cascade_called t out]; exact ⟨first.keeps s x held, second.keeps t b held'⟩
  range := by
    rintro ⟨s, t⟩ ⟨held, held'⟩
    obtain ⟨low, high⟩ := first.range s held
    obtain ⟨low', high'⟩ := second.range t held'
    exact ⟨add_nonneg low (mul_nonneg positive low'), add_le_add high (mul_le_mul_of_nonneg_left high' positive)⟩
  pays := by
    rintro ⟨s, t⟩ x ⟨held, held'⟩
    have now := first.pays s x held
    cases out : (f s x).2 with
    | none =>
      rw [out] at now
      rw [cascade_quiet t out]
      simp only [Option.toList_none, List.length_nil, Nat.cast_zero, mul_zero] at now ⊢
      linarith
    | some b =>
      have behind := mul_le_mul_of_nonneg_left (second.pays t b held') positive
      rw [out] at now
      rw [cascade_called t out]
      simp only [Option.toList_some, List.length_singleton, Nat.cast_one, mul_one] at now ⊢
      linarith

end Stage
