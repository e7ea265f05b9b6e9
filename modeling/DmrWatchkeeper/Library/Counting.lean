import Mathlib.Data.Fintype.BigOperators
import Mathlib.InformationTheory.Hamming
import Mathlib.SetTheory.Cardinal.Finite

/-! Counting by bijections: fibres of one size, words with some of their entries
prescribed or of a kind, and words within a distance. -/
namespace Counting

/-- Where the fibres over the values of interest have one size, the arguments
with such values are counted by them. -/
theorem card_preimage {α β : Type*} [Finite α] [Finite β] (f : α → β) {P : β → Prop} {n : ℕ}
    (same : ∀ b, P b → Nat.card {a // f a = b} = n) :
    Nat.card {a // P (f a)} = Nat.card {b // P b} * n := by
  classical
  have := Fintype.ofFinite {b // P b}
  have fibres : (Σ b : {b // P b}, {a // f a = b}) ≃ {a // P (f a)} :=
    Equiv.sigmaSubtypeFiberEquivSubtype f fun _ => Iff.rfl
  rw [← Nat.card_congr fibres, Nat.card_sigma, Finset.sum_congr rfl fun (b : {b // P b}) _ => same b.1 b.2,
    Finset.sum_const, Finset.card_univ, Nat.nsmul_eq_mul, ← Nat.card_eq_fintype_card]

/-- Words with the entries in `S` prescribed. -/
theorem card_prescribed {ι D : Type*} [Fintype ι] [DecidableEq ι] (S : Finset ι) (v : ι → D) :
    Nat.card {w : ι → D // ∀ i ∈ S, w i = v i} = Nat.card D ^ (Fintype.card ι - S.card) := by
  have free : {w : ι → D // ∀ i ∈ S, w i = v i} ≃ ({i // ¬ i ∈ S} → D) := by
    refine Equiv.trans (Equiv.subtypeEquivRight fun w => ?_) (Equiv.subtypePreimage (· ∈ S) fun i => v i)
    rw [funext_iff, Subtype.forall]
    rfl
  rw [Nat.card_congr free, Nat.card_fun, Nat.card_eq_fintype_card (α := {i // ¬ i ∈ S}),
    Fintype.card_subtype_compl, Fintype.card_coe]

/-- Words of which some entries, read in some order, are of a kind. -/
theorem card_reading {ι κ D : Type*} [Fintype ι] [Fintype κ] [DecidableEq ι] [Finite D] [Nonempty D] {e : κ → ι}
    (apart : Function.Injective e) (kind : (κ → D) → Prop) : Nat.card {w : ι → D // kind (w ∘ e)} =
      Nat.card {g // kind g} * Nat.card D ^ (Fintype.card ι - Fintype.card κ) := by
  refine card_preimage (fun w : ι → D => w ∘ e) fun g _ => ?_
  obtain ⟨d⟩ := ‹Nonempty D›
  have read : {w : ι → D // w ∘ e = g} ≃
      {w : ι → D // ∀ i ∈ Finset.univ.image e, w i = Function.extend e g (fun _ => d) i} :=
    Equiv.subtypeEquivRight fun w => by
      simp only [Finset.mem_image, Finset.mem_univ, true_and, forall_exists_index, forall_apply_eq_imp_iff,
        apart.extend_apply, funext_iff, Function.comp_apply]
  rw [Nat.card_congr read, card_prescribed, Finset.card_image_of_injective _ apart, Finset.card_univ]

/-- Words of bits are the sets of the places where they differ from `c`. -/
def differences {ι : Type*} [Fintype ι] [DecidableEq ι] (c : ι → Bool) : (ι → Bool) ≃ Finset ι where
  toFun w := Finset.univ.filter fun i => w i ≠ c i
  invFun S i := if i ∈ S then !c i else c i
  left_inv w := by
    funext i
    by_cases same : w i = c i
    · simp [same]
    · simp [Bool.eq_not_of_ne same]
  right_inv S := by
    ext i
    by_cases member : i ∈ S <;> simp [member]

/-- The words within a distance. -/
theorem card_ball {ι : Type*} [Fintype ι] [DecidableEq ι] (c : ι → Bool) (t : ℕ) :
    Nat.card {w : ι → Bool // hammingDist w c ≤ t} =
      ∑ i ∈ Finset.range (t + 1), (Fintype.card ι).choose i := by
  have sets : {w : ι → Bool // hammingDist w c ≤ t} ≃ {S : Finset ι // S.card ≤ t} :=
    (differences c).subtypeEquiv fun w => Iff.rfl
  rw [Nat.card_congr sets, Nat.card_eq_fintype_card, Fintype.card_subtype,
    Finset.card_eq_sum_card_fiberwise (f := Finset.card) (t := Finset.range (t + 1))]
  · refine Finset.sum_congr rfl fun i member => ?_
    have size : (Finset.univ.filter fun S : Finset ι => S.card ≤ t).filter (fun S => S.card = i) =
        Finset.powersetCard i Finset.univ := by
      have small := Nat.lt_succ_iff.mp (Finset.mem_range.mp member)
      ext S
      simp only [Finset.mem_filter, Finset.mem_univ, true_and, Finset.mem_powersetCard, Finset.subset_univ]
      exact ⟨fun both => both.2, fun same => ⟨same.trans_le small, same⟩⟩
    rw [size, Finset.card_powersetCard, Finset.card_univ]
  · intro S member
    have small := (Finset.mem_filter.mp member).2
    exact Finset.mem_coe.mpr (Finset.mem_range.mpr (Nat.lt_succ_iff.mpr small))

/-- Summed over the arguments or over the indices, pairs are counted once. -/
theorem sum_card_comm {α β : Type*} [Fintype α] (s : Finset β) (R : α → β → Prop) [∀ a b, Decidable (R a b)] :
    ∑ a, (s.filter (R a)).card = ∑ b ∈ s, (Finset.univ.filter fun a => R a b).card := by
  simp only [Finset.card_filter]
  exact Finset.sum_comm

end Counting
