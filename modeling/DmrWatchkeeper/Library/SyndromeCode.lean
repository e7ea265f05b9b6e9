import Mathlib.Algebra.CharP.Two
import Mathlib.Algebra.Field.ZMod
import Mathlib.Algebra.Module.BigOperators
import Mathlib.Data.ZMod.Basic
import Mathlib.InformationTheory.Hamming

/-! Binary linear codes given by one check column per position, decoded by
flipping the single position whose column equals the syndrome. Everything is
stated for an arbitrary syndrome space, so a Hamming code, a shortened Hamming
code and any other single-error-correcting code are instances. -/
namespace SyndromeCode
set_option linter.unusedSectionVars false

/-- A received or transmitted word, one bit per position. -/
abbrev Word (ι : Type*) := ι → ZMod 2

/-- A check column for each position and the table that inverts the columns.
The two laws make the table exact: it finds a position for a syndrome
precisely when that position alone produces the syndrome. -/
structure Code (ι S : Type*) [AddCommGroup S] where
  check : ι → S
  locate : S → Option ι
  locate_iff : ∀ s i, locate s = some i ↔ check i = s
  check_ne_zero : ∀ i, check i ≠ 0

variable {ι S : Type*} [Fintype ι] [DecidableEq ι]
variable [AddCommGroup S] [DecidableEq S] [Module (ZMod 2) S]
variable {code : Code ι S} {v w c : Word ι}

namespace Code

def syndrome (code : Code ι S) (w : Word ι) : S := ∑ i, w i • code.check i

def Codeword (code : Code ι S) (w : Word ι) : Prop := code.syndrome w = 0

/-- Every nonzero syndrome is produced by some position. -/
def Perfect (code : Code ι S) : Prop := ∀ s, s ≠ 0 → ∃ i, code.check i = s

/-- Syndrome decoding of one word, with the flag saying whether the syndrome
was explained by at most one flipped position. -/
def correct (code : Code ι S) (w : Word ι) : Word ι × Bool :=
  if code.syndrome w = 0 then (w, true)
  else match code.locate (code.syndrome w) with
    | some i => (w + Pi.single i 1, true)
    | none => (w, false)

@[simp] theorem syndrome_zero (code : Code ι S) : code.syndrome 0 = 0 := by
  simp [syndrome]

@[simp] theorem syndrome_add (code : Code ι S) (v w : Word ι) :
    code.syndrome (v + w) = code.syndrome v + code.syndrome w := by
  simp [syndrome, add_smul, Finset.sum_add_distrib]

@[simp] theorem syndrome_single (code : Code ι S) (i : ι) :
    code.syndrome (Pi.single i 1) = code.check i := by
  simp [syndrome, Pi.single_apply, ite_smul]

theorem word_add_self (w : Word ι) : w + w = 0 := by
  funext i
  exact CharTwo.add_self_eq_zero (w i)

/-- Subtraction is addition on words, in the form used to move a codeword
across an equation. -/
theorem word_add_cancel (v w : Word ι) : v + (v + w) = w := by
  rw [← add_assoc, word_add_self, zero_add]

private theorem syndrome_add_self (s : S) : s + s = 0 := by
  have twice := add_smul (1 : ZMod 2) 1 s
  rw [show (1 : ZMod 2) + 1 = 0 from rfl, zero_smul, one_smul] at twice
  exact twice.symm

theorem zero_codeword (code : Code ι S) : code.Codeword 0 := code.syndrome_zero

theorem codeword_add (left : code.Codeword v) (right : code.Codeword w) :
    code.Codeword (v + w) := by
  simp only [Codeword, syndrome_add] at *
  rw [left, right, add_zero]

theorem codeword_add_iff (left : code.Codeword v) : code.Codeword (v + w) ↔ code.Codeword w := by
  constructor
  · intro sum
    have back := codeword_add left sum
    rwa [word_add_cancel] at back
  · exact codeword_add left

/-- A word within one flip of another equals it or differs at one position. -/
theorem near_cases (near : hammingDist v w ≤ 1) : v = w ∨ ∃ i, v = w + Pi.single i 1 := by
  by_cases same : v = w
  · exact .inl same
  obtain ⟨i, differs⟩ := Function.ne_iff.mp same
  have only : ∀ j, v j ≠ w j → j = i := fun j other =>
    Finset.card_le_one.mp near j (by simpa using other) i (by simpa using differs)
  refine .inr ⟨i, funext fun j => ?_⟩
  by_cases here : j = i
  · subst j
    rw [Pi.add_apply, Pi.single_eq_same]
    revert differs
    generalize v i = a
    generalize w i = b
    revert a b
    decide
  · rw [Pi.add_apply, Pi.single_eq_of_ne here, add_zero]
    exact not_not.mp fun other => here (only j other)

theorem dist_add_single (w : Word ι) (i : ι) : hammingDist (w + Pi.single i 1) w = 1 := by
  rw [hammingDist, Finset.card_eq_one]
  refine ⟨i, ?_⟩
  ext j
  by_cases here : j = i
  · subst j
    simp
  · simp [here]

/-- Flipping a set position makes a word lighter. -/
theorem norm_clear_lt {i : ι} (set : c i ≠ 0) :
    hammingNorm (c + Pi.single i 1) < hammingNorm c := by
  have cleared : c i + 1 = 0 := by
    revert set
    generalize c i = a
    revert a
    decide
  refine Finset.card_lt_card ((Finset.ssubset_iff_of_subset ?_).mpr ⟨i, by simpa using set, ?_⟩)
  · intro j member
    by_cases here : j = i
    · simpa [here] using set
    · simpa [here] using member
  · simp [cleared]

/-- A word with at most two set positions is light or is two flips. -/
theorem two_flip_cases (light : hammingNorm w ≤ 2) :
    hammingNorm w ≤ 1 ∨ ∃ i j, i ≠ j ∧ w = Pi.single i 1 + Pi.single j 1 := by
  by_cases heavy : hammingNorm w ≤ 1
  · exact .inl heavy
  have nonzero : w ≠ 0 := fun zero => heavy (by simp [zero])
  obtain ⟨i, set⟩ := Function.ne_iff.mp nonzero
  have rest : hammingDist (w + Pi.single i 1) 0 ≤ 1 := by
    have strict := norm_clear_lt set
    rw [hammingDist_zero_right]
    omega
  have restore : w = Pi.single i 1 + (w + Pi.single i 1) := by
    rw [add_comm w, word_add_cancel]
  rcases near_cases rest with zero | ⟨j, single⟩
  · rw [zero, add_zero] at restore
    have norm : hammingNorm w ≤ 1 := by
      rw [restore, ← hammingDist_zero_right, ← zero_add (Pi.single i 1), dist_add_single]
    exact absurd norm heavy
  · rw [single, zero_add] at restore
    refine .inr ⟨i, j, fun same => ?_, restore⟩
    subst same
    exact nonzero (restore.trans (word_add_self _))

/-! ### What decoding one word does -/

theorem correct_of_codeword (good : code.Codeword w) : code.correct w = (w, true) :=
  if_pos good

/-- Decoding moves a word by at most one flip, also when it gives up. -/
theorem correct_near (code : Code ι S) (w : Word ι) :
    hammingDist w (code.correct w).1 ≤ 1 := by
  unfold correct
  split
  · simp
  · split
    · rw [hammingDist_comm, dist_add_single]
    · simp

/-- An accepted word has become a codeword. -/
theorem correct_accepts (accepted : (code.correct w).2 = true) :
    code.Codeword (code.correct w).1 := by
  unfold correct at accepted ⊢
  split
  · assumption
  · split
    · rename_i i located
      simp only [Codeword, syndrome_add, syndrome_single, (code.locate_iff _ _).mp located]
      exact syndrome_add_self _
    · simp_all

/-- Single-error correction: a word within one flip of a codeword becomes
that codeword. -/
theorem correct_of_near (good : code.Codeword c) (near : hammingDist w c ≤ 1) :
    code.correct w = (c, true) := by
  rcases near_cases near with rfl | ⟨i, rfl⟩
  · exact correct_of_codeword good
  · have located : code.syndrome (c + Pi.single i 1) = code.check i := by
      rw [syndrome_add, syndrome_single, show code.syndrome c = 0 from good, zero_add]
    have found := (code.locate_iff _ _).mpr (rfl : code.check i = code.check i)
    unfold correct
    rw [located, if_neg (code.check_ne_zero i), found]
    simp only [add_assoc, word_add_self, add_zero]

/-- Decoding accepts with result `c` exactly when `c` is a codeword within one
flip of the received word. -/
theorem correct_eq_iff : code.correct w = (c, true) ↔ code.Codeword c ∧ hammingDist w c ≤ 1 := by
  constructor
  · intro decoded
    have accepted : code.Codeword (code.correct w).1 := correct_accepts (by rw [decoded])
    have near := correct_near code w
    rw [decoded] at accepted near
    exact ⟨accepted, near⟩
  · rintro ⟨good, near⟩
    exact correct_of_near good near

/-- Decoding depends on the error and not on the codeword it was added to. -/
theorem correct_add_codeword (good : code.Codeword c) (e : Word ι) :
    code.correct (c + e) = (c + (code.correct e).1, (code.correct e).2) := by
  have same : code.syndrome (c + e) = code.syndrome e := by
    rw [syndrome_add, show code.syndrome c = 0 from good, zero_add]
  unfold correct
  rw [same]
  split
  · rfl
  · split <;> simp [add_assoc]

@[simp] theorem correct_zero (code : Code ι S) : code.correct 0 = (0, true) :=
  correct_of_codeword code.zero_codeword

theorem correct_of_norm_le_one (light : hammingNorm w ≤ 1) : code.correct w = (0, true) :=
  correct_of_near code.zero_codeword (by rwa [hammingDist_zero_right])

/-- A perfect code never gives up. -/
theorem correct_of_perfect (perfect : code.Perfect) (w : Word ι) : (code.correct w).2 = true := by
  unfold correct
  split
  · rfl
  · rename_i nonzero
    obtain ⟨i, produced⟩ := perfect _ nonzero
    rw [(code.locate_iff _ _).mpr produced]

/-- Decoding only gives up on a syndrome that no position produces. -/
theorem correct_fails_iff :
    (code.correct w).2 = false ↔ code.syndrome w ≠ 0 ∧ ∀ i, code.check i ≠ code.syndrome w := by
  unfold correct
  split
  · simp_all
  · rename_i nonzero
    cases found : code.locate (code.syndrome w) with
    | some i =>
      have produced := (code.locate_iff _ _).mp found
      simp only [Bool.true_eq_false, false_iff]
      exact fun missing => missing.2 i produced
    | none =>
      simp only [ne_eq, nonzero, not_false_eq_true, true_and, true_iff]
      intro i produced
      rw [(code.locate_iff _ _).mpr produced] at found
      cases found

/-- Decoding accepts a word whose syndrome is that of no flip or of one. -/
theorem correct_accepts_iff :
    (code.correct w).2 = true ↔ code.syndrome w = 0 ∨ ∃ i, code.check i = code.syndrome w := by
  rw [← not_iff_not, Bool.not_eq_true, correct_fails_iff, not_or, not_exists]

/-- Decoding changes the position that produces the syndrome and no other. -/
theorem correct_flips_iff {i : ι} : (code.correct w).1 i ≠ w i ↔ code.check i = code.syndrome w := by
  unfold correct
  split
  · rename_i zero
    rw [zero]
    exact iff_of_false (fun changed => changed rfl) (code.check_ne_zero i)
  · rw [← code.locate_iff]
    cases found : code.locate (code.syndrome w) with
    | none => simp
    | some j =>
      have flipped : ∀ a : ZMod 2, a + 1 ≠ a := by decide
      by_cases here : i = j
      · subst here
        simp [flipped]
      · simp [here, Ne.symm here]

/-- The minimum distance is three. -/
theorem three_le_norm (good : code.Codeword c) (nonzero : c ≠ 0) : 3 ≤ hammingNorm c := by
  by_contra light
  obtain ⟨i, differs⟩ := Function.ne_iff.mp nonzero
  -- Flipping one set position leaves at most one, so zero and `c` both
  -- explain the remaining word.
  have toZero : hammingDist (c + Pi.single i 1) 0 ≤ 1 := by
    have strict := norm_clear_lt differs
    rw [hammingDist_zero_right]
    omega
  have fromZero := correct_of_near code.zero_codeword toZero
  have fromCode := correct_of_near good (le_of_eq (dist_add_single c i))
  rw [fromZero] at fromCode
  exact nonzero (congrArg Prod.fst fromCode).symm

/-! ### Words as sets of positions -/

/-- The word that is set on `P`. -/
def mark (P : Finset ι) : Word ι := fun i => if i ∈ P then 1 else 0

variable {P Q T : Finset ι} {i : ι}

theorem mark_of_mem (member : i ∈ P) : mark P i = 1 := if_pos member

theorem mark_of_not_mem (outside : i ∉ P) : mark P i = 0 := if_neg outside

@[simp] theorem mark_ne_zero : mark P i ≠ 0 ↔ i ∈ P := by simp [mark]

@[simp] theorem mark_empty : mark (∅ : Finset ι) = 0 := by
  funext i
  simp [mark]

theorem mark_injective : Function.Injective (mark : Finset ι → Word ι) := by
  intro P Q same
  ext i
  rw [← mark_ne_zero, same, mark_ne_zero]

/-- Every word marks the positions where it is set. -/
theorem mark_support (w : Word ι) : mark (Finset.univ.filter (w · ≠ 0)) = w := by
  funext i
  have two : ∀ a : ZMod 2, (if a ≠ 0 then (1 : ZMod 2) else 0) = a := by decide
  simpa [mark] using two (w i)

theorem eq_mark (cells : ∀ i, w i ≠ 0 ↔ i ∈ P) : w = mark P := by
  rw [← mark_support w]
  congr 1
  ext i
  simp [cells i]

theorem norm_mark (P : Finset ι) : hammingNorm (mark P) = P.card := by
  simp [hammingNorm]

theorem dist_mark (P Q : Finset ι) : hammingDist (mark P) (mark Q) = (P \ Q).card + (Q \ P).card := by
  have differ : (Finset.univ.filter fun i => mark P i ≠ mark Q i) = (P \ Q) ∪ (Q \ P) := by
    ext i
    rw [Finset.mem_filter]
    by_cases left : i ∈ P <;> by_cases right : i ∈ Q <;> simp [mark, left, right]
  rw [hammingDist, differ, Finset.card_union_of_disjoint disjoint_sdiff_sdiff]

theorem syndrome_mark (code : Code ι S) (P : Finset ι) :
    code.syndrome (mark P) = ∑ i ∈ P, code.check i := by
  simp [syndrome, mark, ite_smul]

/-- Three positions whose flips together go unnoticed. -/
structure Triple (code : Code ι S) (T : Finset ι) : Prop where
  three : T.card = 3
  cancels : ∑ i ∈ T, code.check i = 0

theorem Triple.codeword (triple : code.Triple T) : code.Codeword (mark T) :=
  (syndrome_mark code T).trans triple.cancels

/-- Two flips out of a triple are decoded by completing the triple. -/
theorem Triple.correct (triple : code.Triple T) (within : P ⊆ T) (two : 2 ≤ P.card) :
    code.correct (mark P) = (mark T, true) := by
  refine correct_of_near triple.codeword ?_
  have split := Finset.card_sdiff_add_card_eq_card within
  have three := triple.three
  rw [dist_mark, Finset.sdiff_eq_empty_iff_subset.mpr within, Finset.card_empty]
  omega

/-- Two positions lie in at most one triple. -/
theorem Triple.unique (left : code.Triple T) (right : code.Triple Q) (inLeft : P ⊆ T)
    (inRight : P ⊆ Q) (two : 2 ≤ P.card) : T = Q := by
  have first := left.correct inLeft two
  rw [right.correct inRight two] at first
  exact mark_injective (congrArg Prod.fst first).symm

/-- Two triples that share two positions have the same third one. -/
theorem Triple.same_third {i j p q : ι} (left : code.Triple T) (right : code.Triple Q)
    (apart : i ≠ j) (inLeft : {i, j, p} ⊆ T) (inRight : {i, j, q} ⊆ Q) (otherP : p ∉ ({i, j} : Finset ι))
    (otherQ : q ∉ ({i, j} : Finset ι)) : p = q := by
  simp only [Finset.insert_subset_iff, Finset.singleton_subset_iff] at inLeft inRight
  simp only [Finset.mem_insert, Finset.mem_singleton, not_or] at otherP otherQ
  obtain rfl : T = Q := left.unique right (P := {i, j}) (by simp [*, Finset.insert_subset_iff])
    (by simp [*, Finset.insert_subset_iff]) (Finset.card_pair apart).ge
  by_contra different
  have four : {i, j, p, q} ⊆ T := by simp [*, Finset.insert_subset_iff]
  have bound := Finset.card_le_card four
  rw [left.three, Finset.card_insert_of_notMem (by simp [apart, Ne.symm otherP.1, Ne.symm otherQ.1]),
    Finset.card_insert_of_notMem (by simp [Ne.symm otherP.2, Ne.symm otherQ.2]),
    Finset.card_pair different] at bound
  omega

theorem triple_of_sum {i j k : ι} (notI : k ≠ i) (notJ : k ≠ j) (apart : i ≠ j)
    (cancels : code.check k + (code.check i + code.check j) = 0) : code.Triple {k, i, j} where
  three := by rw [Finset.card_insert_of_notMem (by simp [notI, notJ]), Finset.card_pair apart]
  cancels := by rwa [Finset.sum_insert (by simp [notI, notJ]), Finset.sum_pair apart]

/-- Two positions of a triple determine the third. -/
theorem Triple.third {i j : ι} (triple : code.Triple T) (inI : i ∈ T) (inJ : j ∈ T) (apart : i ≠ j) :
    ∃ k ∈ T, k ≠ i ∧ k ≠ j ∧ code.check k + (code.check i + code.check j) = 0 := by
  have pair : {i, j} ⊆ T := by simp [Finset.insert_subset_iff, inI, inJ]
  have rest : (T \ {i, j}).card = 1 := by
    rw [Finset.card_sdiff_of_subset pair, triple.three, Finset.card_pair apart]
  obtain ⟨k, only⟩ := Finset.card_eq_one.mp rest
  obtain ⟨member, other⟩ := Finset.mem_sdiff.mp (show k ∈ T \ {i, j} by simp [only])
  rw [Finset.mem_insert, Finset.mem_singleton, not_or] at other
  refine ⟨k, member, other.1, other.2, ?_⟩
  rw [← triple.cancels, ← Finset.sum_sdiff pair, only, Finset.sum_singleton, Finset.sum_pair apart]

/-- Two flips are accepted only if they are part of a triple. -/
theorem triple_of_pair (code : Code ι S) (two : P.card = 2) (accepted : (code.correct (mark P)).2 = true) :
    ∃ T, code.Triple T ∧ P ⊆ T := by
  obtain ⟨T, decoded⟩ : ∃ T, code.correct (mark P) = (mark T, true) :=
    ⟨_, Prod.ext (mark_support _).symm accepted⟩
  obtain ⟨good, near⟩ := correct_eq_iff.mp decoded
  have split := Finset.card_sdiff_add_card_inter P T
  have split' := Finset.card_sdiff_add_card_inter T P
  rw [dist_mark] at near
  rw [Finset.inter_comm] at split'
  have nonzero : mark T ≠ 0 := by
    rw [← mark_empty]
    intro same
    rw [mark_injective same] at near
    simp at near
    omega
  have heavy := three_le_norm good nonzero
  rw [norm_mark] at heavy
  refine ⟨T, ⟨by omega, ?_⟩, ?_⟩
  · rw [← syndrome_mark]
    exact good
  · rw [← Finset.sdiff_eq_empty_iff_subset, ← Finset.card_eq_zero]
    omega

end Code
end SyndromeCode
