import DmrWatchkeeper.Library.ProductCode

/-! Four errors in a product code: the fewest that the three passes can accept
and leave a guarded row wrong. A guarded row is left wrong only by two columns
that each hold two errors after the first row pass, and there are three ways
to arrange four errors so. -/
namespace ProductCode.Layout
open SyndromeCode SyndromeCode.Code
set_option linter.unusedSectionVars false

variable {ρ κ S T : Type*} [Fintype ρ] [DecidableEq ρ] [Fintype κ] [DecidableEq κ]
variable [AddCommGroup S] [DecidableEq S] [Module (ZMod 2) S]
variable [AddCommGroup T] [DecidableEq T] [Module (ZMod 2) T]
variable {L : Layout ρ κ S T} {E : Grid ρ κ} {r t : ρ} {x y : κ}

/-- The unguarded rows that are wrong in a column. -/
def spare (L : Layout ρ κ S T) (E : Grid ρ κ) (c : κ) : Finset ρ :=
  Finset.univ.filter fun r => r ∉ L.guarded ∧ E r c ≠ 0

theorem card_spare (c : κ) : (L.spare E c).card = L.unguarded E c := rfl

theorem mem_spare : r ∈ L.spare E x ↔ r ∉ L.guarded ∧ E r x ≠ 0 := by
  simp [spare]

/-! ### Two heavy columns among four errors -/

/-- Two columns that use up four errors: each holds exactly the overloaded rows
and its own spare ones, and no other column holds more than one error. -/
structure HeavyPair (L : Layout ρ κ S T) (E : Grid ρ κ) (x y : κ) : Prop where
  distinct : x ≠ y
  countX : (L.overloaded E).card + L.unguarded E x = 2
  countY : (L.overloaded E).card + L.unguarded E y = 2
  columnX : column (L.rowPass E) x = mark (L.overloaded E ∪ L.spare E x)
  columnY : column (L.rowPass E) y = mark (L.overloaded E ∪ L.spare E y)
  pairs : ∀ r ∈ L.overloaded E, hammingNorm (E r) = 2
  others : ∀ c, c ≠ x → c ≠ y → L.spare E c = ∅

theorem heavy_column_eq {c : κ} (heavy : 2 ≤ hammingNorm (column (L.rowPass E) c))
    (tight : (L.overloaded E).card + L.unguarded E c ≤ 2) :
    column (L.rowPass E) c = mark (L.overloaded E ∪ L.spare E c) := by
  have union := Finset.card_union_le (L.overloaded E) (L.spare E c)
  have same := Finset.eq_of_subset_of_card_le (column_rowPass_subset (L := L) (E := E) c)
    ((union.trans tight).trans heavy)
  rw [← mark_support (column (L.rowPass E) c), same]
  rfl

theorem heavyPair_of_four (few : weight E ≤ 4) (distinct : x ≠ y)
    (heavyX : 2 ≤ hammingNorm (column (L.rowPass E) x))
    (heavyY : 2 ≤ hammingNorm (column (L.rowPass E) y)) : L.HeavyPair E x y := by
  have boundX := norm_column_rowPass_le (L := L) (E := E) x
  have boundY := norm_column_rowPass_le (L := L) (E := E) y
  have split := weight_split L E
  have pair : L.unguarded E x + L.unguarded E y ≤ ∑ c, L.unguarded E c := by
    rw [← Finset.sum_pair distinct]
    exact Finset.sum_le_sum_of_subset (Finset.subset_univ _)
  have rows := overloaded_le L E
  have countX : (L.overloaded E).card + L.unguarded E x = 2 := by omega
  have countY : (L.overloaded E).card + L.unguarded E y = 2 := by omega
  refine ⟨distinct, countX, countY, heavy_column_eq heavyX countX.le,
    heavy_column_eq heavyY countY.le, ?_, ?_⟩
  · intro r member
    have listed := mem_overloaded.mp member
    have rest : 2 * ((L.overloaded E).erase r).card ≤ ∑ s ∈ (L.overloaded E).erase r, hammingNorm (E s) := by
      rw [mul_comm, ← smul_eq_mul]
      exact Finset.card_nsmul_le_sum _ _ _ fun s other =>
        (mem_overloaded.mp (Finset.mem_of_mem_erase other)).2
    have within : ∑ s ∈ L.overloaded E, hammingNorm (E s) ≤ ∑ s ∈ L.guarded, hammingNorm (E s) :=
      Finset.sum_le_sum_of_subset (Finset.filter_subset _ _)
    rw [← Finset.add_sum_erase _ _ member] at within
    rw [Finset.card_erase_of_mem member] at rest
    have some_row := Finset.card_pos.mpr ⟨r, member⟩
    omega
  · intro c notX notY
    have three : L.unguarded E c + (L.unguarded E x + L.unguarded E y) ≤ ∑ c, L.unguarded E c := by
      rw [← Finset.sum_pair distinct, ← Finset.sum_insert (by simp [notX, notY])]
      exact Finset.sum_le_sum_of_subset (Finset.subset_univ _)
    rw [← Finset.card_eq_zero, card_spare]
    omega

variable {cols : Finset κ} {rows : Finset ρ}

/-- An overloaded row of the pair has been completed to a triple through both
columns. -/
theorem HeavyPair.row (pair : L.HeavyPair E x y) (member : r ∈ L.overloaded E) :
    ∃ wrong cols, L.rowCode.Triple cols ∧ x ∈ cols ∧ y ∈ cols ∧ wrong ⊆ cols ∧ wrong.card = 2 ∧
      E r = mark wrong ∧ L.rowPass E r = mark cols := by
  have two := pair.pairs r member
  rw [← mark_support (E r), norm_mark] at two
  obtain ⟨cols, triple, within⟩ := triple_of_pair L.rowCode two
    (correct_of_perfect L.rowPerfect _)
  have passed : L.rowPass E r = mark cols := by
    rw [rowPass_guarded (mem_overloaded.mp member).1, ← mark_support (E r),
      triple.correct within two.ge]
  have inX : column (L.rowPass E) x r ≠ 0 := by
    rw [pair.columnX, mark_ne_zero]
    exact Finset.mem_union_left _ member
  have inY : column (L.rowPass E) y r ≠ 0 := by
    rw [pair.columnY, mark_ne_zero]
    exact Finset.mem_union_left _ member
  rw [column_apply, passed, mark_ne_zero] at inX inY
  exact ⟨_, cols, triple, inX, inY, within, two, (mark_support _).symm, passed⟩

/-- An accepted column of two errors has been completed to a triple. -/
theorem accepted_pair {c : κ} {wrong : Finset ρ} (accepts : L.Accepts E)
    (two : wrong.card = 2) (holds : column (L.rowPass E) c = mark wrong) :
    ∃ rows, L.colCode.Triple rows ∧ wrong ⊆ rows ∧
      column (L.colPass (L.rowPass E)) c = mark rows := by
  have accepted := accepts c
  rw [holds] at accepted
  obtain ⟨rows, triple, within⟩ := triple_of_pair L.colCode two accepted
  refine ⟨rows, triple, within, ?_⟩
  rw [column_colPass, holds, triple.correct within two.ge]

/-! ### The three arrangements -/

/-- Some position answers for the two flips together. -/
def Joined {ι R : Type*} [AddCommGroup R] (code : Code ι R) (i j : ι) : Prop :=
  ∃ triple, code.Triple triple ∧ i ∈ triple ∧ j ∈ triple

/-- Two guarded rows with two errors each, all within one triple of columns. -/
structure TwoRows (L : Layout ρ κ S T) (E : Grid ρ κ) (cols : Finset κ) (r r' : ρ)
    (P P' : Finset κ) : Prop where
  triple : L.rowCode.Triple cols
  distinct : r ≠ r'
  inside : r ∈ L.guarded
  inside' : r' ∈ L.guarded
  within : P ⊆ cols
  within' : P' ⊆ cols
  two : P.card = 2
  two' : P'.card = 2
  wrong : ∀ c ∈ P, E r c ≠ 0
  wrong' : ∀ c ∈ P', E r' c ≠ 0
  joined : Joined L.colCode r r'

/-- A guarded row with two errors within a triple of columns, and an error in
an unguarded row under each of two columns of the triple. -/
structure RowAndSpares (L : Layout ρ κ S T) (E : Grid ρ κ) (cols : Finset κ) (r p q : ρ)
    (P : Finset κ) (x y : κ) : Prop where
  triple : L.rowCode.Triple cols
  inside : r ∈ L.guarded
  outside : p ∉ L.guarded
  outside' : q ∉ L.guarded
  within : P ⊆ cols
  two : P.card = 2
  wrong : ∀ c ∈ P, E r c ≠ 0
  distinct : x ≠ y
  inX : x ∈ cols
  inY : y ∈ cols
  spareX : E p x ≠ 0
  spareY : E q y ≠ 0
  joined : Joined L.colCode r p
  joined' : Joined L.colCode r q

/-- Two unguarded rows that are wrong in the same two columns. -/
structure SpareSquare (L : Layout ρ κ S T) (E : Grid ρ κ) (p q : ρ) (x y : κ) : Prop where
  rows : p ≠ q
  columns : x ≠ y
  outside : p ∉ L.guarded
  outside' : q ∉ L.guarded
  wrongX : E p x ≠ 0
  wrongX' : E q x ≠ 0
  wrongY : E p y ≠ 0
  wrongY' : E q y ≠ 0

/-! ### Every wrong guarded row comes from one of them -/

section Cases
variable {r₀ : ρ}

theorem HeavyPair.two_rows (pair : L.HeavyPair E x y) (accepts : L.Accepts E)
    (count : (L.overloaded E).card = 2) : ∃ cols r r' P P', L.TwoRows E cols r r' P P' := by
  obtain ⟨r, r', distinct, both⟩ := Finset.card_eq_two.mp count
  have first : r ∈ L.overloaded E := by simp [both]
  have second : r' ∈ L.overloaded E := by simp [both]
  obtain ⟨P, cols, triple, inX, inY, within, two, row, -⟩ := pair.row first
  obtain ⟨P', cols', triple', inX', inY', within', two', row', -⟩ := pair.row second
  have same : cols = cols' := triple.unique triple' (P := {x, y})
    (by simp [Finset.insert_subset_iff, inX, inY]) (by simp [Finset.insert_subset_iff, inX', inY'])
    (Finset.card_pair pair.distinct).ge
  subst same
  have empty : L.spare E x = ∅ := by
    rw [← Finset.card_eq_zero, card_spare]
    have total := pair.countX
    omega
  have column := pair.columnX
  rw [empty, Finset.union_empty] at column
  obtain ⟨rows, colTriple, joined, -⟩ := accepted_pair accepts count column
  exact ⟨cols, r, r', P, P',
    { triple, distinct, within, within', two, two'
      inside := (mem_overloaded.mp first).1
      inside' := (mem_overloaded.mp second).1
      wrong := fun c member => by rwa [row, mark_ne_zero]
      wrong' := fun c member => by rwa [row', mark_ne_zero]
      joined := ⟨rows, colTriple, joined first, joined second⟩ }⟩

/-- A guarded row that keeps two errors of a triple, and none elsewhere, ends as
that triple. -/
theorem decode_completes (inside : r₀ ∈ L.guarded) (triple : L.rowCode.Triple cols)
    (distinct : x ≠ y) (leftX : L.colPass (L.rowPass E) r₀ x ≠ 0)
    (leftY : L.colPass (L.rowPass E) r₀ y ≠ 0)
    (clean : ∀ c ∉ cols, L.colPass (L.rowPass E) r₀ c = 0) : L.decode E r₀ = mark cols := by
  rw [decode, rowPass_guarded inside, ← mark_support (L.colPass (L.rowPass E) r₀)]
  have both : {x, y} ⊆ Finset.univ.filter (L.colPass (L.rowPass E) r₀ · ≠ 0) := by
    simp [Finset.insert_subset_iff, leftX, leftY]
  have two := Finset.card_le_card both
  rw [Finset.card_pair distinct] at two
  rw [triple.correct ?_ two]
  intro c left
  by_contra outside
  exact (Finset.mem_filter.mp left).2 (clean c outside)

/-- A column other than the two of the pair is clean after the column pass. -/
theorem HeavyPair.clean_elsewhere (pair : L.HeavyPair E x y) (few : (L.overloaded E).card ≤ 1)
    {c : κ} (notX : c ≠ x) (notY : c ≠ y) (s : ρ) : L.colPass (L.rowPass E) s c = 0 := by
  apply colPass_light
  have bound := norm_column_rowPass_le (L := L) (E := E) c
  rw [← card_spare, pair.others c notX notY, Finset.card_empty] at bound
  omega

theorem HeavyPair.row_and_spares (pair : L.HeavyPair E x y) (accepts : L.Accepts E)
    (count : (L.overloaded E).card = 1) (inside : r₀ ∈ L.guarded)
    (leftX : L.colPass (L.rowPass E) r₀ x ≠ 0) (leftY : L.colPass (L.rowPass E) r₀ y ≠ 0) :
    ∃ cols r p q P, L.RowAndSpares E cols r p q P x y ∧
      (p = q ∨ r₀ = r ∧ L.decode E r₀ = mark cols) := by
  obtain ⟨r, single⟩ := Finset.card_eq_one.mp count
  have member : r ∈ L.overloaded E := by simp [single]
  have spareX : (L.spare E x).card = 1 := by
    have total := pair.countX
    rw [card_spare]
    omega
  have spareY : (L.spare E y).card = 1 := by
    have total := pair.countY
    rw [card_spare]
    omega
  obtain ⟨p, onlyP⟩ := Finset.card_eq_one.mp spareX
  obtain ⟨q, onlyQ⟩ := Finset.card_eq_one.mp spareY
  obtain ⟨outside, wrongP⟩ := mem_spare.mp (show p ∈ L.spare E x by simp [onlyP])
  obtain ⟨outside', wrongQ⟩ := mem_spare.mp (show q ∈ L.spare E y by simp [onlyQ])
  have data := (mem_overloaded.mp member).1
  obtain ⟨P, cols, triple, inX, inY, within, two, row, -⟩ := pair.row member
  have columnX := pair.columnX
  have columnY := pair.columnY
  rw [single, onlyP] at columnX
  rw [single, onlyQ] at columnY
  have apart : r ≠ p := fun same => outside (same ▸ data)
  have apart' : r ≠ q := fun same => outside' (same ▸ data)
  obtain ⟨rows, tripleX, heldX, afterX⟩ := accepted_pair accepts (Finset.card_pair apart) columnX
  obtain ⟨rows', tripleY, heldY, afterY⟩ := accepted_pair accepts (Finset.card_pair apart') columnY
  rw [Finset.insert_subset_iff, Finset.singleton_subset_iff] at heldX heldY
  refine ⟨cols, r, p, q, P,
    { triple, inside := data, outside, outside', within, two, distinct := pair.distinct, inX, inY
      wrong := fun c inP => by rwa [row, mark_ne_zero]
      spareX := wrongP
      spareY := wrongQ
      joined := ⟨rows, tripleX, heldX.1, heldX.2⟩
      joined' := ⟨rows', tripleY, heldY.1, heldY.2⟩ }, ?_⟩
  by_cases own : r₀ = r
  · refine .inr ⟨own, decode_completes inside triple pair.distinct leftX leftY fun c other => ?_⟩
    have notX : c ≠ x := fun same => other (by rwa [same])
    have notY : c ≠ y := fun same => other (by rwa [same])
    exact pair.clean_elsewhere count.le notX notY r₀
  · left
    have inRows : r₀ ∈ rows := by
      rw [← mark_ne_zero, ← afterX]
      exact leftX
    have inRows' : r₀ ∈ rows' := by
      rw [← mark_ne_zero, ← afterY]
      exact leftY
    have apart₀ : p ≠ r₀ := fun same => outside (same ▸ inside)
    have apart₀' : q ≠ r₀ := fun same => outside' (same ▸ inside)
    exact tripleX.same_third tripleY own (by simp [Finset.insert_subset_iff, inRows, heldX])
      (by simp [Finset.insert_subset_iff, inRows', heldY]) (by simp [apart₀, apart.symm])
      (by simp [apart₀', apart'.symm])

/-- Column checks that fix every word of unguarded rows. -/
def SpareIndependent (L : Layout ρ κ S T) : Prop :=
  ∀ w : Word ρ, (∀ r ∈ L.guarded, w r = 0) → L.colCode.Codeword w → w = 0

/-- A triple that two spare errors are completed to is theirs and the guarded
row left wrong. -/
theorem completed_spare (inside : r₀ ∈ L.guarded) (triple : L.colCode.Triple rows)
    (held : L.spare E x ⊆ rows) (two : (L.spare E x).card = 2)
    (after : column (L.colPass (L.rowPass E)) x = mark rows)
    (left : L.colPass (L.rowPass E) r₀ x ≠ 0) :
    r₀ ∉ L.spare E x ∧ insert r₀ (L.spare E x) = rows := by
  have outside : r₀ ∉ L.spare E x := fun member => (mem_spare.mp member).1 inside
  have inRows : r₀ ∈ rows := by
    rw [← mark_ne_zero, ← after]
    exact left
  refine ⟨outside, Finset.eq_of_subset_of_card_le (Finset.insert_subset inRows held) ?_⟩
  rw [triple.three, Finset.card_insert_of_notMem outside, two]

theorem HeavyPair.spare_square (pair : L.HeavyPair E x y) (accepts : L.Accepts E)
    (independent : L.SpareIndependent) (count : (L.overloaded E).card = 0)
    (inside : r₀ ∈ L.guarded) (leftX : L.colPass (L.rowPass E) r₀ x ≠ 0)
    (leftY : L.colPass (L.rowPass E) r₀ y ≠ 0) : ∃ p q, L.SpareSquare E p q x y := by
  rw [Finset.card_eq_zero] at count
  have columnX := pair.columnX
  have columnY := pair.columnY
  have countX := pair.countX
  have countY := pair.countY
  rw [count, Finset.empty_union] at columnX columnY
  rw [count, Finset.card_empty, zero_add, ← card_spare] at countX countY
  obtain ⟨rows, tripleX, heldX, afterX⟩ := accepted_pair accepts countX columnX
  obtain ⟨rows', tripleY, heldY, afterY⟩ := accepted_pair accepts countY columnY
  obtain ⟨outside, rowsEq⟩ := completed_spare inside tripleX heldX countX afterX leftX
  obtain ⟨outside', rowsEq'⟩ := completed_spare inside tripleY heldY countY afterY leftY
  -- Both columns have grown by the same row, so they were wrong in the same rows.
  have difference : mark rows + mark rows' = 0 := by
    refine independent _ (fun s guarded => ?_) (codeword_add tripleX.codeword tripleY.codeword)
    have notSpare : ∀ z, s ∉ L.spare E z := fun z member => (mem_spare.mp member).1 guarded
    rw [← rowsEq, ← rowsEq', Pi.add_apply]
    by_cases own : s = r₀
    · simp [mark, own]
      decide
    · simp [mark, own, notSpare]
  have same : rows = rows' := by
    apply mark_injective
    rw [← word_add_cancel (mark rows) (mark rows'), difference, add_zero]
  have spares : L.spare E x = L.spare E y := by
    rw [← Finset.erase_insert outside, ← Finset.erase_insert outside', rowsEq, rowsEq', same]
  obtain ⟨p, q, distinct, both⟩ := Finset.card_eq_two.mp countX
  have memberP := mem_spare.mp (show p ∈ L.spare E x by simp [both])
  have memberQ := mem_spare.mp (show q ∈ L.spare E x by simp [both])
  have memberP' := mem_spare.mp (show p ∈ L.spare E y by simp [← spares, both])
  have memberQ' := mem_spare.mp (show q ∈ L.spare E y by simp [← spares, both])
  exact ⟨p, q,
    { rows := distinct
      columns := pair.distinct
      outside := memberP.1
      outside' := memberQ.1
      wrongX := memberP.2
      wrongX' := memberQ.2
      wrongY := memberP'.2
      wrongY' := memberQ'.2 }⟩


/-- With four errors, an accepted grid with a wrong guarded row comes from one
of the three arrangements. -/
theorem wrong_row_cases (independent : L.SpareIndependent) (few : weight E ≤ 4)
    (accepts : L.Accepts E) (inside : r₀ ∈ L.guarded) (wrong : L.decode E r₀ ≠ 0) :
    (∃ cols r r' P P', L.TwoRows E cols r r' P P') ∨
      (∃ cols r p q P x y, L.RowAndSpares E cols r p q P x y ∧
        (p = q ∨ r₀ = r ∧ L.decode E r₀ = mark cols)) ∨
      ∃ p q x y, L.SpareSquare E p q x y := by
  have heavy : ∃ x y, L.colPass (L.rowPass E) r₀ x ≠ 0 ∧ L.colPass (L.rowPass E) r₀ y ≠ 0 ∧ x ≠ y := by
    by_contra none
    push Not at none
    exact wrong (rowPass_light inside (norm_row_le_one none))
  obtain ⟨x, y, leftX, leftY, distinct⟩ := heavy
  have heavyAt : ∀ c, L.colPass (L.rowPass E) r₀ c ≠ 0 →
      2 ≤ hammingNorm (column (L.rowPass E) c) := by
    intro c left
    by_contra light
    exact left (colPass_light (by omega) r₀)
  have pair := heavyPair_of_four few distinct (heavyAt x leftX) (heavyAt y leftY)
  have total := pair.countX
  obtain none | one | two : (L.overloaded E).card = 0 ∨ (L.overloaded E).card = 1 ∨
      (L.overloaded E).card = 2 := by omega
  · obtain ⟨p, q, square⟩ := pair.spare_square accepts independent none inside leftX leftY
    exact .inr (.inr ⟨p, q, x, y, square⟩)
  · obtain ⟨cols, r, p, q, P, arranged⟩ := pair.row_and_spares accepts one inside leftX leftY
    exact .inr (.inl ⟨cols, r, p, q, P, x, y, arranged⟩)
  · exact .inl (pair.two_rows accepts two)

end Cases

/-! ### Each of them is accepted and leaves a guarded row wrong -/

/-- Four wrong cells are all of the errors. -/
theorem wrong_iff_mem (few : weight E ≤ 4) {cells : Finset (ρ × κ)} (four : 4 ≤ cells.card)
    (wrong : ∀ p ∈ cells, E p.1 p.2 ≠ 0) (r : ρ) (c : κ) : E r c ≠ 0 ↔ (r, c) ∈ cells := by
  have within : cells ⊆ Finset.univ.filter fun p : ρ × κ => E p.1 p.2 ≠ 0 := fun p member => by
    simpa using wrong p member
  rw [weight_eq_card] at few
  rw [Finset.eq_of_subset_of_card_le within (few.trans four)]
  simp

/-- Columns in which two rows of a triple are wrong, at least two of them and
all in one triple of columns, turn every guarded third row wrong. -/
theorem settles {cols : Finset κ} (held : Finset κ) (inside : t ∈ L.guarded) (triple : L.rowCode.Triple cols)
    (within : held ⊆ cols) (two : 2 ≤ held.card)
    (pairs : ∀ c ∈ held, ∃ wrong rows, L.colCode.Triple rows ∧ wrong ⊆ rows ∧ 2 ≤ wrong.card ∧
      column (L.rowPass E) c = mark wrong ∧ t ∈ rows)
    (light : ∀ c ∉ held, hammingNorm (column (L.rowPass E) c) ≤ 1) :
    L.Accepts E ∧ L.decode E t = mark cols := by
  have settled : L.colPass (L.rowPass E) t = mark held := by
    funext c
    by_cases here : c ∈ held
    · obtain ⟨wrong, rows, colTriple, subset, pair, holds, member⟩ := pairs c here
      rw [← column_apply (L.colPass (L.rowPass E)), column_colPass, holds,
        colTriple.correct subset pair, mark_of_mem here]
      exact mark_of_mem member
    · rw [colPass_light (light c here), mark_of_not_mem here]
  refine ⟨fun c => ?_, ?_⟩
  · by_cases here : c ∈ held
    · obtain ⟨wrong, rows, colTriple, subset, pair, holds, -⟩ := pairs c here
      rw [holds, colTriple.correct subset pair]
    · rw [correct_of_norm_le_one (light c here)]
  · rw [decode, rowPass_guarded inside, settled, triple.correct within two]

theorem rowPass_clean {s : ρ} (clean : E s = 0) : L.rowPass E s = 0 := by
  by_cases inside : s ∈ L.guarded
  · rw [rowPass_guarded inside, clean, correct_zero]
  · rw [rowPass_unguarded inside, clean]

theorem rowPass_pair {wrong : Finset κ} (inside : r ∈ L.guarded) (triple : L.rowCode.Triple cols)
    (within : wrong ⊆ cols) (two : wrong.card = 2) (row : E r = mark wrong) :
    L.rowPass E r = mark cols := by
  rw [rowPass_guarded inside, row, triple.correct within two.ge]

section TwoRows
variable {r' : ρ} {P P' : Finset κ}

theorem TwoRows.wrong_iff (arranged : L.TwoRows E cols r r' P P') (few : weight E ≤ 4)
    (s : ρ) (c : κ) : E s c ≠ 0 ↔ s = r ∧ c ∈ P ∨ s = r' ∧ c ∈ P' := by
  have disjoint : Disjoint ({r} ×ˢ P) ({r'} ×ˢ P') :=
    Finset.disjoint_product.mpr (.inl (by simpa using arranged.distinct))
  have four : ({r} ×ˢ P ∪ {r'} ×ˢ P').card = 4 := by
    rw [Finset.card_union_of_disjoint disjoint, Finset.card_product, Finset.card_product,
      arranged.two, arranged.two']
    rfl
  rw [wrong_iff_mem few four.ge ?_ s c]
  · simp only [Finset.mem_union, Finset.mem_product, Finset.mem_singleton]
  · intro p member
    simp only [Finset.mem_union, Finset.mem_product, Finset.mem_singleton] at member
    rcases member with ⟨here, inP⟩ | ⟨here, inP⟩
    · rw [here]
      exact arranged.wrong _ inP
    · rw [here]
      exact arranged.wrong' _ inP

/-- The first row pass fills the triple in both rows. -/
theorem TwoRows.column_eq (arranged : L.TwoRows E cols r r' P P') (few : weight E ≤ 4) (c : κ) :
    column (L.rowPass E) c = if c ∈ cols then mark {r, r'} else 0 := by
  have cells := arranged.wrong_iff few
  have apart := arranged.distinct
  have first : L.rowPass E r = mark cols :=
    rowPass_pair arranged.inside arranged.triple arranged.within arranged.two
      (eq_mark fun c => by rw [cells]; simp [apart])
  have second : L.rowPass E r' = mark cols :=
    rowPass_pair arranged.inside' arranged.triple arranged.within' arranged.two'
      (eq_mark fun c => by rw [cells]; simp [apart.symm])
  funext s
  rw [column_apply]
  by_cases isFirst : s = r
  · rw [isFirst, first]
    by_cases here : c ∈ cols <;> simp [mark, here]
  by_cases isSecond : s = r'
  · rw [isSecond, second]
    by_cases here : c ∈ cols <;> simp [mark, here]
  have clean : E s = 0 := by
    funext d
    by_contra wrong
    simpa [isFirst, isSecond] using (cells s d).mp wrong
  rw [rowPass_clean clean]
  by_cases here : c ∈ cols <;> simp [mark, here, isFirst, isSecond]

theorem TwoRows.settles (arranged : L.TwoRows E cols r r' P P') (few : weight E ≤ 4) :
    L.Accepts E ∧ L.decode E r = mark cols ∧ L.decode E r' = mark cols := by
  obtain ⟨rows, triple, member, member'⟩ := arranged.joined
  have columns := arranged.column_eq few
  have both : ({r, r'} : Finset ρ) ⊆ rows := by simp [Finset.insert_subset_iff, member, member']
  have pair := (Finset.card_pair arranged.distinct).ge
  have settled : ∀ t ∈ L.guarded, t ∈ rows → L.Accepts E ∧ L.decode E t = mark cols := by
    intro t inside inRows
    refine Layout.settles cols inside arranged.triple subset_rfl (by rw [arranged.triple.three]; omega)
      (fun c here => ⟨_, rows, triple, both, pair, ?_, inRows⟩) fun c outside => ?_
    · rw [columns, if_pos here]
    · rw [columns, if_neg outside, hammingNorm_zero]
      omega
  have first := settled r arranged.inside member
  exact ⟨first.1, first.2, (settled r' arranged.inside' member').2⟩

end TwoRows

section RowAndSpares
variable {p q : ρ} {P : Finset κ}

theorem RowAndSpares.ne_spare (arranged : L.RowAndSpares E cols r p q P x y) : r ≠ p :=
  fun same => arranged.outside (same ▸ arranged.inside)

theorem RowAndSpares.ne_spare' (arranged : L.RowAndSpares E cols r p q P x y) : r ≠ q :=
  fun same => arranged.outside' (same ▸ arranged.inside)

theorem RowAndSpares.wrong_iff (arranged : L.RowAndSpares E cols r p q P x y)
    (few : weight E ≤ 4) (s : ρ) (c : κ) :
    E s c ≠ 0 ↔ s = r ∧ c ∈ P ∨ s = p ∧ c = x ∨ s = q ∧ c = y := by
  have apart : (p, x) ≠ (q, y) := fun same => arranged.distinct (congrArg Prod.snd same)
  have apartP := arranged.ne_spare
  have apartQ := arranged.ne_spare'
  have disjoint : Disjoint ({r} ×ˢ P) {(p, x), (q, y)} := by
    rw [Finset.disjoint_left]
    intro cell member other
    have here := Finset.mem_singleton.mp (Finset.mem_product.mp member).1
    rw [Finset.mem_insert, Finset.mem_singleton] at other
    rcases other with same | same
    · exact apartP (here.symm.trans (congrArg Prod.fst same))
    · exact apartQ (here.symm.trans (congrArg Prod.fst same))
  have four : ({r} ×ˢ P ∪ {(p, x), (q, y)}).card = 4 := by
    rw [Finset.card_union_of_disjoint disjoint, Finset.card_product, arranged.two,
      Finset.card_pair apart]
    rfl
  rw [wrong_iff_mem few four.ge ?_ s c]
  · simp only [Finset.mem_union, Finset.mem_product, Finset.mem_insert, Finset.mem_singleton,
      Prod.mk.injEq]
  · intro cell member
    simp only [Finset.mem_union, Finset.mem_product, Finset.mem_insert, Finset.mem_singleton] at member
    rcases member with ⟨here, inP⟩ | rfl | rfl
    · rw [here]
      exact arranged.wrong _ inP
    · exact arranged.spareX
    · exact arranged.spareY

/-- The first row pass fills the triple in the guarded row. -/
theorem RowAndSpares.rowPass_iff (arranged : L.RowAndSpares E cols r p q P x y)
    (few : weight E ≤ 4) (s : ρ) (c : κ) :
    L.rowPass E s c ≠ 0 ↔ s = r ∧ c ∈ cols ∨ s = p ∧ c = x ∨ s = q ∧ c = y := by
  have cells := arranged.wrong_iff few
  have apartP := arranged.ne_spare
  have apartQ := arranged.ne_spare'
  by_cases own : s = r
  · have filled : L.rowPass E r = mark cols :=
      rowPass_pair arranged.inside arranged.triple arranged.within arranged.two
        (eq_mark fun c => by rw [cells]; simp [apartP, apartQ])
    rw [own, filled, mark_ne_zero]
    simp [apartP, apartQ]
  have untouched : L.rowPass E s = E s := by
    by_cases inside : s ∈ L.guarded
    · have notP : s ≠ p := fun same => arranged.outside (same ▸ inside)
      have notQ : s ≠ q := fun same => arranged.outside' (same ▸ inside)
      have clean : E s = 0 := by
        funext d
        by_contra wrong
        simpa [own, notP, notQ] using (cells s d).mp wrong
      rw [rowPass_clean clean, clean]
    · exact rowPass_unguarded inside
  rw [untouched, cells]
  simp [own]

theorem RowAndSpares.settles (arranged : L.RowAndSpares E cols r p q P x y) (few : weight E ≤ 4)
    {rows rows' : Finset ρ} (tripleX : L.colCode.Triple rows) (tripleY : L.colCode.Triple rows')
    (heldX : {r, p} ⊆ rows) (heldY : {r, q} ⊆ rows') (inside : t ∈ L.guarded) (inX : t ∈ rows)
    (inY : t ∈ rows') : L.Accepts E ∧ L.decode E t = mark cols := by
  have cells := arranged.rowPass_iff few
  have distinct := arranged.distinct
  have columnX : column (L.rowPass E) x = mark {r, p} := eq_mark fun s => by
    rw [column_apply, cells]
    simp [arranged.inX, distinct]
  have columnY : column (L.rowPass E) y = mark {r, q} := eq_mark fun s => by
    rw [column_apply, cells]
    simp [arranged.inY, distinct.symm]
  refine Layout.settles {x, y} inside arranged.triple ?_ (Finset.card_pair distinct).ge
    (fun c here => ?_) fun c outside => ?_
  · simp [Finset.insert_subset_iff, arranged.inX, arranged.inY]
  · rw [Finset.mem_insert, Finset.mem_singleton] at here
    rcases here with isX | isY
    · rw [isX]
      exact ⟨_, rows, tripleX, heldX, (Finset.card_pair arranged.ne_spare).ge, columnX, inX⟩
    · rw [isY]
      exact ⟨_, rows', tripleY, heldY, (Finset.card_pair arranged.ne_spare').ge, columnY, inY⟩
  · rw [Finset.mem_insert, Finset.mem_singleton, not_or] at outside
    have onlyRow : ∀ s, column (L.rowPass E) c s ≠ 0 → s = r := by
      intro s left
      rw [column_apply, cells] at left
      exact (left.resolve_right (by simp [outside])).1
    refine Finset.card_le_one.mpr fun s left s' left' => ?_
    rw [onlyRow s (Finset.mem_filter.mp left).2, onlyRow s' (Finset.mem_filter.mp left').2]

end RowAndSpares

section SpareSquare
variable {p q : ρ}

theorem SpareSquare.wrong_iff (square : L.SpareSquare E p q x y) (few : weight E ≤ 4)
    (s : ρ) (c : κ) : E s c ≠ 0 ↔ (s = p ∨ s = q) ∧ (c = x ∨ c = y) := by
  have four : (({p, q} : Finset ρ) ×ˢ ({x, y} : Finset κ)).card = 4 := by
    rw [Finset.card_product, Finset.card_pair square.rows, Finset.card_pair square.columns]
  rw [wrong_iff_mem few four.ge ?_ s c]
  · simp only [Finset.mem_product, Finset.mem_insert, Finset.mem_singleton]
  · rintro ⟨s, c⟩ member
    simp only [Finset.mem_product, Finset.mem_insert, Finset.mem_singleton] at member
    rcases member with ⟨rfl | rfl, rfl | rfl⟩
    exacts [square.wrongX, square.wrongY, square.wrongX', square.wrongY']

theorem SpareSquare.settles (square : L.SpareSquare E p q x y) (few : weight E ≤ 4)
    {rows : Finset ρ} (colTriple : L.colCode.Triple rows) (held : {p, q} ⊆ rows)
    (triple : L.rowCode.Triple cols) (within : {x, y} ⊆ cols) (inside : t ∈ L.guarded)
    (inRows : t ∈ rows) : L.Accepts E ∧ L.decode E t = mark cols := by
  have cells := square.wrong_iff few
  have untouched : L.rowPass E = E := by
    funext s
    by_cases guarded : s ∈ L.guarded
    · have notP : s ≠ p := fun same => square.outside (same ▸ guarded)
      have notQ : s ≠ q := fun same => square.outside' (same ▸ guarded)
      have clean : E s = 0 := by
        funext d
        by_contra wrong
        simpa [notP, notQ] using (cells s d).mp wrong
      rw [rowPass_clean clean, clean]
    · exact rowPass_unguarded guarded
  refine Layout.settles {x, y} inside triple within (Finset.card_pair square.columns).ge
    (fun c here => ⟨{p, q}, rows, colTriple, held, (Finset.card_pair square.rows).ge, ?_, inRows⟩)
    fun c outside => ?_
  · rw [Finset.mem_insert, Finset.mem_singleton] at here
    exact eq_mark fun s => by rw [untouched, column_apply, cells]; simp [here]
  · rw [Finset.mem_insert, Finset.mem_singleton] at outside
    have clean : column (L.rowPass E) c = 0 := by
      funext s
      by_contra wrong
      rw [untouched] at wrong
      exact outside ((cells s c).mp wrong).2
    rw [clean, hammingNorm_zero]
    omega

end SpareSquare

end ProductCode.Layout
