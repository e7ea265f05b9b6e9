import DmrWatchkeeper.DemodChainLimits
import DmrWatchkeeper.MonitorEvents
import Mathlib.Data.List.Induction

/-! The status loop of `main`. It reads the counters of chains that another
thread is running; what it prints for a channel adds up to the count at its
latest look, so that no burst is reported twice or left out. -/
namespace DmrWatchkeeper.MonitorStatus
open Monitor MonitorEvents SlotManager
open DemodChain (pairStep wiredStep Wired)

theorem getD_set_self {α : Type} {xs : List α} {i : ℕ} {a d : α} (bound : i < xs.length) :
    (xs.set i a).getD i d = a := by
  rw [List.getD_eq_getElem?_getD, List.getElem?_set_self bound, Option.getD_some]

theorem getD_set_ne {α : Type} {xs : List α} {i j : ℕ} {a d : α} (apart : i ≠ j) :
    (xs.set i a).getD j d = xs.getD j d := by
  rw [List.getD_eq_getElem?_getD, List.getElem?_set_ne apart, List.getD_eq_getElem?_getD]

section Program
variable {F D : Type}

/-- The bursts printed for a channel so far. -/
def printed (lines : List (ℕ × SummaryLine)) (i : ℕ) : ℕ :=
  ((lines.filter (·.1 = i)).map (·.2.bursts.toNat)).sum

theorem printed_snoc (lines : List (ℕ × SummaryLine)) (i j : ℕ) (line : SummaryLine) :
    printed (lines ++ [(j, line)]) i = printed lines i + if j = i then line.bursts.toNat else 0 := by
  rw [printed, printed, List.filter_append, List.map_append, List.sum_append]
  by_cases own : j = i <;> simp [own]

/-- What is printed for a channel brings the sum from the last count to the new one. -/
theorem printed_summarise (s : Monitor F D) (j : ℕ) (chain : DemodChain F) (i : ℕ) :
    printed (s.summarise j chain).lines i = printed s.lines i +
      if j = i then (chain.burstsDetected - s.prevBursts.getD j 0).toNat else 0 := by
  by_cases new : chain.burstsDetected - s.prevBursts.getD j 0 > 0
  · simp only [summarise, if_pos new, printed_snoc]
  · have none : (chain.burstsDetected - s.prevBursts.getD j 0).toNat = 0 := by
      have low := mt UInt64.lt_iff_toNat_lt.mpr new
      exact Nat.eq_zero_of_not_pos low
    simp only [summarise, if_neg new, none, ite_self, Nat.add_zero]

theorem summarise_prevBursts (s : Monitor F D) (j : ℕ) (chain : DemodChain F) :
    (s.summarise j chain).prevBursts = s.prevBursts.set j chain.burstsDetected := by
  simp only [summarise]
  split <;> rfl

theorem mem_summarise {s : Monitor F D} {j : ℕ} {chain : DemodChain F} {line : ℕ × SummaryLine}
    (member : line ∈ (s.summarise j chain).lines) : line ∈ s.lines ∨
      line.1 = j ∧ 0 < line.2.bursts ∧ line.2.label = chain.cfg.label := by
  simp only [summarise] at member
  split at member
  · rename_i new
    rcases List.mem_append.mp member with before | now
    · exact .inl before
    · rw [List.mem_singleton.mp now]
      exact .inr ⟨rfl, new, rfl⟩
  · exact .inl member

/-- What `main` knows of the chains. -/
structure Reports (chains : List (DemodChain F)) (seen : ℕ → UInt64 → Prop) (s : Monitor F D) : Prop where
  configs : s.chains.map (·.cfg) = chains.map (·.cfg)
  sizes : s.prevBursts.length = chains.length
  sums : ∀ i, i < chains.length → (s.prevBursts.getD i 0).toNat = printed s.lines i % 2 ^ 64
  seen : ∀ i, i < chains.length → seen i (s.prevBursts.getD i 0)
  named : ∀ line ∈ s.lines, 0 < line.2.bursts ∧
    ∃ chain : DemodChain F, chains[line.1]? = some chain ∧ line.2.label = chain.cfg.label

variable {chains : List (DemodChain F)} {seen : ℕ → UInt64 → Prop} {s t : Monitor F D}

/-- Steps that leave the books alone. -/
theorem Reports.same (held : Reports chains seen s) (configs : t.chains.map (·.cfg) = s.chains.map (·.cfg))
    (prevBursts : t.prevBursts = s.prevBursts) (lines : t.lines = s.lines) : Reports chains seen t where
  configs := configs.trans held.configs
  sizes := by rw [prevBursts, held.sizes]
  sums := by rw [prevBursts, lines]; exact held.sums
  seen := by rw [prevBursts]; exact held.seen
  named := by rw [lines]; exact held.named

theorem Reports.imp (held : Reports chains seen s) {seen' : ℕ → UInt64 → Prop}
    (weaker : ∀ i < chains.length, ∀ b, seen i b → seen' i b) : Reports chains seen' s :=
  { held with seen := fun i bound => weaker i bound _ (held.seen i bound) }

/-- A step of `main`: the books are brought up to date for the channel that it
looks at. -/
theorem Reports.main (held : Reports chains seen s) {seen' : ℕ → UInt64 → Prop}
    (others : ∀ i b, s.main ≠ .summary i → seen i b → seen' i b)
    (now : ∀ i (chain : DemodChain F), s.main = .summary i → s.chains[i]? = some chain →
      seen' i chain.burstsDetected) : Reports chains seen' s.mainStep := by
  have counted : s.chains.length = chains.length := by
    have length := congrArg List.length held.configs
    rwa [List.length_map, List.length_map] at length
  cases at_ : s.main with
  | summary next =>
    cases here : s.chains[next]? with
    | none =>
      have past := List.getElem?_eq_none_iff.mp here
      simp only [mainStep, at_, here]
      refine (held.imp fun i bound b => others i b ?_).same rfl rfl rfl
      rw [at_]
      rintro ⟨⟩
      omega
    | some chain =>
      have stepped : s.mainStep = { s.summarise next chain with main := .summary (next + 1) } := by
        simp only [mainStep, at_, here]
      have chainsSame : (s.summarise next chain).chains = s.chains := by
        simp only [summarise]
        split <;> rfl
      have books := summarise_prevBursts s next chain
      have within : next < s.prevBursts.length := by
        rw [held.sizes, ← counted]
        exact (List.getElem?_eq_some_iff.mp here).1
      rw [stepped]
      refine ⟨by rw [chainsSame, held.configs], by rw [books, List.length_set, held.sizes],
        fun i bound => ?_, fun i bound => ?_, fun line member => ?_⟩
      · have before := held.sums i bound
        rw [books, printed_summarise]
        by_cases own : next = i
        · subst own
          have fits := chain.burstsDetected.toNat_lt
          rw [getD_set_self within, if_pos rfl, UInt64.toNat_sub]
          omega
        · rw [getD_set_ne own, if_neg own, before, Nat.add_zero]
      · rw [books]
        by_cases own : next = i
        · subst own
          rw [getD_set_self within]
          exact now next chain at_ here
        · rw [getD_set_ne own]
          refine others i _ ?_ (held.seen i bound)
          rw [at_]
          rintro ⟨⟩
          exact own rfl
      · rcases mem_summarise member with before | ⟨own, new, label⟩
        · exact held.named line before
        · have configs := congrArg (·[next]?) held.configs
          simp only [List.getElem?_map, here, Option.map_some] at configs
          obtain ⟨first, listed, config⟩ := Option.map_eq_some_iff.mp configs.symm
          exact ⟨new, first, own ▸ listed, by rw [label, config]⟩
  | loop | totals =>
    simp only [mainStep, at_]
    exact (held.imp fun i _ b => others i b (by simp [at_])).same rfl rfl rfl
  | sleeping | joining =>
    simp only [mainStep, at_]
    split <;> exact (held.imp fun i _ b => others i b (by simp [at_])).same rfl rfl rfl
  | stopping =>
    simp only [mainStep, at_]
    exact held.imp fun i _ b => others i b (by simp [at_])

variable [OfScientific F] [Add F] [Sub F] [Mul F] [Div F] [IntCast F] [LT F] [LE F]
  [DecidableLT F] [DecidableLE F] [CastToInt F] [FloatLib F]
  [IntCast D] [Mul D] [Div D] [Neg D] [LT D] [DecidableLT D] [BEq D]

theorem Reports.system (held : Reports chains seen s) (turn : Channelizer.Turn) :
    Reports chains seen (s.systemStep turn) := by
  obtain ⟨configs, prevBursts, lines, -, -⟩ := systemStep_frame s turn
  exact held.same configs prevBursts lines

/-! ### Looks -/

/-- In the turn after `earlier`, `main` looks at the channel. -/
def Looks (r : RingBuffer) (chains : List (DemodChain F)) (D : Type) [IntCast D] [Mul D] [Div D] [Neg D]
    [LT D] [DecidableLT D] [BEq D] (turns : List Monitor.Turn) (i : ℕ) (earlier : List Monitor.Turn) : Prop :=
  earlier ++ [.main] <+: turns ∧ (earlier.foldl Monitor.step (start r chains : Monitor F D)).main = .summary i

/-- The count of the channel's chain at the latest look; zero before the first. -/
def Latest (r : RingBuffer) (chains : List (DemodChain F)) (D : Type) [IntCast D] [Mul D] [Div D] [Neg D]
    [LT D] [DecidableLT D] [BEq D] (turns : List Monitor.Turn) (i : ℕ) (b : UInt64) : Prop :=
  (b = 0 ∧ ∀ earlier, ¬ Looks r chains D turns i earlier) ∨
    ∃ (look : List Monitor.Turn) (chain : DemodChain F), Looks r chains D turns i look ∧
      (∀ earlier, Looks r chains D turns i earlier → earlier.length ≤ look.length) ∧
      (look.foldl Monitor.step (start r chains : Monitor F D)).chains[i]? = some chain ∧
      b = chain.burstsDetected

variable {r : RingBuffer} {turns : List Monitor.Turn} {turn : Monitor.Turn} {i : ℕ} {b : UInt64}

theorem looks_snoc {earlier : List Monitor.Turn} : Looks r chains D (turns ++ [turn]) i earlier ↔
    Looks r chains D turns i earlier ∨ earlier = turns ∧ turn = .main ∧
      (turns.foldl Monitor.step (start r chains : Monitor F D)).main = .summary i := by
  rw [Looks, List.prefix_concat_iff, Looks]
  constructor
  · rintro ⟨same | before, here⟩
    · obtain ⟨rfl, main⟩ := List.append_inj' same rfl
      exact .inr ⟨rfl, (List.singleton_inj.mp main).symm, here⟩
    · exact .inl ⟨before, here⟩
  · rintro (⟨before, here⟩ | ⟨rfl, rfl, here⟩)
    · exact ⟨.inr before, here⟩
    · exact ⟨.inl rfl, here⟩

/-- A turn in which `main` does not look at the channel. -/
theorem Latest.other (held : Latest r chains D turns i b) (other : turn = .main →
    (turns.foldl Monitor.step (start r chains : Monitor F D)).main ≠ .summary i) :
    Latest r chains D (turns ++ [turn]) i b := by
  have same (earlier : List Monitor.Turn) :
      Looks r chains D (turns ++ [turn]) i earlier ↔ Looks r chains D turns i earlier := by
    rw [looks_snoc]
    exact or_iff_left fun now => other now.2.1 now.2.2
  rw [Latest]
  simp only [same]
  exact held

end Program

/-! ### A burst in a summary -/

variable {D : Type} [IntCast D] [Mul D] [Div D] [Neg D] [LT D] [DecidableLT D] [BEq D]

section Turns
variable {F : Type} [OfScientific F] [Add F] [Sub F] [Mul F] [Div F] [IntCast F] [LT F] [LE F]
  [DecidableLT F] [DecidableLE F] [CastToInt F] [FloatLib F] {s : Monitor F D}

end Turns

end DmrWatchkeeper.MonitorStatus
