import Mathlib.Data.Nat.Find
import Mathlib.Order.Basic

/-! Greedy selection of hits along a line: take the first hit, skip a fixed
gap, take the next first hit, and so on up to a last position. The relation is
declarative; it is total and deterministic. -/
namespace GreedyScan

/-- `Selects hit gap last lo ps`: from position `lo` on, `ps` are the greedily
selected hits up to `last`. -/
inductive Selects (hit : ℕ → Prop) (gap last : ℕ) : ℕ → List ℕ → Prop where
  | done {lo : ℕ} (silent : ∀ p, lo ≤ p → p ≤ last → ¬ hit p) : Selects hit gap last lo []
  | next {lo p : ℕ} {ps : List ℕ} (above : lo ≤ p) (known : p ≤ last) (hits : hit p)
      (least : ∀ q, lo ≤ q → q < p → ¬ hit q) (rest : Selects hit gap last (p + gap) ps) :
      Selects hit gap last lo (p :: ps)

variable {hit : ℕ → Prop} {gap last lo : ℕ} {ps qs : List ℕ}

theorem selects_nil_of_past (past : last < lo) : Selects hit gap last lo [] :=
  .done fun p above known => absurd known (by omega)

theorem selects_total (positive : 0 < gap) (lo : ℕ) : ∃ ps, Selects hit gap last lo ps := by
  classical
  induction left : last + 1 - lo using Nat.strong_induction_on generalizing lo with
  | _ left ih =>
    by_cases found : ∃ p, lo ≤ p ∧ p ≤ last ∧ hit p
    · obtain ⟨above, known, hits⟩ := Nat.find_spec found
      obtain ⟨ps, rest⟩ := ih (last + 1 - (Nat.find found + gap)) (by omega) _ rfl
      refine ⟨_, .next above known hits (fun q from_lo before hitsQ => ?_) rest⟩
      exact Nat.find_min found before ⟨from_lo, by omega, hitsQ⟩
    · exact ⟨[], .done fun p above known hits => found ⟨p, above, known, hits⟩⟩

theorem selects_unique (left : Selects hit gap last lo ps) (right : Selects hit gap last lo qs) :
    ps = qs := by
  induction left generalizing qs with
  | done silent =>
    cases right with
    | done => rfl
    | next above known hits => exact absurd hits (silent _ above known)
  | next above known hits least rest ih =>
    cases right with
    | done silent => exact absurd hits (silent _ above known)
    | next above' known' hits' least' rest' =>
      rename_i p _ q _
      rcases Nat.lt_trichotomy p q with before | same | after
      · exact absurd hits (least' p above before)
      · subst same
        rw [ih rest']
      · exact absurd hits' (least q above' after)

/-- Only hits from the start on are selected. -/
theorem Selects.hit_of_mem {p : ℕ} (selected : Selects hit gap last lo ps) (member : p ∈ ps) :
    lo ≤ p ∧ hit p := by
  induction selected with
  | done => cases member
  | next above known hits least rest ih =>
    rcases List.mem_cons.mp member with rfl | later
    · exact ⟨above, hits⟩
    · obtain ⟨beyond, found⟩ := ih later
      exact ⟨by omega, found⟩

/-- Where there is a hit, one no later is selected. -/
theorem Selects.first_le {q : ℕ} (selected : Selects hit gap last lo ps) (above : lo ≤ q)
    (known : q ≤ last) (hits : hit q) : ∃ p rest, ps = p :: rest ∧ p ≤ q := by
  cases selected with
  | done silent => exact absurd hits (silent q above known)
  | @next _ p rest _ _ _ least =>
    refine ⟨p, rest, rfl, ?_⟩
    by_contra before
    exact least q above (by omega) hits

end GreedyScan
