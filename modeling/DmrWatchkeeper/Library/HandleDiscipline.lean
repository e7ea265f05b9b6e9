import Mathlib.Data.List.Basic
import Mathlib.Data.List.Count
import Mathlib.Data.List.Induction

/-! The discipline of a resource that is opened, used and closed through a
handle, with one handle open at a time, as a property of the log of calls. -/
namespace HandleDiscipline

/-- A call that concerns a handle. -/
inductive Event (H F : Type*) where
  | opened (h : H)
  | used (h : H) (f : F)
  | closed (h : H)
  deriving DecidableEq

variable {H F : Type*}

def Event.handle : Event H F → H
  | .opened h => h
  | .used h _ => h
  | .closed h => h

/-- `Follows log current`: the log obeys the discipline, and `current` is the
handle that is open at its end. -/
inductive Follows : List (Event H F) → Option H → Prop
  | start : Follows [] none
  | opened {log : List (Event H F)} {h : H} (past : Follows log none) (fresh : .opened h ∉ log) :
      Follows (log ++ [.opened h]) (some h)
  | used {log : List (Event H F)} {h : H} (past : Follows log (some h)) (f : F) :
      Follows (log ++ [.used h f]) (some h)
  | closed {log : List (Event H F)} {h : H} (past : Follows log (some h)) :
      Follows (log ++ [.closed h]) none

/-- The handle has been obtained and not closed. -/
def OpenIn (log : List (Event H F)) (h : H) : Prop := .opened h ∈ log ∧ .closed h ∉ log

variable {log before after : List (Event H F)} {current : Option H} {h h' : H}

/-- Which handle is open, and that only opened handles are closed. -/
private theorem Follows.facts (follows : Follows log current) :
    (∀ h, OpenIn log h ↔ current = some h) ∧ ∀ h, .closed h ∈ log → .opened h ∈ log := by
  induction follows with
  | start => simp [OpenIn]
  | @opened log h₀ past fresh ih =>
    obtain ⟨open_iff, obtained⟩ := ih
    refine ⟨fun h => ?_, fun h member => by simpa using .inl (obtained h (by simpa using member))⟩
    have before := open_iff h
    by_cases same : h = h₀
    · subst same
      have untouched : .closed h ∉ log := fun member => fresh (obtained h member)
      simp [OpenIn, untouched]
    · simpa [OpenIn, same, Ne.symm same] using before
  | @used log h₀ past f ih =>
    obtain ⟨open_iff, obtained⟩ := ih
    exact ⟨fun h => by simpa [OpenIn] using open_iff h, fun h => by simpa using obtained h⟩
  | @closed log h₀ past ih =>
    obtain ⟨open_iff, obtained⟩ := ih
    refine ⟨fun h => ?_, fun h member => ?_⟩
    · have before := open_iff h
      by_cases same : h = h₀ <;> simp_all [OpenIn, eq_comm]
    · rw [List.mem_append, List.mem_singleton] at member
      rcases member with earlier | last
      · exact List.mem_append_left _ (obtained h earlier)
      · cases last
        exact List.mem_append_left _ ((open_iff _).mpr rfl).1

theorem Follows.openIn_iff (follows : Follows log current) : OpenIn log h ↔ current = some h :=
  follows.facts.1 h

theorem Follows.opened_of_closed (follows : Follows log current) (member : .closed h ∈ log) :
    .opened h ∈ log := follows.facts.2 h member

/-- The last call concerns a handle that was not closed before. -/
theorem Follows.last {e : Event H F} (follows : Follows (log ++ [e]) current) :
    (∃ earlier, Follows log earlier) ∧ .closed e.handle ∉ log := by
  generalize whole : log ++ [e] = all at follows
  cases follows with
  | start => simp at whole
  | opened past fresh =>
    obtain ⟨rfl, same⟩ := List.append_inj' whole rfl
    cases same
    exact ⟨⟨_, past⟩, fun member => fresh (past.opened_of_closed member)⟩
  | used past f =>
    obtain ⟨rfl, same⟩ := List.append_inj' whole rfl
    cases same
    exact ⟨⟨_, past⟩, (past.openIn_iff.mpr rfl).2⟩
  | closed past =>
    obtain ⟨rfl, same⟩ := List.append_inj' whole rfl
    cases same
    exact ⟨⟨_, past⟩, (past.openIn_iff.mpr rfl).2⟩

/-- The beginning of a disciplined log is disciplined. -/
theorem Follows.of_prefix (follows : Follows (before ++ after) current) :
    ∃ earlier, Follows before earlier := by
  induction after using List.reverseRecOn generalizing current with
  | nil =>
    rw [List.append_nil] at follows
    exact ⟨current, follows⟩
  | append_singleton after e ih =>
    rw [← List.append_assoc] at follows
    obtain ⟨earlier, past⟩ := follows.last.1
    exact ih past

/-- At no time are two handles open. -/
theorem Follows.one_open (follows : Follows (before ++ after) current) (left : OpenIn before h)
    (right : OpenIn before h') : h = h' := by
  obtain ⟨earlier, past⟩ := follows.of_prefix
  have first := past.openIn_iff.mp left
  rw [past.openIn_iff.mp right] at first
  exact (Option.some.inj first).symm

/-- Nothing happens to a handle after it was closed. -/
theorem Follows.silent_after_close (follows : Follows (before ++ .closed h :: after) current)
    {e : Event H F} (member : e ∈ after) : e.handle ≠ h := by
  induction after using List.reverseRecOn generalizing current with
  | nil => cases member
  | append_singleton after last ih =>
    rw [← List.cons_append, ← List.append_assoc] at follows
    obtain ⟨⟨earlier, past⟩, open_⟩ := follows.last
    rcases List.mem_append.mp member with early | late
    · exact ih past early
    · rw [List.mem_singleton.mp late]
      rintro rfl
      exact open_ (by simp)

/-- A handle is closed at most once. -/
theorem Follows.closed_at_most_once [DecidableEq H] [DecidableEq F] (follows : Follows log current)
    (h : H) : log.count (.closed h) ≤ 1 := by
  by_cases member : .closed h ∈ log
  · obtain ⟨before, after, rfl, first⟩ := List.eq_append_cons_of_mem member
    have rest : .closed h ∉ after := fun again => follows.silent_after_close again rfl
    have once : (before ++ .closed h :: after).count (.closed h) = 1 := by
      rw [List.count_append, List.count_cons_self, List.count_eq_zero_of_not_mem first,
        List.count_eq_zero_of_not_mem rest]
    exact Nat.le_of_eq once
  · rw [List.count_eq_zero_of_not_mem member]
    exact Nat.zero_le 1

/-- Where no handle is open, every handle obtained has been closed once. -/
theorem Follows.closed_once [DecidableEq H] [DecidableEq F] (follows : Follows log none)
    (obtained : .opened h ∈ log) : log.count (.closed h) = 1 := by
  have closed : .closed h ∈ log := by
    by_contra left
    have still := follows.openIn_iff.mp ⟨obtained, left⟩
    cases still
  have bound := follows.closed_at_most_once h
  have positive := List.count_pos_iff.mpr closed
  omega

end HandleDiscipline
