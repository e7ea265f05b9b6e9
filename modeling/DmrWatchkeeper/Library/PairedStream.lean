import Mathlib.Data.List.Basic

/-! Pairs written one component after the other, and lists cut into blocks of
one length: which item stands where. -/
namespace PairedStream

variable {α : Type*}

/-- The components of the pairs, in order. -/
def interleave (pairs : List (α × α)) : List α := pairs.flatMap fun p => [p.1, p.2]

/-- The same for a sequence of pairs, by position. -/
def components (pairs : ℕ → α × α) : ℕ → α :=
  fun i => if i % 2 = 0 then (pairs (i / 2)).1 else (pairs (i / 2)).2

@[simp] theorem interleave_nil : interleave ([] : List (α × α)) = [] := rfl

@[simp] theorem interleave_cons (p : α × α) (pairs : List (α × α)) :
    interleave (p :: pairs) = p.1 :: p.2 :: interleave pairs := rfl

theorem interleave_append (front back : List (α × α)) :
    interleave (front ++ back) = interleave front ++ interleave back := by
  simp [interleave, List.flatMap_append]

theorem length_interleave (pairs : List (α × α)) : (interleave pairs).length = 2 * pairs.length := by
  induction pairs with
  | nil => rfl
  | cons p pairs ih =>
    rw [interleave_cons, List.length_cons, List.length_cons, ih, List.length_cons]
    omega

/-- First components stand at even offsets, second ones at odd offsets. -/
theorem getElem?_interleave (pairs : List (α × α)) (q : ℕ) :
    (interleave pairs)[2 * q]? = pairs[q]?.map Prod.fst ∧
      (interleave pairs)[2 * q + 1]? = pairs[q]?.map Prod.snd := by
  induction pairs generalizing q with
  | nil => simp
  | cons p pairs ih =>
    cases q with
    | zero => simp
    | succ q =>
      obtain ⟨first, second⟩ := ih q
      rw [interleave_cons, Nat.mul_succ]
      exact ⟨by simpa using first, by simpa using second⟩

/-- Components that continue whole pairs continue the pairs. -/
theorem prefix_of_interleave {front pairs : List (α × α)} (cut : interleave front <+: interleave pairs) :
    front <+: pairs := by
  induction front generalizing pairs with
  | nil => exact List.nil_prefix
  | cons p front ih =>
    cases pairs with
    | nil => simp at cut
    | cons q pairs =>
      rw [interleave_cons, interleave_cons, List.cons_prefix_cons, List.cons_prefix_cons] at cut
      obtain ⟨first, second, rest⟩ := cut
      rw [show p = q from Prod.ext first second, List.prefix_cons_inj]
      exact ih rest

/-- An even number of components is a number of whole pairs. -/
theorem range_components (pairs : ℕ → α × α) (n : ℕ) :
    (List.range (2 * n)).map (components pairs) = interleave ((List.range n).map pairs) := by
  induction n with
  | zero => rfl
  | succ n ih =>
    rw [Nat.mul_succ, List.range_succ, List.range_succ, List.map_append, List.map_append, ih,
      List.range_succ, List.map_append, interleave_append, List.append_assoc]
    have even : components pairs (2 * n) = (pairs n).1 := by
      rw [components, if_pos (by omega), show 2 * n / 2 = n by omega]
    have odd : components pairs (2 * n + 1) = (pairs n).2 := by
      rw [components, if_neg (by omega), show (2 * n + 1) / 2 = n by omega]
    rw [List.map_singleton, List.map_singleton, List.map_singleton, even, odd]
    rfl

/-! ### Blocks of one length -/

theorem length_flatten_uniform {m : ℕ} {blocks : List (List α)}
    (uniform : ∀ b ∈ blocks, b.length = m) : blocks.flatten.length = m * blocks.length := by
  induction blocks with
  | nil => rfl
  | cons block blocks ih =>
    rw [List.flatten_cons, List.length_append, uniform block (by simp),
      ih fun b member => uniform b (List.mem_cons_of_mem _ member), List.length_cons, Nat.mul_succ,
      Nat.add_comm]

theorem getElem?_flatten_uniform {m : ℕ} {blocks : List (List α)}
    (uniform : ∀ b ∈ blocks, b.length = m) {n i : ℕ} {block : List α}
    (listed : blocks[n]? = some block) (inside : i < m) :
    blocks.flatten[m * n + i]? = block[i]? := by
  induction blocks generalizing n with
  | nil => simp at listed
  | cons head blocks ih =>
    have first := uniform head (by simp)
    cases n with
    | zero =>
      rw [List.getElem?_cons_zero] at listed
      cases listed
      rw [List.flatten_cons, Nat.mul_zero, Nat.zero_add, List.getElem?_append_left (by omega)]
    | succ n =>
      rw [List.getElem?_cons_succ] at listed
      rw [List.flatten_cons, List.getElem?_append_right (by rw [first, Nat.mul_succ]; omega), first,
        ← ih (fun b member => uniform b (List.mem_cons_of_mem _ member)) listed]
      congr 1
      rw [Nat.mul_succ]
      omega

end PairedStream
