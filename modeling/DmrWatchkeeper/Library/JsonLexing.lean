import DmrWatchkeeper.Library.Json
import Mathlib.Data.List.TakeDrop
import Mathlib.Data.List.TakeWhile

/-! How the lexer runs over texts that are put together from pieces, and what
can become of a piece that is pasted into a string without being escaped. -/
namespace DmrWatchkeeper.Json

/-- Characters that stand for themselves in a string. -/
def Unescaped (c : Char) : Prop := c ≠ '"' ∧ c ≠ '\\' ∧ 0x20 ≤ c.toNat

instance (c : Char) : Decidable (Unescaped c) :=
  inferInstanceAs (Decidable (c ≠ '"' ∧ c ≠ '\\' ∧ 0x20 ≤ c.toNat))

variable {lexer lexer' : Lexer} {tokens : List Token} {text rest : List Char} {c : Char} {u : List ℕ}

theorem run_cons : run lexer (c :: text) = (step lexer c).bind fun lexer' => run lexer' text := rfl

theorem run_append : run lexer (text ++ rest) = (run lexer text).bind fun lexer' => run lexer' rest :=
  List.foldlM_append

theorem units_cons : units (c :: text) = charUnits c ++ units text := by
  rw [units, List.flatMap_cons, units]

theorem length_charUnits_pos (c : Char) : 0 < (charUnits c).length := by
  rw [charUnits]
  split <;> simp

/-! ### Pieces of a well-formed text -/

theorem step_unescaped (plain : Unescaped c) :
    step ⟨.string u, tokens⟩ c = some ⟨.string (u ++ charUnits c), tokens⟩ := by
  obtain ⟨quote, escape, printed⟩ := plain
  simp [step, quote, escape, Nat.not_lt.mpr printed]

theorem run_unescaped (plain : ∀ c ∈ text, Unescaped c) :
    run ⟨.string u, tokens⟩ text = some ⟨.string (u ++ units text), tokens⟩ := by
  induction text generalizing u with
  | nil => simp [run, units]
  | cons c text ih =>
    obtain ⟨here, later⟩ := List.forall_mem_cons.mp plain
    rw [run_cons, step_unescaped here, Option.bind_some, ih later, units_cons, List.append_assoc]

/-- A string between quotation marks. -/
theorem run_string (plain : ∀ c ∈ text, Unescaped c) :
    run ⟨.outside, tokens⟩ ('"' :: (text ++ '"' :: rest)) =
      run ⟨.outside, tokens ++ [.string (units text)]⟩ rest := by
  have opened : step ⟨.outside, tokens⟩ '"' = some ⟨.string [], tokens⟩ := rfl
  rw [run_cons, opened, Option.bind_some, run_append, run_unescaped plain, Option.bind_some, run_cons]
  rfl

theorem run_punctuation {token : Token} (mark : punctuation? c = some token) :
    run ⟨.outside, tokens⟩ (c :: rest) = run ⟨.outside, tokens ++ [token]⟩ rest := by
  rw [run_cons]
  have stepped : step ⟨.outside, tokens⟩ c = some ⟨.outside, tokens ++ [token]⟩ := by
    unfold punctuation? at mark
    split at mark <;> cases mark <;> rfl
  rw [stepped, Option.bind_some]

theorem run_bare_more {chars : List Char} (bare : ∀ c ∈ text, isBare c) :
    run ⟨.bare chars, tokens⟩ text = some ⟨.bare (chars ++ text), tokens⟩ := by
  induction text generalizing chars with
  | nil => simp [run]
  | cons c text ih =>
    obtain ⟨here, later⟩ := List.forall_mem_cons.mp bare
    have stepped : step ⟨.bare chars, tokens⟩ c = some ⟨.bare (chars ++ [c]), tokens⟩ := if_pos here
    rw [run_cons, stepped, Option.bind_some, ih later, List.append_assoc, List.singleton_append]

theorem stepOutside_bare (bare : isBare c) : stepOutside tokens c = some ⟨.bare [c], tokens⟩ := by
  have blank : isBlank c = false := by
    rw [isBlank, decide_eq_false_iff_not]
    rintro (rfl | rfl | rfl | rfl) <;> exact absurd bare (by decide)
  have quote : c ≠ '"' := by
    rintro rfl
    exact absurd bare (by decide)
  simp [stepOutside, blank, quote, bare]

/-- A word or a number is complete at the first character that cannot continue it. -/
theorem run_bare (first : isBare c) (bare : ∀ c ∈ text, isBare c) {d : Char} (ends : isBare d = false) :
    run ⟨.outside, tokens⟩ (c :: text ++ d :: rest) =
      (bareToken? (c :: text)).bind fun token => run ⟨.outside, tokens ++ [token]⟩ (d :: rest) := by
  have started : step ⟨.outside, tokens⟩ c = some ⟨.bare [c], tokens⟩ := stepOutside_bare first
  have ended : step ⟨.bare (c :: text), tokens⟩ d =
      (bareToken? (c :: text)).bind fun token => stepOutside (tokens ++ [token]) d := by
    simp [step, ends]
  rw [List.cons_append, run_cons, started, Option.bind_some, run_append, run_bare_more bare,
    Option.bind_some, List.singleton_append, run_cons, ended]
  cases bareToken? (c :: text) with
  | none => rfl
  | some token => rfl

/-! ### Decimal numbers -/

theorem isDigit_of_mem {n : ℕ} (digit : c ∈ Nat.toDigits 10 n) : c.isDigit :=
  Nat.isDigit_of_mem_toDigits (by decide) (by decide) digit

/-- Only zero is written with a leading zero. -/
theorem digits_zero {n : ℕ} (zero : (Nat.toDigits 10 n).head? = some '0') : n = 0 := by
  induction n using Nat.strong_induction_on with
  | _ n ih =>
    by_cases small : n < 10
    · rw [Nat.toDigits_of_lt_base small, List.head?_cons, Option.some.injEq] at zero
      exact Nat.digitChar_eq_zero.mp zero
    · rw [Nat.toDigits_of_base_le (by decide) (Nat.not_lt.mp small), List.head?_append_of_ne_nil] at zero
      · have quotient := ih (n / 10) (by omega) zero
        omega
      · exact Nat.toDigits_ne_nil

theorem whole_digits (n : ℕ) : whole? (Nat.toDigits 10 n) = some n := by
  have padded : ¬ ((Nat.toDigits 10 n).head? = some '0' ∧ Nat.toDigits 10 n ≠ ['0']) := by
    rintro ⟨zero, more⟩
    rw [digits_zero zero] at more
    exact more rfl
  rw [whole?, if_neg padded, digits?, if_pos, Nat.ofDigitChars_ten_toDigits]
  exact ⟨Nat.toDigits_ne_nil, List.all_eq_true.mpr fun _ => isDigit_of_mem⟩

theorem span_digits {n : ℕ} {stop : Char → Bool} (kept : ∀ c, c.isDigit → stop c) :
    (Nat.toDigits 10 n).span stop = (Nat.toDigits 10 n, []) := by
  have all : ∀ c ∈ Nat.toDigits 10 n, stop c := fun c digit => kept c (isDigit_of_mem digit)
  rw [List.span_eq_takeWhile_dropWhile, List.takeWhile_eq_self_iff.mpr all,
    List.dropWhile_eq_nil_iff.mpr all]

theorem unsigned_digits (n : ℕ) : unsigned? (Nat.toDigits 10 n) = some (n : ℚ) := by
  have mantissa : (Nat.toDigits 10 n).span (fun c => c ≠ 'e' ∧ c ≠ 'E') = (Nat.toDigits 10 n, []) := by
    refine span_digits fun c digit => decide_eq_true ⟨?_, ?_⟩ <;> rintro rfl <;> cases digit
  have whole : (Nat.toDigits 10 n).span (fun c => c ≠ '.') = (Nat.toDigits 10 n, []) := by
    refine span_digits fun c digit => decide_eq_true ?_
    rintro rfl
    cases digit
  simp only [unsigned?, mantissa, whole, whole_digits, fraction?, exponent?]
  simp

/-- A number is written so that it is read back. -/
theorem bareToken_digits (n : ℕ) : bareToken? (Nat.toDigits 10 n) = some (.number n) := by
  have digits (c : Char) (other : c.isDigit = false) : c ∉ Nat.toDigits 10 n := by
    intro digit
    rw [isDigit_of_mem digit] at other
    cases other
  have positive : number? (Nat.toDigits 10 n) = some (n : ℚ) := by
    unfold number?
    split
    · rename_i chars negative
      exact absurd (by simp [negative]) (digits '-' rfl)
    · exact unsigned_digits n
  have null : Nat.toDigits 10 n ≠ "null".toList := fun word => digits 'n' rfl (by simp [word])
  have true : Nat.toDigits 10 n ≠ "true".toList := fun word => digits 't' rfl (by simp [word])
  have false : Nat.toDigits 10 n ≠ "false".toList := fun word => digits 'f' rfl (by simp [word])
  rw [bareToken?, if_neg null, if_neg true, if_neg false, positive, Option.map_some]

theorem run_number (n : ℕ) {d : Char} (ends : isBare d = false) :
    run ⟨.outside, tokens⟩ (Nat.toDigits 10 n ++ d :: rest) =
      run ⟨.outside, tokens ++ [.number n]⟩ (d :: rest) := by
  have bare : ∀ c ∈ Nat.toDigits 10 n, isBare c := by
    intro c digit
    simp [isBare, Char.isAlphanum, isDigit_of_mem digit]
  obtain ⟨c, chars, spelled⟩ := List.exists_cons_of_ne_nil (Nat.toDigits_ne_nil (n := n) (b := 10))
  have number := bareToken_digits n
  rw [spelled] at bare number ⊢
  obtain ⟨first, others⟩ := List.forall_mem_cons.mp bare
  rw [run_bare first others ends, number, Option.bind_some]

/-! ### Pieces that are pasted into a string -/

/-- Units of which none would have to be escaped. -/
def PlainUnits (u : List ℕ) : Prop := ∀ unit ∈ u, unit ≠ 0x22 ∧ unit ≠ 0x5C ∧ 0x20 ≤ unit

theorem plainUnits_char : PlainUnits (charUnits c) ↔ Unescaped c := by
  have quote : c = '"' ↔ c.toNat = 0x22 := Char.toNat_inj.symm
  have escape : c = '\\' ↔ c.toNat = 0x5C := Char.toNat_inj.symm
  rw [Unescaped, Ne, quote, Ne, escape, PlainUnits, charUnits]
  split
  · rw [List.forall_mem_singleton]
  · refine iff_of_true ?_ (by omega)
    simp only [List.mem_cons, List.not_mem_nil, or_false, forall_eq_or_imp, forall_eq]
    omega

theorem plainUnits_units : PlainUnits (units text) ↔ ∀ c ∈ text, Unescaped c := by
  simp only [← plainUnits_char, PlainUnits, units, List.mem_flatMap]
  exact ⟨fun plain c member unit inside => plain unit ⟨c, member, inside⟩,
    fun plain unit ⟨c, member, inside⟩ => plain c member unit inside⟩

/-- The units of the string that the lexer is in. -/
def Mode.pending : Mode → List ℕ
  | .string u | .escape u | .hex u _ => u
  | _ => []

theorem string_mem_snoc {token : Token} (member : .string u ∈ tokens ++ [token]) :
    .string u ∈ tokens ∨ token = .string u :=
  (List.mem_append.mp member).imp_right fun last => (List.mem_singleton.mp last).symm

theorem punctuation_ne_string {token : Token} (mark : punctuation? c = some token) :
    token ≠ .string u := by
  unfold punctuation? at mark
  split at mark <;> cases mark <;> exact nofun

theorem stepOutside_strings (stepped : stepOutside tokens c = some lexer') :
    (∀ u, .string u ∈ lexer'.tokens → .string u ∈ tokens) ∧ lexer'.mode.pending = [] := by
  unfold stepOutside at stepped
  split at stepped
  · cases stepped
    exact ⟨fun _ member => member, rfl⟩
  · split at stepped
    · cases stepped
      exact ⟨fun _ member => member, rfl⟩
    · split at stepped
      · cases stepped
        exact ⟨fun _ member => member, rfl⟩
      · obtain ⟨token, mark, rfl⟩ := Option.map_eq_some_iff.mp stepped
        refine ⟨fun u member => ?_, rfl⟩
        rcases string_mem_snoc member with before | here
        · exact before
        · exact absurd here (punctuation_ne_string mark)

theorem bareToken_ne_string {chars : List Char} {token : Token} (word : bareToken? chars = some token) :
    token ≠ .string u := by
  unfold bareToken? at word
  split at word
  · cases word
    exact nofun
  · split at word
    · cases word
      exact nofun
    · split at word
      · cases word
        exact nofun
      · obtain ⟨q, _, rfl⟩ := Option.map_eq_some_iff.mp word
        exact nofun

/-- In a string, a character ends it, starts an escape, or stands for itself. -/
theorem step_string_cases (stepped : step ⟨.string u, tokens⟩ c = some lexer') :
    lexer' = ⟨.outside, tokens ++ [.string u]⟩ ∨ lexer' = ⟨.escape u, tokens⟩ ∨
      Unescaped c ∧ lexer' = ⟨.string (u ++ charUnits c), tokens⟩ := by
  simp only [step] at stepped
  split at stepped
  · cases stepped
    exact .inl rfl
  · split at stepped
    · cases stepped
      exact .inr (.inl rfl)
    · split at stepped
      · cases stepped
      · rename_i quote escape control
        cases stepped
        exact .inr (.inr ⟨⟨quote, escape, Nat.not_lt.mp control⟩, rfl⟩)

/-- One character adds at most the string that was pending, and to a pending
string no more units than it has itself. -/
theorem step_strings (stepped : step lexer c = some lexer') :
    (∀ u, .string u ∈ lexer'.tokens → .string u ∈ lexer.tokens ∨ u = lexer.mode.pending) ∧
      lexer'.mode.pending.length ≤ lexer.mode.pending.length + (charUnits c).length := by
  have grows := length_charUnits_pos c
  obtain ⟨mode, tokens⟩ := lexer
  cases mode with
  | outside =>
    obtain ⟨strings, pending⟩ := stepOutside_strings stepped
    exact ⟨fun u member => .inl (strings u member), by simp [pending]⟩
  | bare chars =>
    simp only [step] at stepped
    split at stepped
    · cases stepped
      exact ⟨fun _ member => .inl member, by simp [Mode.pending]⟩
    · obtain ⟨token, word, stepped⟩ := Option.bind_eq_some_iff.mp stepped
      obtain ⟨strings, pending⟩ := stepOutside_strings stepped
      refine ⟨fun u member => ?_, by simp [pending]⟩
      rcases string_mem_snoc (strings u member) with before | here
      · exact .inl before
      · exact absurd here (bareToken_ne_string word)
  | string u =>
    rcases step_string_cases stepped with rfl | rfl | ⟨_, rfl⟩
    · refine ⟨fun v member => ?_, by simp [Mode.pending]⟩
      rcases string_mem_snoc member with before | here
      · exact .inl before
      · exact .inr (Token.string.inj here).symm
    · exact ⟨fun _ member => .inl member, by simp [Mode.pending]⟩
    · exact ⟨fun _ member => .inl member, by simp [Mode.pending]⟩
  | escape u =>
    simp only [step] at stepped
    split at stepped
    · cases stepped
      exact ⟨fun _ member => .inl member, by simp [Mode.pending]⟩
    · obtain ⟨unit, _, rfl⟩ := Option.map_eq_some_iff.mp stepped
      exact ⟨fun _ member => .inl member, by simp [Mode.pending]; omega⟩
  | hex u digits =>
    obtain ⟨digit, _, rfl⟩ := Option.map_eq_some_iff.mp stepped
    split
    · exact ⟨fun _ member => .inl member, by simp [Mode.pending]⟩
    · exact ⟨fun _ member => .inl member, by simp [Mode.pending]; omega⟩

/-- Every string so far is plain or has fewer than `n` units. -/
structure Behind (n : ℕ) (lexer : Lexer) : Prop where
  strings : ∀ u, .string u ∈ lexer.tokens → PlainUnits u ∨ u.length < n
  pending : lexer.mode.pending.length < n

theorem Behind.step {n : ℕ} (behind : Behind n lexer) (stepped : Json.step lexer c = some lexer') :
    Behind (n + (charUnits c).length) lexer' := by
  obtain ⟨strings, pending⟩ := step_strings stepped
  refine ⟨fun u member => ?_, by have := behind.pending; omega⟩
  rcases strings u member with before | rfl
  · exact (behind.strings u before).imp_right fun short => by omega
  · exact .inr (Nat.lt_add_right _ behind.pending)

theorem Behind.run {n : ℕ} (behind : Behind n lexer) (ran : Json.run lexer text = some lexer') :
    Behind (n + (units text).length) lexer' := by
  induction text generalizing lexer n with
  | nil =>
    cases ran
    exact behind
  | cons c text ih =>
    rw [run_cons, Option.bind_eq_some_iff] at ran
    obtain ⟨next, stepped, ran⟩ := ran
    have later := ih (behind.step stepped) ran
    rwa [Nat.add_assoc, ← List.length_append, ← units_cons] at later

/-- A piece that should have been escaped leaves every string behind its length. -/
theorem behind_of_pasted {u : List ℕ} (strings : ∀ v, .string v ∈ tokens → PlainUnits v)
    (plain : PlainUnits u) (escaped : ¬ ∀ c ∈ text, Unescaped c)
    (ran : run ⟨.string u, tokens⟩ text = some lexer') :
    Behind (u.length + (units text).length) lexer' := by
  induction text generalizing u with
  | nil => exact absurd (fun c member => nomatch member) escaped
  | cons c text ih =>
    rw [run_cons, Option.bind_eq_some_iff] at ran
    obtain ⟨next, stepped, ran⟩ := ran
    rw [units_cons, List.length_append, ← Nat.add_assoc]
    by_cases here : Unescaped c
    · rw [step_unescaped here] at stepped
      cases stepped
      rw [← List.length_append]
      refine ih ?_ (fun later => escaped (List.forall_mem_cons.mpr ⟨here, later⟩)) ran
      exact fun unit member => (List.mem_append.mp member).elim (plain unit) (plainUnits_char.mpr here unit)
    · refine Behind.run ?_ ran
      have grows := length_charUnits_pos c
      rcases step_string_cases stepped with rfl | rfl | ⟨unescaped, _⟩
      · refine ⟨fun v member => .inl ?_, by simp [Mode.pending]; omega⟩
        rcases string_mem_snoc member with before | last
        · exact strings v before
        · rwa [← Token.string.inj last]
      · exact ⟨fun v member => .inl (strings v member), by simp [Mode.pending]; omega⟩
      · exact absurd unescaped here

/-- A quotation mark that closes no string opens one. -/
theorem step_quote (closed : ∀ u, lexer.mode ≠ .string u) (stepped : step lexer '"' = some lexer') :
    ∃ u, lexer'.mode = .string u := by
  obtain ⟨mode, tokens⟩ := lexer
  cases mode with
  | outside =>
    cases stepped
    exact ⟨[], rfl⟩
  | bare chars =>
    obtain ⟨token, _, opened⟩ := Option.bind_eq_some_iff.mp stepped
    cases opened
    exact ⟨[], rfl⟩
  | string u => exact absurd rfl (closed u)
  | escape u =>
    cases stepped
    exact ⟨u ++ [0x22], rfl⟩
  | hex u digits => cases stepped

/-- With inside and outside exchanged, what should be in a string is a word
that JSON does not have. -/
theorem run_misquoted (closed : ∀ u, lexer.mode ≠ .string u) (plain : ∀ c ∈ text, Unescaped c)
    {word : List Char} (first : isBare c) (bare : ∀ c ∈ word, isBare c)
    (unknown : bareToken? (c :: word) = none) {d : Char} (ends : isBare d = false) :
    run lexer ('"' :: (text ++ '"' :: (c :: word ++ d :: rest))) = none := by
  rw [run_cons]
  cases stepped : step lexer '"' with
  | none => rfl
  | some next =>
    obtain ⟨u, inside⟩ := step_quote closed stepped
    obtain ⟨mode, tokens⟩ := next
    subst inside
    have swapped : step ⟨.string (u ++ units text), tokens⟩ '"' =
        some ⟨.outside, tokens ++ [.string (u ++ units text)]⟩ := rfl
    rw [Option.bind_some, run_append, run_unescaped plain, Option.bind_some, run_cons, swapped,
      Option.bind_some, run_bare first bare ends, unknown, Option.bind_none]

end DmrWatchkeeper.Json
