import DmrWatchkeeper.BurstSync
import DmrWatchkeeper.Library.Loop
import DmrWatchkeeper.Library.Stage
import DmrWatchkeeper.Library.StreamWindow
import Mathlib.Data.List.Induction

/-! What a synchroniser knows about the stream it has been fed: the history
buffer and the shift register are two views of the recent dibits, and while a
burst is being collected the buffered part of it is the corresponding part of
the stream. Positions count pushed dibits from 1; before the first one the
stream is zero, like the initial buffers. -/
namespace DmrWatchkeeper.BurstSyncTracking
open BurstSync StreamWindow

/-- The stream of a list of pushed bytes, reduced to dibits. -/
def dibitAt (xs : List UInt8) (i : ℤ) : UInt8 :=
  if 1 ≤ i then (xs.getD (i - 1).toNat 0) &&& 0x03 else 0

/-- Dibits as one base-4 number, first dibit most significant. -/
def packNat (ds : List UInt8) : ℕ := ds.foldl (fun acc d => 4 * acc + d.toNat) 0

/-- The sync register's view of 24 dibits. -/
def packWord (ds : List UInt8) : UInt64 := UInt64.ofNat (packNat ds)

/-- The packed 24 dibits that end at position `p`. -/
def syncWord (x : ℤ → UInt8) (p : ℤ) : UInt64 := packWord (window x p 24)

/-- The burst whose sync word ends at position `p`. -/
def burstAt (x : ℤ → UInt8) (p : ℤ) (channel toggle : ℤ) : Burst where
  type := matchSync (syncWord x p)
  timeslot := timeslotOf toggle
  channel := channel
  syncBits := syncWord x p
  dibits := Vector.ofFn fun i =>
    if i < 49 then x (p - 72 + (i : ℕ)) else x (p + 1 + ((i : ℕ) - 49))

/-- The burst as it is buffered after `c` dibits behind its sync word. -/
def partialBurst (b : Burst) (c : ℕ) : Burst :=
  { b with dibits := Vector.ofFn fun i => if i < 49 + min c 49 then b.dibits[i] else 0 }

/-- The circular history and the shift register agree with the stream. -/
structure Records (x : ℤ → UInt8) (n : ℤ) (s : BurstSync) : Prop where
  head : s.histHead = n % 128
  hist : Holds (fun k => s.hist.getD k 0) 128 (fun i => x (i + 1)) (n - 128) n
  reg : s.syncReg.toNat = packNat (window x n 24)

/-- Between bursts: `n` dibits received, `m` bursts handed over. -/
structure Hunting (x : ℤ → UInt8) (channel n : ℤ) (m : ℕ) (s : BurstSync) : Prop where
  records : Records x n s
  state : s.state = .hunting
  tuned : s.channelIdx = channel
  toggle : s.tsToggle = m
  found : s.syncMatches = UInt64.ofNat m
  handed : s.burstCount = UInt64.ofNat m

/-- Behind a sync word at position `p`, with `c` further dibits received and
`m` bursts handed over before. -/
structure Collecting (x : ℤ → UInt8) (channel p : ℤ) (c m : ℕ) (s : BurstSync) : Prop where
  records : Records x (p + c) s
  state : s.state = .collecting
  tuned : s.channelIdx = channel
  toggle : s.tsToggle = m + 1
  found : s.syncMatches = UInt64.ofNat (m + 1)
  handed : s.burstCount = UInt64.ofNat m
  index : s.collectIdx = c
  unfinished : c < 59
  current : s.current = partialBurst (burstAt x p channel m) c

/-- The pushed bytes `rest` are the stream's next dibits after position `n`. -/
def Feeds (x : ℤ → UInt8) (n : ℤ) (rest : List UInt8) : Prop :=
  Follows x n (rest.map (· &&& 0x03))

variable {x : ℤ → UInt8} {channel n p : ℤ} {c m : ℕ} {s : BurstSync} {b d : UInt8}

/-- A list of pushed bytes feeds the stream of any list that it is part of. -/
theorem feeds_dibitAt (before rest after : List UInt8) {xs : List UInt8}
    (split : xs = before ++ (rest ++ after)) : Feeds (dibitAt xs) before.length rest := by
  subst split
  intro k bound
  rw [List.length_map] at bound
  have position : ((before.length : ℤ) + 1 + k - 1).toNat = before.length + k := by omega
  rw [dibitAt, if_pos (by omega), position, List.getElem_map, List.getD_eq_getElem?_getD,
    List.getElem?_append_right (by omega), Nat.add_sub_cancel_left,
    List.getElem?_append_left bound, List.getElem?_eq_getElem bound, Option.getD_some]

/-! ### Packing -/

@[simp] theorem packNat_snoc (ds : List UInt8) (d : UInt8) :
    packNat (ds ++ [d]) = 4 * packNat ds + d.toNat := by
  simp [packNat, List.foldl_append]

theorem packNat_cons (d : UInt8) (ds : List UInt8) :
    packNat (d :: ds) = d.toNat * 4 ^ ds.length + packNat ds := by
  induction ds using List.reverseRecOn with
  | nil => simp [packNat]
  | append_singleton ds e ih =>
    rw [← List.cons_append, packNat_snoc, ih, packNat_snoc, List.length_append,
      List.length_singleton, pow_succ]
    ring

theorem packNat_lt (ds : List UInt8) (small : ∀ d ∈ ds, d.toNat < 4) :
    packNat ds < 4 ^ ds.length := by
  induction ds using List.reverseRecOn with
  | nil => simp [packNat]
  | append_singleton ds e ih =>
    have front := ih fun d member => small d (List.mem_append_left _ member)
    have last := small e (by simp)
    rw [packNat_snoc, List.length_append, List.length_singleton, pow_succ]
    omega

theorem masked_lt (d : UInt8) : (d &&& 0x03).toNat < 4 := by
  rw [UInt8.toNat_and]
  exact Nat.lt_of_le_of_lt Nat.and_le_right (by decide)

theorem dibitAt_lt (xs : List UInt8) (i : ℤ) : (dibitAt xs i).toNat < 4 := by
  unfold dibitAt
  split
  · exact masked_lt _
  · decide

theorem window_small (small : ∀ i, (x i).toNat < 4) (p : ℤ) (m : ℕ) :
    ∀ d ∈ window x p m, d.toNat < 4 := by
  intro d member
  obtain ⟨k, _, rfl⟩ := List.mem_map.mp member
  exact small _

/-- Shifting a dibit into the 48-bit register drops the oldest of 24. -/
theorem packNat_window_succ (small : ∀ i, (x i).toNat < 4) (n : ℤ) :
    packNat (window x (n + 1) 24) = (4 * packNat (window x n 24) + (x (n + 1)).toNat) % 2 ^ 48 := by
  have longer := window_snoc x n 24
  rw [window_cons] at longer
  have packed := congrArg packNat longer
  rw [packNat_cons, packNat_snoc, length_window] at packed
  have bound := packNat_lt _ (window_small small (n + 1) 24)
  rw [length_window] at bound
  rw [← packed]
  omega

theorem shift_register (reg : UInt64) (d : UInt8) (short : reg.toNat < 2 ^ 48) (small : d.toNat < 4) :
    (((reg <<< 2) ||| d.toUInt64) &&& kMask48).toNat = (4 * reg.toNat + d.toNat) % 2 ^ 48 := by
  have mask : kMask48.toNat = 2 ^ 48 - 1 := by decide
  have shifted : (reg <<< 2).toNat = reg.toNat <<< 2 := by
    rw [UInt64.toNat_shiftLeft, show (2 : UInt64).toNat % 64 = 2 from rfl, Nat.shiftLeft_eq]
    exact Nat.mod_eq_of_lt (by omega)
  rw [UInt64.toNat_and, UInt64.toNat_or, mask, Nat.and_two_pow_sub_one_eq_mod, shifted,
    UInt8.toNat_toUInt64, ← Nat.shiftLeft_add_eq_or_of_lt (by simpa using small), Nat.shiftLeft_eq,
    Nat.mul_comm]

/-! ### Recording a dibit -/

theorem Records.record (held : Records x n s) (small : ∀ i, (x i).toNat < 4)
    (next : x (n + 1) = d) : Records x (n + 1) (s.record d) where
  head := by
    rw [BurstSync.record, held.head]
    exact head_succ n (by decide)
  hist := Holds.push (by decide) held.hist held.head next
  reg := by
    have short : s.syncReg.toNat < 2 ^ 48 := by
      have bound := packNat_lt _ (window_small small n 24)
      rw [held.reg]
      rwa [length_window] at bound
    rw [packNat_window_succ small, ← held.reg, next]
    exact shift_register _ _ short (next ▸ small _)

/-- The history holds the last 128 dibits, read by distance from the end. -/
theorem Records.histAt_eq (held : Records x n s) {i : ℤ} (recent : n - 128 < i) (known : i ≤ n) :
    s.histAt ((i - 1) % 128) = x i := by
  have slot := held.hist (i - 1) (by omega) (by omega)
  simp only [sub_add_cancel] at slot
  exact slot

/-- The recovered first half is the 49 dibits before the sync word. -/
theorem Records.extractFirstHalf_eq (held : Records x n s) (out : Vector UInt8 98) (i : Fin 98) :
    (s.extractFirstHalf out)[i] = if i < 49 then x (n - 72 + (i : ℕ)) else out[i] := by
  have start : (s.histHead - 73 + kHistLen * 2).tmod kHistLen = (n - 73) % 128 := by
    rw [held.head]
    exact head_back n (by decide) (by decide)
  have injective : Function.Injective (Fin.castLE (by decide : 49 ≤ 98)) :=
    fun i j same => by simpa [Fin.ext_iff] using same
  unfold extractFirstHalf
  rw [start]
  by_cases first : i < 49
  · have entry := Loop.foldl_set_hit injective (fun i : Fin 49 =>
      s.histAt (((n - 73) % 128 + i).tmod kHistLen)) out ⟨i, by omega⟩
    have slot : ((n - 73) % 128 + (i : ℕ)).tmod kHistLen = (n - 72 + (i : ℕ) - 1) % 128 := by
      have nonneg := Int.emod_nonneg (n - 73) (show (128 : ℤ) ≠ 0 by decide)
      rw [kHistLen, Int.tmod_eq_emod_of_nonneg (by omega)]
      omega
    rw [if_pos first, ← held.histAt_eq (show n - 128 < n - 72 + (i : ℕ) by omega) (by omega), ← slot]
    exact entry
  · rw [if_neg first]
    refine Loop.foldl_set_miss injective _ _ fun j same => first ?_
    have bound := j.isLt
    rw [← same]
    exact bound

theorem Records.syncReg_eq (held : Records x n s) : s.syncReg = syncWord x n := by
  rw [syncWord, packWord, ← held.reg, UInt64.ofNat_toNat]

theorem Records.syncReg_masked (held : Records x n s) (small : ∀ i, (x i).toNat < 4) :
    s.syncReg &&& kMask48 = syncWord x n := by
  rw [← held.syncReg_eq]
  have bound := packNat_lt _ (window_small small n 24)
  rw [length_window, ← held.reg, show 4 ^ 24 = 2 ^ 48 by decide] at bound
  apply UInt64.toNat_inj.mp
  rw [UInt64.toNat_and, show kMask48.toNat = 2 ^ 48 - 1 from rfl, Nat.and_two_pow_sub_one_eq_mod,
    Nat.mod_eq_of_lt bound]

/-- Only the recording members matter. -/
theorem Records.frame {s' : BurstSync} {n' : ℤ} (held : Records x n s) (head : s'.histHead = s.histHead)
    (hist : s'.hist = s.hist) (reg : s'.syncReg = s.syncReg) (same : n' = n) : Records x n' s' := by
  subst same
  exact ⟨head.trans held.head, hist ▸ held.hist, reg ▸ held.reg⟩

/-! ### The two phases, one dibit at a time -/

theorem init_hunting (channel : ℤ) (xs : List UInt8) :
    Hunting (dibitAt xs) channel 0 0 (init channel) where
  records := {
    head := rfl
    hist := fun i _ below => by
      have before : ¬ 1 ≤ i + 1 := by omega
      simp only [dibitAt, before, ↓reduceIte, init, Vector.getD, Vector.toArray_replicate,
        Array.getD_eq_getD_getElem?, Array.getElem?_replicate]
      split <;> rfl
    reg := by
      have zero : window (dibitAt xs) 0 24 = List.replicate 24 0 := by
        refine List.ext_getElem (by simp) fun k bound _ => ?_
        rw [length_window] at bound
        rw [getElem_window, List.getElem_replicate, dibitAt, if_neg (by omega)]
      rw [zero]
      rfl }
  state := rfl
  tuned := rfl
  toggle := rfl
  found := rfl
  handed := rfl

/-- The buffer takes the next payload dibit, and passes over guard dibits. -/
private theorem partialBurst_succ (next : x (p + c + 1) = d) :
    (if (c : ℤ) < 49 then { partialBurst (burstAt x p channel m) c with
        dibits := (partialBurst (burstAt x p channel m) c).dibits.setIfInBounds
          (49 + (c : ℤ)).toNat d }
      else partialBurst (burstAt x p channel m) c) =
      partialBurst (burstAt x p channel m) (c + 1) := by
  have slot : (49 + (c : ℤ)).toNat = 49 + c := by omega
  rw [slot]
  by_cases payload : c < 49
  · rw [if_pos (by omega)]
    simp only [partialBurst, Burst.mk.injEq, true_and]
    ext i bound
    rcases Nat.lt_trichotomy i (49 + c) with before | here | behind
    · have known : i < 49 + min c 49 ∧ i < 49 + min (c + 1) 49 := by omega
      simp [before.ne', known]
    · subst here
      have known : 49 + c < 49 + min (c + 1) 49 := by omega
      have position : p + 1 + ((49 + c : ℕ) - 49 : ℤ) = p + c + 1 := by omega
      simp [known, burstAt, Fin.lt_def, ← next, ← position]
    · have unknown : ¬ i < 49 + min c 49 ∧ ¬ i < 49 + min (c + 1) 49 := by omega
      simp [behind.ne, unknown]
  · rw [if_neg (by omega), partialBurst, partialBurst, Nat.min_eq_right (by omega),
      Nat.min_eq_right (by omega)]

theorem partialBurst_full (b : Burst) : partialBurst b 59 = b := by
  have full : (partialBurst b 59).dibits = b.dibits := by
    ext i bound
    simp [partialBurst]
  simp only [partialBurst] at full ⊢
  rw [full]

section Steps
variable (small : ∀ i, (x i).toNat < 4)
include small

theorem Hunting.record (held : Hunting x channel n m s) (next : x (n + 1) = d) :
    Hunting x channel (n + 1) m (s.record d) :=
  ⟨held.records.record small next, held.state, held.tuned, held.toggle, held.found, held.handed⟩

/-- Hunting continues where no sync word ends. -/
theorem Hunting.quiet (held : Hunting x channel n m s) (next : x (n + 1) = b &&& 0x03)
    (silent : matchSync (syncWord x (n + 1)) = .unknown) :
    (pushDibit s b).2 = none ∧ Hunting x channel (n + 1) m (pushDibit s b).1 := by
  have recorded := (held.record small next)
  have stays : (s.record (b &&& 0x03)).hunt = s.record (b &&& 0x03) := by
    simp [hunt, recorded.records.syncReg_eq, silent]
  simp only [pushDibit, held.state, stays]
  exact ⟨trivial, recorded⟩

/-- A sync word starts the collection of its burst. -/
theorem Hunting.matched (held : Hunting x channel n m s) (next : x (n + 1) = b &&& 0x03)
    (ends : matchSync (syncWord x (n + 1)) ≠ .unknown) :
    (pushDibit s b).2 = none ∧ Collecting x channel (n + 1) 0 m (pushDibit s b).1 := by
  have recorded := held.record small next
  simp only [pushDibit, held.state, true_and]
  generalize s.record (b &&& 0x03) = r at recorded
  have masked := recorded.records.syncReg_masked small
  have reg := recorded.records.syncReg_eq
  have first : r.extractFirstHalf (Vector.replicate 98 0) =
      (partialBurst (burstAt x (n + 1) channel m) 0).dibits := by
    ext i bound
    have entry := recorded.records.extractFirstHalf_eq (Vector.replicate 98 0) ⟨i, bound⟩
    rw [Fin.getElem_fin] at entry
    rw [entry]
    by_cases early : i < 49 <;> simp [partialBurst, burstAt, Fin.lt_def, early]
  rw [hunt, if_pos (by rwa [reg])]
  exact {
    records := recorded.records.frame rfl rfl rfl (by simp)
    state := rfl
    tuned := recorded.tuned
    toggle := by simp [recorded.toggle]
    found := by simp [recorded.found]
    handed := recorded.handed
    index := rfl
    unfinished := by decide
    current := by
      rw [first, masked, recorded.tuned, recorded.toggle, reg]
      rfl }

/-- A collected dibit that does not complete the burst. -/
theorem Collecting.more (held : Collecting x channel p c m s)
    (next : x (p + c + 1) = b &&& 0x03) (room : c + 1 < 59) :
    (pushDibit s b).2 = none ∧ Collecting x channel p (c + 1) m (pushDibit s b).1 := by
  have recorded := held.records.record small next
  have index : (s.record (b &&& 0x03)).collectIdx = c := held.index
  have current : (s.record (b &&& 0x03)).current = _ := held.current
  simp only [pushDibit, held.state, collect, index, current, partialBurst_succ next]
  rw [if_neg (by omega)]
  exact ⟨rfl, {
    records := recorded.frame rfl rfl rfl (by push_cast; ring)
    state := held.state
    tuned := held.tuned
    toggle := held.toggle
    found := held.found
    handed := held.handed
    index := by simp
    unfinished := room
    current := rfl }⟩

/-- The last guard dibit hands the burst over. -/
theorem Collecting.last (held : Collecting x channel p c m s)
    (next : x (p + c + 1) = b &&& 0x03) (full : c + 1 = 59) :
    (pushDibit s b).2 = some (burstAt x p channel m) ∧
      Hunting x channel (p + 59) (m + 1) (pushDibit s b).1 := by
  have recorded := held.records.record small next
  have index : (s.record (b &&& 0x03)).collectIdx = c := held.index
  have current : (s.record (b &&& 0x03)).current = _ := held.current
  have handed : (s.record (b &&& 0x03)).burstCount = UInt64.ofNat m := held.handed
  simp only [pushDibit, held.state, collect, index, current, partialBurst_succ next]
  rw [if_pos (by omega), full, partialBurst_full]
  refine ⟨rfl, recorded.frame rfl rfl rfl (by omega), rfl, held.tuned, held.toggle, held.found, ?_⟩
  simp [handed]

/-! ### The two phases over many dibits -/

omit small in
theorem feeds_cons {rest : List UInt8} : Feeds x n (b :: rest) ↔
    x (n + 1) = b &&& 0x03 ∧ Feeds x (n + 1) rest := by
  simp only [Feeds, List.map_cons, follows_cons]

/-- Hunting through a stretch in which no sync word ends. -/
theorem Hunting.run_quiet {rest : List UInt8} (held : Hunting x channel n m s)
    (feeds : Feeds x n rest)
    (silent : ∀ p, n < p → p ≤ n + rest.length → matchSync (syncWord x p) = .unknown) (k : ℕ) :
    Stage.emitted pushDibit k s rest = [] ∧
      Hunting x channel (n + rest.length) m (Stage.after pushDibit s rest) := by
  induction rest generalizing s n k with
  | nil => exact ⟨rfl, by simpa using held⟩
  | cons b rest ih =>
    obtain ⟨head, tail⟩ := feeds_cons.mp feeds
    rw [List.length_cons] at silent ⊢
    obtain ⟨out, now⟩ := held.quiet small head (silent (n + 1) (by omega) (by push_cast; omega))
    obtain ⟨emits, then_⟩ := ih now tail
      (fun p above below => silent p (by omega) (by push_cast; omega)) (k + 1)
    refine ⟨by rw [Stage.emitted_cons, out, emits]; rfl, ?_⟩
    rw [Stage.after_cons, show n + ((rest.length + 1 : ℕ) : ℤ) = n + 1 + rest.length by
      push_cast; ring]
    exact then_

/-- Collecting up to but not including the last guard dibit. -/
theorem Collecting.run_part {rest : List UInt8} (held : Collecting x channel p c m s)
    (feeds : Feeds x (p + c) rest) (room : c + rest.length < 59) (k : ℕ) :
    Stage.emitted pushDibit k s rest = [] ∧
      Collecting x channel p (c + rest.length) m (Stage.after pushDibit s rest) := by
  induction rest generalizing s c k with
  | nil => exact ⟨rfl, held⟩
  | cons b rest ih =>
    obtain ⟨head, tail⟩ := feeds_cons.mp feeds
    rw [List.length_cons] at room ⊢
    obtain ⟨out, now⟩ := held.more small head (by omega)
    have tail : Feeds x (p + (c + 1 : ℕ)) rest := by
      rw [Nat.cast_add, Nat.cast_one, ← add_assoc]
      exact tail
    obtain ⟨emits, then_⟩ := ih now tail (by omega) (k + 1)
    refine ⟨by rw [Stage.emitted_cons, out, emits]; rfl, ?_⟩
    rw [Stage.after_cons, show c + (rest.length + 1) = c + 1 + rest.length by omega]
    exact then_

/-- Collecting to the end of a burst: one callback, on the last dibit. -/
theorem Collecting.run_all {rest : List UInt8} (held : Collecting x channel p c m s)
    (feeds : Feeds x (p + c) rest) (all : c + rest.length = 59) (k : ℕ) :
    Stage.emitted pushDibit k s rest = [(k + rest.length, burstAt x p channel m)] ∧
      Hunting x channel (p + 59) (m + 1) (Stage.after pushDibit s rest) := by
  have unfinished := held.unfinished
  rcases List.eq_nil_or_concat' rest with rfl | ⟨front, b, rfl⟩
  · simp at all
    omega
  · rw [List.length_append, List.length_singleton] at all
    rw [Feeds, List.map_append, follows_append, List.map_singleton, List.length_map] at feeds
    obtain ⟨quiet, now⟩ := held.run_part small feeds.1 (by omega) k
    have head := (follows_cons.mp feeds.2).1
    rw [add_assoc p] at head
    obtain ⟨out, done⟩ := now.last small (by push_cast at head ⊢; exact head) (by omega)
    rw [Stage.emitted_append, quiet, Stage.emitted_cons, out, Stage.after_append]
    exact ⟨by simp; omega, done⟩

end Steps

end DmrWatchkeeper.BurstSyncTracking
