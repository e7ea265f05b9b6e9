import DmrWatchkeeper.CaptureAlignment
import DmrWatchkeeper.Monitor
import Mathlib.Algebra.Order.Ring.Unbundled.Rat

/-! What the program emits, in any order of its threads: for each channel, the
events of one pass of its chain over the stored stream. -/
namespace DmrWatchkeeper.MonitorEvents
open Monitor Channel Channelizer PairedStream
open ChannelFilter (pairsOf)
open DemodChain (pairStep)
open RingBufferCopies (bytes length_bytes)

/-! ### Pairs of a block -/

theorem pairsOf_length (rawIq : ℕ → UInt8) (n : ℕ) : (pairsOf rawIq n).length = n := by
  rw [pairsOf, List.length_map, List.length_range]

/-- The pairs of an array are its bytes, two by two. -/
theorem interleave_pairsOf (rawIq : ℕ → UInt8) (n : ℕ) :
    interleave (pairsOf rawIq n) = bytes rawIq (2 * n) := by
  rw [pairsOf, ← range_components, bytes]
  refine List.map_congr_left fun i _ => ?_
  rw [components]
  split
  · exact congrArg rawIq (by omega)
  · exact congrArg rawIq (by omega)

/-- The bytes of a list of pairs, as an array. -/
def arrayOf (pairs : List (UInt8 × UInt8)) : ℕ → UInt8 := fun i => (interleave pairs).getD i 0

theorem pairsOf_arrayOf (pairs : List (UInt8 × UInt8)) : pairsOf (arrayOf pairs) pairs.length = pairs := by
  refine List.ext_getElem (pairsOf_length _ _) fun k _ bound => ?_
  obtain ⟨first, second⟩ := getElem?_interleave pairs k
  rw [List.getElem?_eq_getElem bound, Option.map_some] at first second
  simp only [pairsOf, List.getElem_map, List.getElem_range, arrayOf, List.getD_eq_getElem?_getD, first,
    second, Option.getD_some]

theorem pairsOf_bytes (rawIq : ℕ → UInt8) (n : ℕ) :
    pairsOf (fun i => (bytes rawIq (2 * n)).getD i 0) n = pairsOf rawIq n := by
  have within : ∀ i < 2 * n, (bytes rawIq (2 * n)).getD i 0 = rawIq i := by
    intro i bound
    rw [List.getD_eq_getElem?_getD, List.getElem?_eq_getElem (by rwa [length_bytes]), Option.getD_some,
      RingBufferCopies.getElem_bytes]
  rw [pairsOf, pairsOf]
  refine List.map_congr_left fun k member => ?_
  have inside := List.mem_range.mp member
  rw [within _ (by omega), within _ (by omega)]

/-- The pairs of the blocks that a chain was given. -/
def inboxPairs (inbox : List (List UInt8)) : List (UInt8 × UInt8) :=
  inbox.flatMap fun block => pairsOf (fun i => block.getD i 0) blockPairs

theorem inboxPairs_append (inbox : List (List UInt8)) (block : ℕ → UInt8) :
    inboxPairs (inbox ++ [bytes block (2 * blockPairs)]) = inboxPairs inbox ++ pairsOf block blockPairs := by
  rw [inboxPairs, List.flatMap_append, List.flatMap_singleton, pairsOf_bytes, ← inboxPairs]

theorem interleave_inboxPairs {inbox : List (List UInt8)}
    (uniform : ∀ b ∈ inbox, b.length = 2 * blockPairs) :
    interleave (inboxPairs inbox) = inbox.flatten := by
  induction inbox with
  | nil => rfl
  | cons block inbox ih =>
    have size := uniform block (by simp)
    have front : bytes (fun i => block.getD i 0) (2 * blockPairs) = block := by
      refine List.ext_getElem (by rw [length_bytes, size]) fun i _ bound => ?_
      rw [RingBufferCopies.getElem_bytes, List.getD_eq_getElem?_getD, List.getElem?_eq_getElem bound,
        Option.getD_some]
    rw [inboxPairs, List.flatMap_cons, interleave_append, interleave_pairsOf, front, List.flatten_cons,
      ← inboxPairs, ih fun b member => uniform b (List.mem_cons_of_mem _ member)]

theorem length_inboxPairs (inbox : List (List UInt8)) :
    (inboxPairs inbox).length = blockPairs * inbox.length := by
  induction inbox with
  | nil => rfl
  | cons block inbox ih =>
    rw [inboxPairs, List.flatMap_cons, List.length_append, pairsOf_length, ← inboxPairs, ih,
      List.length_cons, Nat.mul_succ, Nat.add_comm]

/-! ### What a step leaves alone -/

/-- Outside the loop over the chains, the thread leaves the inboxes as they are. -/
theorem threadStep_inboxes {t : Channelizer.State} (elsewhere : ∀ next, t.thread = .handing next → t.chains.length ≤ next) :
    (threadStep t).chains = t.chains := by
  rw [threadStep.eq_def]
  split
  · rfl
  · rfl
  · rfl
  · rfl
  · split
    · rfl
    · split <;> rfl
  · rename_i next at_
    rw [if_neg (by have far := elsewhere next at_; omega)]
  · rfl

/-- The thread of `main` only reads what the others own. -/
theorem mainStep_frame {F D : Type} (s : Monitor F D) : s.mainStep.system = s.system ∧
    s.mainStep.chains = s.chains ∧ s.mainStep.emitted = s.emitted := by
  rw [mainStep]
  split
  · exact ⟨rfl, rfl, rfl⟩
  · split <;> exact ⟨rfl, rfl, rfl⟩
  · split
    · simp only [summarise]
      split <;> exact ⟨rfl, rfl, rfl⟩
    · exact ⟨rfl, rfl, rfl⟩
  · exact ⟨rfl, rfl, rfl⟩
  · split <;> exact ⟨rfl, rfl, rfl⟩
  · exact ⟨rfl, rfl, rfl⟩

/-! ### One chain -/

section Chains
variable {F D : Type} [OfScientific F] [Add F] [Sub F] [Mul F] [Div F] [IntCast F] [LT F] [LE F]
  [DecidableLT F] [DecidableLE F] [CastToInt F] [FloatLib F]
  [IntCast D] [Mul D] [Div D] [Neg D] [LT D] [DecidableLT D] [BEq D]

/-- The channel that a line names. -/
def eventChannel : Event D → String
  | .voice ch _ _ _ _ => ch
  | .gps ch _ _ _ => ch

/-- What a channel emits for a stream that its chain is given in one call. -/
def directEvents (chain : DemodChain F) (pairs : List (UInt8 × UInt8)) : List (Event D) :=
  (chain.process (arrayOf pairs) pairs.length).2.filterMap (layer2 chain.cfg.label)

theorem directEvents_eq (chain : DemodChain F) (pairs : List (UInt8 × UInt8)) :
    (directEvents chain pairs : List (Event D)) =
      (Stage.outputs pairStep chain.carried pairs).filterMap (layer2 chain.cfg.label) := by
  rw [directEvents, (DemodChain.process_run chain _ _).2, pairsOf_arrayOf]

theorem process_cfg (chain : DemodChain F) (rawIq : ℕ → UInt8) (numPairs : ℕ) :
    (chain.process rawIq numPairs).1.cfg = chain.cfg := by
  simp only [DemodChain.process]
  split <;> rfl

/-- The other threads leave what `main` owns alone, and the configurations of
the chains. -/
theorem systemStep_frame (s : Monitor F D) (turn : Channelizer.Turn) :
    (s.systemStep turn).chains.map (·.cfg) = s.chains.map (·.cfg) ∧
      (s.systemStep turn).prevBursts = s.prevBursts ∧ (s.systemStep turn).lines = s.lines ∧
      (s.systemStep turn).main = s.main ∧ (s.systemStep turn).tick = s.tick := by
  have demodulated : ∀ i, ((s.demodulate i).chains.map (·.cfg) = s.chains.map (·.cfg)) ∧
      (s.demodulate i).prevBursts = s.prevBursts ∧ (s.demodulate i).lines = s.lines ∧
      (s.demodulate i).main = s.main ∧ (s.demodulate i).tick = s.tick := by
    intro i
    rw [demodulate]
    split
    · exact ⟨rfl, rfl, rfl, rfl, rfl⟩
    · rename_i chain here
      refine ⟨?_, rfl, rfl, rfl, rfl⟩
      have bound := (List.getElem?_eq_some_iff.mp here).1
      refine List.ext_getElem? fun j => ?_
      rw [List.getElem?_map, List.getElem?_map]
      by_cases own : j = i
      · subst own
        rw [List.getElem?_set_self bound, here, Option.map_some, Option.map_some, process_cfg]
      · rw [List.getElem?_set_ne (Ne.symm own)]
  simp only [systemStep]
  split
  · exact demodulated _
  · exact ⟨rfl, rfl, rfl, rfl, rfl⟩

theorem eventChannel_layer2 {label : String} {ev : SlotManager.SlotEvent} {e : Event D}
    (emits : layer2 label ev = some e) : eventChannel e = label := by
  simp only [layer2, burstEvent] at emits
  split at emits
  · cases emits
  · split at emits
    · split at emits
      · cases emits
      · cases emits
        rfl
    · split at emits
      · split at emits
        · cases emits
          rfl
        · cases emits
      · cases emits

theorem filter_own (label : String) (events : List SlotManager.SlotEvent) :
    (events.filterMap (layer2 label)).filter (fun e : Event D => eventChannel e = label) =
      events.filterMap (layer2 label) := by
  rw [List.filter_eq_self]
  intro e member
  obtain ⟨ev, -, emits⟩ := List.mem_filterMap.mp member
  exact decide_eq_true (eventChannel_layer2 emits)

theorem filter_other {label label' : String} (other : label ≠ label')
    (events : List SlotManager.SlotEvent) :
    (events.filterMap (layer2 label)).filter (fun e : Event D => eventChannel e = label') = [] := by
  rw [List.filter_eq_nil_iff]
  intro e member
  obtain ⟨ev, -, emits⟩ := List.mem_filterMap.mp member
  rw [eventChannel_layer2 emits]
  simpa using other

/-- The chain `now` comes from `chain` by the blocks of `inbox`, and `events`
are what its callback emitted for them. -/
structure Demodulated (chain now : DemodChain F) (inbox : List (List UInt8))
    (events : List (Event D)) : Prop where
  config : now.cfg = chain.cfg
  carried : now.carried = Stage.after pairStep chain.carried (inboxPairs inbox)
  events : events = directEvents chain (inboxPairs inbox)

/-- One more block. -/
theorem Demodulated.block {chain now : DemodChain F} {inbox : List (List UInt8)}
    {events : List (Event D)} (held : Demodulated chain now inbox events) (block : ℕ → UInt8) :
    Demodulated chain (now.process block blockPairs).1
      (inbox ++ [bytes block (2 * blockPairs)])
      (events ++ (now.process block blockPairs).2.filterMap (layer2 chain.cfg.label)) where
  config := (process_cfg now block blockPairs).trans held.config
  carried := by
    rw [(DemodChain.process_run now block blockPairs).1, held.carried, inboxPairs_append,
      Stage.after_append]
  events := by
    rw [held.events, directEvents_eq, directEvents_eq, inboxPairs_append, Stage.outputs_append,
      List.filterMap_append, (DemodChain.process_run now block blockPairs).2, held.carried]

/-! ### One step of the program -/

/-- Each channel has demodulated the blocks of its inbox, and every emitted line
is a channel's. -/
structure Tracks (chains : List (DemodChain F)) (s : Monitor F D) : Prop where
  count : s.chains.length = chains.length
  inboxes : s.system.chains.length = chains.length
  named : ∀ e ∈ s.emitted, ∃ chain ∈ chains, eventChannel e = chain.cfg.label
  demodulated : ∀ (i : ℕ) (chain : DemodChain F), chains[i]? = some chain →
    ∃ (now : DemodChain F) (inbox : List (List UInt8)),
      s.chains[i]? = some now ∧ s.system.chains[i]? = some inbox ∧
      Demodulated chain now inbox (s.emitted.filter (eventChannel · = chain.cfg.label))

variable {chains : List (DemodChain F)} {s : Monitor F D}

theorem Tracks.same (held : Tracks chains s) {t : Monitor F D} (same : t.chains = s.chains)
    (emitted : t.emitted = s.emitted) (inboxes : t.system.chains = s.system.chains) :
    Tracks chains t where
  count := by rw [same, held.count]
  inboxes := by rw [inboxes, held.inboxes]
  named := by rw [emitted]; exact held.named
  demodulated := by rw [same, emitted, inboxes]; exact held.demodulated

theorem Tracks.channel (held : Tracks chains s) {next : ℕ} (bound : next < chains.length) :
    ∃ (chain now : DemodChain F) (inbox : List (List UInt8)), chains[next]? = some chain ∧ s.chains[next]? = some now ∧
      s.system.chains[next]? = some inbox ∧
      Demodulated chain now inbox (s.emitted.filter (eventChannel · = chain.cfg.label)) := by
  have listed := List.getElem?_eq_getElem bound
  obtain ⟨now, inbox, here, given, demodulated⟩ := held.demodulated next _ listed
  exact ⟨_, now, inbox, listed, here, given, demodulated⟩

/-- The thread hands a block to one chain: its inbox grows by the block, its
lines are emitted, and the other channels are left alone. -/
theorem Tracks.hand (held : Tracks chains s) (distinct : (chains.map (·.cfg.label)).Nodup) {next : ℕ}
    (handing : s.system.thread = .handing next) (bound : next < chains.length) :
    Tracks chains (s.systemStep .channelizer) := by
  obtain ⟨chain, now, inbox, listed, here, given, demodulated⟩ := held.channel bound
  have within : next < s.system.chains.length := by rwa [held.inboxes]
  have inboxes : (threadStep s.system).chains =
      s.system.chains.modify next (· ++ [bytes s.system.block (2 * blockPairs)]) := by
    simp only [threadStep, handing, if_pos within]
  have config := demodulated.config
  have stepped : s.systemStep .channelizer =
      { s with
        chains := s.chains.set next (now.process s.system.block blockPairs).1
        emitted := s.emitted ++
          (now.process s.system.block blockPairs).2.filterMap (layer2 chain.cfg.label)
        system := threadStep s.system } := by
    simp only [systemStep, handing, demodulate, here, config]
    rfl
  rw [stepped]
  refine ⟨?_, ?_, fun e member => ?_, fun i other listed' => ?_⟩
  · rw [List.length_set, held.count]
  · simp only
    rw [inboxes, List.length_modify, held.inboxes]
  · rcases List.mem_append.mp member with before | new
    · exact held.named e before
    · obtain ⟨ev, -, emits⟩ := List.mem_filterMap.mp new
      exact ⟨chain, List.mem_of_getElem? listed, eventChannel_layer2 emits⟩
  · simp only
    rw [inboxes, List.filter_append]
    by_cases own : i = next
    · subst own
      obtain rfl : chain = other := Option.some.inj (listed.symm.trans listed')
      refine ⟨_, inbox ++ [bytes s.system.block (2 * blockPairs)], List.getElem?_set_self ?_, ?_, ?_⟩
      · exact (List.getElem?_eq_some_iff.mp here).1
      · rw [List.getElem?_modify, given]
        simp
      · rw [filter_own]
        exact demodulated.block s.system.block
    · obtain ⟨now', inbox', here', given', demodulated'⟩ := held.demodulated i other listed'
      refine ⟨now', inbox', ?_, ?_, ?_⟩
      · rw [List.getElem?_set_ne (Ne.symm own), here']
      · rw [List.getElem?_modify, given']
        simp [Ne.symm own]
      · have differ : chain.cfg.label ≠ other.cfg.label := by
          intro equal
          refine own ((List.getElem?_inj (by rwa [List.length_map]) distinct).mp ?_).symm
          rw [List.getElem?_map, List.getElem?_map, listed, listed', Option.map_some, Option.map_some,
            equal]
        rw [filter_other differ, List.append_nil]
        exact demodulated'

theorem Tracks.system (held : Tracks chains s) (distinct : (chains.map (·.cfg.label)).Nodup)
    (turn : Channelizer.Turn) : Tracks chains (s.systemStep turn) := by
  cases turn with
  | capture pairs count => exact held.same rfl rfl (CaptureAlignment.captureStep_frame ..).2.2.2.2
  | signal => exact held.same rfl rfl rfl
  | channelizer =>
    by_cases handing : ∃ next, s.system.thread = .handing next ∧ next < chains.length
    · obtain ⟨next, at_, bound⟩ := handing
      exact held.hand distinct at_ bound
    · have past : ∀ next, s.system.thread = .handing next → s.system.chains.length ≤ next := by
        intro next at_
        rw [held.inboxes]
        exact not_lt.mp fun bound => handing ⟨next, at_, bound⟩
      have stepped : s.systemStep .channelizer = { s with system := threadStep s.system } := by
        cases at_ : s.system.thread with
        | handing next =>
          have none : s.chains[next]? = none := by
            rw [List.getElem?_eq_none_iff, held.count, ← held.inboxes]
            exact past next at_
          simp only [systemStep, at_, demodulate, none]
          rfl
        | _ =>
          simp only [systemStep, at_]
          rfl
      rw [stepped]
      exact held.same rfl rfl (threadStep_inboxes past)

theorem Tracks.step (held : Tracks chains s) (distinct : (chains.map (·.cfg.label)).Nodup)
    (turn : Monitor.Turn) : Tracks chains (s.step turn) := by
  cases turn with
  | system turn => exact held.system distinct turn
  | main =>
    obtain ⟨system, same, emitted⟩ := mainStep_frame s
    exact held.same same emitted (congrArg Channelizer.State.chains system)

theorem Tracks.run (held : Tracks chains s) (distinct : (chains.map (·.cfg.label)).Nodup)
    (turns : List Monitor.Turn) : Tracks chains (turns.foldl Monitor.step s) := by
  induction turns generalizing s with
  | nil => exact held
  | cons turn turns ih => exact ih (held.step distinct turn)

theorem start_tracks (ring : RingBuffer) (chains : List (DemodChain F)) :
    Tracks chains (start ring chains : Monitor F D) where
  count := rfl
  inboxes := List.length_replicate
  named := fun e member => absurd member List.not_mem_nil
  demodulated := fun i chain listed => by
    refine ⟨chain, [], listed, ?_, rfl, rfl, ?_⟩
    · have bound := (List.getElem?_eq_some_iff.mp listed).1
      exact List.getElem?_replicate_of_lt bound
    · rw [directEvents_eq]
      rfl

/-! ### All interleavings -/

/-- The threads around the chains run as if nothing was demodulated. -/
theorem run_system (s : Monitor F D) (turns : List Monitor.Turn) :
    (turns.foldl Monitor.step s).system = (systemTurns turns).foldl Channelizer.step s.system := by
  induction turns generalizing s with
  | nil => rfl
  | cons turn turns ih =>
    rw [List.foldl_cons, ih]
    cases turn with
    | system turn => rfl
    | main =>
      rw [Monitor.step, (mainStep_frame s).1]
      rfl

/-- The invariant of the threads around the chains holds at the start. -/
theorem started_inv {allocate : RingBuffer.Allocator} {c : UInt64} {r : RingBuffer} (created : RingBuffer.create allocate c = .ok r)
    (large : blockBytes.toNat ≤ c.toNat) (chainCount : ℕ) :
    ∃ k, c.toNat = 2 ^ k ∧ 1 ≤ k ∧ CaptureAlignment.Inv k
      { threads := { ring := r }, chains := List.replicate chainCount [] } := by
  obtain ⟨k, power, start⟩ := RingBufferSafety.inv_start created
  have positive : 1 ≤ k := by
    by_contra zero
    rw [power, show k = 0 by omega] at large
    exact absurd large (by decide)
  exact ⟨k, power, positive, {
    threads := start
    captures := ⟨trivial, rfl, .nil⟩
    blocks := {
      snapshot := rfl
      full := fun got member => absurd member List.not_mem_nil
      uniform := fun b member => absurd member List.not_mem_nil
      taken := rfl
      handed := fun inbox member => List.eq_of_mem_replicate member } }⟩

/-- What a chain was given is the front of what the ring has kept, in whole
blocks, and at most one ring and one block behind. -/
theorem inbox_of_inv {k : ℕ} {t : Channelizer.State} (held : CaptureAlignment.Inv k t)
    {inbox : List (List UInt8)} (member : inbox ∈ t.chains) :
    inboxPairs inbox <+: t.kept.flatten ∧ blockPairs ∣ (inboxPairs inbox).length ∧
      2 * (t.kept.flatten.length - (inboxPairs inbox).length) ≤ 2 ^ k + blockBytes.toNat := by
  have size : blockBytes.toNat = 2 * blockPairs := rfl
  have uniform := held.blocks.uniform
  have given := held.same_blocks member
  have front : inbox <+: t.blocks ∧ t.blocks.length ≤ inbox.length + 1 := by
    rcases given with rfl | ⟨-, rfl⟩
    · exact ⟨List.prefix_refl _, by omega⟩
    · exact ⟨List.dropLast_prefix _, by rw [List.length_dropLast]; omega⟩
  obtain ⟨⟨later, whole⟩, recent⟩ := front
  have taken := held.blocks.taken
  have stored := held.captures.whole
  have room := held.threads.indexed.room
  have bytesKept : t.threads.accepted.length = 2 * t.kept.flatten.length := by
    rw [stored, length_interleave]
  have bytesTaken : t.threads.returned.length = 2 * (blockPairs * t.blocks.length) := by
    rw [taken, length_flatten_uniform uniform, size, Nat.mul_assoc]
  refine ⟨?_, ⟨_, length_inboxPairs inbox⟩, ?_⟩
  · apply prefix_of_interleave
    rw [interleave_inboxPairs fun b inside => ?_, ← stored]
    · refine List.IsPrefix.trans ?_ held.threads.indexed.delivered
      rw [taken, ← whole, List.flatten_append]
      exact List.prefix_append ..
    · rw [← size]
      exact uniform b (by rw [← whole]; exact List.mem_append_left _ inside)
  · have counted := Nat.mul_le_mul_left blockPairs recent
    rw [length_inboxPairs]
    rw [Nat.mul_add] at counted
    rw [size]
    have positive := Nat.zero_le (2 ^ k)
    generalize 2 ^ k = capacity at room positive ⊢
    omega

/-- Every reachable state has both invariants. -/
theorem reached_inv {allocate : RingBuffer.Allocator} {c : UInt64} {r : RingBuffer} (created : RingBuffer.create allocate c = .ok r)
    (large : blockBytes.toNat ≤ c.toNat) {chains : List (DemodChain F)}
    (distinct : (chains.map (·.cfg.label)).Nodup) {turns : List Monitor.Turn} {s : Monitor F D}
    (reached : turns.foldl Monitor.step (start r chains) = s) :
    Tracks chains s ∧ ∃ k, c.toNat = 2 ^ k ∧ CaptureAlignment.Inv k s.system := by
  obtain ⟨k, power, positive, initial⟩ := started_inv created large chains.length
  have system : s.system = (systemTurns turns).foldl Channelizer.step
      { threads := { ring := r }, chains := List.replicate chains.length [] } := by
    rw [← reached]
    exact run_system _ turns
  refine ⟨reached ▸ (start_tracks r chains).run distinct turns, k, power, ?_⟩
  rw [system]
  exact initial.run positive (systemTurns turns)

/-- A channel has emitted what its chain emits for the front of the stored
stream, and the chain is in the state behind that front. -/
theorem Tracks.direct (held : Tracks chains s) {k : ℕ} (inv : CaptureAlignment.Inv k s.system) {i : ℕ}
    {chain : DemodChain F} (listed : chains[i]? = some chain) : ∃ pairs,
      pairs <+: s.system.kept.flatten ∧ blockPairs ∣ pairs.length ∧
      2 * (s.system.kept.flatten.length - pairs.length) ≤ 2 ^ k + blockBytes.toNat ∧
      s.emitted.filter (eventChannel · = chain.cfg.label) = directEvents chain pairs ∧
      s.chains[i]?.map DemodChain.carried =
        some (chain.process (arrayOf pairs) pairs.length).1.carried := by
  obtain ⟨now, inbox, here, given, demodulated⟩ := held.demodulated i chain listed
  obtain ⟨front, whole, recent⟩ := inbox_of_inv inv (List.mem_of_getElem? given)
  refine ⟨inboxPairs inbox, front, whole, recent, demodulated.events, ?_⟩
  rw [here, Option.map_some, demodulated.carried, (DemodChain.process_run chain _ _).1, pairsOf_arrayOf]

/-- In every order of the threads' memory accesses, deliveries and signals, each
channel has emitted exactly what its chain emits when it is given the front of
the stored stream in one call; the chain is in the state that this call leaves,
and the front is at most one ring and one block short. -/
theorem monitor_refines {allocate : RingBuffer.Allocator} {c : UInt64} {r : RingBuffer} (created : RingBuffer.create allocate c = .ok r)
    (large : blockBytes.toNat ≤ c.toNat) (chains : List (DemodChain F))
    (distinct : (chains.map (·.cfg.label)).Nodup) (turns : List Monitor.Turn) {s : Monitor F D}
    (reached : turns.foldl Monitor.step (start r chains) = s) :
    List.Forall₂ (· <+: ·) s.system.kept s.system.deliveries ∧
      (∀ e ∈ s.emitted, ∃ chain ∈ chains, eventChannel e = chain.cfg.label) ∧
      ∀ (i : ℕ) (chain : DemodChain F), chains[i]? = some chain → ∃ pairs,
        pairs <+: s.system.kept.flatten ∧ blockPairs ∣ pairs.length ∧
        2 * (s.system.kept.flatten.length - pairs.length) ≤ c.toNat + blockBytes.toNat ∧
        s.emitted.filter (eventChannel · = chain.cfg.label) = directEvents chain pairs ∧
        s.chains[i]?.map DemodChain.carried =
          some (chain.process (arrayOf pairs) pairs.length).1.carried := by
  obtain ⟨tracks, k, power, inv⟩ := reached_inv created large distinct reached
  rw [power]
  exact ⟨inv.captures.cut, tracks.named, fun i chain listed => tracks.direct inv listed⟩

/-- The pairs of a test delivery. -/
def ramp (i : ℕ) : UInt8 × UInt8 := (i.toUInt8, 127)

/-- A delivery of one block, which goes through the ring to the chains; `main`
has a turn before and after. -/
def firstTurns (chainCount : ℕ) : List Monitor.Turn :=
  .main :: (round ramp 2048 chainCount).map .system ++ [.main]

/-- After these turns each chain has been given the block. -/
theorem firstTurns_system (chains : List (DemodChain F)) :
    ((firstTurns chains.length).foldl Monitor.step (start blockRing chains : Monitor F D)).system.deliveries =
      [(List.range blockPairs).map ramp] ∧
    ((firstTurns chains.length).foldl Monitor.step (start blockRing chains : Monitor F D)).system.kept =
      [(List.range blockPairs).map ramp] ∧
    ((firstTurns chains.length).foldl Monitor.step (start blockRing chains : Monitor F D)).system.chains =
      List.replicate chains.length [interleave ((List.range blockPairs).map ramp)] ∧
    ((firstTurns chains.length).foldl Monitor.step
      (start blockRing chains : Monitor F D)).system.threads.ring.overruns = 0 := by
  have turns : systemTurns (firstTurns chains.length) = round ramp 2048 chains.length := by
    simp [systemTurns, firstTurns, List.filterMap_map]
  rw [run_system, turns]
  obtain ⟨s, reached, deliveries, kept, -, blocks, inboxes, overruns, -⟩ := round_run ramp 2048 (le_refl 2048) chains.length
  have first : (start blockRing chains : Monitor F D).system =
      { threads := { ring := blockRing }, chains := List.replicate chains.length [] } := rfl
  rw [first, reached, deliveries, kept, inboxes, blocks, overruns]
  exact ⟨rfl, rfl, rfl, rfl⟩

end Chains

/-- The chains that `main` builds have different labels. -/
theorem newChains_built {F : Type} [OfScientific F] [Add F] [Sub F] [Mul F] [Div F] [Neg F] [IntCast F]
    [FloatLib F] : ∃ chains : List (DemodChain F), newChains = .ok chains ∧
    chains.map (·.cfg.label) = (channelTable : List (ChannelDef F)).map ChannelDef.label ∧
    (chains.map (·.cfg.label)).Nodup := by
  let cfg (c : ChannelDef F × ℕ) : DemodChain.Config F :=
    { DemodChain.Config.ofChannel c.1.freqHz c.1.label with channelIdx := c.2 }
  have made : (fun c : ChannelDef F × ℕ => DemodChain.init (cfg c)) =
      fun c => pure (DemodChain.construct (cfg c) (.construct (cfg c).filterConfig)) := by
    funext c
    have odd : ChannelFilter.init (cfg c).filterConfig = .ok (.construct (cfg c).filterConfig) :=
      if_neg (show ¬ 129 % 2 = 0 by decide)
    rw [DemodChain.init, odd]
    rfl
  have labels : (channelTable.zipIdx.map fun c : ChannelDef F × ℕ =>
      DemodChain.construct (cfg c) (.construct (cfg c).filterConfig)).map (·.cfg.label) =
      channelTable.map ChannelDef.label := rfl
  refine ⟨channelTable.zipIdx.map fun c =>
    DemodChain.construct (cfg c) (.construct (cfg c).filterConfig), ?_, labels, ?_⟩
  · rw [newChains, made, List.mapM_pure]
    rfl
  · rw [labels]
    exact (by decide : ["446.006", "446.019", "446.031", "446.044", "446.056", "446.069", "446.081",
      "446.094", "446.106", "446.119", "446.131", "446.144", "446.156", "446.169", "446.181",
      "446.194"].Nodup)

theorem monitor_refines_main : ∃ chains : List (DemodChain Float32), newChains = .ok chains ∧
    ∃ s : Monitor Float32 ℚ, (firstTurns chains.length).foldl Monitor.step (start blockRing chains) = s ∧
      s.system.chains = List.replicate chains.length [interleave ((List.range blockPairs).map ramp)] ∧
      ∀ (i : ℕ) (chain : DemodChain Float32), chains[i]? = some chain → ∃ pairs,
        pairs <+: (List.range blockPairs).map ramp ∧ blockPairs ∣ pairs.length ∧
        2 * (blockPairs - pairs.length) ≤ 4096 + blockBytes.toNat ∧
        s.emitted.filter (eventChannel · = chain.cfg.label) = directEvents chain pairs ∧
        s.chains[i]?.map DemodChain.carried =
          some (chain.process (arrayOf pairs) pairs.length).1.carried := by
  obtain ⟨chains, built, -, distinct⟩ := newChains_built (F := Float32)
  refine ⟨chains, built, _, rfl, ?_, fun i chain listed => ?_⟩
  · exact (firstTurns_system chains).2.2.1
  · obtain ⟨-, -, refines⟩ := monitor_refines (D := ℚ) blockRing_created (by decide) chains distinct
      (firstTurns chains.length) rfl
    obtain ⟨pairs, front, whole, lag, events, carried⟩ := refines i chain listed
    rw [(firstTurns_system chains).2.1, List.flatten_singleton] at front lag
    rw [List.length_map, List.length_range] at lag
    exact ⟨pairs, front, whole, lag, events, carried⟩

end DmrWatchkeeper.MonitorEvents
