import Brion.Dispatch.Handshake
import Mathlib.Algebra.Group.Int

/-!
# Frame indices as `int`

The dispatcher counts frames in `size_t` and sends them as `int`:

    const int preQueue = std::max( 2, int( nFrames>>9 ));
    const size_t startFrame = (nRanks-1) * preQueue;
    const int frame = (i-1) * preQueue + j;               // pre-queue
    int frame = i;                                        // loop
    MPI_Isend( &i, 1, MPI_INT, ... );                     // the low four bytes of i

A conversion to `int` keeps the value modulo `2 ^ 32` (`toInt32`), one to `size_t` modulo
`2 ^ 64` (`toSize`); a signed product that overflows is taken modulo `2 ^ 32`, as the
hardware computes it.

`frame < 0` ends a rank's loop. Below `2 ^ 31` every index is exact, so a real frame never
looks like the terminate message.

**Theorem (`frame_index_exact`).** When `nFrames < 2 ^ 31` and the `startFrame` check passes,
`preQueue`, `startFrame`, every pre-queue index and every loop index are the natural numbers
the dispatch model uses.

**Theorem (`dispatch_frames_exact`).** The dispatch model is stated for fewer than `2 ^ 31`
frames (`Dispatch.Config.frames_lt`): in every reachable state rank 0's counter, every frame it
gave out and every live send in `requests` carry their own `int` values.

**Theorem (`soloFrames_eq`, `frame_index_wraps`).** Alone, rank 0 processes the frames below
`min nFrames (2 ^ 31)` and no more: with `2 ^ 32` frames, the second half is never processed.
-/

namespace Brion

/-- Conversion to `int`: two's complement, 32 bits. -/
def toInt32 (n : Int) : Int := (n + 2 ^ 31) % 2 ^ 32 - 2 ^ 31

/-- Conversion to `size_t`. -/
def toSize (n : Int) : Nat := (n % 2 ^ 64).toNat

/-- `preQueue = std::max( 2, int( nFrames>>9 ))`. -/
def preQueueInt (nFrames : Nat) : Int := max 2 (toInt32 (nFrames >>> 9 : Nat))

/-- `startFrame = (nRanks-1) * preQueue`: an `int` product stored in a `size_t`. -/
def startFrameSize (nRanks nFrames : Nat) : Nat :=
  toSize (toInt32 ((nRanks - 1 : Int) * preQueueInt nFrames))

/-- Rank 0's frame loop when it runs alone, from `i` on: `int frame = i`, stop on a negative
frame, otherwise process it. `fuel` bounds the iterations. -/
def soloLoop (nFrames : Nat) : Nat → Nat → List Int
  | 0, _ => []
  | fuel + 1, i =>
    if i < nFrames then
      if toInt32 i < 0 then [] else toInt32 i :: soloLoop nFrames fuel (i + 1)
    else []

/-- The frames a single rank processes: `startFrame = 0`, at most `nFrames` iterations. -/
def soloFrames (nFrames : Nat) : List Int := soloLoop nFrames nFrames 0

theorem toInt32_of_lt {n : Nat} (h : n < 2 ^ 31) : toInt32 n = n := by
  unfold toInt32
  rw [Int.emod_eq_of_lt (by omega) (by omega)]
  omega

theorem toInt32_two_pow_31 : toInt32 ((2 ^ 31 : Nat) : Int) = -2 ^ 31 := rfl

theorem toSize_of_nonneg {n : Nat} (h : n < 2 ^ 64) : toSize n = n := by
  unfold toSize
  rw [Int.emod_eq_of_lt (by omega) (by omega)]
  rfl

/-! ## Exact below `2 ^ 31` -/

section Exact

variable {c : Dispatch.Config}

theorem preQueueInt_eq (hF : c.nFrames < 2 ^ 31) : preQueueInt c.nFrames = c.preQueue := by
  have hsh : c.nFrames >>> 9 < 2 ^ 31 := by
    rw [Nat.shiftRight_eq_div_pow]; omega
  simp only [preQueueInt, toInt32_of_lt hsh, Dispatch.Config.preQueue]; omega

theorem startFrameSize_eq (hS : c.startFrame ≤ c.nFrames) (hF : c.nFrames < 2 ^ 31) :
    startFrameSize c.nRanks c.nFrames = c.startFrame := by
  have h : ((c.nRanks - 1 : Int) * preQueueInt c.nFrames) = c.startFrame := by
    rw [preQueueInt_eq hF, Dispatch.Config.startFrame, Int.ofNat_mul, Int.ofNat_sub c.one_le]
    rfl
  rw [startFrameSize, h, toInt32_of_lt (by omega), toSize_of_nonneg (by omega)]

/-- **The `int` arithmetic is exact.** With fewer than `2 ^ 31` frames and the `startFrame`
check passed, the `int` values are the frame numbers of the dispatch model. -/
theorem frame_index_exact (hS : c.startFrame ≤ c.nFrames) (hF : c.nFrames < 2 ^ 31) :
    preQueueInt c.nFrames = c.preQueue ∧ startFrameSize c.nRanks c.nFrames = c.startFrame ∧
      (∀ w j : Nat, 1 ≤ w → w < c.nRanks → j < c.preQueue →
        toInt32 ((w - 1 : Int) * preQueueInt c.nFrames + j) = ((w - 1) * c.preQueue + j : Nat)) ∧
      ∀ i < c.nFrames, toInt32 i = i := by
  have hQ := preQueueInt_eq hF
  have hpos := c.preQueue_pos
  refine ⟨hQ, startFrameSize_eq hS hF, fun w j hw hwn hj => ?_,
    fun i hi => toInt32_of_lt (by omega)⟩
  · have hlt : (w - 1) * c.preQueue + j < c.startFrame := calc
      (w - 1) * c.preQueue + j < (w - 1) * c.preQueue + c.preQueue := by omega
      _ = w * c.preQueue := by rw [← Nat.succ_mul, Nat.succ_eq_add_one, Nat.sub_add_cancel hw]
      _ ≤ c.startFrame := Nat.mul_le_mul_right _ (by omega)
    have harg : (w - 1 : Int) * c.preQueue + j = ((w - 1) * c.preQueue + j : Nat) := by
      rw [Int.ofNat_add, Int.ofNat_mul, Int.ofNat_sub hw]; rfl
    rw [hQ, harg, toInt32_of_lt (by omega)]

theorem frame_index_exact_three_ranks :
    (⟨3, 1024, by decide, by decide⟩ : Dispatch.Config).startFrame ≤ 1024 ∧ 1024 < 2 ^ 31 ∧
      preQueueInt 1024 = 2 ∧ startFrameSize 3 1024 = 4 :=
  have hS : (⟨3, 1024, by decide, by decide⟩ : Dispatch.Config).startFrame ≤ 1024 := by decide
  have h := frame_index_exact hS (by decide)
  ⟨hS, by decide, h.1, h.2.1⟩

theorem Dispatch.Reachable.startFrame_le {s : Dispatch.State} (hs : Dispatch.Reachable c s) :
    c.startFrame ≤ c.nFrames := by
  induction hs with
  | init h => exact h
  | step _ _ _ ih => exact ih

/-- **The dispatch model's frame numbers are the code's `int`s.** In every reachable state
`preQueue` and `startFrame` are exact, and rank 0's counter `i`, sent as `MPI_INT` from `&i`,
every frame rank 0 gave out, and the payload of every live send in `requests` are their own
`int` values, never negative: no frame is taken for a terminate message. -/
theorem dispatch_frames_exact {s : Dispatch.State} (hs : Dispatch.Reachable c s) :
    preQueueInt c.nFrames = c.preQueue ∧ startFrameSize c.nRanks c.nFrames = c.startFrame ∧
      toInt32 s.i = s.i ∧ (∀ e ∈ s.assigned, toInt32 e.2 = e.2) ∧
      ∀ (f : Nat) (h : Dispatch.Handle), s.requests f = some h →
        toInt32 h.payload = h.payload ∧ 0 ≤ h.payload := by
  have hF := c.frames_lt
  have hi := Dispatch.inv_reachable hs
  have hle := (Dispatch.winv_reachable hs).coord_le
  refine ⟨preQueueInt_eq hF, startFrameSize_eq hs.startFrame_le hF, toInt32_of_lt (by omega),
    fun e he => toInt32_of_lt (by have := hi.lt_of_assigned he; omega), fun f h hr => ?_⟩
  obtain ⟨hp, ha⟩ := hi.handle f h hr
  have := hi.lt_of_assigned ha
  rw [hp, toInt32_of_lt (by omega)]
  exact ⟨rfl, Int.ofNat_nonneg f⟩

theorem dispatch_frames_exact_fiveFrames :
    ∃ s, Dispatch.Reachable Dispatch.fiveFrames s ∧ s.i = 3 ∧
      (preQueueInt Dispatch.fiveFrames.nFrames = Dispatch.fiveFrames.preQueue ∧
        startFrameSize Dispatch.fiveFrames.nRanks Dispatch.fiveFrames.nFrames =
          Dispatch.fiveFrames.startFrame ∧
        toInt32 s.i = s.i ∧ (∀ e ∈ s.assigned, toInt32 e.2 = e.2) ∧
        ∀ (f : Nat) (h : Dispatch.Handle), s.requests f = some h →
          toInt32 h.payload = h.payload ∧ 0 ≤ h.payload) :=
  have hs := (Dispatch.Reachable.init (by decide)).run Dispatch.fiveFrames_astray_run
  ⟨_, hs, rfl, dispatch_frames_exact hs⟩

end Exact

/-! ## One rank, beyond `2 ^ 31` frames -/

theorem soloLoop_eq (nFrames : Nat) : ∀ fuel i, nFrames ≤ i + fuel → i ≤ 2 ^ 31 →
    soloLoop nFrames fuel i = (List.range' i (min nFrames (2 ^ 31) - i)).map Int.ofNat
  | 0, i, h, _ => by
    rw [show min nFrames (2 ^ 31) - i = 0 by omega]; rfl
  | fuel + 1, i, h, hi => by
    rw [soloLoop]
    by_cases hn : i < nFrames
    · rw [if_pos hn]
      by_cases h31 : i < 2 ^ 31
      · rw [toInt32_of_lt h31, if_neg (by omega), soloLoop_eq nFrames fuel (i + 1) (by omega) h31,
          show min nFrames (2 ^ 31) - i = min nFrames (2 ^ 31) - (i + 1) + 1 by omega,
          List.range'_succ]
        rfl
      · obtain rfl : i = 2 ^ 31 := by omega
        rw [toInt32_two_pow_31, if_pos (by decide), show min nFrames (2 ^ 31) - 2 ^ 31 = 0 by omega]
        rfl
    · rw [if_neg hn, show min nFrames (2 ^ 31) - i = 0 by omega]
      rfl

/-- **A single rank stops at `2 ^ 31`.** It processes the frames below `min nFrames (2 ^ 31)`,
in order. -/
theorem soloFrames_eq (nFrames : Nat) :
    soloFrames nFrames = (List.range (min nFrames (2 ^ 31))).map Int.ofNat := by
  rw [soloFrames, soloLoop_eq nFrames nFrames 0 (by omega) (by omega), List.range_eq_range',
    Nat.sub_zero]

/-- One rank, `2 ^ 32` frames (`start = 0`, `end = 2^32`, `step = 1`): the check passes, and
frame `2 ^ 31` is seen as `-2 ^ 31`, ending the loop with half the frames unprocessed. -/
theorem frame_index_wraps :
    startFrameSize 1 (2 ^ 32) ≤ 2 ^ 32 ∧ toInt32 ((2 ^ 31 : Nat) : Int) < 0 ∧
      ((2 ^ 31 : Nat) : Int) ∉ soloFrames (2 ^ 32) ∧ (soloFrames (2 ^ 32)).length = 2 ^ 31 := by
  have h : soloFrames (2 ^ 32) = (List.range' 0 (2 ^ 31)).map Int.ofNat :=
    soloLoop_eq _ _ 0 (by omega) (by omega)
  refine ⟨by decide, by decide, ?_, ?_⟩ <;> rw [h]
  · simp only [List.mem_map, List.mem_range', Int.ofNat_eq_coe, Int.ofNat_inj]; omega
  · simp

end Brion
