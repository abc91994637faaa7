import Brion.Dispatch.Workers
import Mathlib.Order.Interval.Finset.Nat

/-!
# How the frame loop ends

Every rank runs `for( size_t i = startFrame; i < nFrames; ++i )`. Rank 0 ends it by sending
`FRAME(-w)` to each worker; a worker ends it on that message, or when its own counter reaches
`nFrames`, whichever comes first. The counter bounds how many frames a worker can receive, not
how many are sent to it.

**Theorem (`coverage_fails`, `stop_unreceived`, `unset_wait`).** With two ranks and two
frames the check `startFrame > nFrames` passes (`startFrame = 2`), and both loops run zero
times. The run ends with frames 0 and 1 processed by no rank, the worker's channel still
holding `FRAME(0)`, `FRAME(1)` and `FRAME(-1)`, and the worker's last `MPI_Wait` on a
`clientRequest` that no send ever set.

**Theorem (`frames_lost`).** The loss is not confined to that input: with two ranks or more
and fewer than `nRanks * preQueue` frames, worker 1 can process at most
`nFrames - startFrame < preQueue` frames while the first `preQueue` go to it alone, so no
reachable state has every frame processed.

**Theorem (`processed_of_handshake`).** Once rank 0 has stopped and every worker has left on
its terminate message, every frame was processed exactly once, except the frames rank 0 sent
where no rank receives them (line 246 sends to `status.MPI_SOURCE` after `MPI_Wait` has made it
undefined), which no rank processed.

**Theorem (`waits_set`).** With `startFrame < nFrames` every `MPI_Wait( &clientRequest )` of a
worker is on a handle its DONE send set: the unset wait needs `nFrames = startFrame`.
-/

namespace Brion.Dispatch

variable {c : Config} {s : State}

/-- Every rank is past its frame loop. -/
def AllLeft (c : Config) (s : State) : Prop :=
  s.coordPc = .stopped ∧
    ∀ w, 1 ≤ w → w < c.nRanks → (s.workers w).pc = .exited ∨ (s.workers w).pc = .barrier

/-- Every frame of `[0, nFrames)` was processed exactly once. -/
def Covered (c : Config) (s : State) : Prop :=
  ∀ f < c.nFrames, s.processed.countP (fun e => e.2 = f) = 1

/-! ## Two ranks, two frames -/

/-- Two ranks and two frames: `preQueue = 2`, so `startFrame = 2 = nFrames`. -/
def twoByTwo : Config := ⟨2, 2, by decide, by decide⟩

theorem twoByTwo_run :
    run twoByTwo (init twoByTwo) [.coordSelf, .worker 1, .worker 1] =
      some ((((init twoByTwo).sendStops twoByTwo).leaveLoop 1).finishWorker 1) := rfl

theorem twoByTwo_reachable :
    Reachable twoByTwo ((((init twoByTwo).sendStops twoByTwo).leaveLoop 1).finishWorker 1) :=
  (Reachable.init (by decide)).run twoByTwo_run

/-- **Frames are lost.** Not every run that ends processes every frame exactly once. -/
theorem coverage_fails :
    ¬ ∀ s, Reachable twoByTwo s → AllLeft twoByTwo s → Covered twoByTwo s := fun h => by
  have := h _ twoByTwo_reachable ⟨rfl, fun w h1 h2 => by
    obtain rfl : w = 1 := by simp only [twoByTwo] at h2; omega
    exact .inr rfl⟩ 0 (by decide)
  exact absurd this (by decide)

/-- **A worker leaves on its loop bound.** Its channel still holds two frames and its
terminate message at the barrier. -/
theorem stop_unreceived :
    ¬ ∀ s, Reachable twoByTwo s → ∀ w, 1 ≤ w → w < twoByTwo.nRanks →
      (s.workers w).pc = .barrier → (s.workers w).stop = some (-(w : Int)) ∧ s.frameCh w = [] :=
  fun h => absurd (h _ twoByTwo_reachable 1 le_rfl (by decide) rfl).2 (by decide)

/-- **A wait on an unset request.** The worker's last `MPI_Wait( &clientRequest )` is on a
handle no DONE send set. -/
theorem unset_wait :
    ¬ ∀ s, Reachable twoByTwo s → ∀ w, 1 ≤ w → w < twoByTwo.nRanks →
      none ∉ (s.workers w).waits :=
  fun h => h _ twoByTwo_reachable 1 le_rfl (by decide) (by decide)

/-! ## Every run -/

theorem countP_snd_eq_one {l : List (Nat × Nat)} (hnd : (l.map Prod.snd).Nodup) {w f : Nat}
    (h : (w, f) ∈ l) : l.countP (fun e => e.2 = f) = 1 := by
  have := List.count_eq_one_of_mem hnd (List.mem_map_of_mem Prod.snd h)
  rwa [List.count, List.countP_map] at this

/-- **Frames are lost.** With two ranks or more and fewer than `nRanks * preQueue` frames, no
reachable state has every frame processed. -/
theorem frames_lost (h2 : 2 ≤ c.nRanks) (hlt : c.nFrames < c.nRanks * c.preQueue)
    (hs : Reachable c s) : ¬ Covered c s := by
  intro hcov
  have hi := inv_reachable hs
  have hw := winv_reachable hs
  have hQS : c.preQueue ≤ c.startFrame := Nat.le_mul_of_pos_left _ (by omega)
  have hSQ := c.startFrame_add_preQueue
  have hc := hw.counter 1 one_ne_zero
  have hb := hw.budget 1
  -- Each of the first `preQueue` frames went to worker 1 alone, so worker 1 processed it.
  have hsub : (List.range c.preQueue).map (fun f => (1, f)) ⊆ s.processed.filter (·.1 = 1) := by
    intro e he
    obtain ⟨f, hf, rfl⟩ := List.mem_map.mp he
    have hf := List.mem_range.mp hf
    obtain ⟨⟨w, f'⟩, hp, hf'⟩ := List.countP_pos_iff.mp
      (Nat.lt_of_lt_of_eq Nat.zero_lt_one (hcov f (by omega)).symm)
    obtain rfl : f' = f := of_decide_eq_true hf'
    have h1 : (some 1, f') ∈ s.assigned := hw.pre.subset (mem_prequeue.mpr
      ⟨by omega, by rw [Nat.div_eq_of_lt (by simpa using hf)]⟩)
    obtain rfl := hi.dest_of_processed hp h1
    exact List.mem_filter.mpr ⟨hp, by simp⟩
  have hle := ((List.nodup_range _).map (fun a b h => (Prod.mk.inj h).2)).subperm hsub |>.length_le
  rw [List.length_map, List.length_range, ← List.countP_eq_length_filter] at hle
  have : c.startFrame + c.preQueue ≤ (s.workers 1).i := by
    rw [hc]; exact Nat.add_le_add_left hle _
  omega

/-- Two ranks and three frames: `startFrame = 2`, and the worker can loop once. -/
def threeFrames : Config := ⟨2, 3, by decide, by decide⟩

theorem frames_lost_threeFrames :
    ∃ s, Reachable threeFrames s ∧ s.processed = [(0, 2), (1, 0)] ∧
      2 ≤ threeFrames.nRanks ∧ threeFrames.nFrames < threeFrames.nRanks * threeFrames.preQueue ∧
      ¬ Covered threeFrames s :=
  have hs := (Reachable.init (by decide)).run (show run threeFrames (init threeFrames)
      [.coordSelf, .worker 1, .worker 1] =
      some (((init threeFrames).selfProcess.enterIteration threeFrames 1).processFrame 1 0 [1])
    from rfl)
  ⟨_, hs, rfl, by decide, by decide, frames_lost (by decide) (by decide) hs⟩

/-- Once rank 0 has stopped and no worker's channel holds a frame, every frame was processed
exactly once, except those sent astray. -/
theorem processed_of_drained (hs : Reachable c s) (hstop : s.coordPc = .stopped)
    (hch : ∀ w, 1 ≤ w → w < c.nRanks → ∀ k ∈ s.frameCh w, k < 0) :
    ∀ f < c.nFrames,
      s.processed.countP (fun e => e.2 = f) = if (none, f) ∈ s.assigned then 0 else 1 := by
  have hi := inv_reachable hs
  have hwi := winv_reachable hs
  intro f hf
  rw [← hwi.coord_stopped hstop, ← List.mem_range, ← hi.frames, List.mem_map] at hf
  obtain ⟨⟨r, f⟩, ha, rfl⟩ := hf
  dsimp only
  cases r with
  | none => rw [if_pos ha, hi.unprocessed_of_astray ha]
  | some w =>
    rw [if_neg fun h' => Option.noConfusion (hi.dest_unique ha h')]
    have hpos := List.count_pos_iff.mpr ha
    -- A frame given to a rank is processed, or still in its channel, which holds no frame.
    have hp : 0 < s.processed.count (w, f) := by
      by_cases hw0 : w = 0
      · subst hw0; rwa [hi.proc_self]
      · have h0 : (s.frameCh w).count (f : Int) = 0 := List.count_eq_zero.mpr fun hm =>
          absurd (hch w (by omega) (hwi.assigned_lt _ ha w rfl) _ hm) (by omega)
        have hc := hi.chan w f hw0
        have hpr := hi.proc w f hw0
        omega
    exact countP_snd_eq_one (processed_nodup hs) (List.count_pos_iff.mp hp)

/-- **At a clean handshake only the frames sent astray are missing.** Once rank 0 has stopped
and every worker has received its terminate message, every frame was processed exactly once,
except the frames sent where no rank receives them, which no rank processed. -/
theorem processed_of_handshake (hs : Reachable c s) (hstop : s.coordPc = .stopped)
    (hw : ∀ w, 1 ≤ w → w < c.nRanks → (s.workers w).stop.isSome) :
    ∀ f < c.nFrames,
      s.processed.countP (fun e => e.2 = f) = if (none, f) ∈ s.assigned then 0 else 1 :=
  processed_of_drained hs hstop fun w h1 h2 k hk => by
    rw [((winv_reachable hs).stopped w (hw w h1 h2)).2] at hk
    cases hk

/-- **Waits are on set handles once there is a frame to loop over.** -/
theorem waits_set (hlt : c.startFrame < c.nFrames) (hs : Reachable c s) {w : Nat} (h1 : 1 ≤ w)
    (h2 : w < c.nRanks) : none ∉ (s.workers w).waits :=
  ((winv_reachable hs).waits hlt w h1 h2).1

/-! ## Two ranks, five frames -/

theorem fiveFrames_run :
    run fiveFrames (init fiveFrames) [.coordSelf, .coordSelf, .coordSelf, .coordSelf, .worker 1,
      .worker 1, .worker 1, .worker 1, .worker 1, .worker 1, .worker 1] =
      some (((((((((init fiveFrames).selfProcess.selfProcess.selfProcess.sendStops
        fiveFrames).enterIteration fiveFrames 1).processFrame 1 0 [1, -1]).enterIteration
        fiveFrames 1).processFrame 1 1 [-1]).enterIteration fiveFrames 1).receiveStop
        1 (-1) []).finishWorker 1) := rfl

theorem processed_of_handshake_fiveFrames :
    ∃ s, Reachable fiveFrames s ∧ s.coordPc = .stopped ∧
      (∀ w, 1 ≤ w → w < fiveFrames.nRanks → (s.workers w).stop.isSome) ∧
      ∀ f < fiveFrames.nFrames,
        s.processed.countP (fun e => e.2 = f) = if (none, f) ∈ s.assigned then 0 else 1 :=
  have hs := (Reachable.init (by decide)).run fiveFrames_run
  have hw : ∀ w, 1 ≤ w → w < fiveFrames.nRanks → _ := fun w h1 h2 => by
    obtain rfl : w = 1 := by simp only [fiveFrames] at h2; omega
    rfl
  ⟨_, hs, rfl, hw, processed_of_handshake hs rfl hw⟩

theorem waits_set_fiveFrames :
    ∃ s, fiveFrames.startFrame < fiveFrames.nFrames ∧ Reachable fiveFrames s ∧
      1 ≤ 1 ∧ 1 < fiveFrames.nRanks ∧ none ∉ (s.workers 1).waits :=
  have hs := (Reachable.init (by decide)).run fiveFrames_run
  ⟨_, by decide, hs, le_rfl, by decide, waits_set (by decide) hs le_rfl (by decide)⟩

end Brion.Dispatch
