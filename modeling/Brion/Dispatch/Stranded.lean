import Brion.Dispatch.Handshake

/-!
# Stranded frames

A worker's loop stops when its own counter reaches `nFrames`, however many frames it was sent;
rank 0 answers each DONE with a new frame to its source. Whenever rank 0 answers worker 1, the
frames sent to worker 1 outnumber the turns left in its loop.

**Theorem (`frames_stranded`).** For every world of two ranks or more and every number of frames
the check `startFrame > nFrames` lets through, there is a reachable state from which no
continuation of the run processes every frame. In it rank 0 has answered every DONE of worker 1
with a new frame for it until both counters reached `nFrames`; worker 1 then left its loop with
`preQueue` frames still in its channel, and those frames were sent to no other rank.

**Theorem (`redispatch_astray`).** Line 246 sends the next frame to `status.MPI_SOURCE`, and the
`MPI_Wait` on a send request just before it leaves that field undefined. In a run of two ranks
and five frames rank 0 answers the worker's first DONE by sending frame 2 to `MPI_PROC_NULL`:
while rank 0 is still in its loop the worker has one frame sent and unacknowledged instead of
`preQueue`, `requests` holds a live send of frame 2 that no worker was sent, and no continuation
of the run processes frame 2.
-/

namespace Brion.Dispatch

variable {c : Config} {s : State}

/-- A frame still in worker `w`'s channel has been processed by no rank. -/
theorem Inv.unprocessed_of_mem (h : Inv c s) {w f : Nat} (hw : w ≠ 0)
    (hm : (f : Int) ∈ s.frameCh w) : s.processed.countP (fun e => e.2 = f) = 0 := by
  have hc := h.chan w f hw
  have hp := h.proc w f hw
  have h1 := List.count_pos_iff.mpr hm
  have hle := h.count_assigned_le (some w, f)
  refine List.countP_eq_zero.mpr fun ⟨w', f'⟩ he hf => ?_
  obtain rfl : f' = f := of_decide_eq_true hf
  obtain rfl := h.dest_of_processed he (h.assigned_of_mem hw hm)
  have := List.count_pos_iff.mpr he
  omega

/-! ## The steps of the schedule -/

section Steps

variable {w : Nat} (h1 : 1 ≤ w) (h2 : w < c.nRanks)
include h1 h2

theorem step_enter (hpc : (s.workers w).pc = .top) (hi : (s.workers w).i < c.nFrames) :
    step c s (.worker w) = some (s.enterIteration c w) := by
  simp [step, workerStep, h1, h2, hpc, hi]

theorem step_leave (hpc : (s.workers w).pc = .top) (hi : c.nFrames ≤ (s.workers w).i) :
    step c s (.worker w) = some (s.leaveLoop w) := by
  simp [step, workerStep, h1, h2, hpc, Nat.not_lt.mpr hi]

theorem step_work {f : Nat} {rest : List Int} (hpc : (s.workers w).pc = .recv)
    (hch : s.frameCh w = (f : Int) :: rest) :
    step c s (.worker w) = some (s.processFrame w f rest) := by
  simp [step, workerStep, h1, h2, hpc, hch, show ¬ (f : Int) < 0 by omega]

theorem step_finish (hpc : (s.workers w).pc = .exited) :
    step c s (.worker w) = some (s.finishWorker w) := by
  simp [step, workerStep, h1, h2, hpc]

end Steps

/-! ## Rank 0 feeds worker 1 -/

/-- After `k` rounds of the schedule: rank 0 and worker 1 have both counted `k` turns, worker 1
is at its loop test, and its channel holds `preQueue` frames. -/
structure Round (c : Config) (s : State) (k : Nat) : Prop where
  reachable : Reachable c s
  loop : s.coordPc = .loop
  coord_i : s.i = c.startFrame + k
  pc : (s.workers 1).pc = .top
  worker_i : (s.workers 1).i = c.startFrame + k
  length : (s.frameCh 1).length = c.preQueue

theorem Round.head {k : Nat} (hr : Round c s k) :
    ∃ f : Nat, ∃ rest, s.frameCh 1 = (f : Int) :: rest := by
  obtain ⟨x, rest, hch⟩ := List.exists_cons_of_length_pos (hr.length ▸ c.preQueue_pos)
  have hx : 0 ≤ x := (winv_reachable hr.reachable).loop_nonneg hr.loop 1 x
    (by rw [hch]; exact List.mem_cons_self _ _)
  exact ⟨x.toNat, rest, by rw [hch, Int.toNat_of_nonneg hx]⟩

/-- One round: worker 1 processes the head of its channel, and rank 0 answers its DONE with the
next frame for it. -/
theorem Round.next (h2 : 2 ≤ c.nRanks) {k : Nat} (hr : Round c s k)
    (hk : c.startFrame + k < c.nFrames) : ∃ s', Round c s' (k + 1) := by
  have hw : 1 < c.nRanks := h2
  obtain ⟨f, rest, hch⟩ := hr.head
  let s₁ := s.enterIteration c 1
  let s₂ := s₁.processFrame 1 f rest
  have e₁ : step c s (.worker 1) = some s₁ :=
    step_enter le_rfl hw hr.pc (by rw [hr.worker_i]; exact hk)
  have e₂ : step c s₁ (.worker 1) = some s₂ := step_work le_rfl hw rfl hch
  have hd : (1, f) ∈ s₂.doneCh := List.mem_append_right _ (List.mem_singleton_self _)
  have e₃ : step c s₂ (.coordRecv 1 f (.rank 1)) = some (s₂.redispatch 1 f (.rank 1)) := by
    simp only [step, if_pos (show s₂.coordPc = .loop ∧ s₂.i < c.nFrames ∧ 1 < c.nRanks ∧
      (1, f) ∈ s₂.doneCh ∧ (Dest.rank 1).valid c from
        ⟨hr.loop, hr.coord_i ▸ hk, hw, hd, decide_eq_true hw⟩)]
  refine ⟨s₂.redispatch 1 f (.rank 1),
    ⟨((hr.reachable.step _ e₁).step _ e₂).step _ e₃, hr.loop, ?_, rfl, ?_, ?_⟩⟩
  · show s.i + 1 = _; rw [hr.coord_i]; rfl
  · show (s.workers 1).i + 1 = _; rw [hr.worker_i]; rfl
  · rw [State.redispatch_frameCh, if_pos rfl]
    show (Function.update s.frameCh 1 rest 1 ++ _).length = _
    rw [Function.update_same, List.length_append, List.length_singleton, ← hr.length, hch,
      List.length_cons]

theorem round_exists (h2 : 2 ≤ c.nRanks) (hS : c.startFrame ≤ c.nFrames) :
    ∀ k, c.startFrame + k ≤ c.nFrames → ∃ s, Round c s k
  | 0, _ => ⟨init c, .init hS, rfl, rfl, rfl, rfl, init_frameCh_length le_rfl h2⟩
  | k + 1, hk => by
    obtain ⟨s, hr⟩ := round_exists h2 hS k (by omega)
    exact hr.next h2 (by omega)

/-! ## Worker 1 leaves with frames in its channel -/

/-- Worker `w` waits at the barrier with frame `f` in its channel, after rank 0 stopped. -/
structure Stuck (c : Config) (w f : Nat) (s : State) : Prop where
  reachable : Reachable c s
  stopped : s.coordPc = .stopped
  barrier : (s.workers w).pc = .barrier
  mem : (f : Int) ∈ s.frameCh w

theorem Stuck.step {w f : Nat} (hs : Stuck c w f s) {a : Act} {s' : State}
    (h : step c s a = some s') : Stuck c w f s' := by
  suffices
      s'.coordPc = .stopped ∧ (s'.workers w).pc = .barrier ∧ (f : Int) ∈ s'.frameCh w from
    ⟨hs.reachable.step a h, this.1, this.2.1, this.2.2⟩
  cases moves_of_step h with
  | self hl _ | stop hl _ | serve _ _ _ hl _ _ _ => exact absurd (hs.stopped.symm.trans hl) nofun
  | enter w' _ _ hpc _ | leave w' _ _ hpc _ | finish w' _ _ hpc | fail w' _ _ hpc _ =>
    have e : w ≠ w' := fun e => by subst e; rw [hs.barrier] at hpc; cases hpc
    refine ⟨hs.stopped, ?_, hs.mem⟩
    simp only [State.enterIteration, State.leaveLoop, State.finishWorker, State.failWorker,
      State.setWorker, Function.update_noteq e, hs.barrier]
  | work w' _ _ _ _ hpc _ | quit w' _ _ _ _ hpc _ _ =>
    have e : w ≠ w' := fun e => by subst e; rw [hs.barrier] at hpc; cases hpc
    refine ⟨hs.stopped, ?_, ?_⟩ <;>
      simp only [State.processFrame, State.receiveStop, State.setWorker, Function.update_noteq e,
        hs.barrier, hs.mem]

theorem Stuck.run {w f : Nat} (hw : w ≠ 0) (hf : f < c.nFrames) :
    ∀ {as : List Act} {s s' : State}, Stuck c w f s → run c s as = some s' → ¬ Covered c s'
  | [], _, _, hs, h => by
    cases h
    intro hcov
    have := hcov f hf
    rw [(inv_reachable hs.reachable).unprocessed_of_mem hw hs.mem] at this
    cases this
  | a :: as, _, _, hs, h => by
    simp only [Dispatch.run, Option.bind_eq_some] at h
    obtain ⟨t, ht, h⟩ := h
    exact Stuck.run hw hf (hs.step ht) h

/-- **Some schedule loses frames, for every input.** With two ranks or more and any number of
frames that passes the check, some reachable state has frames that no continuation of the run
processes. -/
theorem frames_stranded (h2 : 2 ≤ c.nRanks) (hS : c.startFrame ≤ c.nFrames) :
    ∃ s, Reachable c s ∧ ∀ as s', run c s as = some s' → ¬ Covered c s' := by
  have hw : 1 < c.nRanks := h2
  obtain ⟨s, hr⟩ := round_exists h2 hS (c.nFrames - c.startFrame) (by omega)
  obtain ⟨f, rest, hch⟩ := hr.head
  have hi : s.i = c.nFrames := by rw [hr.coord_i]; omega
  have hinv := inv_reachable hr.reachable
  have hf : f < c.nFrames := hi ▸ hinv.lt_of_assigned
    (hinv.assigned_of_mem one_ne_zero (hch ▸ List.mem_cons_self _ _))
  let s₁ := s.sendStops c
  let s₂ := s₁.leaveLoop 1
  have e₁ : step c s .coordSelf = some s₁ := by
    simp only [step, if_pos hr.loop, if_neg (show ¬ s.i < c.nFrames by omega)]
  have e₂ : step c s₁ (.worker 1) = some s₂ :=
    step_leave le_rfl hw hr.pc (by rw [show (s₁.workers 1).i = _ from hr.worker_i]; omega)
  have e₃ : step c s₂ (.worker 1) = some (s₂.finishWorker 1) := step_finish le_rfl hw rfl
  have hs := ((hr.reachable.step _ e₁).step _ e₂).step _ e₃
  refine ⟨_, hs, fun as s' h => Stuck.run one_ne_zero hf ⟨hs, rfl, rfl, ?_⟩ h⟩
  show (f : Int) ∈ (if 1 ≤ 1 ∧ 1 < c.nRanks then s.frameCh 1 ++ [-1] else s.frameCh 1)
  rw [if_pos ⟨le_rfl, hw⟩, hch]
  exact List.mem_cons_self _ _

theorem frames_stranded_fiveFrames :
    2 ≤ fiveFrames.nRanks ∧ fiveFrames.startFrame ≤ fiveFrames.nFrames ∧
      ∃ s, Reachable fiveFrames s ∧
        ∀ as s', run fiveFrames s as = some s' → ¬ Covered fiveFrames s' :=
  ⟨by decide, by decide, frames_stranded (by decide) (by decide)⟩

/-! ## Frames sent astray -/

theorem Moves.assigned_isPrefix {s' : State} (hm : Moves c s s') : s.assigned <+: s'.assigned := by
  cases hm with
  | self | serve => exact List.prefix_append _ _
  | stop | enter | leave | work | quit | finish | fail => exact List.prefix_refl _

theorem run_assigned_isPrefix :
    ∀ {as : List Act} {s s' : State}, run c s as = some s' → s.assigned <+: s'.assigned
  | [], _, _, h => by cases h; exact List.prefix_refl _
  | a :: as, _, _, h => by
    simp only [Dispatch.run, Option.bind_eq_some] at h
    obtain ⟨t, ht, h⟩ := h
    exact (moves_of_step ht).assigned_isPrefix.trans (run_assigned_isPrefix h)

/-- A frame sent where no rank receives it is processed in no continuation of the run. -/
theorem unprocessed_of_astray_run (hs : Reachable c s) {f : Nat} (ha : (none, f) ∈ s.assigned)
    {as : List Act} {s' : State} (h : run c s as = some s') :
    s'.processed.countP (fun e => e.2 = f) = 0 :=
  (inv_reachable (hs.run h)).unprocessed_of_astray ((run_assigned_isPrefix h).subset ha)

/-- **Rank 0 can send a frame where no rank receives it.** With two ranks and five frames, rank 0
answers the worker's DONE of frame 0 by sending frame 2 to `MPI_PROC_NULL`. In its loop, the
worker then has one unacknowledged frame instead of `preQueue`, the send of frame 2 is live in
`requests`, and no continuation of the run processes frame 2. -/
theorem redispatch_astray :
    ∃ s, Reachable fiveFrames s ∧ s.coordPc = .loop ∧ s.acked = [(1, 0)] ∧ unacked s 1 = [1] ∧
      s.requests 2 = some ⟨.procNull, 2⟩ ∧
      ∀ as s', run fiveFrames s as = some s' → s'.processed.countP (fun e => e.2 = 2) = 0 :=
  have hs := (Reachable.init (by decide)).run fiveFrames_astray_run
  ⟨_, hs, rfl, rfl, by decide, rfl, fun _ _ h => unprocessed_of_astray_run hs (by decide) h⟩

end Brion.Dispatch
