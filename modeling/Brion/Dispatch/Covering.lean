import Brion.Dispatch.Stranded
import Brion.Dispatch.Order
import Brion.Dispatch.Progress

/-!
# A complete run that covers every frame

`frames_lost` shows that no run covers every frame when `nFrames < nRanks * preQueue`: a
worker's loop ends before it has taken its pre-queue. That bound is exact.

**Theorem (`covering_run_exists`).** With one rank, or with `nRanks * preQueue ≤ nFrames`, some
run processes every frame exactly once and ends with rank 0 stopped and every worker at the
barrier, where no action is enabled. In it rank 0 keeps every frame of its loop and sends the
terminate messages, and then each worker in turn processes its pre-queue and leaves its loop.

**Theorem (`stop_received_iff`).** With two ranks or more, a worker receives its terminate
message in some run exactly when `nRanks * preQueue < nFrames`. The message is the last of its
channel (`WInv.last_neg`), the channel is a queue (`OInv`), and the worker's pre-queue is ahead
of it; with fewer frames the worker's loop ends before it reaches the message.

The run is built in three stages, each an induction on the moves left: rank 0's turns
(`coord_stage`), the turns of one worker (`worker_stage`), and the workers one after another
(`Drained`). `Only w` says that a stretch of the run moved worker `w` alone.
-/

namespace Brion.Dispatch

variable {c : Config} {s : State}

theorem step_quit {w : Nat} (h1 : 1 ≤ w) (h2 : w < c.nRanks) {k : Int} {rest : List Int}
    (hpc : (s.workers w).pc = .recv) (hch : s.frameCh w = k :: rest) (hk : k < 0) :
    step c s (.worker w) = some (s.receiveStop w k rest) := by
  simp [step, workerStep, h1, h2, hpc, hch, hk]

theorem step_eq_none_of_finished (hstop : s.coordPc = .stopped)
    (hb : ∀ w, 1 ≤ w → w < c.nRanks → (s.workers w).pc = .barrier) (a : Act) :
    step c s a = none := by
  cases a with
  | coordSelf | coordRecv => simp [step, hstop]
  | worker w =>
    simp only [step]
    split_ifs with h
    · simp [workerStep, hb w h.1 h.2]
    · rfl
  | fail w =>
    simp only [step]
    split_ifs with h
    · exact absurd (h.2.2.1.symm.trans (hb w h.1 h.2.1)) nofun
    · rfl

/-- Once rank 0 has stopped, no worker's channel holds a frame and no frame went astray,
every frame was processed exactly once. -/
theorem covered_of_drained (hs : Reachable c s) (hstop : s.coordPc = .stopped)
    (hch : ∀ w, 1 ≤ w → w < c.nRanks → ∀ k ∈ s.frameCh w, k < 0)
    (hna : ∀ f, (none, f) ∉ s.assigned) : Covered c s := fun f hf => by
  rw [processed_of_drained hs hstop hch f hf, if_neg (hna f)]

/-! ## Rank 0 keeps every frame -/

theorem coord_stage (hS : c.startFrame ≤ c.nFrames) :
    ∀ k, c.startFrame + k ≤ c.nFrames → ∃ s, Reachable c s ∧ s.coordPc = .loop ∧
      s.i = c.startFrame + k ∧ s.workers = (init c).workers ∧ s.frameCh = (init c).frameCh ∧
      ∀ f, (none, f) ∉ s.assigned
  | 0, _ => ⟨init c, .init hS, rfl, rfl, rfl, rfl, fun f h => by simp [init, mem_prequeue] at h⟩
  | k + 1, hk => by
    obtain ⟨s, hs, hl, hi, hw, hch, hna⟩ := coord_stage hS k (by omega)
    have e : step c s .coordSelf = some s.selfProcess := by
      simp only [step, if_pos hl, if_pos (show s.i < c.nFrames by omega)]
    refine ⟨_, hs.step _ e, hl, by show s.i + 1 = _; omega, hw, hch, fun f h => ?_⟩
    simp only [State.selfProcess, List.mem_append, List.mem_singleton, Prod.mk.injEq,
      reduceCtorEq, false_and, or_false] at h
    exact hna f h

/-! ## One worker takes its pre-queue -/

/-- Between `s` and `s'` only worker `w` moved. -/
structure Only (w : Nat) (s s' : State) : Prop where
  coordPc : s'.coordPc = s.coordPc
  assigned : s'.assigned = s.assigned
  workers : ∀ w', w' ≠ w → s'.workers w' = s.workers w'
  frameCh : ∀ w', w' ≠ w → s'.frameCh w' = s.frameCh w'

namespace Only

variable {w : Nat}

theorem trans {s₁ s₂ s₃ : State} (h₁ : Only w s₁ s₂) (h₂ : Only w s₂ s₃) : Only w s₁ s₃ :=
  ⟨h₂.coordPc.trans h₁.coordPc, h₂.assigned.trans h₁.assigned,
    fun w' e => (h₂.workers w' e).trans (h₁.workers w' e),
    fun w' e => (h₂.frameCh w' e).trans (h₁.frameCh w' e)⟩

theorem setWorker {wk : Worker} : Only w s (s.setWorker w wk) :=
  ⟨rfl, rfl, fun _ e => Function.update_noteq e _ _, fun _ _ => rfl⟩

theorem processFrame {f : Nat} {rest : List Int} : Only w s (s.processFrame w f rest) :=
  ⟨rfl, rfl, fun _ e => Function.update_noteq e _ _, fun _ e => Function.update_noteq e _ _⟩

theorem receiveStop {k : Int} {rest : List Int} : Only w s (s.receiveStop w k rest) :=
  ⟨rfl, rfl, fun _ e => Function.update_noteq e _ _, fun _ e => Function.update_noteq e _ _⟩

end Only

section Worker

variable {w : Nat} (h1 : 1 ≤ w) (h2 : w < c.nRanks)
include h1 h2

theorem worker_last (hs : Reachable c s) (hpc : (s.workers w).pc = .top)
    (hch : s.frameCh w = [-(w : Int)]) : ∃ s', Reachable c s' ∧ Only w s s' ∧
      (s'.workers w).pc = .barrier ∧ (∀ k ∈ s'.frameCh w, k < 0) ∧
      ((s.workers w).i < c.nFrames → (s'.workers w).stop.isSome) := by
  by_cases hi : (s.workers w).i < c.nFrames
  · let s₁ := s.enterIteration c w
    let s₂ := s₁.receiveStop w (-(w : Int)) []
    have e₁ := step_enter h1 h2 hpc hi
    have e₂ : step c s₁ (.worker w) = some s₂ :=
      step_quit h1 h2 (by simp [s₁, State.enterIteration, State.setWorker]) hch (by omega)
    have e₃ := step_finish (s := s₂) h1 h2 (by simp [s₂, State.receiveStop, State.setWorker])
    refine ⟨_, ((hs.step _ e₁).step _ e₂).step _ e₃,
      Only.setWorker.trans (Only.receiveStop.trans Only.setWorker), ?_, ?_, fun _ => ?_⟩
    · simp [State.finishWorker, State.setWorker]
    · simp [s₂, State.finishWorker, State.receiveStop, State.setWorker]
    · simp [s₂, s₁, State.finishWorker, State.receiveStop, State.setWorker]
  · let s₁ := s.leaveLoop w
    have e₁ := step_leave h1 h2 hpc (Nat.le_of_not_lt hi)
    have e₂ := step_finish (s := s₁) h1 h2 (by simp [s₁, State.leaveLoop, State.setWorker])
    refine ⟨_, (hs.step _ e₁).step _ e₂, Only.setWorker.trans Only.setWorker, ?_, ?_,
      fun h => absurd h hi⟩
    · simp [State.finishWorker, State.setWorker]
    · simp only [s₁, State.finishWorker, State.leaveLoop, State.setWorker, hch,
        List.mem_singleton]
      omega

theorem worker_stage {pre : List Int} (hpre : ∀ k ∈ pre, 0 ≤ k)
    (hlen : c.startFrame + pre.length ≤ c.nFrames) :
    ∀ n j s, j + n = pre.length → Reachable c s → (s.workers w).pc = .top →
      (s.workers w).i = c.startFrame + j → s.frameCh w = pre.drop j ++ [-(w : Int)] →
      ∃ s', Reachable c s' ∧ Only w s s' ∧ (s'.workers w).pc = .barrier ∧
        (∀ k ∈ s'.frameCh w, k < 0) ∧
        (c.startFrame + pre.length < c.nFrames → (s'.workers w).stop.isSome)
  | 0, j, s, hj, hs, hpc, hi, hch => by
    obtain ⟨s', hs', ho, hb, hneg, hst⟩ := worker_last h1 h2 hs hpc (by
      rw [hch, List.drop_eq_nil_of_le (by omega), List.nil_append])
    exact ⟨s', hs', ho, hb, hneg, fun h => hst (by omega)⟩
  | n + 1, j, s, hj, hs, hpc, hi, hch => by
    have hlt : j < pre.length := by omega
    have hx := hpre _ (List.getElem_mem hlt)
    let rest := pre.drop (j + 1) ++ [-(w : Int)]
    let s₁ := s.enterIteration c w
    let s₂ := s₁.processFrame w pre[j].toNat rest
    have e₁ := step_enter h1 h2 hpc (by omega)
    have e₂ : step c s₁ (.worker w) = some s₂ := step_work h1 h2
      (by simp [s₁, State.enterIteration, State.setWorker])
      (by
        rw [Int.toNat_of_nonneg hx]
        exact hch.trans (by rw [List.drop_eq_getElem_cons hlt]; rfl))
    obtain ⟨s', hs', ho, hb⟩ := worker_stage hpre hlen n (j + 1) s₂ (by omega)
      ((hs.step _ e₁).step _ e₂)
      (by simp [s₂, s₁, State.processFrame, State.enterIteration, State.setWorker])
      (by simp [s₂, s₁, State.processFrame, State.enterIteration, State.setWorker, hi]; omega)
      (by simp [s₂, State.processFrame, rest])
    exact ⟨s', hs', (Only.setWorker.trans Only.processFrame).trans ho, hb⟩

end Worker

/-! ## The workers one after another -/

/-- Rank 0 has stopped, having sent no frame astray; the workers below `m` are at the barrier
with no frame in their channel, and the others have not moved since rank 0 sent the terminate
messages. -/
structure Drained (c : Config) (m : Nat) (s : State) : Prop where
  reachable : Reachable c s
  stopped : s.coordPc = .stopped
  astray : ∀ f, (none, f) ∉ s.assigned
  done : ∀ w, 1 ≤ w → w < m → (s.workers w).pc = .barrier ∧ (∀ k ∈ s.frameCh w, k < 0) ∧
    (c.nRanks * c.preQueue < c.nFrames → (s.workers w).stop.isSome)
  fresh : ∀ w, m ≤ w → w < c.nRanks → (s.workers w).pc = .top ∧
    (s.workers w).i = c.startFrame ∧ s.frameCh w = (init c).frameCh w ++ [-(w : Int)]

theorem drained_one (hS : c.startFrame ≤ c.nFrames) : ∃ s, Drained c 1 s := by
  obtain ⟨s, hs, hl, hi, hw, hch, hna⟩ := coord_stage hS (c.nFrames - c.startFrame) (by omega)
  have e : step c s .coordSelf = some (s.sendStops c) := by
    simp only [step, if_pos hl, if_neg (show ¬ s.i < c.nFrames by omega)]
  refine ⟨_, hs.step _ e, rfl, hna, fun w h h' => absurd h' (by omega), fun w h1 h2 => ?_⟩
  simp only [State.sendStops, hw, hch, if_pos (And.intro h1 h2)]
  exact ⟨rfl, rfl, trivial⟩

theorem Drained.next {m : Nat} (h : Drained c m s) (h1 : 1 ≤ m) (hm : m < c.nRanks)
    (hQ : c.startFrame + c.preQueue ≤ c.nFrames) : ∃ s', Drained c (m + 1) s' := by
  obtain ⟨hpc, hi, hch⟩ := h.fresh m le_rfl hm
  have hlen := init_frameCh_length h1 hm
  have hsum := c.startFrame_add_preQueue
  obtain ⟨s', hs', ho, hb, hneg, hst⟩ := worker_stage h1 hm
    (init_frameCh_nonneg (c := c) (w := m)) (by omega)
    _ 0 s (Nat.zero_add _) h.reachable hpc hi (by rw [hch, List.drop_zero])
  refine ⟨s', hs', ho.coordPc.trans h.stopped, ho.assigned ▸ h.astray, fun w hw1 hw2 => ?_,
    fun w hw1 hw2 => ?_⟩
  · by_cases e : w = m
    · subst e; exact ⟨hb, hneg, fun h => hst (by omega)⟩
    · rw [ho.workers w e, ho.frameCh w e]; exact h.done w hw1 (by omega)
  · rw [ho.workers w (by omega), ho.frameCh w (by omega)]; exact h.fresh w (by omega) hw2

theorem drained_exists (hS : c.startFrame ≤ c.nFrames)
    (hQ : 2 ≤ c.nRanks → c.startFrame + c.preQueue ≤ c.nFrames) :
    ∀ n, 1 + n ≤ c.nRanks → ∃ s, Drained c (1 + n) s
  | 0, _ => drained_one hS
  | n + 1, hn => by
    obtain ⟨s, h⟩ := drained_exists hS hQ n (by omega)
    exact h.next (by omega) (by omega) (hQ (by omega))

/-- **Some complete run covers every frame.** With one rank, or with at least
`nRanks * preQueue` frames, some run processes every frame exactly once and ends with rank 0
stopped and every worker at the barrier, where no action is enabled. -/
theorem covering_run_exists (h : c.nRanks = 1 ∨ c.nRanks * c.preQueue ≤ c.nFrames) :
    ∃ s, Reachable c s ∧ Covered c s ∧ s.coordPc = .stopped ∧
      (∀ w, 1 ≤ w → w < c.nRanks → (s.workers w).pc = .barrier) ∧ ∀ a, step c s a = none := by
  have hsum := c.startFrame_add_preQueue
  have hS : c.startFrame ≤ c.nFrames := by
    rcases h with h | h
    · simp [Config.startFrame, h]
    · omega
  have hQ : 2 ≤ c.nRanks → c.startFrame + c.preQueue ≤ c.nFrames := fun h2 => by
    rcases h with h | h <;> omega
  obtain ⟨s, hd⟩ := drained_exists hS hQ (c.nRanks - 1) (by have := c.one_le; omega)
  rw [Nat.add_sub_cancel' c.one_le] at hd
  have hb : ∀ w, 1 ≤ w → w < c.nRanks → (s.workers w).pc = .barrier :=
    fun w h1 h2 => (hd.done w h1 h2).1
  exact ⟨s, hd.reachable, covered_of_drained hd.reachable hd.stopped
    (fun w h1 h2 => (hd.done w h1 h2).2.1) hd.astray, hd.stopped, hb,
    step_eq_none_of_finished hd.stopped hb⟩

theorem covering_run_exists_fiveFrames :
    (fiveFrames.nRanks = 1 ∨ fiveFrames.nRanks * fiveFrames.preQueue ≤ fiveFrames.nFrames) ∧
      ∃ s, Reachable fiveFrames s ∧ Covered fiveFrames s ∧ s.coordPc = .stopped ∧
        (∀ w, 1 ≤ w → w < fiveFrames.nRanks → (s.workers w).pc = .barrier) ∧
        ∀ a, step fiveFrames s a = none :=
  ⟨Or.inr (by decide), covering_run_exists (Or.inr (by decide))⟩

/-! ## When a worker receives its terminate message -/

theorem preQueue_le_framesDone (hs : Reachable c s) {w : Nat} (h1 : 1 ≤ w) (h2 : w < c.nRanks)
    {k : Int} {rest : List Int} (hch : s.frameCh w = k :: rest) (hk : k < 0) :
    c.preQueue ≤ framesDone s w := by
  have hwi := winv_reachable hs
  obtain rfl : rest = [] := by
    cases rest with
    | nil => rfl
    | cons y ys =>
      have := hwi.last_neg w k (by rw [hch, List.dropLast_cons₂]; exact List.mem_cons_self _ _)
      omega
  have hfifo := (oinv_reachable hs).fifo w (by omega)
  rw [hch, frames_cons_neg hk, frames_nil, List.append_nil] at hfifo
  calc c.preQueue = (prequeue c).countP (fun e => e.1 = some w) :=
        (countP_prequeue (by omega) h2).symm
    _ ≤ s.assigned.countP (fun e => e.1 = some w) := hwi.pre.sublist.countP_le _
    _ = framesDone s w := by
      rw [List.countP_eq_length_filter, ← length_framesOf, hfifo, sentTo, List.length_map]

theorem lt_nFrames_of_stop (hs : Reachable c s) {w : Nat} (h : (s.workers w).stop.isSome) :
    c.nRanks * c.preQueue < c.nFrames := by
  refine Reachable.induction (P := fun s => ∀ w, (s.workers w).stop.isSome →
    c.nRanks * c.preQueue < c.nFrames) (fun _ w h => by simp [init] at h)
    (fun s s' hs ih hm => ?_) hs w h
  cases hm with
  | self | stop | serve => exact ih
  | enter w | leave w | finish w | fail w | work w =>
    intro w' h'
    refine ih w' ?_
    simp only [State.enterIteration, State.leaveLoop, State.finishWorker, State.failWorker,
      State.processFrame, State.setWorker, Function.update_apply] at h'
    by_cases e : w' = w
    · subst e; simpa using h'
    · simpa [e] using h'
  | quit w k rest h1 h2 hpc hch hk =>
    intro w'
    rw [receiveStop_workers]
    split_ifs with e
    · have hwi := winv_reachable hs
      have := preQueue_le_framesDone hs h1 h2 hch hk
      have := hwi.counter w (by omega)
      have := hwi.recv_lt w hpc
      have := c.startFrame_add_preQueue
      exact fun _ => by omega
    · exact ih w'

/-- **A worker receives its terminate message in some run exactly when
`nRanks * preQueue < nFrames`.** With fewer frames, in every run each worker leaves its loop on
its counter, and the terminate messages rank 0 sent stay in the channels. -/
theorem stop_received_iff (h2 : 2 ≤ c.nRanks) :
    (∃ s, Reachable c s ∧ ∃ w, (s.workers w).stop.isSome) ↔
      c.nRanks * c.preQueue < c.nFrames := by
  refine ⟨fun ⟨s, hs, w, h⟩ => lt_nFrames_of_stop hs h, fun hlt => ?_⟩
  have hsum := c.startFrame_add_preQueue
  obtain ⟨s, hd⟩ := drained_exists (c := c) (by omega) (fun _ => by omega) (c.nRanks - 1)
    (by omega)
  rw [Nat.add_sub_cancel' c.one_le] at hd
  exact ⟨s, hd.reachable, 1, (hd.done 1 le_rfl h2).2.2 hlt⟩

theorem stop_received_iff_fiveFrames :
    2 ≤ fiveFrames.nRanks ∧ ((∃ s, Reachable fiveFrames s ∧ ∃ w, (s.workers w).stop.isSome) ↔
      fiveFrames.nRanks * fiveFrames.preQueue < fiveFrames.nFrames) :=
  ⟨by decide, stop_received_iff (by decide)⟩

theorem requests_stop (hs : Reachable c s) (hstop : s.coordPc = .stopped) {w : Nat} (h1 : 1 ≤ w)
    (h2 : w < c.nRanks) : s.requests (-(w : Int)) = some ⟨w, -(w : Int)⟩ := by
  refine Reachable.induction (P := fun s => s.coordPc = .stopped →
    s.requests (-(w : Int)) = some ⟨w, -(w : Int)⟩) (fun _ h => by cases h)
    (fun s s' _ ih hm => ?_) hs hstop
  cases hm with
  | self hl | serve _ _ _ hl => exact fun h => absurd (hl.symm.trans h) nofun
  | stop =>
    intro _
    show (if -(w : Int) < 0 ∧ 1 ≤ -(-(w : Int)) ∧ -(-(w : Int)) < c.nRanks then _ else _) = _
    rw [if_pos ⟨by omega, by omega, by omega⟩, neg_neg, Int.toNat_ofNat]
  | enter | leave | work | quit | finish | fail => exact ih

/-- **Rank 0's last waits are on sends no worker receives.** With at most `nRanks * preQueue`
frames, once rank 0 has stopped its `requests` map holds, for every worker `w`, the send of
`FRAME(-w)`, and that message stays the last of `w`'s channel in every later state: the
`MPI_Wait` of rank 0's final loop (lines 318-325) is on a send that is never received. -/
theorem final_waits_unmatched (hle : c.nFrames ≤ c.nRanks * c.preQueue) (hs : Reachable c s)
    (hstop : s.coordPc = .stopped) {w : Nat} (h1 : 1 ≤ w) (h2 : w < c.nRanks) :
    s.requests (-(w : Int)) = some ⟨w, -(w : Int)⟩ ∧
      (s.frameCh w).getLast? = some (-(w : Int)) := by
  have hnone : (s.workers w).stop = none := by
    cases h : (s.workers w).stop with
    | none => rfl
    | some k => exact absurd (lt_nFrames_of_stop hs (w := w) (by rw [h]; rfl)) (by omega)
  exact ⟨requests_stop hs hstop h1 h2, (sinv_reachable hs).last hstop w h1 h2 hnone⟩

theorem final_waits_unmatched_twoByTwo :
    twoByTwo.nFrames ≤ twoByTwo.nRanks * twoByTwo.preQueue ∧ ∃ s, Reachable twoByTwo s ∧
      s.coordPc = .stopped ∧ (1 ≤ 1 ∧ 1 < twoByTwo.nRanks) ∧
      (s.requests (-1) = some ⟨1, -1⟩ ∧ (s.frameCh 1).getLast? = some (-1)) :=
  ⟨by decide, _, twoByTwo_reachable, rfl, ⟨le_rfl, by decide⟩,
    final_waits_unmatched (by decide) twoByTwo_reachable rfl le_rfl (by decide)⟩

end Brion.Dispatch
