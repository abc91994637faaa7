import Brion.Dispatch.Handshake
import Mathlib.Algebra.Order.BigOperators.Group.Finset

/-!
# Every schedule ends

No schedule of the dispatcher blocks before the end or goes on forever. A rank blocks only
in a worker's `MPI_Recv` on an empty channel, or at the barrier. While rank 0 is in its loop
it can always take a turn. Once it has stopped, the terminate message it sent worker `w`
stays the last message of `w`'s channel until `w` receives it (`SInv`), so a worker in
`MPI_Recv` always has a message to take.

Every move takes at least one unit off a potential. Rank 0 contributes its turns left. A
worker contributes two moves for each turn left in its loop, and two more to reach the
barrier.

**Theorem (`no_deadlock`).** When rank 0 has a frame to loop over, in every reachable state
some action other than a failed wait is enabled, or the run is over: rank 0 has stopped and
every worker waits at the barrier. (With no frame to loop over a worker's last `MPI_Wait` is on
an unset handle, and `Act.fail` is the schedule in which that wait never returns.)

**Theorem (`schedule_length_le`).** Every schedule from the start has at most
`(nFrames - startFrame + 1) + (nRanks - 1) * (2 * (nFrames - startFrame) + 2)` steps. So every
schedule ends, and by `no_deadlock` one that cannot be extended ends with every worker at the
barrier.
-/

namespace Brion.Dispatch

variable {c : Config} {s : State}

/-! ## The terminate message stays last -/

/-- What the terminate messages keep, beside `WInv`. -/
structure SInv (c : Config) (s : State) : Prop where
  /-- A worker that received its terminate message is out of its loop. -/
  out : ∀ w, (s.workers w).stop.isSome → (s.workers w).pc ≠ .top ∧ (s.workers w).pc ≠ .recv
  /-- Once rank 0 has stopped, worker `w`'s terminate message ends its channel until `w`
  receives it. -/
  last : s.coordPc = .stopped → ∀ w, 1 ≤ w → w < c.nRanks → (s.workers w).stop = none →
    (s.frameCh w).getLast? = some (-(w : Int))

theorem sinv_init : SInv c (init c) where
  out _ h := by simp [init] at h
  last h := by simp [init] at h

namespace SInv

theorem stop_none (h : SInv c s) {w : Nat}
    (hpc : (s.workers w).pc = .top ∨ (s.workers w).pc = .recv) : (s.workers w).stop = none := by
  cases hs : (s.workers w).stop with
  | none => rfl
  | some k =>
    have := h.out w (by rw [hs]; rfl)
    rcases hpc with e | e
    exacts [absurd e this.1, absurd e this.2]

theorem setWorker (h : SInv c s) {w : Nat} {wk : Worker} (hstop : wk.stop = (s.workers w).stop)
    (hout : wk.stop.isSome → wk.pc ≠ .top ∧ wk.pc ≠ .recv) :
    SInv c (s.setWorker w wk) where
  out w' := by
    rw [setWorker_workers]; split_ifs with e
    · exact hout
    · exact h.out w'
  last hc w' h1 h2 := by
    rw [setWorker_workers]; split_ifs with e
    · subst e; rw [hstop]; exact h.last hc w' h1 h2
    · exact h.last hc w' h1 h2

theorem enterIteration (h : SInv c s) {w : Nat} (hpc : (s.workers w).pc = .top) :
    SInv c (s.enterIteration c w) :=
  h.setWorker rfl fun hs => by simp [h.stop_none (.inl hpc)] at hs

theorem leaveLoop (h : SInv c s) {w : Nat} : SInv c (s.leaveLoop w) :=
  h.setWorker rfl fun _ => ⟨nofun, nofun⟩

theorem finishWorker (h : SInv c s) {w : Nat} : SInv c (s.finishWorker w) :=
  h.setWorker rfl fun _ => ⟨nofun, nofun⟩

theorem failWorker (h : SInv c s) {w : Nat} : SInv c (s.failWorker w) :=
  h.setWorker rfl fun _ => ⟨nofun, nofun⟩

theorem processFrame (h : SInv c s) {w f : Nat} {rest : List Int}
    (hpc : (s.workers w).pc = .recv) (hch : s.frameCh w = (f : Int) :: rest) :
    SInv c (s.processFrame w f rest) where
  out w' := by
    rw [processFrame_workers]; split_ifs with e
    · subst e; simp [h.stop_none (.inr hpc)]
    · exact h.out w'
  last hc w' h1 h2 hs := by
    show (Function.update s.frameCh w rest w').getLast? = _
    rw [processFrame_workers] at hs
    rw [Function.update_apply]
    split_ifs at hs ⊢ with e
    · subst e
      have hl := h.last hc w' h1 h2 hs
      rw [hch] at hl
      cases rest with
      | nil => simp only [List.getLast?_singleton, Option.some.injEq] at hl; omega
      | cons y ys => rwa [List.getLast?_cons_cons] at hl
    · exact h.last hc w' h1 h2 hs

theorem receiveStop (h : SInv c s) {w : Nat} {k : Int} {rest : List Int} :
    SInv c (s.receiveStop w k rest) where
  out w' := by
    rw [receiveStop_workers]; split_ifs with e
    · exact fun _ => ⟨nofun, nofun⟩
    · exact h.out w'
  last hc w' h1 h2 hs := by
    rw [receiveStop_workers] at hs
    split_ifs at hs with e
    show (Function.update s.frameCh w rest w').getLast? = _
    rw [Function.update_noteq e]
    exact h.last hc w' h1 h2 hs

theorem redispatch (h : SInv c s) (hl : s.coordPc = .loop) {src f : Nat} {dst : Dest} :
    SInv c (s.redispatch src f dst) :=
  ⟨h.out, fun hc => absurd (hl.symm.trans hc) nofun⟩

theorem sendStops (h : SInv c s) : SInv c (s.sendStops c) where
  out := h.out
  last _ w h1 h2 _ := by
    show (if 1 ≤ w ∧ w < c.nRanks then s.frameCh w ++ [-(w : Int)] else s.frameCh w).getLast? = _
    rw [if_pos ⟨h1, h2⟩, List.getLast?_concat]

end SInv

theorem sinv_reachable (hs : Reachable c s) : SInv c s := by
  refine Reachable.induction (fun _ => sinv_init) (fun s s' _ h hm => ?_) hs
  cases hm with
  | self => exact ⟨h.out, h.last⟩
  | stop => exact h.sendStops
  | serve _ _ _ hl => exact h.redispatch hl
  | enter _ _ _ hpc => exact h.enterIteration hpc
  | leave => exact h.leaveLoop
  | work _ _ _ _ _ hpc hch => exact h.processFrame hpc hch
  | quit => exact h.receiveStop
  | finish => exact h.finishWorker
  | fail => exact h.failWorker

/-! ## No deadlock -/

/-- Worker `w` can move unless it waits at the barrier, blocks on an empty channel, or is stuck
in a failed wait. -/
theorem worker_enabled {w : Nat} (h1 : 1 ≤ w) (h2 : w < c.nRanks)
    (hpc : (s.workers w).pc ≠ .barrier) (hf : (s.workers w).pc ≠ .failed)
    (hch : (s.workers w).pc = .recv → s.frameCh w ≠ []) :
    ∃ s', step c s (.worker w) = some s' := by
  simp only [step, if_pos (And.intro h1 h2), workerStep]
  cases e : (s.workers w).pc <;> simp only [e] at hpc hf ⊢
  · split <;> exact ⟨_, rfl⟩
  · obtain ⟨k, rest, hk⟩ := List.exists_cons_of_ne_nil (hch e)
    simp only [hk]
    split <;> exact ⟨_, rfl⟩
  · exact ⟨_, rfl⟩
  · exact absurd rfl hpc
  · exact absurd rfl hf

/-- **No deadlock.** When rank 0 has a frame to loop over, in every reachable state an action
other than a failed wait is enabled, or rank 0 has stopped and every worker waits at the
barrier. -/
theorem no_deadlock (hlt : c.startFrame < c.nFrames) (hs : Reachable c s) :
    (s.coordPc = .stopped ∧ ∀ w, 1 ≤ w → w < c.nRanks → (s.workers w).pc = .barrier) ∨
      ∃ a s', (∀ w, a ≠ .fail w) ∧ step c s a = some s' := by
  cases hc : s.coordPc with
  | loop =>
    refine .inr ⟨.coordSelf, ?_⟩
    simp only [step, hc, if_true]
    split <;> exact ⟨_, nofun, rfl⟩
  | stopped =>
    by_cases hall : ∀ w, 1 ≤ w → w < c.nRanks → (s.workers w).pc = .barrier
    · exact .inl ⟨rfl, hall⟩
    push_neg at hall
    obtain ⟨w, h1, h2, hpc⟩ := hall
    have hsi := sinv_reachable hs
    have hf := ((winv_reachable hs).waits hlt w h1 h2).2.1
    -- Its terminate message is still in its channel.
    have hne : (s.workers w).pc = .recv → s.frameCh w ≠ [] := fun hr he => by
      have hl := hsi.last hc w h1 h2 (hsi.stop_none (.inr hr))
      rw [he] at hl
      cases hl
    obtain ⟨s', hs'⟩ := worker_enabled h1 h2 hpc hf hne
    exact .inr ⟨.worker w, s', nofun, hs'⟩

theorem no_deadlock_fiveFrames :
    fiveFrames.startFrame < fiveFrames.nFrames ∧ ∃ s, Reachable fiveFrames s ∧
      ((s.coordPc = .stopped ∧ ∀ w, 1 ≤ w → w < fiveFrames.nRanks →
        (s.workers w).pc = .barrier) ∨ ∃ a s', (∀ w, a ≠ .fail w) ∧ step fiveFrames s a = some s') :=
  have hs := (Reachable.init (by decide)).run fiveFrames_run
  ⟨by decide, _, hs, no_deadlock (by decide) hs⟩

/-! ## Every schedule ends -/

/-- The moves worker `wk` has left: two for each turn left in its loop (enter, then work),
and two to reach the barrier. -/
def Worker.potential (nFrames : Nat) (wk : Worker) : Nat :=
  match wk.pc with
  | .top => 2 * (nFrames - wk.i) + 2
  | .recv => 2 * (nFrames - wk.i) + 1
  | .exited => 1
  | .barrier | .failed => 0

/-- The turns rank 0 has left. -/
def coordPotential (c : Config) (s : State) : Nat :=
  match s.coordPc with
  | .loop => c.nFrames - s.i + 1
  | .stopped => 0

/-- The moves the system has left. -/
def potential (c : Config) (s : State) : Nat :=
  coordPotential c s + ∑ w ∈ Finset.Ico 1 c.nRanks, (s.workers w).potential c.nFrames

theorem potential_init :
    potential c (init c) =
      c.nFrames - c.startFrame + 1 + (c.nRanks - 1) * (2 * (c.nFrames - c.startFrame) + 2) := by
  simp [potential, coordPotential, init, Worker.potential]

theorem potential_lt_of_coord {s' : State} (hw : s'.workers = s.workers)
    (hlt : coordPotential c s' < coordPotential c s) : potential c s' < potential c s := by
  unfold potential
  rw [hw]
  omega

theorem potential_lt_of_worker {s' : State} {w : Nat} {wk : Worker} (h1 : 1 ≤ w)
    (h2 : w < c.nRanks) (hc : coordPotential c s' = coordPotential c s)
    (hw : s'.workers = Function.update s.workers w wk)
    (hlt : wk.potential c.nFrames < (s.workers w).potential c.nFrames) :
    potential c s' < potential c s := by
  unfold potential
  rw [hc]
  refine Nat.add_lt_add_left (Finset.sum_lt_sum (fun v _ => ?_)
    ⟨w, Finset.mem_Ico.mpr ⟨h1, h2⟩, by rw [hw, Function.update_same]; exact hlt⟩) _
  rw [hw, Function.update_apply]
  split_ifs with e
  · subst e; exact hlt.le
  · exact le_rfl

/-- Every move takes at least one unit off the potential. -/
theorem potential_lt (hs : Reachable c s) {s' : State} (hm : Moves c s s') :
    potential c s' < potential c s := by
  have hw := winv_reachable hs
  cases hm with
  | self hl hi =>
    exact potential_lt_of_coord rfl (by simp [coordPotential, State.selfProcess, hl]; omega)
  | stop hl _ => exact potential_lt_of_coord rfl (by simp [coordPotential, State.sendStops, hl])
  | serve _ _ _ hl hi _ =>
    exact potential_lt_of_coord rfl (by simp [coordPotential, State.redispatch, hl]; omega)
  | enter w h1 h2 hpc _ =>
    exact potential_lt_of_worker h1 h2 rfl rfl (by simp [Worker.potential, hpc])
  | leave w h1 h2 hpc _ =>
    exact potential_lt_of_worker h1 h2 rfl rfl (by simp [Worker.potential, hpc])
  | work w f rest h1 h2 hpc _ =>
    have := hw.recv_lt w hpc
    exact potential_lt_of_worker h1 h2 rfl rfl (by simp [Worker.potential, hpc]; omega)
  | quit w k rest h1 h2 hpc _ _ =>
    have := hw.recv_lt w hpc
    exact potential_lt_of_worker h1 h2 rfl rfl (by simp [Worker.potential, hpc]; omega)
  | finish w h1 h2 hpc | fail w h1 h2 hpc _ =>
    exact potential_lt_of_worker h1 h2 rfl rfl (by simp [Worker.potential, hpc])

theorem run_length_le : ∀ {as : List Act} {s s' : State}, Reachable c s →
    run c s as = some s' → as.length ≤ potential c s
  | [], _, _, _, _ => Nat.zero_le _
  | a :: as, _, _, hs, h => by
    simp only [run, Option.bind_eq_some] at h
    obtain ⟨t, ht, h⟩ := h
    have := run_length_le (hs.step a ht) h
    have := potential_lt hs (moves_of_step ht)
    rw [List.length_cons]
    omega

/-- **Every schedule ends.** From the start, a schedule takes at most
`(nFrames - startFrame + 1) + (nRanks - 1) * (2 * (nFrames - startFrame) + 2)` steps. -/
theorem schedule_length_le (hS : c.startFrame ≤ c.nFrames) {as : List Act} {s' : State}
    (h : run c (init c) as = some s') :
    as.length ≤
      c.nFrames - c.startFrame + 1 + (c.nRanks - 1) * (2 * (c.nFrames - c.startFrame) + 2) :=
  potential_init ▸ run_length_le (.init hS) h

theorem schedule_length_le_fiveFrames :
    fiveFrames.startFrame ≤ fiveFrames.nFrames ∧
      ∃ as s', run fiveFrames (init fiveFrames) as = some s' ∧ as.length ≤
        fiveFrames.nFrames - fiveFrames.startFrame + 1 +
          (fiveFrames.nRanks - 1) * (2 * (fiveFrames.nFrames - fiveFrames.startFrame) + 2) :=
  ⟨by decide, _, _, fiveFrames_run, schedule_length_le (by decide) fiveFrames_run⟩

end Brion.Dispatch
