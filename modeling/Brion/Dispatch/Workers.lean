import Brion.Dispatch.Bookkeeping

/-!
# The workers' loops

What each worker's loop keeps in every reachable state, beside rank 0's bookkeeping `Inv`.
A worker's counter is `startFrame` plus the frames it processed (`framesDone`) and never
passes `nFrames`; its `clientRequest` is set once it has processed a frame, and until then its
channel still starts with its pre-queued frames; a terminate message is only ever the last of
a channel, so a worker that receives one leaves its channel empty.

**Theorem (`winv_reachable`).** `WInv` holds in every reachable state.
-/

namespace Brion.Dispatch

variable {c : Config} {s : State}

/-- `framesDone` of rank `w`: how many frames it processed. -/
def framesDone (s : State) (w : Nat) : Nat := s.processed.countP fun e => e.1 = w

theorem countP_append_fst (l : List (Nat × Nat)) (a f w : Nat) :
    (l ++ [(a, f)]).countP (fun e => e.1 = w) =
      l.countP (fun e => e.1 = w) + if a = w then 1 else 0 := by
  simp only [List.countP_append, List.countP_singleton, decide_eq_true_eq]

theorem setWorker_workers (w w' : Nat) (wk : Worker) :
    (s.setWorker w wk).workers w' = if w' = w then wk else s.workers w' :=
  Function.update_apply _ _ _ _

theorem processFrame_workers {w f : Nat} {rest : List Int} (w' : Nat) :
    (s.processFrame w f rest).workers w' = if w' = w then
      { s.workers w with i := (s.workers w).i + 1, pc := .top, clientRequest := some f }
    else s.workers w' :=
  setWorker_workers _ _ _

theorem receiveStop_workers {w : Nat} {k : Int} {rest : List Int} (w' : Nat) :
    (s.receiveStop w k rest).workers w' = if w' = w then
      { s.workers w with pc := .exited, stop := some k }
    else s.workers w' :=
  setWorker_workers _ _ _

theorem framesDone_processFrame {w f : Nat} {rest : List Int} (w' : Nat) :
    framesDone (s.processFrame w f rest) w' = framesDone s w' + if w = w' then 1 else 0 :=
  countP_append_fst _ _ _ _

theorem framesDone_selfProcess {w : Nat} (hw : w ≠ 0) :
    framesDone s.selfProcess w = framesDone s w := by
  simp only [framesDone, State.selfProcess, countP_append_fst, if_neg (Ne.symm hw), Nat.add_zero]

theorem init_frameCh_length {w : Nat} (hw : 1 ≤ w) (hn : w < c.nRanks) :
    ((init c).frameCh w).length = c.preQueue := by
  simp only [init, List.length_map, ← List.countP_eq_length_filter, countP_prequeue (by omega) hn]

theorem init_frameCh_nonneg {w : Nat} : ∀ k ∈ (init c).frameCh w, 0 ≤ k := by
  simp only [init, List.mem_map]
  rintro _ ⟨e, -, rfl⟩
  omega

theorem mem_dropLast_cons {x k : Int} {rest : List Int} (h : k ∈ rest.dropLast) :
    k ∈ (x :: rest).dropLast := by
  cases rest with
  | nil => simp at h
  | cons y ys => rw [List.dropLast_cons₂]; exact List.mem_cons_of_mem _ h

/-- The invariant of the workers' loops. -/
structure WInv (c : Config) (s : State) : Prop where
  /-- Rank 0's counter stays within the frames, and is at the end once rank 0 stopped. -/
  coord_le : s.i ≤ c.nFrames
  coord_stopped : s.coordPc = .stopped → s.i = c.nFrames
  /-- Frames go to ranks of the world, and DONEs come from them. -/
  assigned_lt : ∀ e ∈ s.assigned, ∀ w, e.1 = some w → w < c.nRanks
  done_lt : ∀ e ∈ s.doneCh, e.1 < c.nRanks
  /-- The pre-queue stays the first frames given out. -/
  pre : prequeue c <+: s.assigned
  /-- A worker's counter is `startFrame` plus its `framesDone`, and stays within `nFrames`. -/
  counter : ∀ w, w ≠ 0 → (s.workers w).i = c.startFrame + framesDone s w
  budget : ∀ w, (s.workers w).i ≤ c.nFrames
  recv_lt : ∀ w, (s.workers w).pc = .recv → (s.workers w).i < c.nFrames
  /-- `clientRequest` is set once the worker has processed a frame. -/
  unset : ∀ w, w ≠ 0 → (s.workers w).clientRequest = none → framesDone s w = 0
  /-- Until a worker has processed a frame, its channel starts with its pre-queued frames. -/
  first : ∀ w, 1 ≤ w → w < c.nRanks → framesDone s w = 0 →
    ∃ rest, s.frameCh w = (init c).frameCh w ++ rest
  /-- No terminate message before rank 0 stops, and after, one only at a channel's end. -/
  loop_nonneg : s.coordPc = .loop → ∀ w, ∀ k ∈ s.frameCh w, 0 ≤ k
  last_neg : ∀ w, ∀ k ∈ (s.frameCh w).dropLast, 0 ≤ k
  /-- A worker that received a terminate message left its channel empty. -/
  stopped : ∀ w, (s.workers w).stop.isSome → s.coordPc = .stopped ∧ s.frameCh w = []
  /-- With a frame left for the loop, every wait is on a set handle, no wait fails, and a
  worker out of its loop has one set. -/
  waits : c.startFrame < c.nFrames → ∀ w, 1 ≤ w → w < c.nRanks →
    none ∉ (s.workers w).waits ∧ (s.workers w).pc ≠ .failed ∧
      ((s.workers w).pc = .exited ∨ (s.workers w).pc = .barrier →
        (s.workers w).clientRequest.isSome)

theorem winv_init (h : c.startFrame ≤ c.nFrames) : WInv c (init c) where
  coord_le := h
  coord_stopped := by simp [init]
  assigned_lt e he w hw := by
    obtain ⟨hf, he1⟩ := mem_prequeue.mp he
    obtain rfl := Option.some.inj (he1.symm.trans hw)
    exact Nat.add_lt_of_lt_sub (Nat.div_lt_of_lt_mul (by rw [Nat.mul_comm]; exact hf))
  done_lt := by simp [init]
  pre := List.prefix_refl _
  counter _ _ := by simp [init, framesDone]
  budget _ := h
  recv_lt := by simp [init]
  unset _ _ _ := by simp [init, framesDone]
  first _ _ _ _ := ⟨[], (List.append_nil _).symm⟩
  loop_nonneg _ _ := init_frameCh_nonneg
  last_neg _ _ hk := init_frameCh_nonneg _ (List.dropLast_subset _ hk)
  stopped := by simp [init]
  waits _ _ _ _ := by simp [init]

namespace WInv

theorem head_nonneg (h : WInv c s) {w : Nat} {k : Int} {rest : List Int} (h1 : 1 ≤ w)
    (h2 : w < c.nRanks) (h0 : framesDone s w = 0) (hch : s.frameCh w = k :: rest) : 0 ≤ k := by
  obtain ⟨r, hr⟩ := h.first w h1 h2 h0
  have hne : (init c).frameCh w ≠ [] := by
    rw [← List.length_pos, init_frameCh_length h1 h2]; exact c.preQueue_pos
  obtain ⟨x, xs, hx⟩ := List.exists_cons_of_ne_nil hne
  rw [hch, hx, List.cons_append, List.cons.injEq] at hr
  exact hr.1 ▸ init_frameCh_nonneg x (hx ▸ List.mem_cons_self _ _)

theorem pop (h : WInv c s) {w : Nat} {x : Int} {rest : List Int} (hch : s.frameCh w = x :: rest) :
    (s.coordPc = .loop → ∀ w', ∀ k ∈ Function.update s.frameCh w rest w', 0 ≤ k) ∧
      ∀ w', ∀ k ∈ (Function.update s.frameCh w rest w').dropLast, 0 ≤ k := by
  refine ⟨fun hl w' k hk => ?_, fun w' k hk => ?_⟩ <;> rw [Function.update_apply] at hk <;>
    split_ifs at hk with e
  · subst e; exact h.loop_nonneg hl w' k (by rw [hch]; exact List.mem_cons_of_mem _ hk)
  · exact h.loop_nonneg hl w' k hk
  · subst e; exact h.last_neg w' k (by rw [hch]; exact mem_dropLast_cons hk)
  · exact h.last_neg w' k hk

theorem setWorker (h : WInv c s) {w : Nat} {wk : Worker} (hi : wk.i = (s.workers w).i)
    (hcr : wk.clientRequest = (s.workers w).clientRequest) (hstop : wk.stop = (s.workers w).stop)
    (hrecv : wk.pc = .recv → wk.i < c.nFrames)
    (hwaits : c.startFrame < c.nFrames → 1 ≤ w → w < c.nRanks → none ∉ wk.waits ∧
      wk.pc ≠ .failed ∧ (wk.pc = .exited ∨ wk.pc = .barrier → wk.clientRequest.isSome)) :
    WInv c (s.setWorker w wk) where
  coord_le := h.coord_le
  coord_stopped := h.coord_stopped
  assigned_lt := h.assigned_lt
  done_lt := h.done_lt
  pre := h.pre
  counter w' hw' := by
    rw [setWorker_workers]; split_ifs with e
    · subst e; rw [hi]; exact h.counter w' hw'
    · exact h.counter w' hw'
  budget w' := by
    rw [setWorker_workers]; split_ifs with e
    · subst e; rw [hi]; exact h.budget w'
    · exact h.budget w'
  recv_lt w' := by
    rw [setWorker_workers]; split_ifs with e
    · exact hrecv
    · exact h.recv_lt w'
  unset w' hw' := by
    rw [setWorker_workers]; split_ifs with e
    · subst e; rw [hcr]; exact h.unset w' hw'
    · exact h.unset w' hw'
  first := h.first
  loop_nonneg := h.loop_nonneg
  last_neg := h.last_neg
  stopped w' := by
    rw [setWorker_workers]; split_ifs with e
    · subst e; rw [hstop]; exact h.stopped w'
    · exact h.stopped w'
  waits hS w' h1 h2 := by
    rw [setWorker_workers]; split_ifs with e
    · subst e; exact hwaits hS h1 h2
    · exact h.waits hS w' h1 h2

theorem enterIteration (h : WInv c s) {w : Nat} (hw : w ≠ 0) (hi : (s.workers w).i < c.nFrames) :
    WInv c (s.enterIteration c w) := by
  refine h.setWorker rfl rfl rfl (fun _ => hi) fun hS h1 h2 => ⟨?_, nofun, by simp⟩
  have hn := (h.waits hS w h1 h2).1
  dsimp only
  split_ifs with e
  · exact hn
  · rw [List.mem_append, List.mem_singleton]
    rintro (h' | h')
    · exact hn h'
    · exact e (by rw [h.counter w hw, h.unset w hw h'.symm, Nat.add_zero])

theorem leaveLoop (h : WInv c s) {w : Nat} (hw : w ≠ 0) (hle : c.nFrames ≤ (s.workers w).i) :
    WInv c (s.leaveLoop w) :=
  h.setWorker rfl rfl rfl nofun fun hS h1 h2 => ⟨(h.waits hS w h1 h2).1, nofun, fun _ => by
    show (s.workers w).clientRequest.isSome
    cases hcr : (s.workers w).clientRequest with
    | some _ => rfl
    | none => have := h.counter w hw; have := h.unset w hw hcr; omega⟩

theorem finishWorker (h : WInv c s) {w : Nat} (hpc : (s.workers w).pc = .exited) :
    WInv c (s.finishWorker w) :=
  h.setWorker rfl rfl rfl nofun fun hS h1 h2 => by
    obtain ⟨hn, -, hx⟩ := h.waits hS w h1 h2
    have hsome := hx (.inl hpc)
    refine ⟨?_, nofun, fun _ => hsome⟩
    show none ∉ (s.workers w).waits ++ [(s.workers w).clientRequest]
    rw [List.mem_append, List.mem_singleton, not_or]
    exact ⟨hn, fun h' => by rw [← h'] at hsome; cases hsome⟩

/-- The failed wait needs an unset handle, which a loop that ran never leaves. -/
theorem failWorker (h : WInv c s) {w : Nat} (hpc : (s.workers w).pc = .exited)
    (hcr : (s.workers w).clientRequest = none) : WInv c (s.failWorker w) :=
  h.setWorker rfl rfl rfl nofun fun hS h1 h2 => by
    have := (h.waits hS w h1 h2).2.2 (.inl hpc)
    rw [hcr] at this
    cases this

theorem processFrame (h : WInv c s) {w f : Nat} {rest : List Int} (hn : w < c.nRanks)
    (hpc : (s.workers w).pc = .recv) (hch : s.frameCh w = (f : Int) :: rest) :
    WInv c (s.processFrame w f rest) where
  coord_le := h.coord_le
  coord_stopped := h.coord_stopped
  assigned_lt := h.assigned_lt
  done_lt e he := by
    rcases List.mem_append.mp he with he | he
    · exact h.done_lt e he
    · rw [List.mem_singleton.mp he]; exact hn
  pre := h.pre
  counter w' hw' := by
    have := h.counter w' hw'
    rw [processFrame_workers, framesDone_processFrame]
    by_cases e : w' = w
    · subst e; rw [if_pos rfl, if_pos rfl]; dsimp only; omega
    · rw [if_neg e, if_neg (Ne.symm e)]; omega
  budget w' := by
    rw [processFrame_workers]; split_ifs with e
    · subst e; exact h.recv_lt w' hpc
    · exact h.budget w'
  recv_lt w' := by
    rw [processFrame_workers]; split_ifs with e
    · exact nofun
    · exact h.recv_lt w'
  unset w' hw' := by
    rw [processFrame_workers, framesDone_processFrame]
    by_cases e : w' = w
    · subst e; rw [if_pos rfl]; exact nofun
    · rw [if_neg e, if_neg (Ne.symm e)]; exact h.unset w' hw'
  first w' h1 h2 h0 := by
    rw [framesDone_processFrame] at h0
    by_cases e : w = w'
    · rw [if_pos e] at h0; exact absurd h0 (Nat.succ_ne_zero _)
    · rw [if_neg e, Nat.add_zero] at h0
      obtain ⟨r, hr⟩ := h.first w' h1 h2 h0
      exact ⟨r, by simp only [State.processFrame, Function.update_noteq (Ne.symm e), hr]⟩
  loop_nonneg := (h.pop hch).1
  last_neg := (h.pop hch).2
  stopped w' hs := by
    rw [processFrame_workers] at hs
    split_ifs at hs with e
    · subst e; have := (h.stopped w' hs).2; rw [hch] at this; cases this
    · refine ⟨(h.stopped w' hs).1, ?_⟩
      simp only [State.processFrame, Function.update_noteq e]
      exact (h.stopped w' hs).2
  waits hS w' h1 h2 := by
    rw [processFrame_workers]; split_ifs with e
    · subst e; exact ⟨(h.waits hS w' h1 h2).1, nofun, fun _ => rfl⟩
    · exact h.waits hS w' h1 h2

theorem receiveStop (h : WInv c s) {w : Nat} {k : Int} {rest : List Int} (hw : 1 ≤ w)
    (hn : w < c.nRanks) (hch : s.frameCh w = k :: rest) (hk : k < 0) :
    WInv c (s.receiveStop w k rest) where
  coord_le := h.coord_le
  coord_stopped := h.coord_stopped
  assigned_lt := h.assigned_lt
  done_lt := h.done_lt
  pre := h.pre
  counter w' hw' := by
    rw [receiveStop_workers]; split_ifs with e
    · subst e; exact h.counter w' hw'
    · exact h.counter w' hw'
  budget w' := by
    rw [receiveStop_workers]; split_ifs with e
    · subst e; exact h.budget w'
    · exact h.budget w'
  recv_lt w' := by
    rw [receiveStop_workers]; split_ifs with e
    · exact nofun
    · exact h.recv_lt w'
  unset w' hw' := by
    rw [receiveStop_workers]; split_ifs with e
    · subst e; exact h.unset w' hw'
    · exact h.unset w' hw'
  first w' h1 h2 h0 := by
    by_cases e : w' = w
    · subst e; exact absurd (h.head_nonneg h1 h2 h0 hch) (by omega)
    · obtain ⟨r, hr⟩ := h.first w' h1 h2 h0
      exact ⟨r, by simp only [State.receiveStop, Function.update_noteq e, hr]⟩
  loop_nonneg := (h.pop hch).1
  last_neg := (h.pop hch).2
  stopped w' hs := by
    rw [receiveStop_workers] at hs
    split_ifs at hs with e
    · subst e
      refine ⟨?_, ?_⟩
      · -- a terminate message is sent only once rank 0 has stopped
        cases hpc : s.coordPc
        · have hk' : k ∈ s.frameCh w' := by rw [hch]; exact List.mem_cons_self _ _
          exact absurd (h.loop_nonneg hpc w' k hk') (by omega)
        · exact hpc
      · -- and it is its channel's last message
        simp only [State.receiveStop, Function.update_same]
        cases rest with
        | nil => rfl
        | cons y ys =>
          have hk' : k ∈ (s.frameCh w').dropLast := by
            rw [hch, List.dropLast_cons₂]; exact List.mem_cons_self _ _
          exact absurd (h.last_neg w' k hk') (by omega)
    · refine ⟨(h.stopped w' hs).1, ?_⟩
      simp only [State.receiveStop, Function.update_noteq e]
      exact (h.stopped w' hs).2
  waits hS w' h1 h2 := by
    rw [receiveStop_workers]; split_ifs with e
    · subst e
      refine ⟨(h.waits hS w' h1 h2).1, nofun, fun _ => ?_⟩
      show (s.workers w').clientRequest.isSome
      cases hcr : (s.workers w').clientRequest with
      | some _ => rfl
      | none => exact absurd (h.head_nonneg h1 h2 (h.unset w' (by omega) hcr) hch) (by omega)
    · exact h.waits hS w' h1 h2

theorem selfProcess (h : WInv c s) (hl : s.coordPc = .loop) (hi : s.i < c.nFrames) :
    WInv c s.selfProcess where
  coord_le := hi
  coord_stopped hs := absurd (hl.symm.trans hs) nofun
  assigned_lt e he w hw := by
    rcases List.mem_append.mp he with he | he
    · exact h.assigned_lt e he w hw
    · rw [List.mem_singleton.mp he] at hw; cases hw; exact c.one_le
  done_lt := h.done_lt
  pre := h.pre.trans (List.prefix_append _ _)
  counter w hw := by rw [framesDone_selfProcess hw]; exact h.counter w hw
  budget := h.budget
  recv_lt := h.recv_lt
  unset w hw hcr := by rw [framesDone_selfProcess hw]; exact h.unset w hw hcr
  first w h1 h2 h0 := h.first w h1 h2 (by rwa [framesDone_selfProcess (by omega)] at h0)
  loop_nonneg := h.loop_nonneg
  last_neg := h.last_neg
  stopped w hs := absurd (hl.symm.trans (h.stopped w hs).1) nofun
  waits := h.waits

theorem sendStops (h : WInv c s) (hl : s.coordPc = .loop) (hle : c.nFrames ≤ s.i) :
    WInv c (s.sendStops c) where
  coord_le := h.coord_le
  coord_stopped _ := Nat.le_antisymm h.coord_le hle
  assigned_lt := h.assigned_lt
  done_lt := h.done_lt
  pre := h.pre
  counter := h.counter
  budget := h.budget
  recv_lt := h.recv_lt
  unset := h.unset
  first w h1 h2 h0 := by
    obtain ⟨r, hr⟩ := h.first w h1 h2 h0
    exact ⟨r ++ [-(w : Int)],
      by simp only [State.sendStops, if_pos (And.intro h1 h2), hr, List.append_assoc]⟩
  loop_nonneg := nofun
  last_neg w k hk := by
    simp only [State.sendStops] at hk
    split_ifs at hk
    · rw [List.dropLast_concat] at hk; exact h.loop_nonneg hl w k hk
    · exact h.last_neg w k hk
  stopped w hs := absurd (hl.symm.trans (h.stopped w hs).1) nofun
  waits := h.waits

theorem redispatch (h : WInv c s) (hl : s.coordPc = .loop) (hi : s.i < c.nFrames) {src f0 : Nat}
    {dst : Dest} (hv : dst.valid c) :
    WInv c (s.redispatch src f0 dst) where
  coord_le := hi
  coord_stopped hs := absurd (hl.symm.trans hs) nofun
  assigned_lt e he w hw := by
    rcases List.mem_append.mp he with he | he
    · exact h.assigned_lt e he w hw
    · rw [List.mem_singleton.mp he] at hw
      obtain ⟨rfl, -⟩ := Dest.receiver_eq_some.mp hw
      simpa [Dest.valid] using hv
  done_lt e he := h.done_lt e (List.mem_of_mem_erase he)
  pre := h.pre.trans (List.prefix_append _ _)
  counter := h.counter
  budget := h.budget
  recv_lt := h.recv_lt
  unset := h.unset
  first w h1 h2 h0 := by
    obtain ⟨r, hr⟩ := h.first w h1 h2 h0
    exact ⟨r ++ _, by rw [State.redispatch_frameCh, hr, List.append_assoc]⟩
  loop_nonneg _ w k hk := by
    rw [State.redispatch_frameCh] at hk
    rcases List.mem_append.mp hk with hk | hk
    · exact h.loop_nonneg hl w k hk
    · split_ifs at hk
      · rw [List.mem_singleton.mp hk]; omega
      · cases hk
  last_neg w k hk := by
    rw [State.redispatch_frameCh] at hk
    split_ifs at hk
    · rw [List.dropLast_concat] at hk; exact h.loop_nonneg hl w k hk
    · rw [List.append_nil] at hk; exact h.last_neg w k hk
  stopped w hs := absurd (hl.symm.trans (h.stopped w hs).1) nofun
  waits := h.waits

end WInv

/-- **The workers' invariant holds in every reachable state.** -/
theorem winv_reachable (hs : Reachable c s) : WInv c s := by
  refine Reachable.induction winv_init (fun s s' _ h hm => ?_) hs
  cases hm with
  | self hl hi => exact h.selfProcess hl hi
  | stop hl hle => exact h.sendStops hl hle
  | serve src f dst hl hi _ hv => exact h.redispatch hl hi hv
  | enter w hw _ _ hi => exact h.enterIteration (by omega) hi
  | leave w hw _ _ hle => exact h.leaveLoop (by omega) hle
  | work w f rest _ hn hpc hch => exact h.processFrame hn hpc hch
  | quit w k rest hw hn _ hch hk => exact h.receiveStop hw hn hch hk
  | finish w _ _ hpc => exact h.finishWorker hpc
  | fail w _ _ hpc hcr => exact h.failWorker hpc hcr

end Brion.Dispatch
