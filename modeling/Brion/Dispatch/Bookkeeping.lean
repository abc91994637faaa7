import Brion.Dispatch.Model
import Mathlib.Data.List.Perm.Subperm
import Mathlib.Data.List.Nodup

/-!
# Rank 0's bookkeeping

What rank 0 knows of the frames it gave out, and what its `requests` map holds, in every
reachable state.

**Theorem (`requests_bookkeeping`).** In every reachable state:

* every frame was given out at most once: sent in one FRAME message or kept by rank 0;
* a key `f ≥ 0` of `requests` holds a handle exactly while `f` went out in a FRAME send whose
  DONE rank 0 has not received, and it is the handle of that send; so no live handle is
  overwritten, and every `MPI_Wait( &requests[frame] )` after a DONE is on the handle of that
  frame's send to that DONE's source.

Where the frame sent after the wait goes, the map does not say: it goes to
`status.MPI_SOURCE`, which the wait has made undefined.

**Theorem (`processed_nodup`).** No frame is processed twice, by one rank or by two.

The proof is an induction over runs with the invariant `Inv`. Its central clause, `chan`,
follows each frame sent to a worker: it is in the worker's channel, or its DONE is in flight,
or rank 0 has received that DONE, and exactly one of the three.
-/

namespace Brion.Dispatch

variable {c : Config} {s : State}

/-- Frame `f` went out in a FRAME send and rank 0 has not received its DONE. -/
def Live (s : State) (f : Nat) : Prop :=
  f < s.i ∧ (some 0, f) ∉ s.assigned ∧ ∀ w, (w, f) ∉ s.acked

/-- The frames sent to worker `w` whose DONE rank 0 has not received. -/
def unacked (s : State) (w : Nat) : List Nat :=
  (s.assigned.filter fun e => e.1 = some w ∧ (w, e.2) ∉ s.acked).map Prod.snd

/-- The invariant of rank 0's bookkeeping. -/
structure Inv (c : Config) (s : State) : Prop where
  /-- The frames given out are `0, 1, …, i - 1`, in order. -/
  frames : s.assigned.map Prod.snd = List.range s.i
  done_src : ∀ e ∈ s.doneCh, e.1 ≠ 0
  acked_src : ∀ e ∈ s.acked, e.1 ≠ 0
  /-- A frame sent to a worker is in its channel, or its DONE is in flight or received. -/
  chan : ∀ w f : Nat, w ≠ 0 → (s.frameCh w).count (f : Int) + s.doneCh.count (w, f) +
    s.acked.count (w, f) = s.assigned.count (some w, f)
  /-- A worker has processed exactly the frames whose DONE it sent. -/
  proc : ∀ w f : Nat, w ≠ 0 →
    s.processed.count (w, f) = s.doneCh.count (w, f) + s.acked.count (w, f)
  /-- Rank 0 has processed exactly the frames it kept. -/
  proc_self : ∀ f, s.processed.count (0, f) = s.assigned.count (some 0, f)
  /-- `requests[f]` is set exactly while `f` is live, -/
  live : ∀ f : Nat, (s.requests f).isSome ↔ Live s f
  /-- and then holds the handle of the send of `f`. -/
  handle : ∀ (f : Nat) (h : Handle), s.requests f = some h →
    h.payload = f ∧ (h.dest.receiver, f) ∈ s.assigned
  requests_neg : s.coordPc = .loop → ∀ k : Int, k < 0 → s.requests k = none
  coord_waits : ∀ e ∈ s.coordWaits, e.2.2 = some ⟨e.2.1, e.1⟩

theorem count_le_one_of_nodup {α : Type} [BEq α] [LawfulBEq α] {l : List α} (h : l.Nodup)
    (a : α) : l.count a ≤ 1 := by
  induction l with
  | nil => simp
  | cons b l ih =>
    rw [List.nodup_cons] at h
    rw [List.count_cons]
    split_ifs with hb
    · rw [beq_iff_eq] at hb; subst hb; simp [List.count_eq_zero.mpr h.1]
    · simpa using ih h.2

namespace Inv

theorem assigned_nodup (h : Inv c s) : s.assigned.Nodup :=
  List.Nodup.of_map Prod.snd (h.frames ▸ List.nodup_range _)

theorem count_assigned_le (h : Inv c s) (e : Option Nat × Nat) : s.assigned.count e ≤ 1 :=
  count_le_one_of_nodup h.assigned_nodup e

theorem lt_of_assigned (h : Inv c s) {e : Option Nat × Nat} (hm : e ∈ s.assigned) : e.2 < s.i := by
  have := List.mem_map_of_mem Prod.snd hm
  rwa [h.frames, List.mem_range] at this

theorem fresh (h : Inv c s) (r : Option Nat) : (r, s.i) ∉ s.assigned :=
  fun hm => Nat.lt_irrefl _ (h.lt_of_assigned hm)

theorem dest_unique (h : Inv c s) {a b : Option Nat} {f : Nat} (ha : (a, f) ∈ s.assigned)
    (hb : (b, f) ∈ s.assigned) : a = b := by
  have hnd : (s.assigned.map Prod.snd).Nodup := h.frames ▸ List.nodup_range _
  exact congrArg Prod.fst (List.inj_on_of_nodup_map hnd ha hb rfl)

theorem outstanding_of_done (h : Inv c s) {w f : Nat} (hd : (w, f) ∈ s.doneCh) :
    w ≠ 0 ∧ (some w, f) ∈ s.assigned ∧ (w, f) ∉ s.acked := by
  have hw := h.done_src _ hd
  have hc := h.chan w f hw
  have h1 := List.count_pos_iff.mpr hd
  have h2 := h.count_assigned_le (some w, f)
  refine ⟨hw, List.count_pos_iff.mp (by omega), fun ha => ?_⟩
  have := List.count_pos_iff.mpr ha
  omega

theorem assigned_of_acked (h : Inv c s) {w f : Nat} (he : (w, f) ∈ s.acked) :
    (some w, f) ∈ s.assigned := by
  have hc := h.chan w f (h.acked_src _ he)
  have := List.count_pos_iff.mpr he
  exact List.count_pos_iff.mp (by omega)

theorem live_of_done (h : Inv c s) {w f : Nat} (hd : (w, f) ∈ s.doneCh) : Live s f := by
  obtain ⟨hw, ha, hna⟩ := h.outstanding_of_done hd
  refine ⟨h.lt_of_assigned ha, fun h0 => hw (Option.some.inj (h.dest_unique ha h0)), ?_⟩
  intro w' hk
  obtain rfl := Option.some.inj (h.dest_unique (h.assigned_of_acked hk) ha)
  exact hna hk

end Inv

/-! ## The initial state -/

theorem count_sentTo (l : List (Option Nat × Nat)) (w f : Nat) :
    ((l.filter (·.1 = some w)).map fun e => (e.2 : Int)).count (f : Int) = l.count (some w, f) := by
  induction l with
  | nil => rfl
  | cons e l ih =>
    obtain ⟨a, b⟩ := e
    by_cases ha : a = some w
    · subst ha
      by_cases hb : b = f <;> simp [List.filter_cons, List.count_cons, ih, hb, Int.ofNat_inj]
    · simp [List.filter_cons, List.count_cons, ih, ha]

theorem not_mem_prequeue_zero (c : Config) (f : Nat) : (some 0, f) ∉ prequeue c := by
  simp [mem_prequeue]

theorem inv_init (c : Config) : Inv c (init c) where
  frames := prequeue_frames c
  done_src := by simp [init]
  acked_src := by simp [init]
  chan w f _ := by simp [init, count_sentTo]
  proc := by simp [init]
  proc_self f := (List.count_eq_zero.mpr (not_mem_prequeue_zero c f)).symm
  live f := by
    simp only [init, Live, not_mem_prequeue_zero, not_false_eq_true, List.not_mem_nil, true_and,
      implies_true, and_true]
    split_ifs with hf
    · simp only [Option.isSome_some, true_iff]; omega
    · simp only [Option.isSome_none, Bool.false_eq_true, false_iff]; omega
  handle f h hh := by
    simp only [init] at hh
    split_ifs at hh with hf
    cases hh
    refine ⟨rfl, mem_prequeue.mpr ⟨by omega, ?_⟩⟩
    simp only [Dest.receiver, Nat.add_one_ne_zero, if_false, Int.toNat_ofNat]
  requests_neg _ k hk := by simp only [init]; rw [if_neg (by omega)]
  coord_waits := by simp [init]

/-! ## Each move keeps the invariant -/

namespace Inv

theorem setWorker (h : Inv c s) (w : Nat) (wk : Worker) : Inv c (s.setWorker w wk) :=
  ⟨h.1, h.2, h.3, h.4, h.5, h.6, h.7, h.8, h.9, h.10⟩

theorem selfProcess (h : Inv c s) : Inv c s.selfProcess where
  frames := by simp [State.selfProcess, h.frames, List.range_succ]
  done_src := h.done_src
  acked_src := h.acked_src
  chan w f hw := by
    have := h.chan w f hw
    simp only [State.selfProcess, List.count_append, List.count_cons, List.count_nil, beq_iff_eq,
      Prod.mk.injEq, Option.some.injEq]
    rw [if_neg (fun h' => hw h'.1.symm)]; omega
  proc w f hw := by
    have := h.proc w f hw
    simp only [State.selfProcess, List.count_append, List.count_cons, List.count_nil, beq_iff_eq,
      Prod.mk.injEq]
    rw [if_neg (fun h' => hw h'.1.symm)]; omega
  proc_self f := by
    rw [show s.selfProcess.processed = s.processed ++ [(0, s.i)] from rfl,
      show s.selfProcess.assigned = s.assigned ++ [(some 0, s.i)] from rfl,
      List.count_append, List.count_append, h.proc_self]
    by_cases hf : s.i = f <;> simp [hf, List.count_cons]
  live f := by
    rw [show s.selfProcess.requests = s.requests from rfl, h.live]
    simp only [Live, State.selfProcess, List.mem_append, List.mem_singleton, Prod.mk.injEq,
      true_and, not_or]
    constructor
    · rintro ⟨hf, h0, hk⟩; exact ⟨by omega, ⟨h0, by omega⟩, hk⟩
    · rintro ⟨hf, ⟨h0, hi⟩, hk⟩; exact ⟨by omega, h0, hk⟩
  handle f d hd := by
    obtain ⟨hp, hm⟩ := h.handle f d hd
    exact ⟨hp, List.mem_append_left _ hm⟩
  requests_neg := h.requests_neg
  coord_waits := h.coord_waits

theorem sendStops (h : Inv c s) : Inv c (s.sendStops c) where
  frames := h.frames
  done_src := h.done_src
  acked_src := h.acked_src
  chan w f hw := by
    have := h.chan w f hw
    simp only [State.sendStops]
    split_ifs
    · rw [List.count_append, List.count_cons, List.count_nil, if_neg (by simp; omega)]; omega
    · exact this
  proc := h.proc
  proc_self := h.proc_self
  live f := by
    simp only [State.sendStops]
    rw [if_neg (by omega)]
    exact h.live f
  handle f d := by
    simp only [State.sendStops]
    rw [if_neg (by omega)]
    exact h.handle f d
  requests_neg hpc := by simp [State.sendStops] at hpc
  coord_waits := h.coord_waits

theorem redispatch_requests {src f0 : Nat} {dst : Dest} (k : Int) :
    (s.redispatch src f0 dst).requests k =
      if k = s.i then some ⟨dst, s.i⟩ else if k = f0 then none else s.requests k := by
  simp only [State.redispatch, Function.update_apply]

theorem redispatch (h : Inv c s) (hloop : s.coordPc = .loop) {src f0 : Nat} {dst : Dest}
    (hd : (src, f0) ∈ s.doneCh) : Inv c (s.redispatch src f0 dst) := by
  obtain ⟨hsrc, ha, hna⟩ := h.outstanding_of_done hd
  have hf0 : f0 < s.i := h.lt_of_assigned ha
  have hd1 := List.count_pos_iff.mpr hd
  exact {
    frames := by simp [State.redispatch, h.frames, List.range_succ]
    done_src := fun e he => h.done_src e (List.mem_of_mem_erase he)
    acked_src := by
      intro e he
      simp only [State.redispatch, List.mem_append, List.mem_singleton] at he
      rcases he with he | rfl
      · exact h.acked_src e he
      · exact hsrc
    chan := fun w f hw => by
      have e := h.chan w f hw
      have hfc := dst.count_post s.frameCh s.i hw f
      by_cases h1 : (src, f0) = (w, f)
      · cases h1
        have hne : (dst.receiver, s.i) ≠ (some src, f0) := fun h' => by
          have := (Prod.mk.inj h').2; omega
        simp only [State.redispatch, List.count_append, List.count_erase_self,
          List.count_cons, List.count_nil, beq_iff_eq, if_true, hne, if_false] at hfc ⊢
        omega
      · simp only [State.redispatch, List.count_append, List.count_erase_of_ne (Ne.symm h1),
          List.count_cons, List.count_nil, beq_iff_eq, if_neg h1] at hfc ⊢
        split_ifs at hfc ⊢ <;> omega
    proc := fun w f hw => by
      have e := h.proc w f hw
      by_cases h1 : (src, f0) = (w, f)
      · cases h1
        simp only [State.redispatch, List.count_append, List.count_erase_self, List.count_cons,
          List.count_nil, beq_self_eq_true, if_true]
        omega
      · simp only [State.redispatch, List.count_append, List.count_erase_of_ne (Ne.symm h1),
          List.count_cons, List.count_nil, beq_iff_eq, if_neg h1]
        omega
    proc_self := fun f => by
      have e := h.proc_self f
      simp only [State.redispatch, List.count_append, List.count_cons, List.count_nil, beq_iff_eq]
      rw [if_neg (fun h' => dst.receiver_ne_zero (Prod.mk.inj h').1)]; omega
    live := fun f => by
      rw [redispatch_requests]
      simp only [Live, State.redispatch, List.mem_append, List.mem_singleton, Prod.mk.injEq,
        not_or, Int.ofNat_inj]
      by_cases hfi : f = s.i
      · subst hfi
        simp only [if_true, Option.isSome_some, true_iff]
        refine ⟨by omega, ⟨h.fresh _, fun h' => dst.receiver_ne_zero h'.1.symm⟩, fun w => ⟨?_, ?_⟩⟩
        · exact fun hk => h.fresh _ (h.assigned_of_acked hk)
        · exact fun h' => by omega
      · rw [if_neg hfi]
        by_cases hff : f = f0
        · subst hff
          rw [if_pos rfl]
          simp only [Option.isSome_none, Bool.false_eq_true, false_iff]
          exact fun ⟨_, _, hk⟩ => (hk src).2 ⟨rfl, by trivial⟩
        · rw [if_neg hff, h.live]
          simp only [Live]
          constructor
          · rintro ⟨hf, h0, hk⟩
            exact ⟨by omega, ⟨h0, fun h' => hfi h'.2⟩, fun w => ⟨hk w, fun h' => hff h'.2⟩⟩
          · rintro ⟨hf, ⟨h0, -⟩, hk⟩
            exact ⟨by omega, h0, fun w => (hk w).1⟩
    handle := fun f d hd' => by
      rw [redispatch_requests] at hd'
      simp only [Int.ofNat_inj] at hd'
      split_ifs at hd' with hfi hff
      · cases hd'; subst hfi
        exact ⟨rfl, List.mem_append_right _ (List.mem_singleton_self _)⟩
      · obtain ⟨hp, hm⟩ := h.handle f d hd'
        exact ⟨hp, List.mem_append_left _ hm⟩
    requests_neg := fun _ k hk => by
      rw [redispatch_requests, if_neg (by omega), if_neg (by omega)]
      exact h.requests_neg hloop k hk
    coord_waits := by
      intro e he
      simp only [State.redispatch, List.mem_append, List.mem_singleton] at he
      rcases he with he | rfl
      · exact h.coord_waits e he
      · obtain ⟨d, hdr⟩ := Option.isSome_iff_exists.mp ((h.live f0).mpr (h.live_of_done hd))
        obtain ⟨hp, hm⟩ := h.handle f0 d hdr
        obtain ⟨hds, -⟩ := Dest.receiver_eq_some.mp (h.dest_unique hm ha)
        show s.requests f0 = some ⟨src, f0⟩
        rw [hdr, ← hds, ← hp] }

theorem processFrame (h : Inv c s) {w f : Nat} {rest : List Int} (hw : 1 ≤ w)
    (hch : s.frameCh w = (f : Int) :: rest) : Inv c (s.processFrame w f rest) where
  frames := h.frames
  done_src := by
    intro e he
    simp only [State.processFrame, State.setWorker, List.mem_append, List.mem_singleton] at he
    rcases he with he | rfl
    · exact h.done_src e he
    · show w ≠ 0; omega
  acked_src := h.acked_src
  chan w' f' hw' := by
    have e := h.chan w' f' hw'
    by_cases hww : w' = w
    · subst hww
      simp only [hch, List.count_cons, beq_iff_eq, Int.ofNat_inj] at e
      simp only [State.processFrame, State.setWorker, Function.update_same, List.count_append,
        List.count_cons, List.count_nil, beq_iff_eq, Prod.mk.injEq, true_and]
      split_ifs at e ⊢ <;> omega
    · simp only [State.processFrame, State.setWorker, Function.update_noteq hww, List.count_append,
        List.count_cons, List.count_nil, beq_iff_eq, Prod.mk.injEq, Ne.symm hww, false_and,
        if_false]
      omega
  proc w' f' hw' := by
    have e := h.proc w' f' hw'
    simp only [State.processFrame, State.setWorker, List.count_append, List.count_cons,
      List.count_nil, beq_iff_eq]
    split_ifs <;> omega
  proc_self f' := by
    have e := h.proc_self f'
    simp only [State.processFrame, State.setWorker, List.count_append, List.count_cons,
      List.count_nil, beq_iff_eq]
    rw [if_neg (fun h' => by have := (Prod.mk.inj h').1; omega)]; omega
  live := h.live
  handle := h.handle
  requests_neg := h.requests_neg
  coord_waits := h.coord_waits

theorem receiveStop (h : Inv c s) {w : Nat} {k : Int} {rest : List Int} (hk : k < 0)
    (hch : s.frameCh w = k :: rest) : Inv c (s.receiveStop w k rest) where
  frames := h.frames
  done_src := h.done_src
  acked_src := h.acked_src
  chan w' f' hw' := by
    have e := h.chan w' f' hw'
    simp only [State.receiveStop, State.setWorker, Function.update_apply]
    split_ifs with hww
    · subst hww
      rw [hch, List.count_cons, if_neg (by simp; omega)] at e; omega
    · exact e
  proc := h.proc
  proc_self := h.proc_self
  live := h.live
  handle := h.handle
  requests_neg := h.requests_neg
  coord_waits := h.coord_waits

end Inv

/-- **The invariant holds in every reachable state.** -/
theorem inv_reachable (hs : Reachable c s) : Inv c s := by
  refine Reachable.induction (fun _ => inv_init c) (fun s s' _ h hm => ?_) hs
  cases hm with
  | self => exact h.selfProcess
  | stop => exact h.sendStops
  | serve src f dst hloop _ hd => exact h.redispatch hloop hd
  | enter | leave | finish | fail => exact h.setWorker _ _
  | work w f rest hw _ _ hch => exact h.processFrame hw hch
  | quit w k rest _ _ _ hch hk => exact h.receiveStop hk hch

/-! ## Consequences -/

theorem nodup_map_of_count_le {α β : Type} [BEq α] [LawfulBEq α] (f : α → β) :
    ∀ {l₁ l₂ : List α}, (∀ e, l₁.count e ≤ l₂.count e) → (l₂.map f).Nodup →
      (l₁.map f).Nodup
  | [], _, _, _ => List.nodup_nil
  | a :: t, l₂, h, hn => by
    have ha : 0 < l₂.count a := by
      have := h a; rw [List.count_cons, if_pos (beq_self_eq_true a)] at this; omega
    obtain ⟨u, v, rfl⟩ := List.append_of_mem (List.count_pos_iff.mp ha)
    rw [List.map_append, List.map_cons, List.nodup_middle, ← List.map_append,
      ← List.map_cons] at hn
    have hc : ∀ e, t.count e ≤ (u ++ v).count e := fun e => by
      have := h e
      simp only [List.count_cons, List.count_append] at this ⊢
      split_ifs at this <;> omega
    have hn' := List.nodup_cons.mp hn
    rw [List.map_cons, List.nodup_cons]
    refine ⟨fun hm => hn'.1 ?_, nodup_map_of_count_le f hc hn'.2⟩
    obtain ⟨b, hb, hfb⟩ := List.mem_map.mp hm
    exact List.mem_map.mpr ⟨b, List.count_pos_iff.mp
      (Nat.lt_of_lt_of_le (List.count_pos_iff.mpr hb) (hc b)), hfb⟩

namespace Inv

theorem processed_count_le (h : Inv c s) (w f : Nat) :
    s.processed.count (w, f) ≤ s.assigned.count (some w, f) := by
  by_cases hw : w = 0
  · subst hw; exact (h.proc_self f).le
  · have := h.chan w f hw; have := h.proc w f hw; omega

theorem assigned_of_processed (h : Inv c s) {w f : Nat} (he : (w, f) ∈ s.processed) :
    (some w, f) ∈ s.assigned :=
  List.count_pos_iff.mp
    (Nat.lt_of_lt_of_le (List.count_pos_iff.mpr he) (h.processed_count_le w f))

theorem dest_of_processed (h : Inv c s) {w w' f : Nat} (hp : (w', f) ∈ s.processed)
    (ha : (some w, f) ∈ s.assigned) : w' = w :=
  Option.some.inj (h.dest_unique (h.assigned_of_processed hp) ha)

theorem unprocessed_of_astray (h : Inv c s) {f : Nat} (ha : (none, f) ∈ s.assigned) :
    s.processed.countP (fun e => e.2 = f) = 0 :=
  List.countP_eq_zero.mpr fun ⟨w, f'⟩ hp hf => by
    obtain rfl : f' = f := of_decide_eq_true hf
    cases h.dest_unique (h.assigned_of_processed hp) ha

theorem assigned_of_mem (h : Inv c s) {w f : Nat} (hw : w ≠ 0) (hm : (f : Int) ∈ s.frameCh w) :
    (some w, f) ∈ s.assigned := by
  have := h.chan w f hw
  have := List.count_pos_iff.mpr hm
  exact List.count_pos_iff.mp (by omega)

end Inv

/-! ## Two ranks, five frames -/

/-- Two ranks and five frames: `startFrame = 2`, and the worker can loop three times. -/
def fiveFrames : Config := ⟨2, 5, by decide, by decide⟩

theorem fiveFrames_astray_run :
    run fiveFrames (init fiveFrames) [.worker 1, .worker 1, .coordRecv 1 0 .procNull] =
      some ((((init fiveFrames).enterIteration fiveFrames 1).processFrame 1 0 [1]).redispatch
        1 0 .procNull) := rfl

/-- **Rank 0's `requests` map.** In every reachable state: no frame was given out twice; a
key `f ≥ 0` holds a handle exactly while `f` is live, and then the handle of the send of `f`,
to where that send went; the slot of the next send and the slots of the terminate sends are
free while rank 0 is in its loop; every wait after `DONE(f)` from `w` was on the handle of the
send of `f` to `w`; and every DONE in flight reports a frame whose send to its source is
still in the map. -/
theorem requests_bookkeeping (hs : Reachable c s) :
    (s.assigned.map Prod.snd).Nodup ∧
    (∀ f : Nat, (s.requests f).isSome ↔ Live s f) ∧
    (∀ (f : Nat) (h : Handle), s.requests f = some h →
      h.payload = f ∧ (h.dest.receiver, f) ∈ s.assigned) ∧
    (s.coordPc = .loop → s.requests s.i = none ∧ ∀ k : Int, k < 0 → s.requests k = none) ∧
    (∀ e ∈ s.coordWaits, e.2.2 = some ⟨e.2.1, e.1⟩) ∧
    (∀ e ∈ s.doneCh, s.requests e.2 = some ⟨e.1, e.2⟩) := by
  have h := inv_reachable hs
  refine ⟨h.frames ▸ List.nodup_range _, h.live, h.handle, fun hl => ⟨?_, h.requests_neg hl⟩,
    h.coord_waits, fun e he => ?_⟩
  · cases hr : s.requests s.i with
    | none => rfl
    | some d => exact absurd (h.handle _ d hr).2 (h.fresh _)
  · obtain ⟨d, hdr⟩ := Option.isSome_iff_exists.mp ((h.live e.2).mpr (h.live_of_done he))
    obtain ⟨hp, hm⟩ := h.handle e.2 d hdr
    obtain ⟨hds, -⟩ := Dest.receiver_eq_some.mp
      (h.dest_unique hm (h.outstanding_of_done he).2.1)
    rw [hdr, ← hds, ← hp]

theorem requests_bookkeeping_astray :
    ∃ s, Reachable fiveFrames s ∧ s.requests 2 = some ⟨.procNull, 2⟩ ∧ (none, 2) ∈ s.assigned ∧
      ((s.assigned.map Prod.snd).Nodup ∧
      (∀ f : Nat, (s.requests f).isSome ↔ Live s f) ∧
      (∀ (f : Nat) (h : Handle), s.requests f = some h →
        h.payload = f ∧ (h.dest.receiver, f) ∈ s.assigned) ∧
      (s.coordPc = .loop → s.requests s.i = none ∧ ∀ k : Int, k < 0 → s.requests k = none) ∧
      (∀ e ∈ s.coordWaits, e.2.2 = some ⟨e.2.1, e.1⟩) ∧
      (∀ e ∈ s.doneCh, s.requests e.2 = some ⟨e.1, e.2⟩)) :=
  have hs := (Reachable.init (by decide)).run fiveFrames_astray_run
  ⟨_, hs, rfl, by decide, requests_bookkeeping hs⟩

theorem count_map_some (l : List (Nat × Nat)) (w f : Nat) :
    (l.map fun e => (some e.1, e.2)).count (some w, f) = l.count (w, f) := by
  induction l with
  | nil => rfl
  | cons e l ih => simp [List.count_cons, ih, Prod.ext_iff]

/-- **No frame is processed twice**, by one rank or by two. -/
theorem processed_nodup (hs : Reachable c s) : (s.processed.map Prod.snd).Nodup := by
  have h := inv_reachable hs
  have hle : ∀ e, (s.processed.map fun e => (some e.1, e.2)).count e ≤ s.assigned.count e := by
    rintro ⟨r, f⟩
    cases r with
    | none => rw [List.count_eq_zero.mpr (by simp)]; exact Nat.zero_le _
    | some w => exact (count_map_some s.processed w f).trans_le (h.processed_count_le w f)
  have := nodup_map_of_count_le Prod.snd hle (h.frames ▸ List.nodup_range _)
  rwa [List.map_map] at this

end Brion.Dispatch
