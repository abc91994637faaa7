import Brion.Dispatch.Handshake

/-!
# Each rank processes its frames in the order it was given them

Rank 0 sends each worker its frames over one FIFO channel: first the pre-queue,
`(w-1) * preQueue + j` for `j < preQueue`, then each frame `i` of its loop as it answers a
DONE. Its counter `i` only grows, and the frames it gives out are `0, 1, …, i - 1` in order
(`Inv.frames`). A worker takes the head of its channel. So what a worker processed, followed
by the frames still in its channel, is exactly the list of frames sent to it, in the order
they were sent (`OInv`): nothing is lost, duplicated or reordered in between. The frames rank 0
keeps are processed at once; those it sends into its own channel (a redispatch to rank 0) are
never received, and count as given to no rank.

**Theorem (`processed_in_order`).** In every reachable state, each rank has processed a
prefix of the frames it was given, in the order it was given them, and so in strictly
increasing frame order. A rank's `writeFrame` times are the `float` times of these frames, so
they do not decrease (`FloatTime.frameTime_mono`); two of them can coincide.
-/

namespace Brion.Dispatch

variable {c : Config} {s : State}

/-- The frames rank `w` processed, in the order it processed them. -/
def framesOf (s : State) (w : Nat) : List Nat :=
  (s.processed.filter fun e => e.1 = w).map Prod.snd

/-- The frames rank 0 gave rank `w` (`0`: kept itself), in the order it gave them. -/
def sentTo (s : State) (w : Nat) : List Nat :=
  (s.assigned.filter fun e => e.1 = some w).map Prod.snd

theorem length_framesOf (s : State) (w : Nat) : (framesOf s w).length = framesDone s w := by
  rw [framesOf, List.length_map, framesDone, List.countP_eq_length_filter]

/-- The frames of a channel, without its terminate messages. -/
def frames (ch : List Int) : List Nat :=
  ch.filterMap fun k => if 0 ≤ k then some k.toNat else none

@[simp] theorem frames_nil : frames [] = [] := rfl

@[simp] theorem frames_cons_natCast (f : Nat) (ch : List Int) :
    frames ((f : Int) :: ch) = f :: frames ch := by
  simp only [frames, List.filterMap_cons, if_pos (Int.ofNat_nonneg f), Int.toNat_ofNat]

theorem frames_cons_neg {k : Int} (hk : k < 0) (ch : List Int) : frames (k :: ch) = frames ch := by
  simp [frames, not_le.mpr hk]

@[simp] theorem frames_append (ch ch' : List Int) : frames (ch ++ ch') = frames ch ++ frames ch' :=
  List.filterMap_append _ _ _

@[simp] theorem frames_map_natCast {α : Type} (g : α → Nat) (l : List α) :
    frames (l.map fun a => (g a : Int)) = l.map g := by
  induction l with
  | nil => rfl
  | cons a l ih => rw [List.map_cons, frames_cons_natCast, ih, List.map_cons]

theorem filter_snd_append {α : Type} [DecidableEq α] (l : List (α × Nat)) (a : α) (f : Nat)
    (w : α) : ((l ++ [(a, f)]).filter fun e => e.1 = w).map Prod.snd =
      (l.filter fun e => e.1 = w).map Prod.snd ++ if a = w then [f] else [] := by
  by_cases h : a = w <;> simp [List.filter_append, h]

theorem framesOf_selfProcess {w : Nat} (hw : w ≠ 0) : framesOf s.selfProcess w = framesOf s w := by
  simp only [framesOf, State.selfProcess, filter_snd_append, if_neg (Ne.symm hw), List.append_nil]

theorem framesOf_processFrame {w f : Nat} {rest : List Int} (w' : Nat) :
    framesOf (s.processFrame w f rest) w' = framesOf s w' ++ if w = w' then [f] else [] :=
  filter_snd_append _ _ _ _

/-- What the FIFO channels keep. -/
structure OInv (s : State) : Prop where
  /-- A worker's processed frames, then the frames in its channel, are the frames it was given,
  in order. -/
  fifo : ∀ w, w ≠ 0 → framesOf s w ++ frames (s.frameCh w) = sentTo s w
  /-- Rank 0 processes the frames it keeps as it keeps them. -/
  kept : framesOf s 0 = sentTo s 0

theorem oinv_init : OInv (init c) where
  fifo w _ := by simp [framesOf, sentTo, init]
  kept := by
    simp only [framesOf, sentTo, init, List.filter_nil, List.map_nil, List.nil_eq,
      List.map_eq_nil_iff, List.filter_eq_nil_iff, decide_eq_true_eq]
    rintro ⟨r, f⟩ h rfl
    exact not_mem_prequeue_zero c f h

namespace OInv

theorem setWorker (h : OInv s) {w : Nat} {wk : Worker} : OInv (s.setWorker w wk) :=
  ⟨h.fifo, h.kept⟩

theorem selfProcess (h : OInv s) : OInv s.selfProcess where
  fifo w hw := by
    rw [framesOf_selfProcess hw]
    simp only [sentTo, State.selfProcess, filter_snd_append, Option.some_inj,
      if_neg (Ne.symm hw), List.append_nil]
    exact h.fifo w hw
  kept := by
    simp only [framesOf, sentTo, State.selfProcess, filter_snd_append]
    exact congrArg (· ++ _) h.kept

/-- Rank 0 appends frame `i` to the channel of `dst`, and gives it to the rank that receives
it there, if any. -/
theorem redispatch (h : OInv s) {src f : Nat} {dst : Dest} : OInv (s.redispatch src f dst) where
  fifo w hw := by
    have hr : dst.receiver = some w ↔ dst = .rank w := by
      rw [Dest.receiver_eq_some]; exact ⟨And.left, fun e => ⟨e, hw⟩⟩
    have := h.fifo w hw
    simp only [framesOf, sentTo, State.redispatch, Dest.post_apply, frames_append,
      filter_snd_append, hr] at this ⊢
    rw [← this]
    split_ifs <;> simp
  kept := by
    simp only [framesOf, sentTo, State.redispatch, filter_snd_append,
      if_neg (Dest.receiver_ne_zero dst), List.append_nil]
    exact h.kept

theorem sendStops (h : OInv s) : OInv (s.sendStops c) where
  fifo w hw := by
    show framesOf s w ++ frames (if 1 ≤ w ∧ w < c.nRanks then _ else _) = sentTo s w
    split_ifs
    · rw [frames_append, ← h.fifo w (by omega), frames_cons_neg (by omega), frames_nil,
        List.append_nil]
    · exact h.fifo w hw
  kept := h.kept

theorem processFrame (h : OInv s) {w f : Nat} {rest : List Int} (hw : w ≠ 0)
    (hch : s.frameCh w = (f : Int) :: rest) : OInv (s.processFrame w f rest) where
  fifo w' hw' := by
    have := h.fifo w' hw'
    simp only [framesOf, sentTo, State.processFrame, State.setWorker, filter_snd_append,
      Function.update_apply] at this ⊢
    by_cases e : w' = w
    · subst e
      rw [hch, frames_cons_natCast] at this
      simp only [if_true, ← this, List.append_assoc, List.singleton_append]
    · simpa [e, Ne.symm e] using this
  kept := by
    rw [framesOf_processFrame, if_neg hw, List.append_nil]
    exact h.kept

theorem receiveStop (h : OInv s) {w : Nat} {k : Int} {rest : List Int} (hk : k < 0)
    (hch : s.frameCh w = k :: rest) : OInv (s.receiveStop w k rest) where
  fifo w' hw' := by
    show framesOf s w' ++ frames (Function.update s.frameCh w rest w') = sentTo s w'
    rw [Function.update_apply]
    split_ifs with e
    · subst e; rw [← h.fifo w' hw', hch, frames_cons_neg hk]
    · exact h.fifo w' hw'
  kept := h.kept

end OInv

theorem oinv_reachable (hs : Reachable c s) : OInv s := by
  refine Reachable.induction (fun _ => oinv_init) (fun s s' hs h hm => ?_) hs
  cases hm with
  | self => exact h.selfProcess
  | stop => exact h.sendStops
  | serve => exact h.redispatch
  | enter | leave | finish | fail => exact h.setWorker
  | work _ _ _ h1 _ _ hch => exact h.processFrame (by omega) hch
  | quit _ _ _ _ _ _ hch hk => exact h.receiveStop hk hch

/-- The frames given to a rank are in increasing order: rank 0 gives out `0, 1, …` in turn. -/
theorem sentTo_sorted (hs : Reachable c s) (w : Nat) : (sentTo s w).Pairwise (· < ·) := by
  have hsub : (sentTo s w).Sublist (s.assigned.map Prod.snd) :=
    (List.filter_sublist _).map _
  rw [(inv_reachable hs).frames] at hsub
  exact (List.pairwise_lt_range _).sublist hsub

theorem framesOf_isPrefix_sentTo (hs : Reachable c s) (w : Nat) : framesOf s w <+: sentTo s w := by
  by_cases hw : w = 0
  · subst hw; rw [(oinv_reachable hs).kept]
  · exact ⟨_, (oinv_reachable hs).fifo w hw⟩

theorem framesOf_sorted (hs : Reachable c s) (w : Nat) : (framesOf s w).Pairwise (· < ·) :=
  (sentTo_sorted hs w).sublist (framesOf_isPrefix_sentTo hs w).sublist

/-- **Each rank processes its frames in the order it was given them.** What a rank has
processed is a prefix of the frames it was given, so its frames are processed, and written,
in strictly increasing frame order. -/
theorem processed_in_order (hs : Reachable c s) (w : Nat) :
    framesOf s w <+: sentTo s w ∧ (framesOf s w).Pairwise (· < ·) :=
  ⟨framesOf_isPrefix_sentTo hs w, framesOf_sorted hs w⟩

theorem processed_in_order_fiveFrames :
    ∃ s, Reachable fiveFrames s ∧ framesOf s 1 = [0, 1] ∧
      (framesOf s 1 <+: sentTo s 1 ∧ (framesOf s 1).Pairwise (· < ·)) :=
  have hs := (Reachable.init (by decide)).run fiveFrames_run
  ⟨_, hs, rfl, processed_in_order hs 1⟩

end Brion.Dispatch
