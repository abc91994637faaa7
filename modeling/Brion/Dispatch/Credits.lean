import Brion.Dispatch.Order
import Mathlib.Algebra.Order.BigOperators.Group.Finset

/-!
# The pre-queue is a credit scheme

Rank 0 sends each worker `preQueue` frames before its loop (lines 212-219). A worker turns a
frame of its channel into a DONE when it processes it (lines 260-299), and rank 0 turns a DONE
it receives back into a frame for `status.MPI_SOURCE` (lines 239-249), which after the
`MPI_Wait` on a send request need not be the DONE's source: the frame can go to any worker, or
to rank 0 or `MPI_PROC_NULL`, where no rank receives it. The terminate message carries no
frame. So the workers hold `(nRanks - 1) * preQueue` credits between them, each a frame in a
worker's channel, a DONE in flight to rank 0, or a frame sent where no rank receives it.

**Theorem (`credits_conserved`).** In every reachable state the frames in the workers'
channels, their DONEs in flight and the frames sent astray number exactly
`(nRanks - 1) * preQueue`. One worker's share can grow or shrink as rank 0 answers DONEs.
-/

namespace Brion.Dispatch

variable {c : Config} {s : State}

/-- The frames of worker `w`'s channel and its DONEs in flight. -/
def credits (s : State) (w : Nat) : Nat :=
  (frames (s.frameCh w)).length + s.doneCh.countP (fun e => e.1 = w)

theorem credits_init {w : Nat} (h1 : 1 ≤ w) (h2 : w < c.nRanks) :
    credits (init c) w = c.preQueue := by
  rw [credits, ← init_frameCh_length h1 h2, init, List.countP_nil, Nat.add_zero]
  simp only [frames_map_natCast, List.length_map]

/-- The workers' credits, and the frames sent where no rank receives them. -/
def totalCredits (c : Config) (s : State) : Nat :=
  ∑ w ∈ Finset.Ico 1 c.nRanks, credits s w + s.assigned.countP (fun e => e.1 = none)

theorem totalCredits_init : totalCredits c (init c) = (c.nRanks - 1) * c.preQueue := by
  have hc : ∑ w ∈ Finset.Ico 1 c.nRanks, credits (init c) w = (c.nRanks - 1) * c.preQueue := by
    rw [Finset.sum_const_nat fun w hw => credits_init (Finset.mem_Ico.mp hw).1
      (Finset.mem_Ico.mp hw).2, Nat.card_Ico]
  have ha : (prequeue c).countP (fun e => e.1 = none) = 0 :=
    List.countP_eq_zero.mpr fun e he => by simp [(mem_prequeue.mp he).2]
  rw [totalCredits, hc]
  exact congrArg _ ha

theorem totalCredits_of_credits {s' : State} (hc : ∀ w, credits s' w = credits s w)
    (ha : s'.assigned.countP (fun e => e.1 = none) = s.assigned.countP (fun e => e.1 = none)) :
    totalCredits c s' = totalCredits c s := by
  rw [totalCredits, totalCredits, ha, Finset.sum_congr rfl fun w _ => hc w]

theorem credits_setWorker {w w' : Nat} {wk : Worker} :
    credits (s.setWorker w wk) w' = credits s w' := rfl

theorem credits_selfProcess (w : Nat) : credits s.selfProcess w = credits s w := rfl

theorem credits_sendStops (w : Nat) : credits (s.sendStops c) w = credits s w := by
  simp only [credits, State.sendStops]
  split_ifs
  · rw [frames_append, frames_cons_neg (by omega), frames_nil, List.append_nil]
  · rfl

theorem countP_erase_add {l : List (Nat × Nat)} {a : Nat × Nat} (h : a ∈ l)
    (p : Nat × Nat → Bool) :
    (l.erase a).countP p + (if p a then 1 else 0) = l.countP p := by
  induction l with
  | nil => cases h
  | cons b l ih =>
    rw [List.erase_cons]
    by_cases hb : b = a
    · subst hb; simp [List.countP_cons]
    · have := ih ((List.mem_cons.mp h).resolve_left (Ne.symm hb))
      simp only [beq_iff_eq, hb, if_false, List.countP_cons]
      omega

/-- Rank 0 receives `DONE(f)` from `src` and sends frame `i` to `dst`: `src` loses the credit
of a DONE, and `dst` gains one in its channel. -/
theorem credits_redispatch {src f : Nat} {dst : Dest} (hd : (src, f) ∈ s.doneCh) (w : Nat) :
    credits (s.redispatch src f dst) w + (if src = w then 1 else 0) =
      credits s w + if dst = .rank w then 1 else 0 := by
  have he := countP_erase_add hd (fun e => e.1 = w)
  have hf : (frames (if dst = .rank w then [(s.i : Int)] else [])).length =
      if dst = .rank w then 1 else 0 := by
    split_ifs <;> simp
  rw [credits, credits, State.redispatch_frameCh, frames_append, List.length_append, hf]
  simp only [State.redispatch, decide_eq_true_eq] at he ⊢
  omega

theorem Dest.sum_rank {dst : Dest} (hv : dst.valid c) :
    ∑ w ∈ Finset.Ico 1 c.nRanks, (if dst = .rank w then 1 else 0) +
      (if dst.receiver = none then 1 else 0) = 1 := by
  cases dst with
  | procNull => simp [Dest.receiver]
  | rank r =>
    simp only [Dest.valid, decide_eq_true_eq] at hv
    simp only [Dest.rank.injEq, Finset.sum_ite_eq, Finset.mem_Ico, Dest.receiver]
    by_cases h0 : r = 0
    · simp [h0]
    · simp [h0, Nat.one_le_iff_ne_zero.mpr h0, hv]

/-- The credit `src` loses goes to `dst`, to a worker or astray. -/
theorem totalCredits_redispatch (hi : Inv c s) (hw : WInv c s) {src f : Nat} {dst : Dest}
    (hd : (src, f) ∈ s.doneCh) (hv : dst.valid c) :
    totalCredits c (s.redispatch src f dst) = totalCredits c s := by
  have hsrc : src ∈ Finset.Ico 1 c.nRanks :=
    Finset.mem_Ico.mpr ⟨Nat.one_le_iff_ne_zero.mpr (hi.done_src _ hd), hw.done_lt _ hd⟩
  have hsum := Finset.sum_congr rfl fun w (_ : w ∈ Finset.Ico 1 c.nRanks) =>
    (credits_redispatch hd w : credits (s.redispatch src f dst) w + _ = _)
  rw [Finset.sum_add_distrib, Finset.sum_add_distrib, Finset.sum_ite_eq, if_pos hsrc] at hsum
  have hr := Dest.sum_rank hv
  have ha : (s.redispatch src f dst).assigned.countP (fun e => e.1 = none) =
      s.assigned.countP (fun e => e.1 = none) + if dst.receiver = none then 1 else 0 := by
    simp only [State.redispatch, List.countP_append, List.countP_singleton, decide_eq_true_eq]
  rw [totalCredits, totalCredits, ha]
  omega

theorem credits_processFrame {w f : Nat} {rest : List Int}
    (hch : s.frameCh w = (f : Int) :: rest) (w' : Nat) :
    credits (s.processFrame w f rest) w' = credits s w' := by
  simp only [credits, State.processFrame, State.setWorker, Function.update_apply,
    List.countP_append, List.countP_singleton, decide_eq_true_eq]
  split_ifs with e e' e'
  · subst e; rw [hch, frames_cons_natCast, List.length_cons]; omega
  · exact absurd e.symm e'
  · exact absurd e'.symm e
  · rfl

theorem credits_receiveStop {w : Nat} {k : Int} {rest : List Int} (hk : k < 0)
    (hch : s.frameCh w = k :: rest) (w' : Nat) :
    credits (s.receiveStop w k rest) w' = credits s w' := by
  simp only [credits, State.receiveStop, State.setWorker, Function.update_apply]
  split_ifs with e
  · subst e; rw [hch, frames_cons_neg hk]
  · rfl

/-- **The pre-queue is a credit scheme.** In every reachable state the frames in the workers'
channels, their DONEs in flight and the frames sent where no rank receives them number exactly
`(nRanks - 1) * preQueue`. -/
theorem credits_conserved (hs : Reachable c s) :
    ∑ w ∈ Finset.Ico 1 c.nRanks, credits s w + s.assigned.countP (fun e => e.1 = none) =
      (c.nRanks - 1) * c.preQueue := by
  refine Reachable.induction (P := fun s => totalCredits c s = (c.nRanks - 1) * c.preQueue)
    (fun _ => totalCredits_init) (fun s s' hs h hm => ?_) hs
  refine Eq.trans ?_ h
  cases hm with
  | self =>
    refine totalCredits_of_credits credits_selfProcess ?_
    simp [State.selfProcess, List.countP_append]
  | stop => exact totalCredits_of_credits credits_sendStops rfl
  | serve _ _ _ _ _ hd hv =>
    exact totalCredits_redispatch (inv_reachable hs) (winv_reachable hs) hd hv
  | enter | leave | finish | fail => exact totalCredits_of_credits (fun _ => credits_setWorker) rfl
  | work _ _ _ _ _ _ hch => exact totalCredits_of_credits (credits_processFrame hch) rfl
  | quit _ _ _ _ _ _ hch hk => exact totalCredits_of_credits (credits_receiveStop hk hch) rfl

theorem credits_conserved_fiveFrames :
    ∃ s, Reachable fiveFrames s ∧ credits s 1 = 1 ∧
      s.assigned.countP (fun e => e.1 = none) = 1 ∧
      ∑ w ∈ Finset.Ico 1 fiveFrames.nRanks, credits s w +
        s.assigned.countP (fun e => e.1 = none) = (fiveFrames.nRanks - 1) * fiveFrames.preQueue :=
  have hs := (Reachable.init (by decide)).run fiveFrames_astray_run
  ⟨_, hs, by decide, by decide, credits_conserved hs⟩

end Brion.Dispatch
