import Brion.Dispatch.Covering
import Mathlib.Algebra.Order.Ring.Nat

/-!
# The dispatcher refines a conversion that writes each frame once

What the frame loop is for, as an abstract machine: `Converts n` writes, one step at a time, a
frame of `[0, n)` it has not written before, in any order. A run of it writes distinct frames
below `n` (`Converts.nodup_lt`), and has written every frame exactly once when it has written
`n` of them (`Converts.count_eq_one_iff`).

The dispatcher's processed frames, in order (`written`), follow that machine: rank 0 keeping
frame `i` writes a frame it never gave out, a worker writes the head of its channel, which no
rank has processed (`Inv.unprocessed_of_mem`), and every other move writes nothing.

**Theorem (`dispatcher_refines`).** In every reachable state the written frames are a run of
`Converts nFrames`, and every move from it is a stutter or one step of `Converts nFrames`.

**Theorem (`covered_iff_framesDone_sum`).** In every reachable state every frame was processed
exactly once iff the ranks' `framesDone` counters, which each rank prints at its end, add up
to `nFrames`.
-/

namespace Brion.Dispatch

/-! ## The abstract conversion -/

/-- One step of the conversion of `n` frames: write a frame of `[0, n)` not written yet. -/
inductive Writes (n : Nat) : List Nat → List Nat → Prop
  | write {l : List Nat} {f : Nat} : f < n → f ∉ l → Writes n l (l ++ [f])

/-- The runs of the conversion of `n` frames, from nothing written. -/
inductive Converts (n : Nat) : List Nat → Prop
  | nil : Converts n []
  | write {l l' : List Nat} : Converts n l → Writes n l l' → Converts n l'

namespace Converts

variable {n : Nat} {l : List Nat}

/-- A run writes distinct frames, all below `n`. -/
theorem nodup_lt (h : Converts n l) : l.Nodup ∧ ∀ f ∈ l, f < n := by
  induction h with
  | nil => exact ⟨List.nodup_nil, nofun⟩
  | write _ hw ih =>
    obtain ⟨hf, hnot⟩ := hw
    refine ⟨List.nodup_append.mpr ⟨ih.1, List.nodup_singleton _, fun a ha hb => ?_⟩,
      fun g hg => ?_⟩
    · exact hnot (List.mem_singleton.mp hb ▸ ha)
    · rcases List.mem_append.mp hg with hg | hg
      · exact ih.2 g hg
      · rw [List.mem_singleton.mp hg]; exact hf

/-- A run has written every frame exactly once when it has written `n` frames. -/
theorem count_eq_one_iff (h : Converts n l) : (∀ f < n, l.count f = 1) ↔ l.length = n := by
  obtain ⟨hnd, hlt⟩ := h.nodup_lt
  have hsub : l.Subperm (List.range n) := hnd.subperm fun f hf => List.mem_range.mpr (hlt f hf)
  constructor
  · intro hc
    have hsup : (List.range n).Subperm l := (List.nodup_range n).subperm fun f hf =>
      List.count_pos_iff.mp (by rw [hc f (List.mem_range.mp hf)]; exact Nat.one_pos)
    have h1 := hsub.length_le
    have h2 := hsup.length_le
    rw [List.length_range] at h1 h2
    omega
  · intro hlen f hf
    rw [(hsub.perm_of_length_le (by rw [List.length_range, hlen])).count_eq,
      List.count_eq_one_of_mem (List.nodup_range n) (List.mem_range.mpr hf)]

end Converts

/-! ## The dispatcher follows it -/

variable {c : Config} {s : State}

/-- The frames processed so far, in order. -/
def written (s : State) : List Nat := s.processed.map Prod.snd

theorem count_written (s : State) (f : Nat) :
    (written s).count f = s.processed.countP (fun e => e.2 = f) := by
  rw [written, List.count, List.countP_map]; rfl

/-- A move writes a frame below `nFrames` that no rank processed before, or none. -/
theorem written_step (hs : Reachable c s) {s' : State} (hm : Moves c s s') :
    written s' = written s ∨ Writes c.nFrames (written s) (written s') := by
  have hi := inv_reachable hs
  cases hm with
  | self _ hlt =>
    refine .inr ?_
    show Writes _ _ ((s.processed ++ [(0, s.i)]).map Prod.snd)
    rw [List.map_append]
    refine .write hlt fun hmem => ?_
    obtain ⟨e, he, hei⟩ := List.mem_map.mp hmem
    exact absurd (hi.lt_of_assigned (hi.assigned_of_processed he)) (by rw [hei]; omega)
  | work w f rest h1 _ _ hch =>
    refine .inr ?_
    show Writes _ _ ((s.processed ++ [(w, f)]).map Prod.snd)
    rw [List.map_append]
    have hm : (f : Int) ∈ s.frameCh w := hch ▸ List.mem_cons_self _ _
    refine .write ((hi.lt_of_assigned (hi.assigned_of_mem (by omega) hm)).trans_le
      (winv_reachable hs).coord_le) fun hmem => ?_
    have h0 := hi.unprocessed_of_mem (by omega) hm
    rw [← count_written, List.count_eq_zero] at h0
    exact h0 hmem
  | stop | serve | enter | leave | quit | finish | fail => exact .inl rfl

theorem converts_written (hs : Reachable c s) : Converts c.nFrames (written s) := by
  refine Reachable.induction (P := fun s => Converts c.nFrames (written s))
    (fun _ => Converts.nil) (fun s s' hs h hm => ?_) hs
  rcases written_step hs hm with e | hw
  · rwa [e]
  · exact h.write hw

/-- **The dispatcher refines the conversion that writes each frame once.** In every reachable
state the processed frames are a run of `Converts nFrames`, and every move from the state
leaves them as they are or writes one more frame below `nFrames`, not written before. -/
theorem dispatcher_refines (hs : Reachable c s) :
    Converts c.nFrames (written s) ∧
      ∀ s', Moves c s s' → written s' = written s ∨ Writes c.nFrames (written s) (written s') :=
  ⟨converts_written hs, fun _ => written_step hs⟩

theorem dispatcher_refines_fiveFrames :
    ∃ s, Reachable fiveFrames s ∧ written s = [2, 3, 4, 0, 1] ∧
      (Converts fiveFrames.nFrames (written s) ∧ ∀ s', Moves fiveFrames s s' →
        written s' = written s ∨ Writes fiveFrames.nFrames (written s) (written s')) :=
  have hs := (Reachable.init (by decide)).run fiveFrames_run
  ⟨_, hs, rfl, dispatcher_refines hs⟩

/-! ## The printed frame counts -/

theorem countP_fst_lt_succ (l : List (Nat × Nat)) (n : Nat) :
    l.countP (fun e => e.1 < n + 1) =
      l.countP (fun e => e.1 < n) + l.countP (fun e => e.1 = n) := by
  induction l with
  | nil => rfl
  | cons e l ih =>
    simp only [List.countP_cons, ih, decide_eq_true_eq]
    split_ifs <;> omega

theorem sum_framesDone (s : State) (n : Nat) :
    ((List.range n).map (framesDone s)).sum = s.processed.countP (fun e => e.1 < n) := by
  induction n with
  | zero => simp
  | succ n ih =>
    rw [List.range_succ, List.map_append, List.sum_append, ih, countP_fst_lt_succ]
    simp [framesDone]

/-- **The printed frame counts add up to `nFrames` exactly when every frame was processed
once.** Each rank prints its `framesDone` at its end (line 343). -/
theorem covered_iff_framesDone_sum (hs : Reachable c s) :
    Covered c s ↔ ((List.range c.nRanks).map (framesDone s)).sum = c.nFrames := by
  have hwi := winv_reachable hs
  have hi := inv_reachable hs
  have hall : s.processed.countP (fun e => e.1 < c.nRanks) = (written s).length := by
    rw [written, List.length_map, List.countP_eq_length]
    exact fun _ he => decide_eq_true (hwi.assigned_lt _ (hi.assigned_of_processed he) _ rfl)
  rw [sum_framesDone, hall, ← (converts_written hs).count_eq_one_iff]
  simp only [Covered, count_written]

theorem covered_iff_framesDone_sum_fiveFrames :
    ∃ s, Reachable fiveFrames s ∧ ((List.range 2).map (framesDone s)).sum = 5 ∧
      (Covered fiveFrames s ↔
        ((List.range fiveFrames.nRanks).map (framesDone s)).sum = fiveFrames.nFrames) :=
  have hs := (Reachable.init (by decide)).run fiveFrames_run
  ⟨_, hs, rfl, covered_iff_framesDone_sum hs⟩

end Brion.Dispatch
