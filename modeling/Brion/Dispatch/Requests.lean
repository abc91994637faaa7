import Brion.Dispatch.Order

/-!
# Every DONE send of a worker is waited on

A worker posts each DONE with `MPI_Isend( &frame, …, &clientRequest )` (line 297), waits on
`clientRequest` at the top of every iteration but its first (lines 258-259), and once more after
its loop (line 330). `clientRequest` is one handle: a send posted over it before the previous
one was waited on would leave that request never completed.

**Theorem (`done_requests_waited`).** In every reachable state, a worker's `clientRequest`
holds its latest DONE send; in `MPI_Recv`, before it processes its next frame and posts the
next send, it has waited on every DONE it sent; and at the barrier it has waited on all of
them.

The invariant is one worker's (`Served`): each move of that worker keeps it (one lemma per
move), and no other move touches its processed frames or its control (`DInv`).
-/

namespace Brion.Dispatch

variable {c : Config} {s : State}

/-- What a worker's `clientRequest` and waits keep, given the frames `l` it processed. -/
structure Served (l : List Nat) (wk : Worker) : Prop where
  /-- `clientRequest` holds the latest DONE send. -/
  last : wk.clientRequest = l.getLast?
  /-- Every DONE send but the latest was waited on. -/
  waited : ∀ f ∈ l.dropLast, some f ∈ wk.waits
  /-- In `MPI_Recv`, and at the barrier, every DONE send was waited on. -/
  waited_all : wk.pc = .recv ∨ wk.pc = .barrier → ∀ f ∈ l, some f ∈ wk.waits

theorem mem_waits_append {l : List Nat} {ws : List (Option Nat)}
    (h : ∀ f ∈ l.dropLast, some f ∈ ws) : ∀ f ∈ l, some f ∈ ws ++ [l.getLast?] := by
  rcases List.eq_nil_or_concat l with rfl | ⟨l, a, rfl⟩
  · nofun
  · rw [List.concat_eq_append, List.dropLast_concat] at *
    rw [List.getLast?_concat]
    intro f hf
    rcases List.mem_append.mp hf with hf | hf
    · exact List.mem_append_left _ (h f hf)
    · rw [List.mem_singleton.mp hf]; exact List.mem_append_right _ (List.mem_singleton_self _)

namespace Served

variable {l : List Nat} {wk : Worker}

/-- Lines 256-259: entering an iteration waits on `clientRequest`, except in the first. -/
theorem enter (h : Served l wk) (hfirst : wk.i = c.startFrame → l = []) :
    Served l { wk with
      pc := .recv
      waits := if wk.i = c.startFrame then wk.waits else wk.waits ++ [wk.clientRequest] } where
  last := h.last
  waited f hf := by
    split_ifs
    · exact h.waited f hf
    · exact List.mem_append_left _ (h.waited f hf)
  waited_all _ := by
    split_ifs with hi
    · rw [hfirst hi]; nofun
    · rw [h.last]; exact mem_waits_append h.waited

/-- Lines 226 and 262-264: leaving the loop keeps the waits. -/
theorem exit {stop : Option Int} (h : Served l wk) :
    Served l { wk with pc := .exited, stop := stop } :=
  ⟨h.last, h.waited, by simp⟩

/-- Lines 260-299: processing frame `f` in `MPI_Recv` posts the DONE send of `f` over
`clientRequest`, once every earlier one was waited on. -/
theorem work {f : Nat} (h : Served l wk) (hpc : wk.pc = .recv) :
    Served (l ++ [f]) { wk with i := wk.i + 1, pc := .top, clientRequest := some f } where
  last := (List.getLast?_concat l).symm
  waited := by rw [List.dropLast_concat]; exact h.waited_all (.inl hpc)
  waited_all := by simp

/-- Lines 327-331: the last wait on `clientRequest`. -/
theorem finish (h : Served l wk) :
    Served l { wk with pc := .barrier, waits := wk.waits ++ [wk.clientRequest] } where
  last := h.last
  waited f hf := List.mem_append_left _ (h.waited f hf)
  waited_all _ := by rw [h.last]; exact mem_waits_append h.waited

/-- Lines 327-331: the last wait on `clientRequest`, on an unset handle, does not return. -/
theorem fail (h : Served l wk) :
    Served l { wk with pc := .failed, waits := wk.waits ++ [wk.clientRequest] } where
  last := h.last
  waited f hf := List.mem_append_left _ (h.waited f hf)
  waited_all := nofun

end Served

/-- Every worker keeps `Served`. -/
def DInv (s : State) : Prop := ∀ w, w ≠ 0 → Served (framesOf s w) (s.workers w)

namespace DInv

theorem init : DInv (Dispatch.init c) := fun _ _ => ⟨rfl, nofun, nofun⟩

theorem setWorker (h : DInv s) {w : Nat} {wk : Worker} (hw : w ≠ 0 → Served (framesOf s w) wk) :
    DInv (s.setWorker w wk) := fun w' hw' => by
  show Served (framesOf s w') _
  rw [setWorker_workers]
  split_ifs with e
  · subst e; exact hw hw'
  · exact h w' hw'

theorem selfProcess (h : DInv s) : DInv s.selfProcess := fun w hw => by
  rw [framesOf_selfProcess hw]; exact h w hw

theorem processFrame (h : DInv s) {w f : Nat} {rest : List Int}
    (hpc : (s.workers w).pc = .recv) : DInv (s.processFrame w f rest) := fun w' hw' => by
  rw [framesOf_processFrame, processFrame_workers]
  by_cases e : w' = w
  · subst e; rw [if_pos rfl, if_pos rfl]; exact (h w' hw').work hpc
  · rw [if_neg (Ne.symm e), if_neg e, List.append_nil]; exact h w' hw'

end DInv

theorem dinv_reachable (hs : Reachable c s) : DInv s := by
  refine Reachable.induction (fun _ => DInv.init) (fun s s' hs h hm => ?_) hs
  have hwi := winv_reachable hs
  cases hm with
  | self => exact h.selfProcess
  | stop | serve => exact h
  | enter w =>
    refine h.setWorker fun hw => (h w hw).enter fun hi => ?_
    have := hwi.counter w hw
    rw [← List.length_eq_zero, length_framesOf]; omega
  | leave w => exact h.setWorker fun hw => (h w hw).exit
  | work _ _ _ _ _ hpc => exact h.processFrame hpc
  | quit w k rest => exact h.setWorker fun hw => (h w hw).exit
  | finish w => exact h.setWorker fun hw => (h w hw).finish
  | fail w => exact h.setWorker fun hw => (h w hw).fail

/-- **Every DONE send of a worker is waited on.** `clientRequest` holds a worker's latest
DONE send; in `MPI_Recv`, before it posts another, it has waited on every one it sent; and at
the barrier on all of them. -/
theorem done_requests_waited (hs : Reachable c s) {w : Nat} (hw : w ≠ 0) :
    (s.workers w).clientRequest = (framesOf s w).getLast? ∧
      ((s.workers w).pc = .recv ∨ (s.workers w).pc = .barrier →
        ∀ f ∈ framesOf s w, some f ∈ (s.workers w).waits) :=
  have h := dinv_reachable hs w hw
  ⟨h.last, h.waited_all⟩

theorem done_requests_waited_fiveFrames :
    ∃ s, Reachable fiveFrames s ∧ (1 : Nat) ≠ 0 ∧ framesOf s 1 = [0, 1] ∧
      (s.workers 1).pc = .barrier ∧
      ((s.workers 1).clientRequest = (framesOf s 1).getLast? ∧
        ((s.workers 1).pc = .recv ∨ (s.workers 1).pc = .barrier →
          ∀ f ∈ framesOf s 1, some f ∈ (s.workers 1).waits)) :=
  have hs := (Reachable.init (by decide)).run fiveFrames_run
  ⟨_, hs, one_ne_zero, rfl, rfl, done_requests_waited hs one_ne_zero⟩

end Brion.Dispatch
