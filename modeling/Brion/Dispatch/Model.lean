import Mathlib.Data.List.Range
import Mathlib.Data.List.Count
import Mathlib.Logic.Function.Basic
import Mathlib.Algebra.Group.Nat.Basic

/-!
# The frame dispatcher, as a message-passing system

The frame loop of `apps/compartmentConverter.cpp` (lines 194-334, built with MPI). Rank 0 is
the coordinator and ranks `1 .. nRanks-1` are workers; all of them run the same loop
`for( size_t i = startFrame; i < nFrames; ++i )`.

* Before the loop rank 0 sends `preQueue` FRAME messages to each worker (`prequeue`).
* In the loop rank 0 probes for a DONE. If one is there it receives it, waits on and erases
  the request of the reported frame, and sends frame `i` to `status.MPI_SOURCE`; otherwise it
  processes frame `i` itself. After the loop it sends `FRAME(-w)` to every worker `w`.
* A worker waits on its previous DONE send (except in its first iteration), receives a
  FRAME, leaves the loop on a negative one, and otherwise processes the frame and sends
  DONE. After the loop it waits on `clientRequest` once more.

**The model.** `State` holds the coordinator's loop counter, its `requests` map and its
position; each worker's loop counter, position and `clientRequest`; a FIFO FRAME channel
per rank; and the DONE messages in flight, which rank 0 may receive in any order. The
scheduler's choices are the actions `Act`: which rank moves, whether `MPI_Iprobe` reports a
DONE (it may report none even when one is in flight), and which DONE `MPI_Recv` takes.

`MPI_Wait( &requests[frame], &status )` on a send request rewrites `status`, whose fields are
then undefined, before line 246 reads `status.MPI_SOURCE`. So the destination of a re-dispatched
frame is a choice too (`Dest`): any rank, or `MPI_PROC_NULL`. A value that names no rank
aborts the program, which is no move. Likewise the wait on a `clientRequest` that no send set
is undefined: it returns (`finishWorker`) or it does not (`failWorker`).

A worker's receive, the processing and the DONE send are one step: nothing another rank
does can observe the state between them. A non-blocking send carries the value its buffer
held when it was posted, and an `MPI_Wait` on a posted send returns at once: no step ever
blocks except a receive on an empty channel. Frame indices are the numbers they stand for:
`Config` keeps `nFrames` below `2 ^ 31`, where the code's `int` conversions are exact
(`Brion.FrameIndex`).

Ghost fields record which frames rank 0 gave out and to which rank (`assigned`), which DONEs
it received (`acked`), which frames each rank processed (`processed`), and the handles every
`MPI_Wait` was given.
-/

namespace Brion.Dispatch

/-- The run's parameters. -/
structure Config where
  /-- `mpi.getSize()`. -/
  nRanks : Nat
  /-- `nFrames = ( end - start ) / step`. -/
  nFrames : Nat
  /-- MPI runs at least one process. -/
  one_le : 1 ≤ nRanks
  /-- `int frame = i` and the `MPI_INT` sends keep every frame index. -/
  frames_lt : nFrames < 2 ^ 31

namespace Config

/-- `preQueue = std::max( 2, int( nFrames>>9 ))`. -/
def preQueue (c : Config) : Nat := max 2 (c.nFrames >>> 9)

/-- `startFrame = ( nRanks-1 ) * preQueue`: the frames sent before the loop. -/
def startFrame (c : Config) : Nat := (c.nRanks - 1) * c.preQueue

theorem two_le_preQueue (c : Config) : 2 ≤ c.preQueue := le_max_left _ _

theorem preQueue_pos (c : Config) : 0 < c.preQueue := by
  have := c.two_le_preQueue; omega

theorem startFrame_add_preQueue (c : Config) :
    c.startFrame + c.preQueue = c.nRanks * c.preQueue := by
  rw [startFrame, ← Nat.succ_mul, Nat.succ_eq_add_one, Nat.sub_add_cancel c.one_le]

end Config

/-- The destination of a FRAME send. -/
inductive Dest
  /-- Rank `r`. -/
  | rank (r : Nat)
  /-- `MPI_PROC_NULL`: the send completes and delivers nothing. -/
  | procNull
deriving DecidableEq, Repr

instance : Coe Nat Dest := ⟨Dest.rank⟩

instance (n : Nat) : OfNat Dest n := ⟨.rank n⟩

namespace Dest

/-- `MPI_Isend` accepts a rank of the world or `MPI_PROC_NULL`. -/
def valid (c : Config) : Dest → Bool
  | rank r => decide (r < c.nRanks)
  | procNull => true

/-- The rank whose `MPI_Recv` takes a FRAME sent to `d`: rank 0 never receives one. -/
def receiver : Dest → Option Nat
  | rank r => if r = 0 then none else some r
  | procNull => none

/-- The channels after `MPI_Isend` of `k` to `d`. -/
def post (d : Dest) (ch : Nat → List Int) (k : Int) : Nat → List Int :=
  match d with
  | rank r => Function.update ch r (ch r ++ [k])
  | procNull => ch

theorem post_apply (d : Dest) (ch : Nat → List Int) (k : Int) (w : Nat) :
    d.post ch k w = ch w ++ if d = rank w then [k] else [] := by
  cases d with
  | rank r =>
    by_cases e : w = r
    · subst e; simp [post]
    · simp [post, Function.update_noteq e, Ne.symm e]
  | procNull => simp [post]

theorem receiver_eq_some {d : Dest} {w : Nat} : d.receiver = some w ↔ d = rank w ∧ w ≠ 0 := by
  cases d with
  | rank r =>
    show (if r = 0 then none else some r) = some w ↔ _
    split_ifs with h
    · subst h; simp only [reduceCtorEq, false_iff, not_and, rank.injEq]; omega
    · simp only [Option.some.injEq, rank.injEq]
      exact ⟨fun e => ⟨e, e ▸ h⟩, And.left⟩
  | procNull => simp [receiver]

theorem receiver_ne_zero (d : Dest) : d.receiver ≠ some 0 :=
  fun h => (receiver_eq_some.mp h).2 rfl

/-- A send of frame `i` to `d` adds one `i` to the channel of the rank that receives there. -/
theorem count_post (d : Dest) (ch : Nat → List Int) (i : Nat) {w : Nat} (hw : w ≠ 0) (f : Nat) :
    (d.post ch i w).count (f : Int) =
      (ch w).count (f : Int) + if (d.receiver, i) = (some w, f) then 1 else 0 := by
  rw [post_apply, List.count_append]
  by_cases hdw : d = rank w
  · subst hdw
    by_cases hfi : i = f
    · simp [receiver, hw, hfi, List.count_cons]
    · simp [receiver, hw, hfi, List.count_cons, Int.ofNat_inj]
  · rw [if_neg hdw, if_neg fun h => hdw (receiver_eq_some.mp (Prod.mk.inj h).1).1]
    rfl

end Dest

/-- An `MPI_Request` of a FRAME send: where it went and what it carried. -/
structure Handle where
  dest : Dest
  payload : Int
deriving DecidableEq, Repr

/-- Where a worker is in `main`. -/
inductive WorkerPc
  /-- At the loop test `i < nFrames`. -/
  | top
  /-- In `MPI_Recv` of the next FRAME. -/
  | recv
  /-- Out of the loop, before `MPI_Wait( &clientRequest )`. -/
  | exited
  /-- At `MPI_Barrier`. -/
  | barrier
  /-- In `MPI_Wait( &clientRequest )` on a handle no send set, which did not return. -/
  | failed
deriving DecidableEq, Repr

/-- A worker rank. -/
structure Worker where
  /-- The loop counter `i`. -/
  i : Nat
  pc : WorkerPc
  /-- `clientRequest`: the frame of the DONE send that set it, `none` while unset. -/
  clientRequest : Option Nat
  /-- The negative FRAME payload the loop ended on, if it ended on one. -/
  stop : Option Int
  /-- The handle of every `MPI_Wait( &clientRequest )`, oldest first. -/
  waits : List (Option Nat)

/-- Where rank 0 is in `main`. -/
inductive CoordPc
  /-- In the frame loop. -/
  | loop
  /-- Past the loop, with the terminate messages sent. -/
  | stopped
deriving DecidableEq, Repr

/-- The whole system. -/
structure State where
  /-- Rank 0's loop counter `i`. -/
  i : Nat
  coordPc : CoordPc
  /-- Rank 0's `std::map< int, MPI_Request > requests`. -/
  requests : Int → Option Handle
  /-- Each `MPI_Wait( &requests[frame] )` of rank 0's loop: the frame, the DONE's source,
  and the handle the map held. -/
  coordWaits : List (Nat × Nat × Option Handle)
  workers : Nat → Worker
  /-- The FRAME messages from rank 0 to each rank, oldest first. -/
  frameCh : Nat → List Int
  /-- The DONE messages in flight to rank 0: source and frame. -/
  doneCh : List (Nat × Nat)
  /-- Every frame rank 0 gave out, with the rank that receives it: `some 0` when rank 0 kept
  it, `none` when it was sent where no `MPI_Recv` of a FRAME takes it. -/
  assigned : List (Option Nat × Nat)
  /-- Every DONE rank 0 received: source and frame. -/
  acked : List (Nat × Nat)
  /-- Every frame processed, with the rank that processed it, in order. -/
  processed : List (Nat × Nat)

/-- Lines 212-219: frame `(i-1) * preQueue + j` to worker `i`, for `1 ≤ i < nRanks` and
`j < preQueue`, in send order. -/
def prequeue (c : Config) : List (Option Nat × Nat) :=
  (List.range' 1 (c.nRanks - 1)).flatMap fun w =>
    (List.range c.preQueue).map fun j => (some w, (w - 1) * c.preQueue + j)

/-- The state after the pre-queue sends: a worker's channel holds the frames sent to it,
and `requests[frame]` the handle of the send of `frame`. -/
def init (c : Config) : State where
  i := c.startFrame
  coordPc := .loop
  requests := fun k =>
    if 0 ≤ k ∧ k < c.startFrame then some ⟨.rank (k.toNat / c.preQueue + 1), k⟩ else none
  coordWaits := []
  workers := fun _ => ⟨c.startFrame, .top, none, none, []⟩
  frameCh := fun w => ((prequeue c).filter (·.1 = some w)).map fun e => (e.2 : Int)
  doneCh := []
  assigned := prequeue c
  acked := []
  processed := []

/-- Frame `f` of the pre-queue went to worker `f / preQueue + 1`. -/
theorem prequeue_eq (c : Config) :
    prequeue c = (List.range c.startFrame).map fun f => (some (f / c.preQueue + 1), f) := by
  have hQ := c.preQueue_pos
  unfold prequeue Config.startFrame
  induction c.nRanks - 1 with
  | zero => simp
  | succ n ih =>
    rw [List.range'_concat, List.flatMap_append, ih, Nat.add_one_mul n, List.range_add,
      List.map_append, List.map_map]
    simp only [List.flatMap_cons, List.flatMap_nil, List.append_nil]
    congr 1
    refine List.map_congr_left fun j hj => ?_
    have hdiv : (n * c.preQueue + j) / c.preQueue = n := by
      rw [Nat.add_comm, Nat.add_mul_div_right _ _ hQ, Nat.div_eq_of_lt (List.mem_range.mp hj),
        Nat.zero_add]
    simp only [Function.comp, hdiv, Nat.one_mul, Nat.add_sub_cancel_left, Prod.mk.injEq, and_true,
      Option.some.injEq]
    omega

theorem mem_prequeue {c : Config} {e : Option Nat × Nat} :
    e ∈ prequeue c ↔ e.2 < c.startFrame ∧ e.1 = some (e.2 / c.preQueue + 1) := by
  obtain ⟨w, f⟩ := e
  simp only [prequeue_eq, List.mem_map, List.mem_range, Prod.mk.injEq]
  constructor
  · rintro ⟨f', hf', rfl, rfl⟩; exact ⟨hf', rfl⟩
  · rintro ⟨hf, rfl⟩; exact ⟨f, hf, rfl, rfl⟩

theorem prequeue_frames (c : Config) : (prequeue c).map Prod.snd = List.range c.startFrame := by
  rw [prequeue_eq, List.map_map]; exact List.map_id _

/-- Each worker gets `preQueue` frames before the loop. -/
theorem countP_prequeue {c : Config} {w : Nat} (hw : w ≠ 0) (hwn : w < c.nRanks) :
    (prequeue c).countP (fun e => e.1 = some w) = c.preQueue := by
  unfold prequeue
  have hw' : w ≤ c.nRanks - 1 := by omega
  generalize c.nRanks - 1 = n at hw' ⊢
  induction n with
  | zero => omega
  | succ n ih =>
    rw [List.range'_concat, List.flatMap_append, List.countP_append]
    simp only [List.flatMap_cons, List.flatMap_nil, List.append_nil, List.countP_map]
    have hold : ∀ e ∈ (List.range' 1 n).flatMap fun w =>
        (List.range c.preQueue).map fun j => (some w, (w - 1) * c.preQueue + j),
        ∃ v ≤ n, e.1 = some v := by
      simp only [List.mem_flatMap, List.mem_map, List.mem_range']
      rintro _ ⟨w, ⟨k, hk, rfl⟩, j, -, rfl⟩; exact ⟨_, by omega, rfl⟩
    by_cases hwn : w = n + 1
    · subst hwn
      rw [List.countP_eq_zero.mpr fun e he => by
          obtain ⟨v, hv, hev⟩ := hold e he
          simp only [hev, Option.some.injEq, decide_eq_true_eq]; omega,
        List.countP_eq_length.mpr fun j _ => by simp; omega, List.length_range, Nat.zero_add]
    · rw [ih (by omega), List.countP_eq_zero.mpr fun j _ => by simp; omega, Nat.add_zero]

namespace State

variable (s : State)

/-- Lines 252-293: no DONE reported, so rank 0 processes frame `i` itself. -/
def selfProcess : State :=
  { s with
    i := s.i + 1
    assigned := s.assigned ++ [(some 0, s.i)]
    processed := s.processed ++ [(0, s.i)] }

/-- Lines 239-249: rank 0 received `DONE(frame)` from `src`; it waits on and erases
`requests[frame]`, and sends frame `i` to `dst`, what `status.MPI_SOURCE` holds after the wait,
into `requests[i]`. -/
def redispatch (src frame : Nat) (dst : Dest) : State :=
  { s with
    i := s.i + 1
    requests := Function.update (Function.update s.requests frame none) s.i (some ⟨dst, s.i⟩)
    coordWaits := s.coordWaits ++ [(frame, src, s.requests frame)]
    frameCh := dst.post s.frameCh s.i
    doneCh := s.doneCh.erase (src, frame)
    assigned := s.assigned ++ [(dst.receiver, s.i)]
    acked := s.acked ++ [(src, frame)] }

theorem redispatch_frameCh (src frame : Nat) (dst : Dest) (w : Nat) :
    (s.redispatch src frame dst).frameCh w =
      s.frameCh w ++ if dst = .rank w then [(s.i : Int)] else [] :=
  dst.post_apply _ _ _

/-- Lines 305-311: `FRAME(-w)` to every worker `w`, each into `requests[-w]`. -/
def sendStops (c : Config) : State :=
  { s with
    coordPc := .stopped
    requests := fun k =>
      if k < 0 ∧ 1 ≤ -k ∧ -k < c.nRanks then some ⟨.rank (-k).toNat, k⟩ else s.requests k
    frameCh := fun w =>
      if 1 ≤ w ∧ w < c.nRanks then s.frameCh w ++ [-(w : Int)] else s.frameCh w }

/-- Replace worker `w`. -/
def setWorker (w : Nat) (wk : Worker) : State :=
  { s with workers := Function.update s.workers w wk }

/-- Lines 256-259: worker `w` enters an iteration, waiting on `clientRequest` unless the
iteration is its first. -/
def enterIteration (c : Config) (w : Nat) : State :=
  let wk := s.workers w
  s.setWorker w { wk with
    pc := .recv
    waits := if wk.i = c.startFrame then wk.waits else wk.waits ++ [wk.clientRequest] }

/-- Line 226: worker `w` finds `i = nFrames` and leaves the loop. -/
def leaveLoop (w : Nat) : State :=
  s.setWorker w { s.workers w with pc := .exited }

/-- Lines 260-299: worker `w` receives frame `f`, processes it and sends `DONE(f)` into
`clientRequest`. -/
def processFrame (w f : Nat) (rest : List Int) : State :=
  let wk := s.workers w
  { s.setWorker w { wk with i := wk.i + 1, pc := .top, clientRequest := some f } with
    frameCh := Function.update s.frameCh w rest
    doneCh := s.doneCh ++ [(w, f)]
    processed := s.processed ++ [(w, f)] }

/-- Lines 260-264: worker `w` receives the negative payload `k` and breaks. -/
def receiveStop (w : Nat) (k : Int) (rest : List Int) : State :=
  { s.setWorker w { s.workers w with pc := .exited, stop := some k } with
    frameCh := Function.update s.frameCh w rest }

/-- Lines 327-333: worker `w`'s last `MPI_Wait( &clientRequest )` returns, and `w` reaches the
barrier. -/
def finishWorker (w : Nat) : State :=
  let wk := s.workers w
  s.setWorker w { wk with pc := .barrier, waits := wk.waits ++ [wk.clientRequest] }

/-- Lines 327-331: worker `w`'s last `MPI_Wait( &clientRequest )`, on a handle no send set,
does not return. -/
def failWorker (w : Nat) : State :=
  let wk := s.workers w
  s.setWorker w { wk with pc := .failed, waits := wk.waits ++ [wk.clientRequest] }

end State

/-- The scheduler's choices. -/
inductive Act
  /-- Rank 0 takes a turn of its loop in which `MPI_Iprobe` reports no DONE. -/
  | coordSelf
  /-- Rank 0 takes a turn in which `MPI_Iprobe` reports a DONE, `MPI_Recv` takes
  `DONE(frame)` from `src`, and `status.MPI_SOURCE` reads `dst` after the wait. -/
  | coordRecv (src frame : Nat) (dst : Dest)
  /-- Worker `w` takes its next step. -/
  | worker (w : Nat)
  /-- Worker `w`'s `MPI_Wait` on an unset `clientRequest` does not return. -/
  | fail (w : Nat)
deriving DecidableEq, Repr

/-- Worker `w`'s next step; `none` while it blocks in `MPI_Recv`, waits at the barrier or has
failed. -/
def workerStep (c : Config) (s : State) (w : Nat) : Option State :=
  match (s.workers w).pc with
  | .top =>
    if (s.workers w).i < c.nFrames then some (s.enterIteration c w) else some (s.leaveLoop w)
  | .recv =>
    match s.frameCh w with
    | [] => none
    | k :: rest =>
      if k < 0 then some (s.receiveStop w k rest) else some (s.processFrame w k.toNat rest)
  | .exited => some (s.finishWorker w)
  | .barrier | .failed => none

/-- One step of the system; `none` when the action is not enabled. -/
def step (c : Config) (s : State) : Act → Option State
  | .coordSelf =>
    if s.coordPc = .loop then
      if s.i < c.nFrames then some s.selfProcess else some (s.sendStops c)
    else none
  | .coordRecv src frame dst =>
    if s.coordPc = .loop ∧ s.i < c.nFrames ∧ 1 < c.nRanks ∧ (src, frame) ∈ s.doneCh ∧
        dst.valid c then
      some (s.redispatch src frame dst)
    else none
  | .worker w => if 1 ≤ w ∧ w < c.nRanks then workerStep c s w else none
  | .fail w =>
    if 1 ≤ w ∧ w < c.nRanks ∧ (s.workers w).pc = .exited ∧
        (s.workers w).clientRequest = none then
      some (s.failWorker w)
    else none

/-- The states of the runs that pass the check `startFrame > nFrames` of line 198. -/
inductive Reachable (c : Config) : State → Prop
  | init : c.startFrame ≤ c.nFrames → Reachable c (init c)
  | step {s s' : State} (a : Act) : Reachable c s → step c s a = some s' → Reachable c s'

/-- Run a schedule. -/
def run (c : Config) : State → List Act → Option State
  | s, [] => some s
  | s, a :: as => (step c s a).bind fun s' => run c s' as

theorem Reachable.run {c : Config} {s s' : State} (hs : Reachable c s) :
    ∀ {as : List Act}, run c s as = some s' → Reachable c s'
  | [], h => by cases h; exact hs
  | a :: as, h => by
    simp only [Dispatch.run, Option.bind_eq_some] at h
    obtain ⟨t, ht, h⟩ := h
    exact (hs.step a ht).run h

/-! ## What a step can do -/

/-- The moves of the system, each with the guard under which it is taken. -/
inductive Moves (c : Config) : State → State → Prop
  | self {s : State} : s.coordPc = .loop → s.i < c.nFrames → Moves c s s.selfProcess
  | stop {s : State} : s.coordPc = .loop → c.nFrames ≤ s.i → Moves c s (s.sendStops c)
  | serve {s : State} (src f : Nat) (dst : Dest) : s.coordPc = .loop → s.i < c.nFrames →
      (src, f) ∈ s.doneCh → dst.valid c → Moves c s (s.redispatch src f dst)
  | enter {s : State} (w : Nat) : 1 ≤ w → w < c.nRanks → (s.workers w).pc = .top →
      (s.workers w).i < c.nFrames → Moves c s (s.enterIteration c w)
  | leave {s : State} (w : Nat) : 1 ≤ w → w < c.nRanks → (s.workers w).pc = .top →
      c.nFrames ≤ (s.workers w).i → Moves c s (s.leaveLoop w)
  | work {s : State} (w f : Nat) (rest : List Int) : 1 ≤ w → w < c.nRanks →
      (s.workers w).pc = .recv → s.frameCh w = (f : Int) :: rest →
      Moves c s (s.processFrame w f rest)
  | quit {s : State} (w : Nat) (k : Int) (rest : List Int) : 1 ≤ w → w < c.nRanks →
      (s.workers w).pc = .recv → s.frameCh w = k :: rest → k < 0 →
      Moves c s (s.receiveStop w k rest)
  | finish {s : State} (w : Nat) : 1 ≤ w → w < c.nRanks → (s.workers w).pc = .exited →
      Moves c s (s.finishWorker w)
  | fail {s : State} (w : Nat) : 1 ≤ w → w < c.nRanks → (s.workers w).pc = .exited →
      (s.workers w).clientRequest = none → Moves c s (s.failWorker w)

theorem moves_of_workerStep {c : Config} {s s' : State} {w : Nat} (hw : 1 ≤ w) (hn : w < c.nRanks)
    (h : workerStep c s w = some s') : Moves c s s' := by
  unfold workerStep at h
  split at h
  · split at h <;> cases h
    · exact .enter w hw hn ‹_› ‹_›
    · exact .leave w hw hn ‹_› (Nat.le_of_not_lt ‹_›)
  · split at h
    · cases h
    · rename_i k rest hch
      split at h <;> cases h
      · exact .quit w k rest hw hn ‹_› hch ‹_›
      · exact .work w k.toNat rest hw hn ‹_› (by rw [hch, Int.toNat_of_nonneg (by omega)])
  · cases h; exact .finish w hw hn ‹_›
  · cases h
  · cases h

theorem moves_of_step {c : Config} {s s' : State} {a : Act} (h : step c s a = some s') :
    Moves c s s' := by
  cases a with
  | coordSelf =>
    simp only [step] at h
    split at h
    · split at h <;> cases h
      · exact .self ‹_› ‹_›
      · exact .stop ‹_› (Nat.le_of_not_lt ‹_›)
    · cases h
  | coordRecv src f dst =>
    simp only [step] at h
    split at h
    · rename_i hg
      cases h; exact .serve src f dst hg.1 hg.2.1 hg.2.2.2.1 hg.2.2.2.2
    · cases h
  | worker w =>
    simp only [step] at h
    split at h
    · rename_i hg
      exact moves_of_workerStep hg.1 hg.2 h
    · cases h
  | fail w =>
    simp only [step] at h
    split at h
    · rename_i hg
      cases h; exact .fail w hg.1 hg.2.1 hg.2.2.1 hg.2.2.2
    · cases h

/-- Every reachable state is the initial one, or one move from a reachable state. -/
theorem Reachable.induction {c : Config} {P : State → Prop}
    (h₀ : c.startFrame ≤ c.nFrames → P (Dispatch.init c))
    (h₁ : ∀ s s', Reachable c s → P s → Moves c s s' → P s') {s : State}
    (hs : Reachable c s) : P s := by
  induction hs with
  | init h => exact h₀ h
  | step a hs hst ih => exact h₁ _ _ hs ih (moves_of_step hst)

end Brion.Dispatch
