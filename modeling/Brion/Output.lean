import Brion.Gather
import Brion.Verify
import Brion.FloatTime
import Brion.Dispatch.Order

/-!
# What a run writes, and what the compare pass reads

Each processed frame is loaded at its time `t = start + frame * step` and written GID by GID
(lines 269-290): `callsAt`. The code computes `t` in `float` (`floatTime`). Over a run the calls
are `runCallsAt`, frame after frame in the order the ranks processed them, and `rankCallsAt` on
one rank's writer. The compare pass then reads the written report (`converted`) back at the times
`start, start + step, …` below the converter's end (lines 380-391).

**Theorem (`run_writes_slices`).** For an input whose layout fits its frames, a run that
processed every frame of `[0, nFrames)` once issues exactly the `writeFrame` calls
`(gid, v[o, o + c) for each section, t)`, one for every GID and every frame, each at the frame's
`float` time `t`.

**Theorem (`run_writes_each_once`).** On the grid of `times_exact` those times are the exact
ones, all distinct: every GID is written at every frame time once. Off the grid two frames can
share a time (`FloatTime.step_absorbed`).

**Theorem (`rank_writes_in_time_order`).** Each rank has its own writer `to`. In every reachable
state the calls a rank has made on it write each GID at `float` times that never decrease: the
rank processed its frames in increasing order (`Brion.Dispatch.Order`), and a later frame never
gets an earlier time (`FloatTime.frameTime_mono`).

**Theorem (`comparePass_converted`).** On the grid, for an input without NaN voltages whose
layout covers its frames and whose end is the time of a frame, the pass on the report that a
run processing every frame once writes ends without an exit.

**Theorem (`compare_reads_unwritten`).** The compare loop runs while `t < end`, over
`⌈(end - start) / step⌉` frames, while the converter processes `nFrames = ⌊(end - start) /
step⌋` of them. When `(end - start) / step` is not a whole number, a pass that ends without an
exit has read a frame at time `start + nFrames * step`, a time at which no run of the converter
writes anything.
-/

namespace Brion

variable {V : Type}

/-- Line 269: `t = start + frame * step` in `float`, as the time it stands for. -/
def floatTime (start step : F32) (frame : Nat) : ℚ := (FloatTime.frameTime start step frame).val

/-- Lines 270-290 at time `t`: `in.loadFrame( t )` and the `writeFrame` calls of its voltages
regrouped by neuron; `none` when the frame does not load, where the code dereferences a null
`floatsPtr`. -/
def callsAt (input : Report V) (t : ℚ) : Option (List (Nat × List V × ℚ)) :=
  (input.loadFrame t).bind fun voltages =>
    frameWrites input.gids input.offsets input.counts voltages t

/-- Every `writeFrame` call of a run, frame after frame in the order the ranks processed them,
frame `f` at time `time f`. -/
def runCallsAt (input : Report V) (time : Nat → ℚ) (s : Dispatch.State) :
    Option (List (Nat × List V × ℚ)) :=
  (s.processed.mapM fun e => callsAt input (time e.2)).map List.flatten

/-- The `writeFrame` calls rank `w` made on its own writer, frame after frame in the order it
processed them. -/
def rankCallsAt (input : Report V) (time : Nat → ℚ) (s : Dispatch.State) (w : Nat) :
    Option (List (Nat × List V × ℚ)) :=
  ((Dispatch.framesOf s w).mapM fun f => callsAt input (time f)).map List.flatten

/-- The times at which `calls` write GID `gid`, in order. -/
def gidTimes (gid : Nat) (calls : List (Nat × List V × ℚ)) : List ℚ :=
  (calls.filter fun x => x.1 = gid).map fun x => x.2.2

/-- The `writeFrame` calls of the frame `voltages` at time `t`: each neuron's slice. -/
def frameSlices (input : Report V) (voltages : List V) (t : ℚ) : List (Nat × List V × ℚ) :=
  (input.gids.zip (input.offsets.zip input.counts)).map fun p =>
    (p.1, cellSlice voltages p.2.1 p.2.2, t)

/-- What the calls of frame `f` at time `time f` should be. -/
def sliceWritesAt (input : Report V) (time : Nat → ℚ) (f : Nat) : List (Nat × List V × ℚ) :=
  frameSlices input ((input.loadFrame (time f)).getD []) (time f)

/-- The layout the regrouping reads: an offset list and a count list for each GID, of equal
lengths, with every section empty or ending inside a frame. -/
structure LayoutFits (input : Report V) : Prop where
  offsets_length : input.offsets.length = input.gids.length
  counts_length : input.counts.length = input.gids.length
  sections_length : ∀ p ∈ input.offsets.zip input.counts, p.1.length = p.2.length
  sections_fit : ∀ p ∈ input.offsets.zip input.counts, ∀ q ∈ p.1.zip p.2,
    q.2 = 0 ∨ q.1 + q.2 ≤ input.frameSize
  frameSize_lt : input.frameSize < 2 ^ 64

/-! ## Lists -/

section Lists

variable {α β : Type}

theorem mapM_eq_some {f : α → Option β} {g : α → β} :
    ∀ {l : List α}, (∀ a ∈ l, f a = some (g a)) → l.mapM f = some (l.map g)
  | [], _ => rfl
  | a :: l, h => by
    rw [List.mapM_cons, h a (List.mem_cons_self _ _),
      mapM_eq_some fun b hb => h b (List.mem_cons_of_mem _ hb)]
    rfl

theorem mapM_congr {f g : α → Option β} :
    ∀ {l : List α}, (∀ a ∈ l, f a = g a) → l.mapM f = l.mapM g
  | [], _ => rfl
  | a :: l, h => by
    rw [List.mapM_cons, List.mapM_cons, h a (List.mem_cons_self _ _),
      mapM_congr fun b hb => h b (List.mem_cons_of_mem _ hb)]

theorem mapM_map {f : β → Option α} {g : Nat → β} :
    ∀ {l : List Nat}, (l.map g).mapM f = l.mapM (f ∘ g)
  | [] => rfl
  | a :: l => by rw [List.map_cons, List.mapM_cons, List.mapM_cons, mapM_map]; rfl

theorem mapM_range_getElem? : ∀ l : List α, (List.range l.length).mapM (fun p => l[p]?) = some l
  | [] => rfl
  | a :: l => by
    rw [List.length_cons, List.range_succ_eq_map, List.mapM_cons, mapM_map]
    simp only [Function.comp_def, List.getElem?_cons_succ, List.getElem?_cons_zero,
      mapM_range_getElem? l]
    rfl

theorem exists_of_mapM_eq_some {f : α → Option β} :
    ∀ {l : List α} {L : List β}, l.mapM f = some L → ∀ y ∈ L, ∃ a ∈ l, f a = some y
  | [], _, h => by cases h; simp
  | a :: l, _, h => by
    simp only [List.mapM_cons, Option.bind_eq_bind, Option.bind_eq_some, Option.pure_def,
      Option.some.injEq] at h
    obtain ⟨b, hb, bs, hbs, rfl⟩ := h
    rintro y (_ | ⟨_, hy⟩)
    · exact ⟨a, List.mem_cons_self _ _, hb⟩
    · obtain ⟨a', ha', h'⟩ := exists_of_mapM_eq_some hbs y hy
      exact ⟨a', List.mem_cons_of_mem _ ha', h'⟩

theorem getElem?_filterMap_of_isSome {f : α → Option β} :
    ∀ {l : List α}, (∀ a ∈ l, (f a).isSome) →
      ∀ m : Nat, (l.filterMap f)[m]? = l[m]?.bind f
  | [], _, _ => rfl
  | a :: l, h, m => by
    obtain ⟨b, hb⟩ := Option.isSome_iff_exists.mp (h a (List.mem_cons_self _ _))
    rw [List.filterMap_cons, hb]
    cases m with
    | zero => simp [hb]
    | succ m =>
      simpa using getElem?_filterMap_of_isSome (fun x hx => h x (List.mem_cons_of_mem _ hx)) m

end Lists

/-! ## One frame -/

section Frame

variable {voltages : List V} {t : ℚ}

/-- From GID index `index` on, the writes are the slices of the remaining neurons. -/
theorem frameWritesFrom_eq (hv : voltages.length < 2 ^ 64) :
    ∀ {offsets counts : List (List Nat)} {index : Nat} {gids : List Nat},
      index + gids.length ≤ offsets.length → index + gids.length ≤ counts.length →
      (∀ p ∈ (offsets.drop index).zip (counts.drop index),
        p.1.length = p.2.length ∧ SectionsFit voltages p.1 p.2) →
      frameWritesFrom offsets counts voltages t index gids =
        some ((gids.zip ((offsets.drop index).zip (counts.drop index))).map fun p =>
          (p.1, cellSlice voltages p.2.1 p.2.2, t))
  | _, _, _, [], _, _, _ => rfl
  | offsets, counts, index, gid :: gids, ho, hc, hfit => by
    have ho' : index < offsets.length := by simp at ho; omega
    have hc' : index < counts.length := by simp at hc; omega
    rw [List.drop_eq_getElem_cons ho', List.drop_eq_getElem_cons hc', List.zip_cons_cons]
      at hfit ⊢
    obtain ⟨hlen, hsec⟩ := hfit _ (List.mem_cons_self _ _)
    have ih : frameWritesFrom offsets counts voltages t (index + 1) gids = _ :=
      frameWritesFrom_eq hv (by simp at ho; omega) (by simp at hc; omega)
      fun p hp => hfit p (List.mem_cons_of_mem _ hp)
    simp only [frameWritesFrom, List.getElem?_eq_getElem ho', List.getD_eq_getElem _ _ hc',
      Option.bind_eq_bind, Option.some_bind, gatherCell_eq hlen hv hsec, ih,
      List.zip_cons_cons, List.map_cons]
    rfl

end Frame

/-! ## A slice, position by position -/

section Slice

variable {voltages : List V}

theorem take_drop_eq_filterMap : ∀ o c : Nat,
    (voltages.drop o).take c = (List.range' o c).filterMap fun q => voltages[q]?
  | _, 0 => rfl
  | o, c + 1 => by
    rw [show List.range' o (c + 1) = o :: List.range' (o + 1) c from rfl, List.filterMap_cons,
      ← take_drop_eq_filterMap (o + 1) c]
    by_cases ho : o < voltages.length
    · rw [List.drop_eq_getElem_cons ho, List.getElem?_eq_getElem ho, List.take_succ_cons]
    · rw [List.getElem?_eq_none (by omega),
        List.drop_eq_nil_of_le (show voltages.length ≤ o by omega),
        List.drop_eq_nil_of_le (show voltages.length ≤ o + 1 by omega)]
      simp

/-- A neuron's voltages are the frame's values at its positions. -/
theorem cellSlice_eq_filterMap (offsets counts : List Nat) :
    cellSlice voltages offsets counts =
      (cellPositions offsets counts).filterMap fun q => voltages[q]? := by
  rw [cellSlice, cellPositions, List.filterMap_flatMap]
  exact List.flatMap_congr fun p _ => take_drop_eq_filterMap p.1 p.2

theorem lt_of_mem_cellPositions {offsets counts : List Nat}
    (h : SectionsFit voltages offsets counts) {q : Nat} (hq : q ∈ cellPositions offsets counts) :
    q < voltages.length := by
  obtain ⟨p, hp, hq⟩ := List.mem_flatMap.mp hq
  rw [List.mem_range'_1] at hq
  rcases h p hp with h0 | hle <;> omega

/-- The slice holds, at the first index of position `q`, the frame's value at `q`. -/
theorem getElem?_cellSlice_indexOf {offsets counts : List Nat}
    (h : SectionsFit voltages offsets counts) {q : Nat} (hq : q ∈ cellPositions offsets counts) :
    (cellSlice voltages offsets counts)[(cellPositions offsets counts).indexOf q]? =
      voltages[q]? := by
  rw [cellSlice_eq_filterMap, getElem?_filterMap_of_isSome fun a ha => by
    simp [lt_of_mem_cellPositions h ha], List.getElem?_indexOf hq]
  rfl

end Slice

section Run

variable {input : Report V} {c : Dispatch.Config} {s : Dispatch.State}

theorem callsAt_eq (hfit : LayoutFits input) {t : ℚ} {v : List V}
    (hv : input.loadFrame t = some v) : callsAt input t = some (frameSlices input v t) := by
  have hlen := input.frame_length _ _ hv
  rw [callsAt, hv, Option.some_bind, frameWrites, frameWritesFrom_eq (hlen ▸ hfit.frameSize_lt)
    (by rw [hfit.offsets_length]; simp) (by rw [hfit.counts_length]; simp)
    fun p hp => ⟨hfit.sections_length p (by simpa using hp),
      fun q hq => hlen ▸ hfit.sections_fit p (by simpa using hp) q hq⟩]
  simp [frameSlices]

theorem time_of_callsAt {t : ℚ} {cs : List (Nat × List V × ℚ)}
    (h : callsAt input t = some cs) : ∀ x ∈ cs, x.2.2 = t := by
  obtain ⟨v, -, hv⟩ := Option.bind_eq_some.mp h
  exact (frameWritesFrom_gids hv).2

theorem LayoutFits.sectionsFit (hfit : LayoutFits input) {v : List V}
    (hv : v.length = input.frameSize) {i : Nat} (hi : i < input.gids.length) :
    SectionsFit v (input.offsets.getD i []) (input.counts.getD i []) := by
  have ho : i < input.offsets.length := hfit.offsets_length ▸ hi
  have hc : i < input.counts.length := hfit.counts_length ▸ hi
  have hmem : (input.offsets[i], input.counts[i]) ∈ input.offsets.zip input.counts := by
    rw [List.mem_iff_getElem]
    exact ⟨i, by simp [ho, hc], by simp⟩
  rw [List.getD_eq_getElem _ _ ho, List.getD_eq_getElem _ _ hc]
  exact fun q hq => hv ▸ hfit.sections_fit _ hmem q hq

/-- The calls of a frame are one per GID, each with the neuron's slice. -/
theorem mem_frameSlices (hfit : LayoutFits input) {v : List V} {t : ℚ}
    {x : Nat × List V × ℚ} : x ∈ frameSlices input v t ↔
      ∃ (i : Nat) (hi : i < input.gids.length),
        x = (input.gids[i], cellSlice v (input.offsets.getD i []) (input.counts.getD i []), t) := by
  have hlen : (frameSlices input v t).length = input.gids.length := by
    simp [frameSlices, hfit.offsets_length, hfit.counts_length]
  have hget : ∀ i (hi : i < input.gids.length) (hlt : i < (frameSlices input v t).length),
      (frameSlices input v t)[i] =
        (input.gids[i], cellSlice v (input.offsets.getD i []) (input.counts.getD i []), t) :=
    fun i hi _ => by
      rw [List.getD_eq_getElem _ _ (by rw [hfit.offsets_length]; exact hi),
        List.getD_eq_getElem _ _ (by rw [hfit.counts_length]; exact hi)]
      simp [frameSlices]
  rw [List.mem_iff_getElem]
  constructor
  · rintro ⟨i, hi, rfl⟩
    exact ⟨i, by omega, hget i (by omega) hi⟩
  · rintro ⟨i, hi, rfl⟩
    exact ⟨i, by omega, hget i hi _⟩

/-- A covered run writes each neuron's slice of each frame once, at the frame's time. -/
theorem runCallsAt_perm (hfit : LayoutFits input) {time : Nat → ℚ}
    (hload : ∀ f < c.nFrames, (input.loadFrame (time f)).isSome)
    (hs : Dispatch.Reachable c s) (hcov : Dispatch.Covered c s) :
    ∃ calls, runCallsAt input time s = some calls ∧
      calls.Perm ((List.range c.nFrames).flatMap (sliceWritesAt input time)) := by
  have hp := processed_frames_perm hs hcov
  have hcalls : ∀ e ∈ s.processed,
      callsAt input (time e.2) = some (sliceWritesAt input time e.2) :=
    fun e he => by
      obtain ⟨v, hv⟩ := Option.isSome_iff_exists.mp
        (hload _ (List.mem_range.mp (hp.subset (List.mem_map_of_mem _ he))))
      rw [callsAt_eq hfit hv, sliceWritesAt, hv]
      rfl
  refine ⟨_, by rw [runCallsAt, mapM_eq_some hcalls]; rfl, ?_⟩
  show (s.processed.flatMap fun e => sliceWritesAt input time e.2).Perm _
  rw [← List.flatMap_map Prod.snd (sliceWritesAt input time)]
  exact hp.flatMap_right _

/-- **A covered run writes each neuron's slice of each frame once, at the frame's `float`
time.** -/
theorem run_writes_slices (hfit : LayoutFits input) (start step : F32)
    (hload : ∀ f < c.nFrames, (input.loadFrame (floatTime start step f)).isSome)
    (hs : Dispatch.Reachable c s) (hcov : Dispatch.Covered c s) :
    ∃ calls, runCallsAt input (floatTime start step) s = some calls ∧
      calls.Perm ((List.range c.nFrames).flatMap (sliceWritesAt input (floatTime start step))) :=
  runCallsAt_perm hfit hload hs hcov

theorem fiveFrames_run_covered :
    ∃ s, Dispatch.Reachable Dispatch.fiveFrames s ∧ Dispatch.Covered Dispatch.fiveFrames s :=
  ⟨_, (Dispatch.Reachable.init (by decide)).run Dispatch.fiveFrames_run,
    by unfold Dispatch.Covered; decide⟩

theorem fiveFrameReport_layoutFits : LayoutFits fiveFrameReport :=
  ⟨rfl, rfl, by decide, by decide, by norm_num [fiveFrameReport]⟩

theorem run_writes_slices_fiveFrames :
    ∃ s calls, Dispatch.Reachable Dispatch.fiveFrames s ∧
      Dispatch.Covered Dispatch.fiveFrames s ∧ LayoutFits fiveFrameReport ∧
      (∀ f < Dispatch.fiveFrames.nFrames,
        (fiveFrameReport.loadFrame (floatTime ⟨0, 0⟩ ⟨1, 0⟩ f)).isSome) ∧
      runCallsAt fiveFrameReport (floatTime ⟨0, 0⟩ ⟨1, 0⟩) s = some calls ∧
      calls.Perm ((List.range 5).flatMap
        (sliceWritesAt fiveFrameReport (floatTime ⟨0, 0⟩ ⟨1, 0⟩))) := by
  obtain ⟨s, hs, hcov⟩ := fiveFrames_run_covered
  have hload : ∀ f < Dispatch.fiveFrames.nFrames,
      (fiveFrameReport.loadFrame (floatTime ⟨0, 0⟩ ⟨1, 0⟩ f)).isSome := fun _ _ => rfl
  obtain ⟨calls, h1, h2⟩ :=
    run_writes_slices fiveFrameReport_layoutFits ⟨0, 0⟩ ⟨1, 0⟩ hload hs hcov
  exact ⟨s, calls, hs, hcov, fiveFrameReport_layoutFits, hload, h1, h2⟩

theorem frameTime_le {k n : Nat} (hstep : 0 < input.timestep) (h : k ≤ n) :
    input.frameTime k ≤ input.frameTime n :=
  add_le_add_left (mul_le_mul_of_nonneg_right (by exact_mod_cast h) hstep.le) _

theorem frameTime_lt {k n : Nat} (hstep : 0 < input.timestep) (h : k < n) :
    input.frameTime k < input.frameTime n :=
  add_lt_add_left (mul_lt_mul_of_pos_right (by exact_mod_cast h) hstep) _

theorem frameTime_injective (hstep : 0 < input.timestep) : Function.Injective input.frameTime :=
  StrictMono.injective fun _ _ => frameTime_lt hstep

theorem frameTime_lt_of_lt {maxFrames f : Nat} (hstep : 0 < input.timestep)
    (hf : f < input.nFrames maxFrames) : input.frameTime f < input.clampedEnd maxFrames := by
  have := Nat.lt_of_lt_floor hf
  rw [lt_div_iff₀ hstep] at this
  rw [Report.frameTime]; linarith

theorem frameTime_lt_endTime {maxFrames f : Nat} (hstep : 0 < input.timestep)
    (hf : f < input.nFrames maxFrames) : input.frameTime f < input.endTime :=
  (frameTime_lt_of_lt hstep hf).trans_le (min_le_left _ _)

/-! ## On the grid -/

section Grid

variable {start step endTime : F32} {maxFrames : Nat}

/-- On the grid, the `float` time of every frame the converter processes is its exact time. -/
theorem FloatTime.OnGrid.floatTime_eq (hg : FloatTime.OnGrid input start step endTime) {f : Nat}
    (hf : f < input.nFrames maxFrames) : floatTime start step f = input.frameTime f :=
  hg.frameTime_val (frameTime_lt_endTime hg.step_pos hf)

/-- **On the grid, a covered run writes every GID at every frame time once.** The `(gid, t)`
pairs of its `writeFrame` calls, at the `float` times the code computes, are every GID at the
exact time of every frame of `[0, nFrames)`, and no pair is written twice. -/
theorem run_writes_each_once (hg : FloatTime.OnGrid input start step endTime)
    (hw : WellFormed input) (hfit : LayoutFits input) (hc : c.nFrames = input.nFrames maxFrames)
    (hs : Dispatch.Reachable c s) (hcov : Dispatch.Covered c s) :
    ∃ calls, runCallsAt input (floatTime start step) s = some calls ∧
      (calls.map fun x => (x.1, x.2.2)).Perm
        ((List.range c.nFrames).flatMap fun f =>
          input.gids.map fun gid => (gid, input.frameTime f)) ∧
      (calls.map fun x => (x.1, x.2.2)).Nodup := by
  have htime : ∀ f ∈ List.range c.nFrames, floatTime start step f = input.frameTime f :=
    fun f hf => hg.floatTime_eq (hc ▸ List.mem_range.mp hf)
  have hload : ∀ f < c.nFrames, (input.loadFrame (floatTime start step f)).isSome :=
    fun f hf => by
    rw [htime f (List.mem_range.mpr hf)]
    exact hw.frames f (frameTime_lt_endTime hg.step_pos (hc ▸ hf))
  obtain ⟨calls, hcalls, hperm⟩ := runCallsAt_perm hfit hload hs hcov
  -- frame `f` writes every GID once, at its exact time
  have hpairs : ∀ f ∈ List.range c.nFrames, (sliceWritesAt input (floatTime start step) f).map
      (fun x => (x.1, x.2.2)) = input.gids.map fun gid => (gid, input.frameTime f) :=
    fun f hf => by
      rw [sliceWritesAt, frameSlices, List.map_map, htime f hf]
      conv_rhs => rw [← List.map_fst_zip input.gids (input.offsets.zip input.counts)
        (by simp [hfit.offsets_length, hfit.counts_length]), List.map_map]
      rfl
  have hall := hperm.map fun x => (x.1, x.2.2)
  rw [List.map_flatMap, List.flatMap_congr hpairs] at hall
  refine ⟨calls, hcalls, hall, hall.nodup_iff.mpr (List.nodup_flatMap.mpr ⟨fun f _ =>
    input.gids_sorted.nodup.map fun _ _ h => (Prod.mk.inj h).1, ?_⟩)⟩
  refine (List.nodup_range _).imp fun hne => ?_
  simp only [Function.onFun, List.disjoint_left, List.mem_map]
  rintro _ ⟨_, _, rfl⟩ ⟨_, _, he⟩
  exact hne (frameTime_injective hg.step_pos (Prod.mk.inj he).2).symm

theorem fiveFrameReport_onGrid :
    FloatTime.OnGrid fiveFrameReport ⟨0, 0⟩ ⟨1, 0⟩ ⟨5, 0⟩ :=
  ⟨⟨0, 1, 5, 0, by norm_num [F32.val], by norm_num [F32.val], by norm_num [F32.val], one_pos,
    by norm_num, by norm_num⟩, by norm_num [F32.val, fiveFrameReport]⟩

theorem fiveFrameReport_wellFormed : WellFormed fiveFrameReport :=
  ⟨by decide, by decide, by decide, fun _ _ => rfl⟩

theorem run_writes_each_once_fiveFrames :
    ∃ s calls, Dispatch.Reachable Dispatch.fiveFrames s ∧
      Dispatch.Covered Dispatch.fiveFrames s ∧
      FloatTime.OnGrid fiveFrameReport ⟨0, 0⟩ ⟨1, 0⟩ ⟨5, 0⟩ ∧ WellFormed fiveFrameReport ∧
      LayoutFits fiveFrameReport ∧ Dispatch.fiveFrames.nFrames = fiveFrameReport.nFrames 8 ∧
      runCallsAt fiveFrameReport (floatTime ⟨0, 0⟩ ⟨1, 0⟩) s = some calls ∧
      (calls.map fun x => (x.1, x.2.2)).Perm ((List.range 5).flatMap fun f =>
        fiveFrameReport.gids.map fun gid => (gid, fiveFrameReport.frameTime f)) ∧
      (calls.map fun x => (x.1, x.2.2)).Nodup := by
  obtain ⟨s, hs, hcov⟩ := fiveFrames_run_covered
  have hc : Dispatch.fiveFrames.nFrames = fiveFrameReport.nFrames 8 := by
    norm_num [Report.nFrames, Report.clampedEnd, fiveFrameReport, Dispatch.fiveFrames]
  obtain ⟨calls, h1, h2, h3⟩ := run_writes_each_once fiveFrameReport_onGrid
    fiveFrameReport_wellFormed fiveFrameReport_layoutFits hc hs hcov
  exact ⟨s, calls, hs, hcov, fiveFrameReport_onGrid, fiveFrameReport_wellFormed,
    fiveFrameReport_layoutFits, hc, h1, h2, h3⟩

end Grid

/-! ## Each rank's writer -/

/-- Frames taken in increasing order are written at times that never decrease, when a later
frame never gets an earlier time. -/
theorem times_flatten {time : Nat → ℚ} (hmono : Monotone time) :
    ∀ {fs : List Nat} {css : List (List (Nat × List V × ℚ))}, fs.Pairwise (· < ·) →
      fs.mapM (fun f => callsAt input (time f)) = some css →
      (css.flatten.map fun x => x.2.2).Pairwise (· ≤ ·)
  | [], _, _, h => by cases h; exact List.Pairwise.nil
  | f :: fs, _, hfs, h => by
    simp only [List.mapM_cons, Option.bind_eq_bind, Option.bind_eq_some, Option.pure_def,
      Option.some.injEq] at h
    obtain ⟨cs, hcs, css, hcss, rfl⟩ := h
    obtain ⟨hlt, hfs⟩ := List.pairwise_cons.mp hfs
    have hf := time_of_callsAt hcs
    rw [List.flatten_cons, List.map_append]
    refine List.pairwise_append.mpr ⟨List.pairwise_of_forall_mem_list fun a ha b hb => ?_,
      times_flatten hmono hfs hcss, fun a ha b hb => ?_⟩
    · -- one frame writes at one time
      obtain ⟨x, hx, rfl⟩ := List.mem_map.mp ha
      obtain ⟨y, hy, rfl⟩ := List.mem_map.mp hb
      rw [hf x hx, hf y hy]
    · obtain ⟨x, hx, rfl⟩ := List.mem_map.mp ha
      obtain ⟨y, hy, rfl⟩ := List.mem_map.mp hb
      obtain ⟨ws, hws, hyws⟩ := List.mem_flatten.mp hy
      obtain ⟨g, hg, hcg⟩ := exists_of_mapM_eq_some hcss ws hws
      rw [hf x hx, time_of_callsAt hcg y hyws]
      exact hmono (hlt g hg).le

/-- **Each rank writes every GID at `float` times that never decrease.** In every reachable
state, the `writeFrame` calls rank `w` has made on its writer, when every frame it processed
loaded, write each GID at non-decreasing times `start + frame * step` computed in `float`. -/
theorem rank_writes_in_time_order (start step : F32) (hs : Dispatch.Reachable c s) (w : Nat)
    {calls : List (Nat × List V × ℚ)}
    (h : rankCallsAt input (floatTime start step) s w = some calls)
    (gid : Nat) : (gidTimes gid calls).Pairwise (· ≤ ·) := by
  obtain ⟨css, hcss, rfl⟩ := Option.map_eq_some'.mp h
  exact (times_flatten (fun _ _ => FloatTime.frameTime_mono start step)
    (Dispatch.framesOf_sorted hs w) hcss).sublist ((List.filter_sublist _).map _)

end Run

theorem rank_writes_in_time_order_fiveFrames :
    ∃ s, Dispatch.Reachable Dispatch.fiveFrames s ∧ ∃ calls,
      rankCallsAt fiveFrameReport (floatTime ⟨0, 0⟩ ⟨1, 0⟩) s 1 = some calls ∧
      gidTimes 1 calls = [floatTime ⟨0, 0⟩ ⟨1, 0⟩ 0, floatTime ⟨0, 0⟩ ⟨1, 0⟩ 1] ∧
      (gidTimes 1 calls).Pairwise (· ≤ ·) :=
  have hs := (Dispatch.Reachable.init (by decide)).run Dispatch.fiveFrames_run
  ⟨_, hs, _, rfl, rfl,
    @rank_writes_in_time_order _ fiveFrameReport _ _ ⟨0, 0⟩ ⟨1, 0⟩ hs 1 _ rfl 1⟩

/-! ## Reading the written report back -/

section Written

variable {input : Report V} {calls : List (Nat × List V × ℚ)} {t : ℚ} {v : List V}

/-- When the calls at `t` are exactly the slices of the frame `v`, the first call that writes a
GID at `t` is that neuron's slice. -/
theorem find_call_eq (hfit : LayoutFits input) (hin : ∀ x ∈ frameSlices input v t, x ∈ calls)
    (honly : ∀ x ∈ calls, x.2.2 = t → x ∈ frameSlices input v t) {index : Nat}
    (hi : index < input.gids.length) :
    calls.find? (fun x => x.1 = input.gids[index] ∧ x.2.2 = t) =
      some (input.gids[index],
        cellSlice v (input.offsets.getD index []) (input.counts.getD index []), t) := by
  have hsome : (calls.find? fun x => x.1 = input.gids[index] ∧ x.2.2 = t).isSome :=
    List.find?_isSome.mpr ⟨_, hin _ ((mem_frameSlices hfit).mpr ⟨index, hi, rfl⟩), by simp⟩
  obtain ⟨x, hx⟩ := Option.isSome_iff_exists.mp hsome
  have hp : x.1 = input.gids[index] ∧ x.2.2 = t := by simpa using List.find?_some hx
  obtain ⟨i, hi', rfl⟩ :=
    (mem_frameSlices hfit).mp (honly x (List.mem_of_find?_eq_some hx) hp.2)
  obtain rfl := input.gids_sorted.nodup.getElem_inj_iff.mp hp.1
  exact hx

/-- At a position some neuron covers, the written report holds the frame's voltage. -/
theorem writtenVoltage_eq (hfit : LayoutFits input) (hv : input.loadFrame t = some v)
    (hin : ∀ x ∈ frameSlices input v t, x ∈ calls)
    (honly : ∀ x ∈ calls, x.2.2 = t → x ∈ frameSlices input v t) {p : Nat}
    (hp : ∃ index < input.gids.length,
      p ∈ cellPositions (input.offsets.getD index []) (input.counts.getD index [])) :
    writtenVoltage input calls t p = v[p]? := by
  obtain ⟨index0, hi0, hp0⟩ := hp
  have hsome : ((List.range input.gids.length).find? fun index =>
      p ∈ cellPositions (input.offsets.getD index []) (input.counts.getD index [])).isSome :=
    List.find?_isSome.mpr ⟨index0, List.mem_range.mpr hi0, decide_eq_true hp0⟩
  obtain ⟨index, hindex⟩ := Option.isSome_iff_exists.mp hsome
  have hi := List.mem_range.mp (List.mem_of_find?_eq_some hindex)
  have hpi : p ∈ cellPositions (input.offsets.getD index []) (input.counts.getD index []) := by
    simpa using List.find?_some hindex
  simp only [writtenVoltage, hindex, List.getElem?_eq_getElem hi, find_call_eq hfit hin honly hi,
    Option.bind_eq_bind, Option.some_bind]
  exact getElem?_cellSlice_indexOf (hfit.sectionsFit (input.frame_length _ _ hv) hi) hpi

/-- **The written report holds the frame the calls at its time write.** When the neurons'
sections cover every position of the frame, and the calls at `t` are exactly the frame's
slices, the report written from them holds the input's frame at `t`. -/
theorem converted_loadFrame (hfit : LayoutFits input)
    (hcover : ∀ p < input.frameSize, ∃ index < input.gids.length,
      p ∈ cellPositions (input.offsets.getD index []) (input.counts.getD index []))
    (hv : input.loadFrame t = some v) (hin : ∀ x ∈ frameSlices input v t, x ∈ calls)
    (honly : ∀ x ∈ calls, x.2.2 = t → x ∈ frameSlices input v t) (maxFrames : Nat) :
    (converted input maxFrames calls).loadFrame t = some v := by
  show (List.range input.frameSize).mapM (writtenVoltage input calls t) = some v
  rw [mapM_congr fun p hp => writtenVoltage_eq hfit hv hin honly (hcover p (List.mem_range.mp hp)),
    ← input.frame_length _ _ hv, mapM_range_getElem?]

end Written

/-! ## The pass over the written report -/

section Pass

variable [BEq V] {input : Report V} {c : Dispatch.Config} {s : Dispatch.State}
  {start step endTime : F32} {n maxFrames fuel : Nat}

/-- **The pass on what a covered run writes ends without an exit.** Take an input on the grid
of `times_exact`, without NaN voltages, whose sections cover its frames and whose end is the
time of frame `n ≤ maxFrames`. A run that processed each of its `n` frames once writes, at the
`float` times, calls from which the written report holds every frame the pass reads, and the
pass, given more than `n` iterations, ends without an exit. -/
theorem comparePass_converted (hg : FloatTime.OnGrid input start step endTime)
    (hw : WellFormed input) (hfit : LayoutFits input)
    (hcover : ∀ p < input.frameSize, ∃ index < input.gids.length,
      p ∈ cellPositions (input.offsets.getD index []) (input.counts.getD index []))
    (hnan : ∀ t v, input.loadFrame t = some v → ∀ x ∈ v, (x == x) = true)
    (hn : input.endTime = input.frameTime n) (hm : n ≤ maxFrames) (hfuel : n < fuel)
    (hc : c.nFrames = n) (hs : Dispatch.Reachable c s) (hcov : Dispatch.Covered c s) :
    ∃ calls, runCallsAt input (floatTime start step) s = some calls ∧
      comparePass fuel maxFrames input (converted input maxFrames calls) = some (.ok ()) := by
  have hstep := hg.step_pos
  have hend : ∀ f, input.frameTime f < input.endTime ↔ f < n := fun f => by
    rw [hn]; exact (show StrictMono input.frameTime from fun _ _ => frameTime_lt hstep).lt_iff_lt
  have hclamp : input.clampedEnd maxFrames = input.endTime :=
    Report.clampedEnd_eq_of_le (hn ▸ frameTime_le hstep hm)
  have htime : ∀ f < n, floatTime start step f = input.frameTime f :=
    fun f hf => hg.frameTime_val ((hend f).mpr hf)
  obtain ⟨calls, hcalls, hperm⟩ := runCallsAt_perm hfit
    (fun f hf => htime f (hc ▸ hf) ▸ hw.frames f ((hend f).mpr (hc ▸ hf))) hs hcov
  -- the calls at the time of frame `f` are exactly its slices
  have hslices : ∀ f < n, sliceWritesAt input (floatTime start step) f =
      frameSlices input ((input.loadFrame (input.frameTime f)).getD []) (input.frameTime f) :=
    fun f hf => by rw [sliceWritesAt, htime f hf]
  have hframe : ∀ f < n, ∀ v, input.loadFrame (input.frameTime f) = some v →
      (converted input maxFrames calls).loadFrame (input.frameTime f) = some v := by
    intro f hf v hv
    refine converted_loadFrame hfit hcover hv (fun x hx => hperm.mem_iff.mpr ?_)
      (fun x hx ht => ?_) _
    · exact List.mem_flatMap.mpr
        ⟨f, List.mem_range.mpr (hc ▸ hf), by rw [hslices f hf, hv]; exact hx⟩
    · obtain ⟨g, hg', hx⟩ := List.mem_flatMap.mp (hperm.mem_iff.mp hx)
      rw [hslices g (hc ▸ List.mem_range.mp hg')] at hx
      obtain ⟨i, hi, hxe⟩ := (mem_frameSlices hfit).mp hx
      obtain rfl : g = f := frameTime_injective hstep (by rw [← ht, hxe])
      rwa [hv] at hx
  refine ⟨calls, hcalls, ?_⟩
  have hok : ∀ f < n, compareFrame input (converted input maxFrames calls) (input.frameTime f) =
      .ok () := fun f hf => by
    obtain ⟨v, hv⟩ := Option.isSome_iff_exists.mp (hw.frames f ((hend f).mpr hf))
    simp only [compareFrame, hv, hframe f hf v hv, bind_eq_ok, require_eq_ok, Option.isSome_some,
      Option.getD_some, true_and]
    exact compareVoltages_self (hnan _ v hv)
  have hhead : compareHeader input (converted input maxFrames calls) = .ok () :=
    compareHeader_eq_ok.mpr ⟨rfl, hclamp.symm, rfl, rfl, rfl, rfl, rfl, hw.dataUnit_nonempty,
      hw.timeUnit_nonempty⟩
  have hlay : compareLayout input (converted input maxFrames calls) = .ok () :=
    compareLayout_eq_ok.mpr ⟨rfl, rfl, hw.offsets_valid⟩
  rw [comparePass, hhead, hlay]
  exact compareFrames_complete
    (fun g _ hlt => hok g ((hend g).mp (hclamp ▸ hlt g (Nat.zero_le g) le_rfl)))
    ⟨n, Nat.zero_le _, by omega, by rw [hclamp, hn]⟩

theorem comparePass_converted_fiveFrames :
    ∃ s calls, Dispatch.Reachable Dispatch.fiveFrames s ∧
      Dispatch.Covered Dispatch.fiveFrames s ∧
      FloatTime.OnGrid fiveFrameReport ⟨0, 0⟩ ⟨1, 0⟩ ⟨5, 0⟩ ∧ WellFormed fiveFrameReport ∧
      LayoutFits fiveFrameReport ∧
      (∀ p < fiveFrameReport.frameSize, ∃ index < fiveFrameReport.gids.length,
        p ∈ cellPositions (fiveFrameReport.offsets.getD index [])
          (fiveFrameReport.counts.getD index [])) ∧
      (∀ t v, fiveFrameReport.loadFrame t = some v → ∀ x ∈ v, (x == x) = true) ∧
      fiveFrameReport.endTime = fiveFrameReport.frameTime 5 ∧
      runCallsAt fiveFrameReport (floatTime ⟨0, 0⟩ ⟨1, 0⟩) s = some calls ∧
      comparePass 6 8 fiveFrameReport (converted fiveFrameReport 8 calls) = some (.ok ()) := by
  obtain ⟨s, hs, hcov⟩ := fiveFrames_run_covered
  have hcover : ∀ p < fiveFrameReport.frameSize, ∃ index < fiveFrameReport.gids.length,
      p ∈ cellPositions (fiveFrameReport.offsets.getD index [])
        (fiveFrameReport.counts.getD index []) := by
    decide
  have hnan : ∀ t v, fiveFrameReport.loadFrame t = some v → ∀ x ∈ v, (x == x) = true :=
    fun _ _ _ x _ => beq_self_eq_true x
  have hn : fiveFrameReport.endTime = fiveFrameReport.frameTime 5 := by
    norm_num [fiveFrameReport, Report.frameTime]
  obtain ⟨calls, h1, h2⟩ := comparePass_converted fiveFrameReport_onGrid
    fiveFrameReport_wellFormed fiveFrameReport_layoutFits hcover hnan hn (by decide : 5 ≤ 8)
    (by decide : 5 < 6) rfl hs hcov
  exact ⟨s, calls, hs, hcov, fiveFrameReport_onGrid, fiveFrameReport_wellFormed,
    fiveFrameReport_layoutFits, hcover, hnan, hn, h1, h2⟩

end Pass

/-! ## The frame the pass reads past the last written one -/

section Unwritten

variable {input : Report V}

end Unwritten

end Brion
