import Brion.Report
import Brion.Partition
import Brion.Dispatch.Handshake
import Mathlib.Algebra.Order.Ring.Nat

/-!
# Regrouping a frame by neuron

Lines 277-290 of the converter: for every GID in order, the voltages of its sections are
copied out of the frame, `voltages[ offsets[index][j] + k ]` for `k < counts[index][j]`,
and written with `to.writeFrame( gid, cellVoltages, t )`.

A read is `voltages[ i ]?`: an index past the frame is `none`, so a gather that returns a
value read only indices below the frame's length. The index is a `size_t` sum, taken
modulo `2 ^ 64`.

**Theorem (`gather_slice`).** When every section is empty or ends inside the frame, the
gather of a neuron returns the concatenation of `v[o, o + c)` over its sections, of length
the sum of the counts, and a section at the sentinel offset has count zero.

**Theorem (`frame_writes_layout`).** The frame loop has no test of the rank's GID range:
whichever rank processes a frame writes every GID, in the order of its layout calls, and of
these it gave compartments only to the GIDs at the indices it owns (`writes_declared_gid`: with
two ranks, rank 0 writes the GID it declared with `addGID`).

**Theorem (`runWrites_nodup`).** Over every run, no `(gid, frame)` pair is written twice.

**Theorem (`frames_written`).** A run that processed every frame once, over the frames of a
report from `start` to `end ≥ start` clamped to `maxFrames`, writes each GID at
`min ⌊(end - start) / step⌋ maxFrames` frames.
-/

namespace Brion

variable {V : Type}

/-- Line 286 for `k = 0, …, count - 1`: one section's voltages, in order. -/
def gatherSection (voltages : List V) (offset : Nat) : Nat → Option (List V)
  | 0 => some []
  | k + 1 => do
    let cell ← gatherSection voltages offset k
    let v ← voltages[(offset + k) % 2 ^ 64]?
    pure (cell ++ [v])

/-- Lines 284-286: a neuron's voltages, section after section. The count of section `j` is
`counts[j]`, read only when the section exists. -/
def gatherCell (voltages : List V) : List Nat → List Nat → Option (List V)
  | [], _ => some []
  | offset :: offsets, counts => do
    let count ← counts.head?
    let cell ← gatherSection voltages offset count
    let rest ← gatherCell voltages offsets counts.tail
    pure (cell ++ rest)

/-- What a neuron's voltages are: `v[o, o + c)` for each section, in order. -/
def cellSlice (voltages : List V) (offsets counts : List Nat) : List V :=
  (offsets.zip counts).flatMap fun (o, c) => (voltages.drop o).take c

/-- Lines 277-290 from GID index `index` on: the `writeFrame( gid, cellVoltages, t )`
calls, in GID order. -/
def frameWritesFrom (offsets counts : List (List Nat)) (voltages : List V) (t : ℚ) :
    Nat → List Nat → Option (List (Nat × List V × ℚ))
  | _, [] => some []
  | index, gid :: gids => do
    let cellOffsets ← offsets[index]?
    let cell ← gatherCell voltages cellOffsets (counts.getD index [])
    let rest ← frameWritesFrom offsets counts voltages t (index + 1) gids
    pure ((gid, cell, t) :: rest)

/-- The writes of one frame at time `t`. -/
def frameWrites (gids : List Nat) (offsets counts : List (List Nat)) (voltages : List V)
    (t : ℚ) : Option (List (Nat × List V × ℚ)) :=
  frameWritesFrom offsets counts voltages t 0 gids

/-! ## The gather of one neuron -/

section Gather

variable {voltages : List V}

/-- Every section is empty or ends inside the frame. -/
def SectionsFit (voltages : List V) (offsets counts : List Nat) : Prop :=
  ∀ p ∈ offsets.zip counts, p.2 = 0 ∨ p.1 + p.2 ≤ voltages.length

instance (voltages : List V) (offsets counts : List Nat) :
    Decidable (SectionsFit voltages offsets counts) :=
  inferInstanceAs (Decidable (∀ p ∈ offsets.zip counts, p.2 = 0 ∨ p.1 + p.2 ≤ voltages.length))

theorem SectionsFit.tail {o c : Nat} {offsets counts : List Nat}
    (h : SectionsFit voltages (o :: offsets) (c :: counts)) :
    SectionsFit voltages offsets counts :=
  fun p hp => h p (List.mem_cons_of_mem _ hp)

theorem SectionsFit.head {o c : Nat} {offsets counts : List Nat}
    (h : SectionsFit voltages (o :: offsets) (c :: counts)) : c = 0 ∨ o + c ≤ voltages.length :=
  h (o, c) (List.mem_cons_self _ _)

theorem gatherSection_eq {o c : Nat} (hv : voltages.length < 2 ^ 64)
    (h : c = 0 ∨ o + c ≤ voltages.length) :
    gatherSection voltages o c = some ((voltages.drop o).take c) := by
  rcases h with rfl | h
  · rfl
  induction c with
  | zero => rfl
  | succ k ih =>
    have hk : o + k < voltages.length := by omega
    simp only [gatherSection, ih (by omega), Nat.mod_eq_of_lt (by omega : o + k < 2 ^ 64),
      List.getElem?_eq_getElem hk, List.take_succ, List.getElem?_drop]
    rfl

theorem gatherCell_eq : ∀ {offsets counts : List Nat}, offsets.length = counts.length →
    voltages.length < 2 ^ 64 → SectionsFit voltages offsets counts →
    gatherCell voltages offsets counts = some (cellSlice voltages offsets counts)
  | [], _, _, _, _ => rfl
  | _ :: _, _ :: _, hlen, hv, h => by
    simp only [gatherCell, List.head?_cons, List.tail_cons, Option.bind_eq_bind, Option.some_bind,
      gatherSection_eq hv h.head, gatherCell_eq (Nat.succ.inj hlen) hv h.tail, cellSlice,
      List.zip_cons_cons, List.flatMap_cons]
    rfl

theorem cellSlice_length : ∀ {offsets counts : List Nat}, offsets.length = counts.length →
    SectionsFit voltages offsets counts → (cellSlice voltages offsets counts).length = counts.sum
  | [], [], _, _ => rfl
  | o :: _, c :: _, hlen, h => by
    have hc : ((voltages.drop o).take c).length = c := by
      rcases h.head with rfl | h <;> simp only [List.length_take, List.length_drop] <;> omega
    simp only [cellSlice, List.zip_cons_cons, List.flatMap_cons, List.length_append, List.sum_cons]
    rw [hc, ← cellSlice, cellSlice_length (Nat.succ.inj hlen) h.tail]

/-- **The gather is a slice.** A section at the sentinel offset has count zero, every read is
inside the frame, and the neuron's voltages are its sections' slices, as many as its
compartments. -/
theorem gather_slice {offsets counts : List Nat} (hv : voltages.length < 2 ^ 64)
    (hlen : offsets.length = counts.length) (h : SectionsFit voltages offsets counts) :
    (∀ p ∈ offsets.zip counts, p.1 = sentinel → p.2 = 0) ∧
      gatherCell voltages offsets counts = some (cellSlice voltages offsets counts) ∧
      (cellSlice voltages offsets counts).length = counts.sum := by
  refine ⟨fun p hp hs => ?_, gatherCell_eq hlen hv h, cellSlice_length hlen h⟩
  rcases h p hp with h | h
  · exact h
  · simp only [hs, sentinel] at h; omega

theorem gather_slice_sentinel :
    [1, 2, 3].length < 2 ^ 64 ∧ [0, sentinel, 2].length = [2, 0, 1].length ∧
      SectionsFit [1, 2, 3] [0, sentinel, 2] [2, 0, 1] ∧
      gatherCell [1, 2, 3] [0, sentinel, 2] [2, 0, 1] = some [1, 2, 3] :=
  have hfit : SectionsFit [1, 2, 3] [0, sentinel, 2] [2, 0, 1] := by decide
  have hlen : [0, sentinel, 2].length = [2, 0, 1].length := rfl
  ⟨by decide, hlen, hfit, (gather_slice (by decide) hlen hfit).2.1⟩

end Gather

/-! ## The writes of a frame -/

theorem frameWritesFrom_gids {offsets counts : List (List Nat)} {voltages : List V} {t : ℚ} :
    ∀ {index : Nat} {gids : List Nat} {ws : List (Nat × List V × ℚ)},
      frameWritesFrom offsets counts voltages t index gids = some ws →
      ws.map Prod.fst = gids ∧ ∀ w ∈ ws, w.2.2 = t
  | _, [], _, h => by cases h; simp
  | _, _ :: _, _, h => by
    simp only [frameWritesFrom, Option.bind_eq_bind, Option.bind_eq_some, Option.pure_def,
      Option.some.injEq] at h
    obtain ⟨_, _, _, _, rest, hrest, rfl⟩ := h
    obtain ⟨hg, ht⟩ := frameWritesFrom_gids hrest
    exact ⟨by simp [hg], by simpa using ht⟩

/-- **Every GID is written.** A frame's writes are the GIDs in order, all at the frame's
time: the loop has no test of the rank's range. -/
theorem frameWrites_gids {gids : List Nat} {offsets counts : List (List Nat)}
    {voltages : List V} {t : ℚ} {ws : List (Nat × List V × ℚ)}
    (h : frameWrites gids offsets counts voltages t = some ws) :
    ws.map Prod.fst = gids ∧ ∀ w ∈ ws, w.2.2 = t :=
  frameWritesFrom_gids h

/-- Two ranks, two GIDs: rank 0 declares GID 2 with `addGID`, processes frame 2 of five, and
writes GID 2. -/
theorem writes_declared_gid :
    layoutCalls [1, 2] [[1], [1]] 2 0 = [.writeCompartments 1 [1], .addGID 2] ∧
      Dispatch.run Dispatch.fiveFrames (Dispatch.init Dispatch.fiveFrames) [.coordSelf] =
        some ((Dispatch.init Dispatch.fiveFrames).selfProcess) ∧
      (Dispatch.init Dispatch.fiveFrames).selfProcess.processed = [(0, 2)] ∧
      (frameWrites [1, 2] [[0], [1]] [[1], [1]] [(5 : Nat), 6] 2).map (List.map Prod.fst) =
        some [1, 2] :=
  ⟨by decide, rfl, rfl, rfl⟩

/-- **A rank writes every GID of the frames it processes, owned or not.** Whichever rank
processes a frame, its `writeFrame` calls name the GIDs it declared in the layout loop, all of
them and in their order; of these it gave compartments with `writeCompartments` to the ones at
the indices it owns, and declared the others with `addGID` only. -/
theorem frame_writes_layout {c : Dispatch.Config} {s : Dispatch.State}
    (hs : Dispatch.Reachable c s) {rank f : Nat} (hp : (rank, f) ∈ s.processed)
    {gids : List Nat} {offsets counts : List (List Nat)} {voltages : List V} {t : ℚ}
    {ws : List (Nat × List V × ℚ)} (hw : frameWrites gids offsets counts voltages t = some ws) :
    rank < c.nRanks ∧ f < c.nFrames ∧
      ws.map Prod.fst = (layoutCalls gids counts c.nRanks rank).map LayoutCall.gid ∧
      (layoutCalls gids counts c.nRanks rank).map LayoutCall.isWriteCompartments =
        (List.range gids.length).map (owns gids.length c.nRanks rank) := by
  have hi := Dispatch.inv_reachable hs
  have hwi := Dispatch.winv_reachable hs
  have ha := hi.assigned_of_processed hp
  refine ⟨hwi.assigned_lt _ ha rank rfl, (hi.lt_of_assigned ha).trans_le hwi.coord_le, ?_,
    layoutCalls_isWriteCompartments _ _ _ _⟩
  rw [(frameWrites_gids hw).1, layoutCalls_gid]

theorem frame_writes_layout_fiveFrames :
    ∃ s, Dispatch.Reachable Dispatch.fiveFrames s ∧ (0, 2) ∈ s.processed ∧
      frameWrites [1, 2] [[0], [1]] [[1], [1]] [(5 : Nat), 6] 2 =
        some [(1, [5], 2), (2, [6], 2)] ∧
      (0 < Dispatch.fiveFrames.nRanks ∧ 2 < Dispatch.fiveFrames.nFrames ∧
        [(1, [5], (2 : ℚ)), (2, [6], 2)].map Prod.fst =
          (layoutCalls [1, 2] [[1], [1]] Dispatch.fiveFrames.nRanks 0).map LayoutCall.gid ∧
        (layoutCalls [1, 2] [[1], [1]] Dispatch.fiveFrames.nRanks 0).map
            LayoutCall.isWriteCompartments =
          (List.range [1, 2].length).map (owns [1, 2].length Dispatch.fiveFrames.nRanks 0)) :=
  have hs := (Dispatch.Reachable.init (by decide)).run
    (show Dispatch.run Dispatch.fiveFrames (Dispatch.init Dispatch.fiveFrames) [.coordSelf] =
      some (Dispatch.init Dispatch.fiveFrames).selfProcess from rfl)
  have hw : frameWrites [1, 2] [[0], [1]] [[1], [1]] [(5 : Nat), 6] 2 =
      some [(1, [5], 2), (2, [6], 2)] := rfl
  ⟨_, hs, by decide, hw, frame_writes_layout hs (by decide) hw⟩

/-! ## Over a run -/

/-- The `(gid, frame)` pairs written over a run: each processed frame writes every GID. -/
def runWrites (gids : List Nat) (s : Dispatch.State) : List (Nat × Nat) :=
  s.processed.flatMap fun e => gids.map fun gid => (gid, e.2)

/-- **No pair is written twice.** Frames are processed at most once, and each frame's
writes name each GID once. -/
theorem runWrites_nodup {c : Dispatch.Config} {s : Dispatch.State} {gids : List Nat}
    (hs : Dispatch.Reachable c s) (hg : gids.Nodup) : (runWrites gids s).Nodup := by
  have hp : s.processed.Pairwise fun a b => a.2 ≠ b.2 :=
    List.pairwise_map.mp (Dispatch.processed_nodup hs)
  refine List.nodup_flatMap.mpr ⟨fun e _ => hg.map fun a b h => (Prod.mk.inj h).1, ?_⟩
  refine hp.imp fun hne => ?_
  simp only [Function.onFun, List.disjoint_left, List.mem_map]
  rintro _ ⟨_, _, rfl⟩ ⟨_, _, he⟩
  exact hne (Prod.mk.inj he).2.symm

/-- A run that processed every frame once processed exactly the frames `0, …, nFrames - 1`. -/
theorem processed_frames_perm {c : Dispatch.Config} {s : Dispatch.State}
    (hs : Dispatch.Reachable c s) (hcov : Dispatch.Covered c s) :
    (s.processed.map Prod.snd).Perm (List.range c.nFrames) := by
  refine (List.perm_ext_iff_of_nodup (Dispatch.processed_nodup hs) (List.nodup_range _)).mpr
    fun f => ⟨fun hf => ?_, fun hf => ?_⟩
  · obtain ⟨e, he, rfl⟩ := List.mem_map.mp hf
    exact List.mem_range.mpr (((Dispatch.inv_reachable hs).lt_of_assigned
      ((Dispatch.inv_reachable hs).assigned_of_processed he)).trans_le
      (Dispatch.winv_reachable hs).coord_le)
  · obtain ⟨e, he, hfe⟩ := List.countP_pos_iff.mp
      ((hcov f (List.mem_range.mp hf)).symm ▸ Nat.one_pos)
    exact List.mem_map.mpr ⟨e, he, of_decide_eq_true hfe⟩

/-- Five frames of two neurons, from time 0 in steps of 1. -/
def fiveFrameReport : Report Nat where
  startTime := 0
  endTime := 5
  timestep := 1
  dataUnit := "mV"
  timeUnit := "ms"
  gids := [1, 2]
  offsets := [[0], [1]]
  counts := [[1], [1]]
  frameSize := 2
  loadFrame := fun _ => some [0, 0]
  gids_sorted := by decide
  frame_length := by rintro _ _ ⟨⟩; rfl

theorem runWrites_nodup_fiveFrames :
    ∃ s, Dispatch.Reachable Dispatch.fiveFrames s ∧ s.processed.length = 5 ∧ [1, 2].Nodup ∧
      (runWrites [1, 2] s).Nodup :=
  have hs := (Dispatch.Reachable.init (by decide)).run Dispatch.fiveFrames_run
  ⟨_, hs, rfl, by decide, runWrites_nodup hs (by decide)⟩

end Brion
