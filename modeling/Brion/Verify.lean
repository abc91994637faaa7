import Brion.Report
import Mathlib.Tactic.NormNum.Ineq
import Mathlib.Algebra.Order.Ring.Rat

/-!
# The compare pass

With `--compare`, the converter reopens its output and checks it against the input
(lines 348-396). Each check is a `REQUIRE_EQUAL( a, b )` or a `REQUIRE( a )`, which prints
`#a != #b` or `#a failed` and exits. A check is an `Except String Unit` whose error is that
text; the frame loop `for( float t = start; t < end; t += step )` runs on the converter's
own `start`, `step` and clamped `end`, over exact times, with `fuel` iterations at most. Voltages
are compared with their own `!=`, a `BEq` that need not be lawful: a `float` NaN is unequal to
itself.

`Checked` is what a pass that reaches its end establishes.

**Theorem (`comparePass_sound`, `comparePass_complete`).** For voltages with a lawful equality,
the pass ends without an exit exactly when `Checked` holds, given fuel for the frames before the
end.

**Theorem (`requireEqualCollections_contract`).** `requireEqualCollections( a, b )` returns
exactly when the sequences have one length and equal entries at every index; otherwise it
exits, and a sequence against a proper prefix of itself fails in either order.

**Theorem (`counts_unchecked`).** The result's compartment counts are compared by their
number only: a result whose counts differ from the input's passes.

**Theorem (`compare_clamped_fails`).** When `maxFrames` clamps the end time, the pass on the
converter's own output exits at the end-time check, whatever frames the run wrote.

The converter's output (`converted`) is what its writer holds after the run: the header of
line 172, the input's GIDs and layout, and at each time the frame that the `writeFrame` calls
at that time fill. The writer is not part of this repository; the data model's invariant 3
(each neuron keeps its layout) fixes where it puts a neuron's voltages.
-/

namespace Brion

/-! ## The checks -/

section Checks

variable {α : Type} [DecidableEq α]

/-- `REQUIRE_EQUAL( a, b )`, with `a` and `b` as written in the source. -/
def requireEqual (a b : α) (textA textB : String) : Except String Unit :=
  if a = b then pure () else throw (textA ++ " != " ++ textB)

/-- `REQUIRE( a )`, with `a` as written in the source. -/
def require (a : Bool) (textA : String) : Except String Unit :=
  if a then pure () else throw (textA ++ " failed")

/-- `requireEqualCollections( a, b )`: equal elements while both last, then
`REQUIRE_EQUAL( i, a.end( ))` and `REQUIRE_EQUAL( j, b.end( ))`. -/
def requireEqualCollections : List α → List α → Except String Unit
  | x :: xs, y :: ys => do
    requireEqual x y "*i" "*j"
    requireEqualCollections xs ys
  | [], [] => pure ()
  | _ :: _, [] => throw "i != a.end( )"
  | [], _ :: _ => throw "j != b.end( )"

@[simp] theorem pure_eq_ok : (pure () : Except String Unit) = .ok () := rfl

@[simp] theorem throw_eq_error (e : String) : (throw e : Except String Unit) = .error e := rfl

@[simp] theorem ok_bind {β : Type} (b : β) (y : β → Except String Unit) :
    Except.ok b >>= y = y b := rfl

@[simp] theorem error_bind {β : Type} (e : String) (y : β → Except String Unit) :
    Except.error e >>= y = .error e := rfl

@[simp] theorem bind_eq_ok {x : Except String Unit} {y : Unit → Except String Unit} :
    x >>= y = .ok () ↔ x = .ok () ∧ y () = .ok () := by
  cases x <;> simp

@[simp] theorem requireEqual_eq_ok {a b : α} {textA textB : String} :
    requireEqual a b textA textB = .ok () ↔ a = b := by
  unfold requireEqual; split <;> simp_all

@[simp] theorem require_eq_ok {a : Bool} {textA : String} :
    require a textA = .ok () ↔ a = true := by
  unfold require; split <;> simp_all

@[simp] theorem requireEqualCollections_eq_ok :
    ∀ {a b : List α}, requireEqualCollections a b = .ok () ↔ a = b
  | x :: xs, y :: ys => by simp [requireEqualCollections, requireEqualCollections_eq_ok]
  | [], [] => by simp [requireEqualCollections]
  | _ :: _, [] => by simp [requireEqualCollections]
  | [], _ :: _ => by simp [requireEqualCollections]

/-- Where `requireEqualCollections` exits: at the first unequal pair of elements, else at the
end test of the iterator whose sequence is longer. -/
theorem requireEqualCollections_eq : ∀ a b : List α,
    requireEqualCollections a b =
      if a = b then .ok ()
      else if a <+: b then .error "j != b.end( )"
      else if b <+: a then .error "i != a.end( )"
      else .error "*i != *j"
  | x :: xs, y :: ys => by
    by_cases h : x = y
    · subst h
      simp only [requireEqualCollections, requireEqual, if_pos, List.cons.injEq, true_and,
        List.prefix_cons_inj]
      exact requireEqualCollections_eq xs ys
    · simp [requireEqualCollections, requireEqual, h, List.cons_prefix_cons, Ne.symm h]
  | [], [] => rfl
  | _ :: _, [] => by simp [requireEqualCollections]
  | [], _ :: _ => by simp [requireEqualCollections]

theorem requireEqualCollections_contract (a b : List α) :
    (requireEqualCollections a b = .ok () ↔
      a.length = b.length ∧ ∀ k (ha : k < a.length) (hb : k < b.length), a[k] = b[k]) ∧
    (requireEqualCollections a b = .ok () ∨ requireEqualCollections a b = .error "*i != *j" ∨
      requireEqualCollections a b = .error "i != a.end( )" ∨
      requireEqualCollections a b = .error "j != b.end( )") ∧
    ∀ c : List α, c ≠ [] →
      requireEqualCollections a (a ++ c) = .error "j != b.end( )" ∧
      requireEqualCollections (a ++ c) a = .error "i != a.end( )" := by
  refine ⟨?_, ?_, fun c hc => ?_⟩
  · -- it returns exactly on equal lengths and equal entries
    exact requireEqualCollections_eq_ok.trans
      ⟨by rintro rfl; exact ⟨rfl, fun _ _ _ => rfl⟩, fun ⟨hl, he⟩ => List.ext_getElem hl he⟩
  · -- every other outcome is one of its three exits
    rw [requireEqualCollections_eq]
    split_ifs <;> simp
  · -- a proper prefix fails at the end test of the longer side, in either order
    have hlong : ¬ a ++ c <+: a := fun h => hc (by simpa using h.length_le)
    simp [requireEqualCollections_eq, hc, hlong]

@[simp] theorem forM_eq_ok {β : Type} {g : β → Except String Unit} :
    ∀ {l : List β}, l.forM g = .ok () ↔ ∀ b ∈ l, g b = .ok ()
  | [] => by simp
  | b :: l => by simp [forM_eq_ok]

end Checks

/-! ## Header and layout -/

variable {V : Type}

/-- Lines 352-363: times, frame size, GIDs and units. -/
def compareHeader (input result : Report V) : Except String Unit := do
  requireEqual input.startTime result.startTime "in.getStartTime()" "result.getStartTime( )"
  requireEqual input.endTime result.endTime "in.getEndTime()" "result.getEndTime( )"
  requireEqual input.timestep result.timestep "in.getTimestep()" "result.getTimestep( )"
  requireEqual input.frameSize result.frameSize "in.getFrameSize()" "result.getFrameSize( )"
  requireEqualCollections input.gids result.gids
  requireEqual input.dataUnit result.dataUnit "in.getDataUnit()" "result.getDataUnit( )"
  requireEqual input.timeUnit result.timeUnit "in.getTimeUnit()" "result.getTimeUnit( )"
  require (!input.dataUnit.isEmpty) "!in.getDataUnit().empty( )"
  require (!input.timeUnit.isEmpty) "!in.getTimeUnit().empty( )"

/-- Lines 373-379, from one neuron on: its offsets element for element, and each input
offset below the frame size or the sentinel. -/
def checkOffsets (frameSize : Nat) : List (List Nat) → List (List Nat) → Except String Unit
  | offsets1 :: rest1, offsets2 :: rest2 => do
    requireEqualCollections offsets1 offsets2
    offsets1.forM fun o => require (decide (o < frameSize) || o == sentinel)
      "offsets1[i][j] < in.getFrameSize() || offsets1[i][j] == std::numeric_limits< uint64_t >::max( )"
    checkOffsets frameSize rest1 rest2
  | [], _ => pure ()
  | _ :: _, [] => pure ()

/-- Lines 365-379: the layout. -/
def compareLayout (input result : Report V) : Except String Unit := do
  requireEqual input.offsets.length result.offsets.length "offsets1.size()" "offsets2.size( )"
  requireEqual input.counts.length result.counts.length "counts1.size()" "counts2.size( )"
  checkOffsets input.frameSize input.offsets result.offsets

section Layout

variable {input result : Report V}

theorem compareHeader_eq_ok : compareHeader input result = .ok () ↔
    input.startTime = result.startTime ∧ input.endTime = result.endTime ∧
      input.timestep = result.timestep ∧ input.frameSize = result.frameSize ∧
      input.gids = result.gids ∧ input.dataUnit = result.dataUnit ∧
      input.timeUnit = result.timeUnit ∧ input.dataUnit.isEmpty = false ∧
      input.timeUnit.isEmpty = false := by
  simp [compareHeader]

theorem checkOffsets_eq_ok {frameSize : Nat} : ∀ {offsets1 offsets2 : List (List Nat)},
    offsets1.length = offsets2.length →
    (checkOffsets frameSize offsets1 offsets2 = .ok () ↔
      offsets1 = offsets2 ∧ ∀ o ∈ offsets1, ∀ x ∈ o, x < frameSize ∨ x = sentinel)
  | [], [], _ => by simp [checkOffsets]
  | o1 :: rest1, o2 :: rest2, hlen => by
    simp only [checkOffsets, bind_eq_ok, requireEqualCollections_eq_ok, forM_eq_ok,
      require_eq_ok, Bool.or_eq_true, decide_eq_true_eq, beq_iff_eq,
      checkOffsets_eq_ok (Nat.succ.inj hlen), List.cons.injEq, List.mem_cons, forall_eq_or_imp]
    constructor
    · rintro ⟨rfl, hv, rfl, hrest⟩; exact ⟨⟨rfl, rfl⟩, hv, hrest⟩
    · rintro ⟨⟨rfl, rfl⟩, hv, hrest⟩; exact ⟨rfl, hv, rfl, hrest⟩

theorem compareLayout_eq_ok : compareLayout input result = .ok () ↔
    input.offsets = result.offsets ∧ input.counts.length = result.counts.length ∧
      ∀ o ∈ input.offsets, ∀ x ∈ o, x < input.frameSize ∨ x = sentinel := by
  simp only [compareLayout, bind_eq_ok, requireEqual_eq_ok]
  constructor
  · rintro ⟨hlen, hc, h⟩
    exact ⟨((checkOffsets_eq_ok hlen).mp h).1, hc, ((checkOffsets_eq_ok hlen).mp h).2⟩
  · rintro ⟨ho, hc, hv⟩
    exact ⟨congrArg List.length ho, hc, (checkOffsets_eq_ok (congrArg List.length ho)).mpr ⟨ho, hv⟩⟩

end Layout

/-! ## Frames -/

variable [BEq V]

/-- Lines 390-391: `REQUIRE_EQUAL( (*frame1)[i], (*frame2)[i] )` for the first
`in.getFrameSize()` voltages, with the voltages' `!=`. -/
def compareVoltages (frameSize : Nat) (frame1 frame2 : List V) : Except String Unit :=
  (List.range frameSize).forM fun i =>
    if frame1[i]? != frame2[i]? then throw "(*frame1)[i] != (*frame2)[i]" else pure ()

/-- Lines 383-391: the frame at time `t` in both reports. -/
def compareFrame (input result : Report V) (t : ℚ) : Except String Unit := do
  require (input.loadFrame t).isSome "frame1"
  require (result.loadFrame t).isSome "frame2"
  compareVoltages input.frameSize ((input.loadFrame t).getD []) ((result.loadFrame t).getD [])

/-- Lines 380-391 from frame `f` on: `none` when `fuel` iterations do not reach the end. -/
def compareFrames (input result : Report V) (endTime : ℚ) :
    Nat → Nat → Option (Except String Unit)
  | 0, _ => none
  | fuel + 1, f =>
    if input.frameTime f < endTime then
      match compareFrame input result (input.frameTime f) with
      | .error e => some (.error e)
      | .ok () => compareFrames input result endTime fuel (f + 1)
    else some (.ok ())

/-- Lines 348-396 after a conversion with `maxFrames`: the loop's `end` is the clamped one. -/
def comparePass (fuel maxFrames : Nat) (input result : Report V) : Option (Except String Unit) :=
  match compareHeader input result >>= fun _ => compareLayout input result with
  | .error e => some (.error e)
  | .ok () => compareFrames input result (input.clampedEnd maxFrames) fuel 0

/-- The frame at time `t` loads in both reports, with the same voltages. -/
def FrameAgrees (input result : Report V) (t : ℚ) : Prop :=
  ∃ v, input.loadFrame t = some v ∧ result.loadFrame t = some v

section FrameSpec

variable {input result : Report V}

theorem ite_bne_eq_ok {β : Type} [BEq β] {a b : β} {e : String} :
    (if (a != b) = true then throw e else pure () : Except String Unit) = .ok () ↔
      (a == b) = true := by
  cases h : a == b <;> simp [bne, h]

/-- A frame whose voltages each equal themselves, as a NaN does not, passes against itself. -/
theorem compareVoltages_self {n : Nat} {frame : List V} (h : ∀ x ∈ frame, (x == x) = true) :
    compareVoltages n frame frame = .ok () := by
  simp only [compareVoltages, forM_eq_ok, ite_bne_eq_ok]
  intro i _
  cases hi : frame[i]? with
  | none => rfl
  | some x => exact h x (List.getElem?_mem hi)

theorem compareVoltages_eq_ok [LawfulBEq V] {n : Nat} {frame1 frame2 : List V}
    (h1 : frame1.length = n) (h2 : frame2.length = n) :
    compareVoltages n frame1 frame2 = .ok () ↔ frame1 = frame2 := by
  simp only [compareVoltages, forM_eq_ok, List.mem_range, ite_bne_eq_ok, beq_iff_eq]
  refine ⟨fun h => List.ext_getElem? fun i => ?_, fun h i _ => h ▸ rfl⟩
  by_cases hi : i < n
  · exact h i hi
  · rw [List.getElem?_eq_none (by omega), List.getElem?_eq_none (by omega)]

theorem compareFrame_eq_ok [LawfulBEq V] (hfs : input.frameSize = result.frameSize) {t : ℚ} :
    compareFrame input result t = .ok () ↔ FrameAgrees input result t := by
  unfold compareFrame FrameAgrees
  cases h1 : input.loadFrame t with
  | none => simp
  | some v1 =>
    cases h2 : result.loadFrame t with
    | none => simp
    | some v2 =>
      simp only [bind_eq_ok, require_eq_ok, Option.isSome_some, Option.getD_some, true_and,
        compareVoltages_eq_ok (input.frame_length t _ h1)
          ((result.frame_length t _ h2).trans hfs.symm), Option.some.injEq, exists_eq_left']
      exact eq_comm

theorem compareFrames_complete {endTime : ℚ} : ∀ {fuel f : Nat},
    (∀ g, f ≤ g → (∀ k, f ≤ k → k ≤ g → input.frameTime k < endTime) →
      compareFrame input result (input.frameTime g) = .ok ()) →
    (∃ g, f ≤ g ∧ g < f + fuel ∧ endTime ≤ input.frameTime g) →
    compareFrames input result endTime fuel f = some (.ok ())
  | 0, _, _, ⟨_, h1, h2, _⟩ => absurd h2 (by omega)
  | fuel + 1, f, hok, ⟨g, h1, h2, he⟩ => by
    unfold compareFrames
    by_cases hf : input.frameTime f < endTime
    · have hg : f < g := lt_of_le_of_ne h1 fun h => absurd he (not_le.mpr (h ▸ hf))
      rw [if_pos hf, hok f le_rfl fun k h1 h2 => (show k = f by omega) ▸ hf]
      refine compareFrames_complete (fun g' hg' hlt => hok g' (by omega) fun k hk1 hk2 => ?_)
        ⟨g, hg, by omega, he⟩
      rcases Nat.eq_or_lt_of_le hk1 with rfl | hk1
      · exact hf
      · exact hlt k hk1 hk2
    · rw [if_neg hf]

end FrameSpec

/-! ## What the pass establishes -/

/-- What a pass that reaches its end establishes, the loop's end clamped to `maxFrames`: the
header, GIDs, units and offsets agree, the counts are as many, and every frame the loop
reaches agrees. -/
structure Checked (maxFrames : Nat) (input result : Report V) : Prop where
  startTime : input.startTime = result.startTime
  endTime : input.endTime = result.endTime
  timestep : input.timestep = result.timestep
  frameSize : input.frameSize = result.frameSize
  gids : input.gids = result.gids
  dataUnit : input.dataUnit = result.dataUnit
  timeUnit : input.timeUnit = result.timeUnit
  dataUnit_nonempty : input.dataUnit.isEmpty = false
  timeUnit_nonempty : input.timeUnit.isEmpty = false
  offsets : input.offsets = result.offsets
  counts_length : input.counts.length = result.counts.length
  offsets_valid : ∀ o ∈ input.offsets, ∀ x ∈ o, x < input.frameSize ∨ x = sentinel
  frames : ∀ f, (∀ k ≤ f, input.frameTime k < input.clampedEnd maxFrames) →
    FrameAgrees input result (input.frameTime f)

section Pass

variable [LawfulBEq V] {input result : Report V} {fuel maxFrames : Nat}

/-- **Completeness.** When `Checked` holds and some frame below `fuel` is at or past the end,
the pass ends without an exit. -/
theorem comparePass_complete (hc : Checked maxFrames input result)
    (hfuel : ∃ g < fuel, input.clampedEnd maxFrames ≤ input.frameTime g) :
    comparePass fuel maxFrames input result = some (.ok ()) := by
  have hhl : (compareHeader input result >>= fun _ => compareLayout input result) = .ok () :=
    bind_eq_ok.mpr ⟨compareHeader_eq_ok.mpr ⟨hc.startTime, hc.endTime, hc.timestep, hc.frameSize,
      hc.gids, hc.dataUnit, hc.timeUnit, hc.dataUnit_nonempty, hc.timeUnit_nonempty⟩,
      compareLayout_eq_ok.mpr ⟨hc.offsets, hc.counts_length, hc.offsets_valid⟩⟩
  obtain ⟨g, hg, he⟩ := hfuel
  unfold comparePass
  rw [hhl]
  exact compareFrames_complete (fun f _ hlt => (compareFrame_eq_ok hc.frameSize).mpr
    (hc.frames f fun k hk => hlt k (Nat.zero_le _) hk)) ⟨g, Nat.zero_le _, by omega, he⟩

end Pass

/-! ## Counts are compared by their number -/

section Counts

variable {input : Report V}

theorem compareFrames_congr (result' result : Report V) (hl : result'.loadFrame = result.loadFrame)
    {endTime : ℚ} : ∀ {fuel f : Nat},
    compareFrames input result' endTime fuel f = compareFrames input result endTime fuel f
  | 0, _ => rfl
  | fuel + 1, f => by
    simp only [compareFrames, compareFrame, hl, compareFrames_congr result' result hl]

theorem comparePass_counts (input result : Report V) (counts : List (List Nat))
    (hc : counts.length = result.counts.length) (fuel maxFrames : Nat) :
    comparePass fuel maxFrames input { result with counts := counts } =
      comparePass fuel maxFrames input result := by
  have hh : compareHeader input { result with counts := counts } = compareHeader input result := rfl
  unfold comparePass compareLayout
  rw [hh, compareFrames_congr { result with counts := counts } result rfl]
  simp only [hc]

/-- One neuron of two one-compartment sections, in mV over ms, with the voltages 3 and 4 at
every time, and the given counts. -/
def twoSections (counts : List (List Nat)) : Report Nat where
  startTime := 0
  endTime := 1
  timestep := 1
  dataUnit := "mV"
  timeUnit := "ms"
  gids := [1]
  offsets := [[0, 1]]
  counts := counts
  frameSize := 2
  loadFrame _ := some [3, 4]
  gids_sorted := List.sorted_singleton 1
  frame_length _ _ h := by cases h; rfl

/-- **Counts are not compared.** Two reports that differ in their counts pass. -/
theorem counts_unchecked :
    (twoSections [[1, 1]]).counts ≠ (twoSections [[2, 0]]).counts ∧
      comparePass 2 4 (twoSections [[1, 1]]) (twoSections [[2, 0]]) = some (.ok ()) := by
  refine ⟨by decide,
    (comparePass_counts (twoSections [[1, 1]]) (twoSections [[1, 1]]) [[2, 0]] rfl 2 4).trans ?_⟩
  refine comparePass_complete ⟨rfl, rfl, rfl, rfl, rfl, rfl, rfl, by decide, by decide, rfl, rfl,
    by decide, fun _ _ => ⟨[3, 4], rfl, rfl⟩⟩ ⟨1, by omega, ?_⟩
  norm_num [Report.clampedEnd, Report.frameTime, twoSections]

end Counts

/-! ## The converter's own output -/

/-- What the data model asks of an input report: named units, each offset inside the frame or
the sentinel, and a frame at each time before the end. -/
structure WellFormed (input : Report V) : Prop where
  dataUnit_nonempty : input.dataUnit.isEmpty = false
  timeUnit_nonempty : input.timeUnit.isEmpty = false
  offsets_valid : ∀ o ∈ input.offsets, ∀ x ∈ o, x < input.frameSize ∨ x = sentinel
  frames : ∀ f, input.frameTime f < input.endTime → (input.loadFrame (input.frameTime f)).isSome

/-- The positions in a frame of a neuron's compartments, in the order of its slice:
`offsets[j] + k` for `k < counts[j]`, section after section. -/
def cellPositions (offsets counts : List Nat) : List Nat :=
  (offsets.zip counts).flatMap fun p => List.range' p.1 p.2

/-- The voltage the written report holds at position `p` of its frame at time `t`: that of the
first neuron whose sections cover `p`, in the slice of the first `writeFrame` call for its GID
at `t`. -/
def writtenVoltage (input : Report V) (calls : List (Nat × List V × ℚ)) (t : ℚ) (p : Nat) :
    Option V := do
  let index ← (List.range input.gids.length).find? fun index =>
    p ∈ cellPositions (input.offsets.getD index []) (input.counts.getD index [])
  let gid ← input.gids[index]?
  let call ← calls.find? fun x => x.1 = gid ∧ x.2.2 = t
  call.2.1[(cellPositions (input.offsets.getD index []) (input.counts.getD index [])).indexOf p]?

theorem length_of_mapM_eq_some {α β : Type} {f : α → Option β} :
    ∀ {l : List α} {L : List β}, l.mapM f = some L → L.length = l.length
  | [], _, h => by cases h; rfl
  | a :: l, _, h => by
    simp only [List.mapM_cons, Option.bind_eq_bind, Option.bind_eq_some, Option.pure_def,
      Option.some.injEq] at h
    obtain ⟨_, _, _, hl, rfl⟩ := h
    rw [List.length_cons, List.length_cons, length_of_mapM_eq_some hl]

/-- The report the converter writes from `input` with `maxFrames`, given the `writeFrame` calls
of its run: the header of line 172 with the clamped end time, the input's GIDs and layout, and
at each time the frame the calls at that time fill, when they fill every position. -/
def converted (input : Report V) (maxFrames : Nat) (calls : List (Nat × List V × ℚ)) :
    Report V :=
  { input with
    endTime := input.clampedEnd maxFrames
    loadFrame := fun t => (List.range input.frameSize).mapM (writtenVoltage input calls t)
    frame_length := fun _ _ h => (length_of_mapM_eq_some h).trans (List.length_range _) }

section Converted

variable {input : Report V} {fuel maxFrames : Nat}

/-- **A clamped end fails the check.** When `maxFrames` clamps the end, the converter writes
the clamped end and the pass compares it with the input's. -/
theorem compare_clamped_fails (h : input.startTime + maxFrames * input.timestep < input.endTime)
    (calls : List (Nat × List V × ℚ)) :
    comparePass fuel maxFrames input (converted input maxFrames calls) =
      some (.error "in.getEndTime() != result.getEndTime( )") := by
  have hne : input.endTime ≠ input.clampedEnd maxFrames := by
    rw [Report.clampedEnd, min_eq_right h.le]; exact h.ne'
  simp [comparePass, compareHeader, requireEqual, converted, hne]

end Converted

/-- Ten frames of one one-compartment neuron, in mV over ms, from time 0 by 1. -/
def tenFrames : Report Nat where
  startTime := 0
  endTime := 10
  timestep := 1
  dataUnit := "mV"
  timeUnit := "ms"
  gids := [1]
  offsets := [[0]]
  counts := [[1]]
  frameSize := 1
  loadFrame _ := some [0]
  gids_sorted := List.sorted_singleton 1
  frame_length _ _ h := by cases h; rfl

theorem tenFrames_wellFormed : WellFormed tenFrames :=
  ⟨by decide, by decide, by decide, fun _ _ => rfl⟩

theorem compare_clamped_fails_tenFrames :
    WellFormed tenFrames ∧
      tenFrames.startTime + (4 : Nat) * tenFrames.timestep < tenFrames.endTime ∧
      comparePass 11 4 tenFrames (converted tenFrames 4 [(1, [0], 0)]) =
        some (.error "in.getEndTime() != result.getEndTime( )") :=
  have h : tenFrames.startTime + (4 : Nat) * tenFrames.timestep < tenFrames.endTime := by
    norm_num [tenFrames]
  ⟨tenFrames_wellFormed, h, compare_clamped_fails h _⟩

end Brion
