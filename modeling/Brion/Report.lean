import Mathlib.Algebra.Order.Ring.Unbundled.Rat
import Mathlib.Data.List.Sort
import Mathlib.Data.Rat.Floor
import Mathlib.Algebra.Order.Group.MinMax

/-!
# Compartment reports, as the converter sees them

`apps/compartmentConverter.cpp` reads a report through `brion::CompartmentReport`: a header
(start, end and step times, data and time units), the GID set, the per-neuron layout (one
offset and one compartment count per section) and `loadFrame( t )`. `Report V` is that view,
with voltages of type `V`.

A report's times are the rationals its `float`s stand for, and `Report.frameTime f` is the
exact `start + f * step`. The code computes that sum, the clamped end and the frame count in
`float`; `Brion.FloatTime` computes them so and shows where they are the exact ones (on a grid,
`FloatTime.OnGrid`) and where they are not. Machine integers are naturals: an offset is a
`uint64_t`, a count a `uint16_t`.

The header the converter writes clamps the end time to `maxFrames` frames
(`Report.clampedEnd`, lines 156-160 of the converter), and the frame loop runs over
`nFrames = ( end - start ) / step` frames of the clamped range (`Report.nFrames`, line 191),
which is `min ⌊(end - start) / step⌋ maxFrames` (`nFrames_clamped`).
-/

namespace Brion

/-- `std::numeric_limits< uint64_t >::max()`: the offset of a section without compartments. -/
def sentinel : Nat := 2 ^ 64 - 1

/-- A compartment report as `brion::CompartmentReport` exposes it to the converter. -/
structure Report (V : Type) where
  /-- `getStartTime()`. -/
  startTime : ℚ
  /-- `getEndTime()`. -/
  endTime : ℚ
  /-- `getTimestep()`. -/
  timestep : ℚ
  /-- `getDataUnit()`. -/
  dataUnit : String
  /-- `getTimeUnit()`. -/
  timeUnit : String
  /-- `getGIDs()`: a `std::set< uint32_t >`, listed in ascending order. -/
  gids : List Nat
  /-- `getOffsets()`: per neuron, the offset of each section in a frame. -/
  offsets : List (List Nat)
  /-- `getCompartmentCounts()`: per neuron, the number of compartments of each section. -/
  counts : List (List Nat)
  /-- `getFrameSize()`. -/
  frameSize : Nat
  /-- `loadFrame( t )`; `none` is the null `floatsPtr`. -/
  loadFrame : ℚ → Option (List V)
  /-- A `std::set` is strictly ascending. -/
  gids_sorted : gids.Sorted (· < ·)
  /-- A loaded frame holds `getFrameSize()` values. -/
  frame_length : ∀ t v, loadFrame t = some v → v.length = frameSize

namespace Report

variable {V : Type}

/-- The time of frame `f`: `start + f * step`. -/
def frameTime (r : Report V) (f : Nat) : ℚ := r.startTime + f * r.timestep

/-- `end = std::min( end, start + maxFrames * step )`: the end time the converter writes. -/
def clampedEnd (r : Report V) (maxFrames : Nat) : ℚ :=
  min r.endTime (r.startTime + maxFrames * r.timestep)

/-- `nFrames = ( end - start ) / step` over the clamped end, truncated to `size_t`. -/
def nFrames (r : Report V) (maxFrames : Nat) : Nat :=
  ⌊(r.clampedEnd maxFrames - r.startTime) / r.timestep⌋₊

/-- Without clamping, the converter writes the input's end time. -/
theorem clampedEnd_eq_of_le {r : Report V} {maxFrames : Nat}
    (h : r.endTime ≤ r.startTime + maxFrames * r.timestep) :
    r.clampedEnd maxFrames = r.endTime :=
  min_eq_left h

end Report

end Brion
