import Brion.Float32

/-!
# Which rank writes which neuron's layout

Lines 174-188 of the converter: each rank computes, in `float`,

    range    = float( gids.size( )) / float( nRanks )
    startGID = rank * range
    endGID   = ( rank + 1 ) * range

and, going through the GIDs in order, calls `writeCompartments( gid, counts[ index ] )` for
the indices in `[startGID, endGID)` and `addGID( gid )` for the others.

The bounds of consecutive ranks are the same `float` expression, so the ranges never overlap;
but the last bound, `nRanks * range` truncated, can fall short of `gids.size()`.

**Theorem (`layout_owners`).** For every number of GIDs and of ranks, no GID index has two
owners, and the indices with an owner are exactly those below `nRanks * range` truncated. The
bounds `startGID` grow with the rank, because `float` rounding is monotone.

**Theorem (`layout_owners_exact`).** When `range` is exact, every GID has an owner: with
fewer than `2 ^ 24` GIDs and `nRanks = 2 ^ a * b` for a divisor `b` of `gids.size()`, the last
bound is `gids.size()`.

**Theorem (`gid_unowned`).** With 31 GIDs on 7 ranks, `range` rounds down, the last rank's
`endGID` is 30, and the GID at index 30 is declared with `addGID` by every rank and given
its compartments by none.
-/

namespace Brion

/-- `range = float( gids.size( )) / float( nRanks )`. -/
def gidRange (nGids nRanks : Nat) : F32 := (F32.ofNat nGids).div (F32.ofNat nRanks)

/-- `startGID = rank * range`, truncated to `size_t`. -/
def startGID (nGids nRanks rank : Nat) : Nat :=
  ((F32.ofNat rank).mul (gidRange nGids nRanks)).trunc

/-- `endGID = ( rank + 1 ) * range`, truncated to `size_t`. -/
def endGID (nGids nRanks rank : Nat) : Nat :=
  ((F32.ofNat (rank + 1)).mul (gidRange nGids nRanks)).trunc

/-- Rank `rank` gives the GID at `index` its compartments: the test of line 182 fails. -/
def owns (nGids nRanks rank index : Nat) : Bool :=
  !(decide (index < startGID nGids nRanks rank) || decide (endGID nGids nRanks rank ≤ index))

/-- A call of the layout loop on the output report. -/
inductive LayoutCall
  | addGID (gid : Nat)
  | writeCompartments (gid : Nat) (counts : List Nat)
deriving DecidableEq, Repr

/-- Lines 174-188: rank `rank`'s layout calls, in GID order. A reader gives one count vector
per GID; a missing one reads as empty. -/
def layoutCalls (gids : List Nat) (counts : List (List Nat)) (nRanks rank : Nat) :
    List LayoutCall :=
  gids.enum.map fun (index, gid) =>
    if owns gids.length nRanks rank index then .writeCompartments gid (counts.getD index [])
    else .addGID gid

/-- The GID a layout call declares. -/
def LayoutCall.gid : LayoutCall → Nat
  | .addGID gid | .writeCompartments gid _ => gid

/-- Whether a layout call gives its GID compartments. -/
def LayoutCall.isWriteCompartments : LayoutCall → Bool
  | .addGID _ => false
  | .writeCompartments _ _ => true

/-- Every rank declares every GID, in order. -/
theorem layoutCalls_gid (gids : List Nat) (counts : List (List Nat)) (nRanks rank : Nat) :
    (layoutCalls gids counts nRanks rank).map LayoutCall.gid = gids := by
  rw [layoutCalls, List.map_map]
  conv_rhs => rw [← List.enum_map_snd gids]
  refine List.map_congr_left fun p _ => ?_
  obtain ⟨index, gid⟩ := p
  simp only [Function.comp_apply]
  split_ifs <;> rfl

/-- A rank gives compartments to the GIDs at the indices it owns, and only to them. -/
theorem layoutCalls_isWriteCompartments (gids : List Nat) (counts : List (List Nat))
    (nRanks rank : Nat) :
    (layoutCalls gids counts nRanks rank).map LayoutCall.isWriteCompartments =
      (List.range gids.length).map (owns gids.length nRanks rank) := by
  rw [layoutCalls, List.map_map, ← List.enum_map_fst gids, List.map_map]
  refine List.map_congr_left fun p _ => ?_
  obtain ⟨index, gid⟩ := p
  simp only [Function.comp_apply]
  split_ifs with h <;> simp [LayoutCall.isWriteCompartments, h]

/-- Consecutive ranks meet: rank `r`'s end is rank `r + 1`'s start. -/
theorem endGID_eq_startGID (nGids nRanks rank : Nat) :
    endGID nGids nRanks rank = startGID nGids nRanks (rank + 1) := rfl

theorem owns_iff {nGids nRanks rank index : Nat} :
    owns nGids nRanks rank index = true ↔
      startGID nGids nRanks rank ≤ index ∧ index < endGID nGids nRanks rank := by
  simp [owns, Nat.not_lt]

/-! ## The ranges of consecutive ranks -/

/-- `startGID` is the floor of `round24 (round24 rank * m) * 2 ^ e`, for `range = m * 2 ^ e`. -/
theorem startGID_eq (nGids nRanks rank : Nat) :
    startGID nGids nRanks rank = ⌊(round24 (round24 rank * (gidRange nGids nRanks).mant) : ℚ) *
      2 ^ (gidRange nGids nRanks).exp⌋₊ := by
  rw [startGID, F32.trunc_eq_floor, F32.val_mul_ofNat]

theorem startGID_zero (nGids nRanks : Nat) : startGID nGids nRanks 0 = 0 := by
  simp [startGID_eq]

theorem startGID_mono {nGids nRanks rank rank' : Nat} (h : rank ≤ rank') :
    startGID nGids nRanks rank ≤ startGID nGids nRanks rank' := by
  rw [startGID_eq, startGID_eq]
  refine Nat.floor_le_floor (mul_le_mul_of_nonneg_right ?_ (zpow_nonneg (by norm_num) _))
  exact_mod_cast round24_mono (Nat.mul_le_mul_right _ (round24_mono h))

section Owners

variable {nGids nRanks index : Nat}

theorem owns_eq_false_of_lt {rank rank' : Nat} (hlt : rank < rank')
    (h : owns nGids nRanks rank index = true) : owns nGids nRanks rank' index = false := by
  have hs : endGID nGids nRanks rank ≤ startGID nGids nRanks rank' :=
    (endGID_eq_startGID _ _ _).trans_le (startGID_mono hlt)
  rw [owns_iff] at h
  rw [← Bool.not_eq_true, owns_iff]
  omega

theorem owns_unique {rank rank' : Nat} (h : owns nGids nRanks rank index = true)
    (h' : owns nGids nRanks rank' index = true) : rank = rank' := by
  rcases lt_trichotomy rank rank' with hlt | rfl | hlt
  · simp [owns_eq_false_of_lt hlt h] at h'
  · rfl
  · simp [owns_eq_false_of_lt hlt h'] at h

theorem lt_startGID_of_owns {rank : Nat} (hr : rank < nRanks)
    (h : owns nGids nRanks rank index = true) : index < startGID nGids nRanks nRanks :=
  (owns_iff.mp h).2.trans_le (startGID_mono hr)

theorem exists_owner_of_lt :
    ∀ {n : Nat}, index < startGID nGids nRanks n → ∃ rank < n, owns nGids nRanks rank index = true
  | 0, h => absurd h (by simp [startGID_zero])
  | n + 1, h => by
    by_cases hi : index < startGID nGids nRanks n
    · obtain ⟨rank, hr, ho⟩ := exists_owner_of_lt hi
      exact ⟨rank, by omega, ho⟩
    · exact ⟨n, by omega, owns_iff.mpr ⟨by omega, h⟩⟩

end Owners

/-- **No GID has two owners.** A GID index has an owner exactly when it lies below the last
bound, `nRanks * range` truncated, and then only one. -/
theorem layout_owners (nGids nRanks index : Nat) :
    ((∃ rank < nRanks, owns nGids nRanks rank index = true) ↔
        index < startGID nGids nRanks nRanks) ∧
      ∀ rank rank', owns nGids nRanks rank index = true →
        owns nGids nRanks rank' index = true → rank = rank' :=
  ⟨⟨fun ⟨_, hr, h⟩ => lt_startGID_of_owns hr h, exists_owner_of_lt⟩, fun _ _ => owns_unique⟩

/-! ## When `range` is exact -/

theorem val_ofNat_pow_mul {a b : Nat} (hb : b < 2 ^ 24) :
    (F32.ofNat (2 ^ a * b)).val = (2 ^ a * b : Nat) := by
  rw [F32.ofNat, F32.val_round_one, Nat.mul_comm, round24_mul_pow, round24_of_lt hb]
  simp

/-- `range` is exact when `nRanks = 2 ^ a * b` for a divisor `b` of `nGids < 2 ^ 24`. -/
theorem val_gidRange {nGids a b : Nat} (hG : nGids < 2 ^ 24) (hG0 : 0 < nGids) (hb : b ∣ nGids) :
    (gidRange nGids (2 ^ a * b)).val = (nGids / b : Nat) * 2 ^ (-(a : Int)) := by
  have hb0 : 0 < b := Nat.pos_of_dvd_of_pos hb hG0
  have hx := val_ofNat_pow_mul (a := 0) hG
  have hy := val_ofNat_pow_mul (a := a) ((Nat.le_of_dvd hG0 hb).trans_lt hG)
  rw [pow_zero, Nat.one_mul] at hx
  rw [F32.val] at hx hy
  have hy0 : 0 < (F32.ofNat (2 ^ a * b)).mant := Nat.pos_of_ne_zero fun h0 => by
    rw [h0, Nat.cast_zero, zero_mul] at hy
    exact absurd hy.symm (by positivity)
  refine F32.val_round_of_eq hy0 ((Nat.div_le_self _ _).trans_lt hG) ?_
  rw [zpow_sub₀ two_ne_zero, Nat.cast_div hb (by exact_mod_cast hb0.ne'), zpow_neg, zpow_natCast]
  calc _ = ((F32.ofNat nGids).mant * 2 ^ (F32.ofNat nGids).exp : ℚ) /
        ((F32.ofNat (2 ^ a * b)).mant * 2 ^ (F32.ofNat (2 ^ a * b)).exp) := by ring
    _ = _ := by rw [hx, hy]; push_cast; ring

/-- With an exact `range`, the last bound `nRanks * range` is `nGids`. -/
theorem startGID_nRanks_of_exact {nGids a b : Nat} (hG : nGids < 2 ^ 24) (hb : b ∣ nGids)
    (hb0 : 0 < b) : startGID nGids (2 ^ a * b) (2 ^ a * b) = nGids := by
  rcases Nat.eq_zero_or_pos nGids with rfl | hG0
  · simp [startGID_eq, gidRange, F32.div, F32.round, F32.ofNat]
  have hR := val_gidRange (a := a) hG hG0 hb
  have hN : round24 (2 ^ a * b) = 2 ^ a * b := by
    rw [Nat.mul_comm, round24_mul_pow, round24_of_lt ((Nat.le_of_dvd hG0 hb).trans_lt hG)]
  have h : ((2 ^ a * b * (gidRange nGids (2 ^ a * b)).mant : Nat) : ℚ) *
      2 ^ (gidRange nGids (2 ^ a * b)).exp = nGids := by
    rw [F32.val, Nat.cast_div hb (by exact_mod_cast hb0.ne'), zpow_neg, zpow_natCast] at hR
    push_cast
    rw [mul_assoc, hR]
    field_simp
    ring
  rw [startGID_eq, hN, round24_mul_zpow hG h, Nat.floor_natCast]

/-- **Every GID has one owner when `range` is exact.** With fewer than `2 ^ 24` GIDs and
`nRanks = 2 ^ a * b` for a divisor `b` of `nGids`, a GID index has an owner exactly when it is
below `nGids`. -/
theorem layout_owners_exact {nGids nRanks a b : Nat} (hG : nGids < 2 ^ 24)
    (hN : nRanks = 2 ^ a * b) (hb : b ∣ nGids) (hb0 : 0 < b) (index : Nat) :
    (∃ rank < nRanks, owns nGids nRanks rank index = true) ↔ index < nGids := by
  subst hN
  have e := startGID_nRanks_of_exact (a := a) hG hb hb0
  exact ⟨fun ⟨_, hr, h⟩ => (lt_startGID_of_owns hr h).trans_eq e,
    fun hi => exists_owner_of_lt (hi.trans_eq e.symm)⟩

theorem layout_owners_exact_seven :
    35 < 2 ^ 24 ∧ 7 = 2 ^ 0 * 7 ∧ 7 ∣ 35 ∧ 0 < 7 ∧
      ((∃ rank < 7, owns 35 7 rank 34 = true) ↔ 34 < 35) :=
  ⟨by decide, rfl, by decide, by decide,
    @layout_owners_exact 35 7 0 7 (by decide) rfl (by decide) (by decide) 34⟩

/-- **A GID without an owner.** 31 GIDs on 7 ranks: the last `endGID` is 30, and no rank
owns the GID at index 30. -/
theorem gid_unowned : endGID 31 7 6 = 30 ∧ ∀ rank < 7, owns 31 7 rank 30 = false := by
  decide

end Brion
