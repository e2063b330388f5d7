import RecyclingStack.Link.Basic

/-! Where slots lie. Slots are stored in segments, each twice as long as the one before, so that a
growing arena never moves a slot. -/
namespace RecyclingStack

def firstSegmentLength : Nat := 32

def segmentCount : Nat := 26

def segmentLength (segment : Nat) : Nat := firstSegmentLength <<< segment

/-- The index of the first slot of a segment. -/
def segmentStart (segment : Nat) : Nat := firstSegmentLength * ((1 <<< segment) - 1)

/-- The number of slots that all segments have together. It is below `nilIndex`. -/
def maxCapacity : Nat := segmentStart segmentCount

/-- The place of a slot: its segment, and its offset in the segment. -/
structure Place where
  segment : Nat
  offset : Nat
  deriving DecidableEq

/-- The place of the slot with the given index. Counted from the length of segment 0, the indices
of segment `s` are those whose binary logarithm is `s + 5`. -/
def locate (index : Nat) : Place :=
  let shifted := index + firstSegmentLength
  let segment := shifted.log2 - firstSegmentLength.log2
  ⟨segment, shifted - segmentLength segment⟩

theorem segmentLength_pos (segment : Nat) : 0 < segmentLength segment := by
  rw [segmentLength, Nat.shiftLeft_eq]
  exact Nat.mul_pos (by decide) (Nat.two_pow_pos segment)

theorem segmentStart_add_length (segment : Nat) :
    segmentStart segment + segmentLength segment = segmentStart (segment + 1) := by
  have h := Nat.two_pow_pos segment
  simp only [segmentStart, segmentLength, firstSegmentLength, Nat.shiftLeft_eq, Nat.pow_succ]
  omega

/-- Shifted by the length of segment 0, an index has a logarithm of 5 at least. -/
theorem locate_log (index : Nat) :
    (index + firstSegmentLength).log2 = (locate index).segment + 5 := by
  have h : 5 ≤ (index + firstSegmentLength).log2 :=
    (Nat.le_log2 (by simp [firstSegmentLength])).2 (by simp [firstSegmentLength])
  have hfirst : firstSegmentLength.log2 = 5 := by decide
  simp only [locate, hfirst]
  omega

/-- The segment's length is the largest power of two that fits into the shifted index. -/
theorem segmentLength_locate (index : Nat) :
    segmentLength (locate index).segment = 1 <<< (index + firstSegmentLength).log2 := by
  rw [locate_log]
  simp only [segmentLength, firstSegmentLength, Nat.shiftLeft_eq, Nat.pow_add]
  omega

/-- A place says where the index lies. -/
theorem start_add_offset_locate (index : Nat) :
    segmentStart (locate index).segment + (locate index).offset = index := by
  have hlow := Nat.log2_self_le (n := index + firstSegmentLength) (by simp [firstSegmentLength])
  have hlength := segmentLength_locate index
  have hpos := Nat.two_pow_pos (locate index).segment
  have hoffset : (locate index).offset
      = index + firstSegmentLength - segmentLength (locate index).segment := rfl
  simp only [segmentStart, segmentLength, firstSegmentLength, Nat.shiftLeft_eq] at *
  omega

/-- The offset lies inside the segment. -/
theorem offset_locate_lt (index : Nat) :
    (locate index).offset < segmentLength (locate index).segment := by
  have hhigh : index + firstSegmentLength < 2 ^ ((index + firstSegmentLength).log2 + 1) :=
    Nat.lt_log2_self
  have hlength := segmentLength_locate index
  have hoffset : (locate index).offset
      = index + firstSegmentLength - segmentLength (locate index).segment := rfl
  rw [Nat.pow_succ] at hhigh
  rw [Nat.shiftLeft_eq] at hlength
  omega

/-- Different indices have different places. -/
theorem locate_injective {i j : Nat} (h : locate i = locate j) : i = j := by
  rw [← start_add_offset_locate i, ← start_add_offset_locate j, h]

end RecyclingStack
