import Mathlib.Algebra.Ring.Nat

/-!
# Words with a tag in their high bits

A word of `v + w` bits is a tag of `v` bits over a payload of `w` bits, `t ++ p`. The masks, the
shifts and the disjunctions that code uses to read and to write the two parts act on such a word as
the parts say, whatever the widths are.
-/

namespace TaggedWord

variable {v w : ℕ} {t t' : BitVec v} {p p' : BitVec w} {x : BitVec (v + w)}

/-- The bits of the tag. -/
def tagMask (v w : ℕ) : BitVec (v + w) := BitVec.allOnes v ++ 0#w

/-- The upper mask cuts out the tag. -/
theorem and_tagMask : (t ++ p) &&& tagMask v w = t ++ 0#w := by
  simp [tagMask]

/-- The complement of the mask cuts out the payload. -/
theorem and_not_tagMask : (t ++ p) &&& ~~~tagMask v w = 0#v ++ p := by
  simp [tagMask]

/-- A payload and a tag make a word. -/
theorem payload_or_tag : (0#v ++ p) ||| (t ++ 0#w) = t ++ p := by
  simp

/-- A tag that was shifted into place loses what does not fit. -/
theorem shiftLeft_and_tagMask : x <<< w &&& tagMask v w = x.setWidth v ++ 0#w := by
  ext i hi
  rcases Nat.lt_or_ge i w with hlt | hge
  · simp [tagMask, BitVec.getElem_append, hlt]
  · simp [tagMask, BitVec.getElem_append, Nat.not_lt.2 hge,
      BitVec.getLsbD_eq_getElem (show i - w < v + w by omega)]

/-- The tag is shifted down. -/
theorem tag_ushiftRight : (t ++ 0#w) >>> w = t.setWidth (v + w) := by
  ext i hi
  simp [BitVec.getLsbD_append]

/-- Words are equal when tags and payloads are. -/
theorem append_inj : t ++ p = t' ++ p' ↔ t = t' ∧ p = p' := by
  constructor
  · intro h
    refine ⟨?_, ?_⟩
    · have htag := congrArg (BitVec.extractLsb' w v) h
      rwa [BitVec.extractLsb'_append_eq_left, BitVec.extractLsb'_append_eq_left] at htag
    · have hpayload := congrArg (BitVec.extractLsb' 0 w) h
      rwa [BitVec.extractLsb'_append_eq_right, BitVec.extractLsb'_append_eq_right] at hpayload
  · rintro ⟨rfl, rfl⟩
    rfl

/-- A payload without a tag. -/
theorem zero_append : 0#v ++ p = p.setWidth (v + w) := by
  ext i hi
  rcases Nat.lt_or_ge i w with hlt | hge
  · simp [BitVec.getElem_append, hlt]
  · simp [BitVec.getElem_append, Nat.not_lt.2 hge, BitVec.getLsbD_of_ge p i hge]

/-- A word below the tag bits is a payload without a tag. -/
theorem eq_zero_append (hx : x.toNat < 2 ^ w) : x = 0#v ++ x.setWidth w := by
  refine BitVec.eq_of_toNat_eq ?_
  rw [zero_append, BitVec.toNat_setWidth_of_le (Nat.le_add_left w v), BitVec.toNat_setWidth,
    Nat.mod_eq_of_lt hx]

end TaggedWord
