import RockCoro.Lib.TaggedWord
import RockCoro.Memory.TSLinkedList.Basic

/-!
# The word of a tagged pointer

`memory/tagged_ptr.h`: a pointer and a tag of 16 bits in one word. A pointer is a word of 64 bits
and an `int` one of 32. `pack` says what the word holds, and every operation is a statement about
it; `encode` gives the words of the pointers that the lists handle.
-/

namespace RockCoro

open TaggedWord

/-- `TAGGED_PTR_MASK_BIT`. -/
abbrev TAGGED_PTR_MASK_BIT : ℕ := 48

/-- `TAGGED_PTR_MASK`. -/
abbrev TAGGED_PTR_MASK : BitVec 64 := 0xffff#64 <<< TAGGED_PTR_MASK_BIT

namespace TaggedPtr

/-- The word of a `TaggedPtr`, which a compare-exchange compares bit by bit. -/
structure Word where
  ptr : BitVec 64 := 0
  deriving DecidableEq

namespace Word

/-- `TaggedPtr(T *ptr)`. -/
def ofPtr (ptr : BitVec 64) : Word := ⟨ptr⟩

/-- `TaggedPtr(T *ptr, int tag)`. The cast of `tag` extends its sign. -/
def ofPtrTag (ptr : BitVec 64) (tag : BitVec 32) : Word :=
  ⟨ptr ||| (tag.signExtend 64 <<< TAGGED_PTR_MASK_BIT &&& TAGGED_PTR_MASK)⟩

/-- `get_ptr`. -/
def getPtr (w : Word) : BitVec 64 := w.ptr &&& ~~~TAGGED_PTR_MASK

/-- `get_tag`; the result is an `int`. -/
def getTag (w : Word) : BitVec 32 :=
  ((w.ptr &&& TAGGED_PTR_MASK) >>> TAGGED_PTR_MASK_BIT).setWidth 32

/-- `increment_tag`; the carry out of the tag is masked away. -/
def incrementTag (w : Word) : Word :=
  let tag := w.getTag + 1
  ⟨(w.ptr &&& ~~~TAGGED_PTR_MASK) |||
    (tag.signExtend 64 <<< TAGGED_PTR_MASK_BIT &&& TAGGED_PTR_MASK)⟩

/-- The word of a pointer that got the tag `tag` and was reused `n` times. -/
def reused (ptr : BitVec 64) (tag : BitVec 32) (n : ℕ) : Word :=
  incrementTag^[n] (ofPtrTag ptr tag)

/-! ## What a word holds -/

/-- The word of the tag `t` and the pointer `p`. -/
def pack (t : BitVec 16) (p : BitVec 48) : Word := ⟨t ++ p⟩

variable {t t' : BitVec 16} {p p' : BitVec 48} {ptr ptr' : BitVec 64} {tag tag' : BitVec 32}
  {n n' : ℕ}

/-- The mask covers the upper sixteen bits. -/
theorem mask_eq : TAGGED_PTR_MASK = tagMask 16 48 := by decide

/-- Words are equal when tag and pointer are. -/
theorem pack_inj : pack t p = pack t' p' ↔ t = t' ∧ p = p' :=
  Word.mk.injEq .. ▸ append_inj

/-- The pointer of a word has no tag. -/
theorem getPtr_pack : (pack t p).getPtr = p.setWidth 64 := by
  rw [getPtr, mask_eq]
  exact and_not_tagMask.trans zero_append

/-- Words have one pointer when their lower bits are the same. -/
theorem getPtr_inj : (pack t p).getPtr = (pack t' p').getPtr ↔ p = p' := by
  rw [getPtr_pack, getPtr_pack, BitVec.toNat_inj.symm, BitVec.toNat_setWidth_of_le (by decide),
    BitVec.toNat_setWidth_of_le (by decide), BitVec.toNat_inj]

/-- The tag of a word is not negative. -/
theorem getTag_pack : (pack t p).getTag = t.setWidth 32 := by
  have htag : ((t ++ p) &&& tagMask 16 48) >>> 48 = t.setWidth 64 := by
    rw [and_tagMask]
    exact tag_ushiftRight
  rw [getTag, mask_eq]
  exact (congrArg (BitVec.setWidth 32) htag).trans (BitVec.setWidth_setWidth_of_le t (by decide))

/-- A tag takes its place over a pointer with its low bits. -/
theorem or_tag (p : BitVec 48) (tag : BitVec 32) :
    (0#16 ++ p) ||| (tag.signExtend 64 <<< TAGGED_PTR_MASK_BIT &&& TAGGED_PTR_MASK) =
      tag.setWidth 16 ++ p := by
  have hlow : (tag.signExtend 64).setWidth 16 = tag.setWidth 16 := by
    ext i hi
    have hlt : i < 32 := Nat.lt_trans hi (by decide)
    simp [BitVec.getElem_signExtend, hlt, Nat.lt_trans hlt (show 32 < 64 by decide)]
  have hplace : tag.signExtend 64 <<< TAGGED_PTR_MASK_BIT &&& tagMask 16 48 =
      tag.setWidth 16 ++ 0#48 := by
    rw [← hlow]
    exact shiftLeft_and_tagMask
  rw [mask_eq, hplace]
  exact payload_or_tag

/-- A pointer below `2 ^ 48` and an `int` make the word of both, with the tag modulo `2 ^ 16`. -/
theorem ofPtrTag_eq (hp : ptr.toNat < 2 ^ TAGGED_PTR_MASK_BIT) :
    ofPtrTag ptr tag = pack (tag.setWidth 16) (ptr.setWidth 48) := by
  have hptr : ptr = 0#16 ++ ptr.setWidth 48 := eq_zero_append (v := 16) (w := 48) hp
  have hor := or_tag (ptr.setWidth 48) tag
  rw [← hptr] at hor
  exact congrArg Word.mk hor

/-- A pointer without a tag has the tag `0`. -/
theorem ofPtr_eq (hp : ptr.toNat < 2 ^ TAGGED_PTR_MASK_BIT) :
    ofPtr ptr = pack 0 (ptr.setWidth 48) :=
  congrArg Word.mk (eq_zero_append (v := 16) (w := 48) hp)

/-- Incrementing the tag adds one modulo `2 ^ 16` and keeps the pointer. -/
theorem incrementTag_pack : (pack t p).incrementTag = pack (t + 1) p := by
  have htag : ((pack t p).getTag + 1).setWidth 16 = t + 1 := by
    rw [getTag_pack, BitVec.setWidth_add _ _ (by decide),
      BitVec.setWidth_setWidth_of_le t (by decide), BitVec.setWidth_eq]
    rfl
  have hptr : (pack t p).ptr &&& ~~~TAGGED_PTR_MASK = 0#16 ++ p := by
    rw [mask_eq]
    exact and_not_tagMask
  have hor := or_tag p ((pack t p).getTag + 1)
  rw [htag, ← hptr] at hor
  exact congrArg Word.mk hor

/-- Reuse after reuse. -/
theorem incrementTag_iterate : incrementTag^[n] (pack t p) = pack (t + BitVec.ofNat 16 n) p := by
  induction n generalizing t with
  | zero =>
    rw [Function.iterate_zero_apply, BitVec.add_zero]
  | succ n ih =>
    rw [Function.iterate_succ_apply, incrementTag_pack, ih, Nat.add_comm n 1, BitVec.ofNat_add,
      ← BitVec.add_assoc]
    rfl

/-- The word after `n` reuses. -/
theorem reused_eq (hp : ptr.toNat < 2 ^ TAGGED_PTR_MASK_BIT) :
    reused ptr tag n = pack (tag.setWidth 16 + BitVec.ofNat 16 n) (ptr.setWidth 48) := by
  rw [reused, ofPtrTag_eq hp, incrementTag_iterate]

/-- The tag after the reuses, as a number. -/
theorem toNat_reusedTag :
    ((tag.setWidth 16 + BitVec.ofNat 16 n).toNat : Int) = (tag.toInt + n) % 2 ^ 16 := by
  have hlt := tag.isLt
  rw [BitVec.toNat_add, BitVec.toNat_setWidth, BitVec.toNat_ofNat, BitVec.toInt_eq_toNat_cond]
  split <;> omega

/-- A pointer below `2 ^ 48` is determined by its lower 48 bits. -/
theorem setWidth_inj (hp : ptr.toNat < 2 ^ TAGGED_PTR_MASK_BIT)
    (hp' : ptr'.toNat < 2 ^ TAGGED_PTR_MASK_BIT) :
    ptr.setWidth 48 = ptr'.setWidth 48 ↔ ptr = ptr' := by
  rw [BitVec.toNat_inj.symm, BitVec.toNat_setWidth, BitVec.toNat_setWidth, Nat.mod_eq_of_lt hp,
    Nat.mod_eq_of_lt hp', BitVec.toNat_inj]

/-- The pointer and the tag survive any number of reuses, and two such words are equal only if their
pointers and their tags are. -/
theorem reused_lossless (ptr : BitVec 64) (tag : BitVec 32) (n : ℕ)
    (hp : ptr.toNat < 2 ^ TAGGED_PTR_MASK_BIT) :
    (reused ptr tag n).getPtr = ptr ∧
      (reused ptr tag n).getTag.toInt = (tag.toInt + n) % 2 ^ 16 ∧
      ∀ ptr' tag' (n' : ℕ), ptr'.toNat < 2 ^ TAGGED_PTR_MASK_BIT →
        (reused ptr' tag' n' = reused ptr tag n ↔
          ptr' = ptr ∧ (tag'.toInt + n') % 2 ^ 16 = (tag.toInt + n) % 2 ^ 16) := by
  refine ⟨?_, ?_, fun ptr' tag' n' hp' => ?_⟩
  · rw [reused_eq hp, getPtr_pack]
    exact zero_append.symm.trans (eq_zero_append (v := 16) (w := 48) hp).symm
  · rw [reused_eq hp, getTag_pack, ← toNat_reusedTag]
    generalize tag.setWidth 16 + BitVec.ofNat 16 n = t
    have hlt := t.isLt
    rw [BitVec.toInt_eq_toNat_cond, BitVec.toNat_setWidth_of_le (by decide), if_pos (by omega)]
  · rw [reused_eq hp, reused_eq hp', pack_inj, setWidth_inj hp' hp, ← toNat_reusedTag,
      ← toNat_reusedTag, Int.natCast_inj, BitVec.toNat_inj, and_comm]

/-- The tag `-1` wraps to `0`, and the word is that of the tag `65536`. -/
theorem reused_lossless_wrap : (reused 0xfffffffffff0#64 (-1) 1).getPtr = 0xfffffffffff0#64 ∧
    (reused 0xfffffffffff0#64 (-1) 1).getTag.toInt = 0 ∧
      reused 0xfffffffffff0#64 0x10000 0 = reused 0xfffffffffff0#64 (-1) 1 ∧
        reused 0xffffffffffe0#64 (-1) 1 ≠ reused 0xfffffffffff0#64 (-1) 1 := by
  obtain ⟨hptr, htag, heq⟩ := reused_lossless 0xfffffffffff0#64 (-1) 1 (by decide)
  exact ⟨hptr, htag.trans (by decide), (heq _ _ 0 (by decide)).2 (by decide),
    fun h => absurd ((heq _ _ 1 (by decide)).1 h).1 (by decide)⟩

end Word

/-! ## The pointers of the lists -/

variable {N : Type} {addr : N → BitVec 48} {q r : TaggedPtr N}

/-- The word of a pointer of the lists, whose nodes are at the addresses `addr`. -/
def encode (addr : N → BitVec 48) (q : TaggedPtr N) : Word :=
  .pack q.tag.toBitVec (q.ptr.elim 0 addr)

/-- The null pointer is the word `0`. -/
theorem encode_null : ({} : TaggedPtr N).encode addr = .ofPtr 0 := by
  rw [Word.ofPtr_eq (by decide)]
  rfl

/-- The model's `incrementTag` is that of the words. -/
theorem encode_incrementTag : (q.encode addr).incrementTag = q.incrementTag.encode addr :=
  Word.incrementTag_pack

/-- A null pointer, for distinct nodes that are not at the address `0`. -/
theorem elim_inj (hinj : Function.Injective addr) (hnull : ∀ n, addr n ≠ 0) {a b : Option N} :
    a.elim 0 addr = b.elim 0 addr ↔ a = b := by
  cases a with
  | none => cases b with
    | none => simp
    | some b => simpa using (hnull b).symm
  | some a => cases b with
    | none => simpa using hnull a
    | some b => simpa using hinj.eq_iff

/-- The words are equal if the pointers are, tags included: the compare-exchanges of the lists
compare both. -/
theorem encode_inj (hinj : Function.Injective addr) (hnull : ∀ n, addr n ≠ 0) :
    q.encode addr = r.encode addr ↔ q = r := by
  rw [encode, encode, Word.pack_inj, elim_inj hinj hnull, UInt16.toBitVec_inj]
  obtain ⟨p, t⟩ := q
  obtain ⟨p', t'⟩ := r
  simp [and_comm]

/-- `get_ptr` compares the nodes alone. -/
theorem encode_getPtr_inj (hinj : Function.Injective addr) (hnull : ∀ n, addr n ≠ 0) :
    (q.encode addr).getPtr = (r.encode addr).getPtr ↔ q.ptr = r.ptr := by
  rw [encode, encode, Word.getPtr_inj, elim_inj hinj hnull]

end TaggedPtr

end RockCoro
