import RockCoro.Lib.X86

/-!
# Address spaces

What a process has mapped, byte by byte, and the calls that change it. Page sizes are powers of two.
The calls reject an address that is not the start of a page. What is up to the kernel is an
argument: the address that `mmap` returns, with `Free` for those that it can return, and whether
there is room for the further mappings into which `mprotect` and `munmap` may split one.
-/

namespace RockCoro.X86

/-- What the accesses to a page may be. -/
inductive Protection
  | readWrite
  | none
  deriving DecidableEq

/-- The access to each byte that is mapped. -/
abbrev AddressSpace : Type := Word → Option Protection

/-- A power of two, with room for the roundings of sizes. -/
structure PageSize where
  log : ℕ
  log_le : log ≤ 62

namespace PageSize

/-- The page size as a word. -/
def toWord (page : PageSize) : Word := BitVec.twoPow 64 page.log

/-- The address is at the start of a page. -/
def Aligned (page : PageSize) (a : Word) : Prop := a.toNat % 2 ^ page.log = 0

instance (page : PageSize) (a : Word) : Decidable (page.Aligned a) :=
  inferInstanceAs (Decidable (_ = _))

/-- The least multiple of the page size from `n` on. -/
def roundUp (page : PageSize) (n : Word) : Word := (n + page.toWord - 1) &&& ~~~(page.toWord - 1)

variable {page : PageSize} {a b n : Word}

/-- A page is far smaller than the address space. -/
theorem two_pow_le : 2 ^ page.log ≤ 2 ^ 62 := Nat.pow_le_pow_right (by decide) page.log_le

/-- A page is not empty. -/
theorem two_pow_pos : 0 < 2 ^ page.log := Nat.two_pow_pos page.log

/-- The page size fits into a word. -/
theorem toNat_toWord : page.toWord.toNat = 2 ^ page.log := by
  rw [toWord, BitVec.toNat_twoPow, Nat.mod_eq_of_lt]
  exact Nat.lt_of_le_of_lt page.two_pow_le (by decide)

/-- The mask of the offsets in a page, as a number. -/
theorem toNat_toWord_sub_one : (page.toWord - 1).toNat = 2 ^ page.log - 1 := by
  have hpos := page.two_pow_pos
  have hpage := page.toNat_toWord
  bv_omega

/-- The bits of a word outside of a mask and those in it. -/
theorem and_not_add_and (a mask : Word) : (a &&& ~~~mask) + (a &&& mask) = a := by
  have hzero : (a &&& ~~~mask) &&& (a &&& mask) = 0#64 := by
    ext i hi
    cases h : mask[i] <;> simp [h]
  rw [BitVec.add_eq_or_of_and_eq_zero _ _ hzero]
  ext i hi
  cases h : mask[i] <;> simp [h]

/-- Clearing the low bits is rounding down. -/
theorem toNat_and_not :
    (a &&& ~~~(page.toWord - 1)).toNat = a.toNat / 2 ^ page.log * 2 ^ page.log := by
  have hlow : (a &&& (page.toWord - 1)).toNat = a.toNat % 2 ^ page.log := by
    rw [BitVec.toNat_and, toNat_toWord_sub_one, Nat.and_two_pow_sub_one_eq_mod]
  have hsplit := and_not_add_and a (page.toWord - 1)
  have hle : a.toNat % 2 ^ page.log ≤ a.toNat := Nat.mod_le ..
  have hdiv := Nat.div_add_mod' a.toNat (2 ^ page.log)
  bv_omega

/-- Rounding up stays in range, gives a multiple, and adds less than a page. -/
theorem roundUp_spec (hn : n.toNat < 2 ^ 62) :
    page.Aligned (page.roundUp n) ∧ n.toNat ≤ (page.roundUp n).toNat ∧
      (page.roundUp n).toNat < n.toNat + 2 ^ page.log := by
  have hpos := page.two_pow_pos
  have hle := page.two_pow_le
  have hpage := page.toNat_toWord
  have hsum : (n + page.toWord - 1).toNat = n.toNat + 2 ^ page.log - 1 := by bv_omega
  have hdiv := Nat.div_add_mod' (n.toNat + 2 ^ page.log - 1) (2 ^ page.log)
  have hmod := Nat.mod_lt (n.toNat + 2 ^ page.log - 1) hpos
  rw [Aligned, roundUp, toNat_and_not, hsum]
  exact ⟨Nat.mul_mod_left _ _, by omega, by omega⟩

/-- The page after an aligned one is aligned. -/
theorem Aligned.add_page (ha : page.Aligned a) : page.Aligned (a + page.toWord) := by
  rw [Aligned, BitVec.toNat_add, toNat_toWord, Nat.mod_mod_of_dvd, Nat.add_mod_right]
  · exact ha
  · exact Nat.pow_dvd_pow 2 (Nat.le_trans page.log_le (by decide))

end PageSize

namespace AddressSpace

variable {page : PageSize} {s : AddressSpace} {a n x : Word} {v : Option Protection}

/-- The bytes from `a` on get another access. -/
def fill (s : AddressSpace) (a n : Word) (v : Option Protection) : AddressSpace :=
  fun x => if InRange a n x then v else s x

/-- Inside the range the new protection holds. -/
theorem fill_of_inRange (hx : InRange a n x) : s.fill a n v x = v := if_pos hx

/-- Outside the range nothing changes. -/
theorem fill_of_not (hx : ¬InRange a n x) : s.fill a n v x = s x := if_neg hx

/-- `mmap` can return `a` for a request of `n` bytes. -/
structure Free (s : AddressSpace) (page : PageSize) (a n : Word) : Prop where
  aligned : page.Aligned a
  free : ∀ x, InRange a n x → s x = none

/-- `mmap` of anonymous memory at `a`. -/
def mmap (s : AddressSpace) (a n : Word) : AddressSpace := s.fill a n (some .readWrite)

/-- `mprotect` with `PROT_NONE`; `none` is `EINVAL`, or `ENOMEM` if there is no room for another
mapping. -/
def mprotect (s : AddressSpace) (page : PageSize) (a n : Word) (room : Bool) :
    Option AddressSpace :=
  if page.Aligned a ∧ room = true then some (s.fill a n (some .none)) else none

/-- `munmap`; `none` is `EINVAL`, or `ENOMEM` if there is no room for another mapping. -/
def munmap (s : AddressSpace) (page : PageSize) (a n : Word) (room : Bool) : Option AddressSpace :=
  if page.Aligned a ∧ room = true then some (s.fill a n none) else none

/-- On a page, `mprotect` fails only for want of room. -/
theorem mprotect_getD (ha : page.Aligned a) (room : Bool) :
    (s.mprotect page a n room).getD s = if room then s.fill a n (some .none) else s := by
  cases room with
  | true => rw [mprotect, if_pos ⟨ha, rfl⟩, Option.getD_some, if_pos rfl]
  | false => rw [mprotect, if_neg (by simp), Option.getD_none, if_neg Bool.false_ne_true]

/-- So does `munmap`. -/
theorem munmap_getD (ha : page.Aligned a) (room : Bool) :
    (s.munmap page a n room).getD s = if room then s.fill a n none else s := by
  cases room with
  | true => rw [munmap, if_pos ⟨ha, rfl⟩, Option.getD_some, if_pos rfl]
  | false => rw [munmap, if_neg (by simp), Option.getD_none, if_neg Bool.false_ne_true]

end AddressSpace

end RockCoro.X86
