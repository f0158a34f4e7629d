import Bootsh.Ar.Elf
import Mathlib.Data.List.TakeWhile

/-!
Which reads of an object are outside of it.
-/
namespace Bootsh.Ar

open Bytes (Order)

/-- What `ar_main` and `mmap` see to. -/
structure Image.Mapped (elf : Image) : Prop where
  base : 0 < elf.base
  size : elf.mapsize ≤ 0x7ffff000
  limit : elf.limit < 2 ^ 64

variable {elf : Image} {i off addr : ℕ}

/-! ### Fields -/

/-- A number in the object; what is behind its end counts as nothing. -/
def Image.field (elf : Image) (off width : ℕ) : ℕ :=
  Order.little.decode ((elf.bytes.drop off).take width)

theorem field_lt (elf : Image) (off width : ℕ) : elf.field off width < 256 ^ width := by
  have h := Order.little.decode_lt ((elf.bytes.drop off).take width)
  have hlen : ((elf.bytes.drop off).take width).length ≤ width := by
    rw [List.length_take]
    exact Nat.min_le_left ..
  exact h.trans_le (Nat.pow_le_pow_right (by decide) hlen)

theorem load_base (elf : Image) (off width : ℕ) : elf.load (elf.base + off) width =
    if off + width ≤ elf.mapsize then .ok (elf.field off width) else .error .outside := by
  rw [Image.load, Image.limit]
  by_cases h : off + width ≤ elf.mapsize
  · rw [if_pos h, if_pos ⟨by omega, by omega⟩, Nat.add_sub_cancel_left]
    rfl
  · rw [if_neg h, if_neg (by omega)]

theorem load_inside {width : ℕ} (h : off + width ≤ elf.mapsize) :
    elf.load (elf.base + off) width = .ok (elf.field off width) := by
  rw [load_base, if_pos h]

theorem load_outside {width : ℕ} (h : ¬ off + width ≤ elf.mapsize) :
    elf.load (elf.base + off) width = .error .outside := by
  rw [load_base, if_neg h]

/-! ### Section headers -/

/-- Where a section header starts, if it is looked at. -/
def Image.shdr (elf : Image) (i : ℕ) : Option ℕ :=
  if i < SHN_LORESERVE ∧ i < elf.field 60 2 ∧ elf.field 40 8 ≠ 0 ∧ elf.field 40 8 < elf.mapsize ∧
      sizeofHdr ≤ elf.field 58 2 ∧ elf.field 40 8 + i * elf.field 58 2 ≤ elf.mapsize then
    some (elf.field 40 8 + i * elf.field 58 2)
  else none

/-- The pointer to a place in the object, or null. -/
def Image.pointer (elf : Image) (off : Option ℕ) : ℕ := off.elim 0 (elf.base + ·)

theorem header_eq (h : elf.Mapped) (hsize : sizeofHdr ≤ elf.mapsize) (i : ℕ) :
    getElfSectionHeaderAddress elf i = .ok (elf.pointer (elf.shdr i)) := by
  have h64 : 64 ≤ elf.mapsize := hsize
  have hshnum : e_shnum elf = .ok (elf.field 60 2) := load_inside (by omega)
  have hshoff : e_shoff elf = .ok (elf.field 40 8) := load_inside (by omega)
  have hshentsize : e_shentsize elf = .ok (elf.field 58 2) := load_inside (by omega)
  rw [getElfSectionHeaderAddress, hshnum, hshoff, hshentsize, Image.shdr]
  by_cases hi : SHN_LORESERVE ≤ i
  · rw [if_pos hi, if_neg (by omega)]
    rfl
  rw [if_neg hi]
  dsimp only [Except.bind, Except.map]
  by_cases hnum : elf.field 60 2 ≤ i
  · rw [if_pos hnum, if_neg (by omega)]
    rfl
  rw [if_neg hnum]
  by_cases hzero : elf.field 40 8 = 0
  · rw [if_pos hzero, if_neg (by omega)]
    rfl
  rw [if_neg hzero]
  by_cases hoff : elf.mapsize ≤ elf.field 40 8
  · rw [if_pos hoff, if_neg (by omega)]
    rfl
  rw [if_neg hoff]
  by_cases hent : elf.field 58 2 < sizeofHdr
  · rw [if_pos hent, if_neg (by omega)]
    rfl
  have hentlt := field_lt elf 58 2
  have hreserve : SHN_LORESERVE = 65280 := rfl
  have hmul : i * elf.field 58 2 < 2 ^ 32 := by
    have hle : i * elf.field 58 2 ≤ 65280 * 65536 := Nat.mul_le_mul (by omega) (by omega)
    omega
  have hmap := h.size
  have hlimit := h.limit
  rw [Image.limit] at hlimit
  rw [if_neg hent, Nat.mod_eq_of_lt hmul, Nat.mod_eq_of_lt (by omega)]
  by_cases hle : elf.mapsize < elf.field 40 8 + i * elf.field 58 2
  · rw [if_pos hle, if_neg (by omega)]
    rfl
  · rw [if_neg hle, if_pos (by omega), ptr, Nat.mod_eq_of_lt (by omega)]
    rfl

theorem pointer_ne_zero (h : elf.Mapped) (off : ℕ) : elf.pointer (some off) ≠ 0 := by
  have hbase := h.base
  show elf.base + off ≠ 0
  omega

/-- A header that starts in the object is the last such or ends before the next. -/
theorem shdr_end {i j off off' : ℕ} (hi : elf.shdr i = some off) (hj : elf.shdr j = some off')
    (hlt : i < j) : off + sizeofHdr ≤ elf.mapsize := by
  rw [Image.shdr] at hi hj
  split at hi
  case isFalse => cases hi
  case isTrue hi' =>
  split at hj
  case isFalse => cases hj
  case isTrue hj' =>
    cases hi
    cases hj
    have hmul : (i + 1) * elf.field 58 2 ≤ j * elf.field 58 2 := Nat.mul_le_mul_right _ hlt
    rw [Nat.add_mul, Nat.one_mul] at hmul
    omega

/-! ### Sections -/

/-- The pointer to the content of a section, wherever that is. -/
def Image.contents (elf : Image) (off : ℕ) : ℕ :=
  if elf.field (off + 32) 8 = 0 then elf.base
  else if elf.field (off + 4) 4 = SHT_NOBITS then 0
  else ptr elf.base (elf.field (off + 24) 8)

theorem sectionAddress_eq (h : elf.Mapped) (off : ℕ) : getElfSectionAddress elf (elf.base + off) =
    if off + 40 ≤ elf.mapsize then .ok (elf.contents off) else .error .outside := by
  have hne : elf.base + off ≠ 0 := pointer_ne_zero h off
  rw [getElfSectionAddress, if_neg hne, sh_size, sh_type, sh_offset,
    Nat.add_assoc, Nat.add_assoc, Nat.add_assoc, Image.contents]
  by_cases hin : off + 40 ≤ elf.mapsize
  · rw [if_pos hin, load_inside (by omega), load_inside (by omega), load_inside (by omega)]
    dsimp only [Except.bind, Except.map]
    split
    case isTrue => rfl
    case isFalse =>
    split
    case isTrue => rfl
    case isFalse => rfl
  · rw [if_neg hin, load_outside (by omega)]
    rfl

/-! ### Strings -/

/-- The string starts below the object: its address has wrapped around. -/
def Image.Below (elf : Image) (strtab i : ℕ) : Prop :=
  i ≠ 0 ∧ strtab ≠ 0 ∧ i < elf.mapsize ∧ ptr strtab i < elf.base

instance (elf : Image) (strtab i : ℕ) : Decidable (elf.Below strtab i) :=
  inferInstanceAs (Decidable (_ ∧ _))

def Image.string (elf : Image) (strtab i : ℕ) : Str :=
  if i = 0 then .literal
  else if strtab = 0 ∨ elf.mapsize ≤ i ∨ elf.limit ≤ ptr strtab i then .null
  else if 0 ∈ elf.bytes.drop (ptr strtab i - elf.base) then .at (ptr strtab i)
  else .null

theorem load_cons {b : UInt8} {s : List UInt8} (h : elf.bytes.drop off = b :: s) :
    elf.load (elf.base + off) 1 = .ok b.toNat ∧ elf.bytes.drop (off + 1) = s := by
  have hlen := congrArg List.length h
  rw [List.length_drop, List.length_cons] at hlen
  have hsize : elf.mapsize = elf.bytes.length := rfl
  refine ⟨?_, ?_⟩
  · rw [load_inside (by omega), Image.field, h]
    rfl
  · rw [← List.drop_drop, h]
    rfl

theorem memchr_eq {s : List UInt8} (h : elf.bytes.drop off = s) :
    memchr elf (elf.base + off) s.length = .ok (decide (0 ∈ s)) := by
  induction s generalizing off with
  | nil => rfl
  | cons b s ih =>
    obtain ⟨hload, hrest⟩ := load_cons h
    rw [List.length_cons, memchr, hload]
    dsimp only [Except.bind]
    by_cases hb : b = 0
    · simp [hb]
    · have hne : b.toNat ≠ 0 := fun h => hb (UInt8.toNat_inj.mp h)
      rw [if_neg hne, Nat.add_assoc, ih hrest]
      simp [Ne.symm hb]

theorem strcmp_eq {s name : List UInt8} (h : elf.bytes.drop off = s) (hs : 0 ∈ s)
    (hname : 0 ∉ name) :
    strcmp elf (elf.base + off) name = .ok (decide (s.takeWhile (· ≠ 0) = name)) := by
  induction name generalizing off s with
  | nil =>
    cases s with
    | nil => cases hs
    | cons b s =>
      rw [strcmp, (load_cons h).1]
      by_cases hb : b = 0
      · simp [hb, Except.map]
      · have hne : b.toNat ≠ 0 := fun h => hb (UInt8.toNat_inj.mp h)
        simp [hb, hne, Except.map]
  | cons c name ih =>
    cases s with
    | nil => cases hs
    | cons b s =>
      obtain ⟨hload, hrest⟩ := load_cons h
      rw [strcmp, hload]
      dsimp only [Except.bind]
      have hc : c ≠ 0 := fun h => hname (h ▸ List.mem_cons_self)
      by_cases hb : b = c
      · subst hb
        have hs' : 0 ∈ s := (List.mem_cons.mp hs).resolve_left (Ne.symm hc)
        rw [if_pos rfl, Nat.add_assoc, ih hrest hs' fun h => hname (List.mem_cons_of_mem _ h)]
        simp [hc]
      · have hne : b.toNat ≠ c.toNat := fun h => hb (UInt8.toNat_inj.mp h)
        rw [if_neg hne]
        by_cases hzero : b = 0
        · simp [hzero]
        · simp [hzero, hb]

theorem cstring_eq {s : List UInt8} (h : elf.bytes.drop off = s) (hs : 0 ∈ s) :
    cstring elf (elf.base + off) s.length = .ok (s.takeWhile (· ≠ 0)) := by
  induction s generalizing off with
  | nil => cases hs
  | cons b s ih =>
    obtain ⟨hload, hrest⟩ := load_cons h
    rw [List.length_cons, cstring, hload]
    dsimp only [Except.bind]
    by_cases hb : b = 0
    · simp [hb]
    · have hne : b.toNat ≠ 0 := fun h => hb (UInt8.toNat_inj.mp h)
      have hs' : 0 ∈ s := (List.mem_cons.mp hs).resolve_left (Ne.symm hb)
      rw [if_neg hne, Nat.add_assoc, ih hrest hs']
      simp [hb, Except.map]

theorem getElfString_eq (strtab i : ℕ) : getElfString elf strtab i =
    if elf.Below strtab i then .error .outside else .ok (elf.string strtab i) := by
  rw [getElfString]
  by_cases hi : i = 0
  · rw [if_pos hi, if_neg fun h => h.1 hi, Image.string, if_pos hi]
  rw [if_neg hi]
  by_cases hstrtab : strtab = 0
  · rw [if_pos hstrtab, if_neg fun h => h.2.1 hstrtab, Image.string, if_neg hi,
      if_pos (.inl hstrtab)]
  rw [if_neg hstrtab]
  by_cases hsize : elf.mapsize ≤ i
  · rw [if_pos hsize, if_neg fun h => Nat.not_lt.mpr hsize h.2.2.1, Image.string, if_neg hi,
      if_pos (.inr (.inl hsize))]
  rw [if_neg hsize]
  by_cases hlimit : elf.limit ≤ ptr strtab i
  · have hnot : ¬ elf.Below strtab i := by
      rintro ⟨-, -, -, hlt⟩
      rw [Image.limit] at hlimit
      omega
    rw [if_pos hlimit, if_neg hnot, Image.string, if_neg hi, if_pos (.inr (.inr hlimit))]
  rw [if_neg hlimit]
  by_cases hbelow : ptr strtab i < elf.base
  · obtain ⟨n, hn⟩ := Nat.exists_eq_succ_of_ne_zero (show elf.limit - ptr strtab i ≠ 0 by omega)
    have hload : elf.load (ptr strtab i) 1 = .error .outside := if_neg (by omega)
    rw [if_pos ⟨hi, hstrtab, Nat.lt_of_not_le hsize, hbelow⟩, hn, memchr, hload]
    rfl
  · have hstring : elf.string strtab i =
        if 0 ∈ elf.bytes.drop (ptr strtab i - elf.base) then .at (ptr strtab i) else .null := by
      rw [Image.string, if_neg hi, if_neg]
      rintro (h | h | h)
      · exact hstrtab h
      · exact hsize h
      · exact hlimit h
    have haddr : elf.base + (ptr strtab i - elf.base) = ptr strtab i := by omega
    have hlen : (elf.bytes.drop (ptr strtab i - elf.base)).length = elf.limit - ptr strtab i := by
      rw [List.length_drop, Image.limit, Image.mapsize]
      omega
    have hmemchr := memchr_eq (rfl : elf.bytes.drop (ptr strtab i - elf.base) = _)
    rw [haddr, hlen] at hmemchr
    rw [if_neg fun h => hbelow h.2.2.2, hstring, hmemchr]
    by_cases hmem : 0 ∈ elf.bytes.drop (ptr strtab i - elf.base)
    · simp [Except.map, hmem]
    · simp [Except.map, hmem]

/-- The string behind a pointer that is not null, up to its NUL. -/
theorem string_at {strtab : ℕ} (h : elf.string strtab i = .at addr)
    (hbelow : ¬ elf.Below strtab i) : elf.base ≤ addr ∧ addr < elf.limit ∧
      0 ∈ elf.bytes.drop (addr - elf.base) := by
  rw [Image.string] at h
  split at h
  case isTrue => cases h
  case isFalse hi =>
  split at h
  case isTrue => cases h
  case isFalse hnot =>
  simp only [not_or, Nat.not_le] at hnot
  split at h
  case isFalse => cases h
  case isTrue hmem =>
    cases h
    refine ⟨?_, hnot.2.2, hmem⟩
    by_contra hlt
    exact hbelow ⟨hi, hnot.1, hnot.2.1, by omega⟩

end Bootsh.Ar
