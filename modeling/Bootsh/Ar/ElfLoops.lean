import Bootsh.Ar.ElfReads

/-!
The loops over the section headers and over the symbols of an object.
-/
namespace Bootsh.Ar

open Bytes (Order)

variable {elf : Image} {i k off addr : ℕ} {name : List UInt8}

/-! ### Section names -/

/-- The pointer that `GetElfSectionNameStringTable` returns. -/
def Image.nameTable (elf : Image) : ℕ := (elf.shdr (elf.field 62 2)).elim 0 elf.contents

/-- The header of the section with the names is in the object as far as it is read. -/
def Image.NameTableInside (elf : Image) : Prop :=
  ∀ off, elf.shdr (elf.field 62 2) = some off → off + 40 ≤ elf.mapsize

theorem nameTable_eq (h : elf.Mapped) (hsize : sizeofHdr ≤ elf.mapsize)
    (hin : elf.NameTableInside) : getElfSectionNameStringTable elf = .ok elf.nameTable := by
  have h64 : 64 ≤ elf.mapsize := hsize
  have hstrndx : e_shstrndx elf = .ok (elf.field 62 2) := load_inside (by omega)
  rw [getElfSectionNameStringTable, hstrndx, Image.nameTable]
  dsimp only [Except.bind]
  rw [header_eq h hsize]
  dsimp only
  cases hshdr : elf.shdr (elf.field 62 2) with
  | none => rfl
  | some off =>
    show getElfSectionAddress elf (elf.base + off) = _
    rw [sectionAddress_eq h, if_pos (hin off hshdr)]
    rfl

theorem nameTable_outside (h : elf.Mapped) (hsize : sizeofHdr ≤ elf.mapsize)
    (hout : ¬ elf.NameTableInside) : getElfSectionNameStringTable elf = .error .outside := by
  have h64 : 64 ≤ elf.mapsize := hsize
  have hstrndx : e_shstrndx elf = .ok (elf.field 62 2) := load_inside (by omega)
  rw [Image.NameTableInside] at hout
  push Not at hout
  obtain ⟨off, hshdr, hlt⟩ := hout
  rw [getElfSectionNameStringTable, hstrndx]
  dsimp only [Except.bind]
  rw [header_eq h hsize, hshdr]
  show getElfSectionAddress elf (elf.base + off) = _
  rw [sectionAddress_eq h, if_neg (by omega)]

/-- Whether a string of the object is the given name. -/
def Image.named (elf : Image) (name : List UInt8) : Str → Bool
  | .null => false
  | .literal => name == []
  | .at addr => decide ((elf.bytes.drop (addr - elf.base)).takeWhile (· ≠ 0) = name)

theorem isNamed_eq {strtab : ℕ} (hname : 0 ∉ name) (hbelow : ¬ elf.Below strtab i) :
    isNamed elf name (elf.string strtab i) = .ok (elf.named name (elf.string strtab i)) := by
  cases hstr : elf.string strtab i with
  | null => rfl
  | literal => rfl
  | «at» addr =>
    obtain ⟨hle, -, hmem⟩ := string_at hstr hbelow
    have haddr : elf.base + (addr - elf.base) = addr := by omega
    have hcmp := strcmp_eq (rfl : elf.bytes.drop (addr - elf.base) = _) hmem hname
    rw [haddr] at hcmp
    exact hcmp

/-! ### The string table -/

/-- A section header is in the object as far as the search for a string table reads it, and so is
its name. -/
def Image.HeaderInside (elf : Image) (off : ℕ) : Prop :=
  off + 8 ≤ elf.mapsize ∧ (elf.field (off + 4) 4 = SHT_STRTAB →
    elf.NameTableInside ∧ ¬ elf.Below elf.nameTable (elf.field off 4))

/-- The string table with the given name. -/
def Image.Table (elf : Image) (name : List UInt8) (off : ℕ) : Prop :=
  elf.field (off + 4) 4 = SHT_STRTAB ∧
    elf.named name (elf.string elf.nameTable (elf.field off 4)) = true

theorem turn_none (h : elf.Mapped) (hsize : sizeofHdr ≤ elf.mapsize) (hnone : elf.shdr i = none)
    (n : ℕ) : stringTableLoop elf name i (n + 1) = stringTableLoop elf name (i + 1) n := by
  rw [stringTableLoop, header_eq h hsize, hnone]
  rfl

theorem sectionName_eq (h : elf.Mapped) (hsize : sizeofHdr ≤ elf.mapsize)
    (hin : off + 4 ≤ elf.mapsize) (htable : elf.NameTableInside) :
    getElfSectionName elf (elf.base + off) = getElfString elf elf.nameTable (elf.field off 4) := by
  have hne : elf.base + off ≠ 0 := pointer_ne_zero h off
  rw [getElfSectionName, if_neg hne, nameTable_eq h hsize htable, sh_name, load_inside hin]
  rfl

theorem turn_some (h : elf.Mapped) (hsize : sizeofHdr ≤ elf.mapsize) (hname : 0 ∉ name)
    (hshdr : elf.shdr i = some off) (n : ℕ) :
    (¬ elf.HeaderInside off ∧ stringTableLoop elf name i (n + 1) = .error .outside) ∨
    (elf.HeaderInside off ∧ elf.Table name off ∧
      stringTableLoop elf name i (n + 1) = getElfSectionAddress elf (elf.base + off)) ∨
    (elf.HeaderInside off ∧ ¬ elf.Table name off ∧
      stringTableLoop elf name i (n + 1) = stringTableLoop elf name (i + 1) n) := by
  have hne : elf.base + off ≠ 0 := pointer_ne_zero h off
  have hturn : stringTableLoop elf name i (n + 1) =
      (sh_type elf (elf.base + off)).bind fun type =>
        if type ≠ SHT_STRTAB then stringTableLoop elf name (i + 1) n
        else (getElfSectionName elf (elf.base + off)).bind fun str =>
          (isNamed elf name str).bind fun named =>
            if named then getElfSectionAddress elf (elf.base + off)
            else stringTableLoop elf name (i + 1) n := by
    rw [stringTableLoop, header_eq h hsize, hshdr]
    exact if_neg hne
  rw [hturn, sh_type, Nat.add_assoc]
  by_cases h8 : off + 8 ≤ elf.mapsize
  case neg =>
    rw [load_outside (by omega)]
    exact .inl ⟨fun hin => h8 hin.1, rfl⟩
  rw [load_inside (by omega)]
  dsimp only [Except.bind]
  by_cases htype : elf.field (off + 4) 4 = SHT_STRTAB
  case neg =>
    rw [if_pos htype]
    exact .inr (.inr ⟨⟨h8, fun h => absurd h htype⟩, fun h => htype h.1, rfl⟩)
  rw [if_neg (not_not_intro htype)]
  by_cases htable : elf.NameTableInside
  case neg =>
    rw [getElfSectionName, if_neg hne, nameTable_outside h hsize htable]
    exact .inl ⟨fun hin => htable (hin.2 htype).1, rfl⟩
  rw [sectionName_eq h hsize (by omega) htable, getElfString_eq]
  by_cases hbelow : elf.Below elf.nameTable (elf.field off 4)
  case pos =>
    rw [if_pos hbelow]
    exact .inl ⟨fun hin => (hin.2 htype).2 hbelow, rfl⟩
  right
  have hin : elf.HeaderInside off := ⟨h8, fun _ => ⟨htable, hbelow⟩⟩
  rw [if_neg hbelow]
  dsimp only
  rw [isNamed_eq hname hbelow]
  dsimp only
  by_cases hnamed : elf.named name (elf.string elf.nameTable (elf.field off 4)) = true
  · exact .inl ⟨hin, ⟨htype, hnamed⟩, if_pos hnamed⟩
  · exact .inr ⟨hin, fun h => hnamed h.2, if_neg hnamed⟩

/-- The header with the given index is that of a string table with the given name. -/
def Image.TableAt (elf : Image) (name : List UInt8) (k : ℕ) : Prop :=
  ∃ off, elf.shdr k = some off ∧ elf.Table name off

/-- There is no string table with the given name before an index. -/
def Image.Before (elf : Image) (name : List UInt8) (i k : ℕ) : Prop :=
  ∀ k', i ≤ k' → k' < k → ¬ elf.TableAt name k'

/-- If the header with the given index is looked at, it is in the object. -/
def Image.Inside (elf : Image) (name : List UInt8) (i k : ℕ) : Prop :=
  elf.Before name i k → ∀ off, elf.shdr k = some off → elf.HeaderInside off

/-- What the search for a string table comes to, from an index on. -/
inductive Search (elf : Image) (name : List UInt8) (i n : ℕ) : Except Stop ℕ → Prop
  | outside {k : ℕ} (hle : i ≤ k) (h : ¬ elf.Inside name i k) : Search elf name i n (.error .outside)
  | found {k off : ℕ} (hall : ∀ k, i ≤ k → k < i + n → elf.Inside name i k) (hle : i ≤ k)
      (hlt : k < i + n) (hshdr : elf.shdr k = some off) (htable : elf.Table name off)
      (hbefore : elf.Before name i k) :
      Search elf name i n (getElfSectionAddress elf (elf.base + off))
  | missing (hall : ∀ k, i ≤ k → k < i + n → elf.Inside name i k)
      (hnone : elf.Before name i (i + n)) : Search elf name i n (.ok 0)

theorem Image.Before.step (hnot : ¬ elf.TableAt name i) (h : elf.Before name (i + 1) k) :
    elf.Before name i k := by
  intro k' hle hlt
  rcases Nat.eq_or_lt_of_le hle with rfl | hlt'
  · exact hnot
  · exact h k' hlt' hlt

theorem Image.Before.tail (h : elf.Before name i k) : elf.Before name (i + 1) k :=
  fun k' hle hlt => h k' (by omega) hlt

theorem Search.step {n : ℕ} {r : Except Stop ℕ}
    (hin : ∀ off, elf.shdr i = some off → elf.HeaderInside off) (hnot : ¬ elf.TableAt name i)
    (h : Search elf name (i + 1) n r) : Search elf name i (n + 1) r := by
  have hall : (∀ k, i + 1 ≤ k → k < i + 1 + n → elf.Inside name (i + 1) k) →
      ∀ k, i ≤ k → k < i + (n + 1) → elf.Inside name i k := by
    intro hall k hle hlt hbefore
    rcases Nat.eq_or_lt_of_le hle with rfl | hlt'
    · exact hin
    · exact hall k hlt' (by omega) hbefore.tail
  cases h with
  | @outside k hle hout => exact .outside (by omega : i ≤ k) fun h => hout fun hb => h (hb.step hnot)
  | @found k off hin' hle hlt hshdr htable hbefore =>
    exact .found (hall hin') (by omega) (by omega) hshdr htable (hbefore.step hnot)
  | missing hin' hnone =>
    refine .missing (hall hin') ?_
    rw [Nat.add_comm n 1, ← Nat.add_assoc]
    exact hnone.step hnot

theorem stringTableLoop_search (h : elf.Mapped) (hsize : sizeofHdr ≤ elf.mapsize)
    (hname : 0 ∉ name) (i n : ℕ) : Search elf name i n (stringTableLoop elf name i n) := by
  induction n generalizing i with
  | zero =>
    refine .missing (fun k hle hlt => ?_) fun k hle hlt => ?_
    · omega
    · omega
  | succ n ih =>
    cases hshdr : elf.shdr i with
    | none =>
      rw [turn_none h hsize hshdr]
      refine (ih (i + 1)).step (fun off h => ?_) ?_
      · rw [hshdr] at h
        cases h
      · rintro ⟨off, h, -⟩
        rw [hshdr] at h
        cases h
    | some off =>
      have hoff : ∀ off', elf.shdr i = some off' → off' = off := fun off' h =>
        (Option.some.inj (hshdr.symm.trans h)).symm
      have hfirst : elf.Before name i i := fun k' hle hlt => absurd hle (by omega)
      rcases turn_some h hsize hname hshdr n with ⟨hout, hrun⟩ | ⟨hin, htable, hrun⟩ |
        ⟨hin, hnot, hrun⟩
      · rw [hrun]
        exact .outside le_rfl fun h => hout (h hfirst off hshdr)
      · rw [hrun]
        refine .found ?_ le_rfl (by omega) hshdr htable hfirst
        intro k hle hlt hbefore
        rcases Nat.eq_or_lt_of_le hle with rfl | hlt'
        · intro off' h'
          rw [hoff off' h']
          exact hin
        · exact absurd ⟨off, hshdr, htable⟩ (hbefore i le_rfl hlt')
      · rw [hrun]
        refine (ih (i + 1)).step (fun off' h' => ?_) ?_
        · rw [hoff off' h']
          exact hin
        · rintro ⟨off', h', htable⟩
          rw [hoff off' h'] at htable
          exact hnot htable

/-! ### The symbol table -/

/-- The section header that `GetElfSymbolTable` finds, if all of them are in the object. -/
def Image.symtab (elf : Image) (type : ℕ) : ℕ → Option ℕ
  | 0 => none
  | i + 1 =>
    match elf.shdr i with
    | none => elf.symtab type i
    | some off =>
      if elf.field (off + 56) 8 = sizeofSym ∧ elf.field (off + 4) 4 = type then some off
      else elf.symtab type i

/-- Each section header that starts in the object ends there. -/
def Image.Headers (elf : Image) : Prop :=
  ∀ k off, elf.shdr k = some off → off + sizeofHdr ≤ elf.mapsize

theorem symbolTableLoop_eq (h : elf.Mapped) (hsize : sizeofHdr ≤ elf.mapsize) (hin : elf.Headers)
    (type n : ℕ) : symbolTableLoop elf type n = .ok (elf.pointer (elf.symtab type n)) := by
  induction n with
  | zero => rfl
  | succ i ih =>
    rw [symbolTableLoop, header_eq h hsize, Image.symtab]
    dsimp only [Except.bind]
    cases hshdr : elf.shdr i with
    | none => exact ih
    | some off =>
      have hle : off + 64 ≤ elf.mapsize := hin i off hshdr
      have hne : elf.pointer (some off) ≠ 0 := pointer_ne_zero h off
      have hptr : elf.pointer (some off) = elf.base + off := rfl
      rw [if_neg hne, hptr, sh_entsize, sh_type, Nat.add_assoc, Nat.add_assoc,
        load_inside (by omega), load_inside (by omega), ih]
      dsimp only
      by_cases hent : elf.field (off + 56) 8 = sizeofSym
      · rw [if_neg (not_not_intro hent)]
        by_cases htype : elf.field (off + 4) 4 = type
        · rw [if_pos htype, if_pos ⟨hent, htype⟩]
          rfl
        · rw [if_neg htype, if_neg fun h => htype h.2]
      · rw [if_pos hent, if_neg fun h => hent h.1]

/-- The last header is looked at first. -/
theorem symbolTableLoop_outside (h : elf.Mapped) (hsize : sizeofHdr ≤ elf.mapsize)
    (hout : ¬ elf.Headers) (type : ℕ) :
    symbolTableLoop elf type (elf.field 60 2) = .error .outside := by
  rw [Image.Headers] at hout
  push Not at hout
  obtain ⟨k, off, hshdr, hlt⟩ := hout
  have hk : k < elf.field 60 2 := by
    rw [Image.shdr] at hshdr
    split at hshdr
    case isTrue hcond => exact hcond.2.1
    case isFalse => cases hshdr
  generalize elf.field 60 2 = n at hk
  have h64 : sizeofHdr = 64 := rfl
  induction n with
  | zero => omega
  | succ i ih =>
    rw [symbolTableLoop, header_eq h hsize]
    dsimp only [Except.bind]
    rcases Nat.lt_succ_iff_lt_or_eq.mp hk with hlt' | rfl
    · have hnone : elf.shdr i = none := by
        rw [Option.eq_none_iff_forall_ne_some]
        intro off' hoff'
        have hend := shdr_end hshdr hoff' hlt'
        omega
      rw [hnone]
      exact ih hlt'
    · have hne : elf.pointer (some off) ≠ 0 := pointer_ne_zero h off
      have hptr : elf.pointer (some off) = elf.base + off := rfl
      rw [hshdr, if_neg hne, hptr, sh_entsize, Nat.add_assoc, load_outside (by omega)]

end Bootsh.Ar
