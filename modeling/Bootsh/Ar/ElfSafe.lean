import Bootsh.Ar.ElfLoops

/-!
Which objects `ar` reads without a read outside of them.
-/
namespace Bootsh.Ar

open Bytes (Order)

variable {elf : Image} {off addr strs syms j k n : ℕ}

/-! ### The symbols -/

/-- Where a symbol is. -/
def symAddr (syms j : ℕ) : ℕ := ptr syms (sizeofSym * j)

/-- The fields of a symbol in the object. -/
def Image.symName (elf : Image) (syms j : ℕ) : ℕ := elf.field (symAddr syms j - elf.base) 4

def Image.symIndex (elf : Image) (syms j : ℕ) : ℕ := elf.field (symAddr syms j - elf.base + 6) 2

/-- A symbol with a name that is defined. -/
def Image.Defined (elf : Image) (syms j : ℕ) : Prop :=
  elf.symName syms j ≠ 0 ∧ elf.symIndex syms j ≠ SHN_UNDEF ∧ elf.symIndex syms j ≠ SHN_COMMON

/-- A symbol is in the object as far as it is read, and so is its name. -/
def Image.SymbolInside (elf : Image) (strs syms j : ℕ) : Prop :=
  elf.base ≤ symAddr syms j ∧ symAddr syms j + 4 ≤ elf.limit ∧
    (elf.symName syms j ≠ 0 → symAddr syms j + 8 ≤ elf.limit) ∧
    (elf.Defined syms j → ¬ elf.Below strs (elf.symName syms j))

/-- The symbol at which `ar` gives up. -/
def Image.Corrupt (elf : Image) (strs syms j : ℕ) : Prop :=
  elf.Defined syms j ∧ elf.string strs (elf.symName syms j) = .null

/-- The string is in the object, with a NUL behind it. -/
def Image.Holds (elf : Image) (s : List UInt8) : Prop :=
  ∃ off rest, elf.bytes.drop off = s ++ 0 :: rest

theorem exists_takeWhile {s : List UInt8} (h : 0 ∈ s) :
    ∃ rest, s = s.takeWhile (· ≠ 0) ++ 0 :: rest := by
  induction s with
  | nil => cases h
  | cons b s ih =>
    by_cases hb : b = 0
    · exact ⟨s, by simp [hb]⟩
    · obtain ⟨rest, hrest⟩ := ih ((List.mem_cons.mp h).resolve_left (Ne.symm hb))
      refine ⟨rest, ?_⟩
      have htake : (b :: s).takeWhile (· ≠ 0) = b :: s.takeWhile (· ≠ 0) := by simp [hb]
      rw [htake, List.cons_append, ← hrest]

/-- What a turn for a symbol comes to. -/
inductive Turn (elf : Image) (strs syms j n : ℕ) : Except Stop (List (List UInt8)) → Prop
  | outside (h : ¬ elf.SymbolInside strs syms j) : Turn elf strs syms j n (.error .outside)
  | corrupt (hin : elf.SymbolInside strs syms j) (h : elf.Corrupt strs syms j) (reason : String) :
      Turn elf strs syms j n (.error (.die reason))
  | skip (hin : elf.SymbolInside strs syms j) (h : ¬ elf.Corrupt strs syms j) :
      Turn elf strs syms j n (symbolLoop elf strs syms (j + 1) n)
  | name (hin : elf.SymbolInside strs syms j) (h : ¬ elf.Corrupt strs syms j) {s : List UInt8}
      (hs : elf.Holds s) :
      Turn elf strs syms j n ((symbolLoop elf strs syms (j + 1) n).map fun names => s :: names)

theorem symbolLoop_turn (elf : Image) (strs syms j n : ℕ) :
    Turn elf strs syms j n (symbolLoop elf strs syms j (n + 1)) := by
  rw [symbolLoop]
  show Turn elf strs syms j n ((st_name elf (symAddr syms j)).bind _)
  by_cases hin : elf.base ≤ symAddr syms j ∧ symAddr syms j + 4 ≤ elf.limit
  case neg =>
    rw [st_name, Image.load, if_neg hin]
    exact .outside fun h => hin ⟨h.1, h.2.1⟩
  have hname : st_name elf (symAddr syms j) = .ok (elf.symName syms j) := if_pos hin
  rw [hname]
  dsimp only [Except.bind]
  by_cases hzero : elf.symName syms j = 0
  case pos =>
    rw [if_pos hzero]
    exact .skip ⟨hin.1, hin.2, fun h => absurd hzero h, fun h => absurd hzero h.1⟩
      fun h => h.1.1 hzero
  rw [if_neg hzero]
  by_cases hend : symAddr syms j + 8 ≤ elf.limit
  case neg =>
    have hload : st_shndx elf (ptr syms (sizeofSym * j)) = .error .outside := if_neg fun h =>
      hend (by rw [Nat.add_assoc] at h; exact h.2)
    rw [hload]
    exact .outside fun h => hend (h.2.2.1 hzero)
  have hindex : st_shndx elf (ptr syms (sizeofSym * j)) = .ok (elf.symIndex syms j) := by
    have hle : elf.base ≤ symAddr syms j + 6 ∧ symAddr syms j + 6 + 2 ≤ elf.limit := by omega
    have hsub : symAddr syms j + 6 - elf.base = symAddr syms j - elf.base + 6 := by omega
    rw [Image.symIndex, ← hsub]
    exact if_pos hle
  rw [hindex]
  dsimp only
  have hskip : ¬ elf.Defined syms j →
      Turn elf strs syms j n (symbolLoop elf strs syms (j + 1) n) := fun hnot =>
    .skip ⟨hin.1, hin.2, fun _ => hend, fun h => absurd h hnot⟩ fun h => hnot h.1
  by_cases hundef : elf.symIndex syms j = SHN_UNDEF
  case pos =>
    rw [if_pos hundef]
    exact hskip fun h => h.2.1 hundef
  rw [if_neg hundef]
  by_cases hcommon : elf.symIndex syms j = SHN_COMMON
  case pos =>
    rw [if_pos hcommon]
    exact hskip fun h => h.2.2 hcommon
  rw [if_neg hcommon, getElfString_eq]
  have hdefined : elf.Defined syms j := ⟨hzero, hundef, hcommon⟩
  by_cases hbelow : elf.Below strs (elf.symName syms j)
  case pos =>
    rw [if_pos hbelow]
    exact .outside fun h => h.2.2.2 hdefined hbelow
  have hinside : elf.SymbolInside strs syms j := ⟨hin.1, hin.2, fun _ => hend, fun _ => hbelow⟩
  rw [if_neg hbelow]
  dsimp only
  cases hstr : elf.string strs (elf.symName syms j) with
  | null => exact .corrupt hinside ⟨hdefined, hstr⟩ _
  | literal =>
    rw [Image.string, if_neg hzero] at hstr
    split at hstr
    case isTrue => cases hstr
    case isFalse => split at hstr <;> cases hstr
  | «at» addr =>
    obtain ⟨hle, hlt, hmem⟩ := string_at hstr hbelow
    have haddr : elf.base + (addr - elf.base) = addr := by omega
    have hlen : (elf.bytes.drop (addr - elf.base)).length = elf.limit - addr := by
      rw [List.length_drop, Image.limit, Image.mapsize]
      omega
    have hcstring := cstring_eq (rfl : elf.bytes.drop (addr - elf.base) = _) hmem
    rw [haddr, hlen] at hcstring
    dsimp only
    rw [hcstring]
    obtain ⟨rest, hrest⟩ := exists_takeWhile hmem
    refine .name hinside (fun h => ?_) ⟨addr - elf.base, rest, hrest⟩
    exact Str.noConfusion (hstr.symm.trans h.2)

/-- The symbols that are looked at are in the object. -/
def Image.SymbolsInside (elf : Image) (strs syms j n : ℕ) : Prop :=
  ∀ k, j ≤ k → k < j + n → (∀ k', j ≤ k' → k' < k → ¬ elf.Corrupt strs syms k') →
    elf.SymbolInside strs syms k

theorem Image.SymbolsInside.step (hin : elf.SymbolInside strs syms j)
    (hnot : ¬ elf.Corrupt strs syms j) : elf.SymbolsInside strs syms j (n + 1) ↔
      elf.SymbolsInside strs syms (j + 1) n := by
  constructor
  · intro h k hle hlt hbefore
    refine h k (by omega) (by omega) fun k' hle' hlt' => ?_
    rcases Nat.eq_or_lt_of_le hle' with rfl | hlt''
    · exact hnot
    · exact hbefore k' hlt'' hlt'
  · intro h k hle hlt hbefore
    rcases Nat.eq_or_lt_of_le hle with rfl | hlt'
    · exact hin
    · exact h k hlt' (by omega) fun k' hle' => hbefore k' (by omega)

theorem symbolLoop_inside (elf : Image) (strs syms j n : ℕ) :
    (symbolLoop elf strs syms j n ≠ .error .outside ↔ elf.SymbolsInside strs syms j n) ∧
      ∀ names, symbolLoop elf strs syms j n = .ok names → ∀ s ∈ names, elf.Holds s := by
  induction n generalizing j with
  | zero =>
    refine ⟨⟨fun _ k hle hlt => absurd hlt (by omega), fun _ => nofun⟩, ?_⟩
    rintro names ⟨⟩ s hs
    cases hs
  | succ n ih =>
    obtain ⟨hih, hnames⟩ := ih (j + 1)
    have hturn := symbolLoop_turn elf strs syms j n
    generalize symbolLoop elf strs syms j (n + 1) = r at hturn
    cases hturn with
    | outside hout =>
      refine ⟨⟨fun h => absurd rfl h, fun h => absurd (h j le_rfl (by omega) ?_) hout⟩, nofun⟩
      intro k' hle hlt
      omega
    | corrupt hin hcorrupt reason =>
      refine ⟨⟨fun _ k hle hlt hbefore => ?_, fun _ => nofun⟩, nofun⟩
      rcases Nat.eq_or_lt_of_le hle with rfl | hlt'
      · exact hin
      · exact absurd hcorrupt (hbefore j le_rfl hlt')
    | skip hin hnot => exact ⟨hih.trans (Image.SymbolsInside.step hin hnot).symm, hnames⟩
    | @name hin hnot s hs =>
      rw [Image.SymbolsInside.step hin hnot, ← hih]
      cases hrest : symbolLoop elf strs syms (j + 1) n with
      | error e =>
        refine ⟨⟨fun h he => h ?_, fun h he => h ?_⟩, nofun⟩
        · cases he
          rfl
        · cases he
          rfl
      | ok names =>
        refine ⟨⟨fun _ => nofun, fun _ => nofun⟩, ?_⟩
        rintro all ⟨⟩ t ht
        rcases List.mem_cons.mp ht with rfl | ht
        · exact hs
        · exact hnames names hrest t ht

/-! ### The object -/

/-- The symbols that `ar` looks at when `.strtab` is at `strs` are in the object. -/
def Image.AllSymbols (elf : Image) (strs : ℕ) : Prop :=
  ∀ sec, elf.symtab SHT_SYMTAB (elf.field 60 2) = some sec → elf.contents sec ≠ 0 →
    elf.SymbolsInside strs (elf.contents sec) (elf.field (sec + 44) 4)
      (elf.field (sec + 32) 8 / sizeofSym - elf.field (sec + 44) 4)

/-- What `ar` looks at of an object is in it: the section headers up to the one of `.strtab` as far
as they are read, with their names, then every section header to its end, and each symbol up to
the first whose name is corrupted. -/
structure Image.Contained (elf : Image) : Prop where
  looked : ∀ k, elf.Inside strtabName 0 k
  found : ∀ k off, elf.shdr k = some off → elf.Table strtabName off → elf.Before strtabName 0 k →
    off + 40 ≤ elf.mapsize
  headers : ∀ k off, elf.shdr k = some off → elf.Table strtabName off →
    elf.Before strtabName 0 k → elf.contents off ≠ 0 → elf.Headers
  symbols : ∀ k off, elf.shdr k = some off → elf.Table strtabName off →
    elf.Before strtabName 0 k → elf.contents off ≠ 0 → elf.AllSymbols (elf.contents off)

theorem isElfBinary_ok (elf : Image) :
    ∃ b, isElfBinary elf = .ok b ∧ (b = true → sizeofHdr ≤ elf.mapsize) := by
  rw [isElfBinary]
  by_cases hsize : elf.mapsize < sizeofHdr
  · exact ⟨false, if_pos hsize, nofun⟩
  have h64 : ¬ elf.mapsize < 64 := hsize
  have hident : elf.load (elf.base + 0) 4 = .ok (elf.field 0 4) := load_inside (by omega)
  rw [Nat.add_zero] at hident
  have hclass : elf.load (elf.base + 4) 1 = .ok (elf.field 4 1) := load_inside (by omega)
  rw [if_neg hsize, hident, hclass]
  dsimp only [Except.bind, Except.map]
  by_cases hmagic : elf.field 0 4 = 0x464c457f
  · rw [if_neg (not_not_intro hmagic)]
    exact ⟨_, rfl, fun _ => Nat.le_of_not_lt hsize⟩
  · rw [if_pos hmagic]
    exact ⟨false, rfl, nofun⟩

theorem symtab_shdr {type n sec : ℕ} (h : elf.symtab type n = some sec) :
    ∃ k, elf.shdr k = some sec := by
  induction n with
  | zero => cases h
  | succ i ih =>
    rw [Image.symtab] at h
    cases hshdr : elf.shdr i with
    | none =>
      rw [hshdr] at h
      exact ih h
    | some off =>
      rw [hshdr] at h
      dsimp only at h
      split at h
      case isTrue =>
        cases h
        exact ⟨i, hshdr⟩
      case isFalse => exact ih h

/-- The part of `symbols` behind the search for `.strtab`. -/
def symbolsWith (elf : Image) (strs : ℕ) : Except Stop (List (List UInt8)) :=
  (getElfSymbolTable elf SHT_SYMTAB).bind fun symsec =>
    (getElfSectionAddress elf symsec).bind fun syms =>
      if syms = 0 then .error (.die "elf symbol table not found")
      else (sh_size elf symsec).bind fun size => (sh_info elf symsec).bind fun info =>
        symbolLoop elf strs syms info (size / sizeofSym - info)

theorem symbolsWith_outside (h : elf.Mapped) (hsize : sizeofHdr ≤ elf.mapsize)
    (hout : ¬ elf.Headers) (strs : ℕ) : symbolsWith elf strs = .error .outside := by
  have h64 : 64 ≤ elf.mapsize := hsize
  have hshnum : e_shnum elf = .ok (elf.field 60 2) := load_inside (by omega)
  rw [symbolsWith, getElfSymbolTable, hshnum]
  dsimp only [Except.bind]
  rw [symbolTableLoop_outside h hsize hout]

theorem symbolsWith_inside (h : elf.Mapped) (hsize : sizeofHdr ≤ elf.mapsize) (hin : elf.Headers)
    (strs : ℕ) : (symbolsWith elf strs ≠ .error .outside ↔ elf.AllSymbols strs) ∧
      ∀ names, symbolsWith elf strs = .ok names → ∀ s ∈ names, elf.Holds s := by
  have h64 : 64 ≤ elf.mapsize := hsize
  have hshnum : e_shnum elf = .ok (elf.field 60 2) := load_inside (by omega)
  rw [symbolsWith, getElfSymbolTable, hshnum, Image.AllSymbols]
  dsimp only [Except.bind]
  rw [symbolTableLoop_eq h hsize hin]
  dsimp only
  cases hsec : elf.symtab SHT_SYMTAB (elf.field 60 2) with
  | none => exact ⟨⟨fun _ _ h => (by cases h), fun _ h => (by cases h)⟩, fun _ h => by cases h⟩
  | some sec =>
    obtain ⟨k, hshdr⟩ := symtab_shdr hsec
    have hend : sec + 64 ≤ elf.mapsize := hin k sec hshdr
    have hptr : elf.pointer (some sec) = elf.base + sec := rfl
    rw [hptr, sectionAddress_eq h, if_pos (by omega), sh_size, sh_info, Nat.add_assoc,
      Nat.add_assoc, load_inside (by omega), load_inside (by omega)]
    dsimp only
    by_cases hzero : elf.contents sec = 0
    · rw [if_pos hzero]
      refine ⟨⟨?_, fun _ h => (by cases h)⟩, fun _ h => by cases h⟩
      rintro - sec' ⟨⟩ hne
      exact absurd hzero hne
    · rw [if_neg hzero]
      obtain ⟨hloop, hnames⟩ := symbolLoop_inside elf strs (elf.contents sec)
        (elf.field (sec + 44) 4) (elf.field (sec + 32) 8 / sizeofSym - elf.field (sec + 44) 4)
      refine ⟨hloop.trans ⟨?_, fun hall => hall sec rfl hzero⟩, hnames⟩
      rintro hsyms sec' ⟨⟩ -
      exact hsyms

/-- An object that is only a header, with the section headers from `shoff` on. -/
def onlyHeader (shoff shnum : UInt8) : Image where
  base := 0x10000
  bytes := [0x7f, 0x45, 0x4c, 0x46, 2] ++ List.replicate 35 0 ++ [shoff, 0, 0, 0, 0, 0, 0, 0] ++
    List.replicate 10 0 ++ [64, 0, shnum, 0, 0, 0]

end Bootsh.Ar
