import Bootsh.Lib.Bytes
import Bootsh.Lib.Fallible

/-!
How `ar.c` reads the symbols of an object: the helpers for ELF files and the loop of `ar_main`
over the symbols, with the types of 64-bit ELF on a little-endian machine. A pointer is its
address, and every read is one of the mapped object.
-/
namespace Bootsh.Ar

open Bytes (Order)

inductive Stop
  /-- A read outside of the mapped object. -/
  | outside
  | die (reason : String)
  deriving DecidableEq, Repr

/-- The object as it is mapped. -/
structure Image where
  base : ℕ
  bytes : List UInt8

namespace Image

variable (elf : Image)

def mapsize : ℕ := elf.bytes.length

/-- `elf + mapsize` -/
def limit : ℕ := elf.base + elf.mapsize

def load (addr width : ℕ) : Except Stop ℕ :=
  if elf.base ≤ addr ∧ addr + width ≤ elf.limit then
    .ok (Order.little.decode ((elf.bytes.drop (addr - elf.base)).take width))
  else .error .outside

end Image

/-- A pointer with something added to it. -/
def ptr (addr offset : ℕ) : ℕ := (addr + offset) % 2 ^ 64

def SHN_UNDEF : ℕ := 0
def SHN_LORESERVE : ℕ := 0xff00
def SHN_COMMON : ℕ := 0xfff2
def SHT_SYMTAB : ℕ := 2
def SHT_STRTAB : ℕ := 3
def SHT_NOBITS : ℕ := 8

/-- `sizeof(ElfW(Ehdr))` and `sizeof(ElfW(Shdr))` -/
def sizeofHdr : ℕ := 64

/-- `sizeof(ElfW(Sym))` -/
def sizeofSym : ℕ := 24

section Fields

variable (elf : Image)

def e_shoff : Except Stop ℕ := elf.load (elf.base + 40) 8
def e_shentsize : Except Stop ℕ := elf.load (elf.base + 58) 2
def e_shnum : Except Stop ℕ := elf.load (elf.base + 60) 2
def e_shstrndx : Except Stop ℕ := elf.load (elf.base + 62) 2

def sh_name (shdr : ℕ) : Except Stop ℕ := elf.load shdr 4
def sh_type (shdr : ℕ) : Except Stop ℕ := elf.load (shdr + 4) 4
def sh_offset (shdr : ℕ) : Except Stop ℕ := elf.load (shdr + 24) 8
def sh_size (shdr : ℕ) : Except Stop ℕ := elf.load (shdr + 32) 8
def sh_info (shdr : ℕ) : Except Stop ℕ := elf.load (shdr + 44) 4
def sh_entsize (shdr : ℕ) : Except Stop ℕ := elf.load (shdr + 56) 8

def st_name (sym : ℕ) : Except Stop ℕ := elf.load sym 4
def st_shndx (sym : ℕ) : Except Stop ℕ := elf.load (sym + 6) 2

end Fields

section Helpers

variable (elf : Image)

/-- The bytes of `ELFMAG`, `ELFCLASS32` and `ELFCLASS64`. -/
def isElfBinary : Except Stop Bool :=
  if elf.mapsize < sizeofHdr then .ok false
  else (elf.load elf.base 4).bind fun ident =>
    if ident ≠ 0x464c457f then .ok false
    else (elf.load (elf.base + 4) 1).map fun c => c == 1 || c == 2

def getElfSectionAddress (shdr : ℕ) : Except Stop ℕ :=
  if shdr = 0 then .ok 0
  else (sh_size elf shdr).bind fun size =>
    if size = 0 then .ok elf.base
    else (sh_type elf shdr).bind fun type =>
      if type = SHT_NOBITS then .ok 0
      -- where the content ends is not looked at
      else (sh_offset elf shdr).map fun offset => ptr elf.base offset

def getElfSectionHeaderAddress (i : ℕ) : Except Stop ℕ :=
  if SHN_LORESERVE ≤ i then .ok 0
  else (e_shnum elf).bind fun shnum =>
    if shnum ≤ i then .ok 0
    else (e_shoff elf).bind fun shoff =>
      if shoff = 0 then .ok 0
      else if elf.mapsize ≤ shoff then .ok 0
      else (e_shentsize elf).map fun shentsize =>
        if shentsize < sizeofHdr then 0
        else
          let off := (shoff + i * shentsize % 2 ^ 32) % 2 ^ 64
          -- where the header starts, not where it ends
          if elf.mapsize < off then 0 else ptr elf.base off

/-- `memchr(addr, 0, n)`, as to whether there is a NUL. -/
def memchr (addr : ℕ) : ℕ → Except Stop Bool
  | 0 => .ok false
  | n + 1 => (elf.load addr 1).bind fun c => if c = 0 then .ok true else memchr (addr + 1) n

/-- What `GetElfString` returns: null, the literal `""`, or a pointer into the object. -/
inductive Str
  | null
  | literal
  | at (addr : ℕ)
  deriving DecidableEq, Repr

def getElfString (strtab i : ℕ) : Except Stop Str :=
  if i = 0 then .ok .literal
  else if strtab = 0 then .ok .null
  else if elf.mapsize ≤ i then .ok .null
  else if elf.limit ≤ ptr strtab i then .ok .null
  else (memchr elf (ptr strtab i) (elf.limit - ptr strtab i)).map fun found =>
    if found then .at (ptr strtab i) else .null

def getElfSectionNameStringTable : Except Stop ℕ :=
  (e_shstrndx elf).bind fun i =>
    (getElfSectionHeaderAddress elf i).bind fun shdr => getElfSectionAddress elf shdr

def getElfSectionName (shdr : ℕ) : Except Stop Str :=
  if shdr = 0 then .ok .null
  else (getElfSectionNameStringTable elf).bind fun strtab =>
    (sh_name elf shdr).bind fun i => getElfString elf strtab i

/-- Whether `strcmp` with the given string is 0. -/
def strcmp (addr : ℕ) : List UInt8 → Except Stop Bool
  | [] => (elf.load addr 1).map fun c => c == 0
  | b :: s => (elf.load addr 1).bind fun c =>
    if c = b.toNat then strcmp (addr + 1) s else .ok false

/-- Whether there is a name and it is the given one. -/
def isNamed (name : List UInt8) : Str → Except Stop Bool
  | .null => .ok false
  | .literal => .ok (name == [])
  | .at addr => strcmp elf addr name

/-- The loop of `GetElfStringTable` from `i` on. -/
def stringTableLoop (name : List UInt8) (i : ℕ) : ℕ → Except Stop ℕ
  | 0 => .ok 0
  | n + 1 =>
    (getElfSectionHeaderAddress elf i).bind fun shdr =>
      if shdr = 0 then stringTableLoop name (i + 1) n
      else (sh_type elf shdr).bind fun type =>
        if type ≠ SHT_STRTAB then stringTableLoop name (i + 1) n
        else (getElfSectionName elf shdr).bind fun str =>
          (isNamed elf name str).bind fun named =>
            if named then getElfSectionAddress elf shdr else stringTableLoop name (i + 1) n

def getElfStringTable (name : List UInt8) : Except Stop ℕ :=
  (e_shnum elf).bind fun shnum => stringTableLoop elf name 0 shnum

/-- The loop of `GetElfSymbolTable` from `i - 1` down, for a type of section. -/
def symbolTableLoop (type : ℕ) : ℕ → Except Stop ℕ
  | 0 => .ok 0
  | i + 1 =>
    (getElfSectionHeaderAddress elf i).bind fun shdr =>
      if shdr = 0 then symbolTableLoop type i
      else (sh_entsize elf shdr).bind fun entsize =>
        if entsize ≠ sizeofSym then symbolTableLoop type i
        else (sh_type elf shdr).bind fun t =>
          if t = type then .ok shdr else symbolTableLoop type i

def getElfSymbolTable (type : ℕ) : Except Stop ℕ :=
  (e_shnum elf).bind fun shnum => symbolTableLoop elf type shnum

end Helpers

section Symbols

variable (elf : Image)

/-- The bytes before the NUL. -/
def cstring (addr : ℕ) : ℕ → Except Stop (List UInt8)
  | 0 => .error .outside
  | n + 1 => (elf.load addr 1).bind fun c =>
    if c = 0 then .ok [] else (cstring (addr + 1) n).map fun s => UInt8.ofNat c :: s

/-- The loop over the symbols from the `j`-th on: the names that are appended. -/
def symbolLoop (strs syms j : ℕ) : ℕ → Except Stop (List (List UInt8))
  | 0 => .ok []
  | n + 1 =>
    let sym := ptr syms (sizeofSym * j)
    (st_name elf sym).bind fun name =>
      if name = 0 then symbolLoop strs syms (j + 1) n
      else (st_shndx elf sym).bind fun shndx =>
        if shndx = SHN_UNDEF then symbolLoop strs syms (j + 1) n
        else if shndx = SHN_COMMON then symbolLoop strs syms (j + 1) n
        else (getElfString elf strs name).bind fun
          | .null => .error (.die "elf symbol name corrupted")
          | .literal => (symbolLoop strs syms (j + 1) n).map fun names => [] :: names
          | .at addr => (cstring elf addr (elf.limit - addr)).bind fun s =>
            (symbolLoop strs syms (j + 1) n).map fun names => s :: names

/-- `.strtab` -/
def strtabName : List UInt8 := [46, 115, 116, 114, 116, 97, 98]

/-- What `ar_main` does with an object, up to `munmap`. -/
def symbols : Except Stop (List (List UInt8)) :=
  (isElfBinary elf).bind fun ok =>
    if !ok then .error (.die "not an elf binary")
    else (getElfStringTable elf strtabName).bind fun strs =>
      if strs = 0 then .error (.die "elf .strtab not found")
      else (getElfSymbolTable elf SHT_SYMTAB).bind fun symsec =>
        (getElfSectionAddress elf symsec).bind fun syms =>
          if syms = 0 then .error (.die "elf symbol table not found")
          else (sh_size elf symsec).bind fun size => (sh_info elf symsec).bind fun info =>
            symbolLoop elf strs syms info (size / sizeofSym - info)

end Symbols

end Bootsh.Ar
