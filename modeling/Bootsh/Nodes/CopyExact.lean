import Bootsh.Nodes.Copy
import Mathlib.Tactic.Linarith

/-!
What `copyfunc` copies, and when it fits into the block that was asked for: as long as the sizes
are the `int`s they are counted in.
-/
namespace Bootsh.Nodes

open Tile

/-! ### The parts of a tree -/

mutual

/-- Where the nodes and the list cells of a tree are, in the order `copynode` meets them. -/
def Node.spans : Node → List Span
  | .null => []
  | .mk addr t fs => ⟨addr, nodesize t⟩ :: fs.spans

def Fields.spans {ts : List (String × FieldType)} : Fields ts → List Span
  | .nil => []
  | .cons f fs => fs.spans ++ f.spans

def Field.spans {t : FieldType} : Field t → List Span
  | .nodeptr n => n.spans
  | .nodelist lp => lp.spans
  | .string _ _ => []
  | .int _ => []
  | .other _ => []
  | .temp _ => []

def Nodelist.spans : Nodelist → List Span
  | .nil => []
  | .cons addr n next => ⟨addr, nodelistsize⟩ :: (n.spans ++ next.spans)

end

mutual

/-- Where the strings of a tree are, with their NULs. -/
def Node.texts : Node → List Span
  | .null => []
  | .mk _ _ fs => fs.texts

def Fields.texts {ts : List (String × FieldType)} : Fields ts → List Span
  | .nil => []
  | .cons f fs => fs.texts ++ f.texts

def Field.texts {t : FieldType} : Field t → List Span
  | .nodeptr n => n.texts
  | .nodelist lp => lp.texts
  | .string addr s => [⟨addr, s.length + 1⟩]
  | .int _ => []
  | .other _ => []
  | .temp _ => []

def Nodelist.texts : Nodelist → List Span
  | .nil => []
  | .cons _ n next => n.texts ++ next.texts

end

mutual

/-- A tree without its addresses and without what its `temp` fields hold. -/
def Node.bare : Node → Node
  | .null => .null
  | .mk _ t fs => .mk 0 t fs.bare

def Fields.bare {ts : List (String × FieldType)} : Fields ts → Fields ts
  | .nil => .nil
  | .cons f fs => .cons f.bare fs.bare

def Field.bare {t : FieldType} : Field t → Field t
  | .nodeptr n => .nodeptr n.bare
  | .nodelist lp => .nodelist lp.bare
  | .string _ s => .string 0 s
  | .int v => .int v
  | .other v => .other v
  | .temp _ => .temp none

def Nodelist.bare : Nodelist → Nodelist
  | .nil => .nil
  | .cons _ n next => .cons 0 n.bare next.bare

end

def bytes (spans : List Span) : ℕ := (spans.map Span.len).sum

@[simp] theorem bytes_nil : bytes [] = 0 := rfl

@[simp] theorem bytes_cons {s : Span} {spans : List Span} :
    bytes (s :: spans) = s.len + bytes spans := by simp [bytes]

@[simp] theorem bytes_append {spans more : List Span} :
    bytes (spans ++ more) = bytes spans + bytes more := by simp [bytes]

/-! ### The sizes -/

namespace Sizes

variable (z : Sizes) (m n : ℕ)

@[simp] theorem block_zero : z.block 0 = z := by simp [block]

@[simp] theorem string_zero : z.string 0 = z := by simp [string]

theorem block_block : (z.block m).block n = z.block (m + n) := by
  simp [block, BitVec.ofNat_add, BitVec.add_assoc]

theorem string_string : (z.string m).string n = z.string (m + n) := by
  simp [string, BitVec.ofNat_add, BitVec.add_assoc]

theorem string_block : (z.string m).block n = (z.block n).string m := rfl

end Sizes

/-- The sizes grown by the bytes of the given spans and strings. -/
def Sizes.grow (z : Sizes) (spans texts : List Span) : Sizes :=
  (z.block (bytes spans)).string (bytes texts)

@[simp] theorem grow_nil (z : Sizes) : z.grow [] [] = z := by simp [Sizes.grow]

theorem grow_grow (z : Sizes) (spans texts spans' texts' : List Span) :
    (z.grow spans texts).grow spans' texts' = z.grow (spans ++ spans') (texts ++ texts') := by
  simp only [Sizes.grow, Sizes.string_block, Sizes.block_block, Sizes.string_string, bytes_append]

theorem block_grow (z : Sizes) (s : Span) (spans texts : List Span) :
    (z.block s.len).grow spans texts = z.grow (s :: spans) texts := by
  simp only [Sizes.grow, Sizes.block_block, bytes_cons]

mutual

theorem calcsize_eq (n : Node) (z : Sizes) : calcsize n z = z.grow n.spans n.texts := by
  cases n with
  | null => simp [calcsize, Node.spans, Node.texts]
  | mk addr t fs =>
    rw [calcsize, calcsizeFields_eq fs, Node.spans, Node.texts, ← block_grow]

theorem calcsizeFields_eq {ts : List (String × FieldType)} (fs : Fields ts) (z : Sizes) :
    calcsizeFields fs z = z.grow fs.spans fs.texts := by
  cases fs with
  | nil => simp [calcsizeFields, Fields.spans, Fields.texts]
  | cons f fs =>
    rw [calcsizeFields, calcsizeField_eq f, calcsizeFields_eq fs, grow_grow, Fields.spans,
      Fields.texts]

theorem calcsizeField_eq {t : FieldType} (f : Field t) (z : Sizes) :
    calcsizeField f z = z.grow f.spans f.texts := by
  cases f with
  | nodeptr n => rw [calcsizeField, calcsize_eq n, Field.spans, Field.texts]
  | nodelist lp => rw [calcsizeField, sizenodelist_eq lp, Field.spans, Field.texts]
  | string addr s => simp [calcsizeField, Field.spans, Field.texts, Sizes.grow]
  | int v => simp [calcsizeField, Field.spans, Field.texts]
  | other v => simp [calcsizeField, Field.spans, Field.texts]
  | temp v => simp [calcsizeField, Field.spans, Field.texts]

theorem sizenodelist_eq (lp : Nodelist) (z : Sizes) :
    sizenodelist lp z = z.grow lp.spans lp.texts := by
  cases lp with
  | nil => simp [sizenodelist, Nodelist.spans, Nodelist.texts]
  | cons addr n next =>
    rw [sizenodelist, sizenodelist_eq next, calcsize_eq n, grow_grow, Nodelist.spans,
      Nodelist.texts, ← block_grow]

end

/-! ### The copy -/

mutual

theorem copynode_bare (n : Node) (k : Cursor) : (copynode n k).1.bare = n.bare := by
  cases n with
  | null => rfl
  | mk addr t fs =>
    simp only [copynode, Node.bare]
    rw [copyFields_bare fs]

theorem copyFields_bare {ts : List (String × FieldType)} (fs : Fields ts) (k : Cursor) :
    (copyFields fs k).1.bare = fs.bare := by
  cases fs with
  | nil => rfl
  | cons f fs =>
    simp only [copyFields, Fields.bare]
    rw [copyField_bare f, copyFields_bare fs]

theorem copyField_bare {t : FieldType} (f : Field t) (k : Cursor) :
    (copyField f k).1.bare = f.bare := by
  cases f with
  | nodeptr n =>
    simp only [copyField, Field.bare]
    rw [copynode_bare n]
  | nodelist lp =>
    simp only [copyField, Field.bare]
    rw [copynodelist_bare lp]
  | string addr s => rfl
  | int v => rfl
  | other v => rfl
  | temp v => rfl

theorem copynodelist_bare (lp : Nodelist) (k : Cursor) :
    (copynodelist lp k).1.bare = lp.bare := by
  cases lp with
  | nil => rfl
  | cons addr n next =>
    simp only [copynodelist, Nodelist.bare]
    rw [copynode_bare n, copynodelist_bare next]

end

/-- The copy of parts with the given spans and strings: what the copy takes stands in the same
order from the two pointers on, and the pointers come to stand behind it. -/
structure Takes (spans texts spans' texts' : List Span) (k k' : Cursor) : Prop where
  placed : spans' = tile k.funcblock (spans.map Span.len)
  saved : texts' = tile k.funcstring (texts.map Span.len)
  block : k'.funcblock = k.funcblock + bytes spans
  string : k'.funcstring = k.funcstring + bytes texts

namespace Takes

variable {spans texts spans' texts' more words more' words' : List Span} {k k' k'' : Cursor}

theorem none (k : Cursor) : Takes [] [] [] [] k k := ⟨rfl, rfl, rfl, rfl⟩

theorem trans (h : Takes spans texts spans' texts' k k')
    (h' : Takes more words more' words' k' k'') :
    Takes (spans ++ more) (texts ++ words) (spans' ++ more') (texts' ++ words') k k'' := by
  refine ⟨?_, ?_, ?_, ?_⟩
  · rw [List.map_append, tile_append, h.placed, h'.placed, h.block]
    rfl
  · rw [List.map_append, tile_append, h.saved, h'.saved, h.string]
    rfl
  · rw [h'.block, h.block, bytes_append, Nat.add_assoc]
  · rw [h'.string, h.string, bytes_append, Nat.add_assoc]

theorem cons (addr n : ℕ) (h : Takes spans texts spans' texts' (k.block n) k') :
    Takes (⟨addr, n⟩ :: spans) texts (⟨k.funcblock, n⟩ :: spans') texts' k k' := by
  refine ⟨?_, h.saved, ?_, h.string⟩
  · rw [h.placed]
    rfl
  · rw [h.block, bytes_cons, ← Nat.add_assoc]
    rfl

end Takes

mutual

theorem copynode_takes (n : Node) (k : Cursor) :
    Takes n.spans n.texts (copynode n k).1.spans (copynode n k).1.texts k (copynode n k).2 := by
  cases n with
  | null => exact Takes.none k
  | mk addr t fs => exact (copyFields_takes fs (k.block (nodesize t))).cons addr (nodesize t)

theorem copyFields_takes {ts : List (String × FieldType)} (fs : Fields ts) (k : Cursor) :
    Takes fs.spans fs.texts (copyFields fs k).1.spans (copyFields fs k).1.texts k
      (copyFields fs k).2 := by
  cases fs with
  | nil => exact Takes.none k
  | cons f fs => exact (copyFields_takes fs k).trans (copyField_takes f (copyFields fs k).2)

theorem copyField_takes {t : FieldType} (f : Field t) (k : Cursor) :
    Takes f.spans f.texts (copyField f k).1.spans (copyField f k).1.texts k
      (copyField f k).2 := by
  cases f with
  | nodeptr n => exact copynode_takes n k
  | nodelist lp => exact copynodelist_takes lp k
  | string addr s => exact ⟨rfl, rfl, rfl, rfl⟩
  | int v => exact Takes.none k
  | other v => exact Takes.none k
  | temp v => exact Takes.none k

theorem copynodelist_takes (lp : Nodelist) (k : Cursor) :
    Takes lp.spans lp.texts (copynodelist lp k).1.spans (copynodelist lp k).1.texts k
      (copynodelist lp k).2 := by
  cases lp with
  | nil => exact Takes.none k
  | cons addr n next =>
    have hn := copynode_takes n (k.block nodelistsize)
    have hnext := copynodelist_takes next (copynode n (k.block nodelistsize)).2
    exact (hn.trans hnext).cons addr nodelistsize

end

/-! ### The block -/

/-- The bytes the nodes and list cells of a tree take, each rounded up to the alignment. -/
def Node.nodebytes (n : Node) : ℕ := bytes n.spans

/-- The bytes the strings of a tree take, with their NULs. -/
def Node.strbytes (n : Node) : ℕ := bytes n.texts

namespace Funcnode

variable (f : Funcnode)

def block : Span := ⟨f.addr, f.sizes.total.toNat⟩

/-- Behind the count, up to where the strings begin. -/
def nodeRegion : Span := ⟨f.addr + funcnodeOffset, f.sizes.blocksize.toNat - funcnodeOffset⟩

def stringRegion : Span :=
  ⟨f.addr + f.sizes.blocksize.toNat, f.sizes.total.toNat - f.sizes.blocksize.toNat⟩

end Funcnode

/-- The copy has the form of the original, and its parts stand in their regions of the block, apart
from each other and from those of the original. -/
structure Exact (n : Node) (f : Funcnode) : Prop where
  same : f.n.bare = n.bare
  nodes : ∀ s ∈ f.n.spans, s.Within f.nodeRegion
  strings : ∀ s ∈ f.n.texts, s.Within f.stringRegion
  regions : f.nodeRegion.Disjoint f.stringRegion
  inside : f.nodeRegion.Within f.block ∧ f.stringRegion.Within f.block
  apart : (f.n.spans ++ f.n.texts).Pairwise Span.Disjoint
  unshared : ∀ s ∈ f.n.spans ++ f.n.texts, ∀ t ∈ n.spans ++ n.texts, s.Disjoint t

/-- The sizes found are the bytes the copy consumes, and every copy made in a block the original
has no part in is exact. -/
structure CopiedExactly (n : Node) : Prop where
  block : ∀ k, ((copynode n k).2.funcblock : ℤ) =
    k.funcblock + ((funcsizes n).funcblocksize.toInt - funcnodeOffset)
  string : ∀ k, ((copynode n k).2.funcstring : ℤ) =
    k.funcstring + (funcsizes n).funcstringsize.toInt
  copy : ∀ ckmalloc f, copyfunc ckmalloc n = some f →
    (∀ t ∈ n.spans ++ n.texts, t.Disjoint f.block) → Exact n f

theorem funcsizes_eq (n : Node) : funcsizes n =
    ⟨BitVec.ofNat 32 (funcnodeOffset + n.nodebytes), BitVec.ofNat 32 n.strbytes⟩ := by
  rw [funcsizes, calcsize_eq]
  simp [Sizes.grow, Sizes.block, Sizes.string, Node.nodebytes, Node.strbytes, BitVec.ofNat_add]

/-- An `int` holds a count exactly when it is below 2^31. -/
theorem toInt_ofNat_iff (n : ℕ) : (BitVec.ofNat 32 n).toInt = n ↔ n < 2 ^ 31 := by
  rw [BitVec.toInt_ofNat']
  constructor
  · intro h
    have hlt : (n : ℤ).bmod (2 ^ 32) < (2 ^ 32 + 1) / 2 := Int.bmod_lt (by decide)
    rw [h] at hlt
    omega
  · intro h
    exact Int.bmod_eq_of_le (by omega) (by omega)

theorem signExtend_ofNat {n : ℕ} (h : n < 2 ^ 31) :
    (BitVec.ofNat 32 n).signExtend 64 = BitVec.ofNat 64 n := by
  apply BitVec.eq_of_toInt_eq
  rw [BitVec.toInt_signExtend_of_le (by decide), (toInt_ofNat_iff n).mpr h, BitVec.toInt_ofNat']
  exact (Int.bmod_eq_of_le (by omega) (by omega)).symm

/-- Within the range of `int` the sizes are what the tree takes. -/
structure Fits (n : Node) : Prop where
  block : funcnodeOffset + n.nodebytes < 2 ^ 31
  string : n.strbytes < 2 ^ 31

namespace Fits

variable {n : Node} (h : Fits n)
include h

theorem blocksize : (funcsizes n).blocksize.toNat = funcnodeOffset + n.nodebytes := by
  have hblock := h.block
  rw [Sizes.blocksize, funcsizes_eq, signExtend_ofNat hblock, BitVec.toNat_ofNat]
  exact Nat.mod_eq_of_lt (by omega)

theorem total : (funcsizes n).total.toNat = funcnodeOffset + n.nodebytes + n.strbytes := by
  have hblock := h.block
  have hstring := h.string
  have hsize := h.blocksize
  rw [Sizes.total, BitVec.toNat_add, hsize, funcsizes_eq, signExtend_ofNat hstring,
    BitVec.toNat_ofNat]
  omega

theorem exact {ckmalloc : BitVec 64 → Option ℕ} {f : Funcnode} (hf : copyfunc ckmalloc n = some f)
    (hfree : ∀ t ∈ n.spans ++ n.texts, t.Disjoint f.block) : Exact n f := by
  unfold copyfunc at hf
  rw [Option.map_eq_some_iff] at hf
  obtain ⟨addr, -, hf⟩ := hf
  rw [h.blocksize] at hf
  have htakes := copynode_takes n
    ⟨addr + funcnodeOffset, addr + (funcnodeOffset + n.nodebytes)⟩
  have hcopy : f.n = (copynode n
      ⟨addr + funcnodeOffset, addr + (funcnodeOffset + n.nodebytes)⟩).1 := by rw [← hf]
  rw [← hcopy] at htakes
  -- the three spans of the block, as numbers
  have hblock : f.block = ⟨addr, funcnodeOffset + n.nodebytes + n.strbytes⟩ := by
    rw [← hf, Funcnode.block, h.total]
  have hregion : f.nodeRegion = ⟨addr + funcnodeOffset, n.nodebytes⟩ := by
    rw [← hf, Funcnode.nodeRegion, h.blocksize, Nat.add_sub_cancel_left]
  have hstrings : f.stringRegion = ⟨addr + (funcnodeOffset + n.nodebytes), n.strbytes⟩ := by
    rw [← hf, Funcnode.stringRegion, h.blocksize, h.total, Nat.add_sub_cancel_left]
  have hnode : ∀ s ∈ f.n.spans, s.Within f.nodeRegion := by
    intro s hs
    rw [htakes.placed] at hs
    rw [hregion]
    exact tile_within hs
  have hstring : ∀ s ∈ f.n.texts, s.Within f.stringRegion := by
    intro s hs
    rw [htakes.saved] at hs
    rw [hstrings]
    exact tile_within hs
  have hregions : f.nodeRegion.Disjoint f.stringRegion := by
    rw [hregion, hstrings]
    exact Or.inl (Nat.le_of_eq (Nat.add_assoc _ _ _))
  have hinside : f.nodeRegion.Within f.block ∧ f.stringRegion.Within f.block := by
    rw [hregion, hstrings, hblock]
    unfold Span.Within Span.stop
    dsimp only
    omega
  refine ⟨?_, hnode, hstring, hregions, hinside, ?_, ?_⟩
  · rw [hcopy]
    exact copynode_bare n _
  · rw [List.pairwise_append]
    refine ⟨?_, ?_, ?_⟩
    · rw [htakes.placed]
      exact tile_pairwise
    · rw [htakes.saved]
      exact tile_pairwise
    · intro s hs t ht
      exact hregions.mono (hnode s hs) (hstring t ht)
  · intro s hs t ht
    have hs : s.Within f.block := by
      rcases List.mem_append.mp hs with hs | hs
      · exact (hnode s hs).trans hinside.1
      · exact (hstring s hs).trans hinside.2
    exact ((hfree t ht).mono ⟨Nat.le_refl _, Nat.le_refl _⟩ hs).symm

end Fits

/-- A function is copied exactly into the space reserved for it if and only if the count and the
nodes together, and the strings, each take less than 2^31 bytes. -/
theorem copied_exactly_iff (n : Node) :
    CopiedExactly n ↔ funcnodeOffset + n.nodebytes < 2 ^ 31 ∧ n.strbytes < 2 ^ 31 := by
  constructor
  · intro h
    have hblock := h.block ⟨0, 0⟩
    have hstring := h.string ⟨0, 0⟩
    rw [(copynode_takes n ⟨0, 0⟩).block, funcsizes_eq] at hblock
    rw [(copynode_takes n ⟨0, 0⟩).string, funcsizes_eq] at hstring
    refine ⟨(toInt_ofNat_iff _).mp ?_, (toInt_ofNat_iff _).mp ?_⟩
    · unfold Node.nodebytes at hblock ⊢
      push_cast at hblock ⊢
      linarith
    · unfold Node.strbytes at hstring ⊢
      push_cast at hstring ⊢
      linarith
  · rintro ⟨hblock, hstring⟩
    refine ⟨?_, ?_, ?_⟩
    · intro k
      rw [(copynode_takes n k).block, funcsizes_eq, (toInt_ofNat_iff _).mpr hblock, Node.nodebytes]
      push_cast
      omega
    · intro k
      rw [(copynode_takes n k).string, funcsizes_eq, (toInt_ofNat_iff _).mpr hstring,
        Node.strbytes, Nat.cast_add]
    · intro ckmalloc f hf hfree
      exact Fits.exact ⟨hblock, hstring⟩ hf hfree

/-- `f() { word; }`, the word of the given characters. -/
def wordFunction (word : Text) : Node :=
  .mk 0 .ndefun (.cons (.int 1) (.cons (.string 24 ['f']) (.cons (.nodeptr
    (.mk 32 .ncmd (.cons (.int 1) (.cons (.nodeptr .null) (.cons (.nodeptr
      (.mk 64 .narg (.cons (.nodeptr .null) (.cons (.string 96 word) (.cons (.nodelist .nil)
        .nil)))))
      (.cons (.nodeptr .null) .nil)))))) .nil)))

theorem wordFunction_strbytes (word : Text) :
    (wordFunction word).strbytes = word.length + 3 := by
  simp [wordFunction, Node.strbytes, Node.texts, Fields.texts, Field.texts, Nodelist.texts]

/-- A word of 2^32 bytes: three bytes are asked for the strings, and the copy takes 2^32 more. -/
theorem long_word_overruns : ∃ word : Text, word.length = 2 ^ 32 ∧
    (funcsizes (wordFunction word)).funcstringsize = 3 ∧
    (∀ k, (copynode (wordFunction word) k).2.funcstring = k.funcstring + (2 ^ 32 + 3)) ∧
    ¬ CopiedExactly (wordFunction word) := by
  have hlength : (List.replicate (2 ^ 32) 'a').length = 2 ^ 32 := List.length_replicate
  generalize List.replicate (2 ^ 32) 'a' = word at hlength
  have hbytes := wordFunction_strbytes word
  rw [hlength] at hbytes
  have hsize : (funcsizes (wordFunction word)).funcstringsize = 3 := by
    rw [funcsizes_eq, hbytes]
    rfl
  have htaken : ∀ k, (copynode (wordFunction word) k).2.funcstring =
      k.funcstring + (2 ^ 32 + 3) := by
    intro k
    rw [(copynode_takes _ k).string, ← hbytes, Node.strbytes]
  refine ⟨word, hlength, hsize, htaken, ?_⟩
  intro h
  have hstring := h.string ⟨0, 0⟩
  rw [htaken, hsize] at hstring
  have hthree : (3 : BitVec 32).toInt = 3 := rfl
  rw [hthree] at hstring
  omega

end Bootsh.Nodes
