import Bootsh.Memalloc.Stack

/-!
Well-nested sequences of calls of the stack allocator: what holds at every point, and what growing
the open string and popping a mark keep.
-/
namespace Bootsh.Memalloc

open Tile

/-! ### Callers -/

/-- The bytes a mark keeps: those below it in its block, and the blocks below. -/
def Outstanding.Keeps (o : Outstanding) (a : ℕ) : Prop :=
  (∃ b ∈ o.before.head?, b.space ≤ a ∧ a < o.mark.stacknxt) ∨
    ∃ b ∈ o.before.tail, b.space ≤ a ∧ a < b.space + b.len

/-- What callers promise: a pointer given back was allocated in the current block since the last
mark, the end of the open string is one, marks are popped in turn, and nothing is written below
them. -/
def Caller (c : Conf) : Op → Prop
  | .stunalloc p => c.stack.stackp.space ≤ p ∧ p ≤ c.stack.stacknxt ∧
      8 ∣ p - c.stack.stackp.space ∧ ∀ o ∈ c.marks.head?, o.after = c.stack.chain → o.top ≤ p
  | .makestrspace _ p => c.stack.stacknxt ≤ p ∧ p ≤ c.stack.sstrend
  | .write a _ => ∀ o ∈ c.marks, ¬ o.Keeps a
  | _ => True

/-- What the C library promises: a block apart from all that are in use. -/
structure Heap.Fresh (h : Heap) (s : Stack) : Prop where
  ckmalloc : ∀ len sp, h.ckmalloc len = some sp →
    ∀ b ∈ s.chain, Span.Disjoint ⟨sp, len⟩ b.span
  ckrealloc : ∀ len sp, h.ckrealloc len = some sp →
    ∀ b ∈ s.prev, Span.Disjoint ⟨sp, len⟩ b.span

structure Step (base : ℕ) (c : Conf) (op : Op) (c' : Conf) : Prop where
  caller : Caller c op
  exec : ∃ h, Heap.Fresh h c.stack ∧ c.exec base h op = some c'

/-- Where the string may be grown: at the start of a block no mark stands, unless bytes are
reserved for it, and no size wraps around; elsewhere what is copied is as long as an `int`. -/
def CanGrow (base : ℕ) (c : Conf) (min : ℕ) : Prop :=
  if c.stack.atStart base then
    (∀ o ∈ c.marks.head?,
      ¬ (o.mark.stackp = c.stack.stackp.addr ∧ o.mark.stacknxt = c.stack.stacknxt)) ∧
      c.stack.stacknleft * 2 + shellAlign (min ||| 128) + 8 < 2 ^ 64
  else c.stack.stacknleft < 2 ^ 31

/-- The condition on a call: if it grows the string, it may. -/
def Sound (base : ℕ) (c : Conf) : Op → Prop
  | .growstackstr => CanGrow base c 0
  | .makestrspace newlen p =>
    let len := (p - c.stack.stacknxt + newlen) % 2 ^ 64
    c.stack.stacknleft < len → CanGrow base c len
  | _ => True

/-- Runs all of whose steps meet a condition. -/
inductive Run (base : ℕ) (cond : Conf → Op → Prop) : Conf → Prop
  | initial (mem : ℕ → Char) : Run base cond (Conf.initial base mem)
  | step {c c' : Conf} {op : Op} (hc : Run base cond c) (hop : cond c op)
      (hstep : Step base c op c') : Run base cond c'

/-! ### The property -/

/-- The three globals agree and lie in the current block. -/
structure InBlock (s : Stack) : Prop where
  ends : s.sstrend = s.stacknxt + s.stacknleft
  low : s.stackp.space ≤ s.stacknxt
  high : s.sstrend ≤ s.stackp.space + s.stackp.len

/-- The blocks an outstanding mark refers to are in use where they were. -/
def MarksLive (c : Conf) : Prop := ∀ o ∈ c.marks, o.before <:+ c.stack.chain

/-- A string of `n` bytes is where the open string is, as it was before. -/
def StringKept (n : ℕ) (s s' : Stack) : Prop :=
  ∀ i < n, s'.mem (s'.stacknxt + i) = s.mem (s.stacknxt + i)

/-- The last mark's block is on top again, and the globals and what the mark keeps are as they were
when it was set. -/
structure Restored (o : Outstanding) (c' : Conf) : Prop where
  chain : c'.stack.chain = o.before
  stackp : c'.stack.stackp.addr = o.mark.stackp
  stacknxt : c'.stack.stacknxt = o.mark.stacknxt
  stacknleft : c'.stack.stacknleft = o.mark.stacknleft
  sstrend : c'.stack.sstrend = o.mark.stacknxt + o.mark.stacknleft
  kept : ∀ a, o.Keeps a → c'.stack.mem a = o.mem a

/-- What a call leaves: growing, the open string and the marks; popping, what the mark holds. -/
def Keeps (c : Conf) (op : Op) (c' : Conf) : Prop :=
  match op with
  | .growstackstr => StringKept c.stack.stacknleft c.stack c'.stack ∧ c'.marks = c.marks
  | .makestrspace _ p => StringKept (p - c.stack.stacknxt) c.stack c'.stack ∧ c'.marks = c.marks
  | .popstackmark => ∃ o ∈ c.marks.head?, Restored o c' ∧ c'.marks = c.marks.tail
  | _ => True

/-! ### The invariant -/

/-- What a mark holds: its block is on top of the chain it was set on, and what was reserved behind
it ends there or in a new block. -/
structure Outstanding.Held (o : Outstanding) : Prop where
  block : ∃ b ∈ o.before.head?, o.mark.stackp = b.addr ∧ b.space ≤ o.mark.stacknxt ∧
    o.mark.stacknxt + o.mark.stacknleft = b.space + b.len ∧ 8 ∣ o.mark.stacknleft
  reserve : o.after = o.before ∧ o.mark.stacknxt ≤ o.top ∨
    ∃ b, o.after = b :: o.before ∧ b.space < o.top

/-- The marks from the last one down: each one's chain is part of the chain above it, and where it
is all of it the stack has not come below what was reserved. -/
def Nested : List Outstanding → List Block → ℕ → Prop
  | [], _, _ => True
  | o :: os, chain, nxt => o.Held ∧ o.after <:+ chain ∧ (o.after = chain → o.top ≤ nxt) ∧
    Nested os o.before o.mark.stacknxt

/-- What holds of the globals and the blocks. -/
structure Stack.Ok (base : ℕ) (s : Stack) : Prop where
  ends : s.sstrend = s.stacknxt + s.stacknleft
  low : s.stackp.space ≤ s.stacknxt
  high : s.stacknxt + s.stacknleft = s.stackp.space + s.stackp.len
  left : 8 ∣ s.stacknleft
  lens : ∀ b ∈ s.chain, 8 ∣ b.len
  apart : s.chain.Pairwise fun b b' => b.span.Disjoint b'.span
  bottom : [⟨base, minsize⟩] <:+ s.chain

structure Inv (base : ℕ) (c : Conf) : Prop where
  ok : c.stack.Ok base
  nested : Nested c.marks c.stack.chain c.stack.stacknxt
  kept : ∀ o ∈ c.marks, ∀ a, o.Keeps a → c.stack.mem a = o.mem a

/-! ### Sizes -/

theorem dvd_shellAlign (n : ℕ) : 8 ∣ shellAlign n := Nat.dvd_mul_left 8 _

theorem shellAlign_lt (n : ℕ) : shellAlign n < 2 ^ 64 := by
  unfold shellAlign
  omega

theorem shellAlign_of_dvd {n : ℕ} (hn : 8 ∣ n) (hlt : n < 2 ^ 64) : shellAlign n = n := by
  unfold shellAlign
  omega

theorem dvd_minsize : 8 ∣ minsize := dvd_shellAlign 504

namespace Stack

variable {base n : ℕ} {h : Heap} {s s' : Stack}

theorem newlen_dvd {min : ℕ} (hleft : 8 ∣ s.stacknleft) (hn : s.newlen min = some n) :
    8 ∣ n ∧ n < 2 ^ 64 := by
  unfold newlen at hn
  have halign := dvd_shellAlign (min ||| 128)
  dsimp only at hn
  split_ifs at hn with hover hmin
  · cases hn
    omega
  · cases hn
    omega

theorem newlen_le {min : ℕ} (hn : s.newlen min = some n)
    (hwrap : s.stacknleft * 2 + shellAlign (min ||| 128) + 8 < 2 ^ 64) :
    s.stacknleft ≤ n ∧ n + 8 < 2 ^ 64 := by
  unfold newlen at hn
  dsimp only at hn
  split_ifs at hn with hover hmin
  · cases hn
    omega
  · cases hn
    omega

/-! ### Allocation -/

/-- What `stalloc` does: bytes of the block are taken, or of a new block on top. -/
theorem stalloc_cases {r : ℕ × Stack} (hr : s.stalloc h n = some r) :
    (shellAlign n ≤ s.stacknleft ∧ r = (s.stacknxt, s.take (shellAlign n))) ∨
    ∃ sp size, s.stacknleft < shellAlign n ∧ shellAlign n ≤ size ∧ 8 ∣ size ∧
      h.ckmalloc (8 + size) = some sp ∧
      r = (sp + 8, (s.link ⟨sp, size⟩).take (shellAlign n)) := by
  unfold stalloc at hr
  dsimp only at hr
  have halign := dvd_shellAlign n
  have hlt := shellAlign_lt n
  by_cases hleft : s.stacknleft < shellAlign n
  · rw [if_pos hleft] at hr
    have hsize : ∃ size, (if shellAlign n < minsize then minsize else shellAlign n) = size ∧
        shellAlign n ≤ size ∧ 8 ∣ size ∧ size < 2 ^ 64 := by
      refine ⟨_, rfl, ?_, ?_, ?_⟩
      · split_ifs with hmin
        · omega
        · exact Nat.le_refl _
      · split_ifs
        · exact dvd_minsize
        · exact halign
      · split_ifs
        · decide
        · exact hlt
    obtain ⟨size, hsize, hle, hdvd, hlt⟩ := hsize
    rw [hsize] at hr
    split_ifs at hr with hover
    have hlen : (8 + size) % 2 ^ 64 = 8 + size := by omega
    rw [hlen, Option.map_eq_some_iff] at hr
    obtain ⟨sp, hsp, rfl⟩ := hr
    exact Or.inr ⟨sp, size, hleft, hle, hdvd, hsp, rfl⟩
  · rw [if_neg hleft] at hr
    cases hr
    exact Or.inl ⟨by omega, rfl⟩

theorem take_ok (hs : s.Ok base) (hn : n ≤ s.stacknleft) (hdvd : 8 ∣ n) : (s.take n).Ok base := by
  obtain ⟨hends, hlow, hhigh, hleft, hlens, hapart, hbottom⟩ := hs
  refine ⟨?_, ?_, ?_, ?_, hlens, hapart, hbottom⟩
  · change s.sstrend = s.stacknxt + n + (s.stacknleft - n)
    omega
  · exact Nat.le_trans hlow (Nat.le_add_right _ n)
  · change s.stacknxt + n + (s.stacknleft - n) = s.stackp.space + s.stackp.len
    omega
  · exact Nat.dvd_sub hleft hdvd

theorem link_ok {sp size : ℕ} (hs : s.Ok base) (hdvd : 8 ∣ size)
    (hfresh : ∀ b ∈ s.chain, Span.Disjoint ⟨sp, 8 + size⟩ b.span) :
    (s.link ⟨sp, size⟩).Ok base := by
  refine ⟨rfl, Nat.le_refl _, rfl, hdvd, ?_, ?_, ?_⟩
  · intro b hb
    rcases List.mem_cons.mp hb with rfl | hb
    · exact hdvd
    · exact hs.lens b hb
  · exact List.Pairwise.cons hfresh hs.apart
  · exact hs.bottom.trans (List.suffix_cons _ _)

/-- The stack has moved on: within its block, or to a new block on top. -/
def Onward (s s' : Stack) : Prop :=
  (s'.chain = s.chain ∧ s.stacknxt ≤ s'.stacknxt) ∨
    ∃ b, s'.chain = b :: s.chain ∧ b.space < s'.stacknxt

theorem stalloc_ok {r : ℕ × Stack} (hs : s.Ok base) (hh : h.Fresh s)
    (hr : s.stalloc h n = some r) : r.2.Ok base ∧ s.Onward r.2 ∧ r.2.mem = s.mem := by
  have halign := dvd_shellAlign n
  rcases stalloc_cases hr with ⟨hle, rfl⟩ | ⟨sp, size, hlt, hle, hdvd, hsp, rfl⟩
  · exact ⟨take_ok hs hle halign, Or.inl ⟨rfl, Nat.le_add_right _ _⟩, rfl⟩
  · refine ⟨take_ok (link_ok hs hdvd (hh.ckmalloc _ sp hsp)) hle halign, ?_, rfl⟩
    refine Or.inr ⟨⟨sp, size⟩, rfl, ?_⟩
    change sp + 8 < sp + 8 + shellAlign n
    omega

/-- A pointer `stalloc` returned may be given back. -/
theorem stalloc_allocated {r : ℕ × Stack} (hs : s.Ok base) (hr : s.stalloc h n = some r) :
    r.2.stackp.space ≤ r.1 ∧ r.1 ≤ r.2.stacknxt ∧ 8 ∣ r.1 - r.2.stackp.space := by
  rcases stalloc_cases hr with ⟨hle, rfl⟩ | ⟨sp, size, hlt, hle, hdvd, hsp, rfl⟩
  · have hlow := hs.low
    have hhigh := hs.high
    have hleft := hs.left
    have hlen := hs.lens s.stackp (List.mem_cons_self ..)
    refine ⟨hlow, Nat.le_add_right _ _, ?_⟩
    change 8 ∣ s.stacknxt - s.stackp.space
    omega
  · refine ⟨Nat.le_refl _, Nat.le_add_right _ _, ?_⟩
    change 8 ∣ sp + 8 - (sp + 8)
    omega

theorem stunalloc_ok {p : ℕ} (hs : s.Ok base) (hlow : s.stackp.space ≤ p) (hle : p ≤ s.stacknxt)
    (hdvd : 8 ∣ p - s.stackp.space) : (s.stunalloc p).Ok base := by
  obtain ⟨hends, hspace, hhigh, hleft, hlens, hapart, hbottom⟩ := hs
  have hlen := hlens s.stackp (List.mem_cons_self ..)
  refine ⟨?_, hlow, ?_, ?_, hlens, hapart, hbottom⟩
  · change s.sstrend = p + (s.stacknleft + (s.stacknxt - p))
    omega
  · change p + (s.stacknleft + (s.stacknxt - p)) = s.stackp.space + s.stackp.len
    omega
  · change 8 ∣ s.stacknleft + (s.stacknxt - p)
    omega

/-! ### Growth -/

theorem memcpy_in {mem : ℕ → Char} {dst src m i : ℕ} (hi : i < m) :
    memcpy mem dst src m (dst + i) = mem (src + i) := by
  unfold memcpy
  rw [if_pos ⟨Nat.le_add_right dst i, Nat.add_lt_add_left hi dst⟩, Nat.add_sub_cancel_left]

theorem memcpy_out {mem : ℕ → Char} {dst src m a : ℕ} (ha : a < dst ∨ dst + m ≤ a) :
    memcpy mem dst src m a = mem a := by
  unfold memcpy
  exact if_neg (by omega)

theorem memcpy_self {mem : ℕ → Char} {dst m : ℕ} : memcpy mem dst dst m = mem := by
  funext a
  unfold memcpy
  split_ifs with ha
  · rw [Nat.add_sub_cancel' ha.1]
  · rfl

theorem oldlen_eq (hs : s.stacknleft < 2 ^ 31) : s.oldlen = s.stacknleft := by
  unfold oldlen
  have hmsb : (BitVec.ofNat 32 s.stacknleft).msb = false := by
    rw [BitVec.msb_eq_decide, BitVec.toNat_ofNat]
    exact decide_eq_false (by omega)
  rw [BitVec.signExtend_eq_setWidth_of_msb_false hmsb, BitVec.toNat_setWidth, BitVec.toNat_ofNat]
  omega

/-- Memory in the space of a block is as it was. -/
def BlockKept (b : Block) (s s' : Stack) : Prop :=
  ∀ a, b.space ≤ a → a < b.space + b.len → s'.mem a = s.mem a

/-- Writing within one of two blocks that are apart leaves the other. -/
theorem memcpy_blockKept {mem : ℕ → Char} {sp size src m : ℕ} {b : Block}
    (hapart : Span.Disjoint ⟨sp, 8 + size⟩ b.span) (hm : m ≤ size) {a : ℕ}
    (hlow : b.space ≤ a) (hhigh : a < b.space + b.len) :
    memcpy mem (sp + 8) src m a = mem a := by
  apply memcpy_out
  unfold Block.space at hlow hhigh
  rcases hapart with hapart | hapart
  · change sp + (8 + size) ≤ b.addr at hapart
    omega
  · change b.addr + (8 + b.len) ≤ sp at hapart
    omega

theorem stackp_of_atStart (hstart : s.atStart base = true) :
    s.stacknxt = s.stackp.space ∧ s.stackp.addr ≠ base := by
  simpa [atStart] using hstart

/-- Growing in place: the current block is another one, with the string at its start. -/
theorem realloc_grown {sp : ℕ} (hs : s.Ok base) (hstart : s.atStart base = true)
    (hdvd : 8 ∣ n) (hle : s.stacknleft ≤ n) (hlt : n + 8 < 2 ^ 64)
    (hfresh : ∀ b ∈ s.prev, Span.Disjoint ⟨sp, 8 + n⟩ b.span) :
    (s.realloc n sp).Ok base ∧ StringKept s.stacknleft s (s.realloc n sp) ∧
      (s.realloc n sp).chain = ⟨sp, n⟩ :: s.prev ∧
      ∀ b ∈ s.prev, BlockKept b s (s.realloc n sp) := by
  obtain ⟨hnxt, haddr⟩ := stackp_of_atStart hstart
  have hlen : (n + 8) % 2 ^ 64 - 8 = n := by omega
  have hchain : (s.realloc n sp).chain = ⟨sp, n⟩ :: s.prev := by
    unfold chain realloc
    rw [hlen]
  have hhigh := hs.high
  refine ⟨⟨rfl, Nat.le_refl _, ?_, hdvd, ?_, ?_, ?_⟩, ?_, hchain, ?_⟩
  · change sp + 8 + n = sp + 8 + ((n + 8) % 2 ^ 64 - 8)
    rw [hlen]
  · intro b hb
    rw [hchain] at hb
    rcases List.mem_cons.mp hb with rfl | hb
    · exact hdvd
    · exact hs.lens b (List.mem_cons_of_mem _ hb)
  · rw [hchain]
    exact List.Pairwise.cons hfresh (List.Pairwise.of_cons hs.apart)
  · rw [hchain]
    rcases List.suffix_cons_iff.mp hs.bottom with heq | hsuffix
    · obtain ⟨hbase, -⟩ := List.cons.inj heq
      rw [← hbase] at haddr
      exact absurd rfl haddr
    · exact hsuffix.trans (List.suffix_cons _ _)
  · intro i hi
    change memcpy s.mem (sp + 8) s.stackp.space _ (sp + 8 + i) = _
    rw [memcpy_in (by omega), hnxt]
  · intro b hb a hlow hhigh
    exact memcpy_blockKept (hfresh b hb) (Nat.min_le_right _ _) hlow hhigh

/-- Growing by moving: the string is at the start of a new block, or where it was. -/
theorem moved_grown {r : ℕ × Stack} (hs : s.Ok base) (hh : h.Fresh s) (hdvd : 8 ∣ n)
    (hlt : n < 2 ^ 64) (hint : s.stacknleft < 2 ^ 31) (hr : s.stalloc h n = some r) :
    (s.moved n r).Ok base ∧ StringKept s.stacknleft s (s.moved n r) ∧
      ((s.moved n r).chain = s.chain ∧ s.stacknxt ≤ (s.moved n r).stacknxt ∨
        ∃ b, (s.moved n r).chain = b :: s.chain) ∧
      ∀ b ∈ s.chain, BlockKept b s (s.moved n r) := by
  have halign := shellAlign_of_dvd hdvd hlt
  rcases stalloc_cases hr with ⟨hle, rfl⟩ | ⟨sp, size, hleft, hle, hsize, hsp, rfl⟩
  · -- the space was there: nothing moves
    rw [halign] at hle ⊢
    have hmoved : s.moved n (s.stacknxt, s.take n) = s := by
      unfold moved take
      dsimp only
      rw [memcpy_self, Nat.sub_add_cancel hle]
    rw [hmoved]
    exact ⟨hs, fun i hi => rfl, Or.inl ⟨rfl, Nat.le_refl _⟩, fun b hb a hlow hhigh => rfl⟩
  · rw [halign] at hle hleft ⊢
    have hfresh := hh.ckmalloc _ sp hsp
    have hlink := link_ok hs hsize hfresh
    have hnleft : size - n + n = size := Nat.sub_add_cancel hle
    refine ⟨⟨?_, Nat.le_refl _, ?_, ?_, hlink.lens, hlink.apart, hlink.bottom⟩, ?_,
      Or.inr ⟨⟨sp, size⟩, rfl⟩, ?_⟩
    · change sp + 8 + size = sp + 8 + (size - n + n)
      rw [hnleft]
    · change sp + 8 + (size - n + n) = sp + 8 + size
      rw [hnleft]
    · change 8 ∣ size - n + n
      rw [hnleft]
      exact hsize
    · intro i hi
      change memcpy s.mem (sp + 8) s.stacknxt s.oldlen (sp + 8 + i) = _
      rw [oldlen_eq hint, memcpy_in hi]
    · intro b hb a hlow hhigh
      change memcpy s.mem (sp + 8) s.stacknxt s.oldlen a = _
      rw [oldlen_eq hint]
      exact memcpy_blockKept (hfresh b hb) (by omega) hlow hhigh

end Stack

/-! ### Marks -/

section

variable {o : Outstanding} {os : List Outstanding} {chain prev : List Block} {b t : Block}
  {nxt nxt' : ℕ}

theorem Outstanding.Held.suffix (ho : o.Held) : o.before <:+ o.after := by
  rcases ho.reserve with ⟨heq, -⟩ | ⟨b, heq, -⟩
  · exact heq ▸ List.suffix_refl o.before
  · rw [heq]
    exact List.suffix_cons _ _

/-- What a mark keeps is in the blocks it was set on. -/
theorem Outstanding.Held.keeps {a : ℕ} (ho : o.Held) (ha : o.Keeps a) :
    ∃ b ∈ o.before, b.space ≤ a ∧ a < b.space + b.len := by
  obtain ⟨b, hb, -, -, hhigh, -⟩ := ho.block
  rcases ha with ⟨b', hb', hlow, hlt⟩ | ⟨b', hb', hin⟩
  · obtain rfl : b = b' := Option.some.inj (hb.symm.trans hb')
    exact ⟨b, List.mem_of_mem_head? hb, hlow, by omega⟩
  · exact ⟨b', List.mem_of_mem_tail hb', hin⟩

theorem nested_same (hn : Nested os chain nxt) (hle : nxt ≤ nxt') : Nested os chain nxt' := by
  cases os with
  | nil => trivial
  | cons o os =>
    obtain ⟨hheld, hafter, htop, hos⟩ := hn
    exact ⟨hheld, hafter, fun heq => Nat.le_trans (htop heq) hle, hos⟩

theorem nested_above (hn : Nested os chain nxt) : Nested os (b :: chain) nxt' := by
  cases os with
  | nil => trivial
  | cons o os =>
    obtain ⟨hheld, hafter, htop, hos⟩ := hn
    refine ⟨hheld, hafter.trans (List.suffix_cons _ _), ?_, hos⟩
    intro heq
    have hlen := hafter.length_le
    rw [heq, List.length_cons] at hlen
    omega

/-- Another block on top, when the last mark is not in the one it stands for. -/
theorem nested_replace (hn : Nested os (t :: prev) nxt) (hne : ∀ o ∈ os.head?, o.after <:+ prev) :
    Nested os (b :: prev) nxt' := by
  cases os with
  | nil => trivial
  | cons o os =>
    obtain ⟨hheld, -, -, hos⟩ := hn
    have hafter := hne o rfl
    refine ⟨hheld, hafter.trans (List.suffix_cons _ _), ?_, hos⟩
    intro heq
    have hlen := hafter.length_le
    rw [heq, List.length_cons] at hlen
    omega

/-- Every mark was set on a part of the chain behind the last one. -/
theorem nested_before (hn : Nested (o :: os) chain nxt) :
    ∀ o' ∈ o :: os, o'.Held ∧ o'.before <:+ o.after := by
  induction os generalizing o chain nxt with
  | nil =>
    intro o' ho'
    obtain rfl := List.mem_singleton.mp ho'
    exact ⟨hn.1, hn.1.suffix⟩
  | cons o₂ os ih =>
    obtain ⟨hheld, -, -, hos⟩ := hn
    intro o' ho'
    rcases List.mem_cons.mp ho' with rfl | ho'
    · exact ⟨hheld, hheld.suffix⟩
    · obtain ⟨hheld', hsuffix⟩ := ih hos o' ho'
      exact ⟨hheld', (hsuffix.trans hos.2.1).trans hheld.suffix⟩

/-- When the last mark is in the given chain, so are the blocks of all. -/
theorem nested_within (hn : Nested os chain nxt) (hin : ∀ o ∈ os.head?, o.after <:+ prev) :
    ∀ o ∈ os, o.Held ∧ o.before <:+ prev := by
  cases os with
  | nil => simp
  | cons o os =>
    intro o' ho'
    obtain ⟨hheld, hsuffix⟩ := nested_before hn o' ho'
    exact ⟨hheld, hsuffix.trans (hin o rfl)⟩

theorem nested_after (hn : Nested os chain nxt) : ∀ o ∈ os.head?, o.after <:+ chain := by
  cases os with
  | nil => simp
  | cons o os =>
    intro o' ho'
    obtain rfl : o = o' := Option.some.inj ho'
    exact hn.2.1

end

/-! ### Steps -/

section

variable {base : ℕ} {c c' : Conf} {h : Heap}

theorem Inv.live (hc : Inv base c) : ∀ o ∈ c.marks, o.Held ∧ o.before <:+ c.stack.chain :=
  nested_within hc.nested (nested_after hc.nested)

/-- A stack that moved on leaves the marks and what they keep. -/
theorem Inv.onward {s : Stack} (hc : Inv base c) (hs : s.Ok base) (hon : c.stack.Onward s)
    (hmem : s.mem = c.stack.mem) : Inv base ⟨s, c.marks⟩ := by
  refine ⟨hs, ?_, ?_⟩
  · change Nested c.marks s.chain s.stacknxt
    rcases hon with ⟨hchain, hle⟩ | ⟨b, hchain, -⟩
    · rw [hchain]
      exact nested_same hc.nested hle
    · rw [hchain]
      exact nested_above hc.nested
  · intro o ho a ha
    change s.mem a = o.mem a
    rw [hmem]
    exact hc.kept o ho a ha

/-- Setting a mark: what it holds is the stack as it is. -/
theorem Inv.push {len : ℕ} {r : Stackmark × Stack} (hc : Inv base c) (hh : h.Fresh c.stack)
    (hr : c.stack.pushstackmark h len = some r) : Inv base (c.push r) := by
  unfold Stack.pushstackmark at hr
  rw [Option.map_eq_some_iff] at hr
  obtain ⟨q, hq, rfl⟩ := hr
  obtain ⟨hok, hon, hmem⟩ := Stack.stalloc_ok hc.ok hh hq
  have hcs := hc.ok
  refine ⟨hok, ⟨⟨⟨c.stack.stackp, rfl, rfl, hcs.low, hcs.high, hcs.left⟩, hon⟩,
    List.suffix_refl _, fun heq => Nat.le_refl _, hc.nested⟩, ?_⟩
  intro o ho a ha
  change q.2.mem a = o.mem a
  rw [hmem]
  rcases List.mem_cons.mp ho with rfl | ho
  · rfl
  · exact hc.kept o ho a ha

/-- At the start of a block no mark stands: the last one is in a block below. -/
theorem CanGrow.below (hc : Inv base c) (hstart : c.stack.atStart base = true)
    (hcan : ∀ o ∈ c.marks.head?,
      ¬ (o.mark.stackp = c.stack.stackp.addr ∧ o.mark.stacknxt = c.stack.stacknxt)) :
    ∀ o ∈ c.marks.head?, o.after <:+ c.stack.prev := by
  intro o ho
  obtain ⟨hnxt, -⟩ := Stack.stackp_of_atStart hstart
  have hsuffix := nested_after hc.nested o ho
  rcases List.suffix_cons_iff.mp hsuffix with heq | hsuffix
  · exfalso
    obtain ⟨hheld, htop⟩ : o.Held ∧ (o.after = c.stack.chain → o.top ≤ c.stack.stacknxt) := by
      have hnested := hc.nested
      cases hmarks : c.marks with
      | nil =>
        rw [hmarks] at ho
        cases ho
      | cons o' os =>
        rw [hmarks] at ho hnested
        obtain rfl : o' = o := Option.some.inj ho
        exact ⟨hnested.1, hnested.2.2.1⟩
    have htop := htop heq
    rcases hheld.reserve with ⟨hbefore, hle⟩ | ⟨b, hbefore, hlt⟩
    · -- nothing was reserved: the mark stands at the start
      obtain ⟨b, hb, haddr, hlow, -⟩ := hheld.block
      rw [← hbefore, heq] at hb
      obtain rfl : c.stack.stackp = b := Option.some.inj hb
      exact hcan o ho ⟨haddr, by omega⟩
    · -- what was reserved stands at the start
      rw [heq] at hbefore
      obtain ⟨rfl, -⟩ := List.cons.inj hbefore
      omega
  · exact hsuffix

theorem Inv.grow {min : ℕ} {s : Stack} (hc : Inv base c) (hcan : CanGrow base c min)
    (hh : h.Fresh c.stack) (hs : c.stack.growstackblock base h min = some s) :
    Inv base ⟨s, c.marks⟩ ∧ StringKept c.stack.stacknleft c.stack s := by
  have hok := hc.ok
  unfold Stack.growstackblock at hs
  rw [Option.bind_eq_some_iff] at hs
  obtain ⟨n, hn, hs⟩ := hs
  obtain ⟨hdvd, hlt⟩ := Stack.newlen_dvd hok.left hn
  unfold CanGrow at hcan
  -- what a mark keeps stays when the blocks it was set on do
  have hkept : ∀ {chain : List Block}, (∀ o ∈ c.marks, o.Held ∧ o.before <:+ chain) →
      (∀ b ∈ chain, Stack.BlockKept b c.stack s) →
      ∀ o ∈ c.marks, ∀ a, o.Keeps a → s.mem a = o.mem a := by
    intro chain hmarks hblocks o ho a ha
    obtain ⟨hheld, hsuffix⟩ := hmarks o ho
    obtain ⟨b, hb, hlow, hhigh⟩ := hheld.keeps ha
    rw [hblocks b (hsuffix.subset hb) a hlow hhigh]
    exact hc.kept o ho a ha
  by_cases hstart : c.stack.atStart base = true
  · rw [if_pos hstart] at hs hcan
    obtain ⟨hmark, hwrap⟩ := hcan
    rw [Option.map_eq_some_iff] at hs
    obtain ⟨sp, hsp, rfl⟩ := hs
    obtain ⟨hle, hsum⟩ := Stack.newlen_le hn hwrap
    have hlen : (n + 8) % 2 ^ 64 = 8 + n := by omega
    rw [hlen] at hsp
    obtain ⟨hok', hstring, hchain, hblocks⟩ :=
      Stack.realloc_grown hok hstart hdvd hle hsum (hh.ckrealloc _ sp hsp)
    have hbelow := CanGrow.below hc hstart hmark
    refine ⟨⟨hok', ?_, hkept (nested_within hc.nested hbelow) hblocks⟩, hstring⟩
    change Nested c.marks (c.stack.realloc n sp).chain _
    rw [hchain]
    exact nested_replace hc.nested hbelow
  · rw [if_neg hstart] at hs hcan
    rw [Option.map_eq_some_iff] at hs
    obtain ⟨r, hr, rfl⟩ := hs
    obtain ⟨hok', hstring, hchain, hblocks⟩ := Stack.moved_grown hok hh hdvd hlt hcan hr
    refine ⟨⟨hok', ?_, hkept hc.live hblocks⟩, hstring⟩
    change Nested c.marks (c.stack.moved n r).chain (c.stack.moved n r).stacknxt
    rcases hchain with ⟨hchain, hle⟩ | ⟨b, hchain⟩
    · rw [hchain]
      exact nested_same hc.nested hle
    · rw [hchain]
      exact nested_above hc.nested

/-- Popping the last mark: its chain is found under what was allocated since. -/
theorem unwind_append {addr : ℕ} {b : Block} {bs : List Block} (hb : b.addr = addr) :
    ∀ {above : List Block}, (above ++ b :: bs).Pairwise (fun b b' => b.span.Disjoint b'.span) →
      unwind addr (above ++ b :: bs) = some (b, bs) := by
  intro above
  induction above with
  | nil =>
    intro hapart
    rw [List.nil_append, unwind, if_pos hb]
  | cons t above ih =>
    intro hapart
    rw [List.cons_append] at hapart ⊢
    have hdisjoint := List.rel_of_pairwise_cons hapart (List.mem_append_right above
      (List.mem_cons_self ..))
    rw [unwind, if_neg]
    · exact ih (List.Pairwise.of_cons hapart)
    · intro ht
      -- two blocks at one address overlap
      rcases hdisjoint with hdisjoint | hdisjoint
      · change t.addr + (8 + t.len) ≤ b.addr at hdisjoint
        omega
      · change b.addr + (8 + b.len) ≤ t.addr at hdisjoint
        omega

theorem Inv.pop (hc : Inv base c) (hpop : c.pop = some c') :
    Inv base c' ∧ ∃ o ∈ c.marks.head?, Restored o c' ∧ c'.marks = c.marks.tail := by
  obtain ⟨s, marks⟩ := c
  unfold Conf.pop at hpop
  cases marks with
  | nil => cases hpop
  | cons o os =>
    obtain ⟨hheld, hsuffix⟩ := hc.live o (List.mem_cons_self ..)
    obtain ⟨b, hb, haddr, hlow, hhigh, hleft⟩ := hheld.block
    obtain ⟨bs, hbefore⟩ := List.head?_eq_some_iff.mp hb
    obtain ⟨above, habove⟩ := hsuffix
    change above ++ o.before = s.chain at habove
    rw [hbefore] at habove
    have hfound := unwind_append haddr.symm (habove ▸ hc.ok.apart)
    rw [habove] at hfound
    change (s.popstackmark o.mark).map (fun s => (⟨s, os⟩ : Conf)) = some c' at hpop
    unfold Stack.popstackmark at hpop
    rw [hfound] at hpop
    cases hpop
    have hin : b :: bs <:+ s.chain := ⟨above, habove⟩
    have hok := hc.ok
    refine ⟨⟨⟨rfl, hlow, hhigh, hleft, fun b' hb' => hok.lens b' (hin.subset hb'),
      hok.apart.sublist hin.sublist, ?_⟩, ?_, ?_⟩, o, rfl, ?_, rfl⟩
    · exact List.suffix_of_suffix_length_le hok.bottom hin
        (Nat.succ_le_succ (Nat.zero_le bs.length))
    · change Nested os (b :: bs) o.mark.stacknxt
      rw [← hbefore]
      exact hc.nested.2.2.2
    · intro o' ho'
      exact hc.kept o' (List.mem_cons_of_mem _ ho')
    · exact ⟨hbefore.symm, haddr.symm, rfl, rfl, rfl, hc.kept o (List.mem_cons_self ..)⟩

theorem Inv.unalloc {p : ℕ} (hc : Inv base c) (hcaller : Caller c (.stunalloc p)) :
    Inv base ⟨c.stack.stunalloc p, c.marks⟩ := by
  obtain ⟨hlow, hle, hdvd, htop⟩ := hcaller
  refine ⟨Stack.stunalloc_ok hc.ok hlow hle hdvd, ?_, hc.kept⟩
  have hnested := hc.nested
  change Nested c.marks c.stack.chain p
  cases hmarks : c.marks with
  | nil => trivial
  | cons o os =>
    rw [hmarks] at hnested htop
    obtain ⟨hheld, hafter, -, hos⟩ := hnested
    exact ⟨hheld, hafter, htop o rfl, hos⟩

theorem Inv.write {a : ℕ} {ch : Char} (hc : Inv base c) (hcaller : Caller c (.write a ch)) :
    Inv base ⟨c.stack.write a ch, c.marks⟩ := by
  obtain ⟨hends, hlow, hhigh, hleft, hlens, hapart, hbottom⟩ := hc.ok
  refine ⟨⟨hends, hlow, hhigh, hleft, hlens, hapart, hbottom⟩, hc.nested, ?_⟩
  intro o ho x hx
  have hne : x ≠ a := by
    rintro rfl
    exact hcaller o ho hx
  change (if x = a then ch else c.stack.mem x) = o.mem x
  rw [if_neg hne]
  exact hc.kept o ho x hx

/-- One call keeps the invariant, and does what is promised of it. -/
theorem Inv.step {op : Op} (hc : Inv base c) (hsound : Sound base c op)
    (hstep : Step base c op c') : Inv base c' ∧ Keeps c op c' := by
  obtain ⟨hcaller, h, hh, hexec⟩ := hstep
  cases op with
  | stalloc nbytes =>
    change (c.stack.stalloc h nbytes).map (fun r => (⟨r.2, c.marks⟩ : Conf)) = some c' at hexec
    rw [Option.map_eq_some_iff] at hexec
    obtain ⟨r, hr, rfl⟩ := hexec
    obtain ⟨hok, hon, hmem⟩ := Stack.stalloc_ok hc.ok hh hr
    exact ⟨hc.onward hok hon hmem, trivial⟩
  | stunalloc p =>
    cases hexec
    exact ⟨hc.unalloc hcaller, trivial⟩
  | pushstackmark len =>
    change (c.stack.pushstackmark h len).map c.push = some c' at hexec
    rw [Option.map_eq_some_iff] at hexec
    obtain ⟨r, hr, rfl⟩ := hexec
    exact ⟨hc.push hh hr, trivial⟩
  | setstackmark =>
    change (c.stack.pushstackmark h _).map c.push = some c' at hexec
    rw [Option.map_eq_some_iff] at hexec
    obtain ⟨r, hr, rfl⟩ := hexec
    exact ⟨hc.push hh hr, trivial⟩
  | popstackmark => exact hc.pop hexec
  | growstackstr =>
    change (c.stack.growstackblock base h 0).map (fun s => (⟨s, c.marks⟩ : Conf)) = some c' at hexec
    rw [Option.map_eq_some_iff] at hexec
    obtain ⟨s, hs, rfl⟩ := hexec
    obtain ⟨hinv, hstring⟩ := hc.grow hsound hh hs
    exact ⟨hinv, hstring, rfl⟩
  | makestrspace newlen p =>
    obtain ⟨-, hp⟩ := hcaller
    have hends := hc.ok.ends
    change ((if c.stack.stacknleft < _ then _ else _ : Option Stack)).map
      (fun s => (⟨s, c.marks⟩ : Conf)) = some c' at hexec
    rw [Option.map_eq_some_iff] at hexec
    obtain ⟨s, hs, rfl⟩ := hexec
    by_cases hroom : c.stack.stacknleft < (p - c.stack.stacknxt + newlen) % 2 ^ 64
    · rw [if_pos hroom] at hs
      obtain ⟨hinv, hstring⟩ := hc.grow (hsound hroom) hh hs
      refine ⟨hinv, ?_, rfl⟩
      intro i hi
      exact hstring i (by omega)
    · rw [if_neg hroom] at hs
      cases hs
      exact ⟨hc, fun i hi => rfl, rfl⟩
  | write a ch =>
    cases hexec
    exact ⟨hc.write hcaller, trivial⟩

theorem initial_inv (mem : ℕ → Char) : Inv base (Conf.initial base mem) := by
  refine ⟨⟨rfl, Nat.le_refl _, rfl, dvd_minsize, ?_, List.pairwise_singleton _ _,
    List.suffix_refl _⟩, trivial, ?_⟩
  · intro b hb
    obtain rfl := List.mem_singleton.mp hb
    exact dvd_minsize
  · intro o ho
    cases ho

/-- The invariant holds all along a run. -/
theorem Run.inv (hc : Run base (Sound base) c) : Inv base c := by
  induction hc with
  | initial mem => exact initial_inv mem
  | step hc hop hstep ih => exact (ih.step hop hstep).1

/-- At every point of a run whose calls all meet the condition, the globals agree and lie in the
current block and the blocks of outstanding marks are live; and a further call that meets it keeps
the open string when it grows, and restores what a mark holds when it pops one. -/
theorem run_keeps (hc : Run base (Sound base) c) :
    InBlock c.stack ∧ MarksLive c ∧
      ∀ op c', Sound base c op → Step base c op c' → Keeps c op c' := by
  have hinv := hc.inv
  have hok := hinv.ok
  refine ⟨⟨hok.ends, hok.low, ?_⟩, fun o ho => (hinv.live o ho).2, ?_⟩
  · rw [hok.ends]
    exact Nat.le_of_eq hok.high
  · intro op c' hop hstep
    exact (hinv.step hop hstep).2

end

theorem exec_makestrspace {base n newlen p : ℕ} {c : Conf} {h : Heap} {s : Stack}
    (hn : (p - c.stack.stacknxt + newlen) % 2 ^ 64 = n) (hroom : c.stack.stacknleft < n)
    (hs : c.stack.growstackblock base h n = some s) :
    c.exec base h (.makestrspace newlen p) = some ⟨s, c.marks⟩ := by
  unfold Conf.exec Stack.makestrspace Stack.growstackto
  dsimp only
  rw [hn, if_pos hroom, hs]
  rfl

/-- An allocator that answers with one address each. -/
def fixedHeap (sp : ℕ) : Heap := ⟨fun _ => some sp, fun _ => some sp⟩

theorem fixedHeap_fresh {sp : ℕ} {s : Stack} (hs : ∀ b ∈ s.chain, b.span.stop ≤ sp) :
    (fixedHeap sp).Fresh s := by
  refine ⟨?_, ?_⟩
  · intro len sp' hsp b hb
    obtain rfl : sp = sp' := Option.some.inj hsp
    exact Or.inr (hs b hb)
  · intro len sp' hsp b hb
    obtain rfl : sp = sp' := Option.some.inj hsp
    exact Or.inr (hs b (List.mem_cons_of_mem _ hb))

/-- The open string, grown once, begins a block of its own. -/
def ownBlock : Stack :=
  let s := Stack.initial 1000 fun _ => 'x'
  s.moved 1008 (2008, (s.link ⟨2000, 1008⟩).take 1008)

theorem ownBlock_step :
    Step 1000 (Conf.initial 1000 fun _ => 'x') (.makestrspace 600 1008) ⟨ownBlock, []⟩ :=
  ⟨⟨Nat.le_refl 1008, by decide⟩, fixedHeap 2000, fixedHeap_fresh (by decide),
    exec_makestrspace (n := 600) (by decide) (by decide) rfl⟩

/-- A mark that reserves bytes at its start. -/
def reservedMark : Conf := Conf.push ⟨ownBlock, []⟩ (⟨2000, 2008, 1008⟩, ownBlock.take 8)

theorem run_keeps_reserved : InBlock reservedMark.stack ∧ MarksLive reservedMark ∧
    ∀ op c', Sound 1000 reservedMark op → Step 1000 reservedMark op c' →
      Keeps reservedMark op c' := by
  have hsound : Sound 1000 (Conf.initial 1000 fun _ => 'x') (.makestrspace 600 1008) := by
    intro hroom
    change (504 : ℕ) < 2 ^ 31
    decide
  have hmarked : Step 1000 ⟨ownBlock, []⟩ .setstackmark reservedMark :=
    ⟨trivial, fixedHeap 5000, fixedHeap_fresh (by decide), rfl⟩
  have hmark : Sound 1000 ⟨ownBlock, []⟩ .setstackmark := trivial
  exact run_keeps (((Run.initial fun _ => 'x').step hsound ownBlock_step).step hmark hmarked)

/-- A mark of length 0 at its start. -/
def emptyMark : Conf := Conf.push ⟨ownBlock, []⟩ (⟨2000, 2008, 1008⟩, ownBlock.take 0)

def grownAgain : Conf := ⟨emptyMark.stack.realloc 2016 5000, emptyMark.marks⟩

/-- When the string is then grown again, the mark's block is gone, and popping the mark does not
find it. -/
theorem empty_mark_dangles :
    Run 1000 (fun _ _ => True) grownAgain ∧ ¬ MarksLive grownAgain ∧ grownAgain.pop = none := by
  have hmarked : Step 1000 ⟨ownBlock, []⟩ (.pushstackmark 0) emptyMark :=
    ⟨trivial, fixedHeap 5000, fixedHeap_fresh (by decide), rfl⟩
  have hagain : Step 1000 emptyMark (.makestrspace 2000 2008) grownAgain :=
    ⟨⟨Nat.le_refl 2008, by decide⟩, fixedHeap 5000, fixedHeap_fresh (by decide),
      exec_makestrspace (n := 2000) (by decide) (by decide) rfl⟩
  have hrun : Run 1000 (fun _ _ => True) ⟨ownBlock, []⟩ :=
    (Run.initial fun _ => 'x').step trivial ownBlock_step
  refine ⟨(hrun.step trivial hmarked).step trivial hagain, ?_, rfl⟩
  intro hlive
  have hchain := hlive _ (List.mem_cons_self ..)
  revert hchain
  decide

end Bootsh.Memalloc
