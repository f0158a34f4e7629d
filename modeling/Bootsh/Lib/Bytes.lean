import Mathlib.Tactic.Common
import Mathlib.Algebra.Order.Ring.Nat

/-!
Unsigned integers of a fixed number of bytes, in either byte order.
-/
namespace Bytes

/-- The bytes of a number, the lowest first. -/
def digits : ℕ → ℕ → List UInt8
  | 0, _ => []
  | width + 1, n => UInt8.ofNat n :: digits width (n / 256)

/-- The number some bytes denote, the lowest first. -/
def value : List UInt8 → ℕ
  | [] => 0
  | b :: bs => b.toNat + 256 * value bs

@[simp] theorem length_digits (width n : ℕ) : (digits width n).length = width := by
  induction width generalizing n with
  | zero => rfl
  | succ width ih => rw [digits, List.length_cons, ih]

theorem value_lt (bs : List UInt8) : value bs < 256 ^ bs.length := by
  induction bs with
  | nil => exact Nat.one_pos
  | cons b bs ih =>
    have hb : b.toNat < 256 := b.toNat_lt
    rw [value, List.length_cons, Nat.pow_succ]
    omega

/-- What is written in too few bytes is cut. -/
theorem value_digits (width n : ℕ) : value (digits width n) = n % 256 ^ width := by
  induction width generalizing n with
  | zero => rw [digits, value, Nat.pow_zero, Nat.mod_one]
  | succ width ih =>
    have hb : (UInt8.ofNat n).toNat = n % 256 := UInt8.toNat_ofNat'
    rw [digits, value, hb, ih, Nat.pow_succ, Nat.mul_comm (256 ^ width), Nat.mod_mul]

theorem digits_value (bs : List UInt8) : digits bs.length (value bs) = bs := by
  induction bs with
  | nil => rfl
  | cons b bs ih =>
    have hb : b.toNat < 256 := b.toNat_lt
    have hlow : UInt8.ofNat (b.toNat + 256 * value bs) = b := by
      apply UInt8.toNat_inj.mp
      rw [UInt8.toNat_ofNat']
      show (b.toNat + 256 * value bs) % 256 = b.toNat
      omega
    have hhigh : (b.toNat + 256 * value bs) / 256 = value bs := by omega
    rw [List.length_cons, value, digits, hlow, hhigh, ih]

inductive Order
  | little
  | big
  deriving DecidableEq, Repr

namespace Order

def encode (width n : ℕ) : Order → List UInt8
  | little => digits width n
  | big => (digits width n).reverse

def decode (bs : List UInt8) : Order → ℕ
  | little => value bs
  | big => value bs.reverse

variable (o : Order)

@[simp] theorem length_encode (width n : ℕ) : (o.encode width n).length = width := by
  cases o with
  | little => exact length_digits width n
  | big => rw [encode, List.length_reverse, length_digits]

theorem decode_lt (bs : List UInt8) : o.decode bs < 256 ^ bs.length := by
  cases o with
  | little => exact value_lt bs
  | big =>
    have h := value_lt bs.reverse
    rwa [List.length_reverse] at h

theorem decode_encode (width n : ℕ) : o.decode (o.encode width n) = n % 256 ^ width := by
  cases o with
  | little => exact value_digits width n
  | big => rw [encode, decode, List.reverse_reverse, value_digits]

theorem encode_decode (bs : List UInt8) : o.encode bs.length (o.decode bs) = bs := by
  cases o with
  | little => exact digits_value bs
  | big =>
    have h := digits_value bs.reverse
    rw [List.length_reverse] at h
    rw [decode, encode, h, List.reverse_reverse]

theorem encode_injective {width n m : ℕ} (hn : n < 256 ^ width) (hm : m < 256 ^ width)
    (h : o.encode width n = o.encode width m) : n = m := by
  have heq := congrArg o.decode h
  rwa [decode_encode, decode_encode, Nat.mod_eq_of_lt hn, Nat.mod_eq_of_lt hm] at heq

/-- Some numbers, one behind the other. -/
def encodeAll (width : ℕ) (ns : List ℕ) : List UInt8 := ns.flatMap (o.encode width)

@[simp] theorem length_encodeAll (width : ℕ) (ns : List ℕ) :
    (o.encodeAll width ns).length = width * ns.length := by
  induction ns with
  | nil => rfl
  | cons n ns ih =>
    show (o.encode width n ++ o.encodeAll width ns).length = width * (ns.length + 1)
    rw [List.length_append, length_encode, ih, Nat.mul_succ, Nat.add_comm]

theorem encodeAll_cons (width n : ℕ) (ns : List ℕ) :
    o.encodeAll width (n :: ns) = o.encode width n ++ o.encodeAll width ns := rfl

theorem encodeAll_append (width : ℕ) (ns ms : List ℕ) :
    o.encodeAll width (ns ++ ms) = o.encodeAll width ns ++ o.encodeAll width ms :=
  List.flatMap_append

/-- The number at a place is at a multiple of the width. -/
theorem take_drop_encodeAll {width i : ℕ} {ns : List ℕ} (hi : i < ns.length) :
    ((o.encodeAll width ns).drop (width * i)).take width = o.encode width ns[i] := by
  induction ns generalizing i with
  | nil => exact absurd hi (Nat.not_lt_zero i)
  | cons n ns ih =>
    rw [encodeAll_cons]
    cases i with
    | zero =>
      rw [Nat.mul_zero, List.drop_zero, List.take_left' (length_encode o width n)]
      rfl
    | succ i =>
      have hlen : width * (i + 1) = (o.encode width n).length + width * i := by
        rw [length_encode, Nat.mul_succ, Nat.add_comm]
      rw [hlen, List.drop_length_add_append, ih (Nat.lt_of_succ_lt_succ hi)]
      rfl

/-- Bytes of the right number denote numbers. -/
theorem exists_encodeAll (width : ℕ) {k : ℕ} {bs : List UInt8} (h : bs.length = width * k) :
    ∃ ns : List ℕ, ns.length = k ∧ (∀ n ∈ ns, n < 256 ^ width) ∧ bs = o.encodeAll width ns := by
  induction k generalizing bs with
  | zero => exact ⟨[], rfl, by simp, List.length_eq_zero_iff.mp h⟩
  | succ k ih =>
    have htake : (bs.take width).length = width := by
      rw [List.length_take, h, Nat.mul_succ]
      omega
    have hdrop : (bs.drop width).length = width * k := by
      rw [List.length_drop, h, Nat.mul_succ]
      omega
    obtain ⟨ns, hlen, hlt, hns⟩ := ih hdrop
    have hhead := o.encode_decode (bs.take width)
    have hbound := o.decode_lt (bs.take width)
    rw [htake] at hhead hbound
    refine ⟨o.decode (bs.take width) :: ns, by rw [List.length_cons, hlen], ?_, ?_⟩
    · intro n hn
      rcases List.mem_cons.mp hn with rfl | hn
      · exact hbound
      · exact hlt n hn
    · rw [encodeAll_cons, hhead, ← hns, List.take_append_drop]

theorem encodeAll_injective {width : ℕ} (hwidth : 0 < width) {ns ms : List ℕ}
    (hn : ∀ n ∈ ns, n < 256 ^ width) (hm : ∀ m ∈ ms, m < 256 ^ width)
    (h : o.encodeAll width ns = o.encodeAll width ms) : ns = ms := by
  have hlen : ns.length = ms.length := by
    have hlen := congrArg List.length h
    rw [length_encodeAll, length_encodeAll] at hlen
    exact Nat.eq_of_mul_eq_mul_left hwidth hlen
  apply List.ext_getElem hlen
  intro i hi hi'
  apply o.encode_injective (hn _ (List.getElem_mem hi)) (hm _ (List.getElem_mem hi'))
  rw [← o.take_drop_encodeAll hi, ← o.take_drop_encodeAll hi', h]

end Order

end Bytes
