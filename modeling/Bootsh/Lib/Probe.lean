import Mathlib.Data.List.GetD
import Mathlib.Data.List.Nodup
import Mathlib.Data.List.Perm.Basic
import Mathlib.Tactic.Common

/-!
Hash tables with open addressing: a key stands in the first slot that was free, from its home on
and around the end. No key is ever removed.
-/
namespace Probe

open scoped List

variable {K V : Type*}

abbrev Slots (K V : Type*) := List (Option (K × V))

def Slots.at (t : Slots K V) (i : ℕ) : Option (K × V) := t.getD i none

def Slots.entries (t : Slots K V) : List (K × V) := t.filterMap id

def Slots.keys (t : Slots K V) : List K := t.entries.map Prod.fst

/-! ### Slots -/

section

variable {t : Slots K V} {i j : ℕ} {p : K × V}

theorem at_set (hi : i < t.length) (s : Option (K × V)) :
    Slots.at (t.set i s) j = if j = i then s else t.at j := by
  unfold Slots.at
  rw [List.getD_eq_getElem?_getD, List.getD_eq_getElem?_getD, List.getElem?_set]
  by_cases hj : j = i
  · subst hj
    simp [hi]
  · simp [Ne.symm hj, hj]

theorem mem_entries : p ∈ t.entries ↔ ∃ i, t.at i = some p := by
  unfold Slots.entries Slots.at
  rw [List.mem_filterMap]
  constructor
  · rintro ⟨s, hs, rfl⟩
    obtain ⟨i, hi⟩ := List.mem_iff_getElem?.mp hs
    exact ⟨i, by simp [List.getD_eq_getElem?_getD, hi]⟩
  · rintro ⟨i, hi⟩
    rw [List.getD_eq_getElem?_getD] at hi
    cases hs : t[i]? with
    | none => simp [hs] at hi
    | some s =>
      rw [hs] at hi
      exact ⟨s, List.mem_of_getElem? hs, hi⟩

theorem at_lt (h : t.at i = some p) : i < t.length := by
  by_contra hi
  have hnone : t.at i = none := List.getD_eq_default _ _ (Nat.le_of_not_lt hi)
  rw [hnone] at h
  cases h

/-- A slot that was free takes an entry. -/
theorem entries_set (hi : i < t.length) (h : t.at i = none) :
    Slots.entries (t.set i (some p)) ~ p :: t.entries := by
  have hnone : t[i] = none := by
    rw [← h, Slots.at, List.getD_eq_getElem _ _ hi]
  have hsplit : t.entries = Slots.entries (t.take i) ++ Slots.entries (t.drop (i + 1)) := by
    unfold Slots.entries
    conv_lhs => rw [← List.take_append_drop i t, List.drop_eq_getElem_cons hi, hnone]
    rw [List.filterMap_append]
    rfl
  rw [List.set_eq_take_append_cons_drop, if_pos hi, hsplit]
  unfold Slots.entries
  rw [List.filterMap_append]
  exact List.perm_middle

/-- When there are fewer entries than slots, one is free. -/
theorem exists_free (h : t.entries.length < t.length) : ∃ i < t.length, t.at i = none := by
  obtain ⟨s, hs, hnone⟩ := List.length_filterMap_lt_length_iff_exists.mp h
  obtain ⟨i, hi, rfl⟩ := List.mem_iff_getElem.mp hs
  exact ⟨i, hi, (List.getD_eq_getElem _ _ hi).trans hnone⟩

/-- A key that stands once among the entries stands in one slot. -/
theorem slot_unique {q : K × V} (h : t.keys.Nodup) (hp : t.at i = some p) (hq : t.at j = some q)
    (heq : p.1 = q.1) : i = j := by
  unfold Slots.keys Slots.entries at h
  rw [List.Nodup, List.pairwise_map, List.pairwise_filterMap, List.pairwise_iff_getElem] at h
  have hi := at_lt hp
  have hj := at_lt hq
  rw [Slots.at, List.getD_eq_getElem _ _ hi] at hp
  rw [Slots.at, List.getD_eq_getElem _ _ hj] at hq
  rcases Nat.lt_trichotomy i j with hlt | heq' | hlt
  · exact absurd heq (h i j hi hj hlt p hp q hq)
  · exact heq'
  · exact absurd heq.symm (h j i hj hi hlt q hq p hp)

end

/-! ### Tables -/

section

variable (home : K → ℕ)

/-- No slot between the home of a key and its slot is free. -/
def Reached (t : Slots K V) (k : K) (i : ℕ) : Prop :=
  ∃ d < t.length, i = (home k + d) % t.length ∧ ∀ d' < d, t.at ((home k + d') % t.length) ≠ none

structure Valid (t : Slots K V) : Prop where
  once : t.keys.Nodup
  reached : ∀ i p, t.at i = some p → Reached home t p.1 i

variable {home} {t : Slots K V} {k : K} {v : V} {i j : ℕ}

theorem Valid.empty (n : ℕ) : Valid home (List.replicate n none : Slots K V) := by
  constructor
  · simp [Slots.keys, Slots.entries]
  · intro i p hp
    have hmem := mem_entries.mpr ⟨i, hp⟩
    simp [Slots.entries] at hmem

theorem entries_replicate (n : ℕ) :
    Slots.entries (List.replicate n none : Slots K V) = [] := by
  simp [Slots.entries]

theorem Reached.set (h : Reached home t k i) (hj : j < t.length) (p : K × V) :
    Reached home (t.set j (some p)) k i := by
  obtain ⟨d, hd, hi, hbetween⟩ := h
  refine ⟨d, by rwa [List.length_set], by rw [List.length_set]; exact hi, fun d' hd' => ?_⟩
  rw [List.length_set, at_set hj]
  split
  · exact Option.some_ne_none p
  · exact hbetween d' hd'

/-- A new key in the slot that was found for it. -/
theorem Valid.insert (h : Valid home t) (hj : j < t.length) (hat : t.at j = none)
    (hk : k ∉ t.keys) (hreached : Reached home t k j) (v : V) :
    Valid home (t.set j (some (k, v))) := by
  constructor
  · have hperm := (entries_set (p := (k, v)) hj hat).map Prod.fst
    exact hperm.nodup_iff.mpr (List.nodup_cons.mpr ⟨hk, h.once⟩)
  · intro i p hp
    rw [at_set hj] at hp
    split at hp
    case isTrue hi =>
      cases hp
      subst hi
      exact hreached.set hj _
    case isFalse => exact (h.reached i p hp).set hj _

/-- A new value for a key. -/
theorem entries_assign {v' : V} (hj : j < t.length) (hat : t.at j = some (k, v)) :
    ∃ l r, t.entries = l ++ (k, v) :: r ∧
      Slots.entries (t.set j (some (k, v'))) = l ++ (k, v') :: r := by
  have hget : t[j] = some (k, v) := by rw [← hat, Slots.at, List.getD_eq_getElem _ _ hj]
  refine ⟨Slots.entries (t.take j), Slots.entries (t.drop (j + 1)), ?_, ?_⟩
  · unfold Slots.entries
    conv_lhs => rw [← List.take_append_drop j t, List.drop_eq_getElem_cons hj, hget]
    rw [List.filterMap_append]
    rfl
  · rw [List.set_eq_take_append_cons_drop, if_pos hj]
    unfold Slots.entries
    rw [List.filterMap_append]
    rfl

theorem Valid.assign {v' : V} (h : Valid home t) (hj : j < t.length)
    (hat : t.at j = some (k, v)) : Valid home (t.set j (some (k, v'))) := by
  obtain ⟨l, r, hold, hnew⟩ := @entries_assign K V t k v j v' hj hat
  constructor
  · have honce := h.once
    unfold Slots.keys at honce ⊢
    rw [hold] at honce
    rw [hnew]
    simpa using honce
  · intro i p hp
    rw [at_set hj] at hp
    split at hp
    case isTrue hi =>
      cases hp
      subst hi
      exact (h.reached _ _ hat).set hj _
    case isFalse => exact (h.reached i p hp).set hj _

end

/-! ### The probe -/

variable [DecidableEq K]

/-- From slot `i` on, the first one that is free or has the key. -/
def probe (t : Slots K V) (k : K) : ℕ → ℕ → Option ℕ
  | 0, _ => none
  | fuel + 1, i =>
    match t.at i with
    | none => some i
    | some p => if p.1 = k then some i else probe t k fuel ((i + 1) % t.length)

section

variable {t : Slots K V} {k : K} {fuel i j : ℕ}

/-- The slot has an entry with another key. -/
def Passed (t : Slots K V) (k : K) (i : ℕ) : Prop := ∃ p, t.at i = some p ∧ p.1 ≠ k

theorem probe_eq_some (hi : i < t.length) (h : probe t k fuel i = some j) :
    ∃ d < fuel, j = (i + d) % t.length ∧ ¬ Passed t k j ∧
      ∀ d' < d, Passed t k ((i + d') % t.length) := by
  induction fuel generalizing i with
  | zero => cases h
  | succ fuel ih =>
    rw [probe] at h
    split at h
    case h_1 hnone =>
      cases h
      refine ⟨0, Nat.succ_pos _, (Nat.mod_eq_of_lt hi).symm, ?_, by simp⟩
      rintro ⟨p, hp, -⟩
      rw [hnone] at hp
      cases hp
    case h_2 p hp =>
      split at h
      case isTrue hk =>
        cases h
        refine ⟨0, Nat.succ_pos _, (Nat.mod_eq_of_lt hi).symm, ?_, by simp⟩
        rintro ⟨q, hq, hne⟩
        rw [hp] at hq
        cases hq
        exact hne hk
      case isFalse hk =>
        obtain ⟨d, hd, hj, hnot, hpassed⟩ := ih (Nat.mod_lt _ (Nat.zero_lt_of_lt hi)) h
        refine ⟨d + 1, Nat.succ_lt_succ hd, ?_, hnot, ?_⟩
        · rw [hj, Nat.mod_add_mod]
          congr 1
          omega
        · intro d' hd'
          cases d' with
          | zero =>
            rw [Nat.add_zero, Nat.mod_eq_of_lt hi]
            exact ⟨p, hp, hk⟩
          | succ d' =>
            have := hpassed d' (Nat.lt_of_succ_lt_succ hd')
            rw [Nat.mod_add_mod] at this
            convert this using 2
            omega

theorem probe_eq_none (hi : i < t.length) (h : probe t k fuel i = none) :
    ∀ d < fuel, Passed t k ((i + d) % t.length) := by
  induction fuel generalizing i with
  | zero => simp
  | succ fuel ih =>
    rw [probe] at h
    split at h
    case h_1 => cases h
    case h_2 p hp =>
      split at h
      case isTrue => cases h
      case isFalse hk =>
        have hrest := ih (Nat.mod_lt _ (Nat.zero_lt_of_lt hi)) h
        intro d hd
        cases d with
        | zero =>
          rw [Nat.add_zero, Nat.mod_eq_of_lt hi]
          exact ⟨p, hp, hk⟩
        | succ d =>
          have := hrest d (Nat.lt_of_succ_lt_succ hd)
          rw [Nat.mod_add_mod] at this
          convert this using 2
          omega

/-- As many steps as there are slots end at a free one. -/
theorem probe_ends (hi : i < t.length) (hfree : t.entries.length < t.length) :
    ∃ j, probe t k t.length i = some j := by
  cases h : probe t k t.length i with
  | some j => exact ⟨j, rfl⟩
  | none =>
    obtain ⟨f, hf, hnone⟩ := exists_free hfree
    -- the free slot is on the way
    have hpassed : Passed t k f := by
      have hway : (i + (f + t.length - i) % t.length) % t.length = f := by
        rw [Nat.add_mod_mod, show i + (f + t.length - i) = f + t.length by omega,
          Nat.add_mod_right, Nat.mod_eq_of_lt hf]
      have := probe_eq_none hi h _ (Nat.mod_lt (f + t.length - i) (Nat.zero_lt_of_lt hi))
      rwa [hway] at this
    obtain ⟨p, hp, -⟩ := hpassed
    rw [hnone] at hp
    cases hp

end

section

variable (home : K → ℕ)

/-- The slot where a key stands, or where it is to be put. -/
def index (t : Slots K V) (k : K) : Option ℕ := probe t k t.length (home k % t.length)

variable {home} {t : Slots K V}

/-- The slot that is found has the key, or else it is free and no slot has it. -/
theorem index_spec (h : Valid home t) (hfree : t.entries.length < t.length) (k : K) :
    ∃ j < t.length, index home t k = some j ∧
      ((∃ v, t.at j = some (k, v)) ∨ t.at j = none ∧ k ∉ t.keys ∧ Reached home t k j) := by
  have hpos : 0 < t.length := Nat.zero_lt_of_lt hfree
  have hstart := Nat.mod_lt (home k) hpos
  obtain ⟨j, hj⟩ := @probe_ends K V _ t k _ hstart hfree
  obtain ⟨d, hd, hjd, hnot, hpassed⟩ := probe_eq_some hstart hj
  simp only [Nat.mod_add_mod] at hjd hpassed
  refine ⟨j, hjd ▸ Nat.mod_lt _ hpos, hj, ?_⟩
  cases hat : t.at j with
  | some p =>
    refine .inl ⟨p.2, ?_⟩
    have hk : p.1 = k := by
      by_contra hne
      exact hnot ⟨p, hat, hne⟩
    rw [← hk]
  | none =>
    refine .inr ⟨rfl, fun hmem => ?_, d, hd, hjd, fun d' hd' hnone => ?_⟩
    · -- the slot of the key would lie behind the free one
      obtain ⟨⟨k', v⟩, hp, rfl⟩ := List.mem_map.mp hmem
      obtain ⟨i, hi⟩ := mem_entries.mp hp
      obtain ⟨e, -, hie, hbetween⟩ := h.reached i _ hi
      rcases Nat.lt_trichotomy d e with hlt | rfl | hlt
      · exact hbetween d hlt (hjd ▸ hat)
      · rw [hie, ← hjd, hat] at hi
        cases hi
      · obtain ⟨q, hq, hne⟩ := hpassed e hlt
        rw [← hie, hi] at hq
        cases hq
        exact hne rfl
    · obtain ⟨p, hp, -⟩ := hpassed d' hd'
      rw [hnone] at hp
      cases hp

/-! ### Growth -/

/-- The entries of the slots are put into the table one by one. -/
def rehash (home : K → ℕ) : List (Option (K × V)) → Slots K V → Option (Slots K V)
  | [], t => some t
  | none :: l, t => rehash home l t
  | some p :: l, t => (index home t p.1).bind fun j => rehash home l (t.set j (some p))

/-- Nothing is lost or doubled when the entries go to a table that has room for them. -/
theorem rehash_spec {l : List (Option (K × V))} (h : Valid home t)
    (honce : (t.keys ++ Slots.keys l).Nodup)
    (hroom : t.entries.length + (Slots.entries l).length < t.length) :
    ∃ t', rehash home l t = some t' ∧ Valid home t' ∧ t'.length = t.length ∧
      t'.entries ~ t.entries ++ Slots.entries l := by
  induction l generalizing t with
  | nil => exact ⟨t, rfl, h, rfl, by simp [Slots.entries]⟩
  | cons s l ih =>
    cases s with
    | none => exact ih h honce hroom
    | some p =>
      have hentries : Slots.entries (some p :: l) = p :: Slots.entries l := rfl
      have hkeys : Slots.keys (some p :: l) = p.1 :: Slots.keys l := rfl
      rw [hentries, List.length_cons] at hroom
      obtain ⟨j, hj, hindex, hfound⟩ := index_spec h (by omega) p.1
      rw [hkeys, List.nodup_middle, List.nodup_cons, List.mem_append, not_or] at honce
      obtain ⟨⟨hnew, hnew'⟩, honce⟩ := honce
      rcases hfound with ⟨v, hat⟩ | ⟨hat, -, hreached⟩
      · exact absurd (List.mem_map_of_mem (mem_entries.mpr ⟨j, hat⟩)) hnew
      · have hperm := entries_set (p := p) hj hat
        have hlen := hperm.length_eq
        rw [List.length_cons] at hlen
        have honce' : (Slots.keys (t.set j (some p)) ++ Slots.keys l).Nodup := by
          refine ((hperm.map Prod.fst).append_right _).nodup_iff.mpr ?_
          exact List.nodup_cons.mpr ⟨fun hmem => (List.mem_append.mp hmem).elim hnew hnew', honce⟩
        have hinsert : Valid home (t.set j (some p)) := h.insert hj hat hnew hreached p.2
        obtain ⟨t', ht', hvalid, hlength, hrest⟩ :=
          ih hinsert honce' (by rw [List.length_set]; omega)
        refine ⟨t', ?_, hvalid, hlength.trans (List.length_set ..), hrest.trans ?_⟩
        · rw [rehash, hindex]
          exact ht'
        · exact (hperm.append_right _).trans List.perm_middle.symm

end

end Probe
