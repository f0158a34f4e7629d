import Mathlib.Tactic.Common
import Mathlib.Data.List.Nodup
import Mathlib.Data.List.FinRange

/-!
Hash tables with separate chaining. An entry that is not found is added at the end
of its chain.
-/

namespace Chain

variable {K V : Type*} [DecidableEq K]

def find (k : K) : List (K × V) → Option V
  | [] => none
  | p :: l => if p.1 = k then some p.2 else find k l

def put (k : K) (v : V) : List (K × V) → List (K × V)
  | [] => [(k, v)]
  | p :: l => if p.1 = k then (k, v) :: l else p :: put k v l

def erase (k : K) : List (K × V) → List (K × V)
  | [] => []
  | p :: l => if p.1 = k then l else p :: erase k l

def keys (l : List (K × V)) : List K := l.map Prod.fst

section
omit [DecidableEq K]

@[simp] theorem keys_nil : keys ([] : List (K × V)) = [] := rfl

@[simp] theorem keys_cons (p : K × V) (l : List (K × V)) : keys (p :: l) = p.1 :: keys l := rfl

end

variable {k k' : K} {v : V} {l : List (K × V)}

@[simp] theorem find_put : find k' (put k v l) = if k' = k then some v else find k' l := by
  induction l with
  | nil => simp [put, find, eq_comm]
  | cons p l ih =>
    rw [put]
    split_ifs with hp hk hk
    · simp [find, hk]
    · have hne : ¬ k = k' := fun h => hk h.symm
      simp [find, hp, hne]
    · subst hk
      rw [find, if_neg hp, ih, if_pos rfl]
    · rw [find, ih, if_neg hk, find]

theorem keys_put : keys (put k v l) = if k ∈ keys l then keys l else keys l ++ [k] := by
  induction l with
  | nil => rfl
  | cons p l ih =>
    rw [put]
    split_ifs with hp hk hk
    · simp [hp]
    · simp [hp] at hk
    · have hmem : k ∈ keys l := (List.mem_cons.1 hk).resolve_left fun h => hp h.symm
      rw [keys_cons, ih, if_pos hmem, keys_cons]
    · have hmem : k ∉ keys l := fun h => hk (List.mem_cons_of_mem _ h)
      rw [keys_cons, ih, if_neg hmem, keys_cons, List.cons_append]

theorem find_eq_none : find k l = none ↔ k ∉ keys l := by
  induction l with
  | nil => simp [find]
  | cons p l ih =>
    by_cases hp : p.1 = k
    · simp [find, hp]
    · have hk : k ≠ p.1 := fun h => hp h.symm
      simpa [find, hp, hk] using ih

theorem keys_erase : keys (erase k l) = (keys l).erase k := by
  induction l with
  | nil => rfl
  | cons p l ih => by_cases hp : p.1 = k <;> simp [erase, hp, ih]

theorem find_erase (h : (keys l).Nodup) :
    find k' (erase k l) = if k' = k then none else find k' l := by
  induction l with
  | nil => simp [erase, find]
  | cons p l ih =>
    obtain ⟨hp, hl⟩ := List.nodup_cons.1 h
    rw [erase]
    split_ifs with hpk hk hk
    · exact find_eq_none.2 (by rwa [hk, ← hpk])
    · rw [find, if_neg fun h => hk (h.symm.trans hpk)]
    · rw [find, if_neg fun h => hpk (h.trans hk), ih hl, if_pos hk]
    · rw [find, ih hl, if_neg hk, find]

theorem mem_iff_find (h : (keys l).Nodup) : (k, v) ∈ l ↔ find k l = some v := by
  induction l with
  | nil => simp [find]
  | cons p l ih =>
    obtain ⟨hp, hl⟩ := List.nodup_cons.1 h
    rw [List.mem_cons, ih hl]
    by_cases hpk : p.1 = k
    · have hnone : find k l = none := find_eq_none.2 (hpk ▸ hp)
      simp [find, hpk, hnone, Prod.ext_iff, eq_comm]
    · have hne : ¬ k = p.1 := fun h => hpk h.symm
      simp [find, hpk, hne, Prod.ext_iff]

/-- Apply `f` to every entry; an entry without a result is removed. -/
def update (f : K → V → Option V) : List (K × V) → List (K × V)
  | [] => []
  | p :: l => match f p.1 p.2 with
    | none => update f l
    | some v => (p.1, v) :: update f l

omit [DecidableEq K] in
theorem keys_update_sublist (f : K → V → Option V) : (keys (update f l)).Sublist (keys l) := by
  induction l with
  | nil => exact List.Sublist.refl _
  | cons p l ih =>
    rw [update]
    split
    · exact ih.cons p.1
    · exact ih.cons_cons p.1

theorem find_update (f : K → V → Option V) (h : (keys l).Nodup) :
    find k (update f l) = (find k l).bind (f k) := by
  induction l with
  | nil => rfl
  | cons p l ih =>
    obtain ⟨hp, hl⟩ := List.nodup_cons.1 h
    have ih := ih hl
    rw [update, find]
    split
    case h_1 hf =>
      rw [ih]
      split_ifs with hpk
      · subst hpk
        rw [find_eq_none.2 hp, Option.bind_some, hf, Option.bind_none]
      · rfl
    case h_2 v hf =>
      rw [find]
      split_ifs with hpk
      · subst hpk
        exact hf.symm
      · exact ih

end Chain

/-- `n` chains; every entry is in the chain of its key, and no key has two. -/
structure HashTable (K V : Type*) (n : ℕ) (hash : K → Fin n) where
  chain : Fin n → List (K × V)
  hashed : ∀ i, ∀ p ∈ chain i, hash p.1 = i
  nodup : ∀ i, (Chain.keys (chain i)).Nodup

namespace HashTable

variable {K V : Type*} [DecidableEq K] {n : ℕ} {hash : K → Fin n}

def empty : HashTable K V n hash where
  chain _ := []
  hashed := by simp
  nodup _ := List.nodup_nil

def find (t : HashTable K V n hash) (k : K) : Option V := Chain.find k (t.chain (hash k))

/-- Replace the chain of `k` by one with no other key than its own and `k`. -/
def setChain (t : HashTable K V n hash) (k : K) (l : List (K × V))
    (hmem : ∀ j ∈ Chain.keys l, j = k ∨ j ∈ Chain.keys (t.chain (hash k)))
    (hnodup : (Chain.keys l).Nodup) : HashTable K V n hash where
  chain := Function.update t.chain (hash k) l
  hashed := by
    intro i p hp
    by_cases hi : i = hash k
    · subst hi
      rw [Function.update_self] at hp
      rcases hmem p.1 (List.mem_map_of_mem hp) with h | h
      · rw [h]
      · obtain ⟨q, hq, heq⟩ := List.mem_map.1 h
        rw [← heq]
        exact t.hashed _ q hq
    · rw [Function.update_of_ne hi] at hp
      exact t.hashed i p hp
  nodup := by
    intro i
    by_cases hi : i = hash k
    · subst hi
      rwa [Function.update_self]
    · rw [Function.update_of_ne hi]
      exact t.nodup i

def put (t : HashTable K V n hash) (k : K) (v : V) : HashTable K V n hash :=
  t.setChain k (Chain.put k v (t.chain (hash k)))
    (by
      intro j hj
      rw [Chain.keys_put] at hj
      split_ifs at hj
      · exact .inr hj
      · rcases List.mem_append.1 hj with h | h
        · exact .inr h
        · exact .inl (List.mem_singleton.1 h))
    (by
      rw [Chain.keys_put]
      split_ifs with hk
      · exact t.nodup _
      · refine List.nodup_append.2 ⟨t.nodup _, List.nodup_singleton k, ?_⟩
        rintro a ha b hb rfl
        exact hk (List.mem_singleton.1 hb ▸ ha))

def erase (t : HashTable K V n hash) (k : K) : HashTable K V n hash :=
  t.setChain k (Chain.erase k (t.chain (hash k)))
    (by
      intro j hj
      rw [Chain.keys_erase] at hj
      exact .inr (List.mem_of_mem_erase hj))
    (by
      rw [Chain.keys_erase]
      exact (t.nodup _).erase k)

/-- Apply `f` to every entry; an entry without a result is removed. -/
def update (t : HashTable K V n hash) (f : K → V → Option V) : HashTable K V n hash where
  chain i := Chain.update f (t.chain i)
  hashed := by
    intro i p hp
    have hk := (Chain.keys_update_sublist f).subset (List.mem_map_of_mem hp)
    obtain ⟨q, hq, heq⟩ := List.mem_map.1 hk
    rw [← heq]
    exact t.hashed i q hq
  nodup i := (t.nodup i).sublist (Chain.keys_update_sublist f)

/-- The entries, chain by chain. -/
def entries (t : HashTable K V n hash) : List (K × V) := (List.finRange n).flatMap t.chain

variable {t : HashTable K V n hash} {k k' : K} {v : V}

@[simp] theorem find_empty (k : K) : (empty : HashTable K V n hash).find k = none := rfl

@[simp] theorem find_put : (t.put k v).find k' = if k' = k then some v else t.find k' := by
  unfold find put setChain
  dsimp only
  by_cases hh : hash k' = hash k
  · rw [hh, Function.update_self, Chain.find_put]
  · have hk : k' ≠ k := fun h => hh (h ▸ rfl)
    rw [Function.update_of_ne hh, if_neg hk]

@[simp] theorem find_erase : (t.erase k).find k' = if k' = k then none else t.find k' := by
  unfold find erase setChain
  dsimp only
  by_cases hh : hash k' = hash k
  · rw [hh, Function.update_self, Chain.find_erase (t.nodup _)]
  · have hk : k' ≠ k := fun h => hh (h ▸ rfl)
    rw [Function.update_of_ne hh, if_neg hk]

@[simp] theorem find_update (f : K → V → Option V) : (t.update f).find k = (t.find k).bind (f k) :=
  Chain.find_update f (t.nodup _)

theorem mem_entries : (k, v) ∈ t.entries ↔ t.find k = some v := by
  unfold entries find
  rw [← Chain.mem_iff_find (t.nodup _)]
  simp only [List.mem_flatMap, List.mem_finRange, true_and]
  constructor
  · rintro ⟨i, hi⟩
    rw [t.hashed i _ hi]
    exact hi
  · intro h
    exact ⟨_, h⟩

omit [DecidableEq K] in
/-- No key has two entries. -/
theorem nodup_entries : (t.entries.map Prod.fst).Nodup := by
  unfold entries
  rw [List.map_flatMap]
  refine List.nodup_flatMap.2 ⟨fun i _ => t.nodup i, ?_⟩
  refine (List.nodup_finRange n).imp ?_
  intro i j hij k hi hj
  obtain ⟨p, hp, rfl⟩ := List.mem_map.1 hi
  obtain ⟨q, hq, heq⟩ := List.mem_map.1 hj
  exact hij (by rw [← t.hashed i p hp, ← t.hashed j q hq, heq])

end HashTable
