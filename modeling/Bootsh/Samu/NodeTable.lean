import Mathlib.Logic.Function.Basic
import Bootsh.Lib.Fallible
import Bootsh.Lib.Probe
import Bootsh.Samu.Htab

/-!
The table of all nodes is a finite map from paths to nodes.
-/
namespace Bootsh.Samu.Manifest

open Fallible Probe
open scoped List

/-! ### The probe of the code -/

def Key.home (k : Key) : ℕ := k.hash.toNat

/-- What holds of a table between two calls. -/
structure Hashtable.Valid (h : Hashtable) : Prop where
  cap : ∃ m, h.cap = 2 ^ m
  four : 4 ≤ h.cap
  size : h.cap * 24 < 2 ^ 64
  length : h.slots.length = h.cap
  len : h.len = (Slots.entries h.slots).length
  load : h.len ≤ h.cap / 2 + 1
  valid : Probe.Valid Key.home h.slots

variable {h h' : Hashtable} {k : Key}

theorem keyequal_iff {k1 k2 : Key} : keyequal k1 k2 = true ↔ k1 = k2 := by
  obtain ⟨hash1, str1⟩ := k1
  obtain ⟨hash2, str2⟩ := k2
  unfold keyequal
  by_cases hhash : hash1 = hash2
  · by_cases hstr : str1 = str2
    · simp [hhash, hstr]
    · simp [hstr]
  · simp [hhash]

/-- The result of a probe, which may come to no end. -/
def ended {α : Type} : Option α → Except Stop α
  | none => .error .endless
  | some a => .ok a

theorem keyprobe_eq (hcap : ∃ m, h.cap = 2 ^ m) (hlen : h.slots.length = h.cap) (k : Key)
    (fuel i : ℕ) : keyprobe h k fuel i = ended (probe h.slots k fuel i) := by
  obtain ⟨m, hm⟩ := hcap
  induction fuel generalizing i with
  | zero => rfl
  | succ fuel ih =>
    have hnext : (i + 1) &&& (h.cap - 1) = (i + 1) % h.slots.length := by
      rw [hlen, hm, Nat.and_two_pow_sub_one_eq_mod]
    rw [keyprobe, probe, Slots.at]
    cases h.slots.getD i none with
    | none => rfl
    | some slot =>
      dsimp only
      rw [hnext, ih]
      by_cases hk : slot.1 = k
      · rw [if_pos (keyequal_iff.mpr hk), if_pos hk]
        rfl
      · rw [if_neg fun heq => hk (keyequal_iff.mp heq), if_neg hk]

theorem keyindex_eq (hcap : ∃ m, h.cap = 2 ^ m) (hlen : h.slots.length = h.cap) (k : Key) :
    keyindex h k = ended (index Key.home h.slots k) := by
  rw [keyindex, keyprobe_eq hcap hlen, index, hlen]
  obtain ⟨m, hm⟩ := hcap
  rw [hm, Nat.and_two_pow_sub_one_eq_mod]
  rfl

theorem rehash_eq {old : List (Option (Key × Option ℕ))} (hcap : ∃ m, h.cap = 2 ^ m)
    (hlen : h.slots.length = h.cap) :
    rehash old h =
      ended ((Probe.rehash Key.home old h.slots).map fun slots => { h with slots }) := by
  induction old generalizing h with
  | nil => rfl
  | cons s old ih =>
    cases s with
    | none => exact ih hcap hlen
    | some slot =>
      rw [rehash, keyindex_eq hcap hlen, Probe.rehash]
      cases hindex : index Key.home h.slots slot.1 with
      | none => rfl
      | some j => exact ih hcap (by rw [List.length_set]; exact hlen)

theorem Hashtable.Valid.room (hv : h.Valid) : (Slots.entries h.slots).length < h.slots.length := by
  have hload := hv.load
  have hfour := hv.four
  rw [← hv.len, hv.length]
  omega

/-- Every probe ends, at the slot of the key or at one that is free. -/
theorem keyindex_spec (hv : h.Valid) (k : Key) :
    ∃ j < h.slots.length, keyindex h k = .ok j ∧
      ((∃ v, Slots.at h.slots j = some (k, v)) ∨
        Slots.at h.slots j = none ∧ k ∉ Slots.keys h.slots ∧ Reached Key.home h.slots k j) := by
  obtain ⟨j, hj, hindex, hfound⟩ := index_spec hv.valid hv.room k
  exact ⟨j, hj, by rw [keyindex_eq hv.cap hv.length, hindex]; rfl, hfound⟩

/-! ### htabput and htabget -/

/-- There is no memory left. -/
def OutOfMemory (e : Stop) : Prop := e = .fatal "malloc:" ∨ e = .fatal "reallocarray:"

section

variable (malloc : ℕ → Bool)

theorem xreallocarray_gives (n m : ℕ) (hm : m ≠ 0) :
    Gives OutOfMemory (fun _ => n * m < 2 ^ 64) (xreallocarray malloc n m) := by
  unfold xreallocarray
  split
  case isTrue => exact .inr rfl
  case isFalse hfits =>
    have hle : n ≤ (2 ^ 64 - 1) / m := by
      by_contra hlt
      exact hfits (.inl ⟨hm, Nat.lt_of_not_le hlt⟩)
    have := (Nat.le_div_iff_mul_le (Nat.pos_of_ne_zero hm)).mp hle
    show n * m < 2 ^ 64
    omega

theorem mkslots_gives (cap : ℕ) :
    Gives OutOfMemory (fun slots => slots = List.replicate cap none ∧ cap * 24 < 2 ^ 64)
      (mkslots malloc cap) := by
  refine (xreallocarray_gives malloc cap 24 (by decide)).bind fun _ hfits => ?_
  refine (xreallocarray_gives malloc cap 8 (by decide)).bind fun _ _ => ?_
  exact ⟨rfl, hfits⟩

/-- A table that has grown has the entries of the old one, and is at most half full. -/
theorem grow_gives (hv : h.Valid) :
    Gives OutOfMemory (fun h' => h'.Valid ∧ h'.len ≤ h'.cap / 2 ∧
      Slots.entries h'.slots ~ Slots.entries h.slots) (grow malloc h) := by
  unfold grow
  split
  case isFalse hload => exact ⟨hv, Nat.le_of_not_lt hload, .refl _⟩
  case isTrue hload =>
    have hcap : h.cap * 2 % 2 ^ 64 = h.cap * 2 := by
      have := hv.size
      omega
    rw [hcap]
    refine (mkslots_gives malloc _).bind fun slots hslots => ?_
    obtain ⟨rfl, hsize⟩ := hslots
    have hpow : ∃ m, h.cap * 2 = 2 ^ m := by
      obtain ⟨m, hm⟩ := hv.cap
      exact ⟨m + 1, by rw [hm, Nat.pow_succ]⟩
    have hlen := hv.len
    have hload' := hv.load
    have hfour := hv.four
    have honce : (Slots.keys (List.replicate (h.cap * 2) none : Slots Key (Option ℕ)) ++
        Slots.keys h.slots).Nodup := by
      rw [Slots.keys, entries_replicate]
      exact hv.valid.once
    obtain ⟨t, hrehash, hvalid, hlength, hperm⟩ :=
      rehash_spec (@Valid.empty Key (Option ℕ) Key.home (h.cap * 2)) honce
        (by rw [entries_replicate, List.length_replicate, List.length_nil]; omega)
    rw [entries_replicate, List.nil_append] at hperm
    rw [List.length_replicate] at hlength
    rw [rehash_eq hpow (List.length_replicate ..), hrehash]
    refine ⟨⟨hpow, ?_, hsize, hlength, ?_, ?_, hvalid⟩, ?_, hperm⟩
    · show 4 ≤ h.cap * 2
      omega
    · exact hlen.trans hperm.length_eq.symm
    · show h.len ≤ h.cap * 2 / 2 + 1
      omega
    · show h.len ≤ h.cap * 2 / 2
      omega

/-- What `htabput` gives: the slot of the key, which has its value, or is new and has none. -/
def Put (h : Hashtable) (k : Key) (res : Hashtable × ℕ) : Prop :=
  res.1.Valid ∧ res.2 < res.1.slots.length ∧
    ((∃ v, Slots.at res.1.slots res.2 = some (k, v) ∧ (k, v) ∈ Slots.entries h.slots ∧
      Slots.entries res.1.slots ~ Slots.entries h.slots) ∨
    Slots.at res.1.slots res.2 = some (k, none) ∧ k ∉ Slots.keys h.slots ∧
      Slots.entries res.1.slots ~ (k, none) :: Slots.entries h.slots)

theorem htabput_gives (hv : h.Valid) (k : Key) :
    Gives OutOfMemory (Put h k) (htabput malloc h k) := by
  refine (grow_gives malloc hv).bind fun g hg => ?_
  obtain ⟨hgv, hhalf, hperm⟩ := hg
  obtain ⟨j, hj, hindex, hfound⟩ := keyindex_spec hgv k
  rw [hindex]
  rcases hfound with ⟨v, hat⟩ | ⟨hat, hnew, hreached⟩
  · simp only [bind, Except.bind, show g.slots.getD j none = some (k, v) from hat]
    exact ⟨hgv, hj, .inl ⟨v, hat, hperm.mem_iff.mp (mem_entries.mpr ⟨j, hat⟩), hperm⟩⟩
  · simp only [bind, Except.bind, show g.slots.getD j none = none from hat]
    have hset := entries_set (p := (k, none)) hj hat
    have hset' : Slots.at (g.slots.set j (some (k, none))) j = some (k, none) := by
      rw [at_set hj, if_pos rfl]
    refine ⟨⟨hgv.cap, hgv.four, hgv.size, ?_, ?_, ?_, hgv.valid.insert hj hat hnew hreached none⟩,
      ?_, .inr ⟨hset', ?_, hset.trans (hperm.cons _)⟩⟩
    · exact (List.length_set ..).trans hgv.length
    · have := hset.length_eq
      have := hgv.len
      simp only [List.length_cons] at *
      omega
    · show g.len + 1 ≤ g.cap / 2 + 1
      omega
    · show j < (g.slots.set j (some (k, none))).length
      rwa [List.length_set]
    · intro hmem
      exact hnew ((hperm.map Prod.fst).mem_iff.mpr hmem)

end

theorem val_of_at {i : ℕ} {v : Option ℕ} (hat : Slots.at h.slots i = some (k, v)) :
    h.val i = v := by
  unfold Hashtable.val
  rw [show h.slots.getD i none = some (k, v) from hat]
  rfl

/-- `htabget` gives the value of the key, if it has one. -/
theorem htabget_ok (hv : h.Valid) (k : Key) :
    ∃ val, htabget h k = .ok val ∧
      ((k, val) ∈ Slots.entries h.slots ∨ k ∉ Slots.keys h.slots ∧ val = none) := by
  obtain ⟨j, hj, hindex, hfound⟩ := keyindex_spec hv k
  rw [htabget, hindex]
  refine ⟨h.val j, rfl, ?_⟩
  rcases hfound with ⟨v, hat⟩ | ⟨hat, hnew, -⟩
  · rw [val_of_at hat]
    exact .inl (mem_entries.mpr ⟨j, hat⟩)
  · refine .inr ⟨hnew, ?_⟩
    unfold Hashtable.val
    rw [show h.slots.getD j none = none from hat]
    rfl

/-! ### A finite map of paths -/

/-- The paths that have been put, with their nodes where they have been made, and how many nodes
there are. -/
structure Registry where
  find : Text → Option (Option ℕ)
  next : ℕ

def Registry.empty : Registry := ⟨fun _ => none, 0⟩

/-- What a call finds in the map, and the map behind it. -/
def Registry.call (r : Registry) : TableCall → Option ℕ × Registry
  | .htabput path =>
    match r.find path with
    | some val => (val, r)
    | none => (none, ⟨Function.update r.find path (some none), r.next⟩)
  | .htabget path => ((r.find path).join, r)
  | .mknode path =>
    match (r.find path).join with
    | some n => (some n, r)
    | none => (some r.next, ⟨Function.update r.find path (some (some r.next)), r.next + 1⟩)
  | .nodeget path len => ((r.find (nodename path len)).join, r)

def Registry.run : List TableCall → Registry → List (Option ℕ) × Registry
  | [], r => ([], r)
  | c :: cs, r =>
    let (val, r) := r.call c
    let (vals, r) := Registry.run cs r
    (val :: vals, r)

section

variable (hash : Text → BitVec 64)

/-- The table and the nodes are what the map says. -/
structure Allnodes.Represents (a : Allnodes) (r : Registry) : Prop where
  valid : a.htab.Valid
  keyed : ∀ p ∈ Slots.entries a.htab.slots, p.1 = htabkey hash p.1.str
  found : ∀ path val, (htabkey hash path, val) ∈ Slots.entries a.htab.slots ↔
    r.find path = some val
  count : a.nodes.length = r.next
  nodes : ∀ path n, a.nodes[n]? = some path ↔ r.find path = some (some n)

variable {hash} {a : Allnodes} {r : Registry} {path : Text}

theorem htabkey_inj {path path' : Text} (h : htabkey hash path = htabkey hash path') :
    path = path' := congrArg Key.str h

theorem Allnodes.Represents.notMem (h : a.Represents hash r)
    (hnew : htabkey hash path ∉ Slots.keys a.htab.slots) : r.find path = none := by
  cases hfind : r.find path with
  | none => rfl
  | some val => exact absurd (List.mem_map_of_mem ((h.found path val).mpr hfind)) hnew

/-- A table with the same entries represents the same map. -/
theorem Allnodes.Represents.congr (h : a.Represents hash r) {htab : Hashtable} (hv : htab.Valid)
    (hperm : Slots.entries htab.slots ~ Slots.entries a.htab.slots) :
    Allnodes.Represents hash { a with htab } r :=
  ⟨hv, fun p hp => h.keyed p (hperm.mem_iff.mp hp),
    fun path val => hperm.mem_iff.trans (h.found path val), h.count, h.nodes⟩

/-- The entries when the value of one key changes, or the key is new. -/
theorem found_update {l l' : List (Key × Option ℕ)} {find : Text → Option (Option ℕ)}
    {val : Option ℕ} (hfound : ∀ path val, (htabkey hash path, val) ∈ l ↔ find path = some val)
    (hl' : ∀ p, p ∈ l' ↔ p = (htabkey hash path, val) ∨ p ∈ l ∧ p.1 ≠ htabkey hash path)
    (path' : Text) (val' : Option ℕ) :
    (htabkey hash path', val') ∈ l' ↔ Function.update find path (some val) path' = some val' := by
  rw [hl']
  by_cases hpath : path' = path
  · subst hpath
    rw [Function.update_self]
    simp [eq_comm]
  · have hkey : htabkey hash path' ≠ htabkey hash path := fun heq => hpath (htabkey_inj heq)
    rw [Function.update_of_ne hpath, ← hfound]
    simp [hkey]

theorem Allnodes.Represents.put (malloc : ℕ → Bool) (h : a.Represents hash r) (path : Text) :
    Gives OutOfMemory (fun res : Hashtable × ℕ => res.2 < res.1.slots.length ∧
      ∃ val, Slots.at res.1.slots res.2 = some (htabkey hash path, val) ∧
        val = (r.call (.htabput path)).1 ∧
        Allnodes.Represents hash { a with htab := res.1 } (r.call (.htabput path)).2)
      (htabput malloc a.htab (htabkey hash path)) := by
  refine (htabput_gives malloc h.valid (htabkey hash path)).mono ?_
  rintro ⟨g, i⟩ ⟨hv, hi, ⟨val, hat, hmem, hperm⟩ | ⟨hat, hnew, hperm⟩⟩
  · have hfind := (h.found path val).mp hmem
    refine ⟨hi, val, hat, ?_, ?_⟩
    · rw [Registry.call, hfind]
    · rw [Registry.call, hfind]
      exact h.congr hv hperm
  · have hfind := h.notMem hnew
    refine ⟨hi, none, hat, ?_, ?_⟩
    · rw [Registry.call, hfind]
    · rw [Registry.call, hfind]
      refine ⟨hv, fun p hp => ?_, ?_, h.count, fun path' n => ?_⟩
      · rcases List.mem_cons.mp (hperm.mem_iff.mp hp) with rfl | hp
        · rfl
        · exact h.keyed p hp
      · refine found_update h.found fun p => ?_
        rw [hperm.mem_iff, List.mem_cons]
        refine or_congr_right ⟨fun hp => ⟨hp, fun heq => hnew ?_⟩, And.left⟩
        exact heq ▸ List.mem_map_of_mem hp
      · rw [h.nodes]
        dsimp only
        by_cases hpath : path' = path
        · subst hpath
          simp [hfind]
        · rw [Function.update_of_ne hpath]

theorem Allnodes.Represents.get (h : a.Represents hash r) (path : Text) :
    htabget a.htab (htabkey hash path) = .ok (r.find path).join := by
  obtain ⟨val, hok, hmem | ⟨hnew, rfl⟩⟩ := htabget_ok h.valid (htabkey hash path)
  · rw [hok, (h.found path val).mp hmem]
    rfl
  · rw [hok, h.notMem hnew]
    rfl

theorem modify_eq_set {l : List (Option (Key × Option ℕ))} {i n : ℕ} {k : Key} {val : Option ℕ}
    (hi : i < l.length) (hat : Slots.at l i = some (k, val)) :
    (l.modify i (Option.map fun slot => (slot.1, some n))) = l.set i (some (k, some n)) := by
  have hget : l[i] = some (k, val) := by rw [← hat, Slots.at, List.getD_eq_getElem _ _ hi]
  rw [List.modify_eq_set_getElem?, List.getElem?_eq_getElem hi, hget]
  rfl

theorem getElem?_concat {l : List Text} {n : ℕ} {x y : Text} :
    (l ++ [x])[n]? = some y ↔ l[n]? = some y ∨ n = l.length ∧ x = y := by
  rcases Nat.lt_trichotomy n l.length with hlt | rfl | hlt
  · rw [List.getElem?_append_left hlt]
    simp [Nat.ne_of_lt hlt]
  · simp
  · rw [List.getElem?_eq_none (by simp; omega), List.getElem?_eq_none (by omega)]
    simp
    omega

/-- The node that is made for a path takes its place in the table. -/
theorem Allnodes.Represents.assign (h : a.Represents hash r) {i : ℕ} {val : Option ℕ}
    (hi : i < a.htab.slots.length) (hat : Slots.at a.htab.slots i = some (htabkey hash path, val))
    (hval : val = none) :
    Allnodes.Represents hash
      ⟨{ a.htab with slots := a.htab.slots.set i (some (htabkey hash path, some a.nodes.length)) },
        a.nodes ++ [path]⟩
      ⟨Function.update r.find path (some (some r.next)), r.next + 1⟩ := by
  obtain ⟨l, l', hold, hnew⟩ :=
    @entries_assign _ _ _ _ _ _ (some a.nodes.length) hi hat
  have hv := h.valid
  have honce := hv.valid.once
  rw [Slots.keys, hold, List.map_append, List.map_cons, List.nodup_middle, List.nodup_cons,
    List.mem_append, not_or] at honce
  obtain ⟨⟨hl, hl'⟩, -⟩ := honce
  have hfind : r.find path = some none := by
    rw [← h.found, ← hval]
    exact mem_entries.mpr ⟨i, hat⟩
  refine ⟨⟨hv.cap, hv.four, hv.size, ?_, ?_, hv.load, hv.valid.assign hi hat⟩, ?_, ?_, ?_, ?_⟩
  · exact (List.length_set ..).trans hv.length
  · rw [hnew, hv.len, hold]
    simp
  · intro p hp
    rw [hnew] at hp
    rcases List.mem_append.mp hp with hp | hp
    · exact h.keyed p (hold ▸ List.mem_append_left _ hp)
    · rcases List.mem_cons.mp hp with rfl | hp
      · rfl
      · exact h.keyed p (hold ▸ List.mem_append_right _ (List.mem_cons_of_mem _ hp))
  · rw [h.count] at hnew ⊢
    refine found_update h.found fun p => ?_
    have hleft : p ∈ l → p.1 ≠ htabkey hash path := fun hp heq =>
      hl (heq ▸ (List.mem_map_of_mem hp : p.1 ∈ l.map Prod.fst))
    have hright : p ∈ l' → p.1 ≠ htabkey hash path := fun hp heq =>
      hl' (heq ▸ (List.mem_map_of_mem hp : p.1 ∈ l'.map Prod.fst))
    rw [hnew, hold, List.mem_append, List.mem_cons, List.mem_append, List.mem_cons]
    constructor
    · rintro (hp | rfl | hp)
      · exact .inr ⟨.inl hp, hleft hp⟩
      · exact .inl rfl
      · exact .inr ⟨.inr (.inr hp), hright hp⟩
    · rintro (rfl | ⟨hp | rfl | hp, hne⟩)
      · exact .inr (.inl rfl)
      · exact .inl hp
      · exact absurd rfl hne
      · exact .inr (.inr hp)
  · rw [List.length_append, h.count, List.length_singleton]
  · intro path' n
    rw [getElem?_concat, h.nodes, h.count]
    dsimp only
    by_cases hpath : path' = path
    · subst hpath
      rw [Function.update_self, hfind]
      simp [eq_comm]
    · rw [Function.update_of_ne hpath]
      simp [Ne.symm hpath]

/-! ### The calls -/

theorem call_gives (malloc : ℕ → Bool) (h : a.Represents hash r) (c : TableCall) :
    Gives OutOfMemory (fun res : Option ℕ × Allnodes => res.1 = (r.call c).1 ∧
      res.2.Represents hash (r.call c).2) (c.run malloc hash a) := by
  cases c with
  | htabput path =>
    refine (h.put malloc path).bind fun res hres => ?_
    obtain ⟨-, val, hat, rfl, hrep⟩ := hres
    exact ⟨val_of_at hat, hrep⟩
  | htabget path =>
    rw [TableCall.run, h.get path]
    exact ⟨rfl, h⟩
  | nodeget path len =>
    rw [TableCall.run, nodeget, h.get]
    exact ⟨rfl, h⟩
  | mknode path =>
    suffices hmk : Gives OutOfMemory (fun res : ℕ × Allnodes =>
        some res.1 = (r.call (.mknode path)).1 ∧
          res.2.Represents hash (r.call (.mknode path)).2) (mknode malloc hash a path) from
      hmk.bind fun res hres => hres
    refine (h.put malloc path).bind fun res hres => ?_
    obtain ⟨g, i⟩ := res
    obtain ⟨hi, val, hat, hval, hrep⟩ := hres
    dsimp only at hat hval hrep hi ⊢
    rw [val_of_at hat]
    -- the call of `htabput` adds a path without a node at most
    have hjoin : val = (r.find path).join := by
      rw [hval, Registry.call]
      cases r.find path <;> rfl
    cases hv : val with
    | some n =>
      have hfind : r.find path = some (some n) := by
        rw [hv] at hjoin
        exact Option.join_eq_some_iff.mp hjoin.symm
      rw [Registry.call, hfind] at hrep
      rw [Registry.call, hfind]
      exact ⟨rfl, hrep⟩
    | none =>
      rw [hv] at hjoin
      rw [Registry.call, ← hjoin]
      have hnext : ((r.call (.htabput path)).2).next = r.next ∧
          ∀ val, Function.update ((r.call (.htabput path)).2).find path val =
            Function.update r.find path val := by
        rw [Registry.call]
        cases r.find path with
        | none => exact ⟨rfl, fun val => Function.update_idem ..⟩
        | some _ => exact ⟨rfl, fun _ => rfl⟩
      have hassign := hrep.assign hi hat hv
      rw [hnext.1, hnext.2] at hassign
      have hcount : a.nodes.length = r.next := h.count
      unfold xmalloc
      by_cases hm : malloc 72 = true
      · rw [if_pos hm]
        dsimp only [bind, Except.bind]
        rw [modify_eq_set hi hat]
        exact ⟨congrArg some hcount, hassign⟩
      · rw [if_neg hm]
        exact .inl rfl

theorem runcalls_gives (malloc : ℕ → Bool) (cs : List TableCall) (h : a.Represents hash r) :
    Gives OutOfMemory (fun res : List (Option ℕ) × Allnodes => res.1 = (Registry.run cs r).1 ∧
      res.2.Represents hash (Registry.run cs r).2) (runcalls malloc hash cs a) := by
  induction cs generalizing a r with
  | nil => exact ⟨rfl, h⟩
  | cons c cs ih =>
    refine (call_gives malloc h c).bind fun res hres => ?_
    obtain ⟨val, b⟩ := res
    obtain ⟨rfl, hrep⟩ := hres
    refine (ih hrep).bind fun res hres => ?_
    exact ⟨congrArg _ hres.1, hres.2⟩

theorem graphinit_gives (malloc : ℕ → Bool) (hash : Text → BitVec 64) :
    Gives OutOfMemory (fun a => a.Represents hash Registry.empty) (graphinit malloc) := by
  have hmk : mkhtab malloc 1024 =
      (mkslots malloc 1024).bind fun slots => .ok ⟨0, 1024, slots⟩ := rfl
  rw [graphinit, hmk]
  refine Gives.bind ((mkslots_gives malloc 1024).bind fun slots hslots => ?_)
    (P := fun h => h = ⟨0, 1024, List.replicate 1024 none⟩) fun h heq => ?_
  · rw [hslots.1]
    rfl
  · subst heq
    have hnil := @entries_replicate Key (Option ℕ) 1024
    refine ⟨⟨⟨10, rfl⟩, by decide, by decide, List.length_replicate .., ?_, by decide,
      .empty 1024⟩, ?_, ?_, rfl, ?_⟩
    · rw [hnil]
      rfl
    · rw [hnil]
      simp
    · intro path val
      rw [hnil]
      simp [Registry.empty]
    · simp [Registry.empty]

/-! ### The nodes of the graph -/

/-- The calls on the nodes that the parser of the manifest has. -/
def World.call (w : World) : TableCall → Option ℕ × World
  | .htabput path => (w.nodeget path, w)
  | .htabget path => (w.nodeget path, w)
  | .mknode path => (some (w.mknode path).2, (w.mknode path).1)
  | .nodeget path len => (w.nodeget (nodename path len), w)

def World.calls : List TableCall → World → List (Option ℕ)
  | [], _ => []
  | c :: cs, w => (w.call c).1 :: World.calls cs (w.call c).2

structure World.Tracks (w : World) (r : Registry) : Prop where
  find : ∀ path, w.nodeget path = (r.find path).join
  count : w.nodes.length = r.next

theorem nodeget_mknode {w : World} {path path' : Text} (hnone : w.nodeget path = none) :
    (w.mknode path).1.nodeget path' =
      if path' = path then some w.nodes.length else w.nodeget path' := by
  have hmk : w.mknode path =
      ({ w with nodes := w.nodes ++ [⟨path, none, []⟩] }, w.nodes.length) := by
    rw [World.mknode, hnone]
  have hidx : ∀ q, w.nodeget q = none ↔ w.nodes.findIdx (fun n => n.path = q) = w.nodes.length := by
    intro q
    have hle : w.nodes.findIdx (fun n => n.path = q) ≤ w.nodes.length := List.findIdx_le_length
    unfold World.nodeget
    dsimp only
    split
    case isTrue hlt => simpa using Nat.ne_of_lt hlt
    case isFalse hge => simpa using le_antisymm hle (Nat.le_of_not_lt hge)
  rw [hmk, World.nodeget, List.findIdx_append, List.length_append, List.length_singleton,
    List.findIdx_singleton]
  dsimp only
  by_cases hpath : path' = path
  · subst hpath
    rw [(hidx _).mp hnone]
    simp
  · rw [if_neg hpath]
    unfold World.nodeget
    by_cases hlt : w.nodes.findIdx (fun n => n.path = path') < w.nodes.length
    · rw [if_pos hlt, if_pos hlt, if_pos (by omega)]
    · have hne : ¬ path = path' := fun heq => hpath heq.symm
      rw [if_neg hlt, if_neg hlt, if_neg]
      rw [decide_eq_false hne, if_neg Bool.false_ne_true]
      omega

theorem World.Tracks.call {w : World} {r : Registry} (h : w.Tracks r) (c : TableCall) :
    (w.call c).1 = (r.call c).1 ∧ (w.call c).2.Tracks (r.call c).2 := by
  cases c with
  | htabget path => exact ⟨h.find path, h⟩
  | nodeget path len => exact ⟨h.find _, h⟩
  | htabput path =>
    have hget := h.find path
    rw [World.call, Registry.call]
    cases hfind : r.find path with
    | some val =>
      rw [hfind] at hget
      exact ⟨hget, h⟩
    | none =>
      rw [hfind] at hget
      refine ⟨hget, fun path' => ?_, h.count⟩
      rw [h.find]
      dsimp only
      by_cases hpath : path' = path
      · subst hpath
        rw [hfind, Function.update_self]
        rfl
      · rw [Function.update_of_ne hpath]
  | mknode path =>
    have hget := h.find path
    rw [World.call, Registry.call]
    cases hfind : (r.find path).join with
    | some n =>
      rw [hfind] at hget
      have hmk : w.mknode path = (w, n) := by rw [World.mknode, hget]
      rw [hmk]
      exact ⟨rfl, h⟩
    | none =>
      rw [hfind] at hget
      have hmk : w.mknode path =
          ({ w with nodes := w.nodes ++ [⟨path, none, []⟩] }, w.nodes.length) := by
        rw [World.mknode, hget]
      refine ⟨by rw [hmk, h.count], fun path' => ?_, ?_⟩
      · rw [nodeget_mknode hget]
        dsimp only
        by_cases hpath : path' = path
        · subst hpath
          rw [if_pos rfl, Function.update_self, h.count]
          rfl
        · rw [if_neg hpath, Function.update_of_ne hpath, h.find]
      · rw [hmk, ← h.count]
        simp

theorem World.Tracks.calls {w : World} {r : Registry} (h : w.Tracks r) (cs : List TableCall) :
    World.calls cs w = (Registry.run cs r).1 := by
  induction cs generalizing w r with
  | nil => rfl
  | cons c cs ih =>
    obtain ⟨hval, hrest⟩ := h.call c
    rw [World.calls, Registry.run, hval, ih hrest]

/-! ### Runs -/

/-- What holds of the table for a map: a key stands in one slot, which is reached from its home
without a gap, and there is a free slot, so that every probe ends. -/
structure Allnodes.IsMap (hash : Text → BitVec 64) (a : Allnodes) (r : Registry) : Prop where
  find : ∀ path val, r.find path = some val ↔
    ∃ i, Slots.at a.htab.slots i = some (htabkey hash path, val)
  keyed : ∀ i k val, Slots.at a.htab.slots i = some (k, val) → k = htabkey hash k.str
  once : ∀ i j k val val', Slots.at a.htab.slots i = some (k, val) →
    Slots.at a.htab.slots j = some (k, val') → i = j
  reached : ∀ i k val, Slots.at a.htab.slots i = some (k, val) →
    Reached Key.home a.htab.slots k i
  free : ∃ i < a.htab.cap, Slots.at a.htab.slots i = none
  ends : ∀ k, ∃ i, keyindex a.htab k = .ok i
  nodes : ∀ path n, a.nodes[n]? = some path ↔ r.find path = some (some n)

theorem Allnodes.Represents.isMap (h : a.Represents hash r) : a.IsMap hash r := by
  refine ⟨fun path val => ?_, fun i k val hat => ?_, fun i j k val val' hi hj => ?_,
    fun i k val hat => ?_, ?_, fun k => ?_, h.nodes⟩
  · rw [← h.found, mem_entries]
  · exact h.keyed (k, val) (mem_entries.mpr ⟨i, hat⟩)
  · exact slot_unique h.valid.valid.once hi hj rfl
  · exact h.valid.valid.reached i _ hat
  · rw [← h.valid.length]
    exact exists_free h.valid.room
  · obtain ⟨j, -, hok, -⟩ := keyindex_spec h.valid k
    exact ⟨j, hok⟩

/-- The nodes of the parser's graph are found as in the table. -/
theorem runcalls_world (malloc : ℕ → Bool) (hash : Text → BitVec 64) (cs : List TableCall)
    (w : World) (hw : w.nodes = []) :
    Gives OutOfMemory (fun res : List (Option ℕ) × Allnodes => res.1 = World.calls cs w)
      ((graphinit malloc).bind (runcalls malloc hash cs)) := by
  have htracks : w.Tracks Registry.empty := by
    refine ⟨fun path => ?_, by rw [hw]; rfl⟩
    simp [World.nodeget, hw, Registry.empty]
  refine (graphinit_gives malloc hash).bind fun a ha => ?_
  refine (runcalls_gives malloc cs ha).mono fun res hres => ?_
  rw [hres.1, htracks.calls]

end

end Bootsh.Samu.Manifest
