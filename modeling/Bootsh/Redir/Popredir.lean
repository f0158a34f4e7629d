import Bootsh.Redir.Frame

/-! What `popredir` does to the descriptors, with and without `drop`. -/
namespace Bootsh

variable {α : Type}

/-- What the loop of `popredir(0)` has done after the descriptors in `l`. -/
structure Popped (rp : Redirtab) (l : List (Fin 10)) (st st' : RedirState α) : Prop where
  undone : ∀ i ∈ l, user st'.fds i = undo st.fds rp (user st.fds) i
  others : ∀ i, i ∉ l → user st'.fds i = user st.fds i
  copies : ∀ k, 10 ≤ k → (∀ i ∈ l, rp i ≠ .saved k) → st'.fds.file k = st.fds.file k
  limit : st'.fds.limit = st.fds.limit
  bits : ∀ i, st'.closedRedirs i = true → user st'.fds i = none

theorem popped_single {rp : Redirtab} {i : Fin 10} {st : RedirState α} {u : FdTable α} {bit : Bool}
    (hbits : ∀ i, st.closedRedirs i = true → user st.fds i = none)
    (hundone : u.file i = undo st.fds rp (user st.fds) i)
    (hothers : ∀ fd : ℕ, fd ≠ i → (fd < 10 ∨ rp i ≠ .saved fd) → u.file fd = st.fds.file fd)
    (hlimit : u.limit = st.fds.limit) (hbit : bit = true → u.file i = none) :
    Popped rp [i] st ⟨u, st.redirlist, Function.update st.closedRedirs i bit⟩ := by
  have hne : ∀ {j : Fin 10}, j ≠ i → (j : ℕ) ≠ i := fun hj h => hj (Fin.ext h)
  refine ⟨?_, ?_, ?_, hlimit, ?_⟩
  · intro j hj
    obtain rfl : j = i := List.mem_singleton.1 hj
    exact hundone
  · intro j hj
    exact hothers j (hne fun h => hj (List.mem_singleton.2 h)) (Or.inl j.isLt)
  · intro k hk hrp
    exact hothers k (by omega) (Or.inr (hrp i (List.mem_singleton.2 rfl)))
  · intro j hj
    have hj : Function.update st.closedRedirs i bit j = true := hj
    by_cases hji : j = i
    · subst hji
      rw [Function.update_self] at hj
      exact hbit hj
    · rw [Function.update_of_ne hji] at hj
      exact (hothers j (hne hji) (Or.inl j.isLt)).trans (hbits j hj)

theorem popOne_popped {rp : Redirtab} {i : Fin 10} {st : RedirState α}
    (hbits : ∀ i, st.closedRedirs i = true → user st.fds i = none)
    (hsaved : ∀ k, rp i = .saved k → 10 ≤ k ∧ k < st.fds.limit ∧ st.fds.file k ≠ none) :
    Popped rp [i] st (popOne false rp st i) := by
  cases hrp : rp i with
  | empty =>
    have hst : popOne false rp st i =
        ⟨st.fds, st.redirlist, Function.update st.closedRedirs i (st.closedRedirs i)⟩ := by
      rw [popOne, hrp, Function.update_eq_self]
    rw [hst]
    exact popped_single hbits (by rw [undo, hrp]; rfl) (fun _ _ _ => rfl) rfl (hbits i)
  | closed =>
    have hst : popOne false rp st i = ⟨if st.closedRedirs i then st.fds else st.fds.close i,
        st.redirlist, Function.update st.closedRedirs i true⟩ := by
      rw [popOne, hrp]
      cases hbit : st.closedRedirs i <;> simp [updateClosedRedirs, hbit, RedirState.close]
    have hnone : (if st.closedRedirs i then st.fds else st.fds.close i).file i = none := by
      split_ifs with hbit
      · exact hbits i hbit
      · exact FdTable.close_self
    rw [hst]
    refine popped_single hbits (by rw [hnone, undo, hrp]) ?_ ?_ fun _ => hnone
    · intro fd hfd _
      split_ifs
      · rfl
      · exact FdTable.close_ne hfd
    · split_ifs <;> rfl
  | saved k =>
    obtain ⟨hk, hlimit, hopen⟩ := hsaved k hrp
    have hki : (i : ℕ) ≠ k := by omega
    have hst : popOne false rp st i = ⟨(st.fds.set i (st.fds.file k)).close k, st.redirlist,
        Function.update st.closedRedirs i false⟩ := by
      simp only [popOne, hrp, updateClosedRedirs, FdTable.dup2_eq hopen (by omega : (i : ℕ) < _)]
      rfl
    rw [hst]
    refine popped_single hbits ?_ ?_ rfl fun h => by cases h
    · rw [FdTable.close_ne hki, FdTable.set_self, undo, hrp]
    · intro fd hfd hfdk
      have hne : fd ≠ k := by
        rintro rfl
        rcases hfdk with hfdk | hfdk
        · omega
        · exact hfdk hrp
      rw [FdTable.close_ne hne, FdTable.set_ne _ hfd]

theorem foldl_popOne {rp : Redirtab} {l : List (Fin 10)} {st : RedirState α} (hl : l.Nodup)
    (hbits : ∀ i, st.closedRedirs i = true → user st.fds i = none)
    (hsaved : ∀ i ∈ l, ∀ k, rp i = .saved k → 10 ≤ k ∧ k < st.fds.limit ∧ st.fds.file k ≠ none)
    (hinj : ∀ i j k, rp i = .saved k → rp j = .saved k → i = j) :
    Popped rp l st (l.foldl (popOne false rp) st) := by
  induction l generalizing st with
  | nil => exact ⟨fun i hi => absurd hi List.not_mem_nil, fun _ _ => rfl, fun _ _ _ => rfl, rfl, hbits⟩
  | cons i l ih =>
    have hone := popOne_popped hbits (hsaved i List.mem_cons_self)
    obtain ⟨hi, hl⟩ := List.nodup_cons.1 hl
    have hnotsaved : ∀ j ∈ l, ∀ k, rp j = .saved k → ∀ i' ∈ [i], rp i' ≠ .saved k := by
      intro j hj k hk i' hi' hk'
      obtain rfl : i' = i := List.mem_singleton.1 hi'
      exact hi (hinj _ _ k hk hk' ▸ hj)
    have hother : ∀ j ∈ l, j ∉ [i] := fun j hj h => hi (List.mem_singleton.1 h ▸ hj)
    have hrest := ih hl hone.bits (by
      intro j hj k hk
      obtain ⟨hten, hlimit, hopen⟩ := hsaved j (List.mem_cons_of_mem _ hj) k hk
      exact ⟨hten, hone.limit ▸ hlimit, hone.copies k hten (hnotsaved j hj k hk) ▸ hopen⟩)
    rw [List.foldl_cons]
    refine ⟨?_, ?_, ?_, hrest.limit.trans hone.limit, hrest.bits⟩
    · intro j hj
      rcases List.mem_cons.1 hj with rfl | hj
      · rw [hrest.others j hi, hone.undone j List.mem_cons_self]
      · rw [hrest.undone j hj]
        unfold undo
        cases hrp : rp j with
        | empty => exact hone.others j (hother j hj)
        | closed => rfl
        | saved k =>
          exact hone.copies k (hsaved j (List.mem_cons_of_mem _ hj) k hrp).1 (hnotsaved j hj k hrp)
    · intro j hj
      rw [List.mem_cons, not_or] at hj
      rw [hrest.others j hj.2, hone.others j (by simpa using hj.1)]
    · intro k hk hrp
      rw [hrest.copies k hk fun j hj => hrp j (List.mem_cons_of_mem _ hj),
        hone.copies k hk fun j hj => hrp j (List.mem_singleton.1 hj ▸ List.mem_cons_self)]

/-- What the loop of `popredir(1)` has done after the descriptors in `l`. -/
structure Dropped (rp : Redirtab) (l : List (Fin 10)) (st st' : RedirState α) : Prop where
  files : ∀ k, (∀ i ∈ l, rp i ≠ .saved k) → st'.fds.file k = st.fds.file k
  limit : st'.fds.limit = st.fds.limit
  bits : st'.closedRedirs = st.closedRedirs

theorem foldl_dropOne (rp : Redirtab) (l : List (Fin 10)) (st : RedirState α) :
    Dropped rp l st (l.foldl (popOne true rp) st) := by
  induction l generalizing st with
  | nil => exact ⟨fun _ _ => rfl, rfl, rfl⟩
  | cons i l ih =>
    have hone : Dropped rp [i] st (popOne true rp st i) := by
      unfold popOne
      cases hrp : rp i with
      | empty => exact ⟨fun _ _ => rfl, rfl, rfl⟩
      | closed => exact ⟨fun _ _ => rfl, rfl, rfl⟩
      | saved fd =>
        refine ⟨fun k hk => ?_, rfl, rfl⟩
        have hne : k ≠ fd := by
          rintro rfl
          exact hk i List.mem_cons_self hrp
        exact FdTable.close_ne hne
    have hrest := ih (popOne true rp st i)
    refine ⟨fun k hk => ?_, hrest.limit.trans hone.limit, hrest.bits.trans hone.bits⟩
    rw [List.foldl_cons, hrest.files k fun j hj => hk j (List.mem_cons_of_mem _ hj),
      hone.files k fun j hj => hk j (List.mem_singleton.1 hj ▸ List.mem_cons_self)]

/-- Without the copies of the first frame the state is sound. -/
theorem Sound.tail {rp : Redirtab} {next : List Redirtab} {st : RedirState α} {u : FdTable α}
    {bits : Fin 10 → Bool} (hsound : Sound st) (hst : st.redirlist = rp :: next)
    (hcopies : ∀ k, 10 ≤ k → (∀ i, rp i ≠ .saved k) → u.file k = st.fds.file k)
    (hlimit : u.limit = st.fds.limit) (hbits : ∀ i, bits i = true → user u i = none) :
    Sound ⟨u, next, bits⟩ ∧
      ∀ rp' ∈ next, ∀ i k, rp' i = .saved k → u.file k = st.fds.file k := by
  have hapart := hsound.apart
  rw [hst, List.pairwise_cons] at hapart
  have hmem : ∀ rp' ∈ next, rp' ∈ st.redirlist := fun rp' hrp' => hst ▸ List.mem_cons_of_mem _ hrp'
  have hkept : ∀ rp' ∈ next, ∀ i k, rp' i = .saved k → u.file k = st.fds.file k := by
    intro rp' hrp' i k hk
    exact hcopies k (hsound.saved rp' (hmem rp' hrp') i k hk).1
      fun j hj => hapart.1 rp' hrp' j i k hj hk
  refine ⟨⟨hbits, ?_, fun rp' hrp' => hsound.inj rp' (hmem rp' hrp'), hapart.2⟩, hkept⟩
  intro rp' hrp' i k hk
  obtain ⟨hten, hlt, hopen⟩ := hsound.saved rp' (hmem rp' hrp') i k hk
  exact ⟨hten, hlimit ▸ hlt, (hkept rp' hrp' i k hk) ▸ hopen⟩

/-- `popredir(0)`: every descriptor is as the frame says, and the copies of the other
frames are kept. -/
theorem popredir_restores {rp : Redirtab} {next : List Redirtab} {st : RedirState α}
    (hsound : Sound st) (hst : st.redirlist = rp :: next) :
    Sound (popredir false st) ∧ (popredir false st).redirlist = next ∧
      user (popredir false st).fds = undo st.fds rp (user st.fds) ∧
      ∀ rp' ∈ next, ∀ i k, rp' i = .saved k →
        (popredir false st).fds.file k = st.fds.file k := by
  have hrp : rp ∈ st.redirlist := hst ▸ List.mem_cons_self
  have hpop := foldl_popOne (List.nodup_finRange 10) hsound.bits
    (fun i _ k hk => hsound.saved rp hrp i k hk) (hsound.inj rp hrp)
  obtain ⟨htail, hkept⟩ := hsound.tail hst
    (fun k hk hrp' => hpop.copies k hk fun i _ => hrp' i) hpop.limit hpop.bits
  simp only [popredir, hst]
  exact ⟨htail, trivial, funext fun i => hpop.undone i (List.mem_finRange i), hkept⟩

/-- `popredir(1)` leaves the user's descriptors as they are. -/
theorem popredir_drops {rp : Redirtab} {next : List Redirtab} {st : RedirState α}
    (hsound : Sound st) (hst : st.redirlist = rp :: next) :
    Sound (popredir true st) ∧ (popredir true st).redirlist = next ∧
      user (popredir true st).fds = user st.fds ∧
      ∀ rp' ∈ next, ∀ i k, rp' i = .saved k →
        (popredir true st).fds.file k = st.fds.file k := by
  have hrp : rp ∈ st.redirlist := hst ▸ List.mem_cons_self
  have hdrop := foldl_dropOne rp (List.finRange 10) st
  have huser : user ((List.finRange 10).foldl (popOne true rp) st).fds = user st.fds := by
    funext i
    refine hdrop.files i fun j _ hj => ?_
    have hten := (hsound.saved rp hrp j i hj).1
    omega
  obtain ⟨htail, hkept⟩ := hsound.tail hst
    (fun k _ hrp' => hdrop.files k fun i _ => hrp' i) hdrop.limit
    (fun i hi => by rw [huser]; exact hsound.bits i (hdrop.bits ▸ hi))
  simp only [popredir, hst]
  exact ⟨htail, trivial, huser, hkept⟩

end Bootsh
