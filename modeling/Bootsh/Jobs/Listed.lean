import Bootsh.Jobs.Table

/-!
The table as the jobs at the indices of its entries, and the order of the indices in the list.
-/
namespace Bootsh.Jobs

variable {t t' : Jobs} {i k p : ℕ} {j : Job} {l : List ℕ}

/-- The job at an index. -/
def job? (t : Jobs) (i : ℕ) : Option Job := t.tab[i]?.map Job.unlinked

/-- The list holds the entries in use, in the order of the indices `l`. -/
structure Listed (t : Jobs) (l : List ℕ) : Prop where
  holds : t.links.Holds (l.map (t.jobtab + ·))
  used : ∀ i, i ∈ l ↔ ∃ j, t.job? i = some j ∧ j.used

theorem entryAt_add (t : Jobs) (i : ℕ) : t.entryAt (t.jobtab + i) = t.tab[i]? := by
  rw [entryAt_of_le (Nat.le_add_right _ _), Nat.add_sub_cancel_left]

theorem job?_eq_entryAt : t.job? i = (t.entryAt (t.jobtab + i)).map Job.unlinked := by
  rw [entryAt_add, job?]

theorem entry_of_job? (h : t.job? i = some j) :
    ∃ j', t.entryAt (t.jobtab + i) = some j' ∧ j'.unlinked = j := by
  rw [job?_eq_entryAt, Option.map_eq_some_iff] at h
  exact h

theorem job?_of_unlinked (h : t'.unlinked = t.unlinked) : t'.job? = t.job? := by
  funext i
  have hi := congrArg (fun t : Jobs => t.tab[i]?) h
  simp only [unlinked, List.getElem?_map] at hi
  exact hi

theorem jobtab_of_unlinked (h : t'.unlinked = t.unlinked) : t'.jobtab = t.jobtab :=
  (congrArg Jobs.jobtab h :)

theorem offset_injective (t : Jobs) : Function.Injective (t.jobtab + ·) := fun _ _ =>
  Nat.add_left_cancel

theorem Listed.nodup (h : t.Listed l) : l.Nodup := h.holds.nodup.of_map

theorem Listed.job (h : t.Listed l) (hi : i ∈ l) : ∃ j, t.job? i = some j ∧ j.used :=
  (h.used i).1 hi

theorem Listed.unique {l' : List ℕ} (h : t.Listed l) (h' : t.Listed l') : l = l' :=
  List.map_injective_iff.2 t.offset_injective (h.holds.unique h'.holds)

/-- Is the job at an index stopped? -/
def stopped (t : Jobs) (i : ℕ) : Bool := (t.job? i).any (·.state = .stopped)

theorem isStopped_add (t : Jobs) : t.isStopped ∘ (t.jobtab + ·) = t.stopped := by
  funext i
  simp only [Function.comp_apply, isStopped, stopped, job?_eq_entryAt, Option.any_map]
  rfl

/-- The order of the indices after `set_curjob`. -/
def order (t : Jobs) (mode : CurMode) (i : ℕ) (l : List ℕ) : List ℕ :=
  match mode with
  | .delete => l
  | .running => l.takeWhile t.stopped ++ i :: l.dropWhile t.stopped
  | .stopped => i :: l

theorem placed_map (mode : CurMode) :
    t.placed mode (t.jobtab + i) (l.map (t.jobtab + ·)) =
      (t.order mode i l).map (t.jobtab + ·) := by
  cases mode with
  | delete => rfl
  | running =>
    simp only [placed, order, List.takeWhile_map, List.dropWhile_map, List.map_append,
      List.map_cons, isStopped_add]
  | stopped => rfl

/-- What `set_curjob` needs of the table: it may be called for an entry that is no longer in
use. -/
theorem set_curjob_holds (h : t.links.Holds (l.map (t.jobtab + ·))) (hi : i ∈ l)
    (hjob : ∀ k ∈ l, (t.job? k).isSome) (mode : CurMode) :
    ∃ t', t.set_curjob (t.jobtab + i) mode = some t' ∧ t'.unlinked = t.unlinked ∧
      t'.links.Holds ((t.order mode i (l.erase i)).map (t'.jobtab + ·)) := by
  have hent : ∀ p ∈ l.map (t.jobtab + ·), (t.entryAt p).isSome := by
    intro p hp
    obtain ⟨k, hk, rfl⟩ := List.mem_map.1 hp
    have hk' := hjob k hk
    rwa [job?_eq_entryAt, Option.isSome_map] at hk'
  obtain ⟨t', hset, hun, hholds⟩ := set_curjob_spec h (List.mem_map_of_mem hi) hent mode
  refine ⟨t', hset, hun, ?_⟩
  rw [jobtab_of_unlinked hun, ← placed_map,
    List.map_erase t.offset_injective]
  exact hholds

theorem mem_order_running : k ∈ t.order .running i l ↔ k = i ∨ k ∈ l := by
  rw [order, List.mem_append, List.mem_cons]
  conv_rhs => rw [← List.takeWhile_append_dropWhile (p := t.stopped) (l := l), List.mem_append]
  tauto

theorem Listed.set_curjob (h : t.Listed l) (hi : i ∈ l) (mode : CurMode) (hmode : mode ≠ .delete) :
    ∃ t', t.set_curjob (t.jobtab + i) mode = some t' ∧ t'.unlinked = t.unlinked ∧
      t'.Listed (t.order mode i (l.erase i)) := by
  have hjob : ∀ k ∈ l, (t.job? k).isSome := fun k hk => by
    obtain ⟨j, hj, -⟩ := h.job hk
    rw [hj]
    rfl
  obtain ⟨t', hset, hun, hholds⟩ := set_curjob_holds h.holds hi hjob mode
  refine ⟨t', hset, hun, hholds, fun k => ?_⟩
  have hmem : k ∈ t.order mode i (l.erase i) ↔ k = i ∨ k ∈ l.erase i := by
    cases mode with
    | delete => exact absurd rfl hmode
    | running => exact mem_order_running
    | stopped => exact List.mem_cons
  rw [hmem, h.nodup.mem_erase_iff, job?_of_unlinked hun, ← h.used k]
  constructor
  · rintro (rfl | ⟨-, hk⟩)
    · exact hi
    · exact hk
  · intro hk
    by_cases hki : k = i
    · exact .inl hki
    · exact .inr ⟨hki, hk⟩

/-! ### Writing entries -/

theorem job?_put (h : t.entryAt (t.jobtab + i) = some j) (j' : Job) :
    (t.put (t.jobtab + i) j').job? = Function.update t.job? i (some j'.unlinked) := by
  funext k
  rw [job?_eq_entryAt]
  change ((t.put (t.jobtab + i) j').entryAt (t.jobtab + k)).map _ = _
  rw [entryAt_put h]
  by_cases hk : k = i
  · subst hk
    rw [if_pos rfl, Function.update_self]
    rfl
  · rw [if_neg (by omega), Function.update_of_ne hk, job?_eq_entryAt]

/-- An entry of the list is written, its pointer and the mark that it is in use apart. -/
theorem Listed.put (h : t.Listed l) (hj : t.entryAt (t.jobtab + i) = some j) (j' : Job)
    (hprev : j'.prev_job = j.prev_job) (hused : j'.used = j.used) :
    (t.put (t.jobtab + i) j').Listed l := by
  refine ⟨?_, fun k => ?_⟩
  · rw [links_put_same hj j' hprev]
    exact h.holds
  · rw [job?_put hj, h.used k]
    by_cases hk : k = i
    · subst hk
      rw [Function.update_self, job?_eq_entryAt, hj]
      simp [Job.unlinked, hused]
    · rw [Function.update_of_ne hk]

theorem Listed.freejob (h : t.Listed l) (hi : i ∈ l) :
    ∃ j t', t.entryAt (t.jobtab + i) = some j ∧ t.freejob (t.jobtab + i) = some t' ∧
      t'.unlinked = (t.put (t.jobtab + i) { j with used := false }).unlinked ∧
      t'.Listed (l.erase i) := by
  obtain ⟨ji, hji, -⟩ := h.job hi
  obtain ⟨j, hj, -⟩ := entry_of_job? hji
  have hholds : (t.put (t.jobtab + i) { j with used := false }).links.Holds
      (l.map (t.jobtab + ·)) := by
    rw [links_put_same hj { j with used := false } rfl]
    exact h.holds
  have hjob : ∀ k ∈ l, ((t.put (t.jobtab + i) { j with used := false }).job? k).isSome := by
    intro k hk
    rw [job?_put hj]
    by_cases hki : k = i
    · subst hki
      rw [Function.update_self]
      rfl
    · obtain ⟨jk, hjk, -⟩ := h.job hk
      rw [Function.update_of_ne hki, hjk]
      rfl
  obtain ⟨t', hset, hun, hholds'⟩ :=
    @set_curjob_holds (t.put (t.jobtab + i) { j with used := false }) i l hholds hi hjob .delete
  refine ⟨j, t', hj, ?_, hun, hholds', fun k => ?_⟩
  · rw [Jobs.freejob, hj]
    exact hset
  · rw [h.nodup.mem_erase_iff, job?_of_unlinked hun, job?_put hj]
    by_cases hki : k = i
    · subst hki
      rw [Function.update_self]
      simp [Job.unlinked]
    · rw [Function.update_of_ne hki, ← h.used k]
      simp [hki]

theorem Listed.length_lt_fuel (h : t.Listed l) : l.length < t.fuel := by
  rw [← List.length_map (t.jobtab + ·)]
  refine Jobs.length_lt_fuel h.holds.nodup fun p hp => ?_
  obtain ⟨i, hi, rfl⟩ := List.mem_map.1 hp
  obtain ⟨j, hj, -⟩ := h.job hi
  rw [job?_eq_entryAt] at hj
  cases hentry : t.entryAt (t.jobtab + i) with
  | none =>
    rw [hentry] at hj
    cases hj
  | some _ => rfl

theorem freejob_head (hcur : t.curjob = some p) (hj : t.entryAt p = some j) :
    t.freejob p =
      some { t.put p { j with used := false } with curjob := j.prev_job } := by
  have hnext : (t.put p { j with used := false }).links.next p = j.prev_job := by
    simp only [links, entryAt_put hj, if_true, Option.bind_some]
  have hseek : (t.put p { j with used := false }).links.seek (fun q => q = some p)
      (t.put p { j with used := false }).fuel none = some none := by
    rw [fuel, Links.seek, if_pos]
    exact decide_eq_true hcur
  rw [Jobs.freejob, hj, Option.bind_eq_bind, Option.bind_some, Jobs.set_curjob, hseek,
    Option.bind_eq_bind, Option.bind_some, hnext]
  rfl

/-! ### New jobs -/

/-- The settings that only their own operations change. -/
def flags (t : Jobs) : Int × Bool × Bool × ℕ :=
  (t.backgndpid, t.jobctl, t.pipefail, t.job_warning)

theorem flags_of_unlinked (h : t'.unlinked = t.unlinked) : t'.flags = t.flags :=
  (congrArg flags h :)

theorem job?_growjobtab (t : Jobs) (base : ℕ) :
    (t.growjobtab base).job? i =
      if i < t.tab.length then t.job? i
      else if i < t.tab.length + 4 then some Job.zero else none := by
  rw [job?, job?, growjobtab]
  by_cases hi : i < t.tab.length
  · rw [if_pos hi, List.getElem?_append_left (by simpa using hi), List.getElem?_map,
      Option.map_map]
    rfl
  · rw [if_neg hi, List.getElem?_append_right (by simpa using hi), List.getElem?_replicate,
      List.length_map]
    by_cases hi' : i < t.tab.length + 4
    · rw [if_pos (by omega), if_pos hi']
      rfl
    · rw [if_neg (by omega), if_neg hi']
      rfl

theorem next_growjobtab (base : ℕ) (hi : t.job? i = some j) :
    (t.growjobtab base).links.next (base + i) =
      (t.links.next (t.jobtab + i)).map fun p => p + base - t.jobtab := by
  obtain ⟨j', hj', -⟩ := entry_of_job? hi
  have hlt : i < t.tab.length := by simpa using (lt_of_entry hj').2
  have hentry : (t.growjobtab base).entryAt (base + i) =
      some { j' with prev_job := j'.prev_job.map fun p => p + base - t.jobtab } := by
    rw [entryAt_add] at hj'
    rw [show base + i = (t.growjobtab base).jobtab + i from rfl, entryAt_add, growjobtab,
      List.getElem?_append_left (by simpa using hlt), List.getElem?_map, hj']
    rfl
  simp only [links, hentry, hj', Option.bind_some]

theorem Listed.growjobtab (h : t.Listed l) (base : ℕ) : (t.growjobtab base).Listed l := by
  refine ⟨?_, fun i => ?_⟩
  · have hmove : (l.map (t.jobtab + ·)).map (fun p => p + base - t.jobtab) =
        l.map (base + ·) := by
      rw [List.map_map]
      refine List.map_congr_left fun i _ => ?_
      simp only [Function.comp_apply]
      omega
    rw [Links.Holds, show (t.growjobtab base).jobtab = base from rfl, ← hmove]
    refine Links.Path.map h.holds fun p hp => ?_
    obtain ⟨i, hi, rfl⟩ := List.mem_map.1 hp
    obtain ⟨j, hj, -⟩ := h.job hi
    rw [← next_growjobtab base hj]
    congr 1
    omega
  · rw [job?_growjobtab, h.used i]
    by_cases hi : i < t.tab.length
    · rw [if_pos hi]
    · have hnone : t.job? i = none := by
        rw [job?, List.getElem?_eq_none (by omega)]
        rfl
      rw [if_neg hi, hnone]
      by_cases hi' : i < t.tab.length + 4
      · simp [if_pos hi', Job.zero]
      · simp [if_neg hi']

/-- The job that `makejob` starts with. -/
def fresh (t : Jobs) : Job := { Job.zero with jobctl := t.jobctl, used := true }

theorem job?_enter {j₀ : Job} (hj₀ : t.entryAt (t.jobtab + i) = some j₀) :
    (t.enter (t.jobtab + i)).job? = Function.update t.job? i (some t.fresh) :=
  job?_put hj₀ _

theorem links_enter {j₀ : Job} (hj₀ : t.entryAt (t.jobtab + i) = some j₀) :
    (t.enter (t.jobtab + i)).links =
      (t.links.set (some (t.jobtab + i)) (t.links.get none)).set none (some (t.jobtab + i)) := by
  have hput := links_put hj₀
    { Job.zero with jobctl := t.jobctl, used := true, prev_job := t.curjob }
  rw [show t.links.get none = t.curjob from rfl, ← hput]
  rfl

/-- An entry that is not in use becomes the head of the list. -/
theorem Listed.enter {j₀ : Job} (h : t.Listed l) (hi : i ∉ l)
    (hj₀ : t.entryAt (t.jobtab + i) = some j₀) : (t.enter (t.jobtab + i)).Listed (i :: l) := by
  refine ⟨?_, fun k => ?_⟩
  · have hnot : t.jobtab + i ∉ l.map (t.jobtab + ·) := by
      rwa [List.mem_map_of_injective t.offset_injective]
    rw [links_enter hj₀]
    exact @Links.Holds.insert ℕ _ (t.jobtab + i) [] _ t.links h.holds hnot
  · rw [job?_enter hj₀, List.mem_cons]
    by_cases hk : k = i
    · subst hk
      rw [Function.update_self]
      simp [fresh]
    · rw [Function.update_of_ne hk, ← h.used k]
      simp [hk]

/-- The entry at `i` is made anew, and the others stay; the table may have grown. -/
structure Made (t t' : Jobs) (i : ℕ) : Prop where
  job : t'.job? i = some t.fresh
  other : ∀ k, k ≠ i → t'.job? k = t.job? k ∨ t.job? k = none ∧ t'.job? k = some Job.zero
  free : ∀ j, t.job? i = some j → j.used → j.state = .done
  flags : t'.flags = t.flags

theorem freeEntry_some (h : t.freeEntry = some i) :
    ∃ j, t.entryAt (t.jobtab + i) = some j ∧
      (!j.used || (j.state = .done && j.waited && !t.jobctl)) = true := by
  obtain ⟨hlt, hfree, -⟩ := List.findIdx?_eq_some_iff_getElem.1 h
  exact ⟨t.tab[i], by rw [entryAt_add, List.getElem?_eq_getElem hlt], by simpa using hfree⟩

theorem job?_length (hi : t.tab.length ≤ i) : t.job? i = none := by
  rw [job?, List.getElem?_eq_none hi]
  rfl

theorem makejob_grown (h : t.Listed l) (hfree : t.freeEntry = none) (base : ℕ) :
    ∃ i t', t.makejob base = some (t'.jobtab + i, t') ∧ t'.Listed (i :: l.erase i) ∧
      Made t t' i := by
  have hnot : t.tab.length ∉ l := by
    intro hin
    obtain ⟨j, hj, -⟩ := h.job hin
    rw [job?_length (le_refl _)] at hj
    cases hj
  have hzero : (t.growjobtab base).entryAt ((t.growjobtab base).jobtab + t.tab.length) =
      some Job.zero := by
    rw [entryAt_add, Jobs.growjobtab, List.getElem?_append_right (by simp)]
    simp
  have hjob := job?_enter hzero
  refine ⟨t.tab.length, (t.growjobtab base).enter (base + t.tab.length), ?_, ?_, ?_⟩
  · rw [Jobs.makejob, hfree]
    rfl
  · rw [List.erase_of_not_mem hnot]
    exact (h.growjobtab base).enter hnot hzero
  · refine ⟨(congrFun hjob _).trans (Function.update_self _ _ _), fun k hk => ?_, ?_, rfl⟩
    · have hk' : ((t.growjobtab base).enter (base + t.tab.length)).job? k =
          (t.growjobtab base).job? k :=
        (congrFun hjob k).trans (Function.update_of_ne hk _ _)
      rw [hk', job?_growjobtab]
      by_cases hlt : k < t.tab.length
      · exact .inl (if_pos hlt)
      · rw [if_neg hlt, job?_length (by omega)]
        by_cases hlt' : k < t.tab.length + 4
        · exact .inr ⟨rfl, if_pos hlt'⟩
        · exact .inl (if_neg hlt')
    · intro j hj
      rw [job?_length (le_refl _)] at hj
      cases hj

theorem Listed.reclaim (h : t.Listed l) (hj : t.entryAt (t.jobtab + i) = some j) :
    ∃ t' j₀, t.reclaim (t.jobtab + i) = some t' ∧ t'.jobtab = t.jobtab ∧ t'.flags = t.flags ∧
      t'.entryAt (t'.jobtab + i) = some j₀ ∧ t'.Listed (l.erase i) ∧
      ∀ k, k ≠ i → t'.job? k = t.job? k := by
  have hjob : t.job? i = some j.unlinked := by
    rw [job?_eq_entryAt, hj]
    rfl
  rw [Jobs.reclaim, hj, Option.bind_some]
  by_cases hused : j.used = true
  · obtain ⟨j₁, t₁, hj₁, hfreejob, hun, hlisted⟩ := h.freejob ((h.used i).2 ⟨_, hjob, hused⟩)
    have hjob₁ := (job?_of_unlinked hun).trans (job?_put hj₁ _)
    obtain ⟨j₀, hj₀, -⟩ := @entry_of_job? t₁ i _ (by rw [hjob₁, Function.update_self])
    refine ⟨t₁, j₀, ?_, ?_, ?_, hj₀, hlisted, fun k hk => ?_⟩
    · rw [if_pos hused, hfreejob]
    · exact (congrArg Jobs.jobtab hun :)
    · exact (congrArg flags hun :)
    · rw [hjob₁, Function.update_of_ne hk]
  · have hnot : i ∉ l := fun hin => by
      obtain ⟨j', hj', hused'⟩ := h.job hin
      obtain rfl : j.unlinked = j' := Option.some.inj (hjob.symm.trans hj')
      exact hused hused'
    refine ⟨t, j, if_neg hused, rfl, rfl, hj, ?_, fun k _ => rfl⟩
    rwa [List.erase_of_not_mem hnot]

theorem Listed.makejob (h : t.Listed l) (base : ℕ) :
    ∃ i t', t.makejob base = some (t'.jobtab + i, t') ∧ t'.Listed (i :: l.erase i) ∧
      Made t t' i := by
  cases hfree : t.freeEntry with
  | none => exact makejob_grown h hfree base
  | some i =>
    obtain ⟨j, hj, hcond⟩ := freeEntry_some hfree
    obtain ⟨t₁, j₁, hreclaim, htab, hflags, hj₁, hlisted, hother⟩ := h.reclaim hj
    have hjob₁ := job?_enter hj₁
    refine ⟨i, t₁.enter (t₁.jobtab + i), ?_, hlisted.enter h.nodup.not_mem_erase hj₁, ?_⟩
    · rw [Jobs.makejob, hfree]
      dsimp only
      rw [hreclaim, Option.map_some, htab]
      exact congrArg (fun p => some (p + i, t₁.enter (t.jobtab + i))) htab.symm
    · refine ⟨?_, fun k hk => .inl ?_, ?_, hflags⟩
      · have hctl : t₁.jobctl = t.jobctl := (congrArg (fun f => f.2.1) hflags :)
        rw [hjob₁, Function.update_self, fresh, fresh, hctl]
      · rw [hjob₁, Function.update_of_ne hk, hother k hk]
      · intro j' hj' hused
        obtain rfl : j.unlinked = j' := by
          rw [job?_eq_entryAt, hj] at hj'
          exact Option.some.inj hj'
        change j.used = true at hused
        simp only [hused, Bool.not_true, Bool.false_or, Bool.and_eq_true,
          decide_eq_true_eq] at hcond
        exact hcond.1.1

end Bootsh.Jobs
