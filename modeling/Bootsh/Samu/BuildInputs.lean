import Bootsh.Samu.BuildPlan

/-!
The loop of `buildadd` over the inputs of an edge.
-/
namespace Bootsh.Samu.Build

open Function (update)
open Fallible (each bind_eq_ok Gives)

variable {w : Records} {p p' q q' : Plan} {e n : ℕ} {l : List ℕ} {newest : Option ℕ}

/-- What `buildadd` says of the node that it was called for. -/
def Ready (w : Records) (p : Plan) (n : ℕ) : Prop :=
  (p.graph.gen n = none ∧ p.marks.dirty n = false ∧ time w p.marks n ≠ mtimeMissing ∧
    p.marks.mtime n = time w p.marks n) ∨ ∃ e, p.graph.gen n = some e ∧ p.Done e

theorem Ready.settled (h : Ready w p n) : Settled w p n := by
  rcases h with ⟨hgen, -, hex, -⟩ | h
  case inr => exact .inr h
  case inl =>
    refine .inl ⟨hex, ?_, ?_, ?_, ?_, ?_⟩ <;>
    · intro k hk
      rw [hgen] at hk
      cases hk

theorem Ready.blocks (hp : Planning w p) (h : Ready w p n) : blocks p n = blocking p n := by
  rcases h with ⟨hgen, hdirty, -, -⟩ | ⟨k, hgen, hd⟩
  · rw [Build.blocks, blocking, hgen, hdirty]
    rfl
  · have hk := (hp.ok k hd).dirty n ((hp.wf.mem_outs n k).mpr hgen)
    rw [Build.blocks, blocking, hgen, hk, Option.any_some, Option.any_some, hd.1, hd.2]
    rfl

theorem Ready.known (hp : Planning w p) (h : Ready w p n) : p.marks.mtime n = time w p.marks n := by
  rcases h with ⟨-, -, -, hknown⟩ | ⟨k, hgen, hd⟩
  · exact hknown
  · exact (hp.ok k hd).known n ((hp.wf.mem_outs n k).mpr hgen)

/-- A node that is not dirty is made by an edge that is not dirty. -/
theorem Ready.clean (hp : Planning w p) (h : Ready w p n) (hdirty : p.marks.dirty n = false) :
    Clean p n := by
  intro e hgen
  rcases h with ⟨hnone, -⟩ | ⟨k, hgen', hd⟩
  · rw [hgen] at hnone
    cases hnone
  · rw [hgen] at hgen'
    cases hgen'
    rw [← (hp.ok e hd).dirty n ((hp.wf.mem_outs n e).mpr hgen), hdirty]

/-- What `buildadd` gives for the node `n`. -/
structure Built (w : Records) (n : ℕ) (p p' : Plan) : Prop where
  planning : Planning w p'
  keeps : Keeps w (fun _ => True) p p'
  cycle : p'.marks.cycle = p.marks.cycle
  ready : Ready w p' n
  pending : ∀ k, p'.Pending k → p.Pending k
  maxjobs : p'.graph.maxjobs = p.graph.maxjobs

/-! ### One edge -/

/-- Only the marks and the counter of `e` and its outputs differ. -/
structure Near (e : ℕ) (p p' : Plan) : Prop where
  graph : p'.graph = p.graph
  work : p'.marks.work = p.marks.work
  cycle : p'.marks.cycle = p.marks.cycle
  mtime : p'.marks.mtime = p.marks.mtime
  logmtime : p'.marks.logmtime = p.marks.logmtime
  hash : p'.marks.hash = p.marks.hash
  dirtyIn : ∀ k, k ≠ e → p'.marks.dirtyIn k = p.marks.dirtyIn k
  dirtyOut : ∀ k, k ≠ e → p'.marks.dirtyOut k = p.marks.dirtyOut k
  dirty : ∀ n, n ∉ p.graph.outs e → p'.marks.dirty n = p.marks.dirty n
  nblock : ∀ k, k ≠ e → p'.sched.nblock k = p.sched.nblock k
  nprune : p'.sched.nprune = p.sched.nprune
  lists : SameLists p.sched p'.sched
  ntotal : p'.sched.ntotal = p.sched.ntotal

theorem Near.time (h : Near e p p') (n : ℕ) : Build.time w p'.marks n = Build.time w p.marks n := by
  rw [time_eq, time_eq, h.mtime]

theorem Near.touched (h : Near e p p') (hg : p.graph.Wf) : Touched w e p p' := by
  have hgraph := h.graph
  exact {
    wf := hgraph ▸ hg
    extend := hgraph ▸ .refl _
    ins := fun _ _ => by rw [hgraph]
    inorderidx := fun _ _ _ => by rw [hgraph]
    work := fun _ _ => by rw [h.work]
    cycle := fun _ _ => by rw [h.cycle]
    dirtyIn := h.dirtyIn
    dirtyOut := h.dirtyOut
    dirty := h.dirty
    time := h.time
    known := fun n hn => by rw [h.mtime, h.time, hn]
    logmtime := h.logmtime
    hash := h.hash
    nblock := h.nblock
    nprune := h.nprune
    lists := h.lists
    ntotal := h.ntotal }

theorem Near.only (h : Near e p p') (hp : Planning w p) (he : e < p.graph.edges)
    (hquiet : ∀ n, Quiet w p n → p.graph.gen n = some e →
      p'.marks.flagDirty e = false ∧ p'.sched.nblock e = 0) : Only w e p p' := by
  refine (h.touched hp.wf).only hp he ?_ ?_
  · intro n hn hgen
    refine ⟨?_, hquiet n hn hgen⟩
    rw [h.graph]
    exact hn.ins e hgen
  · unfold Plan.Pending
    rw [h.graph, h.work]
    exact id

/-- The edge `e` is being added, and the inputs of the list `l` have been. -/
structure Looping (w : Records) (e : ℕ) (l : List ℕ) (p q : Plan) : Prop where
  planning : Planning w q
  keeps : Keeps w (· ≠ e) p q
  adding : q.Adding e
  nblock : q.sched.nblock e = l.countP (blocking q)
  settled : ∀ n ∈ l, Settled w q n
  dirty : q.marks.dirtyOut e = false → ∀ n ∈ q.graph.outs e, q.marks.dirty n = false
  known : ∀ n ∈ q.graph.outs e, q.marks.mtime n = Build.time w q.marks n
  cycle : ∀ k, k ≠ e → q.marks.cycle k = p.marks.cycle k
  pending : ∀ k, q.Pending k → p.Pending k ∧ k ≠ e
  maxjobs : q.graph.maxjobs = p.graph.maxjobs

theorem Looping.notDone (h : Looping w e l p q) : ¬q.Done e := by
  intro hd
  cases h.adding.2.symm.trans hd.2

theorem Looping.ne (h : Looping w e l p q) {k : ℕ} (hk : q.Done k) : k ≠ e := by
  rintro rfl
  exact h.notDone hk

theorem Looping.lt (h : Looping w e l p q) : e < q.graph.edges := h.planning.bound e h.adding.1

theorem Entered.looping (hp : Planning w p) (hnew : p.marks.work e = false)
    (h : Entered w e p q) (he : e < p.graph.edges) : Looping w e [] p q := by
  have hnot : ¬p.Done e := by
    intro hd
    cases hnew.symm.trans hd.1
  refine ⟨hp.only h.only h.adding hnot he, h.only.keeps, h.adding, h.nblock, by simp, ?_, ?_,
    fun k hk => (h.only.flags k hk).2.1, ?_, h.only.maxjobs⟩
  · rw [h.outs]
    exact h.dirty
  · intro n hn
    rw [h.outs] at hn
    rw [h.mtime n hn, h.only.keeps.time]
  · intro k hk
    refine ⟨h.only.pending k hk, ?_⟩
    rintro rfl
    cases h.adding.1.symm.trans hk.2.1

/-- Marks and the counter of the edge change as they should. -/
theorem Looping.near {l' : List ℕ} (h : Looping w e l p q) (hn : Near e q q')
    (hquiet : ∀ n, Quiet w q n → q.graph.gen n = some e →
      q'.marks.flagDirty e = false ∧ q'.sched.nblock e = 0)
    (hblock : q'.sched.nblock e = l'.countP (blocking q)) (hset : ∀ n ∈ l', Settled w q n)
    (hdirty : q'.marks.dirtyOut e = false → q.marks.dirtyOut e = false ∧
      q'.marks.dirty = q.marks.dirty) : Looping w e l' p q' := by
  have honly := hn.only h.planning h.lt hquiet
  have hadd : q'.Adding e := ⟨hn.work ▸ h.adding.1, hn.cycle ▸ h.adding.2⟩
  have hne : ∀ k, q.Done k → k ≠ e := fun k hk => h.ne hk
  refine ⟨h.planning.only honly hadd h.notDone h.lt,
    h.keeps.trans honly.keeps fun _ _ hk => ⟨hk, hk⟩, hadd, ?_, fun n hl => honly.keeps.settled hne (hset n hl), ?_, ?_, ?_, ?_,
    honly.maxjobs.trans h.maxjobs⟩
  case refine_1 =>
    rw [hblock]
    exact List.countP_congr fun n hl => by rw [honly.keeps.blocking hne (hset n hl)]
  case refine_2 =>
    intro hout
    rw [hn.graph, (hdirty hout).2]
    exact h.dirty (hdirty hout).1
  case refine_3 =>
    rw [hn.graph, hn.mtime]
    intro n hout
    rw [hn.time]
    exact h.known n hout
  case refine_4 => exact fun k hk => by rw [hn.cycle, h.cycle k hk]
  case refine_5 => exact fun k hk => h.pending k (honly.pending k hk)

/-- A call for one of the inputs. -/
theorem Looping.built (h : Looping w e l p q) (hb : Built w n q q') :
    Looping w e l p q' ∧ q'.graph.ins e = q.graph.ins e := by
  have hall : ∀ k, q.Done k → True := fun _ _ => trivial
  have hkept := hb.keeps.edge e h.adding.1 trivial
  refine ⟨⟨hb.planning, h.keeps.trans hb.keeps fun _ _ hk => ⟨hk, trivial⟩,
    ⟨hkept.work ▸ h.adding.1, hkept.cycle ▸ h.adding.2⟩, ?_, fun n hl => hb.keeps.settled hall (h.settled n hl), ?_, ?_, ?_,
    fun k hk => h.pending k (hb.pending k hk), hb.maxjobs.trans h.maxjobs⟩, hkept.ins⟩
  case refine_1 =>
    rw [hkept.nblock, h.nblock]
    exact List.countP_congr fun n hl => by rw [hb.keeps.blocking hall (h.settled n hl)]
  case refine_2 =>
    intro hout n hn
    rw [hkept.outs] at hn
    rw [hkept.dirty n hn]
    exact h.dirty (hkept.dirtyOut ▸ hout) n hn
  case refine_3 =>
    rw [hkept.outs]
    exact fun n hn => hb.keeps.known n (h.known n hn)
  case refine_4 =>
    rw [hb.cycle]
    exact h.cycle

theorem countinput_near (i : ℕ) : Near e q (countinput e i n q newest).1 := by
  unfold countinput
  refine ⟨rfl, ?_, ?_, ?_, ?_, ?_, ?_, ?_, ?_, ?_, ?_, ⟨?_, ?_, ?_, ?_⟩, ?_⟩ <;> dsimp only <;>
    split <;> first | rfl | (intro k hk; first | rfl | exact Function.update_of_ne hk ..)

theorem countinput_nblock (i : ℕ) : (countinput e i n q newest).1.sched.nblock e =
    q.sched.nblock e + if blocks q n then 1 else 0 := by
  unfold countinput
  dsimp only
  split
  · exact Function.update_self ..
  · rfl

theorem countinput_dirty (i : ℕ) :
    (countinput e i n q newest).1.marks.dirtyOut = q.marks.dirtyOut ∧
      (countinput e i n q newest).1.marks.dirty = q.marks.dirty := by
  unfold countinput
  dsimp only
  split <;> exact ⟨rfl, rfl⟩

theorem Looping.countinput_only (h : Looping w e l p q) (hin : q.graph.ins e ≠ []) (i n : ℕ) :
    Only w e q (countinput e i n q newest).1 :=
  (countinput_near i).only h.planning h.lt fun _ hk hgen => absurd (hk.ins e hgen) hin

/-- A turn of the loop over the inputs. -/
theorem Looping.turn (h : Looping w e l p q) (hb : Built w n q q') (hin : n ∈ q.graph.ins e)
    (i : ℕ) : Looping w e (l ++ [n]) p (countinput e i n q' newest).1 ∧
      (countinput e i n q' newest).1.graph.ins e = q.graph.ins e := by
  obtain ⟨hl, hins⟩ := h.built hb
  have hne : q'.graph.ins e ≠ [] := hins ▸ List.ne_nil_of_mem hin
  have hset := hb.ready.settled
  refine ⟨hl.near (countinput_near i) ?_ ?_ ?_ ?_, hins⟩
  · exact fun k hk hgen => absurd (hk.ins e hgen) hne
  · rw [countinput_nblock, hl.nblock, hb.ready.blocks hb.planning, List.countP_append,
      List.countP_singleton]
  · intro k hk
    rcases List.mem_append.mp hk with hk | hk
    · exact hl.settled k hk
    · exact List.mem_singleton.mp hk ▸ hset
  · intro hout
    exact ⟨(countinput_dirty i).1 ▸ hout, (countinput_dirty i).2⟩

/-! ### The newest input -/

theorem countinput_dirtyIn (i : ℕ) : (countinput e i n q newest).1.marks.dirtyIn e =
    (q.marks.dirtyIn e || (decide (i < q.graph.inorderidx e) && q.marks.dirty n)) := by
  unfold countinput
  dsimp only
  have hlt : (!decide (q.graph.inorderidx e ≤ i)) = decide (i < q.graph.inorderidx e) := by
    rw [← decide_not]
    exact decide_eq_decide.mpr Nat.not_le
  rw [hlt]
  split
  case isTrue h => simp [h]
  case isFalse h => simp [Bool.eq_false_iff.mpr h]

theorem countinput_newest (i : ℕ) : (countinput e i n q newest).2 =
    if q.graph.inorderidx e ≤ i then newest else newer q.marks newest n := by
  unfold countinput
  simp only [decide_eq_true_eq]

theorem newer_spec (m : Marks) (newest : Option ℕ) (n : ℕ) :
    (m.mtime n ≠ mtimeMissing → ∃ j, newer m newest n = some j ∧ m.mtime n ≤ m.mtime j) ∧
      (∀ k, newest = some k → ∃ j, newer m newest n = some j ∧ m.mtime k ≤ m.mtime j) ∧
        ∀ j, newer m newest n = some j → j = n ∨ newest = some j := by
  unfold newer
  split
  case isTrue h =>
    refine ⟨fun _ => ⟨n, rfl, le_rfl⟩, ?_, fun j hj => .inl (Option.some.inj hj).symm⟩
    rintro k rfl
    have hle : m.mtime k ≤ m.mtime n := by simpa [isnewer] using h.2
    exact ⟨n, rfl, hle⟩
  case isFalse h =>
    refine ⟨?_, fun k hk => ⟨k, hk, le_rfl⟩, fun j hj => .inr hj⟩
    intro hn
    have hnewer : isnewer m newest n = true := by simpa [hn] using h
    rw [isnewer, Option.any_eq_true] at hnewer
    obtain ⟨k, hk, hlt⟩ := hnewer
    exact ⟨k, hk, (of_decide_eq_true hlt).le⟩

/-- The inputs of the list `l` have been seen, of which `newest` is the newest one that is not only
for the order. -/
structure Scanned (w : Records) (e : ℕ) (l : List ℕ) (q : Plan) (newest : Option ℕ) : Prop where
  clean : q.marks.dirtyIn e = false → ∀ k ∈ l.take (q.graph.inorderidx e), Clean q k
  upto : ∀ k ∈ l.take (q.graph.inorderidx e), time w q.marks k ≠ mtimeMissing →
    ∃ j, newest = some j ∧ time w q.marks k ≤ time w q.marks j
  known : ∀ j, newest = some j → q.marks.mtime j = time w q.marks j

theorem Scanned.keeps {K : ℕ → Prop} (h : Scanned w e l q newest) (hk : Keeps w K q q')
    (hK : ∀ e, q.Done e → K e) (hset : ∀ n ∈ l, Settled w q n)
    (hin : q'.marks.dirtyIn e = q.marks.dirtyIn e)
    (hidx : q'.graph.inorderidx e = q.graph.inorderidx e) : Scanned w e l q' newest := by
  refine ⟨?_, ?_, fun j hj => hk.known j (h.known j hj)⟩
  · rw [hin, hidx]
    exact fun hd k hl => hk.clean hK (hset k (List.mem_of_mem_take hl)) (h.clean hd k hl)
  · rw [hidx]
    simpa only [hk.time] using h.upto

theorem mem_take_snoc {k i : ℕ} (h : k ∈ (l ++ [n]).take i) :
    k ∈ l.take i ∨ (k = n ∧ l.length < i) := by
  rw [List.take_append, List.mem_append] at h
  rcases h with h | h
  · exact .inl h
  · refine .inr ⟨List.mem_singleton.mp (List.mem_of_mem_take h), ?_⟩
    by_contra hle
    rw [Nat.sub_eq_zero_of_le (Nat.not_lt.mp hle)] at h
    cases h

/-- The time of the newest input is known, before and after a turn. -/
theorem countinput_known (i : ℕ) (h : ∀ j, newest = some j → q.marks.mtime j = time w q.marks j)
    (hn : q.marks.mtime n = time w q.marks n) (j : ℕ)
    (hj : (countinput e i n q newest).2 = some j) : q.marks.mtime j = time w q.marks j := by
  rw [countinput_newest] at hj
  split at hj
  · exact h j hj
  · rcases (newer_spec q.marks newest n).2.2 j hj with rfl | hj
    · exact hn
    · exact h j hj

theorem Scanned.turn (h : Looping w e l p q) (hs : Scanned w e l q newest) (hb : Built w n q q')
    (hin : n ∈ q.graph.ins e) : Scanned w e (l ++ [n])
      (countinput e l.length n q' newest).1 (countinput e l.length n q' newest).2 := by
  have hkept := hb.keeps.edge e h.adding.1 trivial
  obtain ⟨hl, hins⟩ := h.built hb
  have hs' := hs.keeps hb.keeps (fun _ _ => trivial) h.settled hkept.dirtyIn hkept.inorderidx
  have honly : Only w e q' (countinput e l.length n q' newest).1 :=
    hl.countinput_only (hins ▸ List.ne_nil_of_mem hin) l.length n
  have hne : ∀ k, q'.Done k → k ≠ e := fun k hk => hl.ne hk
  have hknown := hb.ready.known hb.planning
  have hsettled : ∀ k ∈ l, Settled w q' k := fun k hk =>
    hb.keeps.settled (fun _ _ => trivial) (h.settled k hk)
  have hidx : (countinput e l.length n q' newest).1.graph.inorderidx e =
      q'.graph.inorderidx e := rfl
  obtain ⟨hself, hprev, -⟩ := newer_spec q'.marks newest n
  have hlast := countinput_known (e := e) l.length hs'.known hknown
  refine ⟨?_, ?_, ?_⟩
  case refine_1 =>
    intro hd k hk
    rw [countinput_dirtyIn, Bool.or_eq_false_iff] at hd
    rw [hidx] at hk
    rcases mem_take_snoc hk with hk | ⟨rfl, hlt⟩
    · exact honly.keeps.clean hne (hsettled k (List.mem_of_mem_take hk)) (hs'.clean hd.1 k hk)
    · have hclean : q'.marks.dirty k = false := by simpa [hlt] using hd.2
      exact honly.keeps.clean hne hb.ready.settled (hb.ready.clean hb.planning hclean)
  case refine_2 =>
    intro k hk hexists
    rw [hidx] at hk
    simp only [honly.keeps.time] at hexists ⊢
    rw [countinput_newest]
    rcases mem_take_snoc hk with hk | ⟨rfl, hlt⟩
    · obtain ⟨j, hj, hle⟩ := hs'.upto k hk hexists
      split
      case isTrue => exact ⟨j, hj, hle⟩
      case isFalse hidx' =>
        obtain ⟨j', hj', hle'⟩ := hprev j hj
        have hj₂ := hlast j' (by rw [countinput_newest, if_neg hidx', hj'])
        rw [hs'.known j hj, hj₂] at hle'
        exact ⟨j', hj', hle.trans hle'⟩
    · rw [if_neg (Nat.not_le.mpr hlt)]
      rw [← hknown] at hexists ⊢
      obtain ⟨j, hj, hle⟩ := hself hexists
      have hj₂ := hlast j (by rw [countinput_newest, if_neg (Nat.not_le.mpr hlt), hj])
      exact ⟨j, hj, hj₂ ▸ hle⟩
  case refine_3 => exact fun j hj => honly.keeps.known j (hlast j hj)

/-- Why `buildadd` stops with an error. -/
def Refused : Halt → Prop
  | .missing _ | .cycle _ => True
  | _ => False

/-- The loop over the inputs. -/
theorem Looping.inputs {add : ℕ → Plan → Except Halt Plan} {ins : List ℕ}
    (hadd : ∀ n q, Planning w q → (∀ k, q.Pending k → p.Pending k ∧ k ≠ e) → ins ≠ [] →
      Gives Refused (Built w n q) (add n q))
    (todo : List ℕ) (h : Looping w e l p q) (hs : Scanned w e l q newest)
    (hq : q.graph.ins e = ins) (hins : ins = l ++ todo) :
    Gives Refused (fun r => Looping w e (r.1.graph.ins e) p r.1 ∧
        Scanned w e (r.1.graph.ins e) r.1 r.2)
      (each (addinput add e) (todo.zipIdx l.length) (q, newest)) := by
  induction todo generalizing l q newest with
  | nil =>
    rw [List.append_nil] at hins
    rw [← hins, ← hq] at h hs
    exact ⟨h, hs⟩
  | cons i todo ih =>
    have hin : i ∈ ins := by simp [hins]
    rw [List.zipIdx_cons, each, addinput]
    refine Gives.bind (P := fun r => Looping w e (l ++ [i]) p r.1 ∧
      Scanned w e (l ++ [i]) r.1 r.2 ∧ r.1.graph.ins e = q.graph.ins e) ?_ ?_
    · refine (hadd i q h.planning h.pending (List.ne_nil_of_mem hin)).bind ?_
      intro q' hb
      have hturn : Looping w e (l ++ [i]) p (countinput e l.length i q' newest).1 ∧
          (countinput e l.length i q' newest).1.graph.ins e = q.graph.ins e :=
        h.turn hb (hq ▸ hin) l.length
      exact ⟨hturn.1, hs.turn h hb (hq ▸ hin), hturn.2⟩
    · intro r hr
      have hnext := ih hr.1 hr.2.1 (hr.2.2.trans hq) (by rw [hins, List.append_assoc]; rfl)
      rwa [List.length_append] at hnext

end Bootsh.Samu.Build
