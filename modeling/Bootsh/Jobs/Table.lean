import Mathlib.Algebra.Group.Nat.Defs
import Mathlib.Data.List.Perm.Subperm
import Mathlib.Data.List.TakeWhile
import Bootsh.Lib.Links

/-!
The job table: an array of entries, reallocated when it is full, and through it a list from
`curjob` on by the field `prev_job` of the entries.
-/
namespace Bootsh

/-! ### Status words -/

def WIFEXITED (status : Int) : Bool := status % 128 = 0

def WEXITSTATUS (status : Int) : Int := status / 256 % 256

def WIFSTOPPED (status : Int) : Bool := status % 256 = 127

def WSTOPSIG (status : Int) : Int := WEXITSTATUS status

def WTERMSIG (status : Int) : Int := status % 128

/-! ### Jobs -/

structure Procstat where
  pid : Int
  /-- What `wait` said last, `-1` before it has said anything. -/
  status : Int
  cmd : List Char
deriving DecidableEq

inductive JobState
  | running | stopped | done
deriving DecidableEq

structure Job where
  /-- The first `nprocs` entries of the array. -/
  ps : List Procstat
  state : JobState
  jobctl : Bool
  waited : Bool
  used : Bool
  changed : Bool
  prev_job : Option Nat
deriving DecidableEq

/-- An entry that `memset` has cleared. -/
def Job.zero : Job :=
  { ps := [], state := .running, jobctl := false, waited := false, used := false,
    changed := false, prev_job := none }

instance : Inhabited Job := ⟨Job.zero⟩

/-- An entry without its pointer. -/
def Job.unlinked (j : Job) : Job := { j with prev_job := none }

structure Jobs where
  /-- The address of the first entry, counted in entries. -/
  jobtab : Nat
  tab : List Job
  curjob : Option Nat
  backgndpid : Int
  jobctl : Bool
  pipefail : Bool
  job_warning : Nat
deriving DecidableEq

namespace Jobs

/-- The entry at an address. -/
def entryAt (t : Jobs) (p : Nat) : Option Job :=
  if t.jobtab ≤ p then t.tab[p - t.jobtab]? else none

def put (t : Jobs) (p : Nat) (j : Job) : Jobs :=
  { t with tab := t.tab.set (p - t.jobtab) j }

/-- The list that the pointers make. -/
def links (t : Jobs) : Links Nat where
  head := t.curjob
  next p := (t.entryAt p).bind Job.prev_job

/-- A pointer is stored in `curjob` or in the field `prev_job` of an entry. -/
def store (t : Jobs) (slot v : Option Nat) : Option Jobs :=
  match slot with
  | none => some { t with curjob := v }
  | some a => (t.entryAt a).map fun j => t.put a { j with prev_job := v }

def fuel (t : Jobs) : Nat := t.tab.length + 1

def isStopped (t : Jobs) (p : Nat) : Bool := (t.entryAt p).any (·.state = .stopped)

inductive CurMode
  | delete | running | stopped
deriving DecidableEq

def relink (t : Jobs) (jpp : Option Nat) (jp : Nat) : Option Jobs := do
  let t ← t.store (some jp) (t.links.get jpp)
  t.store jpp (some jp)

/-- There is no result where a null pointer is followed. -/
def set_curjob (t : Jobs) (jp : Nat) (mode : CurMode) : Option Jobs := do
  let jpp ← t.links.seek (· = some jp) t.fuel none
  let t ← t.store jpp (t.links.next jp)
  match mode with
  | .delete => some t
  | .running =>
    let jpp ← t.links.seek (fun jp1 => !jp1.any t.isStopped) t.fuel none
    t.relink jpp jp
  | .stopped => t.relink none jp

def freejob (t : Jobs) (jp : Nat) : Option Jobs := do
  let j ← t.entryAt jp
  (t.put jp { j with used := false }).set_curjob jp .delete

/-- The table moves to the address `base` and gets four entries more. -/
def growjobtab (t : Jobs) (base : Nat) : Jobs :=
  let move := fun p => p + base - t.jobtab
  { t with
    jobtab := base
    curjob := t.curjob.map move
    tab := t.tab.map (fun j => { j with prev_job := j.prev_job.map move }) ++
      List.replicate 4 Job.zero }

/-- The index of the first entry that is free, or can be freed. -/
def freeEntry (t : Jobs) : Option Nat :=
  t.tab.findIdx? fun j => !j.used || (j.state = .done && j.waited && !t.jobctl)

/-- A new job in the entry at `jp`, which becomes the head of the list. -/
def enter (t : Jobs) (jp : Nat) : Jobs :=
  { t.put jp { Job.zero with jobctl := t.jobctl, used := true, prev_job := t.curjob } with
    curjob := some jp }

/-- A job that is done and has been waited for gives back its entry. -/
def reclaim (t : Jobs) (jp : Nat) : Option Jobs :=
  (t.entryAt jp).bind fun j => if j.used then t.freejob jp else some t

/-- The address where `realloc` puts a table that is full is `base`. -/
def makejob (t : Jobs) (base : Nat) : Option (Nat × Jobs) :=
  match t.freeEntry with
  | none =>
    let jp := base + t.tab.length
    some (jp, (t.growjobtab base).enter jp)
  | some i =>
    let jp := t.jobtab + i
    (t.reclaim jp).map fun t => (jp, t.enter jp)

/-! ### Entries and pointers -/

variable {t t' : Jobs} {p q jp : Nat} {j : Job} {slot v : Option Nat} {l : List Nat}

/-- The table without its pointers. -/
def unlinked (t : Jobs) : Jobs :=
  { t with curjob := none, tab := t.tab.map Job.unlinked }

theorem entryAt_of_le (h : t.jobtab ≤ p) : t.entryAt p = t.tab[p - t.jobtab]? := if_pos h

theorem entryAt_of_not_le (h : ¬ t.jobtab ≤ p) : t.entryAt p = none := if_neg h

theorem entryAt_unlinked :
    t.unlinked.entryAt p = (t.entryAt p).map Job.unlinked := by
  by_cases h : t.jobtab ≤ p
  · rw [entryAt_of_le h, entryAt_of_le (t := t.unlinked) h, ← List.getElem?_map]
    rfl
  · rw [entryAt_of_not_le h, entryAt_of_not_le (t := t.unlinked) h]
    rfl

theorem lt_of_entry (h : t.entryAt p = some j) :
    t.jobtab ≤ p ∧ p - t.jobtab < t.tab.length := by
  by_cases hle : t.jobtab ≤ p
  · rw [entryAt_of_le hle] at h
    exact ⟨hle, (List.getElem?_eq_some_iff.1 h).1⟩
  · rw [entryAt_of_not_le hle] at h
    cases h

theorem entryAt_put (h : t.entryAt p = some j) (j' : Job) (q : Nat) :
    (t.put p j').entryAt q = if q = p then some j' else t.entryAt q := by
  obtain ⟨hle, hlt⟩ := lt_of_entry h
  by_cases hle' : t.jobtab ≤ q
  · rw [entryAt_of_le hle', entryAt_of_le (t := t.put p j') hle']
    change (t.tab.set (p - t.jobtab) j')[q - t.jobtab]? = _
    by_cases hq : q = p
    · subst hq
      rw [if_pos rfl, List.getElem?_set_self hlt]
    · rw [if_neg hq, List.getElem?_set_ne (by omega)]
  · have hq : q ≠ p := by
      rintro rfl
      exact hle' hle
    rw [if_neg hq, entryAt_of_not_le hle', entryAt_of_not_le (t := t.put p j') hle']

theorem links_put (h : t.entryAt p = some j) (j' : Job) :
    (t.put p j').links = t.links.set (some p) j'.prev_job := by
  simp only [links, Links.set]
  congr 1
  funext q
  rw [entryAt_put h]
  by_cases hq : q = p
  · subst hq
    rw [if_pos rfl, Function.update_self]
    rfl
  · rw [if_neg hq, Function.update_of_ne hq]

theorem links_put_same (h : t.entryAt p = some j) (j' : Job) (hj : j'.prev_job = j.prev_job) :
    (t.put p j').links = t.links := by
  rw [links_put h, hj]
  simp only [links, Links.set]
  congr 1
  rw [Function.update_eq_self_iff, h]
  rfl

theorem unlinked_put (h : t.entryAt p = some j) (v : Option Nat) :
    (t.put p { j with prev_job := v }).unlinked = t.unlinked := by
  obtain ⟨hle, hlt⟩ := lt_of_entry h
  rw [entryAt, if_pos hle] at h
  simp only [unlinked, put, Jobs.mk.injEq, and_true, true_and]
  refine List.ext_getElem? fun i => ?_
  rw [List.getElem?_map, List.getElem?_map]
  by_cases hi : i = p - t.jobtab
  · subst hi
    rw [List.getElem?_set_self hlt, h]
    rfl
  · rw [List.getElem?_set_ne (Ne.symm hi)]

theorem store_spec (h : ∀ a, slot = some a → (t.entryAt a).isSome) :
    ∃ t', t.store slot v = some t' ∧ t'.unlinked = t.unlinked ∧
      t'.links = t.links.set slot v := by
  cases slot with
  | none => exact ⟨_, rfl, rfl, rfl⟩
  | some a =>
    obtain ⟨j, hj⟩ := Option.isSome_iff_exists.1 (h a rfl)
    refine ⟨t.put a { j with prev_job := v }, ?_, unlinked_put hj v, links_put hj _⟩
    rw [store, hj]
    rfl

theorem isSome_of_unlinked (h : t'.unlinked = t.unlinked) :
    (t'.entryAt p).isSome = (t.entryAt p).isSome := by
  have hp := congrArg (fun t => (entryAt t p).isSome) h
  simpa only [entryAt_unlinked, Option.isSome_map] using hp

theorem isStopped_of_unlinked (h : t'.unlinked = t.unlinked) : t'.isStopped = t.isStopped := by
  funext p
  have hp := congrArg (fun t => isStopped t p) h
  simp only [isStopped, entryAt_unlinked, Option.any_map] at hp
  exact hp

theorem fuel_of_unlinked (h : t'.unlinked = t.unlinked) : t'.fuel = t.fuel := by
  have hlen := congrArg (fun t => t.tab.length + 1) h
  simp only [unlinked, List.length_map] at hlen
  exact hlen

theorem length_lt_fuel (hnodup : l.Nodup) (hent : ∀ p ∈ l, (t.entryAt p).isSome) :
    l.length < t.fuel := by
  have hsub : l ⊆ List.range' t.jobtab t.tab.length := by
    intro p hp
    obtain ⟨j, hj⟩ := Option.isSome_iff_exists.1 (hent p hp)
    obtain ⟨hle, hlt⟩ := lt_of_entry hj
    rw [List.mem_range'_1]
    omega
  have hle := (hnodup.subperm hsub).length_le
  rw [List.length_range'] at hle
  exact Nat.lt_succ_of_le hle

/-! ### The list -/

/-- Where `set_curjob` puts a job into the list of the others. -/
def placed (t : Jobs) (mode : CurMode) (jp : Nat) (l : List Nat) : List Nat :=
  match mode with
  | .delete => l
  | .running => l.takeWhile t.isStopped ++ jp :: l.dropWhile t.isStopped
  | .stopped => jp :: l

theorem relink_spec {l₁ l₂ : List Nat} (h : t.links.Holds (l₁ ++ l₂)) (hjp : jp ∉ l₁ ++ l₂)
    (hent : ∀ p ∈ jp :: (l₁ ++ l₂), (t.entryAt p).isSome) :
    ∃ t', t.relink l₁.getLast? jp = some t' ∧ t'.unlinked = t.unlinked ∧
      t'.links.Holds (l₁ ++ jp :: l₂) := by
  have hjpent : ∀ a, some jp = some a → (t.entryAt a).isSome := by
    intro a ha
    cases ha
    exact hent jp (by simp)
  obtain ⟨t₁, hstore₁, hun₁, hlinks₁⟩ :=
    @store_spec t (some jp) (t.links.get l₁.getLast?) hjpent
  have hlast : ∀ a, l₁.getLast? = some a → (t₁.entryAt a).isSome := by
    intro a ha
    rw [isSome_of_unlinked hun₁]
    exact hent a (by simp [List.mem_of_getLast? ha])
  obtain ⟨t₂, hstore₂, hun₂, hlinks₂⟩ := @store_spec t₁ l₁.getLast? (some jp) hlast
  refine ⟨t₂, ?_, hun₂.trans hun₁, ?_⟩
  · rw [relink, hstore₁]
    exact hstore₂
  · rw [hlinks₂, hlinks₁]
    exact h.insert hjp

/-- `set_curjob` moves the job to its place and leaves everything else. -/
theorem set_curjob_spec (h : t.links.Holds l) (hjp : jp ∈ l)
    (hent : ∀ p ∈ l, (t.entryAt p).isSome) (mode : CurMode) :
    ∃ t', t.set_curjob jp mode = some t' ∧ t'.unlinked = t.unlinked ∧
      t'.links.Holds (t.placed mode jp (l.erase jp)) := by
  have hnodup := h.nodup
  have hlen := length_lt_fuel hnodup hent
  obtain ⟨l₁, l₂, rfl⟩ := List.append_of_mem hjp
  have hnot : jp ∉ l₁ := fun hin => List.disjoint_of_nodup_append hnodup hin (by simp)
  have herase : (l₁ ++ jp :: l₂).erase jp = l₁ ++ l₂ := by
    rw [List.erase_append_right _ hnot, List.erase_cons_head]
  rw [herase]
  have hseek : t.links.seek (fun q => q = some jp) t.fuel none = some l₁.getLast? := by
    refine h.seek (fun a ha => ?_) (by simp) ?_
    · have hne : a ≠ jp := by
        rintro rfl
        exact hnot ha
      simp [hne]
    · rw [List.length_append] at hlen
      omega
  have hlast : ∀ a, l₁.getLast? = some a → (t.entryAt a).isSome := fun a ha =>
    hent a (by simp [List.mem_of_getLast? ha])
  obtain ⟨t₁, hstore, hun, hlinks⟩ := @store_spec t l₁.getLast? (t.links.next jp) hlast
  have hrest : t₁.links.Holds (l₁ ++ l₂) := by
    rw [hlinks]
    exact h.remove
  have hjp' : jp ∉ l₁ ++ l₂ := by
    rw [← herase]
    exact hnodup.not_mem_erase
  have hent₁ : ∀ p ∈ jp :: (l₁ ++ l₂), (t₁.entryAt p).isSome := by
    intro p hp
    rw [isSome_of_unlinked hun]
    exact hent p (by simpa [or_left_comm] using hp)
  rw [set_curjob, hseek, Option.bind_eq_bind, Option.bind_some, hstore, Option.bind_eq_bind,
    Option.bind_some]
  cases mode with
  | delete => exact ⟨t₁, rfl, hun, hrest⟩
  | running =>
    have hsplit := (List.takeWhile_append_dropWhile (p := t₁.isStopped) (l := l₁ ++ l₂)).symm
    have hseek₁ : t₁.links.seek (fun jp1 => !jp1.any t₁.isStopped) t₁.fuel none =
        some ((l₁ ++ l₂).takeWhile t₁.isStopped).getLast? := by
      rw [hsplit] at hrest
      refine hrest.seek (fun a ha => ?_) ?_ ?_
      · simp [List.mem_takeWhile_imp ha]
      · have hhead := List.head?_dropWhile_not t₁.isStopped (l₁ ++ l₂)
        cases hdrop : (l₁ ++ l₂).dropWhile t₁.isStopped with
        | nil => rfl
        | cons a l =>
          rw [hdrop] at hhead
          simpa using hhead
      · have hle := (List.takeWhile_sublist (l := l₁ ++ l₂) t₁.isStopped).length_le
        rw [fuel_of_unlinked hun]
        simp only [List.length_append, List.length_cons] at hlen hle
        omega
    rw [hsplit] at hrest hjp' hent₁
    obtain ⟨t₂, hrelink, hun₂, hholds⟩ := relink_spec hrest hjp' hent₁
    refine ⟨t₂, ?_, hun₂.trans hun, ?_⟩
    · rw [hseek₁]
      exact hrelink
    · rw [isStopped_of_unlinked hun] at hholds
      exact hholds
  | stopped =>
    obtain ⟨t₂, hrelink, hun₂, hholds⟩ := @relink_spec t₁ jp [] _ hrest hjp' hent₁
    exact ⟨t₂, hrelink, hun₂.trans hun, hholds⟩

end Jobs
end Bootsh
