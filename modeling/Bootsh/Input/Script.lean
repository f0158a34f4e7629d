import Bootsh.Input.Buffer
import Bootsh.Lib.Run
import Mathlib.Data.List.Forall2

/-!
What a script is read as: the bytes of its file without the nul characters, and from standard
input no byte more than has been delivered.
-/
namespace Bootsh
open Run

variable {st : Script} {t : Text}

/-! ### The buffer -/

/-- The bytes of a text that are delivered. -/
def nonNul (t : Text) : Text := t.filter (· ≠ '\x00')

theorem nonNul_append (t u : Text) : nonNul (t ++ u) = nonNul t ++ nonNul u := List.filter_append ..

theorem memmoveDown_append (pre new post : Text) (c : Char) : ∃ post',
    memmoveDown (pre ++ (c :: new ++ post)) pre.length new.length = pre ++ (new ++ post') := by
  refine ⟨(c :: new ++ post).drop new.length, ?_⟩
  have htake : (pre ++ (c :: new ++ post)).take pre.length = pre := List.take_left
  have hdrop : (pre ++ (c :: new ++ post)).drop (pre.length + 1) = new ++ post := by
    rw [List.drop_append]
    simp
  have hrest : (pre ++ (c :: new ++ post)).drop (pre.length + new.length) =
      (c :: new ++ post).drop new.length := by
    rw [List.drop_append]
    simp
  rw [memmoveDown, htake, hdrop, hrest, List.take_left, List.append_assoc]

/-- The bytes that are kept stand together, and what is after them is left over. -/
theorem deleteNuls_append (pre new post : Text) : ∃ junk,
    deleteNuls new.length (pre ++ (new ++ post)) pre.length =
      (pre ++ (nonNul new ++ junk), pre.length + (nonNul new).length) := by
  induction new generalizing pre post with
  | nil => exact ⟨post, rfl⟩
  | cons c new ih =>
    have hget : (pre ++ (c :: new ++ post)).getD pre.length '\x00' = c := by simp
    rw [List.length_cons, deleteNuls, hget]
    by_cases hc : c = '\x00'
    · obtain ⟨post', hmove⟩ := memmoveDown_append pre new post c
      obtain ⟨junk, hjunk⟩ := ih pre post'
      refine ⟨junk, ?_⟩
      rw [if_pos hc, hmove, hjunk]
      simp [nonNul, hc]
    · obtain ⟨junk, hjunk⟩ := ih (pre ++ [c]) post
      refine ⟨junk, ?_⟩
      rw [if_neg hc]
      simp only [List.append_assoc, List.singleton_append, List.length_append,
        List.length_singleton] at hjunk
      rw [List.cons_append, hjunk]
      simp [nonNul, hc]
      omega

namespace Script

/-- What is in the buffer and still to be delivered. -/
def buffered (st : Script) : Text := (st.buf.drop st.nextc).take st.nleft.toNat

/-- What is still to be delivered. -/
def undelivered (st : Script) : Text := st.buffered ++ nonNul st.desc.rest

/-! ### Reading standard input -/

/-- The arrivals, `O_NONBLOCK` and `errno` after the calls of `read` that fail. -/
def failures : List Arrival → Bool → ReadErrno → List Arrival × Bool × ReadErrno
  | .signal :: arrivals, nonblock, _ => failures arrivals nonblock .eintr
  | .nothing :: arrivals, nonblock, errno =>
    failures arrivals false (if nonblock then .ewouldblock else errno)
  | arrivals, nonblock, errno => (arrivals, nonblock, errno)

/-- `errno` when the end of the file is read after the bytes of `t`. -/
def endErrno : Text → List Arrival → Bool → ReadErrno → ReadErrno
  | [], arrivals, nonblock, errno => (failures arrivals nonblock errno).2.2
  | _ :: t, arrivals, nonblock, errno =>
    let r := failures arrivals nonblock errno
    endErrno t r.1.tail r.2.1 r.2.2

/-- The end of standard input is next, and an earlier call of `read` (or another call) has left
`EWOULDBLOCK` in `errno`. -/
structure Stuck (st : Script) : Prop where
  stdin : st.fd = 0
  unget : st.unget = 0
  buffered : st.nleft = 0
  atEnd : nonNul st.desc.rest = []
  errno : endErrno st.desc.rest st.desc.arrivals st.desc.nonblock st.errno = .ewouldblock

instance (st : Script) : Decidable st.Stuck :=
  decidable_of_iff (st.fd = 0 ∧ st.unget = 0 ∧ st.nleft = 0 ∧ nonNul st.desc.rest = [] ∧
      endErrno st.desc.rest st.desc.arrivals st.desc.nonblock st.errno = .ewouldblock)
    ⟨fun ⟨h₁, h₂, h₃, h₄, h₅⟩ => ⟨h₁, h₂, h₃, h₄, h₅⟩, fun ⟨h₁, h₂, h₃, h₄, h₅⟩ => ⟨h₁, h₂, h₃, h₄, h₅⟩⟩

variable {rest : Text} {arrivals : List Arrival} {nonblock : Bool} {errno : ReadErrno} {fuel : ℕ}

theorem readFrom_arrivals (len : ℕ) (d : Descriptor) (as as' : List Arrival) :
    ({ d with arrivals := as' } : Descriptor).readFrom len as = d.readFrom len as := by
  induction as with
  | nil => rfl
  | cons a as ih => cases a <;> simp [Descriptor.readFrom, ih]

theorem failures_ready (as : List Arrival) (nb : Bool) (e : ReadErrno) :
    (failures as nb e).1 = [] ∨ ∃ n as', (failures as nb e).1 = .bytes n :: as' := by
  induction as generalizing nb e with
  | nil => exact .inl rfl
  | cons a as ih =>
    cases a with
    | bytes n => exact .inr ⟨n, as, rfl⟩
    | signal => exact ih nb .eintr
    | nothing => exact ih false _

theorem failures_length (as : List Arrival) (nb : Bool) (e : ReadErrno) :
    (failures as nb e).1.length ≤ as.length := by
  induction as generalizing nb e with
  | nil => exact le_rfl
  | cons a as ih =>
    cases a with
    | bytes n => exact le_rfl
    | signal => exact (ih nb .eintr).trans (Nat.le_succ _)
    | nothing => exact (ih false _).trans (Nat.le_succ _)

theorem failures_failures (as : List Arrival) (nb : Bool) (e : ReadErrno) :
    failures (failures as nb e).1 (failures as nb e).2.1 (failures as nb e).2.2 =
      failures as nb e := by
  induction as generalizing nb e with
  | nil => rfl
  | cons a as ih =>
    cases a with
    | bytes n => rfl
    | signal => exact ih nb .eintr
    | nothing => exact ih false _

/-- Nothing but the buffer, the file and `errno` is different. -/
structure Kept (st st' : Script) : Prop where
  fd : st'.fd = st.fd
  unget : st'.unget = st.unget

/-- `st'` is `st` after the calls of `read` that fail. -/
structure Settled (st st' : Script) : Prop extends Kept st st' where
  rest : st'.desc.rest = st.desc.rest
  failed : (st'.desc.arrivals, st'.desc.nonblock, st'.errno) =
    failures st.desc.arrivals st.desc.nonblock st.errno

theorem preadfd_signal (hdesc : st.desc = ⟨rest, .signal :: arrivals, nonblock⟩) :
    st.preadfd (fuel + 1) = preadfd fuel
      { st with nextc := 0, desc := ⟨rest, arrivals, nonblock⟩, errno := .eintr } := by
  simp [preadfd, readBuf, Descriptor.read, hdesc, Descriptor.readFrom]

theorem preadfd_nonblock (hfd : st.fd = 0) (hdesc : st.desc = ⟨rest, .nothing :: arrivals, true⟩) :
    ∃ out2, st.preadfd (fuel + 1) = preadfd fuel { st with
      nextc := 0, desc := ⟨rest, arrivals, false⟩, errno := .ewouldblock, out2 } := by
  refine ⟨st.out2 ++ "sh: turning off NDELAY mode\n".toList, ?_⟩
  simp [preadfd, readBuf, Descriptor.read, hdesc, hfd, Descriptor.readFrom, stdinClearNonblock]

theorem preadfd_wait (hdesc : st.desc = ⟨rest, .nothing :: arrivals, false⟩) :
    st.preadfd fuel = preadfd fuel { st with desc := ⟨rest, arrivals, false⟩ } := by
  cases fuel with
  | zero => rfl
  | succ fuel =>
    have hread (len : ℕ) : st.desc.read len = Descriptor.read len ⟨rest, arrivals, false⟩ := by
      rw [hdesc]
      exact readFrom_arrivals len ⟨rest, arrivals, false⟩ arrivals _
    have hbuf (len : ℕ) : readBuf len { st with nextc := 0 } =
        readBuf len { st with nextc := 0, desc := ⟨rest, arrivals, false⟩ } := by
      simp only [readBuf, hread]
    simp only [preadfd, hbuf]

/-- Standard input is read after the calls that fail. -/
theorem preadfd_settled (hfd : st.fd = 0) (hdesc : st.desc = ⟨rest, arrivals, nonblock⟩) (fuel : ℕ) :
    (st.preadfd fuel = none ∧ fuel ≤ arrivals.length) ∨
    ∃ k st', st.preadfd fuel = st'.preadfd (k + 1) ∧ Settled st st' := by
  induction arrivals generalizing st fuel nonblock with
  | nil =>
    cases fuel with
    | zero => exact .inl ⟨rfl, Nat.zero_le _⟩
    | succ fuel => exact .inr ⟨fuel, st, rfl, ⟨rfl, rfl⟩, rfl, by rw [hdesc]; rfl⟩
  | cons a arrivals ih =>
    cases fuel with
    | zero => exact .inl ⟨rfl, Nat.zero_le _⟩
    | succ fuel =>
      cases a with
      | bytes n => exact .inr ⟨fuel, st, rfl, ⟨rfl, rfl⟩, rfl, by rw [hdesc]; rfl⟩
      | signal =>
        rw [preadfd_signal hdesc]
        rcases @ih { st with nextc := 0, desc := ⟨rest, arrivals, nonblock⟩, errno := .eintr }
          nonblock hfd rfl fuel with ⟨hnone, hle⟩ | ⟨k, st', heq, h⟩
        · exact .inl ⟨hnone, Nat.succ_le_succ hle⟩
        · refine .inr ⟨k, st', heq, ⟨h.fd, h.unget⟩, h.rest.trans (by rw [hdesc]), ?_⟩
          rw [hdesc, h.failed]
          rfl
      | nothing =>
        cases nonblock with
        | true =>
          obtain ⟨out2, hread⟩ := @preadfd_nonblock st rest arrivals fuel hfd hdesc
          rw [hread]
          rcases @ih
            { st with nextc := 0, desc := ⟨rest, arrivals, false⟩, errno := .ewouldblock, out2 }
            false hfd rfl fuel with ⟨hnone, hle⟩ | ⟨k, st', heq, h⟩
          · exact .inl ⟨hnone, Nat.succ_le_succ hle⟩
          · refine .inr ⟨k, st', heq, ⟨h.fd, h.unget⟩, h.rest.trans (by rw [hdesc]), ?_⟩
            rw [hdesc, h.failed]
            rfl
        | false =>
          rw [preadfd_wait hdesc]
          rcases @ih { st with desc := ⟨rest, arrivals, false⟩ } false hfd rfl (fuel + 1)
            with ⟨hnone, hle⟩ | ⟨k, st', heq, h⟩
          · exact .inl ⟨hnone, hle.trans (Nat.le_succ _)⟩
          · refine .inr ⟨k, st', heq, ⟨h.fd, h.unget⟩, h.rest.trans (by rw [hdesc]), ?_⟩
            rw [hdesc, h.failed]
            rfl

/-- One call of `read` has put the bytes `new` into the buffer. -/
structure Filled (st st' : Script) (new : Text) : Prop extends Kept st st' where
  nextc : st'.nextc = 0
  buf : ∃ junk, st'.buf = new ++ junk
  rest : st.desc.rest = new ++ st'.desc.rest
  arrivals : st'.desc.arrivals.length ≤ st.desc.arrivals.length
  nonblock : st.desc.nonblock = false → st'.desc.nonblock = false
  errno : st.fd = 0 → endErrno st.desc.rest st.desc.arrivals st.desc.nonblock st.errno =
    endErrno st'.desc.rest st'.desc.arrivals st'.desc.nonblock st'.errno

/-- The calls of `read` that fail are over. -/
def Ready (st : Script) : Prop :=
  failures st.desc.arrivals st.desc.nonblock st.errno =
    (st.desc.arrivals, st.desc.nonblock, st.errno)

theorem Ready.cases (h : st.Ready) :
    st.desc.arrivals = [] ∨ ∃ n as, st.desc.arrivals = .bytes n :: as := by
  have := failures_ready st.desc.arrivals st.desc.nonblock st.errno
  rwa [h] at this

theorem Settled.ready {st' : Script} (h : Settled st st') : st'.Ready := by
  have := failures_failures st.desc.arrivals st.desc.nonblock st.errno
  rwa [← h.failed] at this

theorem preadfd_ready_byte {c : Char} (hfd : st.fd = 0)
    (hdesc : st.desc = ⟨c :: rest, arrivals, nonblock⟩) (h : st.Ready) :
    ∃ st', st.preadfd (fuel + 1) = some (1, st') ∧ Filled st st' [c] := by
  have hready := h
  unfold Ready at hready
  rw [hdesc] at hready
  rcases h.cases with has | ⟨n, as, has⟩
  · obtain rfl : arrivals = [] := by rw [← has, hdesc]
    refine ⟨{ st with nextc := 0, desc := ⟨rest, [], nonblock⟩, buf := c :: st.buf.drop 1 }, ?_,
      ⟨rfl, rfl⟩, rfl, ⟨_, rfl⟩, by rw [hdesc]; rfl, Nat.zero_le _, by simp [hdesc], fun _ => ?_⟩
    · simp [preadfd, readBuf, Descriptor.read, hdesc, Descriptor.readFrom, hfd]
    · rw [hdesc, endErrno]
      rfl
  · obtain rfl : arrivals = .bytes n :: as := by rw [← has, hdesc]
    refine ⟨{ st with nextc := 0, desc := ⟨rest, as, nonblock⟩, buf := c :: st.buf.drop 1 }, ?_,
      ⟨rfl, rfl⟩, rfl, ⟨_, rfl⟩, by rw [hdesc]; rfl, by simp [hdesc], by simp [hdesc],
      fun _ => ?_⟩
    · have hmin : min 1 (n + 1) = 1 := by omega
      simp [preadfd, readBuf, Descriptor.read, hdesc, Descriptor.readFrom, hfd, hmin]
    · rw [hdesc, endErrno]
      rfl

theorem preadfd_ready_end (hfd : st.fd = 0) (hdesc : st.desc = ⟨[], arrivals, nonblock⟩)
    (h : st.Ready) : st.preadfd (fuel + 1) =
      if st.errno = .ewouldblock then
        preadfd fuel { st with
          nextc := 0, desc := ⟨[], arrivals, false⟩,
          out2 := st.out2 ++ "sh: turning off NDELAY mode\n".toList }
      else some (0, { st with nextc := 0, desc := ⟨[], arrivals, nonblock⟩ }) := by
  rcases h.cases with has | ⟨n, as, has⟩
  · obtain rfl : arrivals = [] := by rw [← has, hdesc]
    simp [preadfd, readBuf, Descriptor.read, hdesc, Descriptor.readFrom, hfd, stdinClearNonblock]
  · obtain rfl : arrivals = .bytes n :: as := by rw [← has, hdesc]
    simp [preadfd, readBuf, Descriptor.read, hdesc, Descriptor.readFrom, hfd, stdinClearNonblock]

theorem endErrno_failures (t : Text) (as : List Arrival) (nb : Bool) (e : ReadErrno) :
    endErrno t (failures as nb e).1 (failures as nb e).2.1 (failures as nb e).2.2 =
      endErrno t as nb e := by
  cases t <;> simp [endErrno, failures_failures]

theorem Settled.filled {st₁ st' : Script} {new : Text} (h : Settled st st₁)
    (h' : Filled st₁ st' new) : Filled st st' new := by
  have hfailed := endErrno_failures st.desc.rest st.desc.arrivals st.desc.nonblock st.errno
  have hlength := failures_length st.desc.arrivals st.desc.nonblock st.errno
  have hfalse (as : List Arrival) (e : ReadErrno) : (failures as false e).2.1 = false := by
    induction as generalizing e with
    | nil => rfl
    | cons a as ih => cases a <;> simp [failures, ih]
  rw [← h.failed] at hfailed hlength
  refine ⟨⟨h'.fd.trans h.fd, h'.unget.trans h.unget⟩, h'.nextc, h'.buf, h.rest ▸ h'.rest,
    h'.arrivals.trans hlength, fun hnb => h'.nonblock ?_, fun hfd => ?_⟩
  · have hst₁ := congrArg (fun r => r.2.1) h.failed
    rw [hnb] at hst₁
    exact hst₁.trans (hfalse _ _)
  · rw [← h'.errno (h.fd.trans hfd), ← hfailed, h.rest]

/-- Standard input gives one byte at a time, and its end unless `errno` is `EWOULDBLOCK` then. -/
theorem preadfd_stdin (hfd : st.fd = 0) (hend : st.desc.rest = [] →
      (failures st.desc.arrivals st.desc.nonblock st.errno).2.2 ≠ .ewouldblock) :
    (st.preadfd fuel = none ∧ fuel ≤ st.desc.arrivals.length) ∨
    ∃ st', st.preadfd fuel = some (((st.desc.rest.take 1).length : ℤ), st') ∧
      Filled st st' (st.desc.rest.take 1) := by
  obtain hnone | ⟨k, st₁, hread, h⟩ := preadfd_settled hfd
    (show st.desc = ⟨st.desc.rest, st.desc.arrivals, st.desc.nonblock⟩ from rfl) fuel
  · exact .inl hnone
  · right
    have hdesc : st₁.desc = ⟨st.desc.rest, st₁.desc.arrivals, st₁.desc.nonblock⟩ := by
      rw [← h.rest]
    rw [hread]
    cases hrest : st.desc.rest with
    | nil =>
      have herrno := congrArg (fun r => r.2.2) h.failed
      rw [hrest] at hdesc
      rw [preadfd_ready_end (h.fd.trans hfd) hdesc h.ready, if_neg fun he => hend hrest (herrno.symm.trans he)]
      refine ⟨_, rfl, h.filled ⟨⟨rfl, rfl⟩, rfl, ⟨_, rfl⟩, by rw [hdesc]; rfl, le_rfl, fun hnb => hnb,
        fun _ => ?_⟩⟩
      rw [hdesc]
    | cons c rest =>
      rw [hrest] at hdesc
      obtain ⟨st', hst', hfilled⟩ := @preadfd_ready_byte st₁ rest _ _ k c (h.fd.trans hfd) hdesc h.ready
      exact ⟨st', hst', h.filled hfilled⟩

/-- With `EWOULDBLOCK` in `errno` the end of standard input is read again and again. -/
theorem preadfd_stuck (hfd : st.fd = 0) (hrest : st.desc.rest = [])
    (herrno : (failures st.desc.arrivals st.desc.nonblock st.errno).2.2 = .ewouldblock)
    (fuel : ℕ) : st.preadfd fuel = none := by
  have hagain {as : List Arrival} (k : ℕ) : ∀ {nb : Bool} {st₁ : Script}, st₁.fd = 0 →
      st₁.desc = ⟨[], as, nb⟩ → (∀ nb, failures as nb .ewouldblock = (as, nb, .ewouldblock)) →
      st₁.errno = .ewouldblock → st₁.preadfd k = none := by
    induction k with
    | zero => intros; rfl
    | succ k ih =>
      intro nb st₁ hfd₁ hdesc hready herrno₁
      rw [preadfd_ready_end hfd₁ hdesc (by rw [Ready, hdesc, herrno₁, hready]), if_pos herrno₁]
      exact ih hfd₁ rfl hready herrno₁
  obtain ⟨hnone, -⟩ | ⟨k, st₁, hread, h⟩ := preadfd_settled hfd
    (show st.desc = ⟨st.desc.rest, st.desc.arrivals, st.desc.nonblock⟩ from rfl) fuel
  · exact hnone
  · rw [hread]
    refine hagain (k + 1) (h.fd.trans hfd)
      (show st₁.desc = ⟨[], st₁.desc.arrivals, st₁.desc.nonblock⟩ by rw [← hrest, ← h.rest]) ?_
      ((congrArg (fun r => r.2.2) h.failed).trans herrno)
    intro nb
    rcases h.ready.cases with has | ⟨n, as, has⟩ <;> rw [has] <;> rfl

theorem preadfd_file_ok {new : Text} {desc : Descriptor} (hfd : st.fd ≠ 0)
    (hread : st.desc.read (ibufsiz - 1) = (.ok new, desc)) (hrest : st.desc.rest = new ++ desc.rest)
    (harrivals : desc.arrivals.length ≤ st.desc.arrivals.length)
    (hnonblock : desc.nonblock = st.desc.nonblock) :
    ∃ st', st.preadfd (fuel + 1) = some ((new.length : ℤ), st') ∧ Filled st st' new := by
  refine ⟨{ st with nextc := 0, desc, buf := new ++ st.buf.drop new.length }, ?_, ⟨rfl, rfl⟩, rfl,
    ⟨_, rfl⟩, hrest, harrivals, fun h => hnonblock.trans h, fun h => absurd h hfd⟩
  have hnonneg : ¬ ((new.length : ℤ) < 0) := by omega
  simp only [preadfd, readBuf, hread, ne_eq, hfd, not_false_eq_true, if_true, hnonneg, false_and,
    if_false]

/-- A file gives a part of what is left, and its end where nothing is. -/
theorem preadfd_file (hfd : st.fd ≠ 0) (hdesc : st.desc = ⟨rest, arrivals, false⟩)
    (hfuel : arrivals.length < fuel) :
    ∃ new st', st.preadfd fuel = some ((new.length : ℤ), st') ∧ Filled st st' new ∧
      (new = [] → rest = []) := by
  have hnonempty {n : ℕ} (hn : n ≠ 0) (h : rest.take n = []) : rest = [] :=
    (List.take_eq_nil_iff.mp h).resolve_left hn
  induction arrivals generalizing st fuel with
  | nil =>
    obtain ⟨fuel, rfl⟩ := Nat.exists_eq_add_of_lt hfuel
    obtain ⟨st', hst', hfilled⟩ := @preadfd_file_ok st ([].length + fuel) (rest.take (ibufsiz - 1))
      ⟨rest.drop (ibufsiz - 1), [], false⟩ hfd (by rw [hdesc]; rfl)
      (by rw [hdesc]; exact (List.take_append_drop ..).symm) (Nat.zero_le _) (by rw [hdesc])
    exact ⟨_, st', hst', hfilled, hnonempty (by decide)⟩
  | cons a arrivals ih =>
    obtain ⟨fuel, rfl⟩ := Nat.exists_eq_add_of_lt hfuel
    cases a with
    | bytes n =>
      by_cases hrest : rest = []
      · obtain ⟨st', hst', hfilled⟩ := @preadfd_file_ok st _ [] st.desc hfd
          (by simp [Descriptor.read, hdesc, Descriptor.readFrom, hrest]) rfl le_rfl rfl
        exact ⟨[], st', hst', hfilled, fun _ => hrest⟩
      · obtain ⟨st', hst', hfilled⟩ := @preadfd_file_ok st _ (rest.take (min (ibufsiz - 1) (n + 1)))
          ⟨rest.drop (min (ibufsiz - 1) (n + 1)), arrivals, false⟩ hfd
          (by simp [Descriptor.read, hdesc, Descriptor.readFrom, hrest])
          (by rw [hdesc]; exact (List.take_append_drop ..).symm) (by simp [hdesc]) (by rw [hdesc])
        exact ⟨_, st', hst', hfilled, hnonempty (by simp [ibufsiz])⟩
    | signal =>
      rw [preadfd_signal hdesc]
      obtain ⟨new, st', hst', h, hnew⟩ := @ih
        { st with nextc := 0, desc := ⟨rest, arrivals, false⟩, errno := .eintr }
        ((Arrival.signal :: arrivals).length + fuel) hfd rfl (by rw [List.length_cons]; omega)
      exact ⟨new, st', hst', ⟨⟨h.fd, h.unget⟩, h.nextc, h.buf, by rw [hdesc]; exact h.rest,
        h.arrivals.trans (by simp [hdesc]), fun _ => h.nonblock rfl, fun h => absurd h hfd⟩, hnew⟩
    | nothing =>
      rw [preadfd_wait hdesc]
      obtain ⟨new, st', hst', h, hnew⟩ := @ih { st with desc := ⟨rest, arrivals, false⟩ }
        ((Arrival.nothing :: arrivals).length + fuel + 1) hfd rfl (by rw [List.length_cons]; omega)
      exact ⟨new, st', hst', ⟨⟨h.fd, h.unget⟩, h.nextc, h.buf, by rw [hdesc]; exact h.rest,
        h.arrivals.trans (by simp [hdesc]), fun _ => h.nonblock rfl, fun h => absurd h hfd⟩, hnew⟩

/-! ### Filling the buffer -/

/-- The end of the file is not read with `EWOULDBLOCK` in `errno`. -/
def Unstuck (st : Script) : Prop :=
  st.fd = 0 → nonNul st.desc.rest = [] →
    endErrno st.desc.rest st.desc.arrivals st.desc.nonblock st.errno ≠ .ewouldblock

theorem preadfd_filled (hnonblock : st.fd ≠ 0 → st.desc.nonblock = false) (hst : st.Unstuck)
    (hfuel : st.desc.arrivals.length < fuel) :
    ∃ new st', st.preadfd fuel = some ((new.length : ℤ), st') ∧ Filled st st' new ∧
      (new = [] → st.desc.rest = []) ∧ (st.fd = 0 → new.length ≤ 1) := by
  by_cases hfd : st.fd = 0
  · have hend : st.desc.rest = [] →
        (failures st.desc.arrivals st.desc.nonblock st.errno).2.2 ≠ .ewouldblock := by
      intro hrest
      have herrno := hst hfd (by rw [hrest]; rfl)
      rwa [hrest] at herrno
    obtain ⟨-, hle⟩ | ⟨st', hst', h⟩ := @preadfd_stdin st fuel hfd hend
    · omega
    · refine ⟨_, st', hst', h, fun hnil => ?_, fun _ => List.length_take_le ..⟩
      exact (List.take_eq_nil_iff.mp hnil).resolve_left Nat.one_ne_zero
  · have hdesc : st.desc = ⟨st.desc.rest, st.desc.arrivals, false⟩ := by rw [← hnonblock hfd]
    obtain ⟨new, st', hst', h, hnew⟩ := preadfd_file hfd hdesc hfuel
    exact ⟨new, st', hst', h, hnew, fun h => absurd h hfd⟩

/-- The state between two characters. -/
structure Steady (st : Script) : Prop where
  unget : st.unget = 0
  nleft : st.nleft = (st.buffered.length : ℤ)
  nonblock : st.fd ≠ 0 → st.desc.nonblock = false
  stdin : st.fd = 0 → st.buffered = []

/-- What is next in the file has been delivered, from standard input nothing after it read. -/
structure Next (st st' : Script) (next : Text) : Prop where
  steady : st'.Steady
  fd : st'.fd = st.fd
  undelivered : st'.undelivered = next
  stdin : st.fd = 0 → st'.desc.rest = (st.desc.rest.dropWhile (· = '\x00')).tail

theorem nonNul_cons_self (t : Text) : nonNul ('\x00' :: t) = nonNul t := rfl

theorem buffered_stored {line junk : Text} {c : Char} (hnextc : st.nextc = 1)
    (hbuf : st.buf = c :: line ++ junk) (hnleft : st.nleft = (line.length : ℤ)) :
    st.buffered = line := by
  rw [buffered, hnextc, hbuf, hnleft]
  simp

section
variable {st₁ : Script} {new : Text}

/-- A chunk of nul characters is left out. -/
theorem preadbuffer_nuls (hread : st.preadfd (fuel + 1) = some ((new.length : ℤ), st₁))
    (h : Filled st st₁ new) (hne : new ≠ []) (hnul : nonNul new = []) : ∃ buf nleft,
    st.preadbuffer (fuel + 1) = preadbuffer fuel { st₁ with buf, nleft } := by
  obtain ⟨junk, hbuf⟩ := h.buf
  obtain ⟨junk', hdelete⟩ := deleteNuls_append [] new junk
  have hpos : ¬ ((new.length : ℤ) ≤ 0) := by
    have := List.length_pos_iff.mpr hne
    omega
  simp only [List.nil_append, List.length_nil, hnul, Nat.zero_add] at hdelete
  refine ⟨junk', -1, ?_⟩
  rw [preadbuffer, hread, Option.bind_eq_bind, Option.bind_some]
  simp [hne, hbuf, h.nextc, hdelete]

/-- The first character of a chunk is delivered, the others stay in the buffer. -/
theorem preadbuffer_line {c : Char} {line : Text}
    (hread : st.preadfd (fuel + 1) = some ((new.length : ℤ), st₁)) (h : Filled st st₁ new)
    (hline : nonNul new = c :: line) : ∃ junk out2,
    st.preadbuffer (fuel + 1) = some (some c, { st₁ with
      nleft := line.length, nextc := 1, buf := c :: line ++ junk, out2 }) := by
  obtain ⟨junk, hbuf⟩ := h.buf
  obtain ⟨junk', hdelete⟩ := deleteNuls_append [] new junk
  have hpos : ¬ ((new.length : ℤ) ≤ 0) := by
    have hne : new ≠ [] := by
      rintro rfl
      cases hline
    have := List.length_pos_iff.mpr hne
    omega
  simp only [List.nil_append, List.length_nil, hline, Nat.zero_add] at hdelete
  have htake : (c :: (line ++ junk')).take (line.length + 1) = c :: line := by simp
  let junk : Text := '\x00' :: (c :: line ++ junk').drop (line.length + 1 + 1)
  refine ⟨junk, if st₁.vflag then st₁.out2 ++ (c :: line ++ junk).takeWhile (· ≠ '\x00')
    else st₁.out2, ?_⟩
  rw [preadbuffer, hread, Option.bind_eq_bind, Option.bind_some]
  simp only [hpos, if_false, hbuf, h.nextc, Int.toNat_natCast, hdelete, List.length_cons,
    List.cons_append, htake, List.getD_cons_zero]
  simp only [Int.natCast_add, Int.cast_ofNat_Int, Int.add_sub_cancel, Int.sub_zero]
  rw [if_neg (by omega)]
  simp [junk]

end

/-- `preadbuffer` delivers what is next in the file. -/
theorem preadbuffer_next (hunget : st.unget = 0)
    (hnonblock : st.fd ≠ 0 → st.desc.nonblock = false) (hst : st.Unstuck)
    (hfuel : st.desc.arrivals.length + st.desc.rest.length < fuel) :
    ∃ st', st.preadbuffer fuel = some ((nonNul st.desc.rest).head?, st') ∧
      Next st st' (nonNul st.desc.rest).tail := by
  induction fuel generalizing st with
  | zero => omega
  | succ fuel ih =>
    obtain ⟨new, st₁, hread, h, hnew, hone⟩ := @preadfd_filled st (fuel + 1) hnonblock hst (by omega)
    have hfd := h.fd
    have hnonblock₁ : st₁.fd ≠ 0 → st₁.desc.nonblock = false := fun hne =>
      h.nonblock (hnonblock fun hfd' => hne (hfd.trans hfd'))
    by_cases hnil : new = []
    · subst hnil
      have hrest := hnew rfl
      have hrest₁ : st₁.desc.rest = [] := h.rest.symm.trans hrest
      refine ⟨{ st₁ with nleft := 0 }, ?_, ⟨⟨h.unget.trans hunget, rfl, hnonblock₁, fun _ => rfl⟩, hfd,
        ?_, fun _ => ?_⟩⟩
      · rw [preadbuffer, hread]
        simp [hrest, nonNul]
      · rw [hrest]
        simp [undelivered, buffered, hrest₁, nonNul]
      · rw [hrest]
        exact hrest₁
    · have hrest : nonNul st.desc.rest = nonNul new ++ nonNul st₁.desc.rest := by
        rw [h.rest, nonNul_append]
      cases hline : nonNul new with
      | nil =>
        obtain ⟨buf, nleft, hagain⟩ := preadbuffer_nuls hread h hnil hline
        have hpos := List.length_pos_iff.mpr hnil
        have hlength : st.desc.rest.length = new.length + st₁.desc.rest.length := by
          rw [h.rest, List.length_append]
        rw [hline, List.nil_append] at hrest
        obtain ⟨st', hst', hnext⟩ := @ih { st₁ with buf, nleft } (h.unget.trans hunget) hnonblock₁
          (fun hfd₁ hnul => h.errno (hfd.symm.trans hfd₁) ▸ hst (hfd.symm.trans hfd₁) (hrest.trans hnul))
          (by
            have := h.arrivals
            show st₁.desc.arrivals.length + st₁.desc.rest.length < fuel
            omega)
        rw [hagain, hst', hrest]
        refine ⟨st', rfl, hnext.steady, hnext.fd.trans hfd, hnext.undelivered, fun hfd₀ => ?_⟩
        rw [hnext.stdin (hfd.trans hfd₀), h.rest, List.dropWhile_append_of_pos]
        intro c hc
        by_contra hne
        have hmem : c ∈ nonNul new := List.mem_filter.mpr ⟨hc, by simpa using hne⟩
        rw [hline] at hmem
        cases hmem
      | cons c line =>
        obtain ⟨junk, out2, hline'⟩ := preadbuffer_line hread h hline
        have hstored : buffered { st₁ with
            nleft := line.length, nextc := 1, buf := c :: line ++ junk, out2 } = line :=
          buffered_stored rfl rfl rfl
        have hsingle (hfd₀ : st.fd = 0) : line = [] ∧ new = [c] ∧ c ≠ '\x00' := by
          obtain ⟨x, rfl⟩ : ∃ x, new = [x] := List.length_eq_one_iff.mp
            (le_antisymm (hone hfd₀) (List.length_pos_iff.mpr hnil))
          by_cases hx : x = '\x00'
          · rw [hx] at hline
            cases hline
          · have hkeep : nonNul [x] = [x] := List.filter_eq_self.mpr (by simpa using hx)
            rw [hkeep] at hline
            cases hline
            exact ⟨rfl, rfl, hx⟩
        rw [hrest, hline]
        refine ⟨_, hline', ⟨⟨h.unget.trans hunget, by rw [hstored], hnonblock₁, fun hfd₁ => ?_⟩, hfd, ?_,
          fun hfd₀ => ?_⟩⟩
        · rw [hstored, (hsingle (hfd.symm.trans hfd₁)).1]
        · rw [undelivered, hstored]
          rfl
        · obtain ⟨-, rfl, hc⟩ := hsingle hfd₀
          rw [h.rest, List.singleton_append, List.dropWhile_cons_of_neg (by simpa using hc)]
          rfl

/-- Where the end of standard input is read with `EWOULDBLOCK` in `errno`, nothing is delivered. -/
theorem preadbuffer_stuck (hfd : st.fd = 0) (hrest : nonNul st.desc.rest = [])
    (herrno : endErrno st.desc.rest st.desc.arrivals st.desc.nonblock st.errno = .ewouldblock)
    (fuel : ℕ) : st.preadbuffer fuel = none := by
  induction fuel generalizing st with
  | zero => rfl
  | succ fuel ih =>
    cases hbytes : st.desc.rest with
    | nil =>
      rw [hbytes] at herrno
      rw [preadbuffer, preadfd_stuck hfd hbytes herrno]
      rfl
    | cons x rest =>
      have hne : st.desc.rest ≠ [] := hbytes ▸ List.cons_ne_nil _ _
      obtain ⟨hnone, -⟩ | ⟨st₁, hread, h⟩ :=
        @preadfd_stdin st (fuel + 1) hfd fun hnil => absurd hnil hne
      · rw [preadbuffer, hnone]
        rfl
      · have hchunk : st.desc.rest.take 1 = [x] := by rw [hbytes]; rfl
        rw [hchunk] at hread h
        have hsplit : nonNul st.desc.rest = nonNul [x] ++ nonNul st₁.desc.rest := by
          rw [h.rest, nonNul_append]
        rw [hrest] at hsplit
        obtain ⟨hx, hrest₁⟩ := List.append_eq_nil_iff.mp hsplit.symm
        obtain ⟨buf, nleft, hagain⟩ := preadbuffer_nuls hread h (List.cons_ne_nil _ _) hx
        rw [hagain]
        exact @ih { st₁ with buf, nleft } (h.fd.trans hfd) hrest₁ ((h.errno hfd).symm.trans herrno)

/-! ### One character -/

theorem pgetc_preadbuffer (hunget : st.unget = 0) (hnleft : st.nleft = 0) : st.pgetc fuel =
    (preadbuffer fuel { st with nleft := -1 }).map
      fun r => (r.1, { r.2 with lastc := (r.1, r.2.lastc.1) }) := by
  have hneg : st.nleft - 1 = -1 := by omega
  rw [pgetc, if_neg (by simp [hunget])]
  dsimp only
  rw [hneg, if_neg (by decide)]
  cases preadbuffer fuel { st with nleft := -1 } <;> rfl

/-- A character in the buffer is delivered without a call of `read`. -/
theorem pgetc_buffered {c : Char} {line : Text} (h : st.Steady) (hline : st.buffered = c :: line) :
    ∃ st', st.pgetc fuel = some (some c, st') ∧ Next st st' (line ++ nonNul st.desc.rest) := by
  have hnleft : st.nleft = ((line.length + 1 : ℕ) : ℤ) := by
    rw [h.nleft, hline, List.length_cons]
  have htake : (st.buf.drop st.nextc).take (line.length + 1) = c :: line := by
    rw [buffered, hnleft, Int.toNat_natCast] at hline
    exact hline
  obtain ⟨rest, hdrop⟩ : ∃ rest, st.buf.drop st.nextc = c :: rest := by
    cases hdrop : st.buf.drop st.nextc with
    | nil =>
      rw [hdrop] at htake
      cases htake
    | cons d rest =>
      rw [hdrop, List.take_succ_cons] at htake
      exact ⟨rest, by rw [(List.cons.inj htake).1]⟩
  have hget : st.buf.getD st.nextc '\x00' = c := by
    rw [List.getD_eq_getElem?_getD, ← Nat.add_zero st.nextc, ← List.getElem?_drop, hdrop]
    rfl
  have hnonneg : (0 : ℤ) ≤ st.nleft - 1 := by omega
  have hkeep : buffered { st with
      nleft := st.nleft - 1, nextc := st.nextc + 1, lastc := (some c, st.lastc.1) } = line := by
    have htail : st.buf.drop (st.nextc + 1) = rest := by
      rw [← List.drop_drop, hdrop]
      rfl
    rw [hdrop, List.take_succ_cons] at htake
    have hlength : (st.nleft - 1).toNat = line.length := by omega
    show (st.buf.drop (st.nextc + 1)).take (st.nleft - 1).toNat = line
    rw [htail, hlength]
    exact (List.cons.inj htake).2
  have hfd : st.fd ≠ 0 := fun hfd => by
    rw [h.stdin hfd] at hline
    cases hline
  refine ⟨{ st with nleft := st.nleft - 1, nextc := st.nextc + 1, lastc := (some c, st.lastc.1) },
    ?_, ⟨⟨h.unget, ?_, h.nonblock, fun hfd' => absurd hfd' hfd⟩, rfl, ?_, fun hfd' => absurd hfd' hfd⟩⟩
  · rw [pgetc, if_neg (by simp [h.unget])]
    dsimp only
    rw [if_pos hnonneg, hget]
    rfl
  · rw [hkeep]
    show st.nleft - 1 = _
    omega
  · rw [undelivered, hkeep]

/-- `pgetc` delivers what is next. -/
theorem pgetc_next (h : st.Steady) (hst : ¬ st.Stuck)
    (hfuel : st.desc.arrivals.length + st.desc.rest.length < fuel) :
    ∃ st', st.pgetc fuel = some (st.undelivered.head?, st') ∧ Next st st' st.undelivered.tail := by
  cases hline : st.buffered with
  | cons c line =>
    rw [undelivered, hline]
    exact pgetc_buffered h hline
  | nil =>
    have hnleft : st.nleft = 0 := by rw [h.nleft, hline]; rfl
    have hunstuck : Unstuck { st with nleft := -1 } := fun hfd hrest herrno =>
      hst ⟨hfd, h.unget, hnleft, hrest, herrno⟩
    obtain ⟨st', hst', hnext⟩ :=
      @preadbuffer_next { st with nleft := -1 } fuel h.unget h.nonblock hunstuck hfuel
    rw [pgetc_preadbuffer h.unget hnleft, hst', undelivered, hline]
    refine ⟨{ st' with lastc := ((nonNul st.desc.rest).head?, st'.lastc.1) }, rfl, ?_⟩
    exact ⟨⟨hnext.steady.unget, hnext.steady.nleft, hnext.steady.nonblock, hnext.steady.stdin⟩,
      hnext.fd, hnext.undelivered, hnext.stdin⟩

theorem pgetc_stuck (h : st.Stuck) (fuel : ℕ) : st.pgetc fuel = none := by
  rw [pgetc_preadbuffer h.unget h.buffered]
  rw [@preadbuffer_stuck { st with nleft := -1 } h.stdin h.atEnd h.errno fuel]
  rfl

end Script

/-! ### Runs -/

/-- Between two characters commands may run: they read `n` bytes of standard input and leave its
flag, what is to come and `errno` as they like. -/
inductive ReadOp where
  | pgetc
  | meanwhile (n : ℕ) (arrivals : List Arrival) (nonblock : Bool) (errno : ReadErrno)
  deriving DecidableEq, Repr

namespace Script

def meanwhile (n : ℕ) (arrivals : List Arrival) (nonblock : Bool) (errno : ReadErrno)
    (st : Script) : Script :=
  { st with
    errno
    desc := if st.fd = 0 then ⟨st.desc.rest.drop n, arrivals, nonblock⟩ else st.desc }

/-- Fuel for one character. -/
def enough (st : Script) : ℕ := st.desc.arrivals.length + st.desc.rest.length + 1

/-- One operation, with the character it delivers; there is none where `pgetc` does not return. -/
def step (st : Script) : ReadOp → Option Chr × Script
  | .pgetc => match st.pgetc st.enough with
    | some (c, st') => (some c, st')
    | none => (none, st)
  | .meanwhile n arrivals nonblock errno => (none, st.meanwhile n arrivals nonblock errno)

end Script

/-- What reading is to do to the bytes that are left, in a file of its own or in standard input. -/
def fileStep (stdin : Bool) (t : Text) : ReadOp → Option Chr × Text
  | .pgetc => (some (t.dropWhile (· = '\x00')).head?, (t.dropWhile (· = '\x00')).tail)
  | .meanwhile n _ _ _ => (none, if stdin then t.drop n else t)

theorem nonNul_dropWhile (t : Text) : (nonNul t).head? = (t.dropWhile (· = '\x00')).head? ∧
    (nonNul t).tail = nonNul (t.dropWhile (· = '\x00')).tail := by
  induction t with
  | nil => exact ⟨rfl, rfl⟩
  | cons c t ih =>
    by_cases hc : c = '\x00'
    · subst hc
      exact ih
    · have hkeep : nonNul (c :: t) = c :: nonNul t := List.filter_cons_of_pos (by simpa using hc)
      rw [hkeep, List.dropWhile_cons_of_neg (by simpa using hc)]
      exact ⟨rfl, rfl⟩

/-- The file is read character by character, and then its end. -/
theorem fileStep_pgetc (stdin : Bool) (t : Text) (n : ℕ) :
    (run (fileStep stdin) t (List.replicate n .pgetc)).1 =
      (List.range n).map fun i => some (nonNul t)[i]? := by
  induction n generalizing t with
  | zero => rfl
  | succ n ih =>
    obtain ⟨hhead, htail⟩ := nonNul_dropWhile t
    rw [List.replicate_succ, List.range_succ_eq_map, run, ih, List.map_cons, List.map_map]
    rw [fileStep, ← hhead, List.head?_eq_getElem?, ← htail]
    simp [Function.comp_def]

/-- The state of the reader, and the bytes of the file that are left. -/
structure Script.Reads (st : Script) (t : Text) : Prop where
  steady : st.Steady
  undelivered : st.undelivered = nonNul t
  stdin : st.fd = 0 → st.desc.rest = t

/-- One operation does what it is to do, unless it is stuck. -/
theorem step_reads (op : ReadOp) (h : st.Reads t) :
    ((st.step op).1 = (fileStep (decide (st.fd = 0)) t op).1 ↔ ¬ (op = .pgetc ∧ st.Stuck)) ∧
    (¬ (op = .pgetc ∧ st.Stuck) →
      (st.step op).2.Reads (fileStep (decide (st.fd = 0)) t op).2 ∧ (st.step op).2.fd = st.fd) := by
  cases op with
  | pgetc =>
    obtain ⟨hhead, htail⟩ := nonNul_dropWhile t
    by_cases hstuck : st.Stuck
    · refine ⟨iff_of_false ?_ (not_not.mpr ⟨rfl, hstuck⟩), fun hn => absurd ⟨rfl, hstuck⟩ hn⟩
      rw [Script.step, Script.pgetc_stuck hstuck]
      exact nofun
    · obtain ⟨st', hst', hnext⟩ := Script.pgetc_next h.steady hstuck (Nat.lt_succ_self _)
      have hstep : st.step .pgetc = (some st.undelivered.head?, st') := by
        rw [Script.step, Script.enough, hst']
      rw [hstep]
      refine ⟨iff_of_true ?_ fun hn => hstuck hn.2, fun _ => ⟨⟨hnext.steady, ?_, fun hfd => ?_⟩,
        hnext.fd⟩⟩
      · rw [h.undelivered, hhead]
        rfl
      · rw [hnext.undelivered, h.undelivered, htail]
        rfl
      · rw [hnext.stdin (hnext.fd.symm.trans hfd), h.stdin (hnext.fd.symm.trans hfd)]
        rfl
  | meanwhile n arrivals nonblock errno =>
    refine ⟨iff_of_true rfl (by simp), fun _ => ⟨⟨⟨h.steady.unget, h.steady.nleft, fun hfd => ?_,
      h.steady.stdin⟩, ?_, fun hfd => ?_⟩, rfl⟩⟩
    · have hfd : st.fd ≠ 0 := hfd
      show (if st.fd = 0 then _ else st.desc).nonblock = false
      rw [if_neg hfd]
      exact h.steady.nonblock hfd
    · show st.buffered ++ nonNul (if st.fd = 0 then _ else st.desc).rest = _
      by_cases hfd : st.fd = 0
      · simp [fileStep, hfd, h.steady.stdin hfd, h.stdin hfd]
      · simp only [fileStep, hfd, if_false, decide_false, Bool.false_eq_true]
        exact h.undelivered
    · have hfd : st.fd = 0 := hfd
      show (if st.fd = 0 then _ else st.desc).rest = _
      simp [fileStep, hfd, h.stdin hfd]

/-- In a run the script is read as its file has it, and after every operation standard input is
where the last character delivered left it. -/
def ReadExactly (st : Script) (ops : List ReadOp) : Prop :=
  (run Script.step st ops).1 = (run (fileStep (decide (st.fd = 0))) st.desc.rest ops).1 ∧
  (st.fd = 0 → (run Script.step st ops).2.desc.rest =
    (run (fileStep (decide (st.fd = 0))) st.desc.rest ops).2)

theorem opened_reads (fd : ℕ) (content : Text) (arrivals : List Arrival) (nonblock : Bool)
    (errno : ReadErrno) (vflag : Bool) :
    (Script.opened fd content arrivals nonblock errno vflag).Reads content := by
  refine ⟨⟨rfl, rfl, fun hfd => ?_, fun _ => rfl⟩, rfl, fun _ => rfl⟩
  have hfd : fd ≠ 0 := hfd
  simp [Script.opened, hfd]

theorem readExactly_iff (h : st.Reads st.desc.rest) (ops : List ReadOp) :
    ReadExactly st ops ↔
      Along Script.step (fun st op => ¬ (op = .pgetc ∧ st.Stuck)) st ops := by
  have hstep : ∀ (s : Script) (t : Text) (op : ReadOp), (s.Reads t ∧ s.fd = st.fd) →
      ((s.step op).1 = (fileStep (decide (st.fd = 0)) t op).1 ↔ ¬ (op = .pgetc ∧ s.Stuck)) ∧
      (¬ (op = .pgetc ∧ s.Stuck) →
        (s.step op).2.Reads (fileStep (decide (st.fd = 0)) t op).2 ∧ (s.step op).2.fd = st.fd) := by
    rintro s t op ⟨hreads, hfd⟩
    rw [← hfd]
    exact step_reads op hreads
  have hiff := run_outputs_iff (S := Eq) hstep ops ⟨h, rfl⟩
  rw [List.forall₂_eq_eq_eq] at hiff
  refine ⟨fun hex => hiff.mp hex.1, fun halong => ⟨hiff.mpr halong, fun hfd => ?_⟩⟩
  obtain ⟨-, hreads, hfd'⟩ := run_simulates
    (fun s t op hR hok => ⟨(hstep s t op hR).1.mpr hok, (hstep s t op hR).2 hok⟩) ⟨h, rfl⟩ halong
  exact hreads.stdin (hfd'.trans hfd)

/-- A script is read exactly, whatever its bytes, however they arrive and whatever runs between two
characters, as long as the end of standard input is not read with `EWOULDBLOCK` in `errno`; there
`pgetc` does not return. -/
theorem script_read_iff (fd : ℕ) (content : Text) (arrivals : List Arrival) (nonblock : Bool)
    (errno : ReadErrno) (vflag : Bool) :
    (∀ ops, ReadExactly (Script.opened fd content arrivals nonblock errno vflag) ops ↔
      Along Script.step (fun st op => ¬ (op = .pgetc ∧ st.Stuck))
        (Script.opened fd content arrivals nonblock errno vflag) ops) ∧
    (∀ n, Along Script.step (fun st op => ¬ (op = .pgetc ∧ st.Stuck))
        (Script.opened fd content arrivals nonblock errno vflag) (List.replicate n .pgetc) →
      (run Script.step (Script.opened fd content arrivals nonblock errno vflag)
        (List.replicate n .pgetc)).1 = (List.range n).map fun i => some (nonNul content)[i]?) ∧
    ∀ st : Script, st.Stuck → ∀ fuel, st.pgetc fuel = none := by
  have hreads := opened_reads fd content arrivals nonblock errno vflag
  refine ⟨fun ops => readExactly_iff hreads ops, fun n halong => ?_,
    fun st hst fuel => Script.pgetc_stuck hst fuel⟩
  rw [((readExactly_iff hreads _).mpr halong).1]
  exact fileStep_pgetc _ _ n

/-- Standard input with `O_NONBLOCK`, a pipe whose writer closes it after a while. -/
def closedPipe : Script := .opened 0 [] [.nothing] true .other false

theorem closedPipe_stuck : closedPipe.Stuck := by decide

theorem script_read_chunks :
    ReadExactly (.opened 10 "a\x00b".toList [.bytes 0, .signal, .bytes 5] false .other true)
      [.pgetc, .pgetc, .pgetc] ∧
    (run Script.step (.opened 0 "a\x00b".toList [.bytes 0, .signal] false .other true)
        [.pgetc, .pgetc, .pgetc]).1 = [some (some 'a'), some (some 'b'), some none] ∧
    closedPipe.pgetc 100 = none :=
  ⟨((script_read_iff 10 "a\x00b".toList [.bytes 0, .signal, .bytes 5] false .other true).1 _).mpr
      (by decide +kernel),
    (script_read_iff 0 "a\x00b".toList [.bytes 0, .signal] false .other true).2.1 3
      (by decide +kernel),
    (script_read_iff 0 [] [] false .other false).2.2 _ closedPipe_stuck 100⟩

/-- The end of a pipe that had nothing to read at first is never delivered. -/
theorem script_not_read : (¬ ReadExactly closedPipe [.pgetc]) ∧
    ∀ fuel, closedPipe.pgetc fuel = none := by
  refine ⟨fun h => ?_, Script.pgetc_stuck closedPipe_stuck⟩
  have houtputs := h.1
  revert houtputs
  decide

end Bootsh
