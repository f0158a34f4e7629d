import Bootsh.Input.File

/-!
The buffer of a `parsefile` and the calls of `read` that fill it, for a file on which no string
is pushed.
-/
namespace Bootsh

/-- The values of `errno` that the input routines tell apart. -/
inductive ReadErrno where
  | eintr | ewouldblock | other
  deriving DecidableEq, Repr

/-- What a call of `read` meets: bytes it can have, a signal, or nothing yet. -/
inductive Arrival where
  | bytes (n : ℕ)
  | signal
  | nothing
  deriving DecidableEq, Repr

/-- An open file: the bytes from its position on and how they arrive, with `O_NONBLOCK`. -/
structure Descriptor where
  rest : Text
  arrivals : List Arrival
  nonblock : Bool
  deriving DecidableEq, Repr

/-- `read` at the given arrivals, of which `bytes n` has up to `n + 1` bytes. After the last one
all bytes are there; at the end of the file every call returns no bytes. -/
def Descriptor.readFrom (len : ℕ) (d : Descriptor) : List Arrival → Except ReadErrno Text × Descriptor
  | [] => (.ok (d.rest.take len), { d with rest := d.rest.drop len, arrivals := [] })
  | .bytes n :: arrivals =>
    if d.rest = [] then (.ok [], { d with arrivals := .bytes n :: arrivals })
    else (.ok (d.rest.take (min len (n + 1))),
      { d with rest := d.rest.drop (min len (n + 1)), arrivals })
  | .signal :: arrivals => (.error .eintr, { d with arrivals })
  | .nothing :: arrivals =>
    if d.nonblock then (.error .ewouldblock, { d with arrivals }) else d.readFrom len arrivals

def Descriptor.read (len : ℕ) (d : Descriptor) : Except ReadErrno Text × Descriptor :=
  d.readFrom len d.arrivals

/-- A `parsefile` with its file, and what else the routines use. `nextc` is an index into `buf`,
which lists the bytes written to the buffer so far. -/
structure Script where
  fd : ℕ
  nleft : ℤ
  nextc : ℕ
  buf : Text
  lastc : Chr × Chr
  unget : ℕ
  desc : Descriptor
  errno : ReadErrno
  vflag : Bool
  out2 : Text
  deriving DecidableEq, Repr

/-- With the `BUFSIZ` of the C library. -/
def ibufsiz : ℕ := 8192 + 1

/-- `memmove(q, q + 1, n)` in the buffer. -/
def memmoveDown (buf : Text) (q n : ℕ) : Text :=
  buf.take q ++ (buf.drop (q + 1)).take n ++ buf.drop (q + n)

/-- Delete the nul characters among the `more` bytes at `q`: the buffer and the end of those
that are kept. -/
def deleteNuls : ℕ → Text → ℕ → Text × ℕ
  | 0, buf, q => (buf, q)
  | more + 1, buf, q =>
    if buf.getD q '\x00' = '\x00' then deleteNuls more (memmoveDown buf q more) q
    else deleteNuls more buf (q + 1)

namespace Script

/-- `fcntl` does not fail on an open descriptor. -/
def stdinClearNonblock (st : Script) : Script :=
  { st with desc := { st.desc with nonblock := false } }

/-- `read` into the start of the buffer: its result and the bytes. -/
def readBuf (len : ℕ) (st : Script) : ℤ × Script :=
  match st.desc.read len with
  | (.ok bytes, desc) =>
    (bytes.length, { st with desc, buf := bytes ++ st.buf.drop bytes.length })
  | (.error errno, desc) => (-1, { st with desc, errno })

/-- `preadfd`, with fuel for `goto retry`. On standard input the loop is left after one byte,
and `errno` is looked at also where `read` has returned 0. -/
def preadfd : ℕ → Script → Option (ℤ × Script)
  | 0, _ => none
  | fuel + 1, st =>
    let st := { st with nextc := 0 }
    if st.fd ≠ 0 then
      let (nr, st) := st.readBuf (ibufsiz - 1)
      if nr < 0 ∧ st.errno = .eintr then preadfd fuel st else some (nr, st)
    else
      let (err, st) := st.readBuf 1
      if err ≤ 0 then
        if st.errno = .ewouldblock then
          let st := st.stdinClearNonblock
          preadfd fuel { st with out2 := st.out2 ++ "sh: turning off NDELAY mode\n".toList }
        else if err < 0 ∧ st.errno = .eintr then preadfd fuel st
        else some (err, st)
      else some (1, st)

/-- `preadbuffer` where no string is pushed, with fuel for `goto again`. -/
def preadbuffer : ℕ → Script → Option (Chr × Script)
  | 0, _ => none
  | fuel + 1, st => do
    let (more, st) ← st.preadfd (fuel + 1)
    if more ≤ 0 then return (none, { st with nleft := 0 })
    else
      let (buf, q) := deleteNuls more.toNat st.buf st.nextc
      let nleft : ℤ := q - st.nextc - 1
      if nleft < 0 then preadbuffer fuel { st with buf, nleft }
      else
        let buf := buf.take q ++ '\x00' :: buf.drop (q + 1)
        let line := (buf.drop st.nextc).takeWhile (· ≠ '\x00')
        return (some (buf.getD st.nextc '\x00'), { st with
          buf, nleft, nextc := st.nextc + 1
          out2 := if st.vflag then st.out2 ++ line else st.out2 })

/-- `pgetc` -/
def pgetc (fuel : ℕ) (st : Script) : Option (Chr × Script) :=
  if st.unget ≠ 0 then
    some (lastcAt st.lastc (st.unget - 1), { st with unget := st.unget - 1 })
  else do
    let st := { st with nleft := st.nleft - 1 }
    let (c, st) ← if 0 ≤ st.nleft then
        some (some (st.buf.getD st.nextc '\x00'), { st with nextc := st.nextc + 1 })
      else st.preadbuffer fuel
    return (c, { st with lastc := (c, st.lastc.1) })

/-- The script just opened; `setinputfile` does not open files with `O_NONBLOCK`. -/
def opened (fd : ℕ) (content : Text) (arrivals : List Arrival) (nonblock : Bool) (errno : ReadErrno)
    (vflag : Bool) : Script :=
  ⟨fd, 0, 0, [], (none, none), 0, ⟨content, arrivals, decide (fd = 0) && nonblock⟩, errno, vflag, []⟩

end Script
end Bootsh
