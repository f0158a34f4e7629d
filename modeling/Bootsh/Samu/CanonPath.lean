import Bootsh.Lib.Slash

/-!
`canonpath` of `util.c` on the bytes of its string, and the location that a path denotes.
-/
namespace Bootsh.Samu.CanonPath

/-! ### The code -/

/-- How `canonpath` ends without a path: with a fatal error, or outside the string. -/
inductive Stop where
  | emptyPath
  | tooMany
  | outside
  deriving DecidableEq, Repr

/-- The bytes of the string with the NUL behind them, the cursors `s` and `d`, and the starts of
components, the last one first. -/
structure State where
  mem : Text
  s : ℕ
  d : ℕ
  component : List ℕ

def read (mem : Text) (i : ℕ) : Except Stop Char :=
  match mem[i]? with
  | some c => .ok c
  | none => .error .outside

def write (mem : Text) (i : ℕ) (c : Char) : Except Stop Text :=
  if i < mem.length then .ok (mem.set i c) else .error .outside

/-- `*d++ = *s++` -/
def copyByte (st : State) : Except Stop State := do
  let c ← read st.mem st.s
  let mem ← write st.mem st.d c
  return { st with mem := mem, s := st.s + 1, d := st.d + 1 }

/-- `while (*s != '/' && *s != '\0') *d++ = *s++` -/
def copyName : ℕ → State → Except Stop State
  | 0, _ => .error .outside
  | fuel + 1, st => do
    let c ← read st.mem st.s
    if c ≠ '/' ∧ c ≠ '\x00' then
      let st ← copyByte st
      copyName fuel st
    else return st

/-- A component that is copied. -/
def putName (st : State) : Except Stop State :=
  if st.component.length = 60 then .error .tooMany
  else do
    let st ← copyName st.mem.length { st with component := st.d :: st.component }
    copyByte st

/-- An iteration of the loop. -/
def step (st : State) : Except Stop State := do
  let c ← read st.mem st.s
  if c = '/' then return { st with s := st.s + 1 }
  else if c = '.' then
    let c ← read st.mem (st.s + 1)
    if c = '\x00' ∨ c = '/' then return { st with s := st.s + 2 }
    else if c = '.' then
      let c ← read st.mem (st.s + 2)
      if c ≠ '/' ∧ c ≠ '\x00' then putName st
      else match st.component with
        | d :: component => return { st with s := st.s + 3, d := d, component := component }
        | [] => do
          let st ← copyByte st
          let st ← copyByte st
          copyByte st
    else putName st
  else putName st

/-- The loop, where the string ends at `end`. -/
def loop (fin : ℕ) : ℕ → State → Except Stop State
  | 0, _ => .error .outside
  | fuel + 1, st =>
    if st.s < fin then do
      let st ← step st
      loop fin fuel st
    else .ok st

def canonpath (path : Text) : Except Stop Text :=
  if path.length = 0 then .error .emptyPath
  else do
    let start := if path.head? = some '/' then 1 else 0
    let st ← loop path.length (path.length + 1) ⟨path ++ ['\x00'], start, start, []⟩
    if st.d = 0 then
      let mem ← write st.mem 0 '.'
      let mem ← write mem 1 '\x00'
      return mem.take 1
    else
      let mem ← write st.mem (st.d - 1) '\x00'
      return mem.take (st.d - 1)

/-! ### Locations -/

def components (path : Text) : List Text :=
  (path.splitOn '/').filter fun c => c ≠ [] ∧ c ≠ ['.']

def dotdot : Text := ['.', '.']

/-- What a component does to the ones before it, the last of which is the first in the list. -/
def push : List Text → Text → List Text
  | [], c => [c]
  | top :: st, c => if c = dotdot ∧ top ≠ dotdot then st else c :: top :: st

/-- Where a path leads from the root or from the current directory. -/
structure Location where
  absolute : Bool
  components : List Text
  deriving DecidableEq, Repr

def location (path : Text) : Location :=
  ⟨path.head? = some '/', ((components path).foldl push []).reverse⟩

def root : Location := ⟨true, []⟩

/-! ### Cursors -/

variable {st st' : State} {out rest : Text} {c x : Char} {mem : Text}

/-- `out` is written, and `rest` is not yet read. -/
structure View (st : State) (out rest : Text) : Prop where
  split : ∃ gap, st.mem = out ++ (gap ++ rest) ∧ st.s = out.length + gap.length
  d : st.d = out.length

theorem View.read (h : View st out rest) (i : ℕ) :
    CanonPath.read st.mem (st.s + i) = match rest[i]? with
      | some c => .ok c
      | none => .error .outside := by
  obtain ⟨gap, hmem, hs⟩ := h.split
  have hget : st.mem[st.s + i]? = rest[i]? := by
    rw [hmem, hs, ← List.append_assoc, List.getElem?_append_right (by simp)]
    congr 1
    simp
  rw [CanonPath.read, hget]

theorem View.skip {n : ℕ} (h : View st out rest) (hn : n ≤ rest.length) :
    View { st with s := st.s + n } out (rest.drop n) := by
  obtain ⟨gap, hmem, hs⟩ := h.split
  refine ⟨⟨gap ++ rest.take n, ?_, ?_⟩, h.d⟩
  · dsimp only
    rw [hmem, List.append_assoc gap, List.take_append_drop]
  · dsimp only
    rw [hs, List.length_append, List.length_take, Nat.min_eq_left hn]
    omega

/-- The write cursor goes back to the start of a component. -/
theorem View.back {n : ℕ} (h : View st out rest) (hn : n ≤ out.length) (component : List ℕ) :
    View { st with d := n, component := component } (out.take n) rest := by
  obtain ⟨gap, hmem, hs⟩ := h.split
  refine ⟨⟨out.drop n ++ gap, ?_, ?_⟩, ?_⟩
  · dsimp only
    rw [hmem, List.append_assoc, ← List.append_assoc (out.take n), List.take_append_drop]
  · dsimp only
    rw [hs, List.length_append, List.length_take, List.length_drop]
    omega
  · simp [hn]

/-- A byte is copied to a place that was read before. -/
theorem View.copyByte (h : View st out (c :: rest)) : ∃ st', CanonPath.copyByte st = .ok st' ∧
    View st' (out ++ [c]) rest ∧ st'.component = st.component ∧
      st'.mem.length = st.mem.length := by
  have hread := h.read 0
  obtain ⟨gap, hmem, hs⟩ := h.split
  have hlt : st.d < st.mem.length := by
    rw [h.d, hmem, List.length_append, List.length_append, List.length_cons]
    omega
  refine ⟨{ st with mem := st.mem.set st.d c, s := st.s + 1, d := st.d + 1 }, ?_, ?_, rfl, by simp⟩
  · rw [Nat.add_zero] at hread
    rw [CanonPath.copyByte, hread]
    change (write st.mem st.d c >>= _) = _
    rw [write, if_pos hlt]
    rfl
  · refine ⟨?_, ?_⟩
    · dsimp only
      rw [hmem, h.d, List.set_append_right _ _ (Nat.le_refl _), Nat.sub_self]
      cases gap with
      | nil => exact ⟨[], by simp, by rw [hs]; simp⟩
      | cons b gap =>
        refine ⟨gap ++ [c], by simp, ?_⟩
        rw [hs]
        simp
        omega
    · dsimp only
      rw [h.d]
      simp

theorem View.copyName {fuel : ℕ} (h : View st out (mem ++ x :: rest))
    (hname : ∀ c ∈ mem, c ≠ '/' ∧ c ≠ '\x00') (hx : x = '/' ∨ x = '\x00')
    (hfuel : mem.length < fuel) : ∃ st', CanonPath.copyName fuel st = .ok st' ∧
      View st' (out ++ mem) (x :: rest) ∧ st'.component = st.component ∧
        st'.mem.length = st.mem.length := by
  induction mem generalizing st out fuel with
  | nil =>
    obtain ⟨fuel, rfl⟩ := Nat.exists_eq_succ_of_ne_zero (by omega : fuel ≠ 0)
    have hread := h.read 0
    rw [Nat.add_zero] at hread
    have hstop : ¬ (x ≠ '/' ∧ x ≠ '\x00') := by
      rintro ⟨h₁, h₂⟩
      exact hx.elim h₁ h₂
    refine ⟨st, ?_, by simpa using h, rfl, rfl⟩
    rw [CanonPath.copyName, hread]
    change (if x ≠ '/' ∧ x ≠ '\x00' then _ else _) = _
    rw [if_neg hstop]
    rfl
  | cons c mem ih =>
    obtain ⟨fuel, rfl⟩ := Nat.exists_eq_succ_of_ne_zero (by omega : fuel ≠ 0)
    have hread := h.read 0
    rw [Nat.add_zero] at hread
    obtain ⟨st₁, hcopy, hview, hcomp, hlen⟩ := (h : View st out (c :: (mem ++ x :: rest))).copyByte
    obtain ⟨st₂, hrest, hview₂, hcomp₂, hlen₂⟩ := ih hview
      (fun c hc => hname c (List.mem_cons_of_mem _ hc)) (Nat.lt_of_succ_lt_succ hfuel)
    refine ⟨st₂, ?_, by simpa using hview₂, hcomp₂.trans hcomp, hlen₂.trans hlen⟩
    rw [CanonPath.copyName, hread]
    change (if c ≠ '/' ∧ c ≠ '\x00' then _ else _) = _
    rw [if_pos (hname c List.mem_cons_self), hcopy]
    exact hrest

theorem View.putName (h : View st out (mem ++ x :: rest)) (hname : ∀ c ∈ mem, c ≠ '/' ∧ c ≠ '\x00')
    (hx : x = '/' ∨ x = '\x00') (hroom : st.component.length < 60) :
    ∃ st', CanonPath.putName st = .ok st' ∧ View st' (out ++ (mem ++ [x])) rest ∧
      st'.component = out.length :: st.component ∧ st'.mem.length = st.mem.length := by
  have hfuel : mem.length < st.mem.length := by
    obtain ⟨gap, hmem, -⟩ := h.split
    rw [hmem]
    simp only [List.length_append, List.length_cons]
    omega
  have hstart : View { st with component := st.d :: st.component } out (mem ++ x :: rest) :=
    ⟨h.split, h.d⟩
  obtain ⟨st₁, hcopy, hview, hcomp, hlen⟩ := hstart.copyName hname hx hfuel
  obtain ⟨st₂, hlast, hview₂, hcomp₂, hlen₂⟩ := hview.copyByte
  refine ⟨st₂, ?_, by simpa using hview₂, ?_, hlen₂.trans hlen⟩
  · rw [CanonPath.putName, if_neg (by omega)]
    rw [hcopy]
    exact hlast
  · rw [hcomp₂, hcomp, h.d]

/-! ### An iteration -/

variable {up : Text} {ups : ℕ} {ns : List Text}

/-- The components that are written: leading `..`, and the names of the stack. -/
def written (ups : ℕ) (ns : List Text) : List Text := List.replicate ups dotdot ++ ns.reverse

/-- Where the names of the stack start. -/
def marks (up : Text) (ups : ℕ) : List Text → List ℕ
  | [] => []
  | _ :: ns => (up ++ slashed (written ups ns)).length :: marks up ups ns

/-- The components with their slashes, or with a NUL in the place of the last one where the whole
path was read. -/
def IsWritten (up : Text) (cs : List Text) (out rest : Text) : Prop :=
  out = up ++ slashed cs ∨
    rest = [] ∧ cs ≠ [] ∧ out = up ++ (List.intercalate ['/'] cs ++ ['\x00'])

/-- `up` is the slash of an absolute path. -/
structure Inv (up : Text) (st : State) (ups : ℕ) (ns : List Text) (rest : Text) : Prop where
  view : ∃ out, View st out rest ∧ IsWritten up (written ups ns) out rest
  marks : st.component = marks up ups ns
  names : ∀ n ∈ ns, n ≠ dotdot

/-- A component and the ones before it. -/
def advance (stack : List Text) (c : Text) : List Text :=
  if c = [] ∨ c = ['.'] then stack else push stack c

theorem marks_length (up : Text) (ups : ℕ) (ns : List Text) : (marks up ups ns).length = ns.length := by
  induction ns with
  | nil => rfl
  | cons n ns ih => rw [marks, List.length_cons, ih, List.length_cons]

theorem written_cons (ups : ℕ) (n : Text) (ns : List Text) :
    written ups (n :: ns) = written ups ns ++ [n] := by
  simp [written]

theorem written_succ (ups : ℕ) : written (ups + 1) [] = written ups [] ++ [dotdot] := by
  simp [written, List.replicate_succ']

theorem intercalate_concat (cs : List Text) (c : Text) :
    List.intercalate ['/'] (cs ++ [c]) = slashed cs ++ c := by
  have h := slashed_eq_intercalate (by simp : cs ++ [c] ≠ [])
  rw [slashed_concat, ← List.append_assoc] at h
  exact (List.append_cancel_right h).symm

theorem isWritten_put {cs : List Text} (h : out = up ++ slashed cs) (c : Text)
    (hx : x = '/' ∨ x = '\x00' ∧ rest = []) : IsWritten up (cs ++ [c]) (out ++ (c ++ [x])) rest := by
  rcases hx with rfl | ⟨rfl, hrest⟩
  · left
    rw [h, slashed_concat, List.append_assoc]
  · right
    refine ⟨hrest, by simp, ?_⟩
    rw [h, intercalate_concat]
    simp

theorem Inv.unread (h : Inv up st ups ns rest) (hrest : rest ≠ []) :
    View st (up ++ slashed (written ups ns)) rest := by
  obtain ⟨out, hview, hout | ⟨hnil, -⟩⟩ := h.view
  · rwa [← hout]
  · exact absurd hnil hrest

theorem push_name {stack : List Text} {c : Text} (hc : c ≠ dotdot) : push stack c = c :: stack := by
  cases stack with
  | nil => rfl
  | cons top stack => rw [push, if_neg fun h => hc h.1]

theorem push_dotdot_name {n : Text} (hn : n ≠ dotdot) (stack : List Text) :
    push (n :: stack) dotdot = stack := by
  rw [push, if_pos ⟨rfl, hn⟩]

theorem push_dotdot_ups (ups : ℕ) :
    push (List.replicate ups dotdot) dotdot = List.replicate (ups + 1) dotdot := by
  cases ups with
  | zero => rfl
  | succ ups =>
    rw [List.replicate_succ, push, if_neg fun h => h.2 rfl]
    rfl

/-- What an iteration does to the stack of names behind the leading `..`. -/
def Steps (up : Text) (st : State) (ups : ℕ) (ns : List Text) (c rest : Text) : Prop :=
  ∃ st' ups' ns', step st = .ok st' ∧ Inv up st' ups' ns' rest ∧
    st'.mem.length = st.mem.length ∧
    ns' ++ List.replicate ups' dotdot = advance (ns ++ List.replicate ups dotdot) c ∧
    ns'.length ≤ ns.length + if c = [] ∨ c = ['.'] ∨ c = dotdot then 0 else 1

variable {name : Text}

theorem Inv.skip (h : Inv up st ups ns (name ++ rest)) (hrest : name ++ rest ≠ []) :
    Inv up { st with s := st.s + name.length } ups ns rest := by
  have hview := (h.unread hrest).skip (n := name.length) (by simp)
  rw [List.drop_left] at hview
  exact ⟨⟨_, hview, .inl rfl⟩, h.marks, h.names⟩

theorem Inv.putName (h : Inv up st ups ns (name ++ x :: rest))
    (hname : ∀ c ∈ name, c ≠ '/' ∧ c ≠ '\x00') (hx : x = '/' ∨ x = '\x00' ∧ rest = [])
    (hne : name ≠ []) (hdot : name ≠ ['.']) (hdotdot : name ≠ dotdot) (hroom : ns.length < 60)
    (hstep : step st = CanonPath.putName st) : Steps up st ups ns name rest := by
  have hview := h.unread (by simp)
  obtain ⟨st', hput, hview', hcomp, hlen⟩ := hview.putName hname (hx.imp_right And.left)
    (by rw [h.marks, marks_length]; exact hroom)
  refine ⟨st', ups, name :: ns, hstep.trans hput, ⟨⟨_, hview', ?_⟩, ?_, ?_⟩, hlen, ?_, ?_⟩
  · rw [written_cons]
    exact isWritten_put rfl name hx
  · rw [hcomp, h.marks]
    rfl
  · intro n hn
    rcases List.mem_cons.mp hn with rfl | hn
    · exact hdotdot
    · exact h.names n hn
  · rw [advance, if_neg (by simp [hne, hdot]), push_name hdotdot]
    rfl
  · rw [if_neg (by simp [hne, hdot, hdotdot])]
    exact Nat.le_refl _

/-- A component `..` takes a name away. -/
theorem Inv.pop {n : Text} (h : Inv up st ups (n :: ns) (dotdot ++ x :: rest)) (d : ℕ)
    (component : List ℕ) (hcomp : st.component = d :: component) :
    Inv up { st with s := st.s + 3, d := d, component := component } ups ns rest := by
  have hview := h.unread (by simp [dotdot])
  obtain ⟨rfl, rfl⟩ := List.cons.inj (hcomp.symm.trans h.marks)
  have hskip := hview.skip (n := 3) (by simp [dotdot])
  have hback := hskip.back (n := (up ++ slashed (written ups ns)).length)
    (by rw [written_cons, slashed_concat]; simp) (CanonPath.marks up ups ns)
  rw [written_cons, slashed_concat, ← List.append_assoc, List.take_left] at hback
  exact ⟨⟨_, hback, .inl rfl⟩, rfl, fun m hm => h.names m (List.mem_cons_of_mem _ hm)⟩

/-- A component `..` is copied. -/
theorem Inv.putDotdot (h : Inv up st ups [] (dotdot ++ x :: rest))
    (hx : x = '/' ∨ x = '\x00' ∧ rest = []) : ∃ st',
    (do
      let st ← copyByte st
      let st ← copyByte st
      copyByte st) = .ok st' ∧ Inv up st' (ups + 1) [] rest ∧ st'.mem.length = st.mem.length := by
  have hview := h.unread (by simp [dotdot])
  obtain ⟨st₁, h₁, hview₁, hcomp₁, hlen₁⟩ := (hview : View st _ ('.' :: (['.'] ++ x :: rest))).copyByte
  obtain ⟨st₂, h₂, hview₂, hcomp₂, hlen₂⟩ := (hview₁ : View st₁ _ ('.' :: x :: rest)).copyByte
  obtain ⟨st₃, h₃, hview₃, hcomp₃, hlen₃⟩ := hview₂.copyByte
  refine ⟨st₃, ?_, ⟨⟨_, hview₃, ?_⟩, ?_, h.names⟩, hlen₃.trans (hlen₂.trans hlen₁)⟩
  · rw [h₁]
    change (copyByte st₁ >>= fun st => copyByte st) = _
    rw [h₂]
    exact h₃
  · rw [written_succ]
    have hput : IsWritten up (written ups [] ++ [dotdot])
        (up ++ slashed (written ups []) ++ (dotdot ++ [x])) rest := isWritten_put rfl dotdot hx
    simpa [dotdot] using hput
  · rw [hcomp₃, hcomp₂, hcomp₁, h.marks]
    rfl

theorem step_read (h : Inv up st ups ns (c :: rest)) : step st =
    if c = '/' then .ok { st with s := st.s + 1 }
    else if c = '.' then do
      let c ← read st.mem (st.s + 1)
      if c = '\x00' ∨ c = '/' then return { st with s := st.s + 2 }
      else if c = '.' then
        let c ← read st.mem (st.s + 2)
        if c ≠ '/' ∧ c ≠ '\x00' then putName st
        else match st.component with
          | d :: component => return { st with s := st.s + 3, d := d, component := component }
          | [] => do
            let st ← copyByte st
            let st ← copyByte st
            copyByte st
      else putName st
    else putName st := by
  have hread := (h.unread (by simp)).read 0
  rw [Nat.add_zero] at hread
  rw [step, hread]
  rfl

theorem Inv.step (h : Inv up st ups ns (name ++ x :: rest))
    (hname : ∀ c ∈ name, c ≠ '/' ∧ c ≠ '\x00') (hx : x = '/' ∨ x = '\x00' ∧ rest = [])
    (hend : name = [] → x = '/')
    (hroom : name ≠ [] → name ≠ ['.'] → name ≠ dotdot → ns.length < 60) :
    Steps up st ups ns name rest := by
  match name with
  | [] =>
    obtain rfl := hend rfl
    refine ⟨_, ups, ns, (step_read h).trans (if_pos rfl), @Inv.skip st rest up ups ns ['/'] h (by simp), ?_⟩
    exact ⟨rfl, by rw [advance, if_pos (.inl rfl)], Nat.le_add_right _ _⟩
  | a :: name =>
    have hview := h.unread (by simp)
    have hstep := step_read h
    rw [if_neg (hname a List.mem_cons_self).1] at hstep
    by_cases ha : a = '.'
    swap
    · rw [if_neg ha] at hstep
      have hne : a :: name ≠ ['.'] ∧ a :: name ≠ dotdot := by simp [dotdot, ha]
      exact h.putName hname hx (by simp) hne.1 hne.2 (hroom (by simp) hne.1 hne.2) hstep
    subst ha
    rw [if_pos rfl, hview.read 1] at hstep
    match name with
    | [] =>
      refine ⟨_, ups, ns, hstep.trans ?_, @Inv.skip st rest up ups ns ['.', x] h (by simp), ?_⟩
      · change (if x = '\x00' ∨ x = '/' then _ else _) = _
        rw [if_pos (hx.symm.imp_left And.left)]
        rfl
      · exact ⟨rfl, by rw [advance, if_pos (.inr rfl)], Nat.le_add_right _ _⟩
    | b :: name =>
      have hb := hname b (by simp)
      change _ = (if b = '\x00' ∨ b = '/' then _ else _) at hstep
      rw [if_neg fun h => h.elim hb.2 hb.1] at hstep
      by_cases hdot : b = '.'
      swap
      · rw [if_neg hdot] at hstep
        have hne : '.' :: b :: name ≠ ['.'] ∧ '.' :: b :: name ≠ dotdot := by simp [dotdot, hdot]
        exact h.putName hname hx (by simp) hne.1 hne.2 (hroom (by simp) hne.1 hne.2) hstep
      subst hdot
      rw [if_pos rfl, hview.read 2] at hstep
      match name with
      | [] =>
        change _ = (if x ≠ '/' ∧ x ≠ '\x00' then _ else _) at hstep
        rw [if_neg fun h => hx.elim h.1 fun hx => h.2 hx.1] at hstep
        have hadvance (stack : List Text) : advance stack ['.', '.'] = push stack dotdot := by
          rw [advance, if_neg (by simp)]
          rfl
        match ns with
        | [] =>
          obtain ⟨st', hcopy, hinv, hlen⟩ := Inv.putDotdot h hx
          have hcomp : st.component = [] := h.marks
          rw [hcomp] at hstep
          refine ⟨st', ups + 1, [], hstep.trans hcopy, hinv, hlen, ?_, by simp⟩
          rw [hadvance, List.nil_append, List.nil_append, push_dotdot_ups]
        | n :: ns =>
          have hcomp : st.component = _ :: CanonPath.marks up ups ns := h.marks
          rw [hcomp] at hstep
          refine ⟨_, ups, ns, hstep, Inv.pop h _ _ hcomp, rfl, ?_, ?_⟩
          · rw [hadvance, List.cons_append, push_dotdot_name (h.names n List.mem_cons_self)]
          · simp only [List.length_cons]
            omega
      | e :: name =>
        have he := hname e (by simp)
        change _ = (if e ≠ '/' ∧ e ≠ '\x00' then _ else _) at hstep
        rw [if_pos he] at hstep
        have hne : '.' :: '.' :: e :: name ≠ ['.'] ∧ '.' :: '.' :: e :: name ≠ dotdot := by
          simp [dotdot]
        exact h.putName hname hx (by simp) hne.1 hne.2 (hroom (by simp) hne.1 hne.2) hstep

end Bootsh.Samu.CanonPath
