import Bootsh.Lib.Run
import Bootsh.Var.Scoped

/-!
The macros of `var.h` that read the value of a variable out of its text, without looking whether
the variable is set. The texts are blocks of memory here, beside the variables.
-/
namespace Bootsh

open VFlags

def nul : Char := '\x00'

/-- The text that each variable has, and the ones that the scopes have saved. -/
structure Texts where
  text : Text → Text
  saved : List (List Text)

/-- The variables with their texts. -/
abbrev Memory := Vars × Texts

/-- The bytes up to the first NUL; `none` where that is behind the block. -/
def cstring (block : Text) : Option Text :=
  if nul ∈ block then some (block.takeWhile (· ≠ nul)) else none

/-! ### The macros -/

namespace Texts

def put (name block : Text) (t : Texts) : Texts :=
  { t with text := Function.update t.text name block }

section
variable (t : Texts)

def accessor (name : String) (skip : ℕ) : Option Text := cstring ((t.text name.toList).drop skip)

def ifsval : Option Text := t.accessor "IFS" 4
def mailval : Option Text := t.accessor "MAIL" 5
def mpathval : Option Text := t.accessor "MAILPATH" 9
def pathval : Option Text := t.accessor "PATH" 5
def ps1val : Option Text := t.accessor "PS1" 4
def ps2val : Option Text := t.accessor "PS2" 4
def ps4val : Option Text := t.accessor "PS4" 4
def optindval : Option Text := t.accessor "OPTIND" 7

end

end Texts

def ifsset (st : Vars) : Bool := (st.findvar "IFS".toList).any fun vp => !vp.flags.unset

/-- The variables that have such a macro. -/
def accessed : List Text :=
  ["IFS".toList, "MAIL".toList, "MAILPATH".toList, "PATH".toList, "PS1".toList, "PS2".toList,
    "PS4".toList, "OPTIND".toList]

/-! ### Where texts are installed -/

/-- The block of `setvar`. The last byte of the block for an unset variable is whatever
`ckmalloc` has left there. -/
def setvarBlock (name : Text) (val : Option Text) (rest : Char) : Text :=
  match val with
  | some v => name ++ '=' :: v ++ [nul]
  | none => name ++ [nul, rest]

section
variable (rest : Text → Char)

def setvarM (name : Text) (val : Option Text) (flags : VFlags) (m : Memory) : Except Text Memory :=
  (setvar name val flags m.1).map fun st =>
    (st, m.2.put (varName name) (setvarBlock (varName name) val (rest (varName name))))

def unsetvarM (s : Text) (m : Memory) : Except Text Memory := setvarM rest s none zero m

/-- The text is `s` or a copy of it. -/
def setvareqM (s : Text) (flags : VFlags) (m : Memory) : Except Text Memory :=
  (setvareq s flags m.1).map fun st => (st, m.2.put (varName s) (s ++ [nul]))

def exportArgM (flag : VFlags) (name : Text) (m : Memory) : Except Text Memory :=
  match varValue name with
  | some p => setvarM rest name (some p) flag m
  | none =>
    match m.1.findvar name with
    | some vp => .ok (m.1.store name { vp with flags := vp.flags ||| flag }, m.2)
    | none => setvarM rest name none flag m

abbrev MemoryResult := Option Text × Memory

def orRaiseM (r : Except Text Memory) (m : Memory) : MemoryResult :=
  match r with
  | .ok m' => (none, m')
  | .error msg => (some msg, m)

def linkLocalM (lvp : Localvar) (block : Text) (m : Memory) : Memory :=
  (linkLocal lvp m.1, match m.2.saved with
    | [] => m.2
    | l :: ls => { m.2 with saved := (block :: l) :: ls })

def mklocalM (name : Text) (flags : VFlags) (m : Memory) : MemoryResult :=
  if name = ['-'] then (none, linkLocalM (.options m.1.aflag) [] m)
  else
    match m.1.findvar (varName name) with
    | none =>
      match if (varValue name).isSome then setvareqM name (vstrfixed ||| flags) m
        else setvarM rest name none (vstrfixed ||| flags) m with
      | .error msg => (some msg, m)
      | .ok m => (none, linkLocalM (.var (varName name) none vunset) [] m)
    | some vp =>
      let lvp := .var (varName name) vp.value vp.flags
      let block := m.2.text (varName name)
      let m := (m.1.store (varName name) { vp with flags := vp.flags ||| (vstrfixed ||| vtextfixed) },
        m.2)
      if (varValue name).isSome then
        match setvareqM name flags m with
        | .error msg => (some msg, m)
        | .ok m => (none, linkLocalM lvp block m)
      else (none, linkLocalM lvp block m)

def localArgM (name : Text) (m : Memory) : MemoryResult :=
  if m.1.localvarStack = [] then (some "not in a function".toList, m) else mklocalM rest name zero m

def poplocalvarM (lvp : Localvar) (block : Text) (m : Memory) : Except Text Memory :=
  match lvp with
  | .options aflag => .ok ({ m.1 with aflag }, m.2)
  | .var name value flags =>
    match m.1.findvar name with
    | none => .ok m
    | some vp =>
      if flags = vunset then
        unsetvarM rest name
          (m.1.store name { vp with flags := vp.flags &&& ~~~(vstrfixed ||| vreadonly) }, m.2)
      else .ok ((m.1.callFunc vp.func value).store name ⟨value, flags, vp.func⟩, m.2.put name block)

/-- The list of the scope and its texts. -/
def poplocalvarListM : List Localvar → List Text → Memory → MemoryResult
  | [], _, m => (none, m)
  | lvp :: next, blocks, m =>
    match poplocalvarM rest lvp (blocks.headD []) m with
    | .error msg => (some msg, m)
    | .ok m => poplocalvarListM next blocks.tail m

def poplocalvarsM (m : Memory) : MemoryResult :=
  match m.1.localvarStack with
  | [] => (none, m)
  | ll :: next => poplocalvarListM rest ll (m.2.saved.headD [])
      ({ m.1 with localvarStack := next }, { m.2 with saved := m.2.saved.tail })

end

def pushlocalvarsM (m : Memory) : Memory :=
  (pushlocalvars m.1, { m.2 with saved := [] :: m.2.saved })

/-- An operation on the variables, with the bytes that the blocks it allocates have at their
ends. -/
def Memory.step (m : Memory) : VarOp × (Text → Char) → MemoryResult
  | (.setvar name val flags, rest) => orRaiseM (setvarM rest name val flags m) m
  | (.setvareq s flags, _) => orRaiseM (setvareqM s flags m) m
  | (.unset name, rest) => orRaiseM (unsetvarM rest name m) m
  | (.exportArg name, rest) => orRaiseM (exportArgM rest vexport name m) m
  | (.readonlyArg name, rest) => orRaiseM (exportArgM rest vreadonly name m) m
  | (.localArg name, rest) => localArgM rest name m
  | (.prefixAssign s, rest) => mklocalM rest s vexport m
  | (.pushlocalvars, _) => (none, pushlocalvarsM m)
  | (.poplocalvars, rest) => poplocalvarsM rest m
  | (.setAflag b, _) => (none, ({ m.1 with aflag := b }, m.2))
  | (.setLineno n, _) => (none, ({ m.1 with lineno := n }, m.2))
  | (.lookupvar name, _) => (none, ((Bootsh.lookupvar name m.1).2, m.2))

/-- The texts of `varinit`. -/
def initTexts (root : Bool) : Texts where
  text name :=
    match [defifsvar, "MAIL\x00".toList, "MAILPATH\x00".toList, defpathvar,
      if root then "PS1=# ".toList else "PS1=$ ".toList, "PS2=> ".toList, "PS4=+ ".toList,
      defoptindvar].find? (fun s => (s.takeWhile fun c => c ≠ '=' ∧ c ≠ nul) = name) with
    | some s => s ++ [nul]
    | none => []
  saved := []

def importVarM (s : Text) (flags : VFlags) (m : Memory) : Memory :=
  (orRaiseM (setvareqM s flags m) m).2

def importEnvM (m : Memory) (s : Text) : Memory :=
  if isGoodName (varName s) && (varValue s).isSome then importVarM s (vexport ||| vtextfixed) m
  else m

def initMemory (root : Bool) (environ : List Text) (ppid : Text) : Memory :=
  let m := environ.foldl importEnvM (initvar root, initTexts root)
  let m := importVarM defifsvar vtextfixed m
  let m := importVarM defoptindvar vtextfixed m
  importVarM ("PPID=".toList ++ ppid) vtextfixed m

end Bootsh
