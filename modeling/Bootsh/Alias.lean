import Bootsh.CString

/-! The alias table of `alias.c`, as far as the input routines use it. -/
namespace Bootsh

/-- `inUse` and `dead` are the flags `ALIASINUSE` and `ALIASDEAD`. -/
structure Alias where
  name : Text
  val : Text
  inUse : Bool
  dead : Bool
  deriving DecidableEq, Repr

/-- What `freealias` leaves of an entry: one in use is only marked. -/
def freealias (ap : Alias) : List Alias := if ap.inUse then [{ ap with dead := true }] else []

/-- The table is searched by name; the hash only chooses where to search. -/
def unalias (name : Text) : List Alias → List Alias
  | [] => []
  | ap :: atab => if ap.name = name then freealias ap ++ atab else ap :: unalias name atab

/-- Change the flags of the alias a pushed string came from. -/
def modifyAlias (f : Alias → Alias) (name : Text) (atab : List Alias) : List Alias :=
  atab.map fun ap => if ap.name = name then f ap else ap

def isDead (name : Text) (atab : List Alias) : Bool :=
  atab.any fun ap => ap.name = name && ap.dead

end Bootsh
