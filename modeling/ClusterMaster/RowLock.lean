import ClusterMaster.Fault
import ClusterMaster.KeySet

/-!
# Row locks

A row lock keeps calls that touch the same key apart. A row that somebody else holds cannot be
acquired: the call that wants it waits for a while and is then refused.
-/

namespace ClusterMaster

/-- A named lock with one row per key, and the rows that are held. -/
structure RowLock where
  name : String
  held : NameSet := KeySet.empty
  deriving DecidableEq

namespace RowLock

def isLocked (l : RowLock) (key : String) : Bool := decide (key ∈ l.held)

/-- Whether a call can have the row. -/
def checkFree (l : RowLock) (key : String) : Except Fault Unit :=
  if l.isLocked key then .error (.lockTimeout l.name key) else .ok ()

/-- The row is held from now on. -/
def take (l : RowLock) (key : String) : RowLock := { l with held := l.held.insert key }

/-- Take a free row. -/
def acquire (l : RowLock) (key : String) : Except Fault RowLock :=
  match l.checkFree key with
  | .error e => .error e
  | .ok () => .ok (l.take key)

def release (l : RowLock) (key : String) : RowLock := { l with held := l.held.erase key }

end RowLock

end ClusterMaster
