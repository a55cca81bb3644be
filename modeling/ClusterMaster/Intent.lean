/-!
# What the operator wants of a broker, and what clients see meanwhile

An `Intent` is the operator's wish for a broker, a `Phase` the step it has reached on the way
there, and `Visibility` says whether its topics accept publishing and subscribing. Every intent
has a steady visibility, which holds once the broker has settled.
-/

namespace ClusterMaster

/-- Whether a broker's topics accept publish and subscribe traffic. -/
structure Visibility where
  publish : Bool
  subscribe : Bool
  deriving DecidableEq, Repr

namespace Visibility

def none : Visibility := ⟨false, false⟩

def both : Visibility := ⟨true, true⟩

def subscribeOnly : Visibility := ⟨false, true⟩

def publishOnly : Visibility := ⟨true, false⟩

end Visibility

/-- What the operator wants of a broker. -/
inductive Intent where
  /-- Configured but not yet activated: the broker may not join. -/
  | apply
  | online
  | onlineNotWrite
  | onlineNotRead
  | offline
  deriving DecidableEq, Repr

namespace Intent

/-- Visibility once a broker has settled. -/
def steadyVisibility : Intent → Visibility
  | online => .both
  | onlineNotWrite => .subscribeOnly
  | onlineNotRead => .publishOnly
  | apply | offline => .none

/-- Only one of reading and writing is wanted. -/
def isPartial : Intent → Bool
  | onlineNotWrite | onlineNotRead => true
  | _ => false

/-- How messages name an intent. -/
def label : Intent → String
  | apply => "MANAGE_APPLY"
  | online => "MANAGE_ONLINE"
  | onlineNotWrite => "MANAGE_ONLINE_NOT_WRITE"
  | onlineNotRead => "MANAGE_ONLINE_NOT_READ"
  | offline => "MANAGE_OFFLINE"

end Intent

/-- How far a broker has come towards its intent. -/
inductive Phase where
  | waitRegister
  | waitOnline
  | onlyRead
  | onlyWrite
  | readAndWrite
  | partWaitRegister
  | partWaitOnline
  | partOnlyRead
  | notWrite
  | notReadWrite
  | waitRebalance
  /-- The way to the current intent is complete. -/
  | settled
  deriving DecidableEq, Repr

end ClusterMaster
