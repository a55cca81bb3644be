import ClusterMaster.Fault

/-!
# Settings of a master

All periods are in milliseconds. `Settings.validate` refuses settings under which periodic work
could not run at all.
-/

namespace ClusterMaster

/-- Tunables for liveness, rebalancing and the broker lifecycle. -/
structure Settings where
  host : String := "0.0.0.0"
  port : UInt16 := 8715
  producerTimeout : UInt64 := 30000
  consumerTimeout : UInt64 := 30000
  brokerTimeout : UInt64 := 30000
  /-- How often liveness is checked. -/
  scanInterval : UInt64 := 1000
  /-- How many shards a rebalance pass has at most. -/
  parallelism : UInt64 := 4
  balancePeriod : UInt64 := 60000
  /-- How long after the start the first pass runs. -/
  firstBalanceDelay : UInt64 := 30000
  /-- For how many passes a group may leave events unacknowledged. -/
  maxUnfinishedRounds : UInt32 := 10
  /-- How many brokers one consumer may be asked to read from; zero means any number. -/
  maxBrokersPerConsumer : UInt32 := 50
  stepWait : UInt64 := 12000
  /-- How long a broker that comes up stays readable before it turns writable. -/
  readToWriteWait : UInt64 := 120000
  /-- How long a broker that goes down waits for consumers to leave. -/
  settleWait : UInt64 := 30000
  /-- Skip waiting for brokers that come up with no configured topics. -/
  fastStart : Bool := true
  rowLockWait : UInt64 := 5000
  deriving DecidableEq, Repr

namespace Settings

/-- The address under which clients know this master. -/
def address (s : Settings) : String := s!"{s.host}:{s.port}"

def validate (s : Settings) : Except Fault Unit :=
  let invalid (reason : String) := Except.error (Fault.invalidConfig "master config" reason)
  if s.parallelism = 0 then
    invalid "rebalance_parallelism must be at least 1"
  else if s.producerTimeout = 0 ∨ s.consumerTimeout = 0 ∨ s.brokerTimeout = 0 then
    invalid "heartbeat timeouts must be positive"
  else if s.scanInterval = 0 ∨ s.balancePeriod = 0 then
    invalid "periodic task intervals must be positive"
  else if s.maxUnfinishedRounds = 0 then
    invalid "max_unfinished_balance_rounds must be at least 1"
  else
    .ok ()

end Settings

end ClusterMaster
