import ClusterMaster.Loading
import ClusterMaster.Master.Operation

/-!
# Running a master

The command line names the files a master starts from. Once started it looks for silent nodes and
runs rebalance passes, each in its period, until it is interrupted.
-/

namespace ClusterMaster

/-! ## Command line -/

structure Options where
  config : Option String := none
  manifest : Option String := none
  /-- Start as a standby, which refuses every request. -/
  standby : Bool := false
  logFilter : String := "info"
  deriving DecidableEq, Repr

namespace Options

def usage : String :=
  "usage: cluster-master [--config FILE] [--manifest FILE] [--standby] [--log-filter FILTER]"

def parse (o : Options) : List String → Except String Options
  | [] => .ok o
  | "--config" :: file :: rest => { o with config := some file }.parse rest
  | "--manifest" :: file :: rest => { o with manifest := some file }.parse rest
  | "--log-filter" :: filter :: rest => { o with logFilter := filter }.parse rest
  | "--standby" :: rest => { o with standby := true }.parse rest
  | argument :: _ => .error s!"unexpected argument '{argument}'\n{usage}"

end Options

/-- The master that two files describe; what is not given is left at its standard. -/
def Master.ofFiles (config manifest : Option ConfigFile) (standby : Bool) : Except Fault Master := do
  let settings ←
    match config with
    | some file => file.settings
    | none => pure {}
  let store ←
    match manifest with
    | some file => file.manifest.bind Store.ofManifest
    | none => pure Store.empty
  Master.create settings (store.setPrimary (!standby))

/-! ## Periodic work -/

/-- When periodic work is due next, in milliseconds. -/
structure Schedule where
  scan : Nat
  pass : Nat
  deriving DecidableEq, Repr

/-- The schedule of a master that starts now. -/
def Schedule.start (s : Settings) (now : Nat) : Schedule :=
  { scan := now, pass := now + s.firstBalanceDelay.toNat }

/-- The operations that are due, and when they are due again. -/
def Schedule.due (d : Schedule) (s : Settings) (now : Nat) : List Operation × Schedule :=
  let scans := if d.scan ≤ now then NodeClass.all.map Operation.expire else []
  let passes := if d.pass ≤ now then [Operation.pass] else []
  (scans ++ passes,
    { scan := if d.scan ≤ now then now + s.scanInterval.toNat else d.scan
      pass := if d.pass ≤ now then now + s.balancePeriod.toNat else d.pass })

/-- How long nothing will be due. -/
def Schedule.idle (d : Schedule) (now : Nat) : Nat := min d.scan d.pass - now

/-- Do what is due, again and again. -/
partial def work (m : Master) (d : Schedule) : IO Unit := do
  let now ← IO.monoMsNow
  let elapsed := now - m.clock
  let (ops, next) := d.due m.settings now
  let m := m.run (.wait elapsed :: .stepWait elapsed :: ops)
  IO.sleep (UInt32.ofNat (next.idle now))
  work m next

/-- Read a file as it is found. -/
def findFile (name : String) : IO ConfigFile := do
  match ← (IO.FS.readBinFile name).toBaseIO with
  | .ok bytes => return { name, content := some bytes }
  | .error _ => return { name, content := none }

end ClusterMaster

open ClusterMaster in
def main (args : List String) : IO UInt32 := do
  match Options.parse {} args with
  | .error problem =>
    IO.eprintln problem
    return 2
  | .ok options =>
    let config ← options.config.mapM findFile
    let manifest ← options.manifest.mapM findFile
    match Master.ofFiles config manifest options.standby with
    | .error fault =>
      IO.eprintln fault.message
      return 1
    | .ok m =>
      let now ← IO.monoMsNow
      IO.println s!"Cluster master running at {m.settings.address}"
      work { m with clock := now, stepClock := now } (Schedule.start m.settings now)
      return 0
