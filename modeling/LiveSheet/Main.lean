import LiveSheet.Demo

/-! # Command line

Runs the demonstration with settings from the environment. -/

namespace LiveSheet

/-- The variables that settings are read from, as far as they are set. -/
def environment : IO (List (String × String)) :=
  Settings.keys.filterMapM fun key => return (← IO.getEnv key).map (key, ·)

end LiveSheet

/-- Prints the cells in view, or the reason why there are none. -/
def main : IO UInt32 := do
  let found ← LiveSheet.environment
  let outcome := LiveSheet.Demo.run (found.lookup ·)
  (← IO.getStdout).putStr outcome.stdout
  (← IO.getStderr).putStr outcome.stderr
  return outcome.status.toUInt32
