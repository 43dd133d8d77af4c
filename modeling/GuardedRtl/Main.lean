import GuardedRtl.Cli.Stage

/-! The command line. It reads configuration files; it runs no other programs and reaches no servers,
so that only circuits can be printed. -/

namespace GuardedRtl.Cli

/-- The text of the configuration file that a command line names, if it can be read. -/
def readConfigFile (arguments : List String) : IO (List (String × String)) :=
  match CommandLine.parse arguments with
  | .error _ => return []
  | .ok line =>
    if line.config = "" then return []
    else
      try return [(line.config, ← IO.FS.readFile line.config)]
      catch _ => return []

end GuardedRtl.Cli

def main (arguments : List String) : IO UInt32 := do
  let files ← GuardedRtl.Cli.readConfigFile arguments
  match ((GuardedRtl.Cli.run GuardedRtl.Cli.Stage.world arguments).run.run { files }).1 with
  | .ok out =>
    IO.print out
    return 0
  | .error e =>
    IO.eprintln e.message
    return 1
