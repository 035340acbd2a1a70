import ServiceFlow.CommandLine

/-!
# The program

Runs the command line on the files and the environment of the process.
-/

namespace ServiceFlow.CommandLine

def fileError : IO.Error → FileError
  | .noFileOrDirectory .. => .missing
  | .inappropriateType _ code details => if code = 21 then .directory else .other details
  | e => .other (toString e)

def processFiles : Files IO where
  read path := do
    try pure (.ok (← IO.FS.readFile path))
    catch e => pure (.error (fileError e))
  write path text := do
    try pure (.ok (← IO.FS.writeFile path text))
    catch e => pure (.error (fileError e))

def processEnvironment : IO (String → Option String) := do
  let names := ["WEFT_TEMPLATE_VERSION", "WEFT_MAX_LOOP_ITERATIONS", "WEFT_STATE_NAME_MAX_LEN",
    "WEFT_PRETTY_OUTPUT"]
  let values ← names.mapM fun name => do pure (name, ← IO.getEnv name)
  pure fun name => (values.lookup name).join

end ServiceFlow.CommandLine

open ServiceFlow.CommandLine in
def main (arguments : List String) : IO UInt32 := do
  let outcome ← run processFiles (← processEnvironment) arguments
  (← IO.getStdout).putStr outcome.output
  (← IO.getStderr).putStr outcome.errors
  pure outcome.code.toUInt32
