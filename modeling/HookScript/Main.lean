import HookScript.Command.Run

/-!
The command line program. It takes in the files below the working directory, runs the command on them and
passes on the outcome; a dialogue goes on line by line.
-/

namespace HookScript

/-- Fuel that no script uses up. -/
def amplyFuelled : Nat := 1000000000000000

/-- The files below the directories that are still to be looked at, under their paths from the first one. -/
partial def collectFiles (found : List (String × List UInt8)) :
    List (String × IO.FS.DirEntry) → IO (List (String × List UInt8))
  | [] => return found
  | (parent, entry) :: rest => do
    let path := parent ++ entry.fileName
    if ← entry.path.isDir then
      let inside ← entry.path.readDir
      collectFiles found (inside.toList.map (path ++ "/", ·) ++ rest)
    else
      let bytes ← IO.FS.readBinFile entry.path
      collectFiles ((path, bytes.toList) :: found) rest

def filesHere : IO FileTree := do
  let here ← IO.currentDir
  let entries ← here.readDir
  return .ofList here.toString (← collectFiles [] (entries.toList.map ("", ·)))

/-- Shows what is new and goes on until the input ends. -/
partial def talk (world : World) (m : Machine) : IO UInt32 := do
  let output ← IO.getStdout
  output.putStr (m.out ++ Command.invitation)
  output.flush
  let line ← (← IO.getStdin).getLine
  if line.isEmpty then return 0
  match Command.respond world amplyFuelled (Text.Utf8.encode line) { m with out := "" } with
  | .ok m => talk world m
  | .error error =>
    IO.eprintln (Fault.file error).message
    return 1

end HookScript

open HookScript in
def main (arguments : List String) : IO UInt32 := do
  let files ← filesHere
  if Command.ofArguments? arguments = some .repl then
    talk files { Machine.start (some Command.top) with out := Command.greeting }
  else
    let outcome := runArguments files amplyFuelled arguments []
    IO.print outcome.stdout
    IO.eprint outcome.stderr
    return outcome.code.toUInt32
