import Typestate.Command.Run

/-!
The command as a program.
-/

namespace Typestate.Command

/-- The reason why a file cannot be read. -/
def failureText : IO.Error → String
  | .noFileOrDirectory .. => "No such file or directory (os error 2)"
  | .inappropriateType _ 21 _ => "Is a directory (os error 21)"
  | .inappropriateType .. => "Not a directory (os error 20)"
  | e => toString e

def readFiles (paths : List String) : IO (List (String × Except String ByteArray)) :=
  paths.mapM fun (path : String) => do
    try
      return (path, .ok (← IO.FS.readBinFile path))
    catch e =>
      return (path, .error (failureText e))

def Request.paths : Request → List String
  | check o => o.config.toList ++ o.graphs
  | help | version | usage => []

end Typestate.Command

open Typestate.Command in
def main (args : List String) : IO UInt32 := do
  let files ← readFiles (Request.ofArgs args).paths
  let read (path : String) : Except String ByteArray :=
    (files.lookup path).getD (.error "No such file or directory (os error 2)")
  let outcome := run read .standard args
  for line in outcome.log do
    IO.eprintln line
  IO.print outcome.stdout
  IO.eprint outcome.stderr
  return outcome.exitCode
