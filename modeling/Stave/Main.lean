import Stave.Program.Run

/-!
# The command

Runs the program on the files of the system.
-/

open Stave

/-- What the system says about a failure. -/
def reasonOf (e : IO.Error) : String :=
  match e with
  | .noFileOrDirectory _ code details => details ++ " (os error " ++ toString code ++ ")"
  | .permissionDenied _ code details => details ++ " (os error " ++ toString code ++ ")"
  | .inappropriateType _ code details => details ++ " (os error " ++ toString code ++ ")"
  | .invalidArgument _ code details => details ++ " (os error " ++ toString code ++ ")"
  | .resourceExhausted _ code details => details ++ " (os error " ++ toString code ++ ")"
  | e => toString e

/-- The outcome of an action on the system. -/
def attempt {α : Type} (action : IO α) : IO (Except String α) := do
  match ← action.toBaseIO with
  | .ok value => return .ok value
  | .error e => return .error (reasonOf e)

/-- The files of the system. -/
def systemHost (home : Option String) : Program.Host IO :=
  { readBytes := fun path => do
      return (← attempt (IO.FS.readBinFile path)).map ByteArray.toList
    writeBytes := fun path bytes => attempt (IO.FS.writeBinFile path (ByteArray.mk bytes.toArray))
    userConfiguration := home.map fun directory => directory ++ "/.staffline/config.yaml" }

def main (arguments : List String) : IO UInt32 := do
  let outcome ← Program.run (systemHost (← IO.getEnv "HOME")) arguments
  IO.print outcome.output
  IO.eprint outcome.errors
  return UInt32.ofNat outcome.code
