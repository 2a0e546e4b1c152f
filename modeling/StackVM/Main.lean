import StackVM.Cli.Command

/-! # The command line program -/
namespace StackVM.Cli

def failureText : IO.Error → String
  | .noFileOrDirectory .. => Directory.missing
  | e => toString e

def Script.perform : Script → IO UInt32
  | .read path next => do
    match ← (IO.FS.readBinFile path).toBaseIO with
    | .ok content => (next (.ok content.data)).perform
    | .error e => (next (.error (failureText e))).perform
  | .write path bytes next => do
    match ← (IO.FS.writeBinFile path ⟨bytes⟩).toBaseIO with
    | .ok () => (next (.ok ())).perform
    | .error e => (next (.error (failureText e))).perform
  | .done report => do
    IO.print report.stdout
    IO.eprint report.stderr
    return UInt32.ofNat report.code

/-- More steps than any run can take in practice. -/
def stepLimit : Nat := 0x4000000000000000

end StackVM.Cli

def main (args : List String) : IO UInt32 :=
  (StackVM.Cli.command StackVM.Cli.stepLimit args).perform
