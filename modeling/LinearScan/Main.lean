import LinearScan.Replay

/-!
# Command line

Reads a snapshot from a file and replays it.
-/

open LinearScan

def main (args : List String) : IO UInt32 := do
  match ReplayOptions.parse? args with
  | none =>
    IO.eprintln ReplayOptions.usage
    return 2
  | some (options, file) =>
    let bytes ← IO.FS.readBinFile file
    let replay := Replay.ofBytes bytes.toList options
    IO.print replay.text
    if let some line := replay.failure.bind ReplayFailure.line? then
      IO.eprintln line
    return UInt32.ofNat replay.exitCode
