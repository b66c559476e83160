import ClonePrint.Bundle

/-!
# The command line program

The files and the syntax trees of a run come from a bundle, whose path stands in
the environment variable `CLONE_PRINT_BUNDLE`. Without it there are none.
-/
namespace ClonePrint.Main

def loadBundle : IO Bundle := do
  match ← IO.getEnv "CLONE_PRINT_BUNDLE" with
  | none => return {}
  | some path =>
      let lines := (← IO.FS.readFile path).splitOn "\n"
      match Bundle.ofLines? (lines.map String.toList) with
      | some bundle => return bundle
      | none => throw (IO.userError "malformed bundle")

partial def readAll (stream : IO.FS.Stream) (front : ByteArray) : IO ByteArray := do
  let bytes ← stream.read 65536
  if bytes.isEmpty then return front else readAll stream (front ++ bytes)

end ClonePrint.Main

/-- Run the program on its arguments and its input. -/
def main (arguments : List String) : IO UInt32 := do
  let bundle ← ClonePrint.Main.loadBundle
  let input ←
    if ClonePrint.Program.readsInput arguments then
      ClonePrint.Main.readAll (← IO.getStdin) ByteArray.empty
    else pure ByteArray.empty
  let ending := ClonePrint.Program.run bundle.world arguments input.toList
  let output ← IO.getStdout
  for line in ending.output do
    output.putStr (String.ofList line)
  output.flush
  return ending.code.toUInt32
