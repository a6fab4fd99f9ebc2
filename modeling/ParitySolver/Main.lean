import ParitySolver.CommandLine

/-
  This file is the program: it reads the input that the
  arguments name and prints the result of the command.
-/

namespace ParitySolver

/- The bytes of a stream up to its end. -/
partial def readToEnd
    (stream : IO.FS.Stream)
    (bytes : ByteArray) : IO ByteArray := do
  let chunk ← stream.read 65536
  if chunk.isEmpty then
    return bytes
  else
    readToEnd stream (bytes ++ chunk)

/- The bytes of the named input, or of standard input, if it can be read. -/
def readNamed
    (name? : Option String) : IO (Option ByteArray) := do
  match name? with
  | none => return some (← readToEnd (← IO.getStdin) ByteArray.empty)
  | some name =>
      try
        return some (← IO.FS.readBinFile name)
      catch _ =>
        return none

end ParitySolver

open ParitySolver in
/- Run the command. -/
def main
    (arguments : List String) : IO UInt32 := do
  let input? ←
    match Arguments.parse? arguments with
    | some a => readNamed a.input?
    | none => pure none
  let result := CommandLine.run arguments fun _ => input?
  IO.print result.output
  return result.exit.toUInt32
