import Calculator.Session.CommandLine

/-!
# The program

Standard input is read only when a session asks for it.
-/

namespace Calculator

/-- The bytes of a stream to its end, after those already read. -/
partial def readToEnd (stream : IO.FS.Stream) (bytes : ByteArray) : IO ByteArray := do
  let chunk ← stream.read 65536
  if chunk.isEmpty then return bytes else readToEnd stream (bytes ++ chunk)

end Calculator

open Calculator

def main (arguments : List String) : IO UInt32 := do
  let request := Request.ofArguments arguments
  let input ← match request with
    | .session _ => readToEnd (← IO.getStdin) .empty
    | _ => pure .empty
  let report := request.execute input.toList
  (← IO.getStdout).putStr report.transcript.output
  (← IO.getStderr).putStr report.transcript.errors
  return report.status.toUInt32
