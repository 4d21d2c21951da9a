import ArrowCalc.CommandLine

/-!
# The program

Connects the command line to the files and streams of the system. Lines are read one byte at a time,
so that each is answered before the next one is asked for.
-/

namespace ArrowCalc.CommandLine

/-- Writes a response. -/
def writeResponse (r : Response) : IO Unit := do
  let stdout ← IO.getStdout
  stdout.putStr r.stdout
  stdout.flush
  (← IO.getStderr).putStr r.stderr

/-- The bytes of a file. -/
def readBytes (path : String) : IO (Except ReadFailure (List UInt8)) := do
  try
    return .ok (← IO.FS.readBinFile path).toList
  catch
    | .noFileOrDirectory .. => return .error .missing
    | .inappropriateType .. => return .error .directory
    | e => return .error (.other (toString e))

/-- The bytes up to the next line feed or the end of the input, behind those already `seen`. -/
partial def readLine (stdin : IO.FS.Stream) (seen : Array UInt8) : IO (List UInt8) := do
  let bytes ← stdin.read 1
  if bytes.isEmpty then return seen.toList
  let seen := seen ++ bytes.toList
  if seen.back? = some 10 then return seen.toList
  readLine stdin seen

/-- Prompts for lines and answers them. -/
partial def converse (mode : Mode) : IO UInt32 := do
  writeResponse prompt
  let line ← readLine (← IO.getStdin) #[]
  if line.isEmpty then
    writeResponse farewell
    return 0
  let r := reply mode line
  writeResponse r
  if r.code = 0 then converse mode else return r.code.toUInt32

end ArrowCalc.CommandLine

open ArrowCalc.CommandLine in
/-- Runs the program. -/
def main (args : List String) : IO UInt32 := do
  match Arguments.empty.read args with
  | .error r =>
    writeResponse r
    return r.code.toUInt32
  | .ok a =>
    let mode := ArrowCalc.Mode.ofName a.options.mode
    match a.options.path with
    | none => converse mode
    | some path =>
      let r := runFile mode path (← readBytes path)
      writeResponse r
      return r.code.toUInt32
