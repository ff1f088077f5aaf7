import LoxExpr.CommandLine.Session
/-!
# The program

Hands the arguments, the script or the lines of the standard input to the functions of the command, and writes what they
reply.
-/
namespace LoxExpr
namespace CommandLine

def Reply.write (r : Reply) : IO Unit := do
  let stdout ← IO.getStdout
  stdout.putStr r.stdout
  stdout.flush
  (← IO.getStderr).putStr r.stderr

/-- The bytes of the file that a path leads to on this machine. -/
def readFile (path : String) : IO (Except ReadError (List UInt8)) := do
  try
    return .ok (← IO.FS.readBinFile path).toList
  catch
    | .noFileOrDirectory .. => return .error .notFound
    | .inappropriateType _ 21 _ => return .error .isFolder
    | .inappropriateType .. => return .error .notFolder
    | _ => return .error .notFound

/-- The bytes up to and with the next line feed, behind those of `line`. -/
partial def readLine (stdin : IO.FS.Stream) (line : ByteArray) : IO ByteArray := do
  let byte ← stdin.read 1
  if byte.isEmpty then return line
  if byte.toList = [lineFeed] then return line ++ byte
  readLine stdin (line ++ byte)

/-- Answers line after line, to the end or to one that is not text, and gives the exit status. -/
partial def prompt (o : Options) (stdin stdout : IO.FS.Stream) : IO UInt32 := do
  stdout.putStr promptText
  stdout.flush
  match nextReply? o (← readLine stdin .empty).toList with
  | none => return 0
  | some (reply, _) =>
    reply.write
    if reply.status = abortStatus then return reply.status.toUInt32
    prompt o stdin stdout

/-- Runs the command and gives its exit status. -/
def start (args : List String) : IO UInt32 := do
  match Request.ofArgs args with
  | .ok (.start none o) => prompt o (← IO.getStdin) (← IO.getStdout)
  | .ok (.start (some path) o) =>
    let reply := respondScript o path (← readFile path)
    reply.write
    return reply.status.toUInt32
  | _ =>
    let reply := run args [] []
    reply.write
    return reply.status.toUInt32

end CommandLine
end LoxExpr

def main (args : List String) : IO UInt32 := LoxExpr.CommandLine.start args
