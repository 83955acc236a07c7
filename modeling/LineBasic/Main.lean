import LineBasic.Session.Arguments

/-!
# The interpreter on a terminal

Meets the demands of a session with standard input, standard output and the file system. The system
ends the process on an interrupt, so that none reaches the session.
-/
namespace LineBasic.Terminal

def fileFault : IO.Error → FileFault
  | .noFileOrDirectory _ _ _ => .missing
  | .inappropriateType _ _ _ => .directory
  | e => .other (toString e)

def readFile (name : String) : IO (Except FileFault (List String)) := do
  try
    return fileLines (← IO.FS.readBinFile name)
  catch e =>
    return .error (fileFault e)

def write (text : String) : IO Unit := do
  let stdout ← IO.getStdout
  stdout.putStr text
  stdout.flush

def readLine (prompt : String) : IO Reading := do
  write prompt
  let line ← (← IO.getStdin).getLine
  return if line.isEmpty then .endOfFile else .line (Line.source line)

partial def play (s : Session) : IO Unit := do
  match s.demand with
  | .perform (.write _ text) =>
    write text
    play s.performed
  | .perform _ => play s.performed
  | .readLine _ prompt => play (s.receive (← readLine prompt))
  | .readFile name => play (s.takeFile (← readFile name))
  | .advance => play s.advance
  | .nothing => return

end LineBasic.Terminal

def main (arguments : List String) : IO UInt32 := do
  match LineBasic.Invocation.ofArguments arguments with
  | some i =>
    LineBasic.Terminal.play (.begin i.options i.file)
    return 0
  | none =>
    IO.eprintln LineBasic.Invocation.usage
    return 2
