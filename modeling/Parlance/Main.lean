import Parlance.Command.Run

/-! # The program

Looks at the working directory, the directories above it and standard input, runs
the command, and prints what it says. -/
namespace Parlance.Command

/-- The configuration files in the working directory and above it. -/
def readFiles : IO (FileTree × Path) := do
  let here ← IO.currentDir
  let names := Path.names here.toString
  let mut files := FileTree.empty
  let mut directory := here
  let mut path := names
  for _ in List.range (names.length + 1) do
    let file := directory / Config.fileName
    if ← file.isDir then
      files := files.makeDirectories (path ++ [Config.fileName])
    else if ← file.pathExists then
      files := files.writeFile (path ++ [Config.fileName]) (← IO.FS.readBinFile file)
    directory := directory.parent.getD directory
    path := path.dropLast
  return (files, names)

def readInput : IO String := do
  let stdin ← IO.getStdin
  let mut text := ""
  repeat
    let line ← stdin.getLine
    if line.isEmpty then break
    text := text ++ line
  return text

def crashText (e : ConfigError) : String :=
  match e.message? with
  | some message => message ++ "\n"
  | none => "the configuration cannot be read\n"

def runHere (line : List String) : IO UInt32 := do
  let (files, directory) ← readFiles
  let input ← if line.contains "--stdin" then readInput else pure ""
  let stdout ← IO.getStdout
  let stderr ← IO.getStderr
  let stdoutTerminal ← stdout.isTty
  let stderrTerminal ← stderr.isTty
  let ending := run { files, directory, input, stdoutTerminal, stderrTerminal } line
  stdout.putStr ending.stdout
  stderr.putStr (ending.stderr ++ (ending.crash.map crashText).getD "")
  return ending.exitCode.toUInt32

end Parlance.Command

def main (args : List String) : IO UInt32 := Parlance.Command.runHere args
