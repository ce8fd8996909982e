import Incron.Lib.Stdio
import Incron.Basic

/-! The `find` commands of executor.h and what is made of their output. -/
namespace Incron.Executor

/-- The default `delimiters` of `trim_copy`. -/
def trimDelimiters : Str := [' ', '\x0c', '\n', '\r', '\t', '\x0b', '\'', '"', '-']

def trimRightCopy (s : Str) : Str := (s.reverse.dropWhile (· ∈ trimDelimiters)).reverse

/-- `trim_left_copy`; its argument is empty or ends with another character. -/
def trimLeftCopy (s : Str) : Str := s.dropWhile (· ∈ trimDelimiters)

def trimCopy (s : Str) : Str := trimLeftCopy (trimRightCopy s)

/-- `plain_exec` for a given output of the command, `none` when `popen` fails. -/
def plainExec (output : Option Str) : Str :=
  match output with
  | none => "EXECPIPEERROR".toList
  | some out => trimCopy ((Stdio.readAll 128 out).flatMap Stdio.cString)

/-- The `std::getline` loop; `item` is what has been read of the current line. -/
def splitLines : Str → Str → List Str
  | [], item => if item = [] then [] else [item]
  | c :: s, item => if c = '\n' then item :: splitLines s [] else splitLines s (item ++ [c])

def execBashVec (output : Option Str) : List Str := splitLines (plainExec output) []

/-- The tests on the path that both commands share, and the redirection. -/
def findOptions (includeDotDirs : Bool) : Str :=
  (if includeDotDirs then [] else "! -path '*/.*' ".toList) ++ "2>/dev/null".toList

/-- The command of `getSubDirVec`. -/
def getSubDirCmd (dir : Str) (includeDotDirs : Bool) : Str :=
  "find ".toList ++ dir ++ " -type d ".toList ++ findOptions includeDotDirs

/-- The command of `getAllFilesByDescriptor`. -/
def getAllFilesCmd (dir : Str) (includeDotDirs : Bool) : Str :=
  "find ".toList ++ dir ++ " ".toList ++ findOptions includeDotDirs

end Incron.Executor
