import Incron.Inotify.EventMask
import Incron.Lib.Stdio
import Incron.Text.StrTok

/-! Table entries and table files: `IncronTabEntry::Parse`, `ToString`, `GetSafePath`, and
`IncronTab::Load`, `Save` (incrontab.cpp). -/
namespace Incron

/-- `std::out_of_range`, thrown by `std::string::at`. -/
inductive OutOfRange where
  | outOfRange
  deriving DecidableEq, Repr

structure IncronTabEntry where
  path : Str := []
  mask : Mask := 0
  cmd : Str := []
  noLoop : Bool := true
  noRecursion : Bool := false
  dotDirs : Bool := false
  deriving DecidableEq, Repr

namespace IncronTabEntry

def inNoLoopOld : String := "IN_NO_LOOP"
def ctLoopable : String := "loopable=true"
def ctNoRecursion : String := "recursive=false"
def ctDotDirs : String := "dotdirs=true"

/-- `GetSafePath`: a backslash before every space and every backslash. -/
def getSafePath (rPath : Str) : Str :=
  rPath.flatMap fun c =>
    if c = ' ' then ['\\', ' '] else if c = '\\' then ['\\', '\\'] else [c]

/-- One of the artificial symbols of `ToString`, appended when its flag asks for it. -/
def addSymbol (flag : Bool) (symbol : String) (m : Str) : Str :=
  if m = [] then if flag then symbol.toList else m
  else if flag then m ++ ',' :: symbol.toList else m

def maskField (e : IncronTabEntry) : Str :=
  let m := InotifyEvent.dumpTypes e.mask
  let m := addSymbol e.noRecursion ctNoRecursion m
  let m := addSymbol (!e.noLoop) ctLoopable m
  let m := addSymbol e.dotDirs ctDotDirs m
  if m = [] then "IN_ALL_EVENTS".toList else m

def toString (e : IncronTabEntry) : Str :=
  getSafePath e.path ++ '\t' :: e.maskField ++ '\t' :: e.cmd

/-- The body of the symbol loop of `Parse`. -/
def applySymbol (e : IncronTabEntry) (s : Str) : IncronTabEntry :=
  if s = inNoLoopOld.toList then { e with noLoop := true }
  else if s = ctLoopable.toList then { e with noLoop := false }
  else if s = ctNoRecursion.toList then { e with noRecursion := true }
  else if s = ctDotDirs.toList then { e with dotDirs := true }
  else { e with mask := e.mask ||| InotifyEvent.getMaskByName s }

/-- The mask field `s2` of a line, read as a number or else as symbols. -/
def parseMask (s2 : Str) (e : IncronTabEntry) : IncronTabEntry :=
  match Stdio.scanULong s2 with
  | some u => { e with mask := BitVec.ofNat 32 u }
  | none => (StringTokenizer.tokens { str := s2 }).foldl applySymbol e

/-- `s3.resize(len-1)` for a trailing newline. -/
def chomp (s : Str) : Str := if s.getLast? = some '\n' then s.dropLast else s

/-- `Parse`: `none` is the answer `false`. The entry starts from the defaults. -/
def parse (rStr : Str) : Except OutOfRange (Option IncronTabEntry) :=
  match rStr with
  | [] => .error .outOfRange
  | c :: _ =>
    if c = '#' then .ok none
    else
      let tok : StringTokenizer := { str := rStr, delim := [' ', '\t'], cPrefix := '\\' }
      if !tok.hasMoreTokens then .ok none
      else
        let (s1, tok) := tok.getNextToken true
        if !tok.hasMoreTokens then .ok none
        else
          let (s2, tok) := tok.getNextToken true
          if !tok.hasMoreTokens then .ok none
          else
            let s3 := chomp tok.setNoPrefix.getRemainder
            .ok (some (parseMask s2 { path := s1, cmd := s3 }))

end IncronTabEntry

namespace IncronTab

/-- The `while (fgets(s, 1000, f) != NULL)` loop of `Load`. -/
def loadLoop : List Str → List IncronTabEntry → Except OutOfRange (List IncronTabEntry)
  | [], tab => .ok tab
  | s :: rest, tab =>
    match IncronTabEntry.parse (Stdio.cString s) with
    | .error e => .error e
    | .ok (some e) => loadLoop rest (tab ++ [e])
    | .ok none => loadLoop rest tab

/-- `Load` of a file: the answer and the table; `none` is a file that `fopen` refuses. -/
def load (file : Option Str) : Except OutOfRange (Bool × List IncronTabEntry) :=
  match file with
  | none => .ok (false, [])
  | some content => (loadLoop (Stdio.readAll 1000 content) []).map (true, ·)

def saveText (tab : List IncronTabEntry) : Str :=
  tab.flatMap fun e => e.toString ++ ['\n']

end IncronTab
end Incron
