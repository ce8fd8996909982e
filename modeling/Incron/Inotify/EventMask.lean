import Incron.Basic

/-! Event masks: the `IN_*` values of the Linux header, `InotifyEvent::IsType`, and the
textual codec `DumpTypes` / `GetMaskByName`. -/
namespace Incron

/-- `uint32_t` event masks. -/
abbrev Mask := BitVec 32

def inAccess : Mask := 0x1
def inModify : Mask := 0x2
def inAttrib : Mask := 0x4
def inCloseWrite : Mask := 0x8
def inCloseNowrite : Mask := 0x10
def inOpen : Mask := 0x20
def inMovedFrom : Mask := 0x40
def inMovedTo : Mask := 0x80
def inCreate : Mask := 0x100
def inDelete : Mask := 0x200
def inDeleteSelf : Mask := 0x400
def inMoveSelf : Mask := 0x800
def inUnmount : Mask := 0x2000
def inQOverflow : Mask := 0x4000
def inIgnored : Mask := 0x8000
def inClose : Mask := inCloseWrite ||| inCloseNowrite
def inMove : Mask := inMovedFrom ||| inMovedTo
def inOnlydir : Mask := 0x1000000
def inDontFollow : Mask := 0x2000000
def inMaskAdd : Mask := 0x20000000
def inIsdir : Mask := 0x40000000
def inOneshot : Mask := 0x80000000

def inAllEvents : Mask :=
  inAccess ||| inModify ||| inAttrib ||| inCloseWrite ||| inCloseNowrite ||| inOpen |||
    inMovedFrom ||| inMovedTo ||| inDelete ||| inCreate ||| inDeleteSelf ||| inMoveSelf

namespace InotifyEvent

/-- `IsType`: every bit of the type is set, and the type is not empty. -/
def isType (uValue uType : Mask) : Bool :=
  uValue &&& uType != 0 && ~~~uValue &&& uType == 0

/-- The `if`/`else` chain of `GetMaskByName`, in source order. -/
def maskNames : List (Str × Mask) :=
  [("IN_ACCESS".toList, inAccess), ("IN_MODIFY".toList, inModify),
   ("IN_ATTRIB".toList, inAttrib), ("IN_CLOSE_WRITE".toList, inCloseWrite),
   ("IN_CLOSE_NOWRITE".toList, inCloseNowrite), ("IN_OPEN".toList, inOpen),
   ("IN_MOVED_FROM".toList, inMovedFrom), ("IN_MOVED_TO".toList, inMovedTo),
   ("IN_CREATE".toList, inCreate), ("IN_DELETE".toList, inDelete),
   ("IN_DELETE_SELF".toList, inDeleteSelf), ("IN_UNMOUNT".toList, inUnmount),
   ("IN_Q_OVERFLOW".toList, inQOverflow), ("IN_IGNORED".toList, inIgnored),
   ("IN_CLOSE".toList, inClose), ("IN_MOVE".toList, inMove), ("IN_ISDIR".toList, inIsdir),
   ("IN_ONESHOT".toList, inOneshot), ("IN_ALL_EVENTS".toList, inAllEvents),
   ("IN_DONT_FOLLOW".toList, inDontFollow), ("IN_ONLYDIR".toList, inOnlydir),
   ("IN_MOVE_SELF".toList, inMoveSelf)]

def getMaskByName (rName : Str) : Mask := (maskNames.lookup rName).getD 0

/-- `DUMP_SEP; rStr.append(name)`. -/
def dumpName (name : String) (rStr : Str) : Str :=
  if rStr = [] then name.toList else rStr ++ ',' :: name.toList

/-- `if (IsType(uValue, uType)) { DUMP_SEP; rStr.append(name); }`. -/
def dumpType (uValue uType : Mask) (name : String) (rStr : Str) : Str :=
  if isType uValue uType then dumpName name rStr else rStr

/-- `DumpTypes` up to the event symbols, as compiled with `IN_MOVE_SELF` defined: the
`else` of the `IN_MOVE_SELF` test holds the two halves of `IN_CLOSE`. -/
def dumpEvents (u : Mask) : Str :=
  let s : Str := []
  if isType u inAllEvents then s ++ "IN_ALL_EVENTS".toList
  else
    let s := dumpType u inAccess "IN_ACCESS" s
    let s := dumpType u inModify "IN_MODIFY" s
    let s := dumpType u inAttrib "IN_ATTRIB" s
    let s := dumpType u inCreate "IN_CREATE" s
    let s := dumpType u inDelete "IN_DELETE" s
    let s := dumpType u inDeleteSelf "IN_DELETE_SELF" s
    let s := dumpType u inOpen "IN_OPEN" s
    let s := dumpType u inClose "IN_CLOSE" s
    let s :=
      if isType u inMoveSelf then dumpName "IN_MOVE_SELF" s
      else
        let s := dumpType u inCloseWrite "IN_CLOSE_WRITE" s
        dumpType u inCloseNowrite "IN_CLOSE_NOWRITE" s
    if isType u inMove then dumpName "IN_MOVE" s
    else
      let s := dumpType u inMovedFrom "IN_MOVED_FROM" s
      dumpType u inMovedTo "IN_MOVED_TO" s

/-- `DumpTypes`, with `IN_DONT_FOLLOW` and `IN_ONLYDIR` defined. -/
def dumpTypes (u : Mask) : Str :=
  let s := dumpEvents u
  let s := dumpType u inUnmount "IN_UNMOUNT" s
  let s := dumpType u inQOverflow "IN_Q_OVERFLOW" s
  let s := dumpType u inIgnored "IN_IGNORED" s
  let s := dumpType u inIsdir "IN_ISDIR" s
  let s := dumpType u inOneshot "IN_ONESHOT" s
  let s := dumpType u inDontFollow "IN_DONT_FOLLOW" s
  dumpType u inOnlydir "IN_ONLYDIR" s

/-! ## What is written, as a list -/

/-- The symbol with its value when the test succeeds. -/
def pick (b : Bool) (name : String) (uType : Mask) : List (Str × Mask) :=
  if b then [(name.toList, uType)] else []

/-- The event part of the symbols that `dumpTypes` writes. -/
def dumpedEvents (u : Mask) : List (Str × Mask) :=
  if isType u inAllEvents then [("IN_ALL_EVENTS".toList, inAllEvents)]
  else
    pick (isType u inAccess) "IN_ACCESS" inAccess ++
    pick (isType u inModify) "IN_MODIFY" inModify ++
    pick (isType u inAttrib) "IN_ATTRIB" inAttrib ++
    pick (isType u inCreate) "IN_CREATE" inCreate ++
    pick (isType u inDelete) "IN_DELETE" inDelete ++
    pick (isType u inDeleteSelf) "IN_DELETE_SELF" inDeleteSelf ++
    pick (isType u inOpen) "IN_OPEN" inOpen ++
    pick (isType u inClose) "IN_CLOSE" inClose ++
    pick (isType u inMoveSelf) "IN_MOVE_SELF" inMoveSelf ++
    pick (!isType u inMoveSelf && isType u inCloseWrite) "IN_CLOSE_WRITE" inCloseWrite ++
    pick (!isType u inMoveSelf && isType u inCloseNowrite) "IN_CLOSE_NOWRITE" inCloseNowrite ++
    pick (isType u inMove) "IN_MOVE" inMove ++
    pick (!isType u inMove && isType u inMovedFrom) "IN_MOVED_FROM" inMovedFrom ++
    pick (!isType u inMove && isType u inMovedTo) "IN_MOVED_TO" inMovedTo

/-- The symbols that `dumpTypes` writes, in order, each with its value. -/
def dumped (u : Mask) : List (Str × Mask) :=
  dumpedEvents u ++
    pick (isType u inUnmount) "IN_UNMOUNT" inUnmount ++
    pick (isType u inQOverflow) "IN_Q_OVERFLOW" inQOverflow ++
    pick (isType u inIgnored) "IN_IGNORED" inIgnored ++
    pick (isType u inIsdir) "IN_ISDIR" inIsdir ++
    pick (isType u inOneshot) "IN_ONESHOT" inOneshot ++
    pick (isType u inDontFollow) "IN_DONT_FOLLOW" inDontFollow ++
    pick (isType u inOnlydir) "IN_ONLYDIR" inOnlydir

end InotifyEvent
end Incron
