import Fathom.Runtime.GuestMemory

/-!
# Loading a program (`elf_loader.cpp`)

`LoadElf` puts a program's `PT_LOAD` segments into an arena: it takes the span they
cover in one piece, copies every segment in, and only then gives each its own
protection, one `Protect` a segment in the order of the headers.
-/

namespace Fathom

open Lib Spanned

/-! ## The file -/

inductive ElfType where
  | exec
  | dyn
  deriving DecidableEq

structure Phdr where
  pType : UInt32
  pFlags : UInt32
  pOffset : UInt64
  pVaddr : UInt64
  pFilesz : UInt64
  pMemsz : UInt64
  deriving DecidableEq

structure ElfFile where
  is32bit : Bool
  eType : ElfType
  eEntry : UInt64
  ePhoff : UInt64
  ePhentsize : UInt16
  ePhnum : UInt16
  segments : List Phdr
  size : Nat
  bytes : Nat → UInt8

/-! ## ReadHeaders -/

structure FileBytes where
  size : Nat
  bytes : Nat → UInt8

namespace FileBytes

variable (offset : Nat) (file : FileBytes)

def number (width offset : Nat) : Nat := Lib.number file.bytes width offset

def half : UInt16 := .ofNat (file.number 2 offset)

def word : UInt32 := .ofNat (file.number 4 offset)

def xword : UInt64 := .ofNat (file.number 8 offset)

def wide : UInt64 := (file.word offset).toUInt64

end FileBytes

def kElfTypeExec : UInt16 := 2
def kElfTypeDyn : UInt16 := 3
def kElfMachineX8664 : UInt16 := 62
def kElfMachineI386 : UInt16 := 3
def kElfClass32 : UInt8 := 1
def kElfClass64 : UInt8 := 2

structure Ehdr where
  eType : UInt16
  eMachine : UInt16
  eEntry : UInt64
  ePhoff : UInt64
  ePhentsize : UInt16
  ePhnum : UInt16
  deriving DecidableEq

def FileBytes.ehdr (file : FileBytes) (is32bit : Bool) : Ehdr :=
  if is32bit then
    ⟨file.half 16, file.half 18, file.wide 24, file.wide 28, file.half 42, file.half 44⟩
  else ⟨file.half 16, file.half 18, file.xword 24, file.xword 32, file.half 54, file.half 56⟩

def phdrSize (is32bit : Bool) : UInt16 := if is32bit then 32 else 56

def FileBytes.phdr (file : FileBytes) (is32bit : Bool) (offset : Nat) : Phdr :=
  if is32bit then
    { pType := file.word offset
      pFlags := file.word (offset + 24)
      pOffset := file.wide (offset + 4)
      pVaddr := file.wide (offset + 8)
      pFilesz := file.wide (offset + 16)
      pMemsz := file.wide (offset + 20) }
  else
    { pType := file.word offset
      pFlags := file.word (offset + 4)
      pOffset := file.xword (offset + 8)
      pVaddr := file.xword (offset + 16)
      pFilesz := file.xword (offset + 32)
      pMemsz := file.xword (offset + 40) }

inductive HeaderError where
  | tooSmall
  | badMagic
  | notElfClass
  | notLittleEndian
  | tooSmall32
  | notI386
  | wrongMachine (machine : UInt16)
  | notExecutable
  | malformedTable
  | truncatedTable
  deriving DecidableEq

def HeaderError.message : HeaderError → String
  | tooSmall => "file is too small to be an ELF executable"
  | badMagic => "not an ELF file (bad magic)"
  | notElfClass => "not a 32-bit or 64-bit ELF"
  | notLittleEndian => "not a little-endian ELF"
  | tooSmall32 => "file is too small to be a 32-bit ELF executable"
  | notI386 => "wrong architecture: a 32-bit ELF that is not i386"
  | wrongMachine machine =>
    "wrong architecture: this binary targets ELF machine " ++ toString machine.toNat ++
      ", and Fathom runs x86-64 (62)"
  | notExecutable => "not an executable or shared object"
  | malformedTable => "malformed program header table"
  | truncatedTable => "truncated program header table"

/-- The first 64 bytes are read whatever the class, and a 32-bit header is then
read again in its own shape. -/
def readHeaders (file : FileBytes) : Except HeaderError ElfFile :=
  if file.size < 64 then .error .tooSmall
  else if [file.bytes 0, file.bytes 1, file.bytes 2, file.bytes 3] ≠ [0x7f, 0x45, 0x4c, 0x46] then
    .error .badMagic
  else if file.bytes 4 ≠ kElfClass64 ∧ file.bytes 4 ≠ kElfClass32 then .error .notElfClass
  else if file.bytes 5 ≠ 1 then .error .notLittleEndian
  else
    let is32bit := file.bytes 4 == kElfClass32
    let header := file.ehdr is32bit
    if is32bit = true ∧ file.size < 52 then .error .tooSmall32
    else if is32bit = true ∧ header.eMachine ≠ kElfMachineI386 then .error .notI386
    else if is32bit = false ∧ header.eMachine ≠ kElfMachineX8664 then
      .error (.wrongMachine header.eMachine)
    else if header.eType ≠ kElfTypeExec ∧ header.eType ≠ kElfTypeDyn then .error .notExecutable
    else if header.ePhentsize ≠ phdrSize is32bit ∨ header.ePhnum = 0 then .error .malformedTable
    else if header.ePhentsize.toNat * header.ePhnum.toNat > file.size - header.ePhoff.toNat then
      .error .truncatedTable
    else
      .ok
        { is32bit
          eType := if header.eType = kElfTypeExec then .exec else .dyn
          eEntry := header.eEntry
          ePhoff := header.ePhoff
          ePhentsize := header.ePhentsize
          ePhnum := header.ePhnum
          segments := (List.range header.ePhnum.toNat).map fun k =>
            file.phdr is32bit (header.ePhoff.toNat + header.ePhentsize.toNat * k)
          size := file.size
          bytes := file.bytes }

/-! ## Segments -/

def kPtLoad : UInt32 := 1

def kPfExec : UInt32 := 1
def kPfWrite : UInt32 := 2
def kPfRead : UInt32 := 4

def Phdr.loads (segment : Phdr) : Bool := segment.pType == kPtLoad && segment.pMemsz != 0

def toGuestProtection (pFlags : UInt32) : Prot :=
  (if pFlags &&& kPfRead ≠ 0 then kGuestProtRead else 0) |||
    (if pFlags &&& kPfWrite ≠ 0 then kGuestProtWrite else 0) |||
    (if pFlags &&& kPfExec ≠ 0 then kGuestProtExec else 0)

/-- `ReadExactly`: what there is of `[offset, offset + size)` goes to memory,
and the answer is whether that was all of it. -/
def readExactly (file : ElfFile) (h : Host) (buffer size offset : UInt64) : Bool × Host :=
  let available := file.size - offset.toNat
  (decide (size.toNat ≤ available), h.store buffer (UInt64.ofNat (min size.toNat available))
      fun x => file.bytes (x - buffer.toNat + offset.toNat))

inductive LoadError where
  | noLoadableSegments
  | imageDoesNotFit
  | fixedAddressTaken
  | fixedAddressRefused (imageBegin : UInt64)
  | truncated
  deriving DecidableEq

def LoadError.message : LoadError → String
  | noLoadableSegments => "no loadable segments"
  | imageDoesNotFit => "guest address space could not fit the program image"
  | fixedAddressTaken => "guest address space could not hold the program at its fixed address"
  | fixedAddressRefused imageBegin =>
    "this binary is not position-independent and must load at 0x" ++
      String.ofList (Nat.toDigits 16 imageBegin.toNat) ++
      ", which this device will not map (iOS reserves the low 4GB of every process). " ++
      "Rebuild it with -static-pie, or use a position-independent build."
  | truncated => "truncated program image: a PT_LOAD segment runs past the end of the file"

structure LoadedImage where
  loadBase : UInt64
  entry : UInt64
  phdrAddress : UInt64
  phentsize : UInt16
  phnum : UInt16
  imageBegin : UInt64
  imageEnd : UInt64
  deriving DecidableEq

/-! ## The image -/

namespace ElfFile

variable (file : ElfFile)

def lowest : UInt64 :=
  file.segments.foldl (fun low segment =>
    if segment.loads then wordMin low segment.pVaddr else low) 0xFFFFFFFFFFFFFFFF

def highest : UInt64 :=
  file.segments.foldl (fun high segment =>
    if segment.loads then wordMax high (segment.pVaddr + segment.pMemsz) else high) 0

def imageBegin (pageSize : UInt64) : UInt64 := maskDown pageSize file.lowest

def imageEnd (pageSize : UInt64) : UInt64 := maskUp pageSize file.highest

def phdrAddress (loadBase : UInt64) : UInt64 :=
  match file.segments.find? fun segment => segment.pType == kPtLoad &&
      decide (file.ePhoff ≥ segment.pOffset) &&
      decide (file.ePhoff + file.ePhentsize.toUInt64 * file.ePhnum.toUInt64 ≤
        segment.pOffset + segment.pFilesz) with
  | some segment => loadBase + segment.pVaddr + (file.ePhoff - segment.pOffset)
  | none => 0

end ElfFile

/-! ## InspectElf -/

inductive ProgramKind where
  | static
  | staticPie
  | dynamic
  deriving DecidableEq

structure ElfInspection where
  kind : ProgramKind
  is32bit : Bool
  interpreter : List UInt8

def kPtInterp : UInt32 := 3

def ElfFile.readInterpreter (file : ElfFile) (segment : Phdr) : List UInt8 :=
  if segment.pFilesz = 0 ∨ segment.pFilesz > 4096 then []
  else if segment.pFilesz.toNat ≤ file.size - segment.pOffset.toNat then
    ((List.range segment.pFilesz.toNat).map fun k =>
      file.bytes (segment.pOffset.toNat + k)).takeWhile (· ≠ 0)
  else []

def inspectElf (file : ElfFile) : Except LoadError ElfInspection :=
  let interpreter := file.segments.foldl (fun text segment =>
    if segment.pType = kPtInterp then file.readInterpreter segment else text) []
  if file.lowest = 0xFFFFFFFFFFFFFFFF then .error .noLoadableSegments
  else
    .ok
      { kind := if !interpreter.isEmpty then .dynamic
          else match file.eType with
            | .dyn => .staticPie
            | .exec => .static
        is32bit := file.is32bit
        interpreter }

/-! ## LoadElf -/

namespace GuestAddressSpace

variable (s : GuestAddressSpace)

def adoptExternalMapping (address size : UInt64) (protection : Prot) : Bool × GuestAddressSpace :=
  if size = 0 then (false, s) else (true, s.recordCommitted address size protection)

/-- Memory for the whole image in one piece, and what is to be added to every
`p_vaddr`. -/
def placeImage (h : Host) (file : ElfFile) (preferredBase guestBase : UInt64) :
    Out (Except LoadError UInt64) :=
  let imageBegin := file.imageBegin s.pageSize
  let span := file.imageEnd s.pageSize - imageBegin
  let protection := kGuestProtRead ||| kGuestProtWrite
  match file.eType with
  | .dyn =>
    let out := s.allocate h span preferredBase protection
    if out.ret = 0 then ⟨.error .imageDoesNotFit, out.host, out.space⟩
    else ⟨.ok (out.ret - imageBegin), out.host, out.space⟩
  | .exec =>
    if guestBase ≠ 0 then
      let out := s.commitFixed h (imageBegin + guestBase) span protection
      if out.ret then ⟨.ok guestBase, out.host, out.space⟩
      else ⟨.error .fixedAddressTaken, out.host, out.space⟩
    else
      let (ok, h) := h.mapReadWrite imageBegin span
      if ok then ⟨.ok 0, h, (s.adoptExternalMapping imageBegin span protection).2⟩
      else ⟨.error (.fixedAddressRefused imageBegin), h, s⟩

def copySegments (file : ElfFile) (loadBase : UInt64) : List Phdr → Host → Bool × Host
  | [], h => (true, h)
  | segment :: rest, h =>
    if !segment.loads then copySegments file loadBase rest h
    else
      let destination := loadBase + segment.pVaddr
      let h := h.store destination segment.pMemsz fun _ => 0
      if segment.pFilesz > 0 then
        let (ok, h) := readExactly file h destination segment.pFilesz segment.pOffset
        if ok then copySegments file loadBase rest h else (false, h)
      else copySegments file loadBase rest h

/-- Guest protections, once every segment's bytes are in place. -/
def protectSegments (loadBase : UInt64) :
    List Phdr → GuestAddressSpace → Host → Host × GuestAddressSpace
  | [], s, h => (h, s)
  | segment :: rest, s, h =>
    if !segment.loads then protectSegments loadBase rest s h
    else
      let out := s.protect h (loadBase + segment.pVaddr) segment.pMemsz
        (toGuestProtection segment.pFlags)
      protectSegments loadBase rest out.space out.host

def loadElf (h : Host) (file : ElfFile) (preferredBase guestBase : UInt64) :
    Out (Except LoadError LoadedImage) :=
  if file.lowest = 0xFFFFFFFFFFFFFFFF then ⟨.error .noLoadableSegments, h, s⟩
  else
    let out := s.placeImage h file preferredBase guestBase
    match out.ret with
    | .error error => ⟨.error error, out.host, out.space⟩
    | .ok loadBase =>
      let (ok, h) := copySegments file loadBase file.segments out.host
      if ok then
        let (h, s') := protectSegments loadBase file.segments out.space h
        ⟨.ok
          { loadBase
            entry := loadBase + file.eEntry
            phdrAddress := file.phdrAddress loadBase
            phentsize := file.ePhentsize
            phnum := file.ePhnum
            imageBegin := loadBase + file.imageBegin s.pageSize
            imageEnd := loadBase + file.imageEnd s.pageSize }, h, s'⟩
      else ⟨.error .truncated, h, out.space⟩

end GuestAddressSpace

inductive ElfError where
  | headers (error : HeaderError)
  | load (error : LoadError)
  deriving DecidableEq

def ElfError.message : ElfError → String
  | headers error => error.message
  | load error => error.message

def GuestAddressSpace.loadElfFile (s : GuestAddressSpace) (h : Host) (file : FileBytes)
    (preferredBase guestBase : UInt64) : Out (Except ElfError LoadedImage) :=
  match readHeaders file with
  | .error error => ⟨.error (.headers error), h, s⟩
  | .ok elf =>
    let out := s.loadElf h elf preferredBase guestBase
    ⟨out.ret.mapError .load, out.host, out.space⟩

/-! ## BuildInitialStack -/

structure StackImage where
  stackBase : UInt64
  stackSize : UInt64
  rsp : UInt64
  deriving DecidableEq

inductive StackError where
  | noRoom
  | tooSmall
  deriving DecidableEq

def StackError.message : StackError → String
  | noRoom => "could not allocate the guest stack"
  | tooSmall => "guest stack is too small for the program's arguments and environment"

def pushBytes (h : Host) (cursor : UInt64) (data : List UInt8) : UInt64 × Host :=
  let cursor := (cursor - UInt64.ofNat data.length) &&& ~~~15
  (cursor, h.store cursor (UInt64.ofNat data.length) fun x => data.getD (x - cursor.toNat) 0)

def pushString (h : Host) (cursor : UInt64) (value : List UInt8) : UInt64 × Host :=
  pushBytes h cursor (value ++ [0])

/-- The strings, the last one first, with their addresses in order and the
cursor they leave. -/
def pushStrings (h : Host) (cursor : UInt64) : List (List UInt8) → List UInt64 × UInt64 × Host
  | [] => ([], cursor, h)
  | value :: rest =>
    let (addresses, cursor, h) := pushStrings h cursor rest
    let (address, h) := pushString h cursor value
    (address :: addresses, address, h)

def putWords (wordSize : UInt64) : List UInt64 → UInt64 → Host → Host
  | [], _, h => h
  | value :: rest, word, h =>
    putWords wordSize rest (word + wordSize)
      (h.store word wordSize fun x => (value >>> UInt64.ofNat (8 * (x - word.toNat))).toUInt8)

structure StartArguments where
  argv : List (List UInt8)
  envp : List (List UInt8)
  execPath : List UInt8
  /-- What `arc4random_buf` fills in, 16 bytes. -/
  random : List UInt8

def kAtNull : UInt64 := 0
def kAtPhdr : UInt64 := 3
def kAtPhent : UInt64 := 4
def kAtPhnum : UInt64 := 5
def kAtPagesz : UInt64 := 6
def kAtBase : UInt64 := 7
def kAtFlags : UInt64 := 8
def kAtEntry : UInt64 := 9
def kAtUid : UInt64 := 11
def kAtEuid : UInt64 := 12
def kAtGid : UInt64 := 13
def kAtEgid : UInt64 := 14
def kAtPlatform : UInt64 := 15
def kAtHwcap : UInt64 := 16
def kAtClktck : UInt64 := 17
def kAtSecure : UInt64 := 23
def kAtRandom : UInt64 := 25
def kAtHwcap2 : UInt64 := 26
def kAtExecfn : UInt64 := 31

def auxv (image : LoadedImage) (interpreterBase platform random execfn : UInt64) :
    List (UInt64 × UInt64) :=
  [(kAtPhdr, image.phdrAddress), (kAtPhent, image.phentsize.toUInt64),
    (kAtPhnum, image.phnum.toUInt64), (kAtPagesz, kGuestPage), (kAtBase, interpreterBase),
    (kAtFlags, 0), (kAtEntry, image.entry), (kAtUid, 1000), (kAtEuid, 1000), (kAtGid, 1000),
    (kAtEgid, 1000), (kAtPlatform, platform), (kAtHwcap, 0), (kAtClktck, 100), (kAtSecure, 0),
    (kAtRandom, random), (kAtHwcap2, 0), (kAtExecfn, execfn), (kAtNull, 0)]

def platformName (is32bit : Bool) : List UInt8 :=
  if is32bit then [0x69, 0x36, 0x38, 0x36] else [0x78, 0x38, 0x36, 0x5f, 0x36, 0x34]

/-- The strings and words of the stack between `base` and `base + stackSize`.
The strings are written before it is known whether there is room for the
words, and for themselves. -/
def fillStack (h : Host) (guestBase : UInt64) (is32bit : Bool) (image : LoadedImage)
    (start : StartArguments) (interpreterBase base stackSize : UInt64) :
    Except StackError StackImage × Host :=
  let (random, h) := pushBytes h (base + stackSize) start.random
  let (platform, h) := pushString h random (platformName is32bit)
  let (execfn, h) := pushString h platform start.execPath
  let (environment, cursor, h) := pushStrings h execfn start.envp
  let (arguments, cursor, h) := pushStrings h cursor start.argv
  let vector := auxv image interpreterBase platform random execfn
  let wordSize : UInt64 := if is32bit then 4 else 8
  let wordCount := 1 + (arguments.length + 1) + (environment.length + 1) + vector.length * 2
  let rsp := (cursor - UInt64.ofNat wordCount * wordSize) &&& ~~~15
  if rsp < base then (.error .tooSmall, h)
  else
    let words := [UInt64.ofNat arguments.length] ++ arguments.map (· - guestBase) ++ [0] ++
      environment.map (· - guestBase) ++ [0] ++ vector.flatMap fun (key, value) =>
        [key, if (key == kAtRandom || key == kAtPlatform || key == kAtExecfn) && value != 0
          then value - guestBase else value]
    (.ok ⟨base, stackSize, rsp - guestBase⟩, putWords wordSize words rsp h)

namespace GuestAddressSpace

/-- `BuildInitialStack`. The page below the stack is allocated with it, and then
made unusable to guest and host. -/
def buildInitialStack (s : GuestAddressSpace) (h : Host) (guestBase : UInt64) (is32bit : Bool)
    (image : LoadedImage) (start : StartArguments) (interpreterBase stackSize : UInt64) :
    Out (Except StackError StackImage) :=
  let guard := s.pageSize
  let top := if is32bit then 0xFFFF0000 else s.size
  let hint := if guestBase ≠ 0
    then (guestBase + top - stackSize - guard) &&& ~~~(guard - 1) else 0
  let out := s.allocate h (stackSize + guard) hint (kGuestProtRead ||| kGuestProtWrite)
  let reserved := out.ret
  if reserved = 0 then ⟨.error .noRoom, out.host, out.space⟩
  else
    let base := reserved + guard
    let out := out.space.protect out.host reserved guard 0
    let h := (out.host.mprotect reserved guard protNone).2
    let (ret, h) := fillStack h guestBase is32bit image start interpreterBase base stackSize
    ⟨ret, h, out.space⟩

end GuestAddressSpace

end Fathom
