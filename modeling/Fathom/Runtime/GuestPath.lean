import Fathom.Lib.Namei
import Mathlib.Data.List.DropRight

/-!
# Guest paths on the host (`guest_path.cpp`)

The guest's root is a directory of the host's, and the links in it were written for a
machine on which it is the root.
-/

namespace Fathom

open Lib.Namei

/-! ## The host's files -/

/-- The host's tree, the directory a relative path starts in, and how many
links one call follows. -/
structure HostFiles where
  tree : Tree
  cwd : Path
  maxLinks : Nat

namespace HostFiles

def namei (k : HostFiles) (nofollow : Bool) (path : List Char) : Outcome :=
  if path = [] then .error .noent
  else walk k.tree nofollow k.maxLinks (if absolute path then [] else k.cwd) (components path)

def lstat (k : HostFiles) (path : List Char) : Option Entry := (k.namei true path).entry

def readlink (k : HostFiles) (path : List Char) : Option (List Char) :=
  match k.lstat path with
  | some (.link target) => some target
  | _ => none

end HostFiles

/-! ## Split and Join -/

/-- The scan of `Split`. `part` is the component it is in, last character
first. -/
def splitFrom : List Char → Name → List Name
  | [], part => if part = [] then [] else [part.reverse]
  | c :: rest, part =>
    if c = '/' then if part = [] then splitFrom rest [] else part.reverse :: splitFrom rest []
    else splitFrom rest (c :: part)

def split (path : List Char) : List Name := splitFrom path []

def join (root : List Char) (parts : List Name) : List Char :=
  parts.foldl (fun result part => result ++ '/' :: part) root

/-! ## ResolveGuestPathOnHost -/

def kMaxSymlinkHops : Nat := 40

/-- How the loop ended: nothing was pending, it stopped at a last component it
was not to follow, or it met a link too many. -/
inductive Exit where
  | done
  | last
  | gaveUp
  deriving DecidableEq

structure Resolved where
  parts : List Name
  exit : Exit
  deriving DecidableEq

def resolveTo (k : HostFiles) (root : List Char) (followFinal : Bool)
    (onLink : List Name → List Name → Resolved) : List Name → List Name → Resolved
  | resolved, [] => ⟨resolved, .done⟩
  | resolved, part :: pending =>
    if part = ['.'] then resolveTo k root followFinal onLink resolved pending
    else if part = ['.', '.'] then resolveTo k root followFinal onLink resolved.dropLast pending
    else if !followFinal && pending.isEmpty then ⟨resolved ++ [part], .last⟩
    else
      match k.lstat (join root (resolved ++ [part])) with
      | some (.link _) => onLink (resolved ++ [part]) pending
      | _ => resolveTo k root followFinal onLink (resolved ++ [part]) pending

def resolveLoop (k : HostFiles) (root : List Char) (followFinal : Bool) :
    Nat → List Name → List Name → Resolved
  | 0 => resolveTo k root followFinal fun resolved _ => ⟨resolved, .gaveUp⟩
  | hops + 1 => resolveTo k root followFinal fun resolved pending =>
    match k.readlink (join root resolved) with
    | none => resolveLoop k root followFinal hops resolved pending
    | some [] => resolveLoop k root followFinal hops resolved pending
    | some (c :: target) =>
      resolveLoop k root followFinal hops (if c = '/' then [] else resolved.dropLast)
        (split (c :: target) ++ pending)

def resolveParts (k : HostFiles) (root path : List Char) (followFinal : Bool) : Resolved :=
  resolveLoop k root followFinal kMaxSymlinkHops [] (split path)

def resolveGuestPathOnHost (k : HostFiles) (root path : List Char) (followFinal : Bool) :
    List Char :=
  if root = [] then path
  else
    let resolved := (resolveParts k root path followFinal).parts
    if resolved = [] then root else join root resolved

/-! ## NormaliseGuestPath, ResolveGuestPath, ResolveAt -/

/-- What the path functions of `LinuxSyscalls` read of it: the configuration,
the program's own path, and of the shared state the working directory and the
descriptors' guest paths. -/
structure PathContext where
  guestRoot : List Char
  programPath : List Char
  pid : Int
  cwd : List Char
  files : List (Int × List Char)

def kAtFdCwd : Int := -100

def hostDevices : List (List Char) :=
  ["/dev/null".toList, "/dev/zero".toList, "/dev/full".toList, "/dev/random".toList,
    "/dev/urandom".toList, "/dev/tty".toList]

def normaliseParts (names : List Name) : List Name :=
  names.foldl (fun parts part =>
    if part = ['.'] then parts
    else if part = ['.', '.'] then parts.dropLast
    else parts ++ [part]) []

namespace PathContext

variable (s : PathContext) (path : List Char)

def isProcSelfExe : Bool :=
  path = "/proc/self/exe".toList ||
    path = "/proc/".toList ++ (toString s.pid).toList ++ "/exe".toList

def absolutePath : List Char :=
  if path = [] then s.cwd
  else if path.head? ≠ some '/' then
    s.cwd ++ (if s.cwd.getLast? = some '/' then [] else ['/']) ++ path
  else path

def collapsedPath : List Char :=
  let normalised := join [] (normaliseParts (split (s.absolutePath path)))
  if normalised = [] then ['/'] else normalised

def normaliseGuestPath : List Char :=
  if !s.programPath.isEmpty && s.isProcSelfExe path then s.programPath
  else s.collapsedPath path

def resolveGuestPath (k : HostFiles) (path : List Char) (followFinal : Bool) : List Char :=
  if path = [] then []
  else
    let guestPath := s.normaliseGuestPath path
    if guestPath ∈ hostDevices then guestPath
    else if s.guestRoot = [] then guestPath
    else resolveGuestPathOnHost k s.guestRoot guestPath followFinal

/-- The path `ResolveAt` goes on with: below the descriptor's, if it is relative
and the descriptor is open. -/
def atRequest (dirfd : Int) (path : List Char) : List Char :=
  if path ≠ [] ∧ path.head? ≠ some '/' ∧ dirfd ≠ kAtFdCwd then
    match s.files.lookup dirfd with
    | some guestPath => guestPath ++ '/' :: path
    | none => path
  else path

def resolveAt (k : HostFiles) (dirfd : Int) (path : List Char) (followFinal : Bool) :
    List Char × List Char :=
  let request := s.atRequest dirfd path
  if request = [] then ([], [])
  else
    let guestPath := s.normaliseGuestPath request
    (s.resolveGuestPath k guestPath followFinal, guestPath)

end PathContext

/-! ## Scripts (`fathom_runtime.cpp`) -/

/-- The host's files, with the bytes of those that may be read. -/
structure HostContents where
  files : HostFiles
  contents : Path → Option (List Char)

variable (k : HostContents)

/-- What can be read of a path, if it can be opened. A directory can, and there
is nothing to read. -/
def HostContents.read (path : List Char) : Option (List Char) :=
  match k.files.namei false path with
  | .at place (some .file) => k.contents place
  | .at _ (some .dir) => some []
  | _ => none

/-! ## The first line -/

def isBlank (c : Char) : Bool := c = ' ' || c = '\t'

structure ScriptLine where
  interpreter : List Char
  argument : List Char
  deriving DecidableEq

def kFirstLine : Nat := 255

/-- The scan of the first line. Nothing for a file that is no script. -/
def scriptLine (bytes : List Char) : Option ScriptLine :=
  let firstLine := bytes.take kFirstLine
  if firstLine.length > 2 ∧ firstLine[0]? = some '#' ∧ firstLine[1]? = some '!' then
    let line := (firstLine.drop 2).takeWhile (· ≠ '\n')
    let interpreter := line.takeWhile (!isBlank ·)
    let argument := (line.dropWhile (!isBlank ·)).dropWhile isBlank
    let interpreter := interpreter.rdropWhile fun c => c = '\r' || c = ' '
    if interpreter = [] then none else some ⟨interpreter, argument⟩
  else none

/-- The arguments an interpreter is run with, for a script at a path. -/
def ScriptLine.vector (line : ScriptLine) (path : List Char) (rest : List (List Char)) :
    List (List Char) :=
  line.interpreter :: (if line.argument = [] then [] else [line.argument]) ++ path :: rest

/-! ## ExecProcess, up to the program -/

structure ExecRequest where
  path : List Char
  argv : List (List Char)
  deriving DecidableEq

/-- What `ExecProcess` reads of the process that calls it. -/
structure ExecCaller where
  pid : Nat
  path : List Char

def ExecCaller.isOwnExe (caller : ExecCaller) (path : List Char) : Bool :=
  path = "/proc/self/exe".toList ||
    path = "/proc/".toList ++ (toString caller.pid).toList ++ "/exe".toList

def ExecCaller.binary (caller : ExecCaller) (path : List Char) : List Char :=
  if caller.isOwnExe path then caller.path else path

/-- What comes of a request: nothing that can be read, the same again with an
interpreter, or a program. -/
inductive ExecStep where
  | missing
  | script (next : ExecRequest)
  | program (hostPath path : List Char) (argv : List (List Char))
  deriving DecidableEq

def execStep (root : List Char) (caller : ExecCaller) (r : ExecRequest) : ExecStep :=
  let path := caller.binary r.path
  let hostPath := resolveGuestPathOnHost k.files root path true
  match k.read hostPath with
  | none => .missing
  | some bytes =>
    let argv := if r.argv = [] then [path] else r.argv
    match scriptLine bytes with
    | some line => .script ⟨line.interpreter, line.vector path argv.tail⟩
    | none => .program hostPath path argv

inductive ExecEnd where
  | missing
  | program (hostPath path : List Char) (argv : List (List Char))
  deriving DecidableEq

/-- The calls `ExecProcess` makes to itself, as far as so many: nothing, if there
is one more to make. -/
def execResolve (k : HostContents) (root : List Char) (caller : ExecCaller) :
    Nat → ExecRequest → Option ExecEnd
  | hops, r =>
    match execStep k root caller r with
    | .missing => some .missing
    | .program hostPath path argv => some (.program hostPath path argv)
    | .script next =>
      match hops with
      | 0 => none
      | hops + 1 => execResolve k root caller hops next

/-! ## fathom_session_create, up to the program -/

def guestPathForHostPath (root hostPath : List Char) : List Char :=
  if root = [] ∨ ¬ root <+: hostPath then []
  else
    let remainder := hostPath.drop root.length
    if remainder = [] then ['/']
    else if remainder.head? = some '/' then remainder else '/' :: remainder

/-- The loop: the program's path on the host, its name in the guest, and what is
collected of the arguments. -/
def sessionLoop (k : HostContents) (root : List Char) :
    Nat → (programPath asGuest : List Char) → (scriptArgv : List (List Char)) →
      List Char × List (List Char)
  | 0, programPath, _, scriptArgv => (programPath, scriptArgv)
  | turns + 1, programPath, asGuest, scriptArgv =>
    if asGuest = [] then (programPath, scriptArgv)
    else
      match k.read programPath with
      | none => (programPath, scriptArgv)
      | some bytes =>
        match scriptLine bytes with
        | none => (programPath, scriptArgv)
        | some line =>
          sessionLoop k root turns (resolveGuestPathOnHost k.files root line.interpreter true)
            line.interpreter (line.vector asGuest scriptArgv.tail)

def sessionProgram (root programPath : List Char) (argv : List (List Char)) :
    List Char × List (List Char) :=
  let asGuest := guestPathForHostPath root programPath
  let programPath := if asGuest ≠ [] then resolveGuestPathOnHost k.files root asGuest true
    else programPath
  let (programPath, scriptArgv) := sessionLoop k root 4 programPath asGuest []
  if argv ≠ [] then (programPath, scriptArgv ++ if scriptArgv = [] then argv else argv.tail)
  else if scriptArgv = [] then (programPath, [programPath])
  else (programPath, scriptArgv)

end Fathom
