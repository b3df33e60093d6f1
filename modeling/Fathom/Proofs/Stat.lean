import Fathom.Proofs.Collapse
import Fathom.Runtime.HostCalls

/-!
# Two ways to describe a file

`newfstatat` and `statx` answer the same question about a file. Both turn the path into one
of the host's and ask `stat`, so the difference is in what they do before and after. Before:
`newfstatat` has `/proc` and the console made up, `statx` asks the host for whatever is
there, and an empty path means the descriptor to the one and, where no file of the host's is
behind it, the working directory to the other. After: they check buffers of different sizes,
`newfstatat` before it looks and `statx` when it has found something. The lookups are
compared first, then the answers; no lookup answers `EFAULT`, so that an error tells which
check it is from.
-/

namespace Fathom

open Lib.Namei

theorem HostError.linux_range (e : HostError) : e.linux ∈ [2, 20, 40, 17, 5] := by
  cases e <;> decide

/-- The same error, or the same type, mode, size and inode. -/
def Alike : Except Nat FileStat → Except Nat FileStat → Prop
  | .error error, .error error' => error = error'
  | .ok found, .ok found' =>
    found.mode = found'.mode ∧ found.size = found'.size ∧ found.ino = found'.ino
  | _, _ => False

instance : DecidableRel Alike
  | .error error, .error error' => inferInstanceAs (Decidable (error = error'))
  | .ok found, .ok found' => inferInstanceAs (Decidable (found.mode = found'.mode ∧
      found.size = found'.size ∧ found.ino = found'.ino))
  | .ok _, .error _ => isFalse fun h => h
  | .error _, .ok _ => isFalse fun h => h

theorem alike_refl (r : Except Nat FileStat) : Alike r r := by
  cases r with
  | error _ => rfl
  | ok _ => exact ⟨rfl, rfl, rfl⟩

theorem alike_error {r : Except Nat FileStat} {error : Nat} :
    Alike r (.error error) ↔ r = .error error := by
  cases r with
  | error _ => exact ⟨fun h => congrArg Except.error h, fun h => Except.error.inj h⟩
  | ok _ => exact ⟨fun h => h.elim, fun h => nomatch h⟩

namespace StatProcess

variable {p : StatProcess} {m : ProcAnswers} {k : StatHost} {c : StatCall} {path : List Char}
  {error : Nat}

theorem stat_error {nofollow : Bool} (h : k.stat nofollow path = .error error) :
    error ∈ [2, 20, 40, 17, 5] := by
  unfold StatHost.stat at h
  split at h
  · cases h
    exact HostError.linux_range _
  · cases h

theorem stat_iff {nofollow : Bool} {found : FileStat} : k.stat nofollow path = .ok found ↔
    ∃ place entry, k.files.namei nofollow path = .at place (some entry) ∧ k.info place = found := by
  unfold StatHost.stat HostFiles.object
  cases k.files.namei nofollow path with
  | error _ => simp
  | «at» _ there =>
    cases there with
    | none => simp
    | some _ => simp

theorem fstat_error {host : HostDescriptor} (h : k.fstat host = .error error) :
    error ∈ [2, 20, 40, 17, 5] := by
  unfold StatHost.fstat at h
  cases hopen : k.ofDescriptor host with
  | ok _ =>
    rw [hopen] at h
    cases h
  | error e =>
    rw [hopen] at h
    cases h
    exact HostError.linux_range _

/-- The host has something at the path that looks like this. -/
def Looks (k : StatHost) (path : List Char) (found : FileStat) : Prop :=
  ∃ place entry, k.files.namei false path = .at place (some entry) ∧
  (k.info place).mode = found.mode ∧ (k.info place).size = found.size ∧
  (k.info place).ino = found.ino

/-- Something is there for `statx`: behind the descriptor, or else in the working
directory; or by the name. -/
def Found (p : StatProcess) (k : StatHost) (c : StatCall) (path : List Char) : Prop :=
  if path = [] ∧ c.emptyPath = true then
    match p.hostFdFor c.dirfd with
    | some host => ∃ found, k.ofDescriptor host = .ok found
    | none => ∃ found, Looks k (p.paths.resolveGuestPath k.files p.cwd true) found
  else ∃ found, Looks k (p.paths.resolveAt k.files c.dirfd path true).1 found

/-- When the two lookups come to the same: by descriptor, when there is a file of the
host's behind it, the working directory is asked for, or looks like the console; by name,
when nothing is made up, or the host has the same there. -/
def DescribesAlike (p : StatProcess) (m : ProcAnswers) (k : StatHost) (c : StatCall)
    (path : List Char) : Prop :=
  if path = [] ∧ c.emptyPath = true then
    (p.hostFdFor c.dirfd).isSome = true ∨ c.dirfd = kAtFdCwd ∨ (p.isConsole c.dirfd = true ∧
      Looks k (p.paths.resolveGuestPath k.files p.cwd true) consoleStat)
  else ∀ made, p.madeUp m (p.paths.resolveAt k.files c.dirfd path true).2 = some made →
    Looks k (p.paths.resolveAt k.files c.dirfd path true).1 made

theorem alike_stat_iff {made : FileStat} : Alike (.ok made) (k.stat false path) ↔
    Looks k path made := by
  cases hstat : k.stat false path with
  | error _ =>
    refine iff_of_false id ?_
    rintro ⟨place, entry, hplace, -⟩
    have hok := stat_iff.mpr ⟨place, entry, hplace, rfl⟩
    rw [hstat] at hok
    cases hok
  | ok _ =>
    obtain ⟨place, entry, hplace, rfl⟩ := stat_iff.mp hstat
    constructor
    · exact fun h => ⟨place, entry, hplace, h.1.symm, h.2.1.symm, h.2.2.symm⟩
    · rintro ⟨_, _, hplace', hmode, hsize, hino⟩
      rw [hplace] at hplace'
      cases hplace'
      exact ⟨hmode.symm, hsize.symm, hino.symm⟩

theorem stat_ok_iff : (∃ found, k.stat false path = .ok found) ↔ ∃ found, Looks k path found := by
  simp only [stat_iff]
  constructor
  · rintro ⟨_, place, entry, hplace, -⟩
    exact ⟨k.info place, place, entry, hplace, rfl, rfl, rfl⟩
  · rintro ⟨_, place, entry, hplace, -⟩
    exact ⟨_, place, entry, hplace, rfl⟩

theorem found_iff : p.Found k c path ↔ ∃ found,
    p.lookupStatx k { c with nofollow := false } path = .ok found := by
  unfold Found lookupStatx
  split
  · cases p.hostFdFor c.dirfd with
    | some host =>
      dsimp only
      unfold StatHost.fstat
      cases k.ofDescriptor host with
      | ok _ => simp [Except.mapError]
      | error _ => simp [Except.mapError]
    | none => exact stat_ok_iff.symm
  · exact stat_ok_iff.symm

theorem doFstat_eq {fd : Int} (h : p.hostFdFor fd = none) :
    p.doFstat k fd = if p.isConsole fd then .ok consoleStat else .error kEbadf := by
  unfold doFstat
  unfold hostFdFor at h
  split
  · rfl
  · cases hfile : p.files.get fd with
    | none => rfl
    | some _ =>
      rw [hfile, Option.bind_some] at h
      dsimp only
      rw [h]

theorem lookups_alike_iff (hfd : p.hostFdFor kAtFdCwd = none) (hfollow : c.nofollow = false)
    (path : List Char) :
    Alike (p.lookupStat m k c path) (p.lookupStatx k c path) ↔ p.DescribesAlike m k c path := by
  unfold lookupStat lookupStatx DescribesAlike
  rw [hfollow]
  by_cases hempty : path = [] ∧ c.emptyPath = true
  · rw [if_pos hempty, if_pos hempty, if_pos hempty]
    by_cases hcwd : c.dirfd = kAtFdCwd
    · rw [hcwd, hfd]
      exact iff_of_true (alike_refl _) (.inr (.inl rfl))
    rw [if_neg hcwd]
    cases hhost : p.hostFdFor c.dirfd with
    | some _ => exact iff_of_true (alike_refl _) (.inl rfl)
    | none =>
      rw [doFstat_eq hhost]
      by_cases hconsole : p.isConsole c.dirfd = true
      · rw [if_pos hconsole]
        simp only [alike_stat_iff, Option.isSome_none, Bool.false_eq_true, hcwd, hconsole,
          false_or, true_and]
      · -- `EBADF` is no answer the host gives for the working directory.
        rw [if_neg hconsole]
        refine iff_of_false (fun h => ?_) (by simp [hcwd, hconsole])
        cases hstat : k.stat false (p.paths.resolveGuestPath k.files p.cwd true) with
        | ok _ =>
          rw [hstat] at h
          exact h
        | error _ =>
          rw [hstat] at h
          have hrange := stat_error hstat
          rw [← (h)] at hrange
          exact absurd hrange (by decide)
  · rw [if_neg hempty, if_neg hempty, if_neg hempty, Bool.not_false]
    dsimp only
    cases p.madeUp m (p.paths.resolveAt k.files c.dirfd path true).2 with
    | some _ => simp [alike_stat_iff]
    | none => exact iff_of_true (alike_refl _) nofun

theorem lookupStatx_error (h : p.lookupStatx k c path = .error error) :
    error ∈ [2, 20, 40, 17, 5] := by
  unfold lookupStatx at h
  split at h
  · split at h
    · exact fstat_error h
    · exact stat_error h
  · exact stat_error h

theorem lookupStat_ne_fault : p.lookupStat m k c path ≠ .error kEfault := by
  have hstat : ∀ {nofollow name}, k.stat nofollow name ≠ .error kEfault :=
    fun h => absurd (stat_error h) (by decide)
  have hfstat : ∀ {host}, k.fstat host ≠ .error kEfault :=
    fun h => absurd (fstat_error h) (by decide)
  unfold lookupStat
  split
  · split
    · exact hstat
    · split
      next hhost =>
        rw [doFstat_eq hhost]
        split
        · simp
        · simp [kEbadf, kEfault]
      · exact hfstat
  · dsimp only
    split
    · simp
    · exact hstat

/-- A new process at the root of an empty host, with 0, 1 and 2 the console. -/
def plainProcess : StatProcess := ⟨[], [], 1, 0, ['/'], LinuxSyscalls.newFiles, false, [], []⟩

def plainHost : StatHost where
  files := ⟨⟨[], by decide, by decide, by decide⟩, [], 32⟩
  info _ := ⟨kSIfdir ||| 0x1ed, 2, 64, 2, 4096⟩
  ofDescriptor _ := .error .io

def noAnswers : ProcAnswers := ⟨[], [], [], fun _ => none⟩

end StatProcess

end Fathom
