import Fathom.Lib.Machine
import Fathom.Proofs.Descriptors

/-!
# Numbers, flags and copies of descriptors

A new descriptor has the lowest number that is free, from 0 or from where `F_DUPFD` is
told to begin, except that of `dup2` and `dup3`, which are told the number. A call that
is refused has an error to return, and the table is as it was. That, and whether an exec
closes what it was last asked to, are read off every run, call by call. A fork's table and
a duplicate are compared with what they are copies of: by their kind, their flags and the
branch each call takes.
-/

namespace Fathom

open Lib LinuxSyscalls Descriptors OpenFile

def LowestFree (files : Files) (least : Int) : List Int → List Int → Prop
  | _, [] => True
  | taken, n :: rest =>
    (0 ≤ n ∧ least ≤ n ∧ files.get n = none ∧ n ∉ taken ∧
      ∀ m, 0 ≤ m → least ≤ m → m < n → (files.get m).isSome = true ∨ m ∈ taken) ∧
    LowestFree files least (n :: taken) rest

def FdCall.least : FdCall → Int
  | .fcntlDupfd _ least _ _ => least
  | _ => 0

def FdCall.numbers : FdCall → Bool
  | .pipe _ _ _ | .close _ => true
  | c => c.opens || c.copies.isSome

namespace Descriptors

/-- A refused call changes nothing; another gives out the numbers it is to, and no more. -/
def Allots (d : Descriptors) (c : FdCall) (out : FdOut) : Prop :=
  (out.ret < 0 → IsErrno out.ret ∧ out.fds = [] ∧ ∀ k, out.after.files.get k = d.files.get k) ∧
  (0 ≤ out.ret → (c.onto = none → LowestFree d.files c.least [] out.fds) ∧
    (∀ target, c.onto = some target → out.ret = target) ∧
    ∀ k, k ∉ out.fds → c ≠ .close k → out.after.files.get k = d.files.get k)

def AllotsWell (d : Descriptors) (c : FdCall) : Prop :=
  match c with
  | .fcntlDupfd fd least _ dups => ∀ file, d.files.get fd = some file →
      (file.host ≠ none → dups = true) → least ≤ d.allocateFd
  | .dup2 fd target dups | .dup3 fd target _ dups => ∀ file, d.files.get fd = some file →
      if fd = target then -4095 ≤ target
      else if file.host ≠ none ∧ dups = false then d.files.get target = none
      else 0 ≤ target
  | _ => True

variable {d : Descriptors} {c : FdCall} {fd k : Int} {file : OpenFile}

theorem allots_error {r : Int} (hr : IsErrno r) : d.Allots c ⟨r, [], d⟩ := by
  obtain ⟨e, rfl⟩ := hr
  exact ⟨fun _ => ⟨⟨e, rfl⟩, rfl, fun _ => rfl⟩, fun hok => absurd e.ret_neg (Int.not_lt.mpr hok)⟩

theorem allocateFd_lowest {m : Int} (hm : 0 ≤ m) (hlt : m < d.allocateFd) :
    (d.files.get m).isSome = true := by
  obtain ⟨n, rfl⟩ := Int.eq_ofNat_of_zero_le hm
  exact Option.isSome_iff_exists.mpr (d.files.lowestFree_spec.2 n (Int.ofNat_lt.mp hlt))

theorem allots_new_iff {objects : SharedObjects} (honto : c.onto = none) :
    d.Allots c ⟨d.allocateFd, [d.allocateFd], ⟨d.files.put d.allocateFd file, objects⟩⟩ ↔
    c.least ≤ d.allocateFd := by
  have hnonneg := d.allocateFd_nonneg
  constructor
  · intro h
    exact ((h.2 hnonneg).1 honto).1.2.1
  · intro hleast
    refine ⟨fun hneg => absurd hneg (Int.not_lt.mpr hnonneg), fun _ => ⟨fun _ => ?_, ?_, ?_⟩⟩
    · exact ⟨⟨hnonneg, hleast, d.allocateFd_free, List.not_mem_nil,
        fun m hm _ hlt => .inl (allocateFd_lowest hm hlt)⟩, trivial⟩
    · intro target htarget
      rw [honto] at htarget
      cases htarget
    · intro k hk _
      exact (Table.get_put _ _ _ _).trans (if_neg (by simpa using hk))

theorem allots_pipe (d : Descriptors) (closeOnExec place : Bool) (host : Except Errno (Nat × Nat)) :
    d.Allots (.pipe closeOnExec place host) (d.call (.pipe closeOnExec place host)) := by
  rw [call]
  obtain ⟨r, hr, heq⟩ | ⟨reading, _, -, -, -, -, heq⟩ := d.doPipe_cases closeOnExec place host
  · rw [heq]
    exact allots_error hr
  · rw [heq]
    generalize hfiles : d.files.put d.allocateFd reading = files
    have hget : ∀ k, files.get k = if k = d.allocateFd then some reading else d.files.get k :=
      fun k => hfiles ▸ Table.get_put _ _ _ _
    have hsecond : (⟨files, d.objects⟩ : Descriptors).allocateFd = files.lowestFree := rfl
    -- the second is free once the first is there, so it is not the first
    have hfree := hsecond ▸ allocateFd_free ⟨files, d.objects⟩
    rw [hget] at hfree
    split at hfree
    next => cases hfree
    next hne =>
      refine ⟨fun hneg => absurd hneg (by simp), fun _ => ⟨fun _ => ?_, ?_, ?_⟩⟩
      · refine ⟨⟨d.allocateFd_nonneg, d.allocateFd_nonneg, d.allocateFd_free, List.not_mem_nil,
          fun m hm _ hlt => .inl (allocateFd_lowest hm hlt)⟩, ⟨Int.natCast_nonneg _,
          Int.natCast_nonneg _, hfree, by simpa using hne, fun m hm _ hlt => ?_⟩, trivial⟩
        have hsome := allocateFd_lowest (d := ⟨files, d.objects⟩) hm hlt
        rw [hget] at hsome
        split at hsome
        next heq => exact .inr (by simp [heq])
        next => exact .inl hsome
      · intro target htarget
        cases htarget
      · intro k hk _
        simp only [List.mem_cons, List.not_mem_nil, or_false, not_or] at hk
        rw [Table.get_put, if_neg hk.2, hget, if_neg hk.1]

theorem allots_close (d : Descriptors) (fd : Int) : d.Allots (.close fd) (d.call (.close fd)) := by
  simp only [call, doClose, plainly]
  split
  next => exact allots_error (isErrno_neg 9 (by decide))
  next =>
    refine ⟨fun hneg => absurd hneg (by simp), fun _ => ⟨fun _ => trivial, ?_, ?_⟩⟩
    · intro target htarget
      cases htarget
    · intro k _ hne
      rw [files_closeFd, if_neg fun heq => hne (by rw [heq])]

theorem allots_opens (h : c.opens = true) : d.Allots c (d.call c) := by
  obtain ⟨r, hr, heq⟩ | ⟨_, _, heq, -⟩ := call_opens h
  · rw [heq]
    exact allots_error hr
  · have hc : c.onto = none ∧ c.least = 0 := by
      cases c with
      | dup2 | dup3 | fcntlDupfd => cases h
      | _ => exact ⟨rfl, rfl⟩
    rw [heq, allots_new_iff hc.1, hc.2]
    exact d.allocateFd_nonneg

theorem allots_doDup_iff {dups : Bool} (honto : c.onto = none) : d.Allots c (d.doDup fd dups) ↔
      ∀ file, d.files.get fd = some file → (file.host ≠ none → dups = true) →
        c.least ≤ d.allocateFd := by
  rw [doDup]
  split
  next hnone =>
    refine iff_of_true (allots_error (isErrno_neg 9 (by decide))) fun file hfile => ?_
    rw [hnone] at hfile
    cases hfile
  next file hfile =>
    simp only [hfile, Option.some.injEq, forall_eq']
    obtain ⟨hhost, hdups, heq⟩ | ⟨hmade, heq⟩ := d.duplicateTo_cases file d.allocateFd dups
    · rw [heq]
      refine iff_of_true (allots_error (isErrno_neg 1 (by decide))) fun hmade => ?_
      rw [hmade hhost] at hdups
      cases hdups
    · rw [heq, allots_new_iff honto]
      exact ⟨fun hleast _ => hleast, fun h => h hmade⟩

section Onto

variable {target : Int}

theorem allots_same_iff (honto : c.onto = some target) :
    d.Allots c ⟨target, [], d⟩ ↔ -4095 ≤ target := by
  constructor
  · intro h
    by_contra hlow
    exact hlow (isErrno_iff.mp (h.1 (show target < 0 by omega)).1).1
  · intro hlow
    refine ⟨fun hneg => ⟨isErrno_iff.mpr ⟨hlow, hneg⟩, rfl, fun _ => rfl⟩, fun _ => ⟨?_, ?_, ?_⟩⟩
    · intro hnone
      rw [honto] at hnone
      cases hnone
    · intro other hother
      exact Option.some.inj (honto.symm.trans hother)
    · exact fun _ _ _ => rfl

theorem allots_lost_iff : d.Allots c ⟨-1, [], d.closeFd target⟩ ↔ d.files.get target = none := by
  constructor
  · intro h
    have hsame := (h.1 (show -1 < 0 by decide)).2.2 target
    rwa [files_closeFd, if_pos rfl, eq_comm] at hsame
  · intro hnone
    refine ⟨fun _ => ⟨isErrno_neg 1 (by decide), rfl, fun k => ?_⟩, fun hok => absurd hok (by simp)⟩
    rw [files_closeFd]
    split
    next heq => rw [heq, hnone]
    next => rfl

theorem allots_replaced_iff (honto : c.onto = some target) :
    d.Allots c ⟨target, [target], { d.closeFd target with
      files := (d.closeFd target).files.put target file }⟩ ↔ 0 ≤ target := by
  constructor
  · intro h
    by_contra hneg
    exact absurd (h.1 (Int.not_le.mp hneg)).2.1 (by simp)
  · intro hok
    refine ⟨fun hneg => absurd hneg (Int.not_lt.mpr hok), fun _ => ⟨?_, ?_, ?_⟩⟩
    · intro hnone
      rw [honto] at hnone
      cases hnone
    · intro other hother
      exact Option.some.inj (honto.symm.trans hother)
    · intro k hk _
      have hne : k ≠ target := by simpa using hk
      rw [Table.get_put, if_neg hne, files_closeFd, if_neg hne]

theorem allots_doDup2_iff {dups : Bool} (honto : c.onto = some target) :
    d.Allots c (d.doDup2 fd target dups) ↔ ∀ file, d.files.get fd = some file →
        if fd = target then -4095 ≤ target
        else if file.host ≠ none ∧ dups = false then d.files.get target = none
        else 0 ≤ target := by
  rw [doDup2]
  split
  next hnone =>
    refine iff_of_true (allots_error (isErrno_neg 9 (by decide))) fun file hfile => ?_
    rw [hnone] at hfile
    cases hfile
  next file hfile =>
    simp only [hfile, Option.some.injEq, forall_eq']
    split
    next => exact allots_same_iff honto
    next =>
      obtain ⟨hhost, hdups, heq⟩ | ⟨hmade, heq⟩ :=
        (d.closeFd target).duplicateTo_cases file target dups
      · rw [heq, if_pos ⟨hhost, hdups⟩]
        exact allots_lost_iff
      · rw [heq, if_neg fun hand => by simp [hmade hand.1] at hand]
        exact allots_replaced_iff honto

end Onto

theorem allots_iff (h : c.numbers = true) : d.Allots c (d.call c) ↔ d.AllotsWell c := by
  cases c with
  | pipe closeOnExec place host => exact iff_of_true (d.allots_pipe closeOnExec place host) trivial
  | close fd => exact iff_of_true (d.allots_close fd) trivial
  | dup fd _ =>
    refine iff_of_true ((allots_doDup_iff rfl).mpr fun _ _ _ => d.allocateFd_nonneg) trivial
  | fcntlDupfd fd _ _ _ => exact allots_doDup_iff rfl
  | dup2 fd _ _ => exact allots_doDup2_iff rfl
  | dup3 fd _ _ _ => exact allots_doDup2_iff rfl
  | openAt | openDisplay | openSelfFd | socket | netlink | eventfd | timerfdCreate | epollCreate
  | inotifyInit | memfdCreate => exact iff_of_true (allots_opens rfl) trivial
  | _ => cases h

end Descriptors

/-- Of every table and every run of calls, whatever the host answers: each call that gives
out numbers, or takes one back, does so in order exactly if none of them is an `F_DUPFD`
above the lowest free number, or a `dup2` or `dup3` that loses its target or is told a
negative number. -/
theorem numbers_in_order_iff (d : Descriptors) (calls : List FdCall) :
    Along (fun d c => (d.call c).after) (fun d c => c.numbers = true → d.Allots c (d.call c))
        d calls ↔ Along (fun d c => (d.call c).after) AllotsWell d calls := by
  refine along_congr (fun d c => ?_) d calls
  cases h : c.numbers with
  | true => exact (forall_prop_of_true rfl).trans (allots_iff h)
  | false =>
    refine iff_of_true (fun hfalse => absurd hfalse (by simp)) ?_
    cases c with
    | fcntlDupfd | dup2 | dup3 => cases h
    | _ => trivial

theorem numbers_out_of_order :
    let d := Descriptors.new
    let opened := d.calls [.openAt ['f'] false (.ok 1)]
    let duplicate := d.call (.fcntlDupfd 1 10 false true)
    let replaced := opened.call (.dup2 3 1 false)
    (¬ d.Allots (.fcntlDupfd 1 10 false true) duplicate ∧ duplicate.ret = 3) ∧
      (¬ opened.Allots (.dup2 3 1 false) replaced ∧ replaced.ret = -1 ∧
        (opened.files.get 1).isSome = true ∧ (replaced.after.files.get 1).isNone = true) := by
  refine ⟨⟨fun hallots => ?_, by decide +kernel⟩, fun hallots => ?_, by decide +kernel⟩
  · have hleast := (Descriptors.allots_doDup_iff rfl).mp hallots
      { consoleStream := 1, guestPath := "/dev/console".toList } (by decide +kernel) (by simp)
    revert hleast
    decide +kernel
  · have hsame := (hallots.1 (by decide +kernel)).2.2 1
    revert hsame
    decide +kernel

/-! ## Close-on-exec -/

def FdCall.asks : FdCall → Bool
  | .openAt _ closeOnExec _ | .openDisplay _ closeOnExec _ | .openSelfFd _ _ closeOnExec _
  | .socket closeOnExec _ | .netlink _ closeOnExec _ | .pipe closeOnExec _ _
  | .eventfd closeOnExec _ | .timerfdCreate closeOnExec _ | .epollCreate closeOnExec
  | .inotifyInit closeOnExec _ | .memfdCreate _ closeOnExec _ | .dup3 _ _ closeOnExec _
  | .fcntlDupfd _ _ closeOnExec _ => closeOnExec
  | _ => false

def FdCall.asked (c : FdCall) (ret k : Int) (flag : Bool) : Bool :=
  match c with
  | .fcntlSetfd fd closeOnExec => if k = fd then closeOnExec else flag
  | .ioctlCloexec fd closeOnExec _ => if k = fd ∧ ret = 0 then closeOnExec else flag
  | _ => flag

/-- A table, and what has last been asked of each descriptor that is open. -/
structure Requests where
  table : Descriptors
  wanted : Int → Option Bool

/-- There is an entry to copy, and of its host descriptor a copy can be had. -/
def Descriptors.Copies (d : Descriptors) (fd : Int) (dups : Bool) : Prop :=
  ∃ file, d.files.get fd = some file ∧ (file.host ≠ none → dups = true)

namespace Requests

def start (d : Descriptors) : Requests where
  table := d
  wanted fd := (d.files.get fd).map closeOnExec

def step (r : Requests) (c : FdCall) : Requests :=
  let out := r.table.call c
  { table := out.after
    wanted := fun fd =>
      if fd ∈ out.fds then some c.asks
      else if r.table.closes c = some fd then none
      else (r.wanted fd).map (c.asked out.ret fd) }

/-- An exec now would leave exactly the descriptors that are not to be closed. -/
def KeepsRequested (r : Requests) : Prop :=
  ∀ fd, (r.table.adoptImage.files.get fd).isSome = true ↔ r.wanted fd = some false

/-- The call leaves in the table what it was asked for. Those named here make an entry
without the flag they are given, or, the `ioctl`, tell the host's descriptor alone. -/
def Recorded (r : Requests) : FdCall → Prop
  | .openDisplay _ closeOnExec ready => ready = true → closeOnExec = false
  | .netlink protocol closeOnExec host =>
    (protocol = 15 ∨ protocol = 0) ∧ host.isOk = true → closeOnExec = false
  | .openSelfFd _ _ closeOnExec host | .timerfdCreate closeOnExec host
  | .memfdCreate _ closeOnExec host => host.isOk = true → closeOnExec = false
  | .fcntlDupfd fd _ closeOnExec dups => r.table.Copies fd dups → closeOnExec = false
  | .dup3 fd target closeOnExec dups => fd ≠ target ∧ r.table.Copies fd dups → closeOnExec = false
  | .ioctlCloexec fd closeOnExec host => ∀ file, r.table.files.get fd = some file →
      file.isFramebuffer = false ∧ (if file.host = none then 0 ≤ file.consoleStream
        else host.isOk = true) → file.closeOnExec = closeOnExec
  | _ => True

def Tracked (r : Requests) : Prop := ∀ fd, (r.table.files.get fd).isSome = (r.wanted fd).isSome

variable {r : Requests} {c : FdCall} {k : Int}

theorem tracked_start (d : Descriptors) : (start d).Tracked := fun _ => by simp [start]

theorem keepsRequested_iff (h : r.Tracked) :
    r.KeepsRequested ↔ ∀ fd, (r.table.files.get fd).map closeOnExec = r.wanted fd := by
  refine forall_congr' fun fd => ?_
  have htracked := h fd
  rw [files_adoptImage]
  cases hfile : r.table.files.get fd with
  | none =>
    have hnone : r.wanted fd = none := by simpa [hfile] using htracked.symm
    simp [hnone]
  | some file =>
    obtain ⟨flag, hflag⟩ : ∃ flag, r.wanted fd = some flag := by
      rw [hfile] at htracked
      exact Option.isSome_iff_exists.mp htracked.symm
    rw [hflag]
    cases hclose : file.closeOnExec with
    | false => cases flag with
      | false => simp [Option.filter]
      | true => simp [Option.filter]
    | true => cases flag with
      | false => simp [Option.filter]
      | true => simp [Option.filter]

theorem tracked_step (h : r.Tracked) : (r.step c).Tracked := by
  intro k
  simp only [step]
  split_ifs with hmade hclosed
  · have hflag := flag_call hmade
    cases hfile : (r.table.call c).after.files.get k with
    | none => simp [hfile] at hflag
    | some _ => rfl
  · simp [files_call hmade, hclosed]
  · simp [files_call hmade, hclosed, h k]

/-! ## One call -/

theorem edit_closeOnExec (ret : Int) (file : OpenFile)
    (hioctl : ∀ fd closeOnExec host, c ≠ .ioctlCloexec fd closeOnExec host) :
    (c.edit k file).closeOnExec = c.asked ret k file.closeOnExec := by
  cases c with
  | ioctlCloexec fd closeOnExec host => exact absurd rfl (hioctl fd closeOnExec host)
  | fcntlSetfd => simp only [FdCall.edit, FdCall.asked, apply_ite closeOnExec]
  | timerfdSettime => simp [FdCall.edit, FdCall.asked, apply_ite closeOnExec]
  | shutdown _ _ host | getdents64 _ host =>
    cases host with
    | error e => rfl
    | ok _ => simp [FdCall.edit, FdCall.asked, apply_ite closeOnExec]
  | _ => rfl

theorem edit_ioctl_closeOnExec (fd k : Int) (closeOnExec : Bool) (host : Except Errno Unit)
    (file : OpenFile) :
    ((FdCall.ioctlCloexec fd closeOnExec host).edit k file).closeOnExec = file.closeOnExec := by
  cases host with
  | error e => rfl
  | ok _ => simp [FdCall.edit, apply_ite OpenFile.closeOnExec]

theorem giving_fds {out : Int × Descriptors} : (giving out).fds ≠ [] ↔ 0 ≤ out.1 := by
  rw [giving]
  split
  next hneg => exact iff_of_false (fun h => h rfl) (not_le.mpr hneg)
  next hok => exact iff_of_true (List.cons_ne_nil _ _) (not_lt.mp hok)

theorem duplicateTo_fds {d : Descriptors} {file : OpenFile} {target : Int} {dups : Bool} :
    (d.duplicateTo file target dups).fds ≠ [] ↔ (file.host ≠ none → dups = true) := by
  obtain ⟨hhost, hdups, heq⟩ | ⟨hmade, heq⟩ := d.duplicateTo_cases file target dups
  · exact iff_of_false (by simp [heq]) fun h => nomatch hdups.symm.trans (h hhost)
  · exact iff_of_true (by simp [heq]) hmade

theorem recorded_of_ne (hioctl : ∀ fd closeOnExec host, c ≠ .ioctlCloexec fd closeOnExec host) :
    r.Recorded c ↔ ((r.table.call c).fds ≠ [] → c.asks = c.records) := by
  have hfd := r.table.allocateFd_nonneg
  cases c with
  | ioctlCloexec fd closeOnExec host => exact absurd rfl (hioctl fd closeOnExec host)
  | openDisplay _ _ ready =>
    refine imp_congr_left (Iff.trans ?_ giving_fds.symm)
    cases ready with
    | false => exact iff_of_false Bool.false_ne_true (by simp [openDisplay])
    | true => exact iff_of_true rfl hfd
  | openSelfFd _ _ _ host | timerfdCreate _ host | memfdCreate _ _ host =>
    refine imp_congr_left (Iff.trans ?_ giving_fds.symm)
    cases host with
    | error e => exact iff_of_false Bool.false_ne_true (not_le.mpr e.ret_neg)
    | ok _ => exact iff_of_true rfl hfd
  | netlink protocol _ host =>
    refine imp_congr_left (Iff.trans ?_ giving_fds.symm)
    simp only [doNetlink]
    split
    next hother => exact iff_of_false (by tauto) (by simp)
    next hknown =>
      cases host with
      | error e => exact iff_of_false (fun h => Bool.false_ne_true h.2) (not_le.mpr e.ret_neg)
      | ok _ => exact iff_of_true ⟨by tauto, rfl⟩ hfd
  | fcntlDupfd fd _ _ dups =>
    refine imp_congr_left ?_
    simp only [call, doFcntlDupfd, doDup, Copies]
    cases r.table.files.get fd with
    | none => simp
    | some file => simp [duplicateTo_fds]
  | dup3 fd target _ dups =>
    refine imp_congr_left ?_
    simp only [call, doDup2, Copies]
    cases r.table.files.get fd with
    | none => simp
    | some file =>
      by_cases hsame : fd = target
      · simp [hsame]
      · simp [hsame, duplicateTo_fds]
  | _ => exact iff_of_true trivial fun _ => rfl

theorem recorded_ioctl_iff (fd : Int) (closeOnExec : Bool) (host : Except Errno Unit) :
    r.Recorded (.ioctlCloexec fd closeOnExec host) ↔
    ((r.table.call (.ioctlCloexec fd closeOnExec host)).ret = 0 →
      ∀ file, r.table.files.get fd = some file → file.closeOnExec = closeOnExec) := by
  simp only [Recorded, call, plainly, doIoctlCloexec]
  cases r.table.files.get fd with
  | none => simp
  | some file =>
    simp only [Option.some.injEq, forall_eq']
    refine imp_congr_left ?_
    cases file.isFramebuffer with
    | true => simp
    | false =>
      cases file.host with
      | none => simp
      | some _ =>
        cases host with
        | error e => simp [e.ret_neg.ne, Except.isOk, Except.toBool]
        | ok _ => simp [Except.isOk, Except.toBool]

theorem flags_step_iff
    (hflags : ∀ fd, (r.table.files.get fd).map closeOnExec = r.wanted fd)
    (hioctl : ∀ fd closeOnExec host, c ≠ .ioctlCloexec fd closeOnExec host) :
    (∀ fd, ((r.step c).table.files.get fd).map closeOnExec = (r.step c).wanted fd) ↔
    ((r.table.call c).fds ≠ [] → c.asks = c.records) := by
  constructor
  · intro h hmakes
    obtain ⟨k, hk⟩ := List.exists_mem_of_ne_nil _ hmakes
    have hflag := h k
    simp only [step, if_pos hk, flag_call hk] at hflag
    exact (Option.some.inj hflag).symm
  · intro h k
    simp only [step]
    split_ifs with hmade hclosed
    · rw [flag_call hmade, h (List.ne_nil_of_mem hmade)]
    · rw [files_call hmade, if_pos hclosed, Option.map_none]
    · rw [files_call hmade, if_neg hclosed, ← hflags k, Option.map_map, Option.map_map]
      exact congrArg (fun f => (r.table.files.get k).map f)
        (funext fun file => edit_closeOnExec _ file hioctl)

theorem flags_step_ioctl_iff
    (hflags : ∀ fd, (r.table.files.get fd).map OpenFile.closeOnExec = r.wanted fd)
    (fd : Int) (closeOnExec : Bool) (host : Except Errno Unit) :
    (∀ k, ((r.step (.ioctlCloexec fd closeOnExec host)).table.files.get k).map
        OpenFile.closeOnExec = (r.step (.ioctlCloexec fd closeOnExec host)).wanted k) ↔
      r.Recorded (.ioctlCloexec fd closeOnExec host) := by
  rw [recorded_ioctl_iff]
  generalize hc : FdCall.ioctlCloexec fd closeOnExec host = c
  have hmakes : ∀ k, k ∉ (r.table.call c).fds := by
    rw [← hc]
    exact fun k => List.not_mem_nil
  have hcloses : r.table.closes c = none := hc ▸ rfl
  have hkeeps : ∀ k file, (c.edit k file).closeOnExec = file.closeOnExec := by
    rw [← hc]
    exact fun k file => edit_ioctl_closeOnExec fd k closeOnExec host file
  have hafter : ∀ k, ((r.step c).table.files.get k).map OpenFile.closeOnExec = r.wanted k := by
    intro k
    rw [step, files_call (hmakes k), hcloses, if_neg (by simp), Option.map_map,
      ← hflags k]
    exact congrArg (fun f => (r.table.files.get k).map f) (funext (hkeeps k))
  have hwanted : ∀ k, (r.step c).wanted k = (r.wanted k).map (c.asked (r.table.call c).ret k) := by
    intro k
    simp only [step, if_neg (hmakes k), hcloses]
    exact if_neg (by simp)
  simp only [hafter, hwanted]
  subst hc
  constructor
  · intro h hret file hfile
    have hflag := h fd
    rw [← hflags fd, hfile] at hflag
    simpa [FdCall.asked, hret] using hflag
  · intro h k
    cases hfile : r.table.files.get k with
    | none => rw [← hflags k, hfile, Option.map_none, Option.map_none]
    | some file =>
      rw [← hflags k, hfile, Option.map_some, Option.map_some, FdCall.asked]
      split_ifs with hand
      · rw [h hand.2 file (hand.1 ▸ hfile)]
      · rfl

theorem keepsRequested_step_iff (h : r.Tracked) (hkeeps : r.KeepsRequested) :
    (r.step c).KeepsRequested ↔ r.Recorded c := by
  rw [keepsRequested_iff (tracked_step h)]
  have hflags := (keepsRequested_iff h).mp hkeeps
  by_cases hioctl : ∃ fd closeOnExec host, c = .ioctlCloexec fd closeOnExec host
  · obtain ⟨fd, closeOnExec, host, rfl⟩ := hioctl
    exact flags_step_ioctl_iff hflags fd closeOnExec host
  · have hne : ∀ fd closeOnExec host, c ≠ .ioctlCloexec fd closeOnExec host :=
      fun fd closeOnExec host heq => hioctl ⟨fd, closeOnExec, host, heq⟩
    rw [recorded_of_ne hne]
    exact flags_step_iff hflags hne

end Requests

/-- Of every table and every run of calls: an exec would leave exactly what was last
asked to be left, at every point of the run, if and only if each call of it leaves in
the table what it was asked for. -/
theorem exec_keeps_requested_iff (d : Descriptors) (calls : List FdCall) :
    Throughout Requests.step Requests.KeepsRequested (.start d) calls ↔
    Along Requests.step Requests.Recorded (.start d) calls := by
  have hstart : (Requests.start d).KeepsRequested :=
    (Requests.keepsRequested_iff (Requests.tracked_start d)).mpr fun _ => rfl
  rw [throughout_iff_along_within (fun _ _ h _ => Requests.tracked_step h)
    (fun _ _ h _ => Requests.keepsRequested_step_iff h) (Requests.tracked_start d)
    (along_true _ _), and_iff_right hstart]

theorem exec_keeps_unwanted :
    let calls : List FdCall := [.openAt ['f'] false (.ok 1), .ioctlCloexec 3 true (.ok ()),
      .timerfdCreate true (.ok 2), .memfdCreate ['m'] true (.ok 3),
      .fcntlDupfd 3 0 true true, .dup3 3 9 true true]
    let r := calls.foldl Requests.step (.start .new)
    ¬ r.KeepsRequested ∧ [3, 4, 5, 6, 9].map r.wanted = List.replicate 5 (some true) ∧
      [3, 4, 5, 6, 9].all (fun fd => (r.table.adoptImage.files.get fd).isSome) = true := by
  refine ⟨fun hkeeps => ?_, by decide +kernel, by decide +kernel⟩
  have hfile := hkeeps 3
  revert hfile
  decide +kernel

/-! ## What a fork's copy leaves out -/

structure Conduct where
  consoleStream : Int
  isFramebuffer : Bool
  event : Option Nat
  epoll : Option Nat
  isTimer : Bool
  netlink : Option Int
  /-- An inotify descriptor, or a netlink socket, keeps its pipe's other end. -/
  keepsPeer : Bool
  closeOnExec : Bool
  shutdownWrite : Bool

def LinuxSyscalls.OpenFile.conduct (file : OpenFile) : Conduct where
  consoleStream := file.consoleStream
  isFramebuffer := file.isFramebuffer
  event := file.event
  epoll := file.epoll
  isTimer := file.isTimer
  netlink := if file.isNetlink then some file.netlinkProtocol else none
  keepsPeer := file.netlinkPeer.isSome
  closeOnExec := file.closeOnExec
  shutdownWrite := file.shutdownWrite

/-- The same numbers, with entries that are of the same kind, have the same flags, and
are read, written and polled by the same branches. -/
def SameConduct (child parent : Files) : Prop :=
  ∀ fd, (child.get fd).map conduct = (parent.get fd).map conduct ∧
  readBranch (child.get fd) = readBranch (parent.get fd) ∧ writeBranch (child.get fd) =
  writeBranch (parent.get fd) ∧ pollBranch fd (child.get fd) = pollBranch fd (parent.get fd)

def LinuxSyscalls.OpenFile.Inheritable (file : OpenFile) : Prop :=
  file.isNetlink = false ∧ file.netlinkPeer = none ∧ file.shutdownWrite = false

theorem get_newFiles (fd : Int) : (newFiles.get fd).isSome = true ↔ fd = 0 ∨ fd = 1 ∨ fd = 2 := by
  simp only [newFiles, Table.get_put]
  split
  next h => simp [h]
  next h0 =>
    split
    next h => simp [h]
    next h1 =>
      split
      next h => simp [h]
      next h2 => simp [h0, h1, h2]

def LinuxSyscalls.OpenFile.forked (file : OpenFile) : OpenFile where
  guestPath := file.guestPath
  consoleStream := file.consoleStream
  isFramebuffer := file.isFramebuffer
  event := file.event
  epoll := file.epoll
  isTimer := file.isTimer
  closeOnExec := file.closeOnExec
  timerIntervalNs := file.timerIntervalNs
  timerValueNs := file.timerValueNs
  host := file.host.map HostDescriptor.dup

theorem inherited_true (file : OpenFile) : file.inherited true = some file.forked := by
  cases hhost : file.host with
  | none => simp [inherited, forked, hhost]
  | some _ => simp [inherited, forked, hhost]

theorem get_cloneFiles (files : Files) (fd : Int) : (cloneFiles files fun _ => true).get fd =
      ((files.get fd).map forked).or (newFiles.get fd) := by
  rw [cloneFiles, Table.get_overlay]
  simp only [inherited_true]
  cases files.get fd with
  | none => rfl
  | some _ => rfl

theorem forked_conduct_iff (file : OpenFile) :
    file.forked.conduct = file.conduct ↔ file.Inheritable := by
  simp only [conduct, forked, Inheritable]
  cases file.isNetlink with
  | true => simp
  | false =>
    cases file.netlinkPeer with
    | none => simp [Bool.false_eq]
    | some _ => simp

theorem forked_branches {file : OpenFile} (h : file.Inheritable) (fd : Int) :
    readBranch (some file.forked) = readBranch (some file) ∧ writeBranch (some file.forked) =
    writeBranch (some file) ∧ pollBranch fd (some file.forked) = pollBranch fd (some file) := by
  cases hhost : file.host with
  | none => simp [readBranch, writeBranch, pollBranch, description, forked, hhost]
  | some _ =>
    simp [readBranch, writeBranch, pollBranch, description, forked, hhost,
      h.2.2, HostDescriptor.dup]

/-- Of every table and every fork for which the host has descriptors: the child's is the
same exactly if the parent has something at each of 0, 1 and 2, and nothing that the
copy is not as good as. -/
theorem fork_same_conduct_iff (files : Files) : SameConduct (cloneFiles files fun _ => true) files ↔
      (∀ fd, fd = 0 ∨ fd = 1 ∨ fd = 2 → (files.get fd).isSome = true) ∧
        ∀ fd file, files.get fd = some file → file.Inheritable := by
  constructor
  · intro hsame
    refine ⟨fun fd hconsole => ?_, fun fd file hfile => ?_⟩
    · have hconduct := (hsame fd).1
      rw [get_cloneFiles] at hconduct
      cases hfile : files.get fd with
      | some _ => rfl
      | none =>
        obtain ⟨_, hnew⟩ := Option.isSome_iff_exists.mp ((get_newFiles fd).mpr hconsole)
        simp [hfile, hnew] at hconduct
    · have hconduct := (hsame fd).1
      rw [get_cloneFiles, hfile] at hconduct
      exact (forked_conduct_iff file).mp (Option.some.inj hconduct)
  · rintro ⟨hconsole, hplain⟩ fd
    rw [get_cloneFiles]
    cases hfile : files.get fd with
    | none =>
      have hnew : newFiles.get fd = none := by
        rw [← Option.not_isSome_iff_eq_none, get_newFiles]
        intro hfd
        have hsome := hconsole fd hfd
        simp [hfile] at hsome
      simp [hnew]
    | some file =>
      have hinheritable := hplain fd file hfile
      exact ⟨congrArg some ((forked_conduct_iff file).mpr hinheritable),
        forked_branches hinheritable fd⟩

theorem fork_conduct_differs :
    let parent := new.calls
      [.inotifyInit false (.ok (1, 2)), .socket false (.ok 3), .shutdown 4 1 (.ok ()), .close 0]
    let child := cloneFiles parent.files fun _ => true
    ¬ SameConduct child parent.files ∧ (parent.files.get 0).isNone = true ∧ readBranch (child.get 0)
      = .consoleInput ∧ pollBranch 4 (parent.files.get 4) = .polled 3 true ∧
      pollBranch 4 (child.get 4) = .polled 3 false ∧ (parent.files.get 3).map (·.conduct.keepsPeer)
      = some true ∧ (child.get 3).map (·.conduct.keepsPeer) = some false := by
  refine ⟨fun hsame => ?_, by decide +kernel⟩
  have hpoll := (hsame 4).2.2.2
  revert hpoll
  decide +kernel

/-! ## Duplicates -/

structure FdView where
  read : FdBranch
  write : FdBranch
  poll : FdBranch
  epoll : FdBranch
  timer : FdBranch
  message : FdBranch
  directory : FdBranch
  peer : Option Nat
  shutdownWrite : Bool
  deriving DecidableEq

def LinuxSyscalls.view (fd : Int) (file : Option OpenFile) : FdView where
  read := readBranch file
  write := writeBranch file
  poll := pollBranch fd file
  epoll := epollBranch file
  timer := timerBranch file
  message := messageBranch file
  directory := directoryBranch file
  peer := (file.bind netlinkPeer).map HostDescriptor.description
  shutdownWrite := file.any shutdownWrite

def Descriptors.SameFile (d : Descriptors) (source target : Int) : Prop :=
  view source (d.files.get source) = view target (d.files.get target)

instance (d : Descriptors) (source target : Int) : Decidable (d.SameFile source target) :=
  inferInstanceAs (Decidable (_ = _))

structure LinuxSyscalls.OpenFile.Plain (file : OpenFile) : Prop where
  event : file.event = none
  epoll : file.epoll = none
  isTimer : file.isTimer = false
  isNetlink : file.isNetlink = false
  netlinkPeer : file.netlinkPeer = none
  directory : file.directory = none
  shutdownWrite : file.shutdownWrite = false

def PollsAlike (source target : Int) : Prop :=
  (2 < source ∧ 2 < target) ∨ ((source = 1 ∨ source = 2) ∧ (target = 1 ∨ target = 2))

def FdCall.marks (c : FdCall) (fd : Int) (file : OpenFile) : Prop :=
  match c with
  | .shutdown k how (.ok _) => fd = k ∧ how ≠ 0 ∧ file.host ≠ none ∧ file.shutdownWrite = false
  | .getdents64 k (.ok _) => fd = k ∧ file.directory = none
  | _ => False

def FdEvent.edit (e : FdEvent) (fd : Int) : OpenFile → OpenFile :=
  match e with
  | .call c => c.edit fd
  | .exec => id

def FdEvent.marks (e : FdEvent) (fd : Int) (file : OpenFile) : Prop :=
  match e with
  | .call c => c.marks fd file
  | .exec => False

namespace Descriptors

/-- The event leaves the descriptor open. -/
def Retains (d : Descriptors) (e : FdEvent) (fd : Int) : Prop :=
  match e with
  | .call c => d.closes c ≠ some fd
  | .exec => (d.files.get fd).any closeOnExec = false

instance (d : Descriptors) (e : FdEvent) (fd : Int) : Decidable (d.Retains e fd) :=
  match e with
  | .call c => inferInstanceAs (Decidable (d.closes c ≠ some fd))
  | .exec => inferInstanceAs (Decidable ((d.files.get fd).any closeOnExec = false))

/-- The event writes into one of the two entries. -/
def Parts (d : Descriptors) (source target : Int) (e : FdEvent) : Prop :=
  ∃ fd file, (fd = source ∨ fd = target) ∧ d.files.get fd = some file ∧ e.marks fd file

end Descriptors

/-! ### What a copy is seen as -/

section Poll

variable {fd : Int}

theorem pollBranch_output (h : fd = 1 ∨ fd = 2) (file : Option OpenFile) :
    pollBranch fd file = .consoleOutput := by
  simp only [pollBranch]
  rw [if_neg (by omega), if_neg (by omega), if_pos h]

theorem pollBranch_entry (h : 2 < fd) (file : OpenFile) : pollBranch fd (some file) =
      (file.description.map (FdBranch.polled · file.shutdownWrite)).getD .invalid := by
  simp only [pollBranch, description]
  rw [if_neg (by omega), if_neg (by omega), if_neg (by omega)]
  cases file.host with
  | none => rfl
  | some _ => rfl

theorem pollBranch_entry_ne (h : 2 < fd) (file : OpenFile) : pollBranch fd (some file) ≠ .ignored ∧
    pollBranch fd (some file) ≠ .consoleInput ∧ pollBranch fd (some file) ≠ .consoleOutput := by
  rw [pollBranch_entry h]
  cases file.description with
  | none => simp
  | some _ => simp

theorem pollsAlike_of_poll {file copy : OpenFile} {source target : Int} (htarget : 0 ≤ target)
    (hne : source ≠ target) (h : pollBranch source (some file) = pollBranch target (some copy)) :
    PollsAlike source target := by
  -- a number is ignored, the console's input, its output, or what the entry says
  have hignored : ∀ {fd : Int} (file), fd < 0 → pollBranch fd file = .ignored := fun _ h => if_pos h
  have hs : source < 0 ∨ source = 0 ∨ (source = 1 ∨ source = 2) ∨ 2 < source := by omega
  have ht : target = 0 ∨ (target = 1 ∨ target = 2) ∨ 2 < target := by omega
  obtain hs | rfl | hs | hs := hs
  · rw [hignored _ hs] at h
    obtain rfl | ht | ht := ht
    · cases h
    · rw [pollBranch_output ht] at h
      cases h
    · exact absurd h.symm (pollBranch_entry_ne ht copy).1
  · obtain rfl | ht | ht := ht
    · exact absurd rfl hne
    · rw [pollBranch_output ht] at h
      cases h
    · exact absurd h.symm (pollBranch_entry_ne ht copy).2.1
  · rw [pollBranch_output hs] at h
    obtain rfl | ht | ht := ht
    · cases h
    · exact .inr ⟨hs, ht⟩
    · exact absurd h.symm (pollBranch_entry_ne ht copy).2.2
  · obtain rfl | ht | ht := ht
    · exact absurd h (pollBranch_entry_ne hs file).2.1
    · rw [pollBranch_output ht] at h
      exact absurd h (pollBranch_entry_ne hs file).2.2
    · exact .inl ⟨hs, ht⟩

end Poll

section

variable (file : OpenFile)

theorem description_copied : file.copied.description = file.description := by
  simp only [description, copied, Option.map_map]
  rfl

theorem readBranch_copied : readBranch (some file.copied) =
    if file.consoleStream ≥ 0 then .consoleInput else .host file.description := by
  rw [← description_copied]
  rfl

theorem messageBranch_copied : messageBranch (some file.copied) = .host file.description := by
  rw [← description_copied]
  rfl

end

variable {file : OpenFile} {source target : Int} {c : FdCall}

theorem poll_copied (hshutdown : file.shutdownWrite = false) (h : PollsAlike source target) :
    pollBranch source (some file) = pollBranch target (some file.copied) := by
  obtain ⟨hsource, htarget⟩ | ⟨hsource, htarget⟩ := h
  · rw [pollBranch_entry hsource, pollBranch_entry htarget, description_copied, hshutdown]
    rfl
  · rw [pollBranch_output hsource, pollBranch_output htarget]

theorem plain_of_view (h : view source (some file) = view target (some file.copied)) :
    file.Plain := by
  simp only [view, FdView.mk.injEq] at h
  obtain ⟨hread, -, -, hepoll, htimer, hmessage, hdirectory, hpeer, hshutdown⟩ := h
  refine ⟨?_, ?_, ?_, ?_, ?_, ?_, ?_⟩
  · cases hevent : file.event with
    | none => rfl
    | some _ =>
      rw [readBranch_copied] at hread
      simp only [readBranch, hevent] at hread
      split_ifs at hread
  · cases hid : file.epoll with
    | none => rfl
    | some id => simp [epollBranch, hid, copied] at hepoll
  · cases hflag : file.isTimer with
    | false => rfl
    | true => simp [timerBranch, hflag, copied] at htimer
  · cases hflag : file.isNetlink with
    | false => rfl
    | true =>
      rw [messageBranch_copied] at hmessage
      simp only [messageBranch, hflag] at hmessage
      split_ifs at hmessage
  · simpa [copied] using hpeer
  · cases hdir : file.directory with
    | none => rfl
    | some _ => simp [directoryBranch, hdir, copied] at hdirectory
  · simpa [copied] using hshutdown

theorem view_copied_iff (htarget : 0 ≤ target) (hne : source ≠ target) : view source (some file) =
    view target (some file.copied) ↔ file.Plain ∧ PollsAlike source target := by
  constructor
  · intro h
    exact ⟨plain_of_view h, pollsAlike_of_poll htarget hne (congrArg FdView.poll h)⟩
  · rintro ⟨hplain, halike⟩
    simp only [view, FdView.mk.injEq]
    refine ⟨?_, ?_, poll_copied hplain.shutdownWrite halike, ?_, ?_, ?_, ?_, ?_, ?_⟩
    · rw [readBranch_copied]
      simp [readBranch, hplain.event, hplain.isTimer]
    · simp only [writeBranch, hplain.event, description_copied]
      rfl
    · simp [epollBranch, hplain.epoll, copied]
    · simp [timerBranch, hplain.isTimer, copied]
    · rw [messageBranch_copied]
      simp [messageBranch, hplain.isNetlink]
    · simp only [directoryBranch, hplain.directory, description_copied]
      rfl
    · simp [hplain.netlinkPeer, copied]
    · simp [hplain.shutdownWrite, copied]

/-! ### What later calls make of the two -/

theorem view_edit {fd : Int} (htimer : file.isTimer = false) (h : ¬ c.marks fd file) :
    view fd (some (c.edit fd file)) = view fd (some file) := by
  cases c with
  | fcntlSetfd k _ =>
    rw [FdCall.edit]
    split_ifs
    · rfl
    · rfl
  | ioctlCloexec k _ host =>
    cases host with
    | error e => rfl
    | ok _ =>
      simp only [FdCall.edit]
      split_ifs
      · cases hhost : file.host with
        | none => simp [view, readBranch, writeBranch, pollBranch, epollBranch, timerBranch,
            messageBranch, directoryBranch, description, hhost]
        | some _ => simp [view, readBranch, writeBranch, pollBranch, epollBranch,
            timerBranch, messageBranch, directoryBranch, description, hhost]
      · rfl
  | shutdown k _ host =>
    cases host with
    | error e => rfl
    | ok _ =>
      simp only [FdCall.edit]
      split_ifs with hand
      · -- it has been shut down before
        have hshutdown : file.shutdownWrite = true := by
          by_contra hfalse
          exact h ⟨hand.1, hand.2.1, hand.2.2, Bool.eq_false_of_not_eq_true hfalse⟩
        rw [← hshutdown]
      · rfl
  | getdents64 k host =>
    cases host with
    | error e => rfl
    | ok _ =>
      simp only [FdCall.edit]
      split_ifs with heq
      · -- it is being read already
        obtain ⟨_, halready⟩ := Option.ne_none_iff_exists'.mp fun hnone => h ⟨heq, hnone⟩
        rw [halready, Option.getD_some, ← halready]
      · rfl
  | timerfdSettime k _ _ => simp [FdCall.edit, htimer]
  | _ => rfl

theorem edit_isTimer (c : FdCall) (fd : Int) (file : OpenFile) :
    (c.edit fd file).isTimer = file.isTimer := by
  cases c with
  | fcntlSetfd | timerfdSettime => simp [FdCall.edit, apply_ite isTimer]
  | ioctlCloexec _ _ host | shutdown _ _ host | getdents64 _ host =>
    cases host with
    | error e => rfl
    | ok _ => simp [FdCall.edit, apply_ite isTimer]
  | _ => rfl

theorem edits_of_marks {fd : Int} (h : c.marks fd file) : c.edits = some fd := by
  cases c with
  | shutdown k _ host =>
    cases host with
    | error e => cases h
    | ok _ => rw [FdCall.edits, h.1]
  | getdents64 k host =>
    cases host with
    | error e => cases h
    | ok _ => rw [FdCall.edits, h.1]
  | _ => cases h

theorem view_marked {fd other : Int} {copy : OpenFile} (hmarks : c.marks fd file) (hne : fd ≠ other)
    (h : view fd (some file) = view other (some copy)) :
    view fd (some (c.edit fd file)) ≠ view other (some (c.edit other copy)) := by
  have hother : c.edit other = id := FdCall.edit_of_ne (by simpa [edits_of_marks hmarks] using hne)
  rw [hother, id, ← h]
  intro hsame
  cases c with
  | shutdown k _ host =>
    cases host with
    | error e => cases hmarks
    | ok _ =>
      obtain ⟨rfl, hhow, hhost, hshutdown⟩ := hmarks
      have hwrite := congrArg FdView.shutdownWrite hsame
      simp [view, FdCall.edit, hhow, hhost, hshutdown] at hwrite
  | getdents64 k host =>
    cases host with
    | error e => cases hmarks
    | ok _ =>
      obtain ⟨rfl, hdirectory⟩ := hmarks
      have hreads := congrArg FdView.directory hsame
      simp [view, directoryBranch, FdCall.edit, hdirectory] at hreads
  | _ => cases hmarks

namespace Descriptors

variable {d : Descriptors} {e : FdEvent} {source target : Int}

theorem files_step {fd : Int} (hfile : d.files.get fd = some file) (h : d.Retains e fd) :
    (d.step e).files.get fd = some (e.edit fd file) := by
  cases e with
  | call c => exact files_call_kept hfile h
  | exec =>
    have hflag : file.closeOnExec = false := by simpa [Retains, hfile] using h
    simp [step, files_adoptImage, hfile, hflag, FdEvent.edit]

theorem view_step {fd : Int} (htimer : file.isTimer = false) (h : ¬ e.marks fd file) :
    view fd (some (e.edit fd file)) = view fd (some file) := by
  cases e with
  | call c => exact view_edit htimer h
  | exec => rfl

theorem isTimer_step (e : FdEvent) (fd : Int) (file : OpenFile) :
    (e.edit fd file).isTimer = file.isTimer := by
  cases e with
  | call c => exact edit_isTimer c fd file
  | exec => rfl

def Pair (source target : Int) (d : Descriptors) : Prop :=
  ∃ file copy, d.files.get source = some file ∧ d.files.get target = some copy ∧
  copy.isTimer = false

theorem pair_step (h : Pair source target d)
    (hretains : d.Retains e source ∧ d.Retains e target) : Pair source target (d.step e) := by
  obtain ⟨_, _, hfile, hcopy, htimer⟩ := h
  refine ⟨_, _, files_step hfile hretains.1, files_step hcopy hretains.2, ?_⟩
  rw [isTimer_step, htimer]

theorem sameFile_step_iff (hne : source ≠ target) (h : Pair source target d)
    (hretains : d.Retains e source ∧ d.Retains e target) (hsame : d.SameFile source target) :
    (d.step e).SameFile source target ↔ ¬ d.Parts source target e := by
  obtain ⟨file, copy, hfile, hcopy, htimer⟩ := h
  simp only [SameFile, hfile, hcopy] at hsame
  simp only [SameFile, files_step hfile hretains.1, files_step hcopy hretains.2]
  have htimer' : file.isTimer = false := by
    have htimers := congrArg FdView.timer hsame
    by_contra htrue
    simp [view, timerBranch, htimer, htrue] at htimers
  constructor
  · rintro hafter ⟨fd, _, hfd, hmarked, hmarks⟩
    cases e with
    | exec => cases hmarks
    | call c =>
      obtain rfl | rfl := hfd
      · rw [hfile] at hmarked
        cases hmarked
        exact view_marked hmarks hne hsame hafter
      · rw [hcopy] at hmarked
        cases hmarked
        exact view_marked hmarks (Ne.symm hne) hsame.symm hafter.symm
  · intro hparts
    rw [view_step htimer' fun hmarks => hparts ⟨source, file, .inl rfl, hfile, hmarks⟩,
      view_step htimer fun hmarks => hparts ⟨target, copy, .inr rfl, hcopy, hmarks⟩, hsame]

theorem call_copied {c : FdCall} (hc : c.copies = some source)
    (hret : (d.call c).ret = target) (hok : 0 ≤ target) (hne : source ≠ target) :
    ∃ file, d.files.get source = some file ∧ (d.call c).after.files.get source = some file ∧
    (d.call c).after.files.get target = some file.copied := by
  have hdoes := d.call_does c
  generalize d.call c = out at hdoes hret ⊢
  cases hdoes with
  | fails hr =>
    obtain ⟨e, rfl⟩ := hr
    exact absurd (hret ▸ e.ret_neg) (Int.not_lt.mpr hok)
  | opens hopens =>
    rw [opens_of_copies hc] at hopens
    cases hopens
  | pipes | closes | watches => cases hc
  | copies hfd _ hfile =>
    rw [hc] at hfd
    cases hfd
    subst hret
    exact ⟨_, hfile, by rw [Table.get_put, if_neg hne, hfile], by rw [Table.get_put, if_pos rfl]⟩
  | stays hfd _ _ =>
    rw [hc] at hfd
    cases hfd
    exact absurd hret hne
  | replaces hfd _ hfile _ =>
    rw [hc] at hfd
    cases hfd
    subst hret
    exact ⟨_, hfile, by rw [Table.get_put, if_neg hne, files_closeFd, if_neg hne, hfile],
      by rw [Table.get_put, if_pos rfl]⟩
  | loses =>
    subst hret
    exact absurd hok (by simp)
  | edits hedits =>
    rw [edits_of_copies hc] at hedits
    cases hedits

end Descriptors

/-- After every successful `dup`, `dup2`, `dup3` or `F_DUPFD`, and throughout every run
of a process that leaves it both descriptors, the two are seen as one file exactly if
they are one number, or the original is plain, the numbers are polled alike, and
nothing is written into one of the two entries. -/
theorem duplicate_same_file_iff (d : Descriptors) (c : FdCall) (source target : Int)
    (later : List FdEvent) (hc : c.copies = some source) (hret : (d.call c).ret = target)
    (hok : 0 ≤ target)
    (hretains : Along step (fun d e => d.Retains e source ∧ d.Retains e target)
      (d.call c).after later) :
    Throughout step (fun d => d.SameFile source target) (d.call c).after later ↔
      source = target ∨
        ((∃ file, d.files.get source = some file ∧ file.Plain) ∧ PollsAlike source target ∧
          Along step (fun d e => ¬ d.Parts source target e) (d.call c).after
            later) := by
  by_cases hne : source = target
  · subst hne
    exact ⟨fun _ => .inl rfl, fun _ _ _ => rfl⟩
  · obtain ⟨file, hfile, hsource, htarget⟩ := call_copied hc hret hok hne
    have hpair : Pair source target (d.call c).after :=
      ⟨file, file.copied, hsource, htarget, rfl⟩
    have hstep : ∀ d e, Pair source target d →
        d.Retains e source ∧ d.Retains e target → d.SameFile source target →
        ((d.step e).SameFile source target ↔ ¬ d.Parts source target e) :=
      fun d e => sameFile_step_iff hne
    rw [throughout_iff_along_within (fun _ _ => pair_step) hstep hpair hretains,
      or_iff_right hne, ← and_assoc]
    refine and_congr_left fun _ => ?_
    simp only [SameFile, hsource, htarget, hfile, Option.some.injEq, exists_eq_left']
    exact view_copied_iff hok hne

theorem duplicate_same_file_iff_file : Throughout step (fun d => d.SameFile 3 4)
      ((new.calls [.openAt ['f'] false (.ok 1)]).call (.dup 3 true)).after
      [.call (.fcntlSetfd 4 true), .call (.close 0)] := by
  refine (duplicate_same_file_iff _ (.dup 3 true) 3 4 _ rfl (by decide +kernel) (by decide)
    (by decide +kernel)).mpr (.inr ⟨?_, .inl (by decide), ?_, ?_, trivial⟩)
  · exact ⟨{ host := some ⟨1, false⟩, guestPath := ['f'] }, by decide +kernel,
      ⟨rfl, rfl, rfl, rfl, rfl, rfl, rfl⟩⟩
  · rintro ⟨_, _, _, _, hmarks⟩
    exact hmarks
  · rintro ⟨_, _, _, _, hmarks⟩
    exact hmarks

theorem duplicate_other_file :
    let d := new.calls [.eventfd false (.ok 7), .epollCreate false]
    let counter := d.call (.dup 3 true)
    let set := d.call (.dup 4 true)
    let console := d.call (.fcntlDupfd 1 0 false true)
    (counter.ret = 5 ∧ ¬ counter.after.SameFile 3 5 ∧ readBranch (counter.after.files.get 3) =
      .event 0 ∧ readBranch (counter.after.files.get 5) = .host (some 7)) ∧
    (set.ret = 5 ∧ ¬ set.after.SameFile 4 5 ∧ epollBranch (set.after.files.get 4) = .epoll 0 ∧
      epollBranch (set.after.files.get 5) = .badFd) ∧
    (console.ret = 5 ∧ ¬ console.after.SameFile 1 5 ∧ pollBranch 1 (console.after.files.get 1) =
      .consoleOutput ∧ pollBranch 5 (console.after.files.get 5) = .invalid) := by
  decide +kernel

end Fathom
