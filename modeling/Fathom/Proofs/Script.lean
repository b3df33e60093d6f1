import Fathom.Runtime.GuestPath
import Mathlib.Data.Finset.Card

/-!
# The program behind a script

Three things are asked of the way from a script to a program. That the first line is
read as Linux reads it: the scan agrees with the rule exactly on the lines that put
nothing between `#!` and the interpreter and nothing behind the argument. That the way
ends: it does exactly if no path comes up twice, and each script on it adds two arguments
at most. And that a session's first program, which is looked for by a loop of its own, is
the one an `execve` of its path comes to; the loop gives up after four scripts, so that is
as far as the two agree.
-/

namespace Fathom

open Lib.Namei ScriptLine

/-! ## Prefixes of a line -/

section Lists

variable {α : Type} {p : α → Bool}

theorem takeWhile_take (l : List α) (n : Nat) :
    (l.take n).takeWhile p = (l.takeWhile p).take n := by
  induction l generalizing n with
  | nil => simp
  | cons x l ih =>
    cases n with
    | zero => simp
    | succ n =>
      cases hx : p x with
      | false => simp [hx]
      | true => simp [hx, ih]

theorem dropWhile_take (l : List α) (n : Nat) :
    (l.take n).dropWhile p = (l.dropWhile p).take (n - (l.takeWhile p).length) := by
  induction l generalizing n with
  | nil => simp
  | cons x l ih =>
    cases n with
    | zero => simp
    | succ n =>
      cases hx : p x with
      | false => simp [hx]
      | true => simp [hx, ih]

theorem rdropWhile_append {l m : List α} (hm : ¬ ∀ x ∈ m, p x) :
    (l ++ m).rdropWhile p = l ++ m.rdropWhile p := by
  induction m using List.reverseRecOn with
  | nil => exact absurd (by simp) hm
  | append_singleton m x ih =>
    rw [← List.append_assoc]
    by_cases hx : p x
    · rw [List.rdropWhile_concat_pos _ _ _ hx, List.rdropWhile_concat_pos _ _ _ hx]
      refine ih fun hall => hm fun y hy => ?_
      rcases List.mem_append.mp hy with hy | hy
      · exact hall y hy
      · rw [List.mem_singleton.mp hy]
        exact hx
    · rw [List.rdropWhile_concat_neg _ _ _ hx, List.rdropWhile_concat_neg _ _ _ hx,
        List.append_assoc]

end Lists

variable (body : List Char)

/-! ## The first line, as Linux reads it -/

def linuxScriptLine : Option ScriptLine :=
  let line := (body.takeWhile (· ≠ '\n')).dropWhile isBlank
  let interpreter := line.takeWhile (!isBlank ·)
  let argument := ((line.dropWhile (!isBlank ·)).dropWhile isBlank).rdropWhile isBlank
  if interpreter = [] then none else some ⟨interpreter, argument⟩

/-- A first line both read alike. It has nothing in it; or the interpreter comes
at once, is not cut off and does not end in a carriage return, and either there
is nothing behind it or what is looked at of the line ends where the argument
does. -/
def PlainLine : Prop :=
  let line := body.takeWhile (· ≠ '\n')
  let word := line.takeWhile (!isBlank ·)
  (∀ c ∈ line, isBlank c) ∨
  (word ≠ [] ∧ word.length ≤ 253 ∧ word.getLast? ≠ some '\r' ∧
    ((∀ c ∈ line.dropWhile (!isBlank ·), isBlank c) ∨ line.take 253 = line.rdropWhile isBlank))

theorem scriptLine_cons : scriptLine ('#' :: '!' :: body) =
      let line := (body.takeWhile (· ≠ '\n')).take 253
      let interpreter := (line.takeWhile (!isBlank ·)).rdropWhile fun c => c = '\r' || c = ' '
      if interpreter = [] then none
      else some ⟨interpreter, (line.dropWhile (!isBlank ·)).dropWhile isBlank⟩ := by
  cases body with
  | nil => rfl
  | cons c body =>
    have hlong : ('#' :: '!' :: (c :: body).take 253).length > 2 := by simp
    have htake : ('#' :: '!' :: c :: body).take kFirstLine =
        '#' :: '!' :: (c :: body).take 253 := rfl
    rw [scriptLine]
    rw [htake, if_pos ⟨hlong, rfl, rfl⟩]
    simp only [List.drop_succ_cons, List.drop_zero, takeWhile_take]

section Word

variable {line : List Char}

theorem word_head (hword : line.takeWhile (!isBlank ·) ≠ []) : line.dropWhile isBlank = line := by
  cases line with
  | nil => rfl
  | cons c _ =>
    cases hc : isBlank c with
    | false => simp [hc]
    | true => exact absurd (by simp [hc]) hword

theorem not_blank_of_mem_word {c : Char} (hc : c ∈ line.takeWhile (!isBlank ·)) :
    isBlank c = false := by
  simpa using List.mem_takeWhile_imp hc

theorem word_kept_iff (hword : line.takeWhile (!isBlank ·) ≠ []) :
    (((line.take 253).takeWhile (!isBlank ·)).rdropWhile fun c => c = '\r' || c = ' ') =
        line.takeWhile (!isBlank ·) ↔ (line.takeWhile (!isBlank ·)).length ≤ 253 ∧
        (line.takeWhile (!isBlank ·)).getLast? ≠ some '\r' := by
  rw [takeWhile_take]
  have hblank : ∀ c ∈ line.takeWhile (!isBlank ·), c ≠ ' ' := fun c hc hspace => by
    have := not_blank_of_mem_word hc
    rw [hspace] at this
    exact nomatch this
  generalize line.takeWhile (!isBlank ·) = word at hword hblank ⊢
  rcases Nat.lt_or_ge 253 word.length with hlong | hshort
  · refine iff_of_false (fun heq => ?_) fun h => absurd h.1 (by omega)
    have hle :=
      (List.rdropWhile_prefix (fun c => c = '\r' || c = ' ') (l := word.take 253)).length_le
    rw [heq, List.length_take] at hle
    omega
  · rw [List.take_of_length_le hshort, List.rdropWhile_eq_self_iff]
    refine ⟨fun h => ⟨hshort, fun hlast => ?_⟩, fun h hne hlast => ?_⟩
    · refine h hword ?_
      rw [List.getLast?_eq_some_getLast hword, Option.some.injEq] at hlast
      simp [hlast]
    · rw [Bool.or_eq_true, decide_eq_true_iff, decide_eq_true_iff] at hlast
      rcases hlast with hcr | hspace
      · exact h.2 (by rw [List.getLast?_eq_some_getLast hne, hcr])
      · exact hblank _ (List.getLast_mem hne) hspace

theorem argument_kept_iff (line : List Char) :
    ((line.take 253).dropWhile (!isBlank ·)).dropWhile isBlank =
        ((line.dropWhile (!isBlank ·)).dropWhile isBlank).rdropWhile isBlank ↔
      (∀ c ∈ line.dropWhile (!isBlank ·), isBlank c) ∨ line.take 253 = line.rdropWhile isBlank := by
  rw [dropWhile_take, dropWhile_take]
  have hline : line.takeWhile (!isBlank ·) ++ (line.dropWhile (!isBlank ·)).takeWhile isBlank ++
      (line.dropWhile (!isBlank ·)).dropWhile isBlank = line := by
    rw [List.append_assoc, List.takeWhile_append_dropWhile, List.takeWhile_append_dropWhile]
  have hempty : (line.dropWhile (!isBlank ·)).dropWhile isBlank = [] ↔
      ∀ c ∈ line.dropWhile (!isBlank ·), isBlank c := List.dropWhile_eq_nil_iff
  have hnone : (line.dropWhile (!isBlank ·)).dropWhile isBlank ≠ [] →
      ¬ ∀ c ∈ (line.dropWhile (!isBlank ·)).dropWhile isBlank, isBlank c := by
    intro hne hall
    have hhead := List.head_dropWhile_not isBlank hne
    rw [hall _ (List.head_mem hne)] at hhead
    exact nomatch hhead
  generalize (line.dropWhile (!isBlank ·)).takeWhile isBlank = gap at hline ⊢
  generalize (line.dropWhile (!isBlank ·)).dropWhile isBlank = argument at hline hempty hnone ⊢
  generalize line.takeWhile (!isBlank ·) = word at hline ⊢
  by_cases hne : argument = []
  · rw [hne] at hempty ⊢
    simp only [List.take_nil, List.rdropWhile_nil, true_iff]
    exact .inl (hempty.mp rfl)
  · have htrim := rdropWhile_append (l := word ++ gap) (hnone hne)
    have hleft : argument.rdropWhile isBlank ≠ [] := fun h =>
      hnone hne (List.rdropWhile_eq_nil_iff.mp h)
    rw [or_iff_right fun hall => hne (hempty.mpr hall), ← hline, htrim, List.take_append,
      List.length_append]
    rcases Nat.lt_or_ge 253 (word.length + gap.length) with hlong | hfits
    · rw [show 253 - word.length - gap.length = 0 by omega,
        show 253 - (word.length + gap.length) = 0 by omega, List.take_zero, List.append_nil]
      refine iff_of_false (fun h => hleft h.symm) fun h => ?_
      have hlen := congrArg List.length h
      simp only [List.length_take, List.length_append] at hlen
      omega
    · have hwhole : (word ++ gap).take 253 = word ++ gap :=
        List.take_of_length_le (by rw [List.length_append]; exact hfits)
      rw [hwhole, List.append_right_inj, Nat.sub_sub]

end Word

theorem scriptLine_eq_linux_iff (body : List Char) :
    scriptLine ('#' :: '!' :: body) = linuxScriptLine body ↔ PlainLine body := by
  rw [scriptLine_cons]
  unfold linuxScriptLine PlainLine
  dsimp only
  generalize body.takeWhile (· ≠ '\n') = line
  by_cases hall : ∀ c ∈ line, isBlank c
  · have hline : line.dropWhile isBlank = [] := List.dropWhile_eq_nil_iff.mpr hall
    have hword : line.takeWhile (!isBlank ·) = [] := by
      rw [List.takeWhile_eq_nil_iff]
      intro hl
      simp [hall _ (List.getElem_mem hl)]
    rw [takeWhile_take, hword, hline]
    exact iff_of_true (by simp) (.inl hall)
  · rw [or_iff_right hall]
    by_cases hword : line.takeWhile (!isBlank ·) = []
    · -- The line begins with a blank: the scan sees no interpreter.
      rw [takeWhile_take, hword]
      have hne : line.dropWhile isBlank ≠ [] := fun h => hall (List.dropWhile_eq_nil_iff.mp h)
      have hname : (line.dropWhile isBlank).takeWhile (!isBlank ·) ≠ [] := by
        intro h
        rw [List.takeWhile_eq_nil_iff] at h
        have hpos := List.length_pos_of_ne_nil hne
        have hhead := List.head_dropWhile_not isBlank hne
        refine h hpos ?_
        rw [List.get_eq_getElem, ← List.head_eq_getElem hne, hhead]
        rfl
      simp [hname]
    · rw [word_head hword]
      have hiff := word_kept_iff hword
      rw [if_neg hword]
      by_cases hkept : (((line.take 253).takeWhile (!isBlank ·)).rdropWhile
          fun c => c = '\r' || c = ' ') = line.takeWhile (!isBlank ·)
      · obtain ⟨hshort, hlast⟩ := hiff.mp hkept
        rw [hkept, if_neg hword, Option.some.injEq, mk.injEq]
        simp only [true_and]
        rw [argument_kept_iff]
        exact ⟨fun h => ⟨hword, hshort, hlast, h⟩, fun h => h.2.2.2⟩
      · refine iff_of_false (fun h => ?_) fun h => hkept (hiff.mpr ⟨h.2.1, h.2.2.1⟩)
        split at h
        · exact nomatch h
        · exact hkept (congrArg interpreter (Option.some.inj h))

/-- The interpreter and the arguments a first line stands for. -/
def ScriptLine.run (line : ScriptLine) (path : List Char) (argv : List (List Char)) :
    List Char × List (List Char) :=
  (line.interpreter, line.vector path argv.tail)

theorem ScriptLine.run_injective {path : List Char} {argv : List (List Char)}
    {line line' : ScriptLine} (h : line.run path argv = line'.run path argv) : line = line' := by
  obtain ⟨_, argument⟩ := line
  obtain ⟨_, argument'⟩ := line'
  simp only [run, vector, Prod.mk.injEq] at h
  obtain ⟨rfl, h⟩ := h
  have hlen := congrArg List.length h
  by_cases ha : argument = []
  · by_cases ha' : argument' = []
    · rw [ha, ha']
    · simp [ha, ha'] at hlen
  · by_cases ha' : argument' = []
    · simp [ha, ha'] at hlen
    · simp only [ha, ha', if_false, List.cons_append, List.cons.injEq] at h
      rw [h.2.1]

/-- The interpreter and the arguments a script is run with are those of Linux's
rule exactly for the plain first lines. -/
theorem script_run_eq_linux_iff (body path : List Char) (argv : List (List Char)) :
    (scriptLine ('#' :: '!' :: body)).map (·.run path argv) =
        (linuxScriptLine body).map (·.run path argv) ↔ PlainLine body := by
  rw [← scriptLine_eq_linux_iff]
  exact ⟨fun h => Option.map_injective (fun _ _ => run_injective) h, fun h => by rw [h]⟩

theorem script_blank_first :
    (scriptLine "#! /bin/sh\n".toList).map (·.run "/s".toList ["s".toList]) = none ∧
    (linuxScriptLine " /bin/sh\n".toList).map (·.run "/s".toList ["s".toList]) =
      some ("/bin/sh".toList, ["/bin/sh".toList, "/s".toList]) := by
  decide

/-! ## From script to script -/

section Chain

variable (k : HostContents) (root : List Char) (caller : ExecCaller)

def requested (path : List Char) : List Char :=
  resolveGuestPathOnHost k.files root (caller.binary path) true

def interpreterOf (path : List Char) : Option (List Char) :=
  ((k.read (requested k root caller path)).bind scriptLine).map (·.interpreter)

def interpreters (path : List Char) : Nat → Option (List Char)
  | 0 => some path
  | n + 1 => (interpreters path n).bind (interpreterOf k root caller)

def ExecRequest.arguments (r : ExecRequest) : List (List Char) :=
  if r.argv = [] then [caller.binary r.path] else r.argv

def requestAfter : Nat → ExecRequest → Option ExecRequest
  | 0, r => some r
  | n + 1, r =>
    match execStep k root caller r with
    | .script next => requestAfter n next
    | _ => none

variable {k root caller} {path : List Char} {r : ExecRequest}

theorem execStep_cases (k : HostContents) (root : List Char) (caller : ExecCaller)
    (r : ExecRequest) :
    (k.read (requested k root caller r.path) = none ∧ execStep k root caller r = .missing) ∨
    ∃ bytes, k.read (requested k root caller r.path) = some bytes ∧
    ((scriptLine bytes = none ∧ execStep k root caller r =
        .program (requested k root caller r.path) (caller.binary r.path) (r.arguments caller)) ∨
      ∃ line, scriptLine bytes = some line ∧ execStep k root caller r =
        .script ⟨line.interpreter, line.vector (caller.binary r.path)
          (r.arguments caller).tail⟩) := by
  unfold requested
  cases hread : k.read (resolveGuestPathOnHost k.files root (caller.binary r.path) true) with
  | none => exact .inl ⟨rfl, by simp [execStep, hread]⟩
  | some bytes =>
    refine .inr ⟨bytes, rfl, ?_⟩
    cases hline : scriptLine bytes with
    | none => exact .inl ⟨rfl, by simp [execStep, hread, hline, ExecRequest.arguments]⟩
    | some line => exact .inr ⟨line, rfl, by simp [execStep, hread, hline, ExecRequest.arguments]⟩

theorem execResolve_eq (hops : Nat) (r : ExecRequest) : execResolve k root caller hops r =
      match execStep k root caller r with
      | .missing => some .missing
      | .program hostPath path argv => some (.program hostPath path argv)
      | .script next =>
        match hops with
        | 0 => none
        | hops + 1 => execResolve k root caller hops next :=
  execResolve.eq_def k root caller hops r

theorem execStep_goes_on (k : HostContents) (root : List Char) (caller : ExecCaller)
    (r : ExecRequest) : (∃ next, execStep k root caller r = .script next ∧
        interpreterOf k root caller r.path = some next.path) ∨
      (interpreterOf k root caller r.path = none ∧
        ∃ e, ∀ hops, execResolve k root caller hops r = some e) := by
  rcases execStep_cases k root caller r with ⟨hread, hstep⟩ |
    ⟨_, hread, ⟨hline, hstep⟩ | ⟨_, hline, hstep⟩⟩
  · exact .inr ⟨by simp [interpreterOf, hread], _, fun _ => by rw [execResolve_eq, hstep]⟩
  · exact .inr ⟨by simp [interpreterOf, hread, hline], _, fun _ => by rw [execResolve_eq, hstep]⟩
  · exact .inl ⟨_, hstep, by simp [interpreterOf, hread, hline]⟩

theorem interpreters_succ (path : List Char) (n : Nat) : interpreters k root caller path (n + 1) =
      (interpreterOf k root caller path).bind fun q => interpreters k root caller q n := by
  induction n with
  | zero => simp [interpreters]
  | succ n ih =>
    rw [interpreters, ih]
    cases interpreterOf k root caller path with
    | none => rfl
    | some q => rfl

theorem interpreters_add (path : List Char) (m n : Nat) : interpreters k root caller path (m + n) =
      (interpreters k root caller path m).bind fun q => interpreters k root caller q n := by
  induction n with
  | zero => simp [interpreters]
  | succ n ih =>
    rw [← Nat.add_assoc, interpreters, ih, Option.bind_assoc]
    rfl

theorem execResolve_isSome_iff (hops : Nat) (r : ExecRequest) :
    (execResolve k root caller hops r).isSome ↔
    interpreters k root caller r.path (hops + 1) = none := by
  induction hops generalizing r with
  | zero =>
    rcases execStep_goes_on k root caller r with ⟨_, hstep, hname⟩ | ⟨hname, e, hend⟩
    · simp [execResolve_eq, hstep, interpreters, hname]
    · simp [hend, interpreters, hname]
  | succ hops ih =>
    rw [interpreters_succ]
    rcases execStep_goes_on k root caller r with ⟨_, hstep, hname⟩ | ⟨hname, e, hend⟩
    · simp [execResolve_eq (hops + 1), hstep, hname, ih]
    · simp [hend, hname]

theorem execStep_vector {next : ExecRequest} (h : execStep k root caller r = .script next) :
    1 ≤ next.argv.length ∧ next.argv.length ≤ max 1 r.argv.length + 2 := by
  rcases execStep_cases k root caller r with ⟨_, hstep⟩ | ⟨_, _, ⟨_, hstep⟩ | ⟨line, _, hstep⟩⟩
  · exact nomatch hstep.symm.trans h
  · exact nomatch hstep.symm.trans h
  · cases hstep.symm.trans h
    have hrest : (r.arguments caller).length ≤ max 1 r.argv.length := by
      unfold ExecRequest.arguments
      split
      · exact Nat.le_max_left 1 _
      · exact Nat.le_max_right 1 _
    have hargument : (if line.argument = [] then [] else [line.argument]).length ≤ 1 := by
      split
      · simp
      · simp
    simp only [vector, List.length_append, List.length_cons, List.length_tail]
    omega

theorem requestAfter_vector {n : Nat} {r r' : ExecRequest}
    (h : requestAfter k root caller n r = some r') :
    r'.argv.length ≤ max 1 r.argv.length + 2 * n := by
  induction n generalizing r with
  | zero =>
    cases h
    omega
  | succ n ih =>
    rw [requestAfter] at h
    split at h
    next next hstep =>
      have hlen := execStep_vector hstep
      have := ih h
      omega
    · exact nomatch h

/-! ## A way that ends -/

def NeverReturns (k : HostContents) (root : List Char) (caller : ExecCaller)
    (path : List Char) : Prop :=
  ∀ i j q, i < j → interpreters k root caller path i = some q →
  interpreters k root caller path j ≠ some q

theorem interpreters_return {i d : Nat} {q : List Char}
    (hi : interpreters k root caller path i = some q)
    (hj : interpreters k root caller path (i + d) = some q) (n : Nat) :
    interpreters k root caller path (i + d * n) = some q := by
  rw [interpreters_add, hi, Option.bind_some] at hj
  induction n with
  | zero => exact hi
  | succ n ih => rw [Nat.mul_succ, ← Nat.add_assoc, interpreters_add, ih, Option.bind_some, hj]

theorem interpreters_mono {i j : Nat} (hle : i ≤ j)
    (hi : interpreters k root caller path i = none) : interpreters k root caller path j = none := by
  obtain ⟨d, rfl⟩ := Nat.exists_eq_add_of_le hle
  rw [interpreters_add, hi, Option.bind_none]

theorem interpreterOf_place {q : List Char} (h : interpreterOf k root caller path = some q) :
    ∃ place, (place, Entry.file) ∈ k.files.tree.entries ∧
    ((k.contents place).bind scriptLine).map (·.interpreter) = some q := by
  unfold interpreterOf at h
  cases hread : k.read (requested k root caller path) with
  | none => simp [hread] at h
  | some _ =>
    simp only [hread, Option.bind_some] at h
    unfold HostContents.read at hread
    split at hread
    next place hat =>
      have hfind : some Entry.file = k.files.tree.find place := by
        unfold HostFiles.namei at hat
        split at hat
        · cases hat
        · exact walk_entry hat
      exact ⟨place, Tree.find_file hfind.symm, by simp [hread, h]⟩
    · cases hread
      exact nomatch h
    · cases hread

theorem NeverReturns.ends (h : NeverReturns k root caller path) :
    interpreters k root caller path (k.files.tree.entries.length + 1) = none := by
  generalize hfiles : k.files.tree.entries = files
  by_contra hlong
  have hplace : ∀ i ≤ files.length, ∃ place, (place, Entry.file) ∈ files ∧
      ((k.contents place).bind scriptLine).map (·.interpreter) =
        interpreters k root caller path (i + 1) := by
    intro i hi
    obtain ⟨_, hnext⟩ := Option.ne_none_iff_exists'.mp fun hnone =>
      hlong (interpreters_mono (Nat.succ_le_succ hi) hnone)
    rw [interpreters] at hnext
    obtain ⟨q, _, hq⟩ := Option.bind_eq_some_iff.mp hnext
    rw [interpreters, hnext, ← hfiles]
    exact interpreterOf_place hq
  choose! place hmem hname using hplace
  -- One more script than there are files: two of them are one file.
  obtain ⟨i, hi, j, hj, hne, heq⟩ := Finset.exists_ne_map_eq_of_card_lt_of_maps_to (f := place) (by
      have hcard := (files.map Prod.fst).toFinset_card_le
      rw [List.length_map] at hcard
      rw [Finset.card_range]
      exact Nat.lt_succ_of_le hcard)
    (fun i hi => by
      rw [Finset.mem_coe, List.mem_toFinset]
      exact List.mem_map_of_mem (hmem i (Nat.le_of_lt_succ (List.mem_range.mp hi))))
  rw [Finset.mem_range] at hi hj
  have hsame : interpreters k root caller path (i + 1) =
      interpreters k root caller path (j + 1) := by
    rw [← hname i (by omega), ← hname j (by omega), heq]
  obtain ⟨q, hq⟩ := Option.ne_none_iff_exists'.mp fun hnone =>
    hlong (interpreters_mono (show i + 1 ≤ files.length + 1 by omega) hnone)
  rcases Nat.lt_or_gt_of_ne hne with hlt | hlt
  · exact h (i + 1) (j + 1) q (by omega) hq (hsame ▸ hq)
  · exact h (j + 1) (i + 1) q (by omega) (hsame ▸ hq) hq

/-- The calls end within a number of them exactly if that many scripts lead to
something else; they end at all exactly if no path comes up twice; and none adds
more than two arguments. -/
theorem execResolve_bounded_iff (k : HostContents) (root : List Char) (caller : ExecCaller)
    (r : ExecRequest) : (∀ hops, (execResolve k root caller hops r).isSome ↔
        interpreters k root caller r.path (hops + 1) = none) ∧
      ((∃ hops, (execResolve k root caller hops r).isSome) ↔ NeverReturns k root caller r.path) ∧
      ∀ hops r', requestAfter k root caller hops r = some r' →
        r'.argv.length ≤ max 1 r.argv.length + 2 * hops := by
  refine ⟨fun hops => execResolve_isSome_iff hops r, ⟨?_, fun h => ?_⟩,
    fun hops r' => requestAfter_vector⟩
  · rintro ⟨hops, hsome⟩ i j q hlt hi hj
    rw [execResolve_isSome_iff] at hsome
    obtain ⟨d, rfl⟩ := Nat.exists_eq_add_of_lt hlt
    have hback := interpreters_return (d := d + 1) hi hj (hops + 1)
    have hle : hops + 1 ≤ i + (d + 1) * (hops + 1) :=
      Nat.le_add_left_of_le (Nat.le_mul_of_pos_left _ (Nat.succ_pos d))
    rw [interpreters_mono hle hsome] at hback
    exact nomatch hback
  · exact ⟨k.files.tree.entries.length, (execResolve_isSome_iff _ r).mpr h.ends⟩

end Chain

/-- A root at `/g` with one file, `s`, which begins with `#!/s`. -/
def selfNamed : HostContents where
  files :=
    { tree :=
        { entries := [([['g']], .dir), ([['g'], ['s']], .file)]
          named := by decide
          once := by decide
          parents := by decide }
      cwd := []
      maxLinks := 32 }
  contents := fun _ => some ['#', '!', '/', 's']

theorem execStep_selfNamed (first : List Char) (rest : List (List Char)) :
    execStep selfNamed ['/', 'g'] ⟨1, []⟩ ⟨['/', 's'], first :: rest⟩ =
      .script ⟨['/', 's'], ['/', 's'] :: ['/', 's'] :: rest⟩ := by
  have hown : (ExecCaller.mk 1 []).binary ['/', 's'] = ['/', 's'] := by decide
  have hread : selfNamed.read (resolveGuestPathOnHost selfNamed.files ['/', 'g'] ['/', 's'] true) =
      some ['#', '!', '/', 's'] := by decide
  have hline : scriptLine ['#', '!', '/', 's'] = some ⟨['/', 's'], []⟩ := by decide
  simp [execStep, hown, hread, hline, vector]

theorem execResolve_selfNamed_run (hops : Nat) (first : List Char) (rest : List (List Char)) :
    execResolve selfNamed ['/', 'g'] ⟨1, []⟩ hops ⟨['/', 's'], first :: rest⟩ = none ∧
    ∃ r, requestAfter selfNamed ['/', 'g'] ⟨1, []⟩ hops ⟨['/', 's'], first :: rest⟩ = some r ∧
    r.argv.length = rest.length + 1 + hops := by
  induction hops generalizing first rest with
  | zero => exact ⟨by rw [execResolve_eq, execStep_selfNamed], _, rfl, rfl⟩
  | succ hops ih =>
    obtain ⟨hend, r, hafter, hlen⟩ := ih ['/', 's'] (['/', 's'] :: rest)
    refine ⟨by simp only [execResolve_eq (hops + 1), execStep_selfNamed, hend], r, ?_, ?_⟩
    · simp only [requestAfter, execStep_selfNamed, hafter]
    · simp only [hlen, List.length_cons]
      omega

theorem execResolve_selfNamed : execStep selfNamed ['/', 'g'] ⟨1, []⟩ ⟨['/', 's'], [['s']]⟩ =
        .script ⟨['/', 's'], [['/', 's'], ['/', 's']]⟩ ∧
      ∀ hops, execResolve selfNamed ['/', 'g'] ⟨1, []⟩ hops ⟨['/', 's'], [['s']]⟩ = none ∧
        ∃ r, requestAfter selfNamed ['/', 'g'] ⟨1, []⟩ hops ⟨['/', 's'], [['s']]⟩ = some r ∧
          r.argv.length = hops + 1 := by
  refine ⟨execStep_selfNamed ['s'] [], fun hops => ?_⟩
  obtain ⟨hend, r, hafter, hlen⟩ := execResolve_selfNamed_run hops ['s'] []
  exact ⟨hend, r, hafter, by simpa [Nat.add_comm] using hlen⟩

/-! ## One way and the other -/

section Session

variable {k : HostContents} {root path : List Char} {caller : ExecCaller}
  {argv scriptArgv : List (List Char)}

def spliced (argv scriptArgv : List (List Char)) : List (List Char) :=
  scriptArgv ++ if scriptArgv = [] then argv else argv.tail

theorem spliced_tail : (spliced argv scriptArgv).tail = scriptArgv.tail ++ argv.tail := by
  cases scriptArgv with
  | nil => rfl
  | cons _ _ => rfl

theorem vector_spliced (line : ScriptLine) : line.vector path (spliced argv scriptArgv).tail =
      spliced argv (line.vector path scriptArgv.tail) := by
  rw [spliced_tail]
  simp [spliced, vector]

theorem scriptLine_interpreter {bytes : List Char} {line : ScriptLine}
    (h : scriptLine bytes = some line) : line.interpreter ≠ [] := by
  unfold scriptLine at h
  dsimp only at h
  split at h
  · split at h
    · cases h
    next hne =>
      cases h
      exact hne
  · cases h

theorem spliced_ne_nil (hargv : argv ≠ []) : spliced argv scriptArgv ≠ [] := by
  unfold spliced
  split
  next h => simp [hargv]
  next h => simp [h]

theorem ExecCaller.binary_of_not_own (h : caller.isOwnExe path = false) :
    caller.binary path = path := by
  simp [ExecCaller.binary, h]

theorem sessionLoop_eq {hops turns calls : Nat} {q : List Char}
    (scriptArgv : List (List Char)) (hturns : hops ≤ turns)
    (hcalls : hops ≤ calls) (hne : path ≠ []) (hargv : argv ≠ [])
    (hchain : interpreters k root caller path hops = some q)
    (hown : ∀ i ≤ hops, ∀ name, interpreters k root caller path i = some name →
      caller.isOwnExe name = false)
    (hfile : ∃ bytes, k.read (requested k root caller q) = some bytes ∧ scriptLine bytes = none) :
    ∃ vector, sessionLoop k root turns (requested k root caller path) path scriptArgv =
        (requested k root caller q, vector) ∧
      execResolve k root caller calls ⟨path, spliced argv scriptArgv⟩ =
        some (.program (requested k root caller q) q (spliced argv vector)) := by
  induction hops generalizing path turns calls scriptArgv with
  | zero =>
    obtain rfl : path = q := Option.some.inj hchain
    obtain ⟨_, hread, hline⟩ := hfile
    have hbinary := ExecCaller.binary_of_not_own (hown 0 le_rfl path rfl)
    refine ⟨scriptArgv, ?_, ?_⟩
    · cases turns with
      | zero => rfl
      | succ _ => simp [sessionLoop, hread, hline]
    · rw [requested, hbinary] at hread
      rw [execResolve_eq]
      simp [execStep, hbinary, hread, hline, spliced_ne_nil hargv, requested]
  | succ hops ih =>
    have hbinary := ExecCaller.binary_of_not_own (hown 0 (Nat.zero_le _) path rfl)
    rw [interpreters_succ] at hchain
    obtain ⟨next, hnext, hrest⟩ := Option.bind_eq_some_iff.mp hchain
    have hafter : ∀ i ≤ hops, ∀ name, interpreters k root caller next i = some name →
        caller.isOwnExe name = false := fun i hi name hname => by
      refine hown (i + 1) (Nat.succ_le_succ hi) name ?_
      rw [interpreters_succ, hnext, Option.bind_some, hname]
    obtain ⟨line, hfound, rfl⟩ := Option.map_eq_some_iff.mp hnext
    obtain ⟨_, hread, hline⟩ := Option.bind_eq_some_iff.mp hfound
    obtain ⟨turns, rfl⟩ := Nat.exists_eq_add_one_of_ne_zero (show turns ≠ 0 by omega)
    obtain ⟨calls, rfl⟩ := Nat.exists_eq_add_one_of_ne_zero (show calls ≠ 0 by omega)
    obtain ⟨vector, hloop, hexec⟩ := ih (line.vector path scriptArgv.tail)
      (show hops ≤ turns by omega) (show hops ≤ calls by omega) (scriptLine_interpreter hline)
      hrest hafter
    have hnamed := ExecCaller.binary_of_not_own (hafter 0 (Nat.zero_le _) line.interpreter rfl)
    refine ⟨vector, ?_, ?_⟩
    · rw [requested, hnamed] at hloop
      simp only [sessionLoop, hne, hread, hline]
      exact hloop
    · rw [← vector_spliced] at hexec
      rw [requested, hbinary] at hread
      rw [execResolve_eq]
      simp only [execStep, hbinary, hread, hline, spliced_ne_nil hargv]
      exact hexec

theorem guestPathForHostPath_append (hroot : root ≠ []) (habs : path.head? = some '/') :
    guestPathForHostPath root (root ++ path) = path := by
  have hne : path ≠ [] := by
    rintro rfl
    exact nomatch habs
  unfold guestPathForHostPath
  rw [if_neg (by simp [hroot])]
  simp [hne, habs]

/-- A session started on a guest's path below the root runs the program, with the
arguments, that an `execve` of the path comes to, if at most four scripts lead
there. -/
theorem sessionProgram_eq_exec {hops : Nat} {q : List Char} (hroot : root ≠ [])
    (habs : path.head? = some '/') (hargv : argv ≠ []) (hhops : hops ≤ 4)
    (hchain : interpreters k root caller path hops = some q)
    (hown : ∀ i ≤ hops, ∀ name, interpreters k root caller path i = some name →
      caller.isOwnExe name = false)
    (hfile : ∃ bytes, k.read (requested k root caller q) = some bytes ∧ scriptLine bytes = none) :
    ∃ hostPath vector, sessionProgram k root (root ++ path) argv = (hostPath, vector) ∧
      ∀ calls ≥ hops, execResolve k root caller calls ⟨path, argv⟩ =
        some (.program hostPath q vector) := by
  have hne : path ≠ [] := by
    rintro rfl
    exact nomatch habs
  have hbinary := ExecCaller.binary_of_not_own (hown 0 (Nat.zero_le _) path rfl)
  have hboth := fun calls (hcalls : hops ≤ calls) =>
    sessionLoop_eq [] hhops hcalls hne hargv hchain hown hfile
  obtain ⟨vector, hloop, -⟩ := hboth hops le_rfl
  refine ⟨requested k root caller q, spliced argv vector, ?_, fun calls hcalls => ?_⟩
  · rw [requested, hbinary] at hloop
    simp only [sessionProgram, guestPathForHostPath_append hroot habs, ne_eq, hne,
      not_false_eq_true, if_true, hloop, hargv]
    rfl
  · obtain ⟨_, hloop', hexec⟩ := hboth calls hcalls
    rw [hloop] at hloop'
    cases hloop'
    exact hexec

end Session

/-- A root at `/g` with a script `s` that `/i` is to run, and `i`, which is
empty. -/
def interpreted : HostContents where
  files :=
    { tree :=
        { entries := [([['g']], .dir), ([['g'], ['s']], .file), ([['g'], ['i']], .file)]
          named := by decide
          once := by decide
          parents := by decide }
      cwd := []
      maxLinks := 32 }
  contents := fun place => some (if place = [['g'], ['s']] then "#!/i -x\n".toList else [])

theorem sessionProgram_eq_exec_interpreted :
    sessionProgram interpreted ['/', 'g'] ['/', 'g', '/', 's'] [['s'], ['1']] =
        (['/', 'g', '/', 'i'], [['/', 'i'], ['-', 'x'], ['/', 's'], ['1']]) ∧
      ∃ hostPath vector, sessionProgram interpreted ['/', 'g'] ['/', 'g', '/', 's']
          [['s'], ['1']] = (hostPath, vector) ∧
        ∀ calls ≥ 1, execResolve interpreted ['/', 'g'] ⟨1, []⟩ calls
          ⟨['/', 's'], [['s'], ['1']]⟩ = some (.program hostPath ['/', 'i'] vector) := by
  refine ⟨by decide, ?_⟩
  have hnext : interpreters interpreted ['/', 'g'] ⟨1, []⟩ ['/', 's'] 1 = some ['/', 'i'] := by
    decide
  have hown : ∀ i ≤ 1, ∀ name, interpreters interpreted ['/', 'g'] ⟨1, []⟩ ['/', 's'] i =
      some name → (ExecCaller.mk 1 []).isOwnExe name = false := by
    intro i hi name hname
    rcases Nat.le_one_iff_eq_zero_or_eq_one.mp hi with rfl | rfl
    · cases hname
      decide
    · cases hnext.symm.trans hname
      decide
  exact sessionProgram_eq_exec (by decide) rfl (by decide) (by decide) hnext hown
    ⟨[], by decide, by decide⟩

end Fathom
