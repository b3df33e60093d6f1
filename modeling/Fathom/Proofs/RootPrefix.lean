import Fathom.Proofs.Collapse
import Fathom.Runtime.HostCalls

/-!
# The root, taken off a path of the host's

Two functions turn a host path into the guest's by taking the root's letters off the
front: `GuestPathForHostPath`, and `ToGuestSocketAddress` for the name of a socket.
Letters are not components.
-/

namespace Fathom

open Lib.Namei HostFiles

/-! ## Letters and components -/

def Inside (root path : List Char) : Prop := path = root ∨ root ++ ['/'] <+: path

/-- The root's letters, and then the rest of a longer component. -/
def Beside (root path : List Char) : Prop := ∃ c rest, c ≠ '/' ∧ path = root ++ c :: rest

structure SameName (path path' : List Char) : Prop where
  absolute : absolute path = absolute path'
  components : components path = components path'

/-- What the guest is shown for a host path, if anything: something exactly for the
paths inside its root, and with the root in front it names the same. -/
structure Stands (root hostPath : List Char) (shown : Option (List Char)) : Prop where
  inside : shown.isSome = true ↔ Inside root hostPath
  names : ∀ path, shown = some path → SameName (root ++ path) hostPath

def remainder (rest : List Char) : List Char := if rest = [] then ['/'] else rest

section Letters

variable {root path : List Char} {shown : Option (List Char)}

theorem sameName_remainder (hroot : root ≠ []) (rest : List Char) :
    SameName (root ++ remainder rest) (root ++ rest) := by
  unfold remainder
  split
  next hnil =>
    rw [hnil, List.append_nil]
    refine ⟨absolute_append hroot _, ?_⟩
    rw [components_append]
    exact List.append_nil _
  · exact ⟨rfl, rfl⟩

theorem inside_iff (root rest : List Char) :
    Inside root (root ++ rest) ↔ rest = [] ∨ rest.head? = some '/' := by
  unfold Inside
  cases rest with
  | nil => simp
  | cons c _ => simp [eq_comm]

theorem stands_iff (hroot : root ≠ []) (hout : ¬ root <+: path → shown = none)
    (hin : ∀ rest, path = root ++ rest → shown.isSome = true)
    (hshown : ∀ rest, path = root ++ rest → (rest = [] ∨ rest.head? = some '/') →
      shown = some (remainder rest)) : Stands root path shown ↔ ¬ Beside root path := by
  constructor
  · intro hstands ⟨c, rest, hc, heq⟩
    have hsome := hstands.inside.mp (hin _ heq)
    rw [heq, inside_iff] at hsome
    simp [hc] at hsome
  · intro hbeside
    by_cases hpre : root <+: path
    · obtain ⟨rest, rfl⟩ := hpre
      have hrest : rest = [] ∨ rest.head? = some '/' := by
        cases rest with
        | nil => exact .inl rfl
        | cons c rest =>
          refine .inr (congrArg some ?_)
          by_contra hc
          exact hbeside ⟨c, rest, hc, rfl⟩
      have heq := hshown rest rfl hrest
      refine ⟨?_, fun name hname => ?_⟩
      · rw [inside_iff, heq]
        exact iff_of_true rfl hrest
      · rw [heq, Option.some.injEq] at hname
        rw [← hname]
        exact sameName_remainder hroot rest
    · have hnone := hout hpre
      refine ⟨?_, fun name hname => ?_⟩
      · rw [hnone]
        refine iff_of_false (by simp) ?_
        rintro (heq | hslash)
        · exact hpre (heq ▸ List.prefix_rfl)
        · exact hpre ((List.prefix_append root ['/']).trans hslash)
      · rw [hnone] at hname
        cases hname

end Letters

/-! ## The two functions -/

/-- What `GuestPathForHostPath` has to say. Nothing is the empty string. -/
def guestName (root hostPath : List Char) : Option (List Char) :=
  if guestPathForHostPath root hostPath = [] then none
  else some (guestPathForHostPath root hostPath)

/-- The name `ToGuestSocketAddress` puts in place of a host path, if it does. -/
def shownName (root : List Char) (sunPath : SunPath) : Option (List Char) :=
  match withoutRoot root sunPath.text, shownAddress root (.unix sunPath) with
  | some _, .unix shown => some shown.text
  | _, _ => none

section Functions

variable {root : List Char}

theorem guestPathForHostPath_rest (hroot : root ≠ []) (rest : List Char) :
    guestPathForHostPath root (root ++ rest) =
      if rest.head? = some '/' then rest else '/' :: rest := by
  unfold guestPathForHostPath
  rw [if_neg (by simp [hroot])]
  rw [List.drop_left]
  cases rest with
  | nil => rfl
  | cons c _ => rfl

theorem guestName_stands_iff (hroot : root ≠ []) (hostPath : List Char) :
    Stands root hostPath (guestName root hostPath) ↔ ¬ Beside root hostPath := by
  have hrest : ∀ rest, guestName root (root ++ rest) =
      some (if rest.head? = some '/' then rest else '/' :: rest) := by
    intro rest
    unfold guestName
    rw [guestPathForHostPath_rest hroot, if_neg]
    split
    next hslash =>
      rintro rfl
      cases hslash
    · exact List.cons_ne_nil _ _
  refine stands_iff hroot (fun hpre => ?_) (fun rest heq => ?_) fun rest heq hslash => ?_
  · unfold guestName guestPathForHostPath
    rw [if_pos (Or.inr hpre), if_pos rfl]
  · rw [heq, hrest]
    rfl
  · rw [heq, hrest]
    unfold remainder
    rcases hslash with rfl | hslash
    · rfl
    · rw [if_pos hslash, if_neg]
      rintro rfl
      cases hslash

theorem cText_append {a b : List Char} (ha : nul ∉ a) : cText (a ++ b) = a ++ cText b := by
  refine List.takeWhile_append_of_pos fun c hc => ?_
  simpa using fun heq : c = nul => ha (heq ▸ hc)

theorem cText_replicate (n : Nat) : cText (List.replicate n nul) = [] := by
  cases n with
  | zero => rfl
  | succ n => rfl

theorem nul_not_mem_cText (bytes : List Char) : nul ∉ cText bytes := by
  intro hmem
  have := List.mem_takeWhile_imp hmem
  simp at this

theorem text_holding {path : List Char} (hnul : nul ∉ path) (hlen : path.length ≤ kSunPath) :
    (SunPath.holding path).text = path := by
  change cText ((path ++ List.replicate kSunPath nul).take kSunPath) = path
  rw [List.take_append, List.take_of_length_le hlen, cText_append hnul, List.take_replicate,
    cText_replicate, List.append_nil]

theorem SunPath.length_text_le (p : SunPath) : p.text.length ≤ kSunPath := by
  have hle := (List.takeWhile_prefix (l := p.1) fun c => decide (c ≠ nul)).length_le
  rw [p.2] at hle
  exact hle

theorem shownName_eq (root : List Char) (sunPath : SunPath) :
    shownName root sunPath = (withoutRoot root sunPath.text).map fun path =>
      (SunPath.holding (path.take (kSunPath - 1))).text := by
  simp only [shownName, shownAddress]
  cases withoutRoot root sunPath.text with
  | none => rfl
  | some _ => rfl

theorem shownName_stands_iff (hroot : root ≠ []) (sunPath : SunPath) :
    Stands root sunPath.text (shownName root sunPath) ↔ ¬ Beside root sunPath.text := by
  have hwithout : ∀ rest, sunPath.text = root ++ rest → withoutRoot root sunPath.text =
      some (if rest.head? = some '/' then rest else '/' :: rest) := by
    intro rest heq
    unfold withoutRoot
    rw [heq, if_pos ⟨hroot, List.prefix_append root rest⟩, List.drop_left]
  refine stands_iff hroot (fun hpre => ?_) (fun rest heq => ?_) fun rest heq hslash => ?_
  · rw [shownName_eq, withoutRoot, if_neg fun h => hpre h.2]
    rfl
  · rw [shownName_eq, hwithout rest heq]
    rfl
  · -- Nothing is cut off, since the root was one letter at least.
    have hlen := sunPath.length_text_le
    have hpos := List.length_pos_of_ne_nil hroot
    rw [heq, List.length_append] at hlen
    have hname : (if rest.head? = some '/' then rest else '/' :: rest) = remainder rest := by
      unfold remainder
      rcases hslash with rfl | hslash
      · rfl
      · rw [if_pos hslash, if_neg]
        rintro rfl
        cases hslash
    have hfits : (remainder rest).length ≤ kSunPath - 1 := by
      unfold remainder
      split
      · decide
      · omega
    have hnul : nul ∉ remainder rest := by
      intro hmem
      have htext := nul_not_mem_cText sunPath.1
      rw [show cText sunPath.1 = root ++ rest from heq] at htext
      unfold remainder at hmem
      split at hmem
      · exact absurd hmem (by decide)
      · exact htext (List.mem_append_right _ hmem)
    rw [shownName_eq, hwithout rest heq, hname, Option.map_some, List.take_of_length_le hfits,
      text_holding hnul (hfits.trans (by decide))]

end Functions

/-! ## Resolving again -/

namespace HostFiles

variable {k : HostFiles} {root : List Char}

def kept (k : HostFiles) (root : List Char) (resolved : List Name) : List Name → Nat
  | [] => 0
  | part :: rest =>
    (if (k.readlink (join root (resolved ++ [part]))).isSome then 1 else 0) +
      kept k root (resolved ++ [part]) rest

theorem kept_append (resolved first rest : List Name) : kept k root resolved (first ++ rest) =
      kept k root resolved first + kept k root (resolved ++ first) rest := by
  induction first generalizing resolved with
  | nil => simp [kept]
  | cons _ _ ih =>
    rw [List.cons_append, kept, kept, ih, List.append_assoc, Nat.add_assoc]
    rfl

theorem kept_dropLast_le (k : HostFiles) (root : List Char) (parts : List Name) :
    kept k root [] parts.dropLast ≤ kept k root [] parts := by
  rcases List.eq_nil_or_concat' parts with rfl | ⟨_, _, rfl⟩
  · exact le_rfl
  · rw [List.dropLast_concat, kept_append]
    exact Nat.le_add_right _ _

theorem readlink_eq_none {path : List Char}
    (h : ∀ target, k.lstat path ≠ some (.link target)) : k.readlink path = none := by
  unfold readlink
  split
  next target htarget => exact absurd htarget (h target)
  · rfl

theorem resolveLoop_settled (rest more : List Name) :
    ∀ (resolved : List Name) {hops : Nat}, (∀ c ∈ rest, IsName c) →
    k.Settled root (resolved ++ rest) → kept k root resolved rest ≤ hops →
    resolveLoop k root true hops resolved (rest ++ more) =
      resolveLoop k root true (hops - kept k root resolved rest) (resolved ++ rest) more := by
  induction rest with
  | nil =>
    intro resolved hops _ _ _
    rw [List.append_nil]
    rfl
  | cons part rest ih =>
    intro resolved hops hnames hs hhops
    have hpart := hnames part List.mem_cons_self
    have hassoc : resolved ++ part :: rest = (resolved ++ [part]) ++ rest := by simp
    have hidle := hs (resolved ++ [part]) (by simp) (hassoc ▸ List.prefix_append _ _)
    rw [kept] at hhops ⊢
    rw [hassoc] at hs ⊢
    have hrest := fun c hc => hnames c (List.mem_cons_of_mem _ hc)
    by_cases hlink : ∃ target, k.lstat (join root (resolved ++ [part])) = some (.link target)
    · obtain ⟨target, hentry⟩ := hlink
      obtain rfl := hidle target hentry
      rw [readlink_of_lstat hentry, if_pos Option.isSome_some] at hhops ⊢
      obtain ⟨hops, rfl⟩ : ∃ left, hops = left + 1 := ⟨hops - 1, by omega⟩
      rw [List.cons_append, loop_idle hpart (.inl rfl) hentry, ih _ hrest hs (by omega)]
      congr 1
      omega
    · have hplain := fun target htarget => hlink ⟨target, htarget⟩
      rw [readlink_eq_none hplain, if_neg (by simp), Nat.zero_add] at hhops ⊢
      rw [List.cons_append, loop_plain hpart (.inl rfl) hplain, ih _ hrest hs hhops]

/-- A walk has paid for the links that it leaves in its place. -/
theorem Walks.kept_le {followFinal : Bool} {n : Nat} {dir rest place : List Name} {stopped : Bool}
    (h : Walks k root followFinal n dir rest place stopped) :
    kept k root [] place.dropLast ≤ kept k root [] dir + n ∧ (stopped = false →
      followFinal = true → kept k root [] place ≤ kept k root [] dir + n) := by
  induction h with
  | ends => exact ⟨kept_dropLast_le k root _, fun _ _ => le_rfl⟩
  | last _ hfinal =>
    rw [List.dropLast_concat]
    exact ⟨le_rfl, fun _ h => absurd (hfinal.symm.trans h) (by simp)⟩
  | stops _ _ _ =>
    rw [List.dropLast_concat]
    exact ⟨le_rfl, nofun⟩
  | dot _ ih => exact ih
  | @dotdot n dir _ _ _ _ ih =>
    have hdrop := kept_dropLast_le k root dir
    exact ⟨by omega, fun h h' => (ih.2 h h').trans (by omega)⟩
  | plain _ _ hentry _ ih =>
    rw [kept_append, kept, List.nil_append, readlink_eq_none hentry] at ih
    exact ih
  | idle _ _ hentry _ ih =>
    rw [kept_append, kept, List.nil_append, readlink_of_lstat hentry] at ih
    simp only [Option.isSome_some, if_true, kept] at ih
    exact ⟨by omega, fun h h' => (ih.2 h h').trans (by omega)⟩
  | @link n dir _ _ target _ _ _ _ _ _ _ ih =>
    have hback : kept k root [] (if absolute target then [] else dir) ≤ kept k root [] dir := by
      split
      · exact Nat.zero_le _
      · exact le_rfl
    exact ⟨by omega, fun h h' => (ih.2 h h').trans (by omega)⟩

theorem split_guestPath (hroot : root ≠ []) {parts : List Name} (h : ∀ c ∈ parts, IsName c) :
    split (guestPathForHostPath root (join root parts)) = parts := by
  rw [split_eq_components]
  cases parts with
  | nil =>
    have hself := guestPathForHostPath_rest hroot []
    rw [List.append_nil] at hself
    rw [show join root [] = root from rfl, hself]
    rfl
  | cons part rest =>
    obtain ⟨text, htext⟩ := join_prefix ('/' :: part) rest
    have hjoin : join [] (part :: rest) = '/' :: (part ++ text) := htext
    rw [join_eq_append, guestPathForHostPath_rest hroot, hjoin, if_pos List.head?_cons, ← hjoin,
      components_join [] h]
    rfl

/-- A path whose walk ends within forty links leads back to itself, and one with a
forty-first to follow where that link has no target, or where the walk of its own name has
it for a forty-first again. -/
theorem resolve_again_iff (hroot : root ≠ []) (path : List Char) : resolveGuestPathOnHost k root
        (guestPathForHostPath root (resolveGuestPathOnHost k root path true)) true =
      resolveGuestPathOnHost k root path true ↔
    ∃ place stopped, Comes k root path true place stopped ∧ (stopped = true →
      k.readlink (join root place) = some [] ∨ Walks k root true 40 [] place place true) := by
  obtain ⟨place, stopped, hcomes⟩ := exists_comes k root path true
  have hlands := hcomes.lands
  have hout := comes_iff.mp hcomes
  obtain ⟨n, hn, -, hwalks⟩ := id hcomes
  obtain ⟨hbefore, hafter⟩ := hwalks.kept_le
  -- The second walk is the one of the place the first has got to.
  have hagain : resolveParts k root (guestPathForHostPath root (join root place)) true =
      resolveLoop k root true 40 [] place := by
    rw [resolveParts, split_guestPath hroot hlands.names]
    rfl
  rw [resolveGuestPathOnHost_eq hroot path, hout.1, resolveGuestPathOnHost_eq hroot, hagain]
  cases stopped with
  | false =>
    have hpaid : kept k root [] place ≤ 40 := by
      have hle := hafter rfl rfl
      rw [kept] at hle
      omega
    have hrun := resolveLoop_settled place [] [] hlands.names (hlands.done rfl rfl) hpaid
    rw [List.append_nil, loop_nil] at hrun
    rw [hrun]
    exact iff_of_true rfl ⟨place, false, hcomes, nofun⟩
  | true =>
    obtain ⟨hne, target, hentry⟩ := hlands.stopped rfl
    obtain ⟨first, part, rfl⟩ := (List.eq_nil_or_concat' place).resolve_left hne
    have hpart := hlands.names part (by simp)
    have hfirst := fun c hc => hlands.names c (List.mem_append_left _ hc)
    have hsettled := hlands.before
    rw [List.dropLast_concat, kept] at hbefore
    rw [List.dropLast_concat] at hsettled
    by_cases htarget : target = []
    · subst htarget
      refine iff_of_true (congrArg (join root) ?_)
        ⟨_, true, hcomes, fun _ => .inl (readlink_of_lstat hentry)⟩
      rw [resolveLoop_settled first [part] [] hfirst hsettled (by omega), List.nil_append]
      -- One link more, if there is a hop left for it; it stays in the path either way.
      cases 40 - kept k root [] first with
      | zero => rw [loop_stop hpart (.inl rfl) hentry]
      | succ _ => rw [loop_idle hpart (.inl rfl) hentry, loop_nil]
    · have hparts : ∀ c ∈ first ++ [part], IsPart c := fun c hc =>
        ⟨(hlands.names c hc).nonempty, (hlands.names c hc).slash⟩
      constructor
      · intro heq
        obtain ⟨m, _, stopped', hm, hstop', hwalks'⟩ :=
          exists_walks k root true 40 (first ++ [part]) hparts []
        have hlands' := hwalks'.lands (fun _ hc => nomatch hc) settled_nil
        have hplace := (hwalks'.resolveLoop hm hstop').1
        obtain rfl := join_inj hlands'.names hlands.names
          ((congrArg (join root) hplace).symm.trans heq)
        refine ⟨_, true, hcomes, fun _ => .inr ?_⟩
        cases stopped' with
        | true => exact hstop' rfl ▸ hwalks'
        | false =>
          have hidle := hlands'.done rfl rfl _ hne List.prefix_rfl target hentry
          exact absurd hidle htarget
      · rintro ⟨_, _, hcomes', h⟩
        obtain ⟨hplace, hexit⟩ := comes_iff.mp hcomes'
        obtain rfl := hplace.symm.trans hout.1
        rcases h (hexit.mp (hout.2.mpr rfl)) with hempty | hwalk
        · rw [readlink_of_lstat hentry, Option.some.injEq] at hempty
          exact absurd hempty htarget
        · rw [(hwalk.resolveLoop le_rfl fun _ => rfl).1]

end HostFiles

/-! ## The law -/

/-- The root comes off rightly on the paths that are not beside it, and on no
others; and what the resolver leaves leads back to itself wherever it did not give
up. -/
theorem root_prefix_law_iff (k : HostFiles) {root : List Char} (hroot : root ≠ [])
    (hostPath : List Char) (sunPath : SunPath) (path : List Char) :
    (Stands root hostPath (guestName root hostPath) ↔ ¬ Beside root hostPath) ∧
    (Stands root sunPath.text (shownName root sunPath) ↔ ¬ Beside root sunPath.text) ∧
    (resolveGuestPathOnHost k root
        (guestPathForHostPath root (resolveGuestPathOnHost k root path true)) true =
        resolveGuestPathOnHost k root path true ↔
      ∃ place stopped, k.Comes root path true place stopped ∧ (stopped = true →
        k.readlink (join root place) = some [] ∨ k.Walks root true 40 [] place place true)) :=
  ⟨guestName_stands_iff hroot hostPath, shownName_stands_iff hroot sunPath,
    resolve_again_iff hroot path⟩

theorem root_prefix_beside :
    guestPathForHostPath ['/', 'g'] ['/', 'g', '2', '/', 'x'] = ['/', '2', '/', 'x'] ∧
    ¬ Stands ['/', 'g'] ['/', 'g', '2', '/', 'x'] (guestName ['/', 'g'] ['/', 'g', '2', '/', 'x']) ∧
    shownName ['/', 'g'] (.holding ['/', 'g', '2', '/', 'x']) = some ['/', '2', '/', 'x'] ∧
    ¬ Stands ['/', 'g'] ['/', 'g', '2', '/', 'x']
      (shownName ['/', 'g'] (.holding ['/', 'g', '2', '/', 'x'])) ∧
    resolveGuestPathOnHost sample ['/', 'g'] longWay true =
      ['/', 'g', '/', 'e'] ∧ resolveGuestPathOnHost sample ['/', 'g']
        (guestPathForHostPath ['/', 'g'] ['/', 'g', '/', 'e']) true = ['/', 'g', '/', 'x'] := by
  have hbeside : Beside ['/', 'g'] ['/', 'g', '2', '/', 'x'] := ⟨'2', ['/', 'x'], by decide, rfl⟩
  have hguest := @guestName_stands_iff ['/', 'g'] (by decide) ['/', 'g', '2', '/', 'x']
  have hsocket := @shownName_stands_iff ['/', 'g'] (by decide) (.holding ['/', 'g', '2', '/', 'x'])
  exact ⟨by decide, fun h => hguest.mp h hbeside, by decide, fun h => hsocket.mp h hbeside,
    by decide, by decide⟩

theorem root_prefix_law_inside :
    Stands ['/', 'g'] ['/', 'g', '/', 'x'] (guestName ['/', 'g'] ['/', 'g', '/', 'x']) ∧
    Stands ['/', 'g'] ['/', 'g', '/', 'x'] (shownName ['/', 'g'] (.holding ['/', 'g', '/', 'x'])) ∧
    resolveGuestPathOnHost sample ['/', 'g'] (guestPathForHostPath ['/', 'g']
        (resolveGuestPathOnHost sample ['/', 'g'] ['d', '/', 'e'] true)) true =
      resolveGuestPathOnHost sample ['/', 'g'] ['d', '/', 'e'] true := by
  have hinside : ¬ Beside ['/', 'g'] ['/', 'g', '/', 'x'] := by
    intro ⟨c, rest, hc, heq⟩
    simp at heq
    exact hc heq.1.symm
  obtain ⟨hguest, hsocket, hagain⟩ := @root_prefix_law_iff sample ['/', 'g']
    (by decide) ['/', 'g', '/', 'x'] (.holding ['/', 'g', '/', 'x']) ['d', '/', 'e']
  refine ⟨hguest.mpr hinside, hsocket.mpr hinside, hagain.mpr ⟨[['x']], false, ?_, nofun⟩⟩
  exact comes_iff.mpr ⟨by decide, by decide⟩

end Fathom
