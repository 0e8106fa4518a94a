import Bionic.CustomRomHide

/-! Which paths `custom_rom_hide.cpp` blocks: a path given whole, a path below a descriptor, and a
name in a directory that is listed. The decision looks at the beginning of the path and at its last
component; the two others put the path together in buffers of their own sizes. -/
namespace CustomRomPaths
open Bool (and_eq_true or_eq_true)
open CustomRomHide
open List

section

def kBlockedDirnames : List Path := ["addon.d".toList, "init.d".toList, "TWRP".toList]

def kDirParents : List Path :=
  ["/system", "/system/etc", "/system_ext", "/system_ext/etc", "/product", "/product/etc",
    "/vendor", "/vendor/etc", "/odm", "/odm/etc", "/etc", "/sdcard", "/data/media/0"].map
    String.toList

def kFrameworkDirs : List Path :=
  ["/system/framework", "/system_ext/framework", "/product/framework"].map String.toList

def kOverlayDirs : List Path :=
  ["/system/overlay", "/system_ext/overlay", "/product/overlay", "/vendor/overlay",
    "/odm/overlay"].map String.toList

def kRomArtifactPrefixes : List Path :=
  ["org.lineageos.", "org.libremobileos.", "com.crdroid.", "lineage-sdk", "lineagesettings",
    "co.aospa.", "com.android.axion.", "org.lunaris.", "org.omnirom.", "org.protonaosp."].map
    String.toList

def kProcFilterKeywords : List Path :=
  ["lineage", "Lineage", "crdroid", "crDroid", "omnirom", "aospa"].map String.toList

def kConfigDirs : List Path :=
  ["/system/etc/selinux", "/system_ext/etc/selinux", "/product/etc/selinux",
    "/vendor/etc/selinux", "/odm/etc/selinux", "/system/etc/init", "/system_ext/etc/init",
    "/product/etc/init", "/vendor/etc/init", "/odm/etc/init", "/system/etc/permissions",
    "/system_ext/etc/permissions", "/product/etc/permissions", "/vendor/etc/permissions",
    "/system/etc/sysconfig", "/system_ext/etc/sysconfig", "/product/etc/sysconfig",
    "/system/etc/vintf", "/system_ext/etc/vintf", "/product/etc/vintf",
    "/vendor/etc/vintf"].map String.toList

def pathBasename (path : Path) : Path := path.rtakeWhile (· ≠ '/')

def pathParentEquals (path parent : Path) : Bool := (parent ++ ['/']).isPrefixOf path

def basenameIsRomArtifact (name : Path) : Bool :=
  kRomArtifactPrefixes.any (·.isPrefixOf name)

def nameHasRomKeyword (name : Path) : Bool :=
  kProcFilterKeywords.any fun kw => (strstr kw name).isSome

def isRomFrameworkArtifact (path : Path) : Bool :=
  match kFrameworkDirs.find? (pathParentEquals path) with
  | none => false
  | some d => basenameIsRomArtifact (pathBasename (path.drop (d.length + 1)))

def isRomOverlay (path : Path) : Bool :=
  match kOverlayDirs.find? (pathParentEquals path) with
  | none => false
  | some d =>
    let base := pathBasename (path.drop (d.length + 1))
    basenameIsRomArtifact base || nameHasRomKeyword base

def isBlockedDir (path : Path) : Bool :=
  kBlockedDirnames.contains (pathBasename path) && kDirParents.any (pathParentEquals path)

def stripSlashes : Path → Path
  | [] => []
  | c :: path => c :: path.rdropWhile (· = '/')

def cleanPath (path : Path) : Path :=
  if 1 < path.length ∧ path.getLast? = some '/' then
    stripSlashes (path.take (if 512 ≤ path.length then 511 else path.length))
  else path

def isRomPath (path : Path) : Bool :=
  path.head? = some '/' &&
    (isBlockedDir (cleanPath path) || isRomFrameworkArtifact (cleanPath path))

def customRomHideShouldBlock (isAppProcess : Bool) (path : Path) : Bool :=
  path.head? = some '/' && isAppProcess && isRomPath path

/-- `snprintf` of a directory and a name, if the buffer holds all of it. -/
def joined (dir path : Path) (size : ℕ) : Option Path :=
  if (dir ++ '/' :: path).length < size then some (dir ++ '/' :: path) else none

def atFdcwd : Fd := -100

def isCandidate (base : Path) : Bool := kBlockedDirnames.contains base || basenameIsRomArtifact base

variable (s : Process) (fs : FileSystem) (isAppProcess : Bool) (dirfd : Fd)

def customRomHideShouldBlockAt (path : Path) : Bool :=
  if !isAppProcess then false
  else if path.head? = some '/' then isRomPath path
  else if dirfd = atFdcwd then false
  else if path.getLast? = some '/' || isCandidate (pathBasename path) then
    match (resolveFdPath s fs dirfd 256).bind (joined · path 512) with
    | none => false
    | some fullPath => isRomPath fullPath
  else false

def customRomHideShouldFilterDirent (name : Path) : Bool :=
  if !isAppProcess || name == ['.'] || name == ['.', '.'] then false
  else if isCandidate name || nameHasRomKeyword name then
    match resolveFdPath s fs dirfd 384 with
    | none => false
    | some dirPath =>
      match joined dirPath name 640 with
      | none => false
      | some fullPath =>
        isRomPath fullPath || isRomOverlay fullPath ||
          (kConfigDirs.contains dirPath && nameHasRomKeyword name)
  else false

variable {a b p q r D : Path} {k : ℕ}

theorem pathBasename_append : pathBasename (a ++ '/' :: b) = pathBasename b := by
  rw [pathBasename, pathBasename, List.rtakeWhile, List.rtakeWhile, reverse_append,
    reverse_cons, append_assoc, takeWhile_append]
  split
  case isTrue ha =>
    have hs : b.reverse.takeWhile (· ≠ '/') = b.reverse :=
      ( takeWhile_prefix _).eq_of_length ha
    rw [singleton_append, takeWhile_cons_of_neg (by simp), append_nil, hs]
  case isFalse => rfl

theorem pathParentEquals_iff {parent} : pathParentEquals p parent ↔ parent ++ ['/'] <+: p :=
  isPrefixOf_iff_prefix

theorem isRomFrameworkArtifact_eq (p : Path) : isRomFrameworkArtifact p =
      (kFrameworkDirs.any (pathParentEquals p) && basenameIsRomArtifact (pathBasename p)) := by
  rw [isRomFrameworkArtifact]
  cases hf : kFrameworkDirs.find? (pathParentEquals p) with
  | none =>
    have ha : kFrameworkDirs.any (pathParentEquals p) = false :=
      List.any_eq_false.2 (List.find?_eq_none.1 hf)
    rw [ha]
    rfl
  | some d =>
    have hp := List.find?_some hf
    have ha : kFrameworkDirs.any (pathParentEquals p) :=
      List.any_eq_true.2 ⟨d, mem_of_find?_eq_some hf, hp⟩
    rw [ha, Bool.true_and]
    obtain ⟨rest, rfl⟩ := pathParentEquals_iff.1 hp
    have hd : (d ++ ['/'] ++ rest).drop (d.length + 1) = rest := by simp
    dsimp only
    rw [hd, append_assoc, singleton_append, pathBasename_append]

theorem isPrefixOf_cut (hq : q.length ≤ k) :
    q.isPrefixOf (D.take k ++ '/' :: r) = q.isPrefixOf (D ++ '/' :: r) := by
  rw [Bool.eq_iff_iff, isPrefixOf_iff_prefix, isPrefixOf_iff_prefix,
    prefix_iff_eq_take, prefix_iff_eq_take]
  by_cases hD : D.length ≤ k
  · rw [take_of_length_le hD]
  have hl : (D.take k).length = k := length_take_of_le (by omega)
  rw [take_append_of_le_length (by omega), take_append_of_le_length (by omega),
    take_take, Nat.min_eq_left hq]

theorem dirs_short : ∀ d ∈ kDirParents ++ kFrameworkDirs, (d ++ ['/']).length ≤ 255 := by
  decide

theorem any_cut {dirs : List Path} (hds : ∀ d ∈ dirs, (d ++ ['/']).length ≤ k) :
    dirs.any (pathParentEquals (D.take k ++ '/' :: r)) =
      dirs.any (pathParentEquals (D ++ '/' :: r)) := by
  rw [Bool.eq_iff_iff, any_eq_true, any_eq_true]
  simp only [pathParentEquals]
  constructor
  · rintro ⟨d, hd, h⟩
    exact ⟨d, hd, by rwa [isPrefixOf_cut (hds d hd)] at h⟩
  · rintro ⟨d, hd, h⟩
    exact ⟨d, hd, by rwa [isPrefixOf_cut (hds d hd)]⟩

def blocks (p : Path) : Bool := isBlockedDir p || isRomFrameworkArtifact p

theorem blocks_cut (hk : 255 ≤ k) : blocks (D.take k ++ '/' :: r) = blocks (D ++ '/' :: r) := by
  have hs (d : Path) (hd : d ∈ kDirParents ++ kFrameworkDirs) : (d ++ ['/']).length ≤ k :=
    le_trans (dirs_short d hd) hk
  rw [blocks, blocks, isRomFrameworkArtifact_eq, isRomFrameworkArtifact_eq, isBlockedDir,
    isBlockedDir, pathBasename_append, pathBasename_append,
    any_cut fun d hd => hs d (mem_append_left _ hd),
    any_cut fun d hd => hs d (mem_append_right _ hd)]

theorem isCandidate_of_blocks (h : blocks p) : isCandidate (pathBasename p) := by
  rw [blocks, isRomFrameworkArtifact_eq, isBlockedDir, or_eq_true, and_eq_true, and_eq_true] at h
  rw [isCandidate, or_eq_true]
  tauto

theorem rdropWhile_append (h : r.rdropWhile (· = '/') ≠ []) :
    (a ++ r).rdropWhile (· = '/') = a ++ r.rdropWhile (· = '/') := by
  rw [rdropWhile, rdropWhile, reverse_append, dropWhile_append,
    if_neg, reverse_append, reverse_reverse]
  intro hep
  refine h ?_
  rw [rdropWhile, List.isEmpty_iff.1 hep, reverse_nil]

def Relative (r : Path) : Prop := r ≠ [] ∧ r.head? ≠ some '/'

theorem Relative.bare (h : Relative r) : r.rdropWhile (· = '/') ≠ [] := by
  obtain ⟨c, r, rfl⟩ := exists_cons_of_ne_nil h.1
  intro hn
  have hc := List.rdropWhile_eq_nil_iff.1 hn c mem_cons_self
  exact h.2 (congrArg some (of_decide_eq_true hc))

theorem cleanPath_append (hD : D ≠ []) (hr : Relative r)
    (hl : r.getLast? = some '/' → (D ++ '/' :: r).length < 512) :
    cleanPath (D ++ '/' :: r) = D ++ '/' :: r.rdropWhile (· = '/') := by
  have hla : (D ++ '/' :: r).getLast? = r.getLast? := by
    obtain ⟨l, x, rfl⟩ := (eq_nil_or_concat' r).resolve_left hr.1
    have ha : D ++ '/' :: (l ++ [x]) = (D ++ '/' :: l) ++ [x] := by simp
    rw [ha, getLast?_concat, getLast?_concat]
  rw [cleanPath, hla]
  by_cases hs : r.getLast? = some '/'
  · have hst := hl hs
    have hp : 1 < (D ++ '/' :: r).length := by
      rw [length_append, length_cons]
      have := length_pos_of_ne_nil hD
      omega
    rw [if_pos ⟨hp, hs⟩, if_neg (by omega), take_length]
    obtain ⟨c, D, rfl⟩ := exists_cons_of_ne_nil hD
    have hb : ('/' :: r).rdropWhile (· = '/') = '/' :: r.rdropWhile (· = '/') :=
      rdropWhile_append (a := ['/']) hr.bare
    have hn : ('/' :: r).rdropWhile (· = '/') ≠ [] := by
      rw [hb]
      exact cons_ne_nil _ _
    rw [cons_append, stripSlashes, rdropWhile_append hn, hb]
    rfl
  · rw [if_neg fun h => hs h.2]
    obtain ⟨l, x, rfl⟩ := (eq_nil_or_concat' r).resolve_left hr.1
    rw [rdropWhile_concat_neg _ _ _ (by simpa using hs)]

end

variable {s : Process} {fs : FileSystem} {isAppProcess : Bool} {fd : Fd} {D r name : Path}

/-- The path of `r` in the directory `D`. -/
def absolute (D r : Path) : Path := if D = ['/'] then '/' :: r else D ++ '/' :: r

/-- A descriptor of the directory `D`, whose link can be read. -/
structure IsDirectory (s : Process) (fs : FileSystem) (fd : Fd) (D : Path) : Prop where
  nonneg : 0 ≤ fd
  proc : fs.proc
  file : s.files fd = some (.other D)
  rooted : D.head? = some '/'

theorem resolveFdPath_eq (h : IsDirectory s fs fd D) {size} (hsz : 2 ≤ size) :
    resolveFdPath s fs fd size = some (D.take (size - 1)) := by
  obtain ⟨D', rfl⟩ := List.head?_eq_some_iff.1 h.rooted
  have hc : ¬(fd < 0 ∨ size < 2 ∨ (!fs.proc) = true) := by
    rintro (hn | hs | hp)
    · exact absurd h.nonneg (not_le.2 hn)
    · omega
    · rw [h.proc] at hp
      cases hp
  obtain ⟨m, hm⟩ : ∃ m, size - 1 = m + 1 := ⟨size - 2, by omega⟩
  rw [resolveFdPath, if_neg hc, h.file, hm]
  rfl

/-- The path fits into the buffers: below the directory, and as a whole if it ends in a slash. -/
def Held (D r : Path) : Prop :=
  (D.take 255 ++ '/' :: r).length < 512 ∧ (r.getLast? = some '/' → (D ++ '/' :: r).length < 512)

theorem head?_append {t} (hD : D.head? = some '/') : (D ++ t).head? = some '/' := by
  rw [List.head?_append, hD]
  rfl

theorem isRomPath_append (hD : D.head? = some '/') (hr : Relative r)
    (hl : r.getLast? = some '/' → (D ++ '/' :: r).length < 512) :
    isRomPath (D ++ '/' :: r) = blocks (D ++ '/' :: r.rdropWhile (· = '/')) := by
  have hn : D ≠ [] := by
    rintro rfl
    cases hD
  rw [isRomPath, cleanPath_append hn hr hl, head?_append hD]
  rfl

theorem shouldBlockAt_eq (h : IsDirectory s fs fd D) (hr : Relative r) (hrt : D ≠ ['/'])
    (hh : Held D r) : customRomHideShouldBlockAt s fs isAppProcess fd r =
      customRomHideShouldBlock isAppProcess (absolute D r) := by
  have hct : (D.take 255).head? = some '/' := by
    rw [List.head?_take, if_neg (by decide), h.rooted]
  have hf : fd ≠ atFdcwd := by
    rintro rfl
    exact absurd h.nonneg (by decide)
  have hlenCut : r.getLast? = some '/' → (D.take 255 ++ '/' :: r).length < 512 :=
    fun _ => hh.1
  have hs : isRomPath (D.take 255 ++ '/' :: r) = isRomPath (D ++ '/' :: r) := by
    rw [isRomPath_append hct hr hlenCut, isRomPath_append h.rooted hr hh.2, blocks_cut le_rfl]
  rw [customRomHideShouldBlockAt, customRomHideShouldBlock, absolute, if_neg hrt,
    head?_append h.rooted, if_neg hr.2, if_neg hf, resolveFdPath_eq h (by decide),
    Option.bind_some, joined, if_pos hh.1]
  cases isAppProcess with
  | false => rfl
  | true =>
    simp only [Bool.not_true, Bool.false_eq_true, if_false, decide_true, Bool.true_and, hs]
    split
    · rfl
    case isFalse hn =>
      rw [or_eq_true, not_or, decide_eq_true_eq] at hn
      symm
      rw [isRomPath_append h.rooted hr hh.2, Bool.eq_false_iff]
      intro hb
      refine hn.2 ?_
      have hc := isCandidate_of_blocks hb
      rw [pathBasename_append] at hc
      obtain ⟨l, x, rfl⟩ := (eq_nil_or_concat' r).resolve_left hr.1
      rw [getLast?_concat] at hn
      rwa [rdropWhile_concat_neg _ _ _ (by simpa using hn.1)] at hc

structure EntryName (name : Path) : Prop where
  nonempty : name ≠ []
  noSlash : '/' ∉ name
  short : name.length ≤ 255

section
variable (h : EntryName name)
include h

theorem EntryName.relative : Relative name := by
  refine ⟨h.nonempty, fun hh => h.noSlash ?_⟩
  obtain ⟨rest, rfl⟩ := List.head?_eq_some_iff.1 hh
  exact mem_cons_self

theorem EntryName.getLast : name.getLast? ≠ some '/' := fun hl =>
  h.noSlash (mem_of_getLast? hl)

theorem EntryName.bare : name.rdropWhile (· = '/') = name := by
  obtain ⟨l, x, rfl⟩ := (eq_nil_or_concat' name).resolve_left h.nonempty
  have hx := h.getLast
  exact rdropWhile_concat_neg _ _ _ (by simpa using hx)

theorem EntryName.basename : pathBasename name = name := by
  refine List.rtakeWhile_eq_self_iff.2 fun c hc => decide_eq_true ?_
  rintro rfl
  exact h.noSlash hc

theorem not_blocks_root : isRomPath ('/' :: name) = false := by
  have hl : ('/' :: name).getLast? ≠ some '/' := by
    obtain ⟨c, rest, rfl⟩ := exists_cons_of_ne_nil h.nonempty
    rw [getLast?_cons_cons]
    exact h.getLast
  have hds : ∀ d ∈ kDirParents ++ kFrameworkDirs, d.head? = some '/' := by decide
  have hn (d : Path) (hd : d ∈ kDirParents ++ kFrameworkDirs) :
      ¬pathParentEquals ('/' :: name) d := by
    intro hp
    obtain ⟨d, rfl⟩ := List.head?_eq_some_iff.1 (hds d hd)
    have hin := (List.cons_prefix_cons.1 (pathParentEquals_iff.1 hp)).2
    exact h.noSlash (hin.subset (mem_append_right _ mem_cons_self))
  rw [isRomPath, cleanPath, if_neg fun hc => hl hc.2, isBlockedDir, isRomFrameworkArtifact_eq,
    List.any_eq_false.2 fun d hd => hn d (mem_append_left _ hd),
    List.any_eq_false.2 fun d hd => hn d (mem_append_right _ hd)]
  simp

end

theorem shouldFilterDirent_of_blocks (h : IsDirectory s fs fd D) (hn : EntryName name)
    (hb : customRomHideShouldBlock isAppProcess (absolute D name)) :
    customRomHideShouldFilterDirent s fs isAppProcess fd name := by
  rw [customRomHideShouldBlock, and_eq_true, and_eq_true] at hb
  obtain ⟨⟨-, rfl⟩, hr⟩ := hb
  have hrt : D ≠ ['/'] := by
    rintro rfl
    rw [absolute, if_pos rfl, not_blocks_root hn] at hr
    cases hr
  have hl {t : Path} : name.getLast? = some '/' → (t ++ '/' :: name).length < 512 :=
    fun hs => absurd hs hn.getLast
  rw [absolute, if_neg hrt, isRomPath_append h.rooted hn.relative hl, hn.bare] at hr
  have hc := isCandidate_of_blocks hr
  rw [pathBasename_append, hn.basename] at hc
  have hd : ¬((!true || name == ['.'] || name == ['.', '.'])) := by
    intro hd
    simp only [Bool.not_true, Bool.false_or, or_eq_true, beq_iff_eq] at hd
    rcases hd with rfl | rfl <;> exact absurd hc (by decide)
  have hct : (D.take 383).head? = some '/' := by
    rw [List.head?_take, if_neg (by decide), h.rooted]
  have hf : (D.take 383 ++ '/' :: name).length < 640 := by
    have := hn.short
    rw [length_append, length_cons, length_take]
    omega
  rw [customRomHideShouldFilterDirent, if_neg hd, hc, Bool.true_or, if_pos rfl,
    resolveFdPath_eq h (by decide)]
  simp only [joined, hf, if_true, Nat.add_one_sub_one]
  rw [isRomPath_append hct hn.relative hl, hn.bare, blocks_cut (by decide), hr]
  rfl

def noFiles : FileSystem := ⟨fun _ => none, fun _ => none, fun _ _ => .error einval, true⟩

def systemOpen : Process :=
  { Process.initial with
    files := fun fd => if fd = 3 then some (.other "/system".toList) else none }

end CustomRomPaths
