import Bionic.LinkerSoinfo

/-! How the linker turns a library name into a soinfo: the search through a namespace, its links and
the file system, which answers arbitrary values. A library is confined when every route that yields
it has passed a check of the namespace or of the link it came through. -/
namespace LinkerNamespaces

open LinkerSoinfo Option
open List

inductive DynEntry where
  | runpath (path : Name)
  | soname (name : Name)
  | flags1 (flags : DtFlags1)
  | needed (name : Name)
  deriving DecidableEq

/-- An open descriptor. `realpath` is its link in /proc/self/fd, `tmpfs` the answer of `fstatfs`;
`dynamic` is missing when the ELF reader rejects the file. -/
structure OpenFile where
  realpath : Option Name
  stat : Option FileStat
  tmpfs : Option Bool
  dynamic : Option (List DynEntry)
  deriving DecidableEq

/-- What the linker asks. `block` is the next block of the soinfo allocator, `shuffle` the random
load order; the last four answer for mapping, prelinking, relocating and CFI. -/
structure System where
  pageSize : ℕ
  targetSdkVersion : ℕ
  openFile : Name → Option OpenFile
  openInZipfile : Name → Option (OpenFile × ℤ × Name)
  resolveRunpath : Name → Name → List Name
  block : Linker → SoinfoId
  shuffle : List SoinfoId → List SoinfoId
  load : Linker → SoinfoId → Bool
  prelink : Linker → SoinfoId → Option (List DynEntry)
  relocate : Linker → SoinfoId → Bool
  afterLoad : Linker → SoinfoId → Bool

/-- What of `android_dlextinfo` decides which file is loaded. -/
structure ExtInfo where
  forceLoad : Bool
  libraryFd : Option OpenFile
  libraryFdOffset : Option ℤ
  deriving DecidableEq

structure LoadTask where
  name : Name
  neededBy : Option SoinfoId
  startFrom : NamespaceId
  extinfo : Option ExtInfo
  isDtNeeded : Bool
  deriving DecidableEq

structure Found where
  si : SoinfoId
  loaded : Bool
  tasks : List LoadTask
  deriving DecidableEq

abbrev defaultNamespace : NamespaceId := 1

def basename (path : Name) : Name := (path.reverse.takeWhile fun c => c ≠ '/').reverse

def dirname (path : Name) : Name :=
  match path.reverse.dropWhile fun c => c ≠ '/' with
  | [] => ['.']
  | ['/'] => ['/']
  | _ :: rest => rest.reverse

def fileIsUnderDir (file dir : Name) : Bool :=
  dir.isPrefixOf file && (file.drop dir.length).head? == some '/'

def fileIsInDir (file dir : Name) : Bool :=
  fileIsUnderDir file dir && !(file.drop (dir.length + 1)).contains '/'

def Namespace.isAccessible (ns : Namespace) (file : Name) : Bool :=
  !ns.isIsolated || ((ns.allowedLibs.isEmpty || ns.allowedLibs.contains (basename file)) &&
      (ns.ldLibraryPaths.any (fileIsInDir file) || ns.defaultLibraryPaths.any (fileIsInDir file) ||
        ns.permittedPaths.any (fileIsUnderDir file)))

def resolveSoname (name : Name) : Name := basename name

def isSystemLibrary (s : Linker) (realpath : Name) : Bool :=
  (s.namespaces defaultNamespace).defaultLibraryPaths.any (fileIsInDir realpath)

def maybeAccessibleViaNamespaceLinks (s : Linker) (ns : NamespaceId) (name : Name) : Bool :=
  (s.namespaces ns).linkedNamespaces.any fun link => link.isAccessible (resolveSoname name)

def libraryExemptList : List Name :=
  ["libandroid_runtime.so", "libbinder.so", "libcrypto.so", "libcutils.so", "libexpat.so",
    "libgui.so", "libmedia.so", "libnativehelper.so", "libssl.so", "libstagefright.so",
    "libsqlite.so", "libui.so", "libutils.so"].map String.toList

def systemLibDir : Name := "/system/lib64".toList

def isExemptLib (sys : System) (s : Linker) (ns : NamespaceId) (name : Name)
    (neededBy : Option SoinfoId) : Bool :=
  if 24 ≤ sys.targetSdkVersion then false
  else
    match neededBy.filter fun p => isSystemLibrary s (s.soinfo p).realpath with
    | some _ => !maybeAccessibleViaNamespaceLinks s ns name
    | none =>
      libraryExemptList.contains
        (if name.head? = some '/' ∧ dirname name = systemLibDir then basename name else name)

def findLoadedLibraryByInode (s : Linker) (ns : NamespaceId) (stat : FileStat) (offset : ℤ)
    (searchLinkedNamespaces : Bool) : Option SoinfoId :=
  if stat.stDev = 0 ∨ stat.stIno = 0 then none
  else
    let predicate := fun si =>
      (s.soinfo si).stIno == stat.stIno && (s.soinfo si).stDev == stat.stDev &&
        (s.soinfo si).fileOffset == offset
    match (s.namespaces ns).soinfoList.find? predicate with
    | some si => some si
    | none =>
      if searchLinkedNamespaces then
        (s.namespaces ns).linkedNamespaces.findSome? fun link =>
          ((s.namespaces link.linkedNamespace).soinfoList.find? predicate).filter
            fun si => link.isAccessible (s.soinfo si).soname
      else none

def findBySoname (s : Linker) (ns : NamespaceId) (name : Name) : Option SoinfoId :=
  (s.namespaces ns).soinfoList.find? fun si => (s.soinfo si).soname == name

def findLoadedLibraryBySoname (s : Linker) (ns : NamespaceId) (name : Name)
    (searchLinkedNamespaces : Bool) : Option SoinfoId :=
  if name.contains '/' then none
  else
    match findBySoname s ns name with
    | some si => some si
    | none =>
      if searchLinkedNamespaces then
        (s.namespaces ns).linkedNamespaces.findSome? fun link =>
          if link.isAccessible name then findBySoname s link.linkedNamespace name else none
      else none

def zipFileSeparator : Name := ['!', '/']

def openLibraryAtPath (sys : System) (path : Name) : Option (OpenFile × ℤ × Name) :=
  let zip := if path.tails.any zipFileSeparator.isPrefixOf then sys.openInZipfile path else none
  zip.or ((sys.openFile path).map fun file => (file, 0, file.realpath.getD path))

def openLibraryOnPaths (sys : System) (name : Name) (paths : List Name) :
    Option (OpenFile × ℤ × Name) :=
  paths.findSome? fun path =>
    let buf := path ++ '/' :: name
    if 512 ≤ buf.length then none else openLibraryAtPath sys buf

def openLibrary (sys : System) (s : Linker) (ns : NamespaceId) (name : Name)
    (neededBy : Option SoinfoId) : Option (OpenFile × ℤ × Name) :=
  if name.contains '/' then openLibraryAtPath sys name
  else
    let runpath := match neededBy with
      | none => []
      | some p => (s.soinfo p).dtRunpath
    (openLibraryOnPaths sys name (s.namespaces ns).ldLibraryPaths).or <|
      ((openLibraryOnPaths sys name runpath).filter fun r =>
          Namespace.isAccessible (s.namespaces ns) r.2.2).or <|
        openLibraryOnPaths sys name (s.namespaces ns).defaultLibraryPaths

def Soinfo.readDynEntry (sys : System) (si : Soinfo) : DynEntry → Soinfo
  | .runpath path => { si with dtRunpath := sys.resolveRunpath si.realpath path }
  | .soname name => { si with soname := name }
  | .flags1 flags => si.setDtFlags1 flags
  | .needed _ => si

def neededNames (dynamic : List DynEntry) : List Name :=
  dynamic.filterMap fun
    | .needed name => some name
    | _ => none

def loadLibraryFile (sys : System) (s : Linker) (ns : NamespaceId) (task : LoadTask)
    (flags : RtldFlags) (file : OpenFile) (offset : ℤ) (realpath : Name)
    (searchLinkedNamespaces : Bool) : Option (Linker × Option Found) :=
  if offset % sys.pageSize ≠ 0 ∨ offset < 0 then some (s, none)
  else
    match file.stat with
    | none => some (s, none)
    | some stat =>
      if (stat.stSize : ℤ) ≤ offset then some (s, none)
      else
        let loaded := if task.extinfo.any ExtInfo.forceLoad then none
          else findLoadedLibraryByInode s ns stat offset searchLinkedNamespaces
        match loaded with
        | some si => some (s, some ⟨si, false, []⟩)
        | none =>
          if flags.noload then some (s, none)
          else
            match file.tmpfs with
            | none => some (s, none)
            | some tmpfs =>
              let neededBy := if task.isDtNeeded then task.neededBy else none
              if !tmpfs && !Namespace.isAccessible (s.namespaces ns) realpath &&
                  !isExemptLib sys s ns task.name neededBy then some (s, none)
              else if 4096 ≤ realpath.length then none
              else
                let a := sys.block s
                let s₁ := s.soinfoAlloc a ns realpath stat offset flags
                match file.dynamic with
                | none => (s₁.soinfoFree a).map fun s₂ => (s₂, none)
                | some dynamic =>
                  let s₂ := s₁.modify a fun si => dynamic.foldl (Soinfo.readDynEntry sys) si
                  some (s₂, some ⟨a, true, (neededNames dynamic).map fun name =>
                    ⟨name, some a, ns, none, false⟩⟩)

def loadLibrary (sys : System) (s : Linker) (ns : NamespaceId) (task : LoadTask)
    (flags : RtldFlags) (searchLinkedNamespaces : Bool) : Option (Linker × Option Found) :=
  match task.extinfo.bind ExtInfo.libraryFd with
  | some file =>
    loadLibraryFile sys s ns task flags file ((task.extinfo.bind ExtInfo.libraryFdOffset).getD 0)
      (file.realpath.getD task.name) searchLinkedNamespaces
  | none =>
    match openLibrary sys s ns task.name task.neededBy with
    | none => some (s, none)
    | some (file, offset, realpath) =>
      loadLibraryFile sys s ns task flags file offset realpath searchLinkedNamespaces

/-- `none`: not accessible; `some none`: may be loaded there. -/
def findLibraryInLinkedNamespace (s : Linker) (link : NamespaceLink) (task : LoadTask) :
    Option (Option SoinfoId) :=
  let candidate := findLoadedLibraryBySoname s link.linkedNamespace task.name false
  let soname := match candidate with
    | some si => (s.soinfo si).soname
    | none => resolveSoname task.name
  if link.isAccessible soname then some candidate else none

def searchLinks (sys : System) (s : Linker) (task : LoadTask) (flags : RtldFlags) :
    List NamespaceLink → Option (Linker × Option Found)
  | [] => some (s, none)
  | link :: links =>
    match findLibraryInLinkedNamespace s link task with
    | none => searchLinks sys s task flags links
    | some (some si) => some (s, some ⟨si, false, []⟩)
    | some none =>
      match loadLibrary sys s link.linkedNamespace task flags false with
      | none => none
      | some (s', some found) => some (s', some found)
      | some (s', none) => searchLinks sys s' task flags links

def findLibraryInternal (sys : System) (s : Linker) (ns : NamespaceId) (task : LoadTask)
    (flags : RtldFlags) : Option (Linker × Option Found) :=
  match findLoadedLibraryBySoname s ns task.name true with
  | some si => some (s, some ⟨si, false, []⟩)
  | none =>
    match loadLibrary sys s ns task flags true with
    | none => none
    | some (s₁, some found) => some (s₁, some found)
    | some (s₁, none) =>
      if (s₁.namespaces ns).isExemptListEnabled && isExemptLib sys s₁ ns task.name task.neededBy
      then
        match loadLibrary sys s₁ defaultNamespace task flags true with
        | none => none
        | some (s₂, some found) => some (s₂, some found)
        | some (s₂, none) =>
          searchLinks sys s₂ task flags (s₂.namespaces defaultNamespace).linkedNamespaces
      else searchLinks sys s₁ task flags (s₁.namespaces ns).linkedNamespaces

variable {found : Found} {s : Linker} {task : LoadTask} {name realpath : Name} {file : OpenFile}
  {flags : RtldFlags} {sys : System} {offset : ℤ}

structure NoTmpfs (sys : System) (task : LoadTask) : Prop where
  files : ∀ path file, sys.openFile path = some file → file.tmpfs ≠ some true
  zipped : ∀ path r, sys.openInZipfile path = some r → r.1.tmpfs ≠ some true
  fd : ∀ file, task.extinfo.bind ExtInfo.libraryFd = some file → file.tmpfs ≠ some true

/-- A member, and if it was loaded now, on a path that the namespace can access. -/
structure Confined (s t : Linker) (ns : NamespaceId) (found : Found) : Prop where
  member : found.si ∈ (t.namespaces ns).soinfoList
  path : found.loaded → Namespace.isAccessible (s.namespaces ns) (t.soinfo found.si).realpath

theorem Confined.of_samePolicy {s0 t ns}
    (h : SamePolicy s0 s) (c : Confined s t ns found) : Confined s0 t ns found :=
  ⟨c.member, fun hl =>
    (congrArg (fun p => Namespace.isAccessible p _) (h ns)).symm.trans (c.path hl)⟩

def SharedBySoname (s t : Linker) (ns : NamespaceId) (found : Found) : Prop :=
  ∃ link ∈ (s.namespaces ns).linkedNamespaces,
    link.isAccessible (t.soinfo found.si).soname ∧ Confined s t link.linkedNamespace found

def SharedByBasename (s t : Linker) (ns : NamespaceId) (name : Name) (found : Found) : Prop :=
  ∃ link ∈ (s.namespaces ns).linkedNamespaces,
    link.isAccessible (basename name) ∧ Confined s t link.linkedNamespace found

theorem isExemptLib_of_sdk (h : 24 ≤ sys.targetSdkVersion) (s)
    (ns : NamespaceId) (name : Name) (neededBy) : isExemptLib sys s ns name neededBy = false := by
  simp [isExemptLib, h]

theorem readDynEntries_spec (sys) (dynamic : List DynEntry) (si) :
    ∃ runpath soname rtldFlags dtFlags1 told, dynamic.foldl (Soinfo.readDynEntry sys) si = { si with
          dtRunpath := runpath, soname := soname, rtldFlags := rtldFlags, dtFlags1 := dtFlags1
          told := told } ∧
      (si.rtldFlags.global → rtldFlags.global) ∧
      (si.rtldFlags.nodelete → rtldFlags.nodelete) := by
  induction dynamic generalizing si with
  | nil => exact ⟨_, _, _, _, si.told, rfl, id, id⟩
  | cons d dynamic ih =>
    obtain ⟨runpath, soname, rtldFlags, dtFlags1, told, heq, hg, hn⟩ :=
      ih (Soinfo.readDynEntry sys si d)
    refine ⟨runpath, soname, rtldFlags, dtFlags1, told, ?_, fun h => hg ?_, fun h => hn ?_⟩
    · rw [foldl_cons, heq]
      cases d <;> rfl
    all_goals cases d <;> simp [Soinfo.readDynEntry, Soinfo.setDtFlags1, h]

theorem readDynEntries_keepsLinks (sys) (dynamic : List DynEntry) :
    KeepsLinks fun si => dynamic.foldl (Soinfo.readDynEntry sys) si := by
  constructor <;>
  · intro si
    obtain ⟨_, _, _, _, _, heq, -, -⟩ := readDynEntries_spec sys dynamic si
    rw [heq]

theorem readDynEntries_realpath (sys) (dynamic : List DynEntry) (si) :
    (dynamic.foldl (Soinfo.readDynEntry sys) si).realpath = si.realpath := by
  obtain ⟨_, _, _, _, _, heq, -, -⟩ := readDynEntries_spec sys dynamic si
  rw [heq]

variable {ns : NamespaceId} {links : Bool} {si : SoinfoId}

/-- In the namespace, or shared with it by a link that is searched. -/
def Shared (s : Linker) (ns : NamespaceId) (links : Bool) (si : SoinfoId) : Prop :=
  si ∈ (s.namespaces ns).soinfoList ∨ links ∧
    ∃ link ∈ (s.namespaces ns).linkedNamespaces, link.isAccessible (s.soinfo si).soname ∧
      si ∈ (s.namespaces link.linkedNamespace).soinfoList

theorem findLoadedLibraryByInode_spec {stat}
    (h : findLoadedLibraryByInode s ns stat offset links = some si) : Shared s ns links si := by
  unfold findLoadedLibraryByInode at h
  split at h
  · cases h
  dsimp only at h
  split at h
  · rename_i x hx
    cases h
    exact .inl (mem_of_find?_eq_some hx)
  split at h
  · rename_i hl
    obtain ⟨link, hlk, hsi⟩ := exists_of_findSome?_eq_some h
    obtain ⟨hf, hs⟩ := filter_eq_some_iff.mp hsi
    exact .inr ⟨hl, link, hlk, hs, mem_of_find?_eq_some hf⟩
  · cases h

theorem findBySoname_spec (h : findBySoname s ns name = some si) :
    si ∈ (s.namespaces ns).soinfoList ∧ (s.soinfo si).soname = name :=
  ⟨mem_of_find?_eq_some h, by simpa using find?_some h⟩

theorem findLoadedLibraryBySoname_spec (h : findLoadedLibraryBySoname s ns name links = some si) :
    Shared s ns links si := by
  unfold findLoadedLibraryBySoname at h
  split at h
  · cases h
  split at h
  · rename_i x hx
    cases h
    exact .inl (findBySoname_spec hx).1
  split at h
  · rename_i hl
    obtain ⟨link, hlk, hsi⟩ := exists_of_findSome?_eq_some h
    split at hsi
    · rename_i hs
      obtain ⟨hm, hn⟩ := findBySoname_spec hsi
      exact .inr ⟨hl, link, hlk, by rw [hn]; exact hs, hm⟩
    · cases hsi
  · cases h

variable {r : Option Found}

/-- Everything `load_library` can do with an open file: give up, find the file loaded
already, give up after its header was rejected, or create a soinfo. -/
theorem loadLibraryFile_cases {t}
    (h : loadLibraryFile sys s ns task flags file offset realpath links = some (t, r)) :
    r = none ∧ t = s ∨
    (∃ stat si, findLoadedLibraryByInode s ns stat offset links = some si ∧ t = s ∧
      r = some ⟨si, false, []⟩) ∨
    ∃ stat tmpfs, file.tmpfs = some tmpfs ∧
      (tmpfs ∨ Namespace.isAccessible (s.namespaces ns) realpath ∨
        ∃ p, isExemptLib sys s ns task.name p) ∧
      let s1 := s.soinfoAlloc (sys.block s) ns realpath stat offset flags
      (r = none ∧ s1.soinfoFree (sys.block s) = some t ∨ ∃ dynamic,
          t = s1.modify (sys.block s) (fun si => dynamic.foldl (Soinfo.readDynEntry sys) si) ∧
          r = some ⟨sys.block s, true, (neededNames dynamic).map fun name =>
            ⟨name, some (sys.block s), ns, none, false⟩⟩) := by
  unfold loadLibraryFile at h
  split at h
  · cases h; exact .inl ⟨rfl, rfl⟩
  cases hs : file.stat with
  | none => rw [hs] at h; cases h; exact .inl ⟨rfl, rfl⟩
  | some stat =>
    simp only [hs] at h
    split at h
    · cases h; exact .inl ⟨rfl, rfl⟩
    split at h
    · rename_i si hsi
      cases h
      split at hsi
      · cases hsi
      · exact .inr (.inl ⟨stat, si, hsi, rfl, rfl⟩)
    split at h
    · cases h; exact .inl ⟨rfl, rfl⟩
    cases ht : file.tmpfs with
    | none => rw [ht] at h; cases h; exact .inl ⟨rfl, rfl⟩
    | some tmpfs =>
      simp only [ht] at h
      generalize (if task.isDtNeeded then task.neededBy else none) = p at h
      split at h
      · cases h; exact .inl ⟨rfl, rfl⟩
      rename_i hc
      have ho : tmpfs ∨ Namespace.isAccessible (s.namespaces ns) realpath ∨
          ∃ p, isExemptLib sys s ns task.name p := by
        by_contra hno
        simp only [not_or, not_exists, Bool.not_eq_true] at hno
        exact hc (by simp [hno.1, hno.2.1, hno.2.2])
      split at h
      · cases h
      refine .inr (.inr ⟨stat, tmpfs, rfl, ho, ?_⟩)
      cases hd : file.dynamic with
      | none =>
        simp only [hd] at h
        obtain ⟨t', ht', heq⟩ := map_eq_some_iff.mp h
        cases heq
        exact .inl ⟨rfl, ht'⟩
      | some dynamic =>
        simp only [hd] at h
        cases h
        exact .inr ⟨dynamic, rfl, rfl⟩

section
variable (hno : NoTmpfs sys task)
include hno

variable {r : OpenFile × ℤ × Name}

theorem openLibraryAtPath_noTmpfs {path} (h : openLibraryAtPath sys path = some r) :
    r.1.tmpfs ≠ some true := by
  rcases or_eq_some_iff.mp h with hz | ⟨-, hf⟩
  · split at hz
    · exact hno.zipped path r hz
    · cases hz
  · obtain ⟨file, ho, rfl⟩ := map_eq_some_iff.mp hf
    exact hno.files path file ho

theorem openLibraryOnPaths_noTmpfs {paths}
    (h : openLibraryOnPaths sys name paths = some r) : r.1.tmpfs ≠ some true := by
  obtain ⟨path, -, hp⟩ := exists_of_findSome?_eq_some h
  dsimp only at hp
  split at hp
  · cases hp
  · exact openLibraryAtPath_noTmpfs hno hp

end

variable {link : NamespaceLink}

theorem loadLibrary_cases {t} (h : loadLibrary sys s ns task flags links = some (t, r)) :
    r = none ∧ t = s ∨ ∃ file offset realpath, (task.extinfo.bind ExtInfo.libraryFd = some file ∨
        openLibrary sys s ns task.name task.neededBy = some (file, offset, realpath)) ∧
      loadLibraryFile sys s ns task flags file offset realpath links = some (t, r) := by
  unfold loadLibrary at h
  split at h
  · rename_i file hf
    exact .inr ⟨file, _, _, .inl hf, h⟩
  split at h
  · cases h; exact .inl ⟨rfl, rfl⟩
  · rename_i file offset realpath ho
    exact .inr ⟨file, offset, realpath, .inr ho, h⟩

theorem loadLibrary_samePolicy {t}
    (h : loadLibrary sys s ns task flags links = some (t, r)) : SamePolicy s t := by
  obtain ⟨-, rfl⟩ | ⟨_, offset, realpath, -, hf⟩ := loadLibrary_cases h
  · exact SamePolicy.refl t
  obtain ⟨-, rfl⟩ | ⟨_, _, _, rfl, _⟩ | ⟨stat, _, _, _, ⟨_, hfe⟩ | ⟨dynamic, rfl, _⟩⟩ :=
    loadLibraryFile_cases hf
  · exact SamePolicy.refl t
  · exact SamePolicy.refl t
  · exact (samePolicy_soinfoAlloc s _ ns realpath stat offset flags).trans
      (samePolicy_soinfoFree hfe)
  · exact samePolicy_soinfoAlloc s _ ns realpath stat offset flags

theorem findLibraryInLinkedNamespace_loaded
    (h : findLibraryInLinkedNamespace s link task = some (some si)) :
    si ∈ (s.namespaces link.linkedNamespace).soinfoList ∧
      link.isAccessible (s.soinfo si).soname := by
  unfold findLibraryInLinkedNamespace at h
  cases hc : findLoadedLibraryBySoname s link.linkedNamespace task.name false with
  | none => simp [hc] at h
  | some x =>
    simp only [hc, ite_none_right_eq_some, some.injEq] at h
    obtain ⟨ha, rfl⟩ := h
    obtain hm | ⟨hl, -⟩ := findLoadedLibraryBySoname_spec hc
    · exact ⟨hm, ha⟩
    · cases hl

theorem findLibraryInLinkedNamespace_toLoad
    (h : findLibraryInLinkedNamespace s link task = some none) :
    link.isAccessible (basename task.name) := by
  unfold findLibraryInLinkedNamespace at h
  cases hc : findLoadedLibraryBySoname s link.linkedNamespace task.name false with
  | none => simpa [hc, resolveSoname] using h
  | some x => simp [hc] at h

section
variable (hsk : 24 ≤ sys.targetSdkVersion) (hno : NoTmpfs sys task)
include hsk hno

variable {t : Linker}

theorem loadLibrary_confined (h : loadLibrary sys s ns task flags links = some (t, some found)) :
    Confined s t ns found ∨ links ∧ SharedBySoname s t ns found := by
  obtain ⟨hr, -⟩ | ⟨file, offset, realpath, ho, hf⟩ := loadLibrary_cases h
  · cases hr
  have ht : file.tmpfs ≠ some true := by
    rcases ho with hfd | ho
    · exact hno.fd file hfd
    unfold openLibrary at ho
    split at ho
    · exact openLibraryAtPath_noTmpfs hno ho
    rcases or_eq_some_iff.mp ho with hpt | ⟨-, hrs⟩
    · exact openLibraryOnPaths_noTmpfs hno hpt
    rcases or_eq_some_iff.mp hrs with hpt | ⟨-, hpt⟩
    · exact openLibraryOnPaths_noTmpfs hno (filter_eq_some_iff.mp hpt).1
    · exact openLibraryOnPaths_noTmpfs hno hpt
  obtain ⟨hr, -⟩ | ⟨stat, si, hsi, rfl, hr⟩ |
    ⟨stat, tmpfs, htf, hok, ⟨hr, -⟩ | ⟨dynamic, rfl, hr⟩⟩ := loadLibraryFile_cases hf
  · cases hr
  · cases hr
    obtain hm | ⟨hl, link, hlk, hs, hm⟩ := findLoadedLibraryByInode_spec hsi
    · exact .inl ⟨hm, by simp⟩
    · exact .inr ⟨hl, link, hlk, hs, hm, by simp⟩
  · cases hr
  cases hr
  have ha : Namespace.isAccessible (s.namespaces ns) realpath := by
    rcases hok with rfl | ha | ⟨p, hp⟩
    · exact absurd htf ht
    · exact ha
    · rw [isExemptLib_of_sdk hsk] at hp; cases hp
  refine .inl ⟨by simp [Linker.soinfoAlloc, Linker.addSoinfo], fun _ => ?_⟩
  rw [modify_soinfo_self, readDynEntries_realpath]
  simpa [Linker.soinfoAlloc, Linker.addSoinfo] using ha

/-- Every link that is followed was asked for the soname of a loaded candidate or for the
base name of the request; failed attempts before it leave the policy alone. -/
theorem searchLinks_confined {links}
    (h : searchLinks sys s task flags links = some (t, some found)) :
    ∃ link ∈ links, Confined s t link.linkedNamespace found ∧
      (link.isAccessible (t.soinfo found.si).soname ∨ link.isAccessible (basename task.name)) := by
  induction links generalizing s with
  | nil => cases h
  | cons link links ih =>
    rw [searchLinks] at h
    split at h
    · obtain ⟨l, hl, hc⟩ := ih h
      exact ⟨l, mem_cons_of_mem _ hl, hc⟩
    · rename_i si hlk
      cases h
      obtain ⟨hm, ha⟩ := findLibraryInLinkedNamespace_loaded hlk
      exact ⟨link, mem_cons_self, ⟨hm, by simp⟩, .inl ha⟩
    rename_i hlk
    have ha := findLibraryInLinkedNamespace_toLoad hlk
    split at h
    · cases h
    · rename_i s' f hld
      cases h
      obtain hc | ⟨hl, -⟩ := loadLibrary_confined hsk hno hld
      · exact ⟨link, mem_cons_self, hc, .inr ha⟩
      · cases hl
    · rename_i s' hld
      obtain ⟨l, hl, hc, hn⟩ := ih h
      exact ⟨l, mem_cons_of_mem _ hl, hc.of_samePolicy (loadLibrary_samePolicy hld), hn⟩

end

structure Same (s t : Linker) : Prop where
  solist : t.solist = s.solist
  namespaces : t.namespaces = s.namespaces
  unloaded : t.unloaded = s.unloaded
  soinfo : ∀ x ∈ s.solist, t.soinfo x = s.soinfo x

theorem Same.refl (s) : Same s s := ⟨rfl, rfl, rfl, fun _ _ => rfl⟩

theorem Same.trans {t u} (h : Same s t) (k : Same t u) : Same s u :=
  ⟨k.solist.trans h.solist, k.namespaces.trans h.namespaces, k.unloaded.trans h.unloaded,
    fun x hx => (k.soinfo x (h.solist ▸ hx)).trans (h.soinfo x hx)⟩

def System.FreshBlocks (sys : System) : Prop := ∀ s, sys.block s ∉ s.solist

theorem links_of_dead (wf : Wf s) {a} (ha : a ∉ s.solist) :
    (s.soinfo a).children = [] ∧ (s.soinfo a).parents = [] := by
  refine ⟨List.eq_nil_iff_forall_not_mem.mpr fun y hy => ha (wf.live a y hy).1,
    List.eq_nil_iff_forall_not_mem.mpr fun y hy => ?_⟩
  exact ha (wf.live y a (wf.child_iff.mpr hy)).2

section
variable {a : SoinfoId} {stat : FileStat}

theorem soinfoAlloc_soinfo_of_ne {x} (hx : x ≠ a) :
    (s.soinfoAlloc a ns realpath stat offset flags).soinfo x = s.soinfo x := by
  simp [Linker.soinfoAlloc, Linker.addSoinfo, modify_soinfo_of_ne _ _ _ _ hx]

theorem soinfoAlloc_soinfo_self :
    (s.soinfoAlloc a ns realpath stat offset flags).soinfo a = { Soinfo.zero with
        realpath := realpath, stDev := stat.stDev, stIno := stat.stIno
        fileOffset := offset, rtldFlags := flags, primaryNamespace := ns
        told := Soinfo.zero_told flags } := by
  simp [Linker.soinfoAlloc, Linker.addSoinfo]

theorem soinfoAlloc_solist :
    (s.soinfoAlloc a ns realpath stat offset flags).solist = s.solist ++ [a] := by
  simp [Linker.soinfoAlloc, Linker.addSoinfo]

theorem soinfoAlloc_namespaces (n : NamespaceId) :
    (s.soinfoAlloc a ns realpath stat offset flags).namespaces n = { s.namespaces n with
        soinfoList := (s.namespaces n).soinfoList ++ if n = ns then [a] else [] } := by
  by_cases hn : n = ns
  · subst hn; simp [Linker.soinfoAlloc, Linker.addSoinfo]
  · simp [Linker.soinfoAlloc, Linker.addSoinfo, modifyNs_namespaces_of_ne _ _ _ _ hn, hn]

theorem soinfoAlloc_wf (wf : Wf s) (ha : a ∉ s.solist) :
    Wf (s.soinfoAlloc a ns realpath stat offset flags) := by
  obtain ⟨hc, hp⟩ := links_of_dead wf ha
  have hl : ∀ x, ((s.soinfoAlloc a ns realpath stat offset flags).soinfo x).children =
        (s.soinfo x).children ∧
      ((s.soinfoAlloc a ns realpath stat offset flags).soinfo x).parents =
        (s.soinfo x).parents := by
    intro x
    by_cases hx : x = a
    · subst hx
      rw [hc, hp, soinfoAlloc_soinfo_self]
      exact ⟨rfl, rfl⟩
    · rw [soinfoAlloc_soinfo_of_ne hx]
      exact ⟨rfl, rfl⟩
  constructor
  · obtain ⟨exe, linker, rest, hs⟩ := wf.first
    exact ⟨exe, linker, rest ++ [a], by rw [soinfoAlloc_solist, hs]; rfl⟩
  · rw [soinfoAlloc_solist]
    exact List.nodup_append.mpr ⟨wf.nodup, nodup_singleton a, fun x hx y hy hxy =>
      ha (List.mem_singleton.mp hy ▸ hxy ▸ hx)⟩
  · intro x y
    rw [(hl x).1, (hl y).2]
    exact wf.mirrored x y
  · intro x y hy
    rw [(hl x).1] at hy
    rw [soinfoAlloc_solist]
    obtain ⟨hx, hy⟩ := wf.live x y hy
    exact ⟨mem_append_left _ hx, mem_append_left _ hy⟩
  intro n x hx
  rw [soinfoAlloc_namespaces] at hx
  rw [soinfoAlloc_solist]
  rcases List.mem_append.mp hx with hx | hx
  · obtain ⟨hlv, hns⟩ := wf.members n x hx
    have hne : x ≠ a := fun h => ha (h ▸ hlv)
    rw [soinfoAlloc_soinfo_of_ne hne]
    exact ⟨mem_append_left _ hlv, hns⟩
  split at hx
  · rename_i hn
    rw [List.mem_singleton.mp hx]
    refine ⟨by simp, .inl ?_⟩
    simp [Linker.soinfoAlloc, Linker.addSoinfo, hn]
  · cases hx

theorem soinfoAlloc_free {t} (wf : Wf s) (ha : a ∉ s.solist)
    (h : (s.soinfoAlloc a ns realpath stat offset flags).soinfoFree a = some t) :
    Wf t ∧ Same s t := by
  have wf1 : Wf (s.soinfoAlloc a ns realpath stat offset flags) := soinfoAlloc_wf wf ha
  obtain ⟨hr, hf⟩ := soinfoFree_spec wf1 h
  refine ⟨hf.wf wf1 hr, ?_, funext ?_, hf.unloaded, ?_⟩
  · rw [hf.solist, soinfoAlloc_solist]
    simpa [remove] using remove_eq_self ha
  · intro n
    have ho : a ∉ (s.namespaces n).soinfoList := fun hm => ha (wf.members n a hm).1
    have hl : remove ((s.namespaces n).soinfoList ++ if n = ns then [a] else []) a =
        (s.namespaces n).soinfoList := by
      have hs := remove_eq_self ho
      split
      · simpa [remove] using hs
      · simpa using hs
    rw [hf.namespaces n, soinfoAlloc_namespaces]
    simp only [hl]
  · intro x hx
    have hn : x ≠ a := fun hxa => ha (hxa ▸ hx)
    rw [hf.others x hn, soinfoAlloc_soinfo_of_ne hn, remove_eq_self fun h => ha (wf.live x a h).2,
      remove_eq_self fun h => ha (wf.live a x (wf.child_iff.mpr h)).1]

end

/-- Resolving a name: nothing that is alive changes, and at most one soinfo is created, whose
dependencies become tasks. -/
inductive Outcome (sys : System) (flags : RtldFlags) (s : Linker) :
    Linker → Option Found → Prop where
  | failed {t} : Wf t → Same s t → Outcome sys flags s t none
  | existing {t si} : Wf t → Same s t → si ∈ s.solist →
      Outcome sys flags s t (some ⟨si, false, []⟩)
  | created {u a} (ns : NamespaceId) (realpath : Name) (stat : FileStat) (offset : ℤ)
      (dynamic : List DynEntry) : Wf u → Same s u → a ∉ s.solist →
      Outcome sys flags s ((u.soinfoAlloc a ns realpath stat offset flags).modify a
          fun si => dynamic.foldl (Soinfo.readDynEntry sys) si)
        (some ⟨a, true, (neededNames dynamic).map fun name => ⟨name, some a, ns, none, false⟩⟩)

theorem Outcome.of_same {u t}
    (h : Same s u) (k : Outcome sys flags u t r) : Outcome sys flags s t r := by
  cases k with
  | failed wf hs => exact .failed wf (h.trans hs)
  | existing wf hs hm => exact .existing wf (h.trans hs) (h.solist ▸ hm)
  | created ns realpath stat offset dynamic wf hs ho =>
    exact .created ns realpath stat offset dynamic wf (h.trans hs) (h.solist ▸ ho)

theorem Outcome.failed_spec {t} (h : Outcome sys flags s t none) : Wf t ∧ Same s t := by
  cases h with
  | failed wf hs => exact ⟨wf, hs⟩

theorem Outcome.soinfo_eq {t}
    (h : Outcome sys flags s t r) (x : SoinfoId) (hx : x ∈ s.solist) : t.soinfo x = s.soinfo x := by
  cases h with
  | failed wf hs => exact hs.soinfo x hx
  | existing wf hs hm => exact hs.soinfo x hx
  | @created u a ns realpath stat offset dynamic wf hs ho =>
    have hn : x ≠ a := fun hxa => ho (hxa ▸ hx)
    rw [modify_soinfo_of_ne _ _ _ _ hn, soinfoAlloc_soinfo_of_ne hn]
    exact hs.soinfo x hx

section
variable (hfr : sys.FreshBlocks)

variable {t : Linker}

theorem live_of_shared (wf : Wf s) (h : Shared s ns links si) : si ∈ s.solist := by
  obtain hm | ⟨-, link, -, -, hm⟩ := h
  all_goals exact (wf.members _ si hm).1

include hfr

theorem loadLibrary_outcome (wf : Wf s)
    (h : loadLibrary sys s ns task flags links = some (t, r)) : Outcome sys flags s t r := by
  obtain ⟨rfl, rfl⟩ | ⟨file, offset, realpath, -, hf⟩ := loadLibrary_cases h
  · exact .failed wf (Same.refl t)
  obtain ⟨rfl, rfl⟩ | ⟨stat, si, hs, rfl, rfl⟩ |
    ⟨stat, tmpfs, -, -, ⟨rfl, hfe⟩ | ⟨dynamic, rfl, rfl⟩⟩ := loadLibraryFile_cases hf
  · exact .failed wf (Same.refl t)
  · exact .existing wf (Same.refl t) (live_of_shared wf (findLoadedLibraryByInode_spec hs))
  · obtain ⟨wft, hsm⟩ := soinfoAlloc_free wf (hfr s) hfe
    exact .failed wft hsm
  · exact .created ns realpath stat offset dynamic wf (Same.refl s) (hfr s)

theorem searchLinks_outcome (wf : Wf s) {links}
    (h : searchLinks sys s task flags links = some (t, r)) : Outcome sys flags s t r := by
  induction links generalizing s with
  | nil => cases h; exact .failed wf (Same.refl _)
  | cons link links ih =>
    rw [searchLinks] at h
    split at h
    · exact ih wf h
    · rename_i si hl
      cases h
      obtain ⟨hm, -⟩ := findLibraryInLinkedNamespace_loaded hl
      exact .existing wf (Same.refl _) (wf.members _ si hm).1
    split at h
    · cases h
    · rename_i s' found hld
      cases h
      exact loadLibrary_outcome hfr wf hld
    · rename_i s' hld
      obtain ⟨wf', hs⟩ := (loadLibrary_outcome hfr wf hld).failed_spec
      exact (ih wf' h).of_same hs

theorem findLibraryInternal_outcome (wf : Wf s)
    (h : findLibraryInternal sys s ns task flags = some (t, r)) : Outcome sys flags s t r := by
  unfold findLibraryInternal at h
  split at h
  · rename_i si hs
    cases h
    exact .existing wf (Same.refl _) (live_of_shared wf (findLoadedLibraryBySoname_spec hs))
  split at h
  · cases h
  · rename_i s1 found hl
    cases h
    exact loadLibrary_outcome hfr wf hl
  rename_i s1 hl
  obtain ⟨wf1, hs1⟩ := (loadLibrary_outcome hfr wf hl).failed_spec
  split at h
  · split at h
    · cases h
    · rename_i s2 found hl2
      cases h
      exact (loadLibrary_outcome hfr wf1 hl2).of_same hs1
    · rename_i s2 hl2
      obtain ⟨wf2, hs2⟩ := (loadLibrary_outcome hfr wf1 hl2).failed_spec
      exact (searchLinks_outcome hfr wf2 h).of_same (hs1.trans hs2)
  · exact (searchLinks_outcome hfr wf1 h).of_same hs1

end

/-- A library found for a namespace without the exempt list is a member of it, or of a linked one
whose link shares its soname or the base name it was asked for by; one loaded now lies on a path
accessible to its namespace. -/
theorem findLibraryInternal_confined {sys : System} {s t : Linker} {ns : NamespaceId}
    {task : LoadTask} {flags : RtldFlags} {found : Found} (hsk : 24 ≤ sys.targetSdkVersion)
    (hno : NoTmpfs sys task) (h : findLibraryInternal sys s ns task flags = some (t, some found)) :
    Confined s t ns found ∨ SharedBySoname s t ns found ∨
      SharedByBasename s t ns task.name found := by
  unfold findLibraryInternal at h
  split at h
  · rename_i si hsi
    cases h
    obtain hm | ⟨-, link, hl, hs, hm⟩ := findLoadedLibraryBySoname_spec hsi
    · exact .inl ⟨hm, by simp⟩
    · exact .inr (.inl ⟨link, hl, hs, hm, by simp⟩)
  split at h
  · cases h
  · rename_i s1 f hld
    cases h
    obtain hc | ⟨-, hs⟩ := loadLibrary_confined hsk hno hld
    · exact .inl hc
    · exact .inr (.inl hs)
  rename_i s1 hld
  have hsm := loadLibrary_samePolicy hld
  rw [isExemptLib_of_sdk hsk] at h
  simp only [Bool.and_false, Bool.false_eq_true, if_false] at h
  obtain ⟨link, hl, hc, hn⟩ := searchLinks_confined hsk hno h
  rw [hsm.linkedNamespaces] at hl
  have hc' := hc.of_samePolicy hsm
  rcases hn with hn | hn
  · exact .inr (.inl ⟨link, hl, hn, hc'⟩)
  · exact .inr (.inr ⟨link, hl, hn, hc'⟩)

def symlinkSystem : System where
  pageSize := 4096
  targetSdkVersion := 35
  openFile := fun path =>
    if path = ['/', 'm', '/', 'a'] then
      some ⟨some ['/', 'm', '/', 'b'], some ⟨1, 7, 4096⟩, some false, some [.soname ['b']]⟩
    else none
  openInZipfile := fun _ => none
  resolveRunpath := fun _ _ => []
  block := fun _ => 9
  shuffle := fun l => l
  load := fun _ _ => true
  prelink := fun _ _ => some []
  relocate := fun _ _ => true
  afterLoad := fun _ _ => true

def symlinkState : Linker where
  soinfo := fun _ => Soinfo.zero
  solist := [1, 2]
  namespaces := fun n =>
    if n = 0 then ⟨true, false, [], [], [], [], [⟨2, [['a']], false⟩], []⟩
    else ⟨true, false, [], [['/', 'm']], [], [], [], []⟩
  unloaded := []

def symlinkTask : LoadTask := ⟨['a'], none, 0, none, false⟩

def symlinkLoaded : Linker :=
  (symlinkState.soinfoAlloc 9 2 ['/', 'm', '/', 'b'] ⟨1, 7, 4096⟩ 0 {}).modify 9
    fun si => { si with soname := ['b'] }

theorem symlink_found : findLibraryInternal symlinkSystem symlinkState 0 symlinkTask {} =
      some (symlinkLoaded, some ⟨9, true, []⟩) := by
  rfl

theorem symlink_noTmpfs : NoTmpfs symlinkSystem symlinkTask := by
  refine ⟨fun path file h => ?_, nofun, nofun⟩
  simp only [symlinkSystem, ite_none_right_eq_some, some.injEq] at h
  obtain ⟨-, rfl⟩ := h
  simp

/-- The request for a yields the library b, although no link shares b. -/
theorem symlink_escapes_soname_list :
    findLibraryInternal symlinkSystem symlinkState 0 symlinkTask {} =
        some (symlinkLoaded, some ⟨9, true, []⟩) ∧
      24 ≤ symlinkSystem.targetSdkVersion ∧ NoTmpfs symlinkSystem symlinkTask ∧
      ¬ (Confined symlinkState symlinkLoaded 0 ⟨9, true, []⟩ ∨
        SharedBySoname symlinkState symlinkLoaded 0 ⟨9, true, []⟩) := by
  refine ⟨symlink_found, by decide, symlink_noTmpfs, ?_⟩
  rintro (⟨hm, -⟩ | ⟨link, hlk, hs, -⟩)
  · exact absurd hm (by decide)
  have hl : link = ⟨2, [['a']], false⟩ := by simpa [symlinkState] using hlk
  subst hl
  exact absurd hs (by decide)

theorem findLibraryInternal_confined_symlink : Confined symlinkState symlinkLoaded 0 ⟨9, true, []⟩ ∨
      SharedBySoname symlinkState symlinkLoaded 0 ⟨9, true, []⟩ ∨
      SharedByBasename symlinkState symlinkLoaded 0 symlinkTask.name ⟨9, true, []⟩ :=
  findLibraryInternal_confined (by decide) symlink_noTmpfs symlink_found

end LinkerNamespaces
