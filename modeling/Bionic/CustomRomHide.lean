import Mathlib

/-! Descriptors of substituted files in `custom_rom_hide.cpp`. A file that an app must not see is
replaced by a memfd with the real path in its name. Two tables indexed by the descriptor say so and
hold what was known of the real file. System calls change the kernel's table without them. -/
namespace CustomRomHide

open Function Bool BitVec
open Option Nat

abbrev Fd := ℤ

abbrev Path := List Char

structure Stat where
  mode : ℕ
  devMajor : ℕ
  devMinor : ℕ
  /-- The other members. -/
  rest : ℕ
  deriving DecidableEq, Inhabited

structure Statx where
  mode : ℕ
  devMajor : ℕ
  devMinor : ℕ
  rest : ℕ
  deriving DecidableEq, Inhabited

def sIsDir (mode : ℕ) : Bool := mode &&& 0o170000 = 0o040000

abbrev Errno := ℕ

def einval : Errno := 22

def enametoolong : Errno := 36

def statxAll : ℕ := 0xfff

def kStatxCaptureMask : ℕ :=
  statxAll ||| 0x2000 ||| 0x4000 ||| 0x8000 ||| 0x10000 ||| 0x20000

structure FileSystem where
  /-- The path behind an alias in `/proc`, if it can be opened and its link read. -/
  resolve : Path → Option Path
  fstatat : Path → Option Stat
  statx : ℕ → Path → Except Errno Statx
  /-- Whether the links in `/proc/self/fd` can be read. -/
  proc : Bool

/-- An open file: a memfd that stands for a real file, or any other. The number of a memfd is the
identity of a substitution. -/
inductive File where
  | memfd (id : ℕ) (path : Path)
  | other (link : Path)
  deriving DecidableEq

def hideMemfdNamePrefix : Path := "mf:".toList

def hideMemfdLinkPrefix : Path := "/memfd:mf:".toList

def deletedSuffix : Path := " (deleted)".toList

/-- The link of a descriptor in `/proc/self/fd`. -/
def File.link : File → Path
  | .memfd _ path => "/memfd:".toList ++ (hideMemfdNamePrefix ++ path) ++ deletedSuffix
  | .other link => link

structure FdMeta where
  sb : Stat
  sx : Statx
  sbOk : Bool
  sxOk : Bool
  /-- Not in the source: the substitution in whose creation the record was captured. -/
  substitution : ℕ
  deriving DecidableEq

structure Process where
  substitutedFdBits : ℕ → BitVec 64
  fdMeta : Fd → Option FdMeta
  /-- The kernel's table. -/
  files : Fd → Option File
  /-- How many memfds were created so far. -/
  created : ℕ

def Process.initial : Process := ⟨fun _ => 0#64, fun _ => none, fun _ => none, 0⟩

def hideTrackedFdLimit : ℤ := 32768

def hideTrackedFdWordBits : ℕ := 64

def isTrackableFd (fd : Fd) : Bool := 0 ≤ fd && fd < hideTrackedFdLimit

def wordIndex (fd : Fd) : ℕ := fd.toNat / hideTrackedFdWordBits

def fdBit (fd : Fd) : BitVec 64 := 1#64 <<< (fd.toNat % hideTrackedFdWordBits)

namespace Process

def isTrackedFd (s : Process) (fd : Fd) : Bool :=
  isTrackableFd fd && (s.substitutedFdBits (wordIndex fd) &&& fdBit fd) != 0#64

def setWord (s : Process) (i : ℕ) (word : BitVec 64) : Process :=
  { s with substitutedFdBits := update s.substitutedFdBits i word }

def registerFd (s : Process) (fd : Fd) : Process :=
  if !isTrackableFd fd then s
  else s.setWord (wordIndex fd) (s.substitutedFdBits (wordIndex fd) ||| fdBit fd)

def clearFdMeta (s : Process) (fd : Fd) : Process :=
  if !isTrackableFd fd then s else { s with fdMeta := update s.fdMeta fd none }

/-- `malloc` says whether there is memory for the copy. -/
def storeFdMeta (s : Process) (fd : Fd) (m : FdMeta) (malloc : Bool) : Process :=
  if !isTrackableFd fd then s
  else if !malloc then s.clearFdMeta fd
  else { s with fdMeta := update s.fdMeta fd (some m) }

def loadFdMeta (s : Process) (fd : Fd) : Option FdMeta :=
  if !isTrackableFd fd then none else s.fdMeta fd

def unregisterFd (s : Process) (fd : Fd) : Process :=
  if !isTrackableFd fd then s
  else if s.substitutedFdBits (wordIndex fd) &&& fdBit fd = 0#64 then s
  else
    let s := s.setWord (wordIndex fd) (s.substitutedFdBits (wordIndex fd) &&& ~~~fdBit fd)
    s.clearFdMeta fd

def transferFd (s : Process) (oldFd newFd : Fd) (malloc : Bool) : Process :=
  if newFd < 0 ∨ oldFd = newFd then s
  else if s.isTrackedFd oldFd then
    let s := match s.loadFdMeta oldFd with
      | some m => s.storeFdMeta newFd m malloc
      | none => s.clearFdMeta newFd
    s.registerFd newFd
  else s.unregisterFd newFd

end Process

/-- Descriptor links show the path in `/proc` behind an alias. -/
def canonicalizeProcPath (fs : FileSystem) (path : Path) : Path :=
  if !"/proc/".toList.isPrefixOf path then path else (fs.resolve path).getD path

/-- Older kernels reject the newest bits of the mask. -/
def captureStatx (fs : FileSystem) (path : Path) : Option Statx :=
  match fs.statx kStatxCaptureMask path with
  | .ok sx => some sx
  | .error e => if e = einval then (fs.statx statxAll path).toOption else none

def capture (fs : FileSystem) (path : Path) (id : ℕ) : FdMeta :=
  let sb := fs.fstatat path
  let sx := captureStatx fs path
  ⟨sb.getD default, sx.getD default, sb.isSome, sx.isSome, id⟩

def createEncodedMemfd (s : Process) (fs : FileSystem) (path : Path) (fd : Except Errno Fd)
    (malloc : Bool) : Process × Except Errno Fd :=
  let path := canonicalizeProcPath fs path
  if 250 ≤ (hideMemfdNamePrefix ++ path).length then (s, .error enametoolong)
  else match fd with
    | .error e => (s, .error e)
    | .ok fd =>
      let m := capture fs path s.created
      let s := { s with files := update s.files fd (some (.memfd s.created path)),
                        created := s.created + 1 }
      let s := if m.sbOk || m.sxOk then s.storeFdMeta fd m malloc else s
      (s.registerFd fd, .ok fd)

/-- The place of the first `needle`. -/
def strstr (needle : Path) : Path → Option ℕ
  | [] => if needle.isEmpty then some 0 else none
  | c :: s => if needle.isPrefixOf (c :: s) then some 0 else (strstr needle s).map (· + 1)

def decodeEncodedMemfdLink (link : Path) (outSize : ℕ) : Option Path :=
  if !hideMemfdLinkPrefix.isPrefixOf link then none
  else
    let realPath := link.drop hideMemfdLinkPrefix.length
    let realLen := (strstr deletedSuffix realPath).getD realPath.length
    if realLen = 0 ∨ outSize ≤ realLen then none else some (realPath.take realLen)

/-- What `readlink` stores in a buffer. -/
def resolveFdPath (s : Process) (fs : FileSystem) (fd : Fd) (size : ℕ) : Option Path :=
  if fd < 0 ∨ size < 2 ∨ !fs.proc then none
  else match s.files fd with
    | none => none
    | some file =>
      let link := file.link.take (size - 1)
      if link.isEmpty then none else some link

def resolveEncodedMemfdPath (s : Process) (fs : FileSystem) (fd : Fd) (outSize : ℕ) :
    Process × Option Path :=
  if !s.isTrackedFd fd then (s, none)
  else match resolveFdPath s fs fd 512 with
    | none => (s, none)
    | some fdPath =>
      match decodeEncodedMemfdLink fdPath outSize with
      | none => (s.unregisterFd fd, none)
      | some path => (s, some path)

def dmMajor : ℕ := 253

def kPartitionDmMap : List (Path × ℕ) :=
  [("/system".toList, 0), ("/vendor".toList, 1), ("/product".toList, 2),
    ("/system_ext".toList, 3), ("/odm".toList, 4)]

def findPartitionEntry (path : Path) : Option ℕ := kPartitionDmMap.lookup path

/-- What `fstat` or `statx` shows: what the kernel said, the device of a partition, the real file as
it is, or the captured record. -/
inductive Answer (α : Type) where
  | kernel
  | device (minor : ℕ)
  | live (a : α)
  | captured (m : FdMeta)
  deriving DecidableEq

def partitionAnswer {α : Type} (s : Process) (fs : FileSystem) (fd : Fd) (directory : Bool)
    (devMajor : ℕ) : Answer α :=
  if directory && devMajor != dmMajor then
    match (resolveFdPath s fs fd 512).bind findPartitionEntry with
    | some minor => .device minor
    | none => .kernel
  else .kernel

/-- `live`: the real file as it is now; `ok`: the record has that part. -/
def spoofFd {α : Type} (live : Path → Option α) (ok : FdMeta → Bool) (directory : Bool)
    (devMajor : ℕ) (s : Process) (fs : FileSystem) (isAppProcess : Bool) (fd : Fd) :
    Process × Answer α :=
  if fd < 0 ∨ !isAppProcess then (s, .kernel)
  else if s.isTrackedFd fd then
    match resolveEncodedMemfdPath s fs fd 512 with
    | (s, none) => (s, .kernel)
    | (s, some realPath) =>
      match live realPath with
      | some a => (s, .live a)
      | none => match s.loadFdMeta fd with
        | some m => (s, if ok m then .captured m else .kernel)
        | none => (s, .kernel)
  else (s, partitionAnswer s fs fd directory devMajor)

def customRomHideSpoofFdStat (s : Process) (fs : FileSystem) (isAppProcess : Bool) (fd : Fd)
    (sb : Stat) : Process × Answer Stat :=
  spoofFd fs.fstatat FdMeta.sbOk (sIsDir sb.mode) sb.devMajor s fs isAppProcess fd

def customRomHideSpoofFdStatx (s : Process) (fs : FileSystem) (isAppProcess : Bool) (fd : Fd)
    (mask : ℕ) (sx : Statx) : Process × Answer Statx :=
  spoofFd (fun path => (fs.statx mask path).toOption) FdMeta.sxOk (sx.mode = 0 || sIsDir sx.mode)
    sx.devMajor s fs isAppProcess fd

inductive Op where
  | create (path : Path) (fd : Except Errno Fd) (fs : FileSystem) (malloc : Bool)
  | unregister (fd : Fd)
  | close (fd : Fd)
  | dup (oldFd newFd : Fd) (malloc : Bool)
  | fstat (fs : FileSystem) (isAppProcess : Bool) (fd : Fd) (sb : Stat)
  | statx (fs : FileSystem) (isAppProcess : Bool) (fd : Fd) (mask : ℕ) (sx : Statx)
  /-- A system call that closes a descriptor behind the library's back. -/
  | rawClose (fd : Fd)
  /-- Any way in which a number comes to refer to a file without the functions here. -/
  | rawOpen (fd : Fd) (file : File)

def Process.Free (s : Process) (fd : Fd) : Prop := 0 ≤ fd ∧ s.files fd = none

instance (s : Process) (fd : Fd) : Decidable (s.Free fd) := inferInstanceAs (Decidable (_ ∧ _))

def File.Known (s : Process) : File → Prop
  | .memfd id _ => id < s.created
  | .other _ => True

instance (s : Process) : (file : File) → Decidable (file.Known s)
  | .memfd id _ => inferInstanceAs (Decidable (id < s.created))
  | .other _ => inferInstanceAs (Decidable True)

/-- `none` for what the kernel does not do. -/
def Process.step (s : Process) : Op → Option Process
  | .create path (.error e) fs malloc => some (createEncodedMemfd s fs path (.error e) malloc).1
  | .create path (.ok fd) fs malloc =>
    if s.Free fd then some (createEncodedMemfd s fs path (.ok fd) malloc).1 else none
  | .unregister fd => some (s.unregisterFd fd)
  | .close fd =>
    let s := s.unregisterFd fd
    some { s with files := update s.files fd none }
  | .dup oldFd newFd malloc =>
    match s.files oldFd with
    | none => some (s.transferFd oldFd (-1) malloc)
    | some file =>
      if newFd < 0 then some (s.transferFd oldFd (-1) malloc)
      else
        let s := { s with files := update s.files newFd (some file) }
        some (s.transferFd oldFd newFd malloc)
  | .fstat fs isAppProcess fd sb => some (customRomHideSpoofFdStat s fs isAppProcess fd sb).1
  | .statx fs isAppProcess fd mask sx =>
    some (customRomHideSpoofFdStatx s fs isAppProcess fd mask sx).1
  | .rawClose fd => some { s with files := update s.files fd none }
  | .rawOpen fd file =>
    if s.Free fd ∧ file.Known s then
      some { s with files := update s.files fd (some file) }
    else none

def Process.run (s : Process) : List Op → Option Process
  | [] => some s
  | op :: ops => do (← s.step op).run ops

theorem and_fdBit (word) (fd : Fd) :
    word &&& fdBit fd = 0#64 ↔ word.getLsbD (fd.toNat % hideTrackedFdWordBits) = false := by
  have hl : fd.toNat % hideTrackedFdWordBits < 64 := mod_lt _ (by decide)
  rw [fdBit, ← twoPow_eq, and_twoPow]
  cases hb : word.getLsbD (fd.toNat % hideTrackedFdWordBits) with
  | false => simp
  | true =>
    simp only [if_true, true_eq_false, iff_false]
    intro hz
    have hs := congrArg (fun w => w.getLsbD (fd.toNat % hideTrackedFdWordBits)) hz
    simp [hl] at hs

theorem getLsbD_fdBit (fd : Fd) (i) :
    (fdBit fd).getLsbD i = decide (i = fd.toNat % hideTrackedFdWordBits) := by
  have hl : fd.toNat % hideTrackedFdWordBits < 64 := mod_lt _ (by decide)
  rw [fdBit, ← twoPow_eq, getLsbD_twoPow]
  simp [hl, eq_comm]

theorem eq_of_place {fd fd'} (h : isTrackableFd fd) (h' : isTrackableFd fd')
    (hw : wordIndex fd' = wordIndex fd)
    (hb : fd'.toNat % hideTrackedFdWordBits = fd.toNat % hideTrackedFdWordBits) : fd' = fd := by
  simp only [isTrackableFd, and_eq_true, decide_eq_true_eq] at h h'
  have hp : (0 : ℤ) ≤ fd := h.1
  have hp' : (0 : ℤ) ≤ fd' := h'.1
  have hn : fd'.toNat = fd.toNat := by
    rw [← div_add_mod fd'.toNat hideTrackedFdWordBits,
      ← div_add_mod fd.toNat hideTrackedFdWordBits, hb]
    exact congrArg (hideTrackedFdWordBits * · + _) hw
  rw [← Int.toNat_of_nonneg hp, ← Int.toNat_of_nonneg hp', hn]

theorem isTrackedFd_iff (s : Process) (fd : Fd) : s.isTrackedFd fd ↔
    isTrackableFd fd ∧ (s.substitutedFdBits (wordIndex fd)).getLsbD
      (fd.toNat % hideTrackedFdWordBits) := by
  rw [Process.isTrackedFd, and_eq_true, bne_iff_ne, ne_eq, and_fdBit, not_eq_false]

structure Process.DiffersAt (fd : Fd) (s s' : Process) : Prop where
  tracked : ∀ fd' ≠ fd, s'.isTrackedFd fd' = s.isTrackedFd fd'
  fdMeta : ∀ fd' ≠ fd, s'.fdMeta fd' = s.fdMeta fd'
  files : ∀ fd' ≠ fd, s'.files fd' = s.files fd'

namespace Process.DiffersAt

theorem refl (fd : Fd) (s) : DiffersAt fd s s :=
  ⟨fun _ _ => rfl, fun _ _ => rfl, fun _ _ => rfl⟩

theorem trans {fd s s' s''} (h : DiffersAt fd s s') (h' : DiffersAt fd s' s'') :
    DiffersAt fd s s'' := by
  constructor
  · intro fd' hn
    rw [h'.tracked fd' hn, h.tracked fd' hn]
  · intro fd' hn
    rw [h'.fdMeta fd' hn, h.fdMeta fd' hn]
  · intro fd' hn
    rw [h'.files fd' hn, h.files fd' hn]

end Process.DiffersAt

section
variable (s : Process) (fd : Fd)

theorem differsAt_setWord (ht : isTrackableFd fd) {word}
    (hw : ∀ i, i ≠ fd.toNat % hideTrackedFdWordBits →
      word.getLsbD i = (s.substitutedFdBits (wordIndex fd)).getLsbD i) :
    Process.DiffersAt fd s (s.setWord (wordIndex fd) word) := by
  refine ⟨?_, fun _ _ => rfl, fun _ _ => rfl⟩
  intro fd' hn
  rw [Bool.eq_iff_iff, isTrackedFd_iff, isTrackedFd_iff]
  refine and_congr_right ?_
  intro ht'
  by_cases hid : wordIndex fd' = wordIndex fd
  · have hb : fd'.toNat % hideTrackedFdWordBits ≠ fd.toNat % hideTrackedFdWordBits :=
      fun hb => hn (eq_of_place ht ht' hid hb)
    simp only [Process.setWord, hid, update_self, hw _ hb]
  · simp only [Process.setWord, update_of_ne hid]

theorem differsAt_registerFd : Process.DiffersAt fd s (s.registerFd fd) := by
  unfold Process.registerFd
  split
  · exact .refl fd s
  rename_i ht
  refine differsAt_setWord s fd (by simpa using ht) ?_
  intro i hi
  rw [getLsbD_or, getLsbD_fdBit, decide_eq_false hi, Bool.or_false]

theorem differsAt_files (file) :
    Process.DiffersAt fd s { s with files := update s.files fd file } :=
  ⟨fun _ _ => rfl, fun _ _ => rfl, fun _ hn => update_of_ne hn _ _⟩

theorem differsAt_clearFdMeta : Process.DiffersAt fd s (s.clearFdMeta fd) := by
  unfold Process.clearFdMeta
  split
  · exact .refl fd s
  · exact ⟨fun _ _ => rfl, fun _ hn => update_of_ne hn _ _, fun _ _ => rfl⟩

theorem differsAt_storeFdMeta (m malloc) : Process.DiffersAt fd s (s.storeFdMeta fd m malloc) := by
  unfold Process.storeFdMeta
  split
  · exact .refl fd s
  split
  · exact differsAt_clearFdMeta s fd
  · exact ⟨fun _ _ => rfl, fun _ hn => update_of_ne hn _ _, fun _ _ => rfl⟩

theorem differsAt_unregisterFd : Process.DiffersAt fd s (s.unregisterFd fd) := by
  unfold Process.unregisterFd
  split
  · exact .refl fd s
  rename_i ht
  split
  · exact .refl fd s
  refine .trans (differsAt_setWord s fd (by simpa using ht) ?_) (differsAt_clearFdMeta _ fd)
  intro i hi
  by_cases hl : i < 64
  · rw [getLsbD_and, getLsbD_not, getLsbD_fdBit, decide_eq_false hi]
    simp [hl]
  · rw [getLsbD_of_ge _ _ (not_lt.mp hl), getLsbD_of_ge _ _
      (not_lt.mp hl)]

theorem isTrackedFd_registerFd (ht : isTrackableFd fd) : (s.registerFd fd).isTrackedFd fd := by
  rw [isTrackedFd_iff]
  refine ⟨ht, ?_⟩
  simp only [Process.registerFd, ht, Bool.not_true, false_eq_true, if_false,
    Process.setWord, update_self]
  rw [getLsbD_or, getLsbD_fdBit, decide_eq_true rfl, Bool.or_true]

theorem registerFd_fdMeta : (s.registerFd fd).fdMeta = s.fdMeta := by
  unfold Process.registerFd
  split <;> rfl

theorem registerFd_files : (s.registerFd fd).files = s.files := by
  unfold Process.registerFd
  split <;> rfl

theorem clearFdMeta_files : (s.clearFdMeta fd).files = s.files := by
  unfold Process.clearFdMeta
  split <;> rfl

theorem storeFdMeta_files (m malloc) : (s.storeFdMeta fd m malloc).files = s.files := by
  unfold Process.storeFdMeta
  split
  · rfl
  split
  · exact clearFdMeta_files s fd
  · rfl

end

/-- The tables fit together: a descriptor with a record is tracked. -/
def MetaTracked (s : Process) : Prop := ∀ fd m, s.fdMeta fd = some m → s.isTrackedFd fd

/-- A record belongs to the substitution of its descriptor, if that has one. -/
def MetaCurrent (s : Process) (fd : Fd) : Prop := ∀ m id path, s.fdMeta fd = some m →
  s.files fd = some (.memfd id path) → m.substitution = id

structure Current (s : Process) : Prop where
  tracked : MetaTracked s
  current : ∀ fd, MetaCurrent s fd

variable {fd : Fd} {fs : FileSystem} {path : Path} {s s' : Process}

section
variable (h : MetaTracked s)
include h

theorem MetaTracked.eq_none (ht : s.isTrackedFd fd = false) : s.fdMeta fd = none := by
  cases hm : s.fdMeta fd with
  | none => rfl
  | some m =>
    rw [h fd m hm] at ht
    cases ht

theorem MetaTracked.eq_none_of_not_trackable
    (ht : isTrackableFd fd = false) : s.fdMeta fd = none := by
  apply h.eq_none
  rw [Process.isTrackedFd, ht, Bool.false_and]

theorem MetaTracked.unregisterFd (fd : Fd) : (s.unregisterFd fd).fdMeta fd = none := by
  unfold Process.unregisterFd
  cases ht : isTrackableFd fd with
  | false => exact h.eq_none_of_not_trackable ht
  | true =>
    simp only [Bool.not_true, false_eq_true, if_false]
    split
    · rename_i hb
      apply h.eq_none
      rw [Process.isTrackedFd, ht, hb]
      rfl
    · simp only [Process.clearFdMeta, ht, Bool.not_true, false_eq_true, if_false, update_self]

theorem MetaTracked.clearFdMeta (fd : Fd) : (s.clearFdMeta fd).fdMeta fd = none := by
  unfold Process.clearFdMeta
  cases ht : isTrackableFd fd with
  | false => exact h.eq_none_of_not_trackable ht
  | true => exact update_self fd none s.fdMeta

theorem MetaTracked.storeFdMeta {m m'}
    {malloc} (hm : (s.storeFdMeta fd m malloc).fdMeta fd = some m') :
    isTrackableFd fd ∧ m' = m := by
  unfold Process.storeFdMeta at hm
  cases ht : isTrackableFd fd with
  | false =>
    rw [ht] at hm
    cases (h.eq_none_of_not_trackable ht).symm.trans hm
  | true =>
    rw [ht] at hm
    refine ⟨rfl, ?_⟩
    cases malloc with
    | false => cases (h.clearFdMeta fd).symm.trans hm
    | true =>
      have hs : some m = some m' := (update_self fd _ s.fdMeta).symm.trans hm
      exact (Option.some.inj hs).symm

end

def Capturable (fs : FileSystem) (path : Path) : Prop :=
  (∃ sb, fs.fstatat path = some sb) ∨ (∃ sx, fs.statx kStatxCaptureMask path = .ok sx) ∨
    (fs.statx kStatxCaptureMask path = .error einval ∧ ∃ sx, fs.statx statxAll path = .ok sx)

theorem capture_ok (h : Capturable fs path) (id) :
    ((capture fs path id).sbOk || (capture fs path id).sxOk) := by
  rw [or_eq_true]
  rcases h with ⟨sb, hsb⟩ | ⟨sx, hs⟩ | ⟨hen, sx, hs⟩
  · left
    simp only [capture, hsb, isSome_some]
  · right
    simp only [capture, captureStatx, hs, isSome_some]
  · right
    simp only [capture, captureStatx, hen, hs, if_true, Except.toOption, isSome_some]

section
variable (h : Current s)
include h

theorem Current.of_differsAt (hd : Process.DiffersAt fd s s')
    (ht : ∀ m, s'.fdMeta fd = some m → s'.isTrackedFd fd)
    (hc : MetaCurrent s' fd) : Current s' := by
  constructor
  · intro fd' m hm
    by_cases hf : fd' = fd
    · subst hf
      exact ht m hm
    rw [hd.tracked fd' hf]
    rw [hd.fdMeta fd' hf] at hm
    exact h.tracked fd' m hm
  · intro fd'
    by_cases hf : fd' = fd
    · subst hf
      exact hc
    intro m id path hm hfi
    rw [hd.fdMeta fd' hf] at hm
    rw [hd.files fd' hf] at hfi
    exact h.current fd' m id path hm hfi

theorem Current.of_none (hd : Process.DiffersAt fd s s') (hn : s'.fdMeta fd = none) :
    Current s' := by
  apply h.of_differsAt hd
  · intro m hm
    cases hn.symm.trans hm
  · intro m id path hm
    cases hn.symm.trans hm

theorem Current.unregisterFd (fd : Fd) : Current (s.unregisterFd fd) :=
  h.of_none (differsAt_unregisterFd s fd) (h.tracked.unregisterFd fd)

theorem Current.transferFd {s1 oldFd newFd}
    (hd : Process.DiffersAt newFd s s1) (ht : MetaTracked s1) (hne : oldFd ≠ newFd)
    (hf : s1.files newFd = s.files oldFd) (hp : 0 ≤ newFd) (malloc : Bool) :
    Current (s1.transferFd oldFd newFd malloc) := by
  unfold Process.transferFd
  rw [if_neg (by rintro (hn | heq); exacts [absurd hp (not_le.mpr hn), hne heq])]
  split
  · rename_i ho
    have hl : s1.loadFdMeta oldFd = s.fdMeta oldFd := by
      have htk := ((isTrackedFd_iff s1 oldFd).mp ho).1
      rw [Process.loadFdMeta, htk, Bool.not_true, if_neg nofun, hd.fdMeta oldFd hne]
    rw [hl]
    cases hm : s.fdMeta oldFd with
    | none =>
      refine h.of_none ((hd.trans (differsAt_clearFdMeta s1 newFd)).trans
        (differsAt_registerFd _ newFd)) ?_
      rw [registerFd_fdMeta]
      exact ht.clearFdMeta newFd
    | some m =>
      refine h.of_differsAt ((hd.trans (differsAt_storeFdMeta s1 newFd m malloc)).trans
        (differsAt_registerFd _ newFd)) ?_ ?_
      · intro m' hm'
        rw [registerFd_fdMeta] at hm'
        exact isTrackedFd_registerFd _ newFd (ht.storeFdMeta hm').1
      intro m' id path hm' hf'
      rw [registerFd_fdMeta] at hm'
      rw [registerFd_files, storeFdMeta_files, hf] at hf'
      rw [(ht.storeFdMeta hm').2]
      exact h.current oldFd m id path hm hf'
  · exact h.of_none (hd.trans (differsAt_unregisterFd s1 newFd)) (ht.unregisterFd newFd)

theorem Current.createEncodedMemfd
    (hc : Capturable fs (canonicalizeProcPath fs path) ∨ s.fdMeta fd = none) (malloc) :
    Current (createEncodedMemfd s fs path (.ok fd) malloc).1 := by
  unfold CustomRomHide.createEncodedMemfd
  generalize canonicalizeProcPath fs path = path at *
  dsimp only
  split
  · exact h
  generalize hs1 : ({ s with files := update s.files fd (some (.memfd s.created path)),
                             created := s.created + 1 } : Process) = s1
  have hd : Process.DiffersAt fd s s1 := by
    subst hs1
    exact ⟨fun _ _ => rfl, fun _ _ => rfl, fun _ hn => update_of_ne hn _ _⟩
  have ht : MetaTracked s1 := by
    subst hs1
    exact h.tracked
  have hm1 : s1.fdMeta = s.fdMeta := by rw [← hs1]
  have hfi : s1.files fd = some (.memfd s.created path) := by
    subst hs1
    exact update_self ..
  split
  · refine h.of_differsAt ((hd.trans (differsAt_storeFdMeta s1 fd _ malloc)).trans
      (differsAt_registerFd _ fd)) ?_ ?_
    · intro m hm
      rw [registerFd_fdMeta] at hm
      exact isTrackedFd_registerFd _ fd (ht.storeFdMeta hm).1
    · intro m id path' hm hfi'
      rw [registerFd_fdMeta] at hm
      rw [registerFd_files, storeFdMeta_files, hfi] at hfi'
      cases hfi'
      rw [(ht.storeFdMeta hm).2]
      rfl
  · rename_i hf
    rcases hc with hcp | hno
    · exact absurd (capture_ok hcp s.created) hf
    · refine h.of_none (hd.trans (differsAt_registerFd s1 fd)) ?_
      rw [registerFd_fdMeta, hm1, hno]

end

theorem resolveEncodedMemfdPath_cases (s fs) (fd : Fd) (outSize) :
    resolveEncodedMemfdPath s fs fd outSize = (s, none) ∨
      resolveEncodedMemfdPath s fs fd outSize = (s.unregisterFd fd, none) ∨
      ∃ path, resolveEncodedMemfdPath s fs fd outSize = (s, some path) := by
  unfold resolveEncodedMemfdPath
  split
  · exact .inl rfl
  split
  · exact .inl rfl
  split
  · exact .inr (.inl rfl)
  · exact .inr (.inr ⟨_, rfl⟩)

section
variable {α : Type} (live : Path → Option α) (ok : FdMeta → Bool) (directory : Bool) (devMajor : ℕ)
  (s : Process) (fs : FileSystem) (isAppProcess : Bool) (fd : Fd)

theorem spoofFd_state : (spoofFd live ok directory devMajor s fs isAppProcess fd).1 = s ∨
    (spoofFd live ok directory devMajor s fs isAppProcess fd).1 = s.unregisterFd fd := by
  unfold spoofFd
  split
  · exact .inl rfl
  split
  · rcases resolveEncodedMemfdPath_cases s fs fd 512 with hr | hr | ⟨path, hr⟩ <;> rw [hr]
    · exact .inl rfl
    · exact .inr rfl
    · left
      dsimp only
      split
      · rfl
      · split <;> rfl
  · exact .inl rfl

theorem Current.spoofFd (h : Current s) :
    Current (spoofFd live ok directory devMajor s fs isAppProcess fd).1 := by
  rcases spoofFd_state live ok directory devMajor s fs isAppProcess fd with hs | hs <;> rw [hs]
  · exact h
  · exact h.unregisterFd fd

theorem spoofFd_captured {m}
    (h : (spoofFd live ok directory devMajor s fs isAppProcess fd).2 = .captured m) :
    s.fdMeta fd = some m := by
  unfold spoofFd at h
  split at h
  · cases h
  split at h
  · rename_i ht
    rcases resolveEncodedMemfdPath_cases s fs fd 512 with hr | hr | ⟨path, hr⟩ <;> rw [hr] at h
    · cases h
    · cases h
    · dsimp only at h
      split at h
      · cases h
      split at h
      · rename_i m' hl
        have hm : m' = m := by
          split at h
          · exact Answer.captured.inj h
          · cases h
        rw [Process.loadFdMeta, ((isTrackedFd_iff s fd).mp ht).1] at hl
        rw [← hm]
        exact hl
      · cases h
  · unfold partitionAnswer at h
    split at h
    · split at h <;> cases h
    · cases h

end

/-- No substitution is created with nothing captured on a number that still has a record, and none
comes by itself to a number with the record of another. -/
def Careful (s : Process) : Op → Prop
  | .create path (.ok fd) fs _ =>
    Capturable fs (canonicalizeProcPath fs path) ∨ s.fdMeta fd = none
  | .rawOpen fd file => ∀ m id path, s.fdMeta fd = some m → file = .memfd id path →
    m.substitution = id
  | _ => True

def AllCareful (s : Process) : List Op → Prop
  | [] => True
  | op :: ops => Careful s op ∧ ∀ s', s.step op = some s' → AllCareful s' ops

theorem Current.initial : Current .initial := by
  constructor
  · intro fd m hm
    cases hm
  · intro fd m id path hm
    cases hm

theorem Current.step {op} (h : Current s) (hc : Careful s op)
    (hs : s.step op = some s') : Current s' := by
  cases op with
  | create path result fs malloc =>
    cases result with
    | error e =>
      cases hs
      unfold CustomRomHide.createEncodedMemfd
      dsimp only
      split <;> exact h
    | ok fd =>
      simp only [Process.step] at hs
      split at hs
      · cases hs
        exact h.createEncodedMemfd hc malloc
      · cases hs
  | unregister fd =>
    cases hs
    exact h.unregisterFd fd
  | close fd =>
    cases hs
    exact (h.unregisterFd fd).of_none (differsAt_files _ fd none) (h.tracked.unregisterFd fd)
  | dup oldFd newFd malloc =>
    have hf : ∀ fd, s.transferFd fd (-1) malloc = s := fun fd => if_pos (.inl (by decide))
    simp only [Process.step, hf] at hs
    split at hs
    · cases hs
      exact h
    rename_i file hfi
    split at hs
    · cases hs
      exact h
    rename_i hn
    cases hs
    by_cases heq : oldFd = newFd
    · rw [Process.transferFd, if_pos (.inr heq), ← hfi, heq, update_eq_self]
      exact h
    · exact h.transferFd (differsAt_files s newFd (some file)) h.tracked heq
        ((update_self ..).trans hfi.symm) (not_lt.mp hn) malloc
  | fstat fs isAppProcess fd sb | statx fs isAppProcess fd mask sx =>
    cases hs
    exact Current.spoofFd _ _ _ _ s fs isAppProcess fd h
  | rawClose fd =>
    cases hs
    refine h.of_differsAt (differsAt_files s fd none) (h.tracked fd) ?_
    intro m id path _ hfi
    cases (update_self fd none s.files).symm.trans hfi
  | rawOpen fd file =>
    simp only [Process.step] at hs
    split at hs
    · cases hs
      refine h.of_differsAt (differsAt_files s fd (some file)) (h.tracked fd) ?_
      intro m id path hm hfi
      have ho := (update_self fd (some file) s.files).symm.trans hfi
      exact hc m id path hm (Option.some.inj ho)
    · cases hs

theorem Current.run {ops} (h : Current s) (hc : AllCareful s ops)
    (hr : s.run ops = some s') : Current s' := by
  induction ops generalizing s with
  | nil =>
    cases hr
    exact h
  | cons op ops ih =>
    obtain ⟨s1, hs, hrs⟩ := Option.bind_eq_some_iff.mp hr
    exact ih (h.step hc.1 hs) (hc.2 s1 hs) hrs

/-- In a run of careful steps, a captured record that `fstat` or `statx` of a substituted descriptor
shows was captured for the substitution that the descriptor refers to. -/
theorem captured_is_current {ops : List Op} {s : Process}
    (hrun : Process.initial.run ops = some s) (hcareful : AllCareful .initial ops) {fd : Fd}
    {id : ℕ} {path : Path} (hfile : s.files fd = some (.memfd id path)) (fs : FileSystem)
    (isAppProcess : Bool) :
    (∀ sb m, (customRomHideSpoofFdStat s fs isAppProcess fd sb).2 = .captured m →
      m.substitution = id) ∧
    ∀ mask sx m, (customRomHideSpoofFdStatx s fs isAppProcess fd mask sx).2 = .captured m →
      m.substitution = id := by
  have hc := Current.initial.run hcareful hrun
  constructor
  · intro sb m ha
    exact hc.current fd m id path (spoofFd_captured _ _ _ _ s fs _ fd ha) hfile
  · intro mask sx m ha
    exact hc.current fd m id path (spoofFd_captured _ _ _ _ s fs _ fd ha) hfile

def procOf (tasks : List (Path × ℕ)) : FileSystem where
  resolve := some
  fstatat path := (tasks.lookup path).map fun n => ⟨0o100444, 0, 0, n⟩
  statx _ path := match tasks.lookup path with
    | some n => .ok ⟨0o100444, 0, 0, n⟩
    | none => .error 2
  proc := true

def firstMaps : Path := "/proc/self/task/7/maps".toList

def secondMaps : Path := "/proc/self/task/8/maps".toList

def reuse (second : FileSystem) : List Op :=
  [.create firstMaps (.ok 3) (procOf [(firstMaps, 7)]) true, .rawClose 3,
    .create secondMaps (.ok 3) second true]

theorem captured_is_current_reuse :
    (∃ s, Process.initial.run (reuse (procOf [(secondMaps, 8)])) = some s ∧
      s.files 3 = some (.memfd 1 secondMaps) ∧
      (customRomHideSpoofFdStat s (procOf []) true 3 ⟨0, 0, 0, 0⟩).2 =
        .captured ⟨⟨0o100444, 0, 0, 8⟩, ⟨0o100444, 0, 0, 8⟩, true, true, 1⟩) ∧
    ∀ s, Process.initial.run (reuse (procOf [(secondMaps, 8)])) = some s →
      s.files 3 = some (.memfd 1 secondMaps) → ∀ sb m,
      (customRomHideSpoofFdStat s (procOf []) true 3 sb).2 = .captured m → m.substitution = 1 := by
  refine ⟨⟨_, rfl, by decide +kernel, by decide +kernel⟩, ?_⟩
  intro s hr hf sb m ha
  refine (captured_is_current hr ?_ hf (procOf []) true).1 sb m ha
  refine ⟨.inr rfl, fun s1 _ => ⟨trivial, fun s2 _ => ⟨.inl (.inl ⟨_, rfl⟩), fun _ _ => trivial⟩⟩⟩

/-- The task is gone when its file is captured: what is shown later is the record of the file that
had the number before. -/
theorem captured_is_stale :
    ∃ s, Process.initial.run (reuse (procOf [])) = some s ∧ s.files 3 = some (.memfd 1 secondMaps) ∧
      (customRomHideSpoofFdStat s (procOf []) true 3 ⟨0, 0, 0, 0⟩).2 =
        .captured ⟨⟨0o100444, 0, 0, 7⟩, ⟨0o100444, 0, 0, 7⟩, true, true, 0⟩ :=
  ⟨_, rfl, by decide +kernel, by decide +kernel⟩

end CustomRomHide
