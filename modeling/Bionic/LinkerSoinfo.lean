import Mathlib

/-! The objects the dynamic linker keeps: soinfos with their links and local groups, namespaces with
their soinfo lists, and the global solist. Addresses of soinfos are numbers; memory that is no
soinfo reads as zeroes, since a freed block is cleared. `none` stands for an aborted process. -/
namespace LinkerSoinfo

open List

abbrev SoinfoId := ℕ
abbrev NamespaceId := ℕ
abbrev Name := List Char

structure RtldFlags where
  global : Bool := false
  nodelete : Bool := false
  noload : Bool := false
  deriving DecidableEq

structure DtFlags1 where
  global : Bool := false
  nodelete : Bool := false
  deriving DecidableEq

/-- `prelinked`, `imageLinked`, `linked` and `exe` are bits of `flags_`. -/
structure Soinfo where
  realpath : Name
  soname : Name
  stDev : ℕ
  stIno : ℕ
  fileOffset : ℤ
  rtldFlags : RtldFlags
  dtFlags1 : DtFlags1
  prelinked : Bool
  imageLinked : Bool
  linked : Bool
  exe : Bool
  children : List SoinfoId
  parents : List SoinfoId
  localGroupRoot : Option SoinfoId
  refCount : ℕ
  primaryNamespace : NamespaceId
  secondaryNamespaces : List NamespaceId
  dtRunpath : List Name
  /-- The flags of the dynamic section are among those of the library. -/
  told : (dtFlags1.global → rtldFlags.global) ∧ (dtFlags1.nodelete → rtldFlags.nodelete)
  deriving DecidableEq

def Soinfo.zero : Soinfo where
  realpath := []
  soname := []
  stDev := 0
  stIno := 0
  fileOffset := 0
  rtldFlags := {}
  dtFlags1 := {}
  prelinked := false
  imageLinked := false
  linked := false
  exe := false
  children := []
  parents := []
  localGroupRoot := none
  refCount := 0
  primaryNamespace := 0
  secondaryNamespaces := []
  dtRunpath := []
  told := by decide

theorem Soinfo.zero_told (flags : RtldFlags) :
    (zero.dtFlags1.global → flags.global) ∧ (zero.dtFlags1.nodelete → flags.nodelete) := by
  simp [zero]

structure NamespaceLink where
  linkedNamespace : NamespaceId
  sharedLibSonames : List Name
  allowAllSharedLibs : Bool
  deriving DecidableEq

def NamespaceLink.isAccessible (link : NamespaceLink) (soname : Name) : Bool :=
  link.allowAllSharedLibs || link.sharedLibSonames.contains soname

structure Namespace where
  isIsolated : Bool
  isExemptListEnabled : Bool
  ldLibraryPaths : List Name
  defaultLibraryPaths : List Name
  permittedPaths : List Name
  allowedLibs : List Name
  linkedNamespaces : List NamespaceLink
  soinfoList : List SoinfoId
  deriving DecidableEq

/-- `unloaded` records the unloads reported to the debugger. -/
structure Linker where
  soinfo : SoinfoId → Soinfo
  solist : List SoinfoId
  namespaces : NamespaceId → Namespace
  unloaded : List SoinfoId

def Linker.modify (s : Linker) (a : SoinfoId) (f : Soinfo → Soinfo) : Linker :=
  { s with soinfo := fun x => if x = a then f (s.soinfo x) else s.soinfo x }

def Linker.modifyNs (s : Linker) (ns : NamespaceId) (f : Namespace → Namespace) : Linker :=
  { s with namespaces := fun x => if x = ns then f (s.namespaces x) else s.namespaces x }

section
variable (s : Linker) (a x : SoinfoId) (ns n : NamespaceId) (f : Soinfo → Soinfo)
  (g : Namespace → Namespace)

@[simp] theorem modify_solist : (s.modify a f).solist = s.solist := rfl
@[simp] theorem modify_namespaces : (s.modify a f).namespaces = s.namespaces := rfl
@[simp] theorem modify_unloaded : (s.modify a f).unloaded = s.unloaded := rfl
@[simp] theorem modify_soinfo_self : (s.modify a f).soinfo a = f (s.soinfo a) := by
  simp [Linker.modify]
theorem modify_soinfo_of_ne (h : x ≠ a) : (s.modify a f).soinfo x = s.soinfo x := by
  simp [Linker.modify, h]
theorem modify_modify (h : Soinfo → Soinfo) : (s.modify a f).modify a h = s.modify a (h ∘ f) := by
  simp only [Linker.modify]
  congr 1
  funext y
  by_cases hy : y = a <;> simp [hy]
@[simp] theorem modifyNs_solist : (s.modifyNs ns g).solist = s.solist := rfl
@[simp] theorem modifyNs_soinfo : (s.modifyNs ns g).soinfo = s.soinfo := rfl
@[simp] theorem modifyNs_unloaded : (s.modifyNs ns g).unloaded = s.unloaded := rfl
@[simp] theorem modifyNs_namespaces_self :
    (s.modifyNs ns g).namespaces ns = g (s.namespaces ns) := by
  simp [Linker.modifyNs]
theorem modifyNs_namespaces_of_ne (h : n ≠ ns) :
    (s.modifyNs ns g).namespaces n = s.namespaces n := by
  simp [Linker.modifyNs, h]

end

/-- `LinkedList::remove`: every occurrence goes. -/
def remove (l : List SoinfoId) (a : SoinfoId) : List SoinfoId := l.filter fun x => x ≠ a

def Linker.addSoinfo (s : Linker) (ns : NamespaceId) (si : SoinfoId) : Linker :=
  s.modifyNs ns fun n => { n with soinfoList := n.soinfoList ++ [si] }

def Linker.removeSoinfo (s : Linker) (ns : NamespaceId) (si : SoinfoId) : Linker :=
  s.modifyNs ns fun n => { n with soinfoList := remove n.soinfoList si }

def Linker.addChild (s : Linker) (si child : SoinfoId) : Linker :=
  (s.modify child fun c => { c with parents := c.parents ++ [si] }).modify si
    fun p => { p with children := p.children ++ [child] }

def Linker.addSecondaryNamespace (s : Linker) (si : SoinfoId) (ns : NamespaceId) : Linker :=
  s.modify si fun x => { x with secondaryNamespaces := x.secondaryNamespaces ++ [ns] }

def Soinfo.setDtFlags1 (si : Soinfo) (flags : DtFlags1) : Soinfo :=
  { si with
    rtldFlags :=
      { si.rtldFlags with
        global := si.rtldFlags.global || flags.global
        nodelete := si.rtldFlags.nodelete || flags.nodelete }
    dtFlags1 := flags
    told := by simp +contextual }

def Soinfo.setLocalGroupRoot (root : SoinfoId) (si : Soinfo) : Soinfo :=
  { si with localGroupRoot := some root }

def Soinfo.setImageLinked (si : Soinfo) : Soinfo := { si with imageLinked := true }

def Soinfo.setLinked (si : Soinfo) : Soinfo := { si with linked := true }

def Soinfo.setRefCount (n : ℕ) (si : Soinfo) : Soinfo := { si with refCount := n }

def Soinfo.canUnload (si : Soinfo) : Bool :=
  !si.linked || !(si.rtldFlags.nodelete || si.rtldFlags.global)

def Linker.incrementRefCount (s : Linker) (si : SoinfoId) : Option Linker :=
  (s.soinfo si).localGroupRoot.map fun r =>
    s.modify r (Soinfo.setRefCount ((s.soinfo r).refCount + 1))

def Linker.decrementRefCount (s : Linker) (si : SoinfoId) : Option (Linker × ℕ) :=
  (s.soinfo si).localGroupRoot.map fun r =>
    let n := if (s.soinfo r).refCount = 0 then 2 ^ 64 - 1 else (s.soinfo r).refCount - 1
    (s.modify r (Soinfo.setRefCount n), n)

def solistRemoveSoinfo : List SoinfoId → SoinfoId → Option (List SoinfoId)
  | head :: second :: rest, si =>
    if si = head ∨ si = second then none
    else if si ∈ rest then some (head :: second :: rest.erase si) else none
  | _, _ => none

def Soinfo.dropParent (p : SoinfoId) (x : Soinfo) : Soinfo :=
  { x with parents := remove x.parents p }

def Soinfo.dropChild (c : SoinfoId) (x : Soinfo) : Soinfo :=
  { x with children := remove x.children c }

def Linker.removeParent (s : Linker) (si : SoinfoId) (children : List SoinfoId) : Linker :=
  children.foldl (fun s child => s.modify child (Soinfo.dropParent si)) s

def Linker.removeChild (s : Linker) (si : SoinfoId) (parents : List SoinfoId) : Linker :=
  parents.foldl (fun s parent => s.modify parent (Soinfo.dropChild si)) s

def Linker.leaveNamespaces (s : Linker) (si : SoinfoId) (l : List NamespaceId) : Linker :=
  l.foldl (fun s ns => s.removeSoinfo ns si) s

def Linker.removeAllLinks (s : Linker) (si : SoinfoId) : Linker :=
  let s₁ := s.removeParent si (s.soinfo si).children
  let s₂ := s₁.removeChild si (s₁.soinfo si).parents
  let s₃ := s₂.leaveNamespaces si
    ((s₂.soinfo si).primaryNamespace :: (s₂.soinfo si).secondaryNamespaces)
  s₃.modify si fun x =>
    { x with parents := [], children := [], secondaryNamespaces := [], primaryNamespace := 0 }

def Linker.soinfoFree (s : Linker) (si : SoinfoId) : Option Linker :=
  (solistRemoveSoinfo s.solist si).map fun solist =>
    (({ s with solist := solist }).removeAllLinks si).modify si fun _ => Soinfo.zero

structure FileStat where
  stDev : ℕ
  stIno : ℕ
  stSize : ℕ
  deriving DecidableEq

def Linker.soinfoAlloc (s : Linker) (a : SoinfoId) (ns : NamespaceId) (realpath : Name)
    (stat : FileStat) (fileOffset : ℤ) (flags : RtldFlags) : Linker :=
  let s₁ := s.modify a fun _ =>
    { Soinfo.zero with
      realpath := realpath, stDev := stat.stDev, stIno := stat.stIno
      fileOffset := fileOffset, rtldFlags := flags, primaryNamespace := ns
      told := Soinfo.zero_told flags }
  ({ s₁ with solist := s₁.solist ++ [a] }).addSoinfo ns a

/-- Symbols of `si` are visible to lookups from `ns`: it is a primary or secondary member, or a
direct parent is a primary one. -/
def Linker.isAccessible (s : Linker) (ns : NamespaceId) (si : SoinfoId) : Bool :=
  (s.soinfo si).primaryNamespace == ns || (s.soinfo si).secondaryNamespaces.contains ns ||
    (s.soinfo si).parents.any fun p => (s.soinfo p).primaryNamespace == ns

variable {l : List SoinfoId}

theorem mem_remove {a x} : x ∈ remove l a ↔ x ∈ l ∧ x ≠ a := by
  simp [remove]

@[simp] theorem remove_remove (l) (a : SoinfoId) : remove (remove l a) a = remove l a := by
  simp [remove, filter_filter]

theorem remove_eq_self {a} (h : a ∉ l) : remove l a = l := by
  apply List.filter_eq_self.mpr
  intro x hx
  simpa using fun hxa : x = a => h (hxa ▸ hx)

theorem foldl_preserves {α β : Type} (g : Linker → β) (f : Linker → α → Linker)
    (step : ∀ s a, g (f s a) = g s) (l : List α) (s) : g (l.foldl f s) = g s := by
  induction l generalizing s with
  | nil => rfl
  | cons a l ih => exact (ih (f s a)).trans (step s a)

section
variable (s : Linker) (si x : SoinfoId) (l : List SoinfoId)

theorem foldl_modify_soinfo {f} (hf : ∀ v, f (f v) = f v) :
    (l.foldl (fun s c => s.modify c f) s).soinfo x =
      if x ∈ l then f (s.soinfo x) else s.soinfo x := by
  induction l generalizing s with
  | nil => rfl
  | cons c l ih =>
    refine (ih (s.modify c f)).trans ?_
    by_cases hc : x = c
    · subst hc
      by_cases hl : x ∈ l <;> simp [hl, hf]
    · by_cases hl : x ∈ l <;> simp [hl, hc, modify_soinfo_of_ne]

@[simp] theorem removeParent_solist : (s.removeParent si l).solist = s.solist := by
  apply foldl_preserves Linker.solist
  intro _ _; rfl

@[simp] theorem removeParent_namespaces : (s.removeParent si l).namespaces = s.namespaces := by
  apply foldl_preserves Linker.namespaces
  intro _ _; rfl

@[simp] theorem removeParent_unloaded : (s.removeParent si l).unloaded = s.unloaded := by
  apply foldl_preserves Linker.unloaded
  intro _ _; rfl

theorem removeParent_soinfo : (s.removeParent si l).soinfo x =
    if x ∈ l then (s.soinfo x).dropParent si else s.soinfo x :=
  foldl_modify_soinfo s x l fun v => by simp [Soinfo.dropParent]

@[simp] theorem removeChild_solist : (s.removeChild si l).solist = s.solist := by
  apply foldl_preserves Linker.solist
  intro _ _; rfl

@[simp] theorem removeChild_namespaces : (s.removeChild si l).namespaces = s.namespaces := by
  apply foldl_preserves Linker.namespaces
  intro _ _; rfl

@[simp] theorem removeChild_unloaded : (s.removeChild si l).unloaded = s.unloaded := by
  apply foldl_preserves Linker.unloaded
  intro _ _; rfl

theorem removeChild_soinfo : (s.removeChild si l).soinfo x =
    if x ∈ l then (s.soinfo x).dropChild si else s.soinfo x :=
  foldl_modify_soinfo s x l fun v => by simp [Soinfo.dropChild]

end

section
variable (s : Linker) (si : SoinfoId) (n : NamespaceId) (l : List NamespaceId)

@[simp] theorem leaveNamespaces_solist : (s.leaveNamespaces si l).solist = s.solist := by
  apply foldl_preserves Linker.solist
  intro _ _; rfl

@[simp] theorem leaveNamespaces_soinfo : (s.leaveNamespaces si l).soinfo = s.soinfo := by
  apply foldl_preserves Linker.soinfo
  intro _ _; rfl

@[simp] theorem leaveNamespaces_unloaded : (s.leaveNamespaces si l).unloaded = s.unloaded := by
  apply foldl_preserves Linker.unloaded
  intro _ _; rfl

theorem leaveNamespaces_namespaces : (s.leaveNamespaces si l).namespaces n =
    if n ∈ l then { s.namespaces n with soinfoList := remove (s.namespaces n).soinfoList si }
    else s.namespaces n := by
  induction l generalizing s with
  | nil => rfl
  | cons c l ih =>
    refine (ih (s.removeSoinfo c si)).trans ?_
    by_cases hc : n = c
    · subst hc
      by_cases hl : n ∈ l <;> simp [hl, Linker.removeSoinfo]
    · by_cases hl : n ∈ l <;> simp [hl, hc, Linker.removeSoinfo, modifyNs_namespaces_of_ne]

end

/-- The list begins with the executable and the linker, child and parent links mirror each other,
only live objects have links, and the members of a namespace know that they are. -/
structure Wf (s : Linker) : Prop where
  first : ∃ exe linker rest, s.solist = exe :: linker :: rest
  nodup : s.solist.Nodup
  mirrored : ∀ x y, (s.soinfo x).children.count y = (s.soinfo y).parents.count x
  live : ∀ x y, y ∈ (s.soinfo x).children → x ∈ s.solist ∧ y ∈ s.solist
  members : ∀ n, ∀ x ∈ (s.namespaces n).soinfoList, x ∈ s.solist ∧
    (n = (s.soinfo x).primaryNamespace ∨ n ∈ (s.soinfo x).secondaryNamespaces)

variable {s t : Linker} {f : Soinfo → Soinfo} {si x : SoinfoId}

theorem Wf.child_iff (wf : Wf s) {y} : y ∈ (s.soinfo x).children ↔ x ∈ (s.soinfo y).parents := by
  rw [← count_pos_iff, ← count_pos_iff, wf.mirrored]

/-- All but the executable and the linker. -/
def Removable (s : Linker) (si : SoinfoId) : Prop := si ∈ s.solist.drop 2

theorem Removable.ne_first (wf : Wf s) {exe linker}
    {rest} (hs : s.solist = exe :: linker :: rest) (h : Removable s si) :
    exe ≠ si ∧ linker ≠ si := by
  have hn := wf.nodup
  rw [hs] at hn
  have hm : si ∈ rest := by simpa [Removable, hs] using h
  constructor
  · rintro rfl
    exact (List.nodup_cons.mp hn).1 (mem_cons_of_mem _ hm)
  · rintro rfl
    exact (List.nodup_cons.mp (List.nodup_cons.mp hn).2).1 hm

theorem solistRemoveSoinfo_spec {m} (hl : l.Nodup)
    (h : solistRemoveSoinfo l si = some m) : si ∈ l.drop 2 ∧ m = remove l si := by
  match l with
  | [] => cases h
  | [_] => cases h
  | head :: second :: rest =>
    simp only [solistRemoveSoinfo] at h
    split at h
    · cases h
    rename_i hn
    split at h
    · rename_i hm
      cases h
      obtain ⟨h1, h2⟩ := not_or.mp hn
      have hr : rest.Nodup := (List.nodup_cons.mp (List.nodup_cons.mp hl).2).2
      have hea : rest.erase si = remove rest si := by
        rw [hr.erase_eq_filter]
        apply filter_congr
        intro x _
        by_cases hx : x = si <;> simp [hx]
      refine ⟨by simpa using hm, ?_⟩
      rw [hea]
      simp [remove, Ne.symm h1, Ne.symm h2]
    · cases h

theorem solistRemoveSoinfo_isSome (hl : l.Nodup)
    (h : si ∈ l.drop 2) : ∃ m, solistRemoveSoinfo l si = some m := by
  match l with
  | [] => cases h
  | [_] => cases h
  | head :: second :: rest =>
    have hm : si ∈ rest := by simpa using h
    have h1 : si ≠ head := by
      rintro rfl
      exact (List.nodup_cons.mp hl).1 (mem_cons_of_mem _ hm)
    have h2 : si ≠ second := by
      rintro rfl
      exact (List.nodup_cons.mp (List.nodup_cons.mp hl).2).1 hm
    refine ⟨head :: second :: rest.erase si, ?_⟩
    simp [solistRemoveSoinfo, h1, h2, hm]

/-- `si` is gone from the list, from every namespace and every link. -/
structure Freed (s t : Linker) (si : SoinfoId) : Prop where
  solist : t.solist = remove s.solist si
  unloaded : t.unloaded = s.unloaded
  cleared : t.soinfo si = Soinfo.zero
  others : ∀ x ≠ si, t.soinfo x =
    { s.soinfo x with
      children := remove (s.soinfo x).children si, parents := remove (s.soinfo x).parents si }
  namespaces : ∀ n, t.namespaces n =
    { s.namespaces n with soinfoList := remove (s.namespaces n).soinfoList si }

theorem removeAllLinks_others (hx : x ≠ si)
    (hl : ∀ y z, z ∈ (s.soinfo y).children ↔ y ∈ (s.soinfo z).parents) :
    (s.removeAllLinks si).soinfo x = { s.soinfo x with
        children := remove (s.soinfo x).children si
        parents := remove (s.soinfo x).parents si } := by
  have hp : x ∉ (s.soinfo si).children → remove (s.soinfo x).parents si = (s.soinfo x).parents :=
    fun h => remove_eq_self fun hm => h ((hl _ _).mpr hm)
  have hc : x ∉ (s.soinfo si).parents → remove (s.soinfo x).children si = (s.soinfo x).children :=
    fun h => remove_eq_self fun hm => h ((hl _ _).mp hm)
  have hs : ∀ l, x ∈ remove l si ↔ x ∈ l := fun l => by simp [mem_remove, hx]
  unfold Linker.removeAllLinks
  simp only [modify_soinfo_of_ne _ _ _ _ hx, leaveNamespaces_soinfo, removeChild_soinfo,
    removeParent_soinfo]
  by_cases hci : x ∈ (s.soinfo si).children <;> by_cases hpr : x ∈ (s.soinfo si).parents <;>
    by_cases hlp : si ∈ (s.soinfo si).children <;>
    simp [hci, hpr, hlp, hs, hp, hc, Soinfo.dropParent, Soinfo.dropChild]

theorem removeAllLinks_namespaces {n} (hm : si ∈ (s.namespaces n).soinfoList →
      n = (s.soinfo si).primaryNamespace ∨ n ∈ (s.soinfo si).secondaryNamespaces) :
    (s.removeAllLinks si).namespaces n =
      { s.namespaces n with soinfoList := remove (s.namespaces n).soinfoList si } := by
  have hns : ((s.removeParent si (s.soinfo si).children).removeChild si
        ((s.removeParent si (s.soinfo si).children).soinfo si).parents).namespaces n =
      s.namespaces n := by
    rw [removeChild_namespaces, removeParent_namespaces]
  unfold Linker.removeAllLinks
  simp only [modify_namespaces, leaveNamespaces_namespaces, hns]
  split
  · rfl
  rename_i hn
  have ho : si ∉ (s.namespaces n).soinfoList := by
    intro hmm
    refine hn (List.mem_cons.mpr ((hm hmm).imp ?_ ?_)) <;>
    · intro h
      simp only [removeChild_soinfo, removeParent_soinfo]
      split <;> split <;> exact h
  rw [remove_eq_self ho]

@[simp] theorem removeAllLinks_solist (s : Linker) (si : SoinfoId) :
    (s.removeAllLinks si).solist = s.solist := by
  simp [Linker.removeAllLinks]

@[simp] theorem removeAllLinks_unloaded (s : Linker) (si : SoinfoId) :
    (s.removeAllLinks si).unloaded = s.unloaded := by
  simp [Linker.removeAllLinks]

theorem soinfoFree_spec (wf : Wf s)
    (h : s.soinfoFree si = some t) : Removable s si ∧ Freed s t si := by
  obtain ⟨solist, hs, rfl⟩ := Option.map_eq_some_iff.mp h
  obtain ⟨hm, rfl⟩ := solistRemoveSoinfo_spec wf.nodup hs
  refine ⟨hm, by simp, by simp, by simp, ?_, ?_⟩
  · intro x hx
    rw [modify_soinfo_of_ne _ _ _ _ hx]
    exact removeAllLinks_others hx fun _ _ => wf.child_iff
  · intro n
    rw [modify_namespaces]
    exact removeAllLinks_namespaces fun hm => (wf.members n si hm).2

theorem soinfoFree_isSome (wf : Wf s) (h : Removable s si) : ∃ t, s.soinfoFree si = some t := by
  obtain ⟨m, hm⟩ := solistRemoveSoinfo_isSome wf.nodup h
  exact ⟨_, Option.map_eq_some_iff.mpr ⟨m, hm, rfl⟩⟩

theorem count_remove (l) (a x : SoinfoId) :
    (remove l a).count x = if x = a then 0 else l.count x := by
  by_cases hx : x = a
  · subst hx
    simp [count_eq_zero, mem_remove]
  · simp [remove, count_filter, hx]

theorem Freed.wf (wf : Wf s) (hr : Removable s si) (h : Freed s t si) : Wf t := by
  constructor
  · obtain ⟨exe, linker, rest, hs⟩ := wf.first
    obtain ⟨h1, h2⟩ := hr.ne_first wf hs
    exact ⟨exe, linker, remove rest si, by rw [h.solist, hs]; simp [remove, h1, h2]⟩
  · rw [h.solist]
    exact wf.nodup.filter _
  · intro x y
    by_cases hx : x = si
    · subst hx
      rw [h.cleared]
      by_cases hy : y = x
      · subst hy; rw [h.cleared]; rfl
      · rw [h.others y hy]
        simp [Soinfo.zero, count_remove]
    rw [h.others x hx]
    by_cases hy : y = si
    · subst hy
      rw [h.cleared]
      simp [Soinfo.zero, count_remove]
    · rw [h.others y hy]
      simp [count_remove, hx, hy, wf.mirrored x y]
  · intro x y hy
    have hx : x ≠ si := by
      rintro rfl
      rw [h.cleared] at hy
      cases hy
    rw [h.others x hx] at hy
    obtain ⟨hy, hn⟩ := mem_remove.mp hy
    obtain ⟨hl, hly⟩ := wf.live x y hy
    rw [h.solist]
    exact ⟨mem_remove.mpr ⟨hl, hx⟩, mem_remove.mpr ⟨hly, hn⟩⟩
  · intro n x hx
    rw [h.namespaces n] at hx
    obtain ⟨hx, hn⟩ := mem_remove.mp hx
    obtain ⟨hlv, hns⟩ := wf.members n x hx
    rw [h.solist, h.others x hn]
    exact ⟨mem_remove.mpr ⟨hlv, hn⟩, hns⟩

/-- Leaves the links and the namespaces of a soinfo alone. -/
structure KeepsLinks (f : Soinfo → Soinfo) : Prop where
  children : ∀ x, (f x).children = x.children
  parents : ∀ x, (f x).parents = x.parents
  primary : ∀ x, (f x).primaryNamespace = x.primaryNamespace
  secondary : ∀ x, (f x).secondaryNamespaces = x.secondaryNamespaces

theorem setLocalGroupRoot_keepsLinks (r : SoinfoId) : KeepsLinks (Soinfo.setLocalGroupRoot r) :=
  ⟨fun _ => rfl, fun _ => rfl, fun _ => rfl, fun _ => rfl⟩

theorem setImageLinked_keepsLinks : KeepsLinks Soinfo.setImageLinked :=
  ⟨fun _ => rfl, fun _ => rfl, fun _ => rfl, fun _ => rfl⟩

theorem setLinked_keepsLinks : KeepsLinks Soinfo.setLinked :=
  ⟨fun _ => rfl, fun _ => rfl, fun _ => rfl, fun _ => rfl⟩

theorem setRefCount_keepsLinks (n) : KeepsLinks (Soinfo.setRefCount n) :=
  ⟨fun _ => rfl, fun _ => rfl, fun _ => rfl, fun _ => rfl⟩

theorem modify_keeps (s : Linker) {β : Type} (g : Soinfo → β)
    (h : ∀ x, g (f x) = g x) (a x : SoinfoId) : g ((s.modify a f).soinfo x) = g (s.soinfo x) := by
  by_cases hx : x = a
  · subst hx; rw [modify_soinfo_self, h]
  · rw [modify_soinfo_of_ne _ _ _ _ hx]

theorem KeepsLinks.wf (hf : KeepsLinks f) (wf : Wf s) (a : SoinfoId) : Wf (s.modify a f) := by
  refine ⟨wf.first, wf.nodup, ?_, ?_, ?_⟩
  · intro x y
    rw [modify_keeps s Soinfo.children hf.children, modify_keeps s Soinfo.parents hf.parents]
    exact wf.mirrored x y
  · intro x y hy
    rw [modify_keeps s Soinfo.children hf.children] at hy
    exact wf.live x y hy
  intro n x hx
  rw [modify_keeps s Soinfo.primaryNamespace hf.primary,
    modify_keeps s Soinfo.secondaryNamespaces hf.secondary]
  exact wf.members n x hx

theorem addChild_soinfo (s : Linker) (p c x : SoinfoId) :
    (s.addChild p c).soinfo x = { s.soinfo x with
        children := (s.soinfo x).children ++ if x = p then [c] else []
        parents := (s.soinfo x).parents ++ if x = c then [p] else [] } := by
  unfold Linker.addChild
  by_cases hp : x = p
  · subst hp
    by_cases hc : x = c
    · subst hc; simp
    · simp [hc, modify_soinfo_of_ne]
  · by_cases hc : x = c
    · subst hc; simp [hp, modify_soinfo_of_ne]
    · simp [hp, hc, modify_soinfo_of_ne]

theorem addChild_wf (wf : Wf s) {p c} (hp : p ∈ s.solist)
    (hc : c ∈ s.solist) : Wf (s.addChild p c) := by
  refine ⟨wf.first, wf.nodup, ?_, ?_, ?_⟩
  · intro x y
    rw [addChild_soinfo, addChild_soinfo]
    have ho : ∀ a b : SoinfoId, [b].count a = if a = b then 1 else 0 := by
      intro a b
      by_cases ha : a = b
      · subst ha; simp
      · simp [ha, Ne.symm ha]
    simp only [count_append, wf.mirrored x y]
    by_cases hxp : x = p <;> by_cases hyc : y = c <;> simp [hxp, hyc, ho]
  · intro x y hy
    rw [addChild_soinfo] at hy
    rcases List.mem_append.mp hy with hy | hy
    · exact wf.live x y hy
    split at hy
    · rename_i hxp
      rw [hxp, List.mem_singleton.mp hy]
      exact ⟨hp, hc⟩
    · cases hy
  · intro n x hx
    rw [addChild_soinfo]
    exact wf.members n x hx

def Namespace.policy (n : Namespace) : Namespace := { n with soinfoList := [] }

def SamePolicy (s t : Linker) : Prop :=
  ∀ n, Namespace.policy (t.namespaces n) = Namespace.policy (s.namespaces n)

theorem SamePolicy.refl (s) : SamePolicy s s := fun _ => rfl

theorem SamePolicy.trans {u} (h : SamePolicy s t) (k : SamePolicy t u) :
    SamePolicy s u := fun n => (k n).trans (h n)

theorem SamePolicy.linkedNamespaces (h : SamePolicy s t) (n : NamespaceId) :
    (t.namespaces n).linkedNamespaces = (s.namespaces n).linkedNamespaces := by
  have hn := congrArg Namespace.linkedNamespaces (h n)
  exact hn

theorem samePolicy_modifyNs (s) (ns : NamespaceId) (f : List SoinfoId → List SoinfoId) :
    SamePolicy s (s.modifyNs ns fun n => { n with soinfoList := f n.soinfoList }) := by
  intro n
  by_cases h : n = ns
  · subst h; simp [Namespace.policy]
  · rw [modifyNs_namespaces_of_ne _ _ _ _ h]

theorem samePolicy_foldl {α : Type} (l : List α) (f : Linker → α → Linker)
    (step : ∀ s a, SamePolicy s (f s a)) (s) : SamePolicy s (l.foldl f s) := by
  induction l generalizing s with
  | nil => exact SamePolicy.refl s
  | cons a l ih => exact (step s a).trans (ih (f s a))

theorem samePolicy_modify (s) (a : SoinfoId) (f : Soinfo → Soinfo) :
    SamePolicy s (s.modify a f) := fun _ => rfl

theorem samePolicy_removeParent (s : Linker) (si : SoinfoId) (l) :
    SamePolicy s (s.removeParent si l) :=
  samePolicy_foldl l _ (fun t x => samePolicy_modify t x _) s

theorem samePolicy_removeChild (s : Linker) (si : SoinfoId) (l) :
    SamePolicy s (s.removeChild si l) :=
  samePolicy_foldl l _ (fun t x => samePolicy_modify t x _) s

theorem samePolicy_leaveNamespaces (s : Linker) (si : SoinfoId) (l) :
    SamePolicy s (s.leaveNamespaces si l) :=
  samePolicy_foldl l _ (fun t ns => samePolicy_modifyNs t ns fun l => remove l si) s

theorem samePolicy_removeAllLinks (s) (si : SoinfoId) : SamePolicy s (s.removeAllLinks si) :=
  ((samePolicy_removeParent s si _).trans (samePolicy_removeChild _ si _)).trans
    (samePolicy_leaveNamespaces _ si _)

theorem samePolicy_soinfoFree (h : s.soinfoFree si = some t) : SamePolicy s t := by
  obtain ⟨solist, -, rfl⟩ := Option.map_eq_some_iff.mp h
  exact samePolicy_removeAllLinks { s with solist := solist } si

theorem samePolicy_soinfoAlloc (s) (a : SoinfoId) (ns : NamespaceId) (realpath : Name)
    (stat fileOffset flags) : SamePolicy s (s.soinfoAlloc a ns realpath stat fileOffset flags) :=
  samePolicy_modifyNs _ ns fun l => l ++ [a]

end LinkerSoinfo
