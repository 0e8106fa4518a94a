import Bionic.LinkerUnload

/-! `dlopen` and `dlclose`. A failed `dlopen` hands the first library it resolved to
`soinfo_unload`, although nothing of it is linked; whether that cleans up depends on the
cycles among the libraries that were created. -/
namespace LinkerDlfcn

open LinkerSoinfo LinkerNamespaces LinkerLoad LinkerUnload GraphCollapse Option
open List

def unloadFuel (s : Linker) : ℕ := s.solist.length + 1

/-- `find_library`: a null name stands for the executable. -/
def findLibrary (sys : System) (fuel : ℕ) (s : Linker) (ns : NamespaceId) (name : Option Name)
    (flags : RtldFlags) (extinfo : Option ExtInfo) (neededBy : Option SoinfoId) :
    Option (Linker × Option SoinfoId) :=
  match name with
  | none =>
    match s.solist.head? with
    | none => none
    | some si => (s.incrementRefCount si).map fun t => (t, some si)
  | some name =>
    match findLibraries sys fuel s (.dlopen ns neededBy name flags extinfo) with
    | none => none
    | some (t, false, sis) =>
      match sis.head? with
      | none => some (t, none)
      | some si => (soinfoUnload (unloadFuel t) t si).map fun u => (u, none)
    | some (t, true, sis) =>
      match sis.head? with
      | none => none
      | some si => (t.incrementRefCount si).map fun u => (u, some si)

def dlclose (s : Linker) (si : SoinfoId) : Option Linker := soinfoUnload (unloadFuel s) s si

/-- What was alive is as it was, and nothing else is alive. -/
structure Restored (s u : Linker) : Prop where
  solist : u.solist = s.solist
  namespaces : u.namespaces = s.namespaces
  soinfo : ∀ x ∈ s.solist, u.soinfo x = s.soinfo x

def Created (s t : Linker) (x : SoinfoId) : Prop := x ∈ t.solist ∧ x ∉ s.solist

variable {s t : Linker} {new : List SoinfoId} {first : SoinfoId}

section
variable {x : SoinfoId}

theorem created_iff (h : Leftover s t new (some first)) : Created s t x ↔ x ∈ new := by
  unfold Created
  rw [h.solist, mem_append]
  constructor
  · rintro ⟨hx | hx, hn⟩
    · exact absurd hx hn
    · exact hx
  · exact fun hx => ⟨.inr hx, h.disjoint hx⟩

theorem internal_new (h : Leftover s t new (some first)) (hx : x ∈ new) : Internal t first x := by
  simp [Internal, isExternal, h.linked x hx]

/-- The worklist takes nothing that was there before. A group root that is not alive may have
the address of the new library, but such a library has a parent that is not taken. -/
theorem collapsed_new (wf : Wf s) (ha : ∀ x ∈ s.solist, (s.soinfo x).linked)
    (hr : ∀ x ∈ s.solist, ∀ r, (s.soinfo x).localGroupRoot = some r →
      r ∈ s.solist ∨ (s.soinfo x).parents ≠ [])
    (h : Leftover s t new (some first)) (hf : first ∈ new)
    (hx : Collapsed (ParentOf t) (Internal t first) first x) : x ∈ new := by
  induction hx with
  | root => exact hf
  | @last y hi hp _ ih =>
    obtain ⟨p, hpy⟩ := hp
    have hl : y ∈ t.solist := (h.wf.live p y (h.wf.child_iff.mpr hpy)).2
    rw [h.solist] at hl
    rcases List.mem_append.mp hl with hy | hy
    · obtain ⟨ps, -, heq⟩ := h.old y hy
      have hrt : (s.soinfo y).localGroupRoot = some first := by
        simpa [Internal, isExternal, heq, ha y hy] using hi
      have hd : first ∉ s.solist := h.disjoint hf
      obtain ⟨q, hq⟩ := exists_mem_of_ne_nil _ ((hr y hy first hrt).resolve_left hd)
      have hqy : ParentOf t q y := by
        simp only [ParentOf, heq]
        exact mem_append_left _ hq
      exact absurd (wf.live q y (wf.child_iff.mpr hq)).1 (h.disjoint (ih q hqy))
    · exact hy

variable (wf : Wf s) (h : Leftover s t new (some first))
include wf h

theorem removable_new (hx : x ∈ new) : Removable t x := by
  obtain ⟨exe, linker, rest, hs⟩ := wf.first
  simp [Removable, h.solist, hs, hx]

theorem restored_of_freedAll {u}
    {gone} (hf : FreedAll t u gone) (hgn : ∀ x, x ∈ gone ↔ x ∈ new) : Restored s u := by
  have hk : ∀ l : List SoinfoId, (∀ x ∈ l, x ∈ s.solist) → l.filter (fun x => x ∉ gone) = l := by
    intro l hl
    apply List.filter_eq_self.mpr
    intro x hx
    simpa [hgn] using fun hn => h.disjoint hn (hl x hx)
  have hd : ∀ l : List SoinfoId, (∀ x ∈ l, x ∈ new) → l.filter (fun x => x ∉ gone) = [] := by
    intro l hl
    apply List.filter_eq_nil_iff.mpr
    intro x hx
    simpa [hgn] using hl x hx
  refine ⟨?_, funext ?_, ?_⟩
  · rw [hf.solist, h.solist, filter_append, hk _ fun _ hx => hx, hd _ fun _ hx => hx, append_nil]
  · intro n
    rw [hf.namespaces n, h.namespaces n]
    simp only [filter_append]
    rw [hk _ fun x hx => (wf.members n x hx).1,
      hd _ fun x hx => (List.mem_filter.mp hx).1, append_nil]
  intro x hx
  have hx' : x ∉ gone := fun hg => h.disjoint ((hgn x).mp hg) hx
  obtain ⟨ps, hps, heq⟩ := h.old x hx
  rw [hf.others x hx', heq]
  simp only [filter_append]
  rw [hk _ fun c hc => (wf.live x c hc).2,
    hk _ fun p hp => (wf.live p x (wf.child_iff.mpr hp)).1, hd _ hps, append_nil]

end

def nextBlock (s : Linker) : SoinfoId := s.solist.foldr max 0 + 1

theorem le_foldr_max {l : List ℕ} {x} (h : x ∈ l) : x ≤ l.foldr max 0 := by
  induction l with
  | nil => cases h
  | cons a l ih =>
    rw [foldr_cons]
    rcases List.mem_cons.mp h with rfl | h
    · exact le_max_left _ _
    · exact (ih h).trans (le_max_right _ _)

/-- A directory of libraries with names of one character, by their dynamic sections; relocating a
broken one fails. -/
def shelf (sections : Char → Option (List DynEntry)) (broken : Char → Bool)
    (block : Linker → SoinfoId) : System where
  pageSize := 4096
  targetSdkVersion := 35
  openFile := fun path =>
    match path with
    | ['/', 'l', '/', c] => (sections c).map fun d =>
        ⟨some path, some ⟨1, c.toNat, 4096⟩, some false, some (.soname [c] :: d)⟩
    | _ => none
  openInZipfile := fun _ => none
  resolveRunpath := fun _ _ => []
  block := block
  shuffle := fun l => l
  load := fun _ _ => true
  prelink := fun s si =>
    match (s.soinfo si).soname with
    | [c] => (sections c).map fun d => .soname [c] :: d
    | _ => none
  relocate := fun s si =>
    match (s.soinfo si).soname with
    | [c] => !broken c
    | _ => false
  afterLoad := fun _ _ => true

theorem shelf_freshBlocks (sections : Char → Option (List DynEntry)) (broken : Char → Bool) :
    (shelf sections broken nextBlock).FreshBlocks := by
  intro s hm
  have hl : nextBlock s ≤ s.solist.foldr max 0 := le_foldr_max hm
  exact Nat.not_succ_le_self _ hl

/-- A program that was just started: 1 is the executable, 2 the linker and 3 the only library that
is needed. -/
def launched : Linker where
  soinfo := fun x =>
    if x = 1 then
      { Soinfo.zero with
        linked := true, imageLinked := true, prelinked := true, exe := true
        rtldFlags := { global := true }, dtFlags1 := { global := true }
        localGroupRoot := some 1, primaryNamespace := 1, children := [3], told := by decide }
    else if x = 2 then
      { Soinfo.zero with
        linked := true, imageLinked := true, prelinked := true
        localGroupRoot := some 2, refCount := 1, primaryNamespace := 1 }
    else if x = 3 then
      { Soinfo.zero with
        realpath := ['/', 'l', '/', 'c'], soname := ['c'], stDev := 1, stIno := 99
        linked := true, imageLinked := true, prelinked := true
        rtldFlags := { global := true }, localGroupRoot := some 1, primaryNamespace := 1
        parents := [1], told := Soinfo.zero_told _ }
    else Soinfo.zero
  solist := [1, 2, 3]
  namespaces := fun n =>
    ⟨false, false, [], [['/', 'l']], [], [], [], if n = 1 then [1, 2, 3] else []⟩
  unloaded := []

theorem launched_children (x : SoinfoId) :
    (launched.soinfo x).children = if x = 1 then [3] else [] := by
  simp only [launched]
  split
  · rfl
  split
  · rfl
  · split <;> rfl

theorem launched_parents (x : SoinfoId) :
    (launched.soinfo x).parents = if x = 3 then [1] else [] := by
  simp only [launched]
  split
  · simp [*, Soinfo.zero]
  split
  · simp [*, Soinfo.zero]
  · split <;> rfl

theorem launched_wf : Wf launched := by
  refine ⟨⟨1, 2, [3], rfl⟩, by decide, ?_, ?_, ?_⟩
  · intro x y
    rw [launched_children, launched_parents]
    by_cases hx : x = 1 <;> by_cases hy : y = 3 <;> simp [hx, hy, eq_comm]
  · intro x y hy
    rw [launched_children] at hy
    split at hy
    · rename_i hx
      rw [List.mem_singleton.mp hy, hx]
      decide
    · cases hy
  · intro n x hx
    simp only [launched] at hx
    split at hx
    · rename_i hn
      subst hn
      revert x
      decide
    · cases hx

/-- Between two calls everything alive is linked, and a library whose group root is gone is still
needed by another one. -/
structure Settled (s : Linker) : Prop where
  wf : Wf s
  linked : ∀ x ∈ s.solist, (s.soinfo x).linked
  roots : ∀ x ∈ s.solist, ∀ r, (s.soinfo x).localGroupRoot = some r →
    r ∈ s.solist ∨ (s.soinfo x).parents ≠ []

theorem restored_of_none_created {first} (h : Leftover s t [] first) : Restored s t := by
  refine ⟨by simpa using h.solist, funext fun n => by simpa using h.namespaces n, fun x hx => ?_⟩
  obtain ⟨ps, hps, heq⟩ := h.old x hx
  have hn : ps = [] := List.eq_nil_iff_forall_not_mem.mpr fun p hp => by cases hps p hp
  simpa [hn] using heq

theorem all_created_collapsed_iff (h : Leftover s t new (some first)) :
    (∀ x, Created s t x → Collapsed (ParentOf t) (Created s t) first x) ↔
      CyclesMeetRoot (ParentOf t) (Created s t) first := by
  refine all_collapsed_iff ?_ ?_ ?_
  · exact (finite_toSet t.solist).subset fun x hx => hx.1
  · intro y hy hn
    rcases h.parented y ((created_iff h).mp hy) with heq | hp
    · exact absurd (some.inj heq).symm hn
    · exact exists_mem_of_ne_nil _ hp
  · intro y hy _ p hp
    exact (created_iff h).mpr (h.parents y ((created_iff h).mp hy) p hp)

theorem restored_iff_collapsed {u gone}
    (hs : Settled s) (h : Leftover s t new (some first)) (hf : first ∈ new)
    (hfr : FreedAll t u gone)
    (hg : ∀ x, x ∈ gone ↔ Collapsed (ParentOf t) (Internal t first) first x) :
    Restored s u ↔ ∀ x, Created s t x → Collapsed (ParentOf t) (Created s t) first x := by
  have hc := fun x => collapsed_new (x := x) hs.wf hs.linked hs.roots h hf
  constructor
  · intro hr x hx
    have hxg : x ∈ gone := by
      by_contra ho
      apply hx.2
      rw [← hr.solist, hfr.solist]
      exact List.mem_filter.mpr ⟨hx.1, by simpa using ho⟩
    exact ((hg x).mp hxg).congr_member fun y hy _ => (created_iff h).mpr (hc y hy)
  · intro hee
    refine restored_of_freedAll hs.wf h hfr fun x => ⟨?_, ?_⟩
    · intro hx
      exact hc x ((hg x).mp hx)
    intro hx
    exact (hg x).mpr ((hee x ((created_iff h).mpr hx)).congr_member
      fun y hy hn => internal_new h ((created_iff h).mp (hy.member_or_root.resolve_left hn)))

/-- The failure path of `find_library` always ends, and it undoes the call exactly when every cycle
among the new libraries runs through the one that was asked for. -/
theorem findLibrary_failed_restores_iff {sys : System} (hfresh : sys.FreshBlocks) {s t : Linker}
    (hs : Settled s) {ns : NamespaceId} {caller : Option SoinfoId}
    (hcaller : ∀ c, caller = some c → c ∈ s.solist) {name : Name} {flags : RtldFlags}
    {extinfo : Option ExtInfo} {fuel : ℕ} {sis : List SoinfoId}
    (h : findLibraries sys fuel s (.dlopen ns caller name flags extinfo) = some (t, false, sis)) :
    ∃ u, findLibrary sys fuel s ns (some name) flags extinfo caller = some (u, none) ∧
      (Restored s u ↔ ∀ first, sis.head? = some first →
        CyclesMeetRoot (ParentOf t) (Created s t) first) := by
  obtain ⟨new, hl, hn, hso⟩ := findLibraries_failed hfresh hs.wf hs.linked hcaller h
  cases hh : sis.head? with
  | none =>
    refine ⟨t, by simp [findLibrary, h, hh], ?_⟩
    obtain rfl := hn hh
    simp [restored_of_none_created hl]
  | some first =>
    have hf := hso first hh
    rw [hh] at hl
    have hu := hl.linked first hf
    obtain ⟨gone, u, hg, -, hfr, hil⟩ := soinfoUnloadImpl_spec hl.wf
      (soinfoUnload (t.solist.length)) (by simp [Soinfo.canUnload, hu])
      fun x hx => removable_new hs.wf hl (collapsed_new hs.wf hs.linked hs.roots hl hf hx)
    refine ⟨u, ?_, ?_⟩
    · simp [findLibrary, h, hh, unloadFuel, soinfoUnload, hu, hil]
    · rw [restored_iff_collapsed hs hl hf hfr hg, all_created_collapsed_iff hl]
      simp

theorem launched_settled : Settled launched := by
  refine ⟨launched_wf, by decide, fun x hx r hr => .inl ?_⟩
  have hro : ∀ x ∈ launched.solist, (launched.soinfo x).localGroupRoot = some 1 ∨
      (launched.soinfo x).localGroupRoot = some 2 := by decide
  rcases hro x hx with h | h
  all_goals
    rw [h] at hr
    cases hr; decide

def selfEdge : System :=
  shelf (fun c => if c = 'r' ∨ c = 'b' then some [.needed ['b']] else none) (fun c => c = 'b')
    nextBlock

theorem selfEdge_freshBlocks : selfEdge.FreshBlocks := shelf_freshBlocks _ _

theorem selfEdge_fails :
    (findLibraries selfEdge 5 launched (.dlopen 1 none ['r'] {} none)).map (fun r => r.2) =
      some (false, [4]) := by
  decide +kernel

theorem selfEdge_leaves_b : (findLibrary selfEdge 5 launched 1 (some ['r']) {} none none).map
      (fun r => (r.1.solist, r.2, (r.1.soinfo 5).linked)) = some ([1, 2, 3, 5], none, false) := by
  decide +kernel

/-- The failed `dlopen` of r leaves b behind, which is not linked. -/
theorem failed_dlopen_leaks_self_edge : selfEdge.FreshBlocks ∧ Settled launched ∧
      ∃ t u, findLibraries selfEdge 5 launched (.dlopen 1 none ['r'] {} none) =
          some (t, false, [4]) ∧
        findLibrary selfEdge 5 launched 1 (some ['r']) {} none none = some (u, none) ∧
        ¬ Restored launched u ∧ ∃ x ∈ u.solist, (u.soinfo x).linked = false := by
  obtain ⟨⟨t, r⟩, ht, hr⟩ := map_eq_some_iff.mp selfEdge_fails
  obtain ⟨⟨u, f⟩, hu, hf⟩ := map_eq_some_iff.mp selfEdge_leaves_b
  simp only [Prod.mk.injEq] at hr hf
  obtain ⟨hl, rfl, hld⟩ := hf
  refine ⟨selfEdge_freshBlocks, launched_settled, t, u, hr ▸ ht, hu, fun h => ?_,
    5, by rw [hl]; decide, hld⟩
  have hs := h.solist
  rw [hl] at hs
  exact absurd hs (by decide)

theorem findLibrary_failed_restores_iff_self_edge :
    ∃ t u, findLibraries selfEdge 5 launched (.dlopen 1 none ['r'] {} none) = some (t, false, [4]) ∧
      findLibrary selfEdge 5 launched 1 (some ['r']) {} none none = some (u, none) ∧
      (Restored launched u ↔ ∀ first, [4].head? = some first →
        CyclesMeetRoot (ParentOf t) (Created launched t) first) := by
  obtain ⟨⟨t, r⟩, ht, hr⟩ := map_eq_some_iff.mp selfEdge_fails
  simp only at hr
  subst hr
  obtain ⟨u, hu, hif⟩ :=
    findLibrary_failed_restores_iff selfEdge_freshBlocks launched_settled (by simp) ht
  exact ⟨t, u, ht, hu, hif⟩

end LinkerDlfcn
