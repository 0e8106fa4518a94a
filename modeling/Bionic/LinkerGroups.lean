import Bionic.LinkerDlfcn

/-! A `dlopen` that succeeds. Step 6 of `find_libraries` gives every new library a local group
root: the first root of its own namespace whose walk meets it. Step 7 counts one reference for
each link between two groups. -/
namespace LinkerGroups

open Prod (fst snd)
open LinkerSoinfo LinkerNamespaces LinkerLoad LinkerUnload LinkerDlfcn Option Nat
open List

def links (x : Soinfo) : List SoinfoId × List SoinfoId × NamespaceId × List NamespaceId :=
  (x.children, x.parents, x.primaryNamespace, x.secondaryNamespaces)

variable {s t : Linker}

section
variable (h : ∀ x, links (t.soinfo x) = links (s.soinfo x))
include h

theorem children_of_links (x : SoinfoId) : (t.soinfo x).children = (s.soinfo x).children :=
  congrArg fst (h x)

theorem primary_of_links (x : SoinfoId) :
    (t.soinfo x).primaryNamespace = (s.soinfo x).primaryNamespace :=
  congrArg (fun l => l.2.2.1) (h x)

theorem isAccessible_of_links (ns : NamespaceId) (x : SoinfoId) :
    t.isAccessible ns x = s.isAccessible ns x := by
  have hp : (t.soinfo x).parents = (s.soinfo x).parents := congrArg (fun l => l.2.1) (h x)
  have hs : (t.soinfo x).secondaryNamespaces = (s.soinfo x).secondaryNamespaces :=
    congrArg (fun l => l.2.2.2) (h x)
  simp only [Linker.isAccessible, primary_of_links h, hp, hs]

theorem walked_of_links {ns root x} (hw : Walked t ns root x) : Walked s ns root x := by
  induction hw with
  | root ha => exact .root (by rwa [isAccessible_of_links h] at ha)
  | child _ hc ha ih =>
    rw [isAccessible_of_links h] at ha
    rw [children_of_links h] at hc
    exact .child ih hc ha

theorem wf_of_links (wf : Wf s) (hs : t.solist = s.solist)
    (hn : t.namespaces = s.namespaces) : Wf t := by
  have hp : ∀ x, (t.soinfo x).parents = (s.soinfo x).parents := fun x =>
    congrArg (fun l => l.2.1) (h x)
  have hsc : ∀ x, (t.soinfo x).secondaryNamespaces = (s.soinfo x).secondaryNamespaces :=
    fun x => congrArg (fun l => l.2.2.2) (h x)
  constructor
  · rw [hs]; exact wf.first
  · rw [hs]; exact wf.nodup
  · intro x y
    rw [children_of_links h, hp]; exact wf.mirrored x y
  · intro x y hy
    rw [children_of_links h] at hy
    rw [hs]; exact wf.live x y hy
  intro n x hx
  rw [hn] at hx
  rw [hs, primary_of_links h, hsc]
  exact wf.members n x hx

end

/-- The libraries that `link_image` does not skip. -/
def Links (ns : NamespaceId) (x : Soinfo) : Prop :=
  x.linked = false ∧ x.primaryNamespace = ns ∧ x.imageLinked = false

instance (ns : NamespaceId) (x : Soinfo) : Decidable (Links ns x) :=
  inferInstanceAs (Decidable (_ ∧ _))

def joined (r : SoinfoId) (x : Soinfo) : Soinfo := (x.setLocalGroupRoot r).setImageLinked

theorem not_links_joined (ns : NamespaceId) (r : SoinfoId) (x) :
    ¬ Links ns (joined r x) := fun h => by simp [Links, joined, Soinfo.setImageLinked] at h

variable {r : SoinfoId} {sys : System} {si : SoinfoId}

theorem linkImage_spec (h : linkImage sys s si (some r) = (t, true)) :
    (s.soinfo si).imageLinked ∧ t = s ∨
      (s.soinfo si).imageLinked = false ∧ t = s.modify si (joined r) := by
  unfold linkImage at h
  split at h <;> rename_i hig
  · cases h
    exact .inl ⟨hig, rfl⟩
  · dsimp only at h
    split at h
    · cases h
      exact .inr ⟨by simpa using hig, modify_modify s si _ _⟩
    · cases h

theorem linkGroup_spec {ns group} (h : linkGroup sys ns (some r) s group = (t, true)) :
    t.solist = s.solist ∧ t.namespaces = s.namespaces ∧ t.unloaded = s.unloaded ∧ ∀ x, t.soinfo x =
        if x ∈ group ∧ Links ns (s.soinfo x) then joined r (s.soinfo x) else s.soinfo x := by
  induction group generalizing s with
  | nil => cases h; simp
  | cons si rest ih =>
    rw [linkGroup] at h
    split at h
    · rename_i ht
      have ht' : (s.soinfo si).linked = false ∧ (s.soinfo si).primaryNamespace = ns := by
        simpa using ht
      split at h
      · cases h
      rename_i s₁ hlk
      split at h
      · obtain ⟨h1, h2, h3, h4⟩ := ih h
        rcases linkImage_spec hlk with ⟨hig, rfl⟩ | ⟨hig, rfl⟩
        · refine ⟨h1, h2, h3, fun x => ?_⟩
          rw [h4 x]
          by_cases hx : x = si
          · subst hx
            simp [Links, hig]
          · simp [hx]
        refine ⟨h1, h2, h3, fun x => ?_⟩
        rw [h4 x]
        by_cases hx : x = si
        · subst hx
          have hl : Links ns (s.soinfo x) := ⟨ht'.1, ht'.2, hig⟩
          simp [hl, not_links_joined]
        · simp [hx, modify_soinfo_of_ne]
      · cases h
    · rename_i hs
      obtain ⟨h1, h2, h3, h4⟩ := ih h
      refine ⟨h1, h2, h3, fun x => ?_⟩
      rw [h4 x]
      by_cases hx : x = si
      · subst hx
        have hno : ¬ Links ns (s.soinfo x) := fun hn => hs (by simp [hn.1, hn.2.1])
        simp [hno]
      · simp [hx]

/-- Step 6 after the roots `done`: what has become of the new libraries since `s`, and which of them
are linked for sure. -/
structure Grouped (s t : Linker) (new done : List SoinfoId) : Prop where
  solist : t.solist = s.solist
  namespaces : t.namespaces = s.namespaces
  unloaded : t.unloaded = s.unloaded
  old : ∀ x, x ∉ new → t.soinfo x = s.soinfo x
  created : ∀ x ∈ new, t.soinfo x = s.soinfo x ∨ ∃ r ∈ new, t.soinfo x = joined r (s.soinfo x) ∧
    t.soinfo r = joined r (s.soinfo r) ∧ r ∈ done ∧
    Walked s (s.soinfo x).primaryNamespace r x ∧
    (s.soinfo r).primaryNamespace = (s.soinfo x).primaryNamespace
  linked : ∀ x ∈ new, ∀ r ∈ done, (s.soinfo r).primaryNamespace = (s.soinfo x).primaryNamespace →
    Walked s (s.soinfo x).primaryNamespace r x → (t.soinfo x).imageLinked
  first : ∀ r ∈ new, done.head? = some r → t.soinfo r = joined r (s.soinfo r)

theorem Grouped.start (s new) : Grouped s s new [] :=
  ⟨rfl, rfl, rfl, fun _ _ => rfl, fun _ _ => .inl rfl, by simp, by simp⟩

theorem links_joined (r : SoinfoId) (x) : links (joined r x) = links x := rfl

theorem Grouped.links {new done} (h : Grouped s t new done)
    (x : SoinfoId) : LinkerGroups.links (t.soinfo x) = LinkerGroups.links (s.soinfo x) := by
  by_cases hx : x ∈ new
  · rcases h.created x hx with heq | ⟨r, -, heq, -⟩
    · rw [heq]
    · rw [heq, links_joined]
  · rw [h.old x hx]

variable {x : SoinfoId}

variable {u : Linker} {new : List SoinfoId}

section
variable {done : List SoinfoId} {group : List SoinfoId}

structure Joins (s t u : Linker) (r : SoinfoId) (group : List SoinfoId) : Prop where
  walk : ∀ x, x ∈ group ↔ Walked s (s.soinfo r).primaryNamespace r x
  soinfo : ∀ x, u.soinfo x =
    if x ∈ group ∧ Links (s.soinfo r).primaryNamespace (t.soinfo x) then joined r (t.soinfo x)
    else t.soinfo x

theorem Joins.pass (h : Joins s t u r group)
    (hx : (t.soinfo x).imageLinked) : u.soinfo x = t.soinfo x := by
  rw [h.soinfo x]
  exact if_neg fun hn => by simp [hn.2.2.2] at hx

theorem Joins.root (h : Joins s t u r group) (hr : t.soinfo r = s.soinfo r)
    (hl : (s.soinfo r).linked = false ∧ (s.soinfo r).imageLinked = false) :
    u.soinfo r = joined r (s.soinfo r) := by
  have hg : r ∈ group := (h.walk r).mpr (.root (isAccessible_primary s r))
  rw [h.soinfo r, hr, if_pos ⟨hg, hl.1, rfl, hl.2⟩]

section
variable (h : Grouped s t new done)
include h

theorem Grouped.untouched (hx : x ∈ new)
    (hig : (t.soinfo x).imageLinked = false) : t.soinfo x = s.soinfo x := by
  rcases h.created x hx with heq | ⟨a, -, heq, -⟩
  · exact heq
  · rw [heq] at hig
    cases hig

theorem Grouped.root_untouched (hr : r ∈ new)
    (hx : x ∈ new) (hp : (s.soinfo x).primaryNamespace = (s.soinfo r).primaryNamespace)
    (hw : Walked s (s.soinfo r).primaryNamespace r x)
    (hig : (t.soinfo x).imageLinked = false) : t.soinfo r = s.soinfo r := by
  rcases h.created r hr with heq | ⟨a, -, -, -, ha, hm, hap⟩
  · exact heq
  have hl := h.linked x hx a ha (hap.trans hp.symm) (hp ▸ hm.trans hw)
  rw [hig] at hl
  cases hl

variable (hj : Joins s t u r group)
  (hul : ∀ x ∈ new, (s.soinfo x).linked = false ∧ (s.soinfo x).imageLinked = false)
  (hx : x ∈ new)
include hj hul hx

theorem Grouped.created_step (hr : r ∈ new) :
    u.soinfo x = s.soinfo x ∨ ∃ a ∈ new, u.soinfo x = joined a (s.soinfo x) ∧
      u.soinfo a = joined a (s.soinfo a) ∧ a ∈ done ++ [r] ∧
      Walked s (s.soinfo x).primaryNamespace a x ∧
      (s.soinfo a).primaryNamespace = (s.soinfo x).primaryNamespace := by
  by_cases ht : x ∈ group ∧ Links (s.soinfo r).primaryNamespace (t.soinfo x)
  · obtain ⟨hg, hl⟩ := ht
    have hw := (hj.walk x).mp hg
    have hp : (s.soinfo x).primaryNamespace = (s.soinfo r).primaryNamespace := by
      rw [← primary_of_links h.links x]
      exact hl.2.1
    have hrs := h.root_untouched hr hx hp hw hl.2.2
    refine .inr ⟨r, hr, ?_, hj.root hrs (hul r hr), by simp, hp ▸ hw, hp.symm⟩
    rw [hj.soinfo x, if_pos ⟨hg, hl⟩, h.untouched hx hl.2.2]
  · have hs : u.soinfo x = t.soinfo x := by rw [hj.soinfo x, if_neg ht]
    rcases h.created x hx with heq | ⟨a, han, heq, hrt, ha, hw, hap⟩
    · exact .inl (hs.trans heq)
    · refine .inr ⟨a, han, hs.trans heq, ?_, mem_append_left _ ha, hw, hap⟩
      rw [hj.pass (by rw [hrt]; rfl), hrt]

theorem Grouped.linked_step {a} (ha : a ∈ done ++ [r])
    (hp : (s.soinfo a).primaryNamespace = (s.soinfo x).primaryNamespace)
    (hw : Walked s (s.soinfo x).primaryNamespace a x) : (u.soinfo x).imageLinked := by
  cases hig : (t.soinfo x).imageLinked with
  | true => rw [hj.pass hig]; exact hig
  | false =>
    rcases List.mem_append.mp ha with ha | ha
    · rw [h.linked x hx a ha hp hw] at hig
      cases hig
    obtain rfl : a = r := List.mem_singleton.mp ha
    have hl : Links (s.soinfo a).primaryNamespace (t.soinfo x) := by
      rw [h.untouched hx hig]
      exact ⟨(hul x hx).1, hp.symm, (hul x hx).2⟩
    rw [hj.soinfo x, if_pos ⟨(hj.walk x).mpr (hp ▸ hw), hl⟩]
    rfl

end

variable (wf : Wf s) (h : Grouped s t new done)
include wf h

/-- One root: it gives itself and the rest of its walk a root, or an earlier walk has met it and all
of its own walk. -/
theorem Grouped.step (hr : r ∈ s.solist) (hn : new ≠ [] → r ∈ new)
    (hul : ∀ x ∈ new, (s.soinfo x).linked = false ∧ (s.soinfo x).imageLinked = false)
    (ho : ∀ x ∈ s.solist, x ∉ new → (s.soinfo x).linked)
    (hgp : ∀ x, x ∈ group ↔ Walked t (t.soinfo r).primaryNamespace r x)
    (hlk : linkGroup sys (t.soinfo r).primaryNamespace (some r) t group = (u, true)) :
    Grouped s u new (done ++ [r]) := by
  obtain ⟨h1, h2, h3, h4⟩ := linkGroup_spec hlk
  have hp := primary_of_links h.links
  have hm : ∀ x, x ∈ group ↔ Walked s (s.soinfo r).primaryNamespace r x := by
    intro x
    rw [hgp, hp]
    exact ⟨walked_of_links h.links, walked_of_links fun y => (h.links y).symm⟩
  rw [hp] at h4
  have hj : Joins s t u r group := ⟨hm, h4⟩
  refine ⟨h1.trans h.solist, h2.trans h.namespaces, h3.trans h.unloaded, ?_,
    fun x hx => h.created_step hj hul hx (hn (ne_nil_of_mem hx)),
    fun x hx a ha => h.linked_step hj hul hx ha, ?_⟩
  · intro x hx
    rw [h4 x, if_neg, h.old x hx]
    rintro ⟨hg, hl⟩
    have hlv := ((hm x).mp hg).live wf hr
    rw [h.old x hx] at hl
    have ht := ho x hlv hx
    rw [hl.1] at ht
    cases ht
  · intro a ha hh
    cases done with
    | nil =>
      cases hh
      rcases h.created r ha with heq | ⟨b, -, -, -, hb, -⟩
      · exact hj.root heq (hul r ha)
      · cases hb
    | cons b done =>
      have hji := h.first a ha hh
      rw [hj.pass (by rw [hji]; rfl), hji]

theorem Grouped.run {roots} (hr : ∀ r ∈ roots, r ∈ s.solist ∧ (new ≠ [] → r ∈ new))
    (hul : ∀ x ∈ new, (s.soinfo x).linked = false ∧ (s.soinfo x).imageLinked = false)
    (hod : ∀ x ∈ s.solist, x ∉ new → (s.soinfo x).linked)
    (hl : linkGroups sys t roots = some (u, true)) : Grouped s u new (done ++ roots) := by
  induction roots generalizing t done with
  | nil => cases hl; simpa using h
  | cons r rest ih =>
    have wft := wf_of_links h.links wf h.solist h.namespaces
    obtain ⟨group, hg, hh, hm⟩ := localGroup_spec wft r
    rw [linkGroups, hg] at hl
    simp only [hh] at hl
    split at hl
    · cases hl
    rename_i s₁ ho
    have hs := h.step wf (hr r mem_cons_self).1 (hr r mem_cons_self).2 hul hod hm ho
    have hrn := ih hs (fun x hx => hr x (mem_cons_of_mem _ hx)) hl
    rwa [append_assoc] at hrn

end

/-- Prelinking reads the dynamic section again, and only adds flags. -/
structure Reread (x y : Soinfo) : Prop where
  links : LinkerGroups.links y = LinkerGroups.links x
  linked : y.linked = x.linked
  imageLinked : y.imageLinked = x.imageLinked
  localGroupRoot : y.localGroupRoot = x.localGroupRoot
  refCount : y.refCount = x.refCount
  global : x.rtldFlags.global → y.rtldFlags.global
  nodelete : x.rtldFlags.nodelete → y.rtldFlags.nodelete

theorem Reread.refl (x) : Reread x x := ⟨rfl, rfl, rfl, rfl, rfl, id, id⟩

theorem Reread.trans {x y z} (h : Reread x y) (k : Reread y z) : Reread x z :=
  ⟨k.links.trans h.links, k.linked.trans h.linked, k.imageLinked.trans h.imageLinked,
    k.localGroupRoot.trans h.localGroupRoot, k.refCount.trans h.refCount, k.global ∘ h.global,
    k.nodelete ∘ h.nodelete⟩

theorem reread_prelinkLibraries (sys s l) (x : SoinfoId) :
    Reread (s.soinfo x) ((prelinkLibraries sys s l).1.soinfo x) := by
  induction l generalizing s with
  | nil => exact .refl _
  | cons si rest ih =>
    rw [prelinkLibraries]
    split
    · exact ih s
    split
    · exact .refl _
    rename_i dynamic _
    have hr := ih (s.modify si (Soinfo.prelinkImage sys dynamic))
    by_cases hx : x = si
    · subst hx
      rw [modify_soinfo_self] at hr
      obtain ⟨_, _, _, _, _, heq, hg, hn⟩ := readDynEntries_spec sys dynamic (s.soinfo x)
      refine .trans ?_ hr
      unfold Soinfo.prelinkImage
      rw [heq]
      exact ⟨rfl, rfl, rfl, rfl, rfl, hg, hn⟩
    · rwa [modify_soinfo_of_ne _ _ _ _ hx] at hr

variable {q : Request}

variable {tasks : List (LoadTask × SoinfoId)} {roots : List SoinfoId} {first : SoinfoId}

theorem foldl_addRoot_keeps (tasks : List (LoadTask × SoinfoId)) (hx : x ∈ roots) :
    x ∈ tasks.foldl (addRoot s q) roots := by
  induction tasks generalizing roots with
  | nil => exact hx
  | cons k rest ih =>
    apply ih
    unfold addRoot
    split
    · exact mem_append_left _ hx
    · exact hx

theorem foldl_addRoot_head (tasks : List (LoadTask × SoinfoId)) (h : roots.head? = some first) :
    (tasks.foldl (addRoot s q) roots).head? = some first := by
  induction tasks generalizing roots with
  | nil => exact h
  | cons k rest ih =>
    apply ih
    unfold addRoot
    split
    · rw [head?_append, h]; rfl
    · exact h

theorem mem_localGroupRoots {k} (hk : k ∈ tasks) (hl : (s.soinfo k.2).linked = false)
    (hn : (s.soinfo k.2).primaryNamespace ≠ neededByNs s q k.1.neededBy) :
    k.2 ∈ localGroupRoots s q first tasks := by
  unfold localGroupRoots
  generalize [first] = roots
  induction tasks generalizing roots with
  | nil => cases hk
  | cons a rest ih =>
    rcases List.mem_cons.mp hk with rfl | hk
    · apply foldl_addRoot_keeps rest
      unfold addRoot
      split
      · simp
      rename_i hno
      by_contra ho
      exact hno (by simp [hl, hn, ho])
    · exact ih hk _

@[simp] theorem setLinked_solist (s l) : (LinkerLoad.setLinked s l).solist = s.solist := by
  apply foldl_preserves Linker.solist
  intro _ _; rfl

@[simp] theorem setLinked_namespaces (s l) :
    (LinkerLoad.setLinked s l).namespaces = s.namespaces := by
  apply foldl_preserves Linker.namespaces
  intro _ _; rfl

@[simp] theorem setLinked_unloaded (s l) : (LinkerLoad.setLinked s l).unloaded = s.unloaded := by
  apply foldl_preserves Linker.unloaded
  intro _ _; rfl

theorem setLinked_soinfo (s l) (x : SoinfoId) :
    (LinkerLoad.setLinked s l).soinfo x = if x ∈ l then (s.soinfo x).setLinked else s.soinfo x := by
  unfold LinkerLoad.setLinked
  induction l generalizing s with
  | nil => rfl
  | cons a l ih =>
    rw [foldl_cons, ih]
    by_cases hx : x = a
    · subst hx
      by_cases hl : x ∈ l <;> simp [hl, Soinfo.setLinked]
    · simp [hx, modify_soinfo_of_ne]

/-- The references that step 7 adds to the group of `r`. -/
def addedReferences (s : Linker) (q : Request) (tasks : List (LoadTask × SoinfoId))
    (r : SoinfoId) : ℕ :=
  tasks.countP fun k => crossesGroups s q k && decide ((s.soinfo k.2).localGroupRoot = some r)

theorem countReferences_spec (h : countReferences q s tasks = some t) :
    t.solist = s.solist ∧ t.namespaces = s.namespaces ∧ t.unloaded = s.unloaded ∧ ∀ x, t.soinfo x =
        (s.soinfo x).setRefCount ((s.soinfo x).refCount + addedReferences s q tasks x) := by
  induction tasks generalizing s with
  | nil => cases h; exact ⟨rfl, rfl, rfl, fun x => rfl⟩
  | cons k rest ih =>
    rw [countReferences] at h
    split at h <;> rename_i hc
    · split at h
      · cases h
      · rename_i s₁ hic
        obtain ⟨r, hr, rfl⟩ := map_eq_some_iff.mp hic
        obtain ⟨h1, h2, h3, h4⟩ := ih h
        refine ⟨h1, h2, h3, fun x => ?_⟩
        have hrt : ∀ y, ((s.modify r (Soinfo.setRefCount ((s.soinfo r).refCount + 1))).soinfo
            y).localGroupRoot = (s.soinfo y).localGroupRoot :=
          modify_keeps s (f := Soinfo.setRefCount _) Soinfo.localGroupRoot (fun _ => rfl) r
        have hrs : addedReferences (s.modify r (Soinfo.setRefCount ((s.soinfo r).refCount + 1)))
            q rest x = addedReferences s q rest x := by
          simp only [addedReferences, crossesGroups, hrt]
        have ha : addedReferences s q (k :: rest) x =
            addedReferences s q rest x + if x = r then 1 else 0 := by
          by_cases hx : x = r
          · simp [addedReferences, hc, hr, hx]
          · simp [addedReferences, hc, hr, hx, Ne.symm hx]
        rw [h4 x, hrs, ha]
        by_cases hx : x = r
        · subst hx
          rw [modify_soinfo_self, if_pos rfl]
          simp only [Soinfo.setRefCount, add_assoc, add_comm 1]
        · rw [modify_soinfo_of_ne _ _ _ _ hx, if_neg hx, add_zero]
    · obtain ⟨h1, h2, h3, h4⟩ := ih h
      refine ⟨h1, h2, h3, fun x => ?_⟩
      have ha : addedReferences s q (k :: rest) x = addedReferences s q rest x := by
        simp [addedReferences, hc]
      rw [h4 x, ha]

/-- Links from `ps` into the group of `r`, from other groups. -/
def crossLinks (s : Linker) (ps : List SoinfoId) (r : SoinfoId) : ℕ :=
  (ps.map fun p =>
    if (s.soinfo p).localGroupRoot = some r then 0
    else (s.soinfo p).children.countP fun c => (s.soinfo c).localGroupRoot = some r).sum

theorem sum_map_eq_single {l : List SoinfoId} (hn : l.Nodup) {a} (ha : a ∈ l)
    {f} (hf : ∀ b ≠ a, f b = 0) : (l.map f).sum = f a := by
  rw [sum_map_eq_nsmul_single a f fun b hb _ => hf b hb, count_eq_one_of_mem hn ha, one_nsmul]

theorem addedReferences_eq (hnd : new.Nodup)
    (hndd : ∀ k ∈ tasks, k.1.neededBy = q.startWith ∨ ∃ p ∈ new, k.1.neededBy = some p)
    (hst : ∀ p ∈ new, q.startWith ≠ some p) (r : SoinfoId) :
    addedReferences s q tasks r = (new.map fun p => if (s.soinfo p).localGroupRoot = some r then 0
      else (resolvedNeeds tasks p).countP fun c => (s.soinfo c).localGroupRoot = some r).sum := by
  induction tasks with
  | nil => simp [addedReferences, resolvedNeeds]
  | cons k rest ih =>
    have hr := ih fun k' hk' => hndd k' (mem_cons_of_mem _ hk')
    have hs : ∀ p, (if (s.soinfo p).localGroupRoot = some r then 0
        else (resolvedNeeds (k :: rest) p).countP fun c =>
          (s.soinfo c).localGroupRoot = some r) =
        (if (s.soinfo p).localGroupRoot ≠ some r ∧ k.1.neededBy = some p ∧
          (s.soinfo k.2).localGroupRoot = some r then 1 else 0) +
        (if (s.soinfo p).localGroupRoot = some r then 0
        else (resolvedNeeds rest p).countP fun c => (s.soinfo c).localGroupRoot = some r) := by
      intro p
      by_cases h1 : (s.soinfo p).localGroupRoot = some r
      · simp [h1]
      by_cases h2 : k.1.neededBy = some p <;>
        by_cases h3 : (s.soinfo k.2).localGroupRoot = some r <;>
        simp [h1, h2, h3, resolvedNeeds, add_comm]
    have hh : addedReferences s q (k :: rest) r =
        (if crossesGroups s q k ∧ (s.soinfo k.2).localGroupRoot = some r then 1 else 0) +
          addedReferences s q rest r := by
      simp [addedReferences, countP_cons, add_comm]
    rw [hh, hr, map_congr_left fun p _ => hs p, sum_map_add]
    congr 1
    rcases hndd k mem_cons_self with hc | ⟨p, hp, hk⟩
    · have hno : crossesGroups s q k = false := by
        unfold crossesGroups
        cases hnb : k.1.neededBy with
        | none => rfl
        | some p => simp [← hc, hnb]
      have hz : ∀ p ∈ new, (if (s.soinfo p).localGroupRoot ≠ some r ∧
          k.1.neededBy = some p ∧ (s.soinfo k.2).localGroupRoot = some r then 1 else 0) = 0 := by
        intro p hp
        refine if_neg fun hn => hst p hp (hc.symm.trans hn.2.1)
      rw [map_congr_left hz]
      simp [hno]
    · rw [sum_map_eq_single hnd hp]
      · have hns : some p ≠ q.startWith := fun hn => hst p hp hn.symm
        simp only [crossesGroups, hk]
        by_cases h3 : (s.soinfo k.2).localGroupRoot = some r
        · by_cases h4 : (s.soinfo p).localGroupRoot = some r <;> simp [h3, h4, hns]
        · simp [h3]
      · intro b hb
        refine if_neg fun hn => hb (some.inj (hn.2.1.symm.trans hk))

/-- A `dlopen` that has loaded `new` and yields `si`, just before the reference for the handle is
counted. -/
structure Opened (s t : Linker) (flags : RtldFlags) (new : List SoinfoId) (si : SoinfoId) :
    Prop where
  wf : Wf t
  solist : t.solist = s.solist ++ new
  unloaded : t.unloaded = s.unloaded
  children : ∀ x ∈ s.solist, (t.soinfo x).children = (s.soinfo x).children
  linked : ∀ x ∈ t.solist, (t.soinfo x).linked
  oldFlags : ∀ x ∈ s.solist, (t.soinfo x).rtldFlags = (s.soinfo x).rtldFlags
  oldRoot : ∀ x ∈ s.solist, (t.soinfo x).localGroupRoot = (s.soinfo x).localGroupRoot
  flags : ∀ x ∈ new, (flags.global → (t.soinfo x).rtldFlags.global) ∧
    (flags.nodelete → (t.soinfo x).rtldFlags.nodelete)
  root : ∀ x ∈ new, ∃ r ∈ new, (t.soinfo x).localGroupRoot = some r ∧
    (t.soinfo r).localGroupRoot = some r ∧ Relation.ReflTransGen (ChildOf t) r x
  refCount : ∀ r ∈ t.solist, (t.soinfo r).refCount =
    (if r ∈ new then 0 else (s.soinfo r).refCount) + crossLinks t new r
  live : si ∈ t.solist
  first : si ∈ new → (t.soinfo si).localGroupRoot = some si
  reached : ∀ x ∈ new, Relation.ReflTransGen (ChildOf t) si x
  reused : si ∉ new → new = []

variable {ns : NamespaceId} {caller : Option SoinfoId} {name : Name} {flags : RtldFlags}
  {extinfo : Option ExtInfo} {st : Expansion}

theorem reached_of_walked {root} (h : Walked s ns root x) :
    Relation.ReflTransGen (ChildOf s) root x := by
  induction h with
  | root _ => exact .refl
  | child _ hc _ ih => exact ih.tail hc

theorem childOf_of_links (h : ∀ x, links (t.soinfo x) = links (s.soinfo x)) :
    ChildOf t = ChildOf s := by
  funext p c
  simp only [ChildOf, children_of_links h]

theorem covered_by_root (hcl : ∀ c, caller = some c → c ∈ s.solist)
    (he : Expanding (.dlopen ns caller name flags extinfo) s st new [])
    (hft : st.soinfos.head? = some first)
    (hl : ∀ x, links (t.soinfo x) = links (st.linker.soinfo x))
    (hul : ∀ x ∈ new, (t.soinfo x).linked = false) (hx : x ∈ new) :
    ∃ r ∈ localGroupRoots t (.dlopen ns caller name flags extinfo) first st.tasks,
      (t.soinfo r).primaryNamespace = (t.soinfo x).primaryNamespace ∧
      Walked t (t.soinfo x).primaryNamespace r x := by
  obtain ⟨f, hf, hpt⟩ := he.reached x hx
  cases hft.symm.trans hf
  induction hpt with
  | refl =>
    exact ⟨first, foldl_addRoot_keeps _ (List.mem_singleton.mpr rfl), rfl,
      .root (isAccessible_primary t first)⟩
  | @tail p c _ hpc ih =>
    have hp : p ∈ new := he.grown.parents c hx p (he.grown.wf.child_iff.mp hpc)
    obtain ⟨r, hr, hpm, hw⟩ := ih hp
    have hn : c ∈ resolvedNeeds st.tasks p := he.grown.children p hp ▸ hpc
    obtain ⟨k, hk, rfl⟩ := List.mem_map.mp hn
    obtain ⟨hk, hkp⟩ := List.mem_filter.mp hk
    have hkp' : k.1.neededBy = some p := by simpa using hkp
    have hpc' : caller ≠ some p := fun hc => he.grown.disjoint hp (hcl p hc)
    have hns : neededByNs t (.dlopen ns caller name flags extinfo) k.1.neededBy =
        (t.soinfo p).primaryNamespace := by
      simp [neededByNs, hkp', isDtNeeded, Request.dlopen, hpc'.symm]
    by_cases hs : (t.soinfo k.2).primaryNamespace = (t.soinfo p).primaryNamespace
    · refine ⟨r, hr, hpm.trans hs.symm, ?_⟩
      rw [hs]
      refine hw.child ?_ (hs ▸ isAccessible_primary t k.2)
      rw [children_of_links hl]
      exact hpc
    · exact ⟨k.2, mem_localGroupRoots hk (hul _ hx) (hns ▸ hs), rfl,
        .root (isAccessible_primary t k.2)⟩

/-- Step 6 is over, from `s` before the call and the prelinked `s₁`. -/
structure Finished (s s₁ u : Linker) (new : List SoinfoId) : Prop where
  old : ∀ x ∈ s.solist, (u.soinfo x).rtldFlags = (s.soinfo x).rtldFlags ∧
    (u.soinfo x).refCount = (s.soinfo x).refCount ∧ (u.soinfo x).linked ∧
    (u.soinfo x).localGroupRoot = (s.soinfo x).localGroupRoot ∧
    (u.soinfo x).children = (s.soinfo x).children
  created : ∀ x ∈ new, ∃ r ∈ new, u.soinfo x = (joined r (s₁.soinfo x)).setLinked ∧
    (u.soinfo r).localGroupRoot = some r ∧ Relation.ReflTransGen (ChildOf s₁) r x
  others : ∀ x, x ∉ new → links (u.soinfo x) = links (s₁.soinfo x)

variable {s₁ : Linker}

section
variable (h : Finished s s₁ u new)
include h

theorem Finished.links (x : SoinfoId) :
    LinkerGroups.links (u.soinfo x) = LinkerGroups.links (s₁.soinfo x) := by
  by_cases hx : x ∈ new
  · obtain ⟨r, -, heq, -⟩ := h.created x hx
    rw [heq]
    rfl
  · exact h.others x hx

theorem Finished.linked (x : SoinfoId) (hx : x ∈ s.solist ∨ x ∈ new) : (u.soinfo x).linked := by
  rcases hx with hx | hx
  · exact (h.old x hx).2.2.1
  obtain ⟨r, -, heq, -⟩ := h.created x hx
  rw [heq]
  rfl

theorem Finished.refCount {f} (hlf : Leftover s s₁ new f)
    (hz : ∀ x ∈ new, (s₁.soinfo x).refCount = 0) (hr : r ∈ s.solist ∨ r ∈ new) :
    (u.soinfo r).refCount = if r ∈ new then 0 else (s.soinfo r).refCount := by
  rcases hr with hs | hn
  · rw [if_neg fun hn => hlf.disjoint hn hs]
    exact (h.old r hs).2.1
  obtain ⟨a, -, heq, -⟩ := h.created r hn
  rw [if_pos hn, heq]
  exact hz r hn

end

theorem crossLinks_eq_added {f : Option SoinfoId} (hcl : ∀ c, caller = some c → c ∈ s.solist)
    (he : Expanding (.dlopen ns caller name flags extinfo) s st new [])
    (hlf : Leftover s s₁ new f) (hl : ∀ x, links (t.soinfo x) = links (s₁.soinfo x))
    (hrd : ∀ x, links (s₁.soinfo x) = links (st.linker.soinfo x))
    (hr : ∀ x, (t.soinfo x).localGroupRoot = (u.soinfo x).localGroupRoot) (r : SoinfoId) :
    crossLinks t new r = addedReferences u (.dlopen ns caller name flags extinfo) st.tasks r := by
  have hn : new.Nodup := (List.nodup_append.mp (hlf.solist ▸ hlf.wf.nodup)).2.1
  have hcn : ∀ p ∈ new, (t.soinfo p).children = resolvedNeeds st.tasks p := by
    intro p hp
    rw [children_of_links hl, children_of_links hrd]
    exact he.grown.children p hp
  rw [addedReferences_eq hn he.needed (fun p hp hc => hlf.disjoint hp (hcl p hc)) r, crossLinks]
  refine congrArg sum (map_congr_left fun p hp => ?_)
  simp only [hr, hcn p hp]

section
variable (hal : ∀ x ∈ s.solist, (s.soinfo x).linked)
  (hcl : ∀ c, caller = some c → c ∈ s.solist)
  (he : Expanding (.dlopen ns caller name flags extinfo) s st new [])
  (hft : st.soinfos.head? = some first) {s₂ : Linker}
  (hlf : Leftover s s₁ new st.soinfos.head?)
  (hrd : ∀ x, Reread (st.linker.soinfo x) (s₁.soinfo x))
  (hgu : linkGroups sys s₁
    (localGroupRoots s₁ (.dlopen ns caller name flags extinfo) first st.tasks) = some (s₂, true))
include hal hcl he hft hlf hrd hgu

theorem joined_of_expanding : (first ∈ new → (s₂.soinfo first).localGroupRoot = some first) ∧
    s₂.solist = s₁.solist ∧ s₂.namespaces = s₁.namespaces ∧ s₂.unloaded = s₁.unloaded ∧
      (∀ x, x ∉ new → s₂.soinfo x = s₁.soinfo x) ∧
      ∀ x ∈ new, ∃ r ∈ new, s₂.soinfo x = joined r (s₁.soinfo x) ∧
        s₂.soinfo r = joined r (s₁.soinfo r) ∧ Relation.ReflTransGen (ChildOf s₁) r x := by
  have hu : ∀ x ∈ new, (s₁.soinfo x).linked = false ∧ (s₁.soinfo x).imageLinked = false := by
    intro x hx
    refine ⟨hlf.linked x hx, ?_⟩
    rw [(hrd x).imageLinked]
    exact (he.grown.unlinked x hx).imageLinked
  have ho : ∀ x ∈ s₁.solist, x ∉ new → (s₁.soinfo x).linked := by
    intro x hx hn
    cases hl : (s₁.soinfo x).linked with
    | true => rfl
    | false => exact absurd (hlf.new_of_unlinked hal hx hl) hn
  have hs : s₁.solist = st.linker.solist := hlf.solist.trans he.grown.solist.symm
  have hro : ∀ r ∈ localGroupRoots s₁ (.dlopen ns caller name flags extinfo) first st.tasks,
      r ∈ s₁.solist ∧ (new ≠ [] → r ∈ new) := by
    intro r hr
    rcases localGroupRoots_mem hr with rfl | ⟨⟨k, hk, rfl⟩, hl⟩
    · exact ⟨hs ▸ he.first_live hft, fun hne => he.first_new hne hft⟩
    · have hlv : k.2 ∈ s₁.solist := hs ▸ he.live k hk
      exact ⟨hlv, fun _ => hlf.new_of_unlinked hal hlv hl⟩
  have hg := (Grouped.start s₁ new).run hlf.wf hro hu ho hgu
  refine ⟨fun hn => ?_, hg.solist, hg.namespaces, hg.unloaded, hg.old, fun x hx => ?_⟩
  · rw [hg.first first hn (foldl_addRoot_head _ rfl)]
    rfl
  obtain ⟨a, ha, hp, hw⟩ := covered_by_root hcl he hft
    (fun y => (hrd y).links) (fun y hy => (hu y hy).1) hx
  have hig := hg.linked x hx a (by simpa using ha) hp hw
  rcases hg.created x hx with heq | ⟨r, hr, heq, hsf, -, hw', -⟩
  · rw [heq, (hu x hx).2] at hig
    cases hig
  · exact ⟨r, hr, heq, hsf, reached_of_walked hw'⟩

theorem finished_of_expanding : Finished s s₁ (LinkerLoad.setLinked s₂ (st.tasks.map snd)) new := by
  obtain ⟨-, -, -, -, hsm, hji⟩ :=
    joined_of_expanding hal hcl he hft hlf hrd hgu
  have hs := setLinked_soinfo s₂ (st.tasks.map snd)
  have ht : ∀ y ∈ new, (LinkerLoad.setLinked s₂ (st.tasks.map snd)).soinfo y =
      (s₂.soinfo y).setLinked := by
    intro y hy
    obtain ⟨k, hk, hky⟩ := he.resolved y hy
    rw [hs y, if_pos (List.mem_map.mpr ⟨k, hk, hky⟩)]
  constructor
  · intro x hx
    obtain ⟨ps, -, heq⟩ := hlf.old x hx
    have hl := hal x hx
    rw [hs x, hsm x fun hn => hlf.disjoint hn hx, heq]
    split
    · exact ⟨rfl, rfl, rfl, rfl, rfl⟩
    · exact ⟨rfl, rfl, hl, rfl, rfl⟩
  · intro x hx
    obtain ⟨r, hr, heq, hsf, hp⟩ := hji x hx
    refine ⟨r, hr, by rw [ht x hx, heq], ?_, hp⟩
    rw [ht r hr, hsf]
    rfl
  · intro x hx
    rw [hs x, hsm x hx]
    split <;> rfl

theorem opened_of_expanding
    (hfi : finishLinking (.dlopen ns caller name flags extinfo) s₂ st.tasks = some t) :
    Opened s t flags new first := by
  obtain ⟨hh, hs2, hn2, hu2, -, -⟩ :=
    joined_of_expanding hal hcl he hft hlf hrd hgu
  have hfn := finished_of_expanding hal hcl he hft hlf hrd hgu
  obtain ⟨h1, h2, h3, h4⟩ := countReferences_spec hfi
  simp only [Request.dlopen, Bool.false_eq_true, if_false, nil_append, setLinked_solist,
    setLinked_namespaces, setLinked_unloaded] at h1 h2 h3 h4
  have hrt : (LinkerLoad.setLinked s₂ (st.tasks.map snd)).soinfo first =
      if first ∈ st.tasks.map snd then (s₂.soinfo first).setLinked else s₂.soinfo first :=
    setLinked_soinfo s₂ _ first
  generalize LinkerLoad.setLinked s₂ (st.tasks.map snd) = u at h4 hfn hrt
  have hl : ∀ x, links (t.soinfo x) = links (s₁.soinfo x) := by
    intro x
    rw [h4 x, ← hfn.links x]
    rfl
  have hs : t.solist = s.solist ++ new := (h1.trans hs2).trans hlf.solist
  refine ⟨wf_of_links hl hlf.wf (h1.trans hs2) (h2.trans hn2), hs,
    (h3.trans hu2).trans hlf.unloaded, ?_, ?_, ?_,
    ?_, ?_, ?_, ?_, ?_, ?_,
    ?_, ?_⟩
  · intro x hx
    rw [h4 x]; exact (hfn.old x hx).2.2.2.2
  · intro x hx
    rw [h4 x]
    exact hfn.linked x (List.mem_append.mp (hs ▸ hx))
  · intro x hx
    rw [h4 x]; exact (hfn.old x hx).1
  · intro x hx
    rw [h4 x]; exact (hfn.old x hx).2.2.2.1
  · intro x hx
    obtain ⟨r, -, heq, -⟩ := hfn.created x hx
    rw [h4 x, heq]
    have hfa := (he.grown.unlinked x hx).flags
    exact ⟨(hrd x).global ∘ hfa.1, (hrd x).nodelete ∘ hfa.2⟩
  · intro x hx
    obtain ⟨r, hr, heq, hsf, hp⟩ := hfn.created x hx
    refine ⟨r, hr, ?_, ?_, ?_⟩
    · rw [h4 x, heq]; rfl
    · rw [h4 r]; exact hsf
    · rwa [childOf_of_links hl]
  · intro r hr
    have hb := hfn.refCount hlf
      (fun x hx => (hrd x).refCount.trans (he.grown.unlinked x hx).refCount)
      (List.mem_append.mp (hs ▸ hr))
    have hc := crossLinks_eq_added (u := u) hcl he hlf hl (fun y => (hrd y).links)
      (fun x => by rw [h4 x]; rfl) r
    rw [hc, ← hb]
    exact congrArg Soinfo.refCount (h4 r)
  · rw [h1, hs2, hlf.solist, ← he.grown.solist]
    exact he.first_live hft
  · intro hn
    have hr := hh hn
    rw [h4 first, hrt]
    split <;> exact hr
  · intro x hx
    obtain ⟨f, hf, hp⟩ := he.reached x hx
    cases hft.symm.trans hf
    rwa [childOf_of_links hl, childOf_of_links fun y => (hrd y).links]
  · intro hn
    exact he.reused first hft hn

end

variable (hfr : sys.FreshBlocks) (wf : Wf s) (hal : ∀ x ∈ s.solist, (s.soinfo x).linked)
  (hcl : ∀ c, caller = some c → c ∈ s.solist) {fuel : ℕ}
include hfr wf hal hcl

theorem findLibraries_opened {sis}
    (h : findLibraries sys fuel s (.dlopen ns caller name flags extinfo) = some (t, true, sis)) :
    ∃ new si, sis.head? = some si ∧ Opened s t flags new si := by
  cases findLibraries_ended h with
  | @finish st _ _ _ first hep hp hft hgu hf =>
    obtain ⟨new, pending, he, ho⟩ := expandTasks_spec rfl hcl hfr (.start wf _) hep
    obtain rfl := ho.mp rfl
    have hrd := reread_prelinkLibraries sys st.linker (st.tasks.map snd)
    rw [hp] at hrd
    rw [he.markLdPreloads] at hgu
    exact ⟨new, first, hft, opened_of_expanding hal hcl he hft
      (he.leftover_prelink hal hp) hrd hgu hf⟩

theorem findLibrary_opened
    (h : findLibrary sys fuel s ns (some name) flags extinfo caller = some (u, some si)) :
    ∃ t new, Opened s t flags new si ∧ t.incrementRefCount si = some u := by
  simp only [findLibrary] at h
  split at h
  · cases h
  · split at h
    · cases h
    · obtain ⟨_, _, heq⟩ := map_eq_some_iff.mp h
      cases heq
  rename_i t sis hop
  obtain ⟨new, first, hft, ho⟩ := findLibraries_opened hfr wf hal hcl hop
  rw [hft] at h
  obtain ⟨v, hic, heq⟩ := map_eq_some_iff.mp h
  cases heq
  exact ⟨t, new, ho, hic⟩

end LinkerGroups
