import Bionic.LinkerRuns

/-! Reference counts over whole runs. The counter of a local group is the number of handles on its
members and of links that enter it from other groups; a link from the executable is not counted, and
the linker's own soinfo starts with one more reference. -/
namespace LinkerReferences

open LinkerSoinfo LinkerNamespaces LinkerLoad LinkerUnload LinkerDlfcn LinkerGroups LinkerRuns
  GraphCollapse Option
open List Nat

def linkerSoinfo (s : Linker) : Option SoinfoId := s.solist[1]?

def ownReference (s : Linker) (r : SoinfoId) : ℕ := if linkerSoinfo s = some r then 1 else 0

def references (s : Linker) (refs : List SoinfoId) (r : SoinfoId) : ℕ :=
  refs.countP fun x => (s.soinfo x).localGroupRoot = some r

/-- Links into the group of `r` from others but the executable. -/
def linksInto (s : Linker) (r : SoinfoId) : ℕ := crossLinks s s.solist.tail r

/-- What is alive is linked and reachable from its live group root; the counters hold one reference
for each member of `refs` and each link between groups. What the executable needs stays. -/
structure Counted (s : Linker) (refs : List SoinfoId) : Prop where
  wf : Wf s
  linked : ∀ x ∈ s.solist, (s.soinfo x).linked
  root : ∀ x ∈ s.solist, ∃ r ∈ s.solist, (s.soinfo x).localGroupRoot = some r ∧
    (s.soinfo r).localGroupRoot = some r ∧ Relation.ReflTransGen (ChildOf s) r x
  count : ∀ r ∈ s.solist, (s.soinfo r).localGroupRoot = some r →
    (s.soinfo r).refCount = ownReference s r + references s refs r + linksInto s r
  live : ∀ x ∈ refs, x ∈ s.solist
  exe : ∀ e, s.solist.head? = some e → ∀ c, c = e ∨ c ∈ (s.soinfo e).children →
    ∀ r, (s.soinfo c).localGroupRoot = some r → Flagged (s.soinfo r) ∨ linkerSoinfo s = some r
  linker : ∀ l, linkerSoinfo s = some l → (s.soinfo l).localGroupRoot = some l

def Held (s : Linker) : Prop := ∀ r ∈ s.solist, (s.soinfo r).localGroupRoot = some r →
  (s.soinfo r).canUnload → 0 < (s.soinfo r).refCount

def MemberOf (s : Linker) (r x : SoinfoId) : Prop :=
  x ∈ s.solist ∧ (s.soinfo x).localGroupRoot = some r

/-- In groups that can be unloaded every cycle runs through the root. -/
def Tame (s : Linker) : Prop := ∀ r ∈ s.solist, (s.soinfo r).canUnload →
  CyclesMeetRoot (ParentOf s) (MemberOf s r) r

/-- Only whole groups have gone, and what is left is as it was. -/
structure Shrunk (s t : Linker) : Prop where
  live : ∀ x ∈ t.solist, x ∈ s.solist
  children : ∀ x ∈ t.solist, (t.soinfo x).children = (s.soinfo x).children
  root : ∀ x ∈ t.solist, (t.soinfo x).localGroupRoot = (s.soinfo x).localGroupRoot
  together : ∀ x ∈ s.solist, ∀ y ∈ s.solist,
    (s.soinfo x).localGroupRoot = (s.soinfo y).localGroupRoot → x ∈ t.solist → y ∈ t.solist

theorem Shrunk.refl (s) : Shrunk s s :=
  ⟨fun _ hx => hx, fun _ _ => rfl, fun _ _ => rfl, fun _ _ _ hy _ _ => hy⟩

theorem Shrunk.trans {s t u} (h : Shrunk s t) (k : Shrunk t u) : Shrunk s u := by
  refine ⟨fun x hx => h.live x (k.live x hx),
    fun x hx => (k.children x hx).trans (h.children x (k.live x hx)),
    fun x hx => (k.root x hx).trans (h.root x (k.live x hx)), fun x hx y hy hxy hxu => ?_⟩
  have hxt := k.live x hxu
  have hyt := h.together x hx y hy hxy hxt
  refine k.together x hxt y hyt ?_ hxu
  rw [h.root x hxt, h.root y hyt]
  exact hxy

variable {x : SoinfoId}

variable {s t : Linker} {refs : List SoinfoId} {r si : SoinfoId}

section
variable {p c : SoinfoId}

theorem references_cons (hrt : (s.soinfo si).localGroupRoot = some r) (refs) (b : SoinfoId) :
    references s (si :: refs) b = references s refs b + if b = r then 1 else 0 := by
  by_cases hb : b = r
  · simp [references, hrt, hb]
  · simp [references, hrt, hb, Ne.symm hb]

theorem crossLinks_pos {ps} (hp : p ∈ ps)
    (hc : c ∈ (s.soinfo p).children) (hcr : (s.soinfo c).localGroupRoot = some r)
    (hpr : (s.soinfo p).localGroupRoot ≠ some r) : 0 < crossLinks s ps r := by
  refine List.sum_pos_iff_exists_pos_nat.mpr ⟨_, List.mem_map.mpr ⟨p, hp, rfl⟩, ?_⟩
  rw [if_neg hpr]
  exact List.countP_pos_iff.mpr ⟨c, hc, by simpa using hcr⟩

variable (h : Counted s refs)
include h

theorem Counted.root_eq (hx : x ∈ s.solist) (hr : (s.soinfo x).localGroupRoot = some r) :
    r ∈ s.solist ∧ (s.soinfo r).localGroupRoot = some r ∧
      Relation.ReflTransGen (ChildOf s) r x := by
  obtain ⟨a, ha, hxa, hsf, hp⟩ := h.root x hx
  cases hr.symm.trans hxa
  exact ⟨ha, hsf, hp⟩

theorem Counted.parent_inside (hz : (s.soinfo r).refCount = 0)
    (hca : (s.soinfo r).canUnload) (hc : c ∈ (s.soinfo p).children)
    (hcr : (s.soinfo c).localGroupRoot = some r) : (s.soinfo p).localGroupRoot = some r := by
  have hlv := h.wf.live p c hc
  obtain ⟨hr, hsf, -⟩ := h.root_eq hlv.2 hcr
  have hct := h.count r hr hsf
  by_contra hpr
  obtain ⟨exe, linker, rest, hs⟩ := h.wf.first
  by_cases hp : p = exe
  · rcases h.exe exe (by rw [hs]; rfl) c (.inr (hp ▸ hc)) r hcr with hf | hl
    · rw [canUnload_of_flagged (h.linked r hr) hf] at hca
      cases hca
    · have hon : ownReference s r = 1 := if_pos hl
      omega
  have hm : p ∈ s.solist.tail := by
    have hp' := hlv.1
    rw [hs] at hp' ⊢
    exact (List.mem_cons.mp hp').resolve_left hp
  have hps : 0 < linksInto s r := crossLinks_pos hm hc hcr hpr
  omega

variable (hr : r ∈ s.solist) (hsf : (s.soinfo r).localGroupRoot = some r)
  (hz : (s.soinfo r).refCount = 0) (hca : (s.soinfo r).canUnload)
include hr hsf hz hca

theorem Counted.collapsed_iff (hcc : CyclesMeetRoot (ParentOf s) (MemberOf s r) r) (x) :
    Collapsed (ParentOf s) (Internal s r) r x ↔ MemberOf s r x := by
  constructor
  · intro hx
    cases hx with
    | root => exact ⟨hr, hsf⟩
    | last hi hp _ =>
      obtain ⟨p, hp⟩ := hp
      have hl : x ∈ s.solist := (h.wf.live p x (h.wf.child_iff.mpr hp)).2
      exact ⟨hl, by simpa [Internal, isExternal, h.linked x hl] using hi⟩
  intro hx
  have ha : ∀ y, MemberOf s r y → Collapsed (ParentOf s) (MemberOf s r) r y := by
    refine (all_collapsed_iff ?_ ?_ ?_).mpr hcc
    · exact (finite_toSet s.solist).subset fun y hy => hy.1
    · intro y hy hn
      obtain ⟨-, -, hpt⟩ := h.root_eq hy.1 hy.2
      rcases hpt.cases_tail with heq | ⟨p, -, hp⟩
      · exact absurd heq hn
      · exact ⟨p, h.wf.child_iff.mp hp⟩
    · intro y hy _ p hp
      have hc := h.wf.child_iff.mpr hp
      exact ⟨(h.wf.live p y hc).1, h.parent_inside hz hca hc hy.2⟩
  refine (ha x hx).congr_member ?_
  intro y hy hn
  have hm := hy.member_or_root.resolve_left hn
  simp [Internal, isExternal, hm.2]

theorem Counted.removable (hx : MemberOf s r x) : Removable s x := by
  obtain ⟨exe, linker, rest, hs⟩ := h.wf.first
  have hc := h.count r hr hsf
  have hlr : linkerSoinfo s ≠ some r := by
    intro hl
    have hon : ownReference s r = 1 := if_pos hl
    omega
  have hee : x ≠ exe := by
    rintro rfl
    rcases h.exe x (by rw [hs]; rfl) x (.inl rfl) r hx.2 with hf | hl
    · rw [canUnload_of_flagged (h.linked r hr) hf] at hca
      cases hca
    · exact hlr hl
  have hsd : x ≠ linker := by
    rintro rfl
    have hl : linkerSoinfo s = some x := by rw [linkerSoinfo, hs]; rfl
    have hrx : r = x := some.inj (hx.2.symm.trans (h.linker x hl))
    exact hlr (hrx ▸ hl)
  have hm := hx.1
  rw [hs] at hm
  rw [Removable, hs]
  simpa [hee, hsd] using hm

end

variable {a : SoinfoId}

section
variable {gone : List SoinfoId}

theorem mem_of_freedAll (hfe : FreedAll s t gone) : x ∈ t.solist ↔ x ∈ s.solist ∧ x ∉ gone := by
  rw [hfe.solist]
  simp

theorem crossLinks_append (s l m) (r : SoinfoId) :
    crossLinks s (l ++ m) r = crossLinks s l r + crossLinks s m r := by
  simp [crossLinks]

theorem crossLinks_perm (s) {l m} (h : l.Perm m) (r : SoinfoId) :
    crossLinks s l r = crossLinks s m r :=
  (h.map _).sum_eq

theorem crossLinks_congr {l}
    (hrt : ∀ p ∈ l, (t.soinfo p).localGroupRoot = (s.soinfo p).localGroupRoot)
    (hcn : ∀ p ∈ l, (t.soinfo p).children = (s.soinfo p).children)
    (hci : ∀ p ∈ l, ∀ c ∈ (s.soinfo p).children,
      (t.soinfo c).localGroupRoot = (s.soinfo c).localGroupRoot) :
    crossLinks t l r = crossLinks s l r := by
  refine congrArg sum (map_congr_left fun p hp => ?_)
  rw [hrt p hp, hcn p hp]
  congr 1
  exact countP_congr fun c hc => by rw [hci p hp c hc]

theorem root_survives (hfe : FreedAll s t gone) (hx : x ∉ gone) :
    (t.soinfo x).localGroupRoot = (s.soinfo x).localGroupRoot := by
  rw [hfe.others x hx]

theorem references_external (h : Counted s refs) (hgn : ∀ x, x ∈ gone ↔ MemberOf s r x)
    (hfe : FreedAll s t gone) (hsf : (s.soinfo r).localGroupRoot = some r) (ha : a ≠ r) :
    references t (gone.flatMap (externalReferences s r)) a = crossLinks s gone a := by
  rw [references, countP_flatMap, crossLinks]
  refine congrArg sum (map_congr_left fun p hp => ?_)
  have hpr : (s.soinfo p).localGroupRoot ≠ some a := by
    rw [((hgn p).mp hp).2]
    exact fun hn => ha (some.inj hn).symm
  simp only [Function.comp_apply, externalReferences, countP_filter, if_neg hpr]
  apply countP_congr
  intro c hc
  have hl := h.linked c (h.wf.live p c hc).2
  by_cases hcr : (s.soinfo c).localGroupRoot = some r
  · simp [isExternal, hcr, ha.symm]
  have hcg : c ∉ gone := fun hcg => hcr ((hgn c).mp hcg).2
  have hne : c ≠ r := fun hn => hcr (hn ▸ hsf)
  simp [isExternal, hl, hcr, hne, root_survives hfe hcg]

section
variable (h : Counted s refs) (hz : (s.soinfo r).refCount = 0)
  (hca : (s.soinfo r).canUnload) (hgn : ∀ x, x ∈ gone ↔ MemberOf s r x)
  (hfe : FreedAll s t gone)
include h hz hca hgn hfe

theorem children_survive {p} (hp : p ∉ gone) : (t.soinfo p).children = (s.soinfo p).children := by
  rw [hfe.others p hp]
  apply List.filter_eq_self.mpr
  intro c hc
  have hc' : c ∉ gone := fun hcg => hp ((hgn p).mpr
    ⟨(h.wf.live p c hc).1, h.parent_inside hz hca hc ((hgn c).mp hcg).2⟩)
  simpa using hc'

theorem path_survives (ha : a ∉ gone) (hpt : Relation.ReflTransGen (ChildOf s) a x) :
    x ∉ gone ∧ Relation.ReflTransGen (ChildOf t) a x := by
  induction hpt with
  | refl => exact ⟨ha, .refl⟩
  | @tail p c _ hp ih =>
    refine ⟨fun hc => ih.1 ((hgn p).mpr ⟨(h.wf.live p c hp).1,
      h.parent_inside hz hca hp ((hgn c).mp hc).2⟩), ih.2.tail ?_⟩
    rw [ChildOf, children_survive h hz hca hgn hfe ih.1]
    exact hp

theorem shrunk_of_freedAll : Shrunk s t := by
  have hm := fun x => mem_of_freedAll (x := x) hfe
  refine ⟨fun x hx => ((hm x).mp hx).1,
    fun x hx => children_survive h hz hca hgn hfe ((hm x).mp hx).2,
    fun x hx => root_survives hfe ((hm x).mp hx).2, fun x hx y hy hxy hxt => ?_⟩
  refine (hm y).mpr ⟨hy, fun hyg => ((hm x).mp hxt).2 ?_⟩
  exact (hgn x).mpr ⟨hx, hxy.trans ((hgn y).mp hyg).2⟩

variable (hr : r ∈ s.solist) (hsf : (s.soinfo r).localGroupRoot = some r)
include hr hsf

theorem solist_of_freedAll : t.solist.head? = s.solist.head? ∧ linkerSoinfo t = linkerSoinfo s ∧
      t.solist.tail = s.solist.tail.filter (fun x => x ∉ gone) ∧ ∀ x ∈ gone, x ∈ s.solist.tail := by
  obtain ⟨exe, linker, rest, hs⟩ := h.wf.first
  have hn : ∀ x ∈ gone, exe ≠ x ∧ linker ≠ x := fun x hx =>
    (h.removable hr hsf hz hca ((hgn x).mp hx)).ne_first h.wf hs
  have hee : exe ∉ gone := fun hg => (hn exe hg).1 rfl
  have hl : linker ∉ gone := fun hg => (hn linker hg).2 rfl
  have ht : t.solist = exe :: linker :: rest.filter fun x => x ∉ gone := by
    rw [hfe.solist, hs]
    simp [hee, hl]
  refine ⟨by rw [ht, hs]; rfl, by rw [linkerSoinfo, linkerSoinfo, ht, hs]; rfl, ?_, ?_⟩
  · rw [ht, hs]
    simp [hl]
  intro x hx
  have hlv := ((hgn x).mp hx).1
  rw [hs] at hlv ⊢
  exact (List.mem_cons.mp hlv).resolve_left fun hxe => (hn x hx).1 hxe.symm

theorem linksInto_of_freedAll (hnd : gone.Nodup) (ha : a ≠ r) : linksInto s a =
      references t (gone.flatMap (externalReferences s r)) a + linksInto t a := by
  obtain ⟨-, -, ht, hs⟩ := solist_of_freedAll h hz hca hgn hfe hr hsf
  have hn : s.solist.tail.Nodup := h.wf.nodup.sublist (tail_sublist _)
  have hsl : s.solist.tail.Perm (gone ++ s.solist.tail.filter fun x => x ∉ gone) := by
    have hpm : gone.Perm (s.solist.tail.filter fun x => x ∈ gone) := by
      refine (perm_ext_iff_of_nodup hnd (hn.filter _)).mpr ?_
      intro x
      simpa using hs x
    refine ((filter_append_perm (fun x => x ∈ gone) s.solist.tail).symm.trans ?_)
    simpa using hpm.symm.append_right _
  have hsm : crossLinks t t.solist.tail a = crossLinks s t.solist.tail a := by
    have hot : ∀ p ∈ t.solist.tail, p ∉ gone := by
      intro p hp
      rw [ht] at hp
      simpa using (List.mem_filter.mp hp).2
    refine crossLinks_congr (fun p hp => root_survives hfe (hot p hp))
      (fun p hp => children_survive h hz hca hgn hfe (hot p hp)) ?_
    intro p hp c hc
    refine root_survives hfe fun hcg => hot p hp ((hgn p).mpr ?_)
    exact ⟨(h.wf.live p c hc).1, h.parent_inside hz hca hc ((hgn c).mp hcg).2⟩
  rw [references_external h hgn hfe hsf ha]
  unfold linksInto
  rw [hsm, ht, crossLinks_perm s hsl, crossLinks_append]

omit h hz hca hr hsf in
theorem group_survives (hx : x ∈ t.solist)
    (hxa : (s.soinfo x).localGroupRoot = some a) (hsf : (s.soinfo a).localGroupRoot = some a) :
    a ∉ gone := by
  intro ha
  obtain ⟨hxs, hxg⟩ := (mem_of_freedAll hfe).mp hx
  obtain rfl : a = r := some.inj (hsf.symm.trans ((hgn a).mp ha).2)
  exact hxg ((hgn x).mpr ⟨hxs, hxa⟩)

omit hca hfe in
theorem references_outside : ∀ x ∈ refs, x ∉ gone := by
  intro x hx hg
  have hp : 0 < references s refs r :=
    List.countP_pos_iff.mpr ⟨x, hx, by simpa using ((hgn x).mp hg).2⟩
  have hc := h.count r hr hsf
  omega

theorem count_of_freedAll (hn : gone.Nodup) (ha : a ∈ t.solist)
    (hrt : (t.soinfo a).localGroupRoot = some a) : (t.soinfo a).refCount = ownReference t a +
      references t (gone.flatMap (externalReferences s r) ++ refs) a + linksInto t a := by
  obtain ⟨-, hl, -, -⟩ := solist_of_freedAll h hz hca hgn hfe hr hsf
  obtain ⟨has, hag⟩ := (mem_of_freedAll hfe).mp ha
  rw [root_survives hfe hag] at hrt
  have har : a ≠ r := by
    rintro rfl
    exact hag ((hgn a).mpr ⟨has, hrt⟩)
  have hon : ownReference t a = ownReference s a := by simp only [ownReference, hl]
  have hs : references t refs a = references s refs a := by
    apply countP_congr
    intro x hx
    rw [root_survives hfe (references_outside h hz hgn hr hsf x hx)]
  have hap : references t (gone.flatMap (externalReferences s r) ++ refs) a =
      references t (gone.flatMap (externalReferences s r)) a + references t refs a :=
    countP_append
  have hls := linksInto_of_freedAll h hz hca hgn hfe hr hsf hn har
  have hod := h.count a has hrt
  have hrefCount : (t.soinfo a).refCount = (s.soinfo a).refCount := by
    rw [hfe.others a hag]
  omega

omit hz hca hr hsf in
theorem external_live (hx : x ∈ gone.flatMap (externalReferences s r)) : x ∈ t.solist := by
  obtain ⟨p, -, hx⟩ := List.mem_flatMap.mp hx
  obtain ⟨hc, het⟩ := List.mem_filter.mp hx
  simp only [isExternal, Bool.and_eq_true, decide_eq_true_eq] at het
  exact (mem_of_freedAll hfe).mpr ⟨(h.wf.live p x hc).2, fun hg => het.2.2 ((hgn x).mp hg).2⟩

theorem counted_of_freedAll (hn : gone.Nodup) :
    Counted t (gone.flatMap (externalReferences s r) ++ refs) := by
  have hm := fun x => mem_of_freedAll (x := x) hfe
  have hs := shrunk_of_freedAll h hz hca hgn hfe
  obtain ⟨hh, hlr, -, -⟩ := solist_of_freedAll h hz hca hgn hfe hr hsf
  refine ⟨hfe.wf, ?_, ?_, fun a ha hrt => count_of_freedAll h hz hca hgn hfe hr hsf hn ha hrt,
    ?_, ?_, ?_⟩
  · intro x hx
    obtain ⟨hxs, hxg⟩ := (hm x).mp hx
    rw [hfe.others x hxg]
    exact h.linked x hxs
  · intro x hx
    obtain ⟨hxs, hxg⟩ := (hm x).mp hx
    obtain ⟨a, ha, hxa, hs', hp⟩ := h.root x hxs
    have hag := group_survives hgn hfe hx hxa hs'
    refine ⟨a, (hm a).mpr ⟨ha, hag⟩, ?_, ?_, (path_survives h hz hca hgn hfe hag hp).2⟩
    · rw [root_survives hfe hxg]; exact hxa
    · rw [root_survives hfe hag]; exact hs'
  · intro x hx
    rcases List.mem_append.mp hx with hx | hx
    · exact external_live h hgn hfe hx
    · exact (hm x).mpr ⟨h.live x hx, references_outside h hz hgn hr hsf x hx⟩
  · intro e he c hc a ha
    rw [hh] at he
    have het : e ∈ t.solist := mem_of_mem_head? (hh.trans he)
    have hct : c ∈ t.solist := by
      rcases hc with rfl | hc
      · exact het
      · exact (hfe.wf.live e c hc).2
    rw [hs.children e het] at hc
    rw [hs.root c hct] at ha
    rw [hlr]
    obtain ⟨-, hae, -⟩ := h.root_eq (hs.live c hct) ha
    refine (h.exe e he c hc a ha).imp (fun hf => ?_) id
    rw [Flagged, hfe.others a (group_survives hgn hfe hct ha hae)]
    exact hf
  · intro l hl
    have hlt : l ∈ t.solist := mem_of_getElem? hl
    rw [hlr] at hl
    rw [hs.root l hlt]
    exact h.linker l hl

end

theorem tame_of_freedAll (hfe : FreedAll s t gone) (h : Tame s) : Tame t := by
  have hm := fun x => mem_of_freedAll (x := x) hfe
  intro a ha hca
  obtain ⟨has, hag⟩ := (hm a).mp ha
  have hc' : (s.soinfo a).canUnload := by
    rw [hfe.others a hag] at hca
    exact hca
  refine (h a has hc').mono ?_ ?_
  · intro p x hx hp
    rw [ParentOf, hfe.others x ((hm x).mp hx.1).2] at hp
    exact (List.mem_filter.mp hp).1
  · intro x hx
    obtain ⟨hxs, hxg⟩ := (hm x).mp hx.1
    exact ⟨hxs, by rw [← root_survives hfe hxg]; exact hx.2⟩

end

section
variable {refs' : List SoinfoId} {n : ℕ}

theorem recount_root (x : SoinfoId) :
    ((s.modify r (Soinfo.setRefCount n)).soinfo x).localGroupRoot = (s.soinfo x).localGroupRoot :=
  modify_keeps s (f := Soinfo.setRefCount n) Soinfo.localGroupRoot (fun _ => rfl) r x

theorem recount_children (x : SoinfoId) :
    ((s.modify r (Soinfo.setRefCount n)).soinfo x).children = (s.soinfo x).children :=
  modify_keeps s (f := Soinfo.setRefCount n) Soinfo.children (fun _ => rfl) r x

theorem recount_parents (x : SoinfoId) :
    ((s.modify r (Soinfo.setRefCount n)).soinfo x).parents = (s.soinfo x).parents :=
  modify_keeps s (f := Soinfo.setRefCount n) Soinfo.parents (fun _ => rfl) r x

theorem recount_flags (x : SoinfoId) :
    ((s.modify r (Soinfo.setRefCount n)).soinfo x).rtldFlags = (s.soinfo x).rtldFlags :=
  modify_keeps s (f := Soinfo.setRefCount n) Soinfo.rtldFlags (fun _ => rfl) r x

theorem recount_canUnload (x : SoinfoId) :
    ((s.modify r (Soinfo.setRefCount n)).soinfo x).canUnload = (s.soinfo x).canUnload :=
  modify_keeps s (f := Soinfo.setRefCount n) Soinfo.canUnload (fun _ => rfl) r x

theorem Counted.recount (h : Counted s refs) (hlv : ∀ x ∈ refs', x ∈ s.solist)
    (hoh : ∀ a ≠ r, references s refs' a = references s refs a)
    (hn : n = ownReference s r + references s refs' r + linksInto s r) :
    Counted (s.modify r (Soinfo.setRefCount n)) refs' := by
  have hci : ChildOf (s.modify r (Soinfo.setRefCount n)) = ChildOf s := by
    funext p c
    simp only [ChildOf, recount_children]
  have hrs : ∀ a, references (s.modify r (Soinfo.setRefCount n)) refs' a =
      references s refs' a := fun a => by simp only [references, recount_root]
  have hls : ∀ a, linksInto (s.modify r (Soinfo.setRefCount n)) a = linksInto s a := fun a =>
    crossLinks_congr (fun p _ => recount_root p) (fun p _ => recount_children p)
      fun _ _ c _ => recount_root c
  refine ⟨(setRefCount_keepsLinks n).wf h.wf r, ?_, ?_, ?_, hlv, ?_, ?_⟩
  · intro x hx
    rw [modify_keeps s (f := Soinfo.setRefCount n) Soinfo.linked (fun _ => rfl)]
    exact h.linked x hx
  · intro x hx
    obtain ⟨a, ha, hxa, hsf, hp⟩ := h.root x hx
    exact ⟨a, ha, by rw [recount_root]; exact hxa, by rw [recount_root]; exact hsf, by rwa [hci]⟩
  · intro a ha hrt
    rw [recount_root] at hrt
    rw [hrs, hls]
    by_cases har : a = r
    · subst har
      rw [modify_soinfo_self]
      exact hn
    · rw [modify_soinfo_of_ne _ _ _ _ har, hoh a har]
      exact h.count a ha hrt
  · intro e he c hc a ha
    rw [recount_children] at hc
    rw [recount_root] at ha
    refine (h.exe e he c hc a ha).imp (fun hf => ?_) id
    rw [flagged_iff, recount_flags]
    exact flagged_iff.mp hf
  · intro l hl
    rw [recount_root]
    exact h.linker l hl

theorem tame_recount (h : Tame s) : Tame (s.modify r (Soinfo.setRefCount n)) := by
  intro a ha hca
  rw [recount_canUnload] at hca
  have hp : ParentOf (s.modify r (Soinfo.setRefCount n)) = ParentOf s := by
    funext p x
    simp only [ParentOf, recount_parents]
  have hm : MemberOf (s.modify r (Soinfo.setRefCount n)) a = MemberOf s a := by
    funext x
    simp only [MemberOf, recount_root, modify_solist]
  rw [hp, hm]
  exact h a ha hca

end

/-- Between two groups that are unloaded one after the other. -/
structure Orderly (s : Linker) (refs : List SoinfoId) : Prop where
  counted : Counted s refs
  held : Held s
  tame : Tame s

structure Dropped (s t : Linker) (refs : List SoinfoId) : Prop where
  orderly : Orderly t refs
  shrunk : Shrunk s t
  length : t.solist.length ≤ s.solist.length

section
variable {unload : Linker → SoinfoId → Option Linker} {fuel : ℕ}
  (hud : ∀ s refs si, Orderly s (si :: refs) → s.solist.length < fuel →
    ∃ t, unload s si = some t ∧ Dropped s t refs)
include hud

theorem foldlM_dropped {l} (h : Orderly s (l ++ refs)) (hf : s.solist.length < fuel) :
    ∃ t, l.foldlM unload s = some t ∧ Dropped s t refs := by
  induction l generalizing s with
  | nil => exact ⟨s, rfl, h, Shrunk.refl s, le_rfl⟩
  | cons si rest ih =>
    obtain ⟨s1, h1, hd⟩ := hud s (rest ++ refs) si h hf
    obtain ⟨t, ht, hrs⟩ := ih hd.orderly (lt_of_le_of_lt hd.length hf)
    refine ⟨t, ?_, hrs.orderly, hd.shrunk.trans hrs.shrunk, hrs.length.trans hd.length⟩
    rw [foldlM_cons, h1]
    exact ht

theorem soinfoUnloadImpl_dropped (h : Counted s refs) (htm : Tame s) (hr : r ∈ s.solist)
    (hsf : (s.soinfo r).localGroupRoot = some r) (hz : (s.soinfo r).refCount = 0)
    (hca : (s.soinfo r).canUnload)
    (hh : ∀ a ∈ s.solist, a ≠ r → (s.soinfo a).localGroupRoot = some a →
      (s.soinfo a).canUnload → 0 < (s.soinfo a).refCount) (hf : s.solist.length ≤ fuel) :
    ∃ t, soinfoUnloadImpl unload s r = some t ∧ Dropped s t refs ∧
      ∀ x, MemberOf s r x → x ∉ t.solist := by
  have hif := h.collapsed_iff hr hsf hz hca (htm r hr hca)
  obtain ⟨gone, s1, hgn, hn, hfe, hil⟩ := soinfoUnloadImpl_spec h.wf unload hca
    fun x hx => h.removable hr hsf hz hca ((hif x).mp hx)
  have hm : ∀ x, x ∈ gone ↔ MemberOf s r x := fun x => (hgn x).trans (hif x)
  have hmm := fun x => mem_of_freedAll (x := x) hfe
  have hrg : r ∈ gone := (hm r).mpr ⟨hr, hsf⟩
  have hl : s1.solist.length < s.solist.length := by
    rw [hfe.solist]
    exact List.length_filter_lt_length_iff_exists.mpr ⟨r, hr, by simpa using hrg⟩
  have hod : Orderly s1 (gone.flatMap (externalReferences s r) ++ refs) := by
    refine ⟨counted_of_freedAll h hz hca hm hfe hr hsf hn, fun a ha haa hac => ?_,
      tame_of_freedAll hfe htm⟩
    obtain ⟨has, hag⟩ := (hmm a).mp ha
    rw [root_survives hfe hag] at haa
    rw [hfe.others a hag] at hac ⊢
    exact hh a has (fun har => hag (har ▸ hrg)) haa hac
  obtain ⟨t, ht, hd⟩ := foldlM_dropped hud hod (by omega)
  have hs := shrunk_of_freedAll h hz hca hm hfe
  refine ⟨t, ?_, ⟨hd.orderly, hs.trans hd.shrunk, hd.length.trans hl.le⟩, ?_⟩
  · rw [hil, if_pos (h.linked r hr)]
    exact ht
  · intro x hx hxt
    exact ((hmm x).mp (hd.shrunk.live x hxt)).2 ((hm x).mpr hx)

end

section

theorem Orderly.decrement (h : Orderly s (si :: refs)) :
    ∃ a ∈ s.solist, ∃ n, (s.soinfo si).localGroupRoot = some a ∧
      (s.soinfo a).localGroupRoot = some a ∧ (s.soinfo a).refCount = n + 1 ∧
      s.decrementRefCount a = some (s.modify a (Soinfo.setRefCount n), n) ∧
      Counted (s.modify a (Soinfo.setRefCount n)) refs := by
  obtain ⟨a, ha, hrt, hsf, -⟩ := h.counted.root si (h.counted.live si mem_cons_self)
  have hc := h.counted.count a ha hsf
  have hoe := references_cons hrt refs
  have hrs := hoe a
  rw [if_pos rfl] at hrs
  obtain ⟨n, hn⟩ : ∃ n, (s.soinfo a).refCount = n + 1 :=
    exists_eq_succ_of_ne_zero (by omega)
  refine ⟨a, ha, n, hrt, hsf, hn, ?_, ?_⟩
  · simp [Linker.decrementRefCount, hsf, hn]
  refine h.counted.recount (fun x hx => h.counted.live x (mem_cons_of_mem _ hx))
    (fun b hb => ?_) (by omega)
  rw [hoe b, if_neg hb, add_zero]

theorem shrunk_recount (s) (a : SoinfoId) (n) : Shrunk s (s.modify a (Soinfo.setRefCount n)) :=
  ⟨fun _ hx => hx, fun x _ => recount_children x, fun x _ => recount_root x, fun _ _ _ hy _ _ => hy⟩

theorem Held.others (h : Held s) (n) : ∀ b ∈ s.solist, b ≠ a →
    ((s.modify a (Soinfo.setRefCount n)).soinfo b).localGroupRoot = some b →
    ((s.modify a (Soinfo.setRefCount n)).soinfo b).canUnload →
    0 < ((s.modify a (Soinfo.setRefCount n)).soinfo b).refCount := by
  intro b hb hba
  rw [modify_soinfo_of_ne _ _ _ _ hba]
  exact h b hb

theorem Orderly.dropped_of_kept {n} (h : Orderly s (si :: refs))
    (hc : Counted (s.modify a (Soinfo.setRefCount n)) refs) (hk : (s.soinfo a).canUnload → 0 < n) :
    Dropped s (s.modify a (Soinfo.setRefCount n)) refs := by
  refine ⟨⟨hc, fun b hb hbb hbc => ?_, tame_recount h.tame⟩, shrunk_recount s a n, le_rfl⟩
  by_cases hba : b = a
  · subst hba
    rw [recount_canUnload] at hbc
    rw [modify_soinfo_self]
    exact hk hbc
  · exact h.held.others n b hb hba hbb hbc

theorem soinfoUnload_dropped (fuel : ℕ) (h : Orderly s (si :: refs))
    (hf : s.solist.length < fuel) : ∃ t, soinfoUnload fuel s si = some t ∧ Dropped s t refs ∧
      ∀ r, (s.soinfo si).localGroupRoot = some r → (s.soinfo r).refCount = 1 →
        (s.soinfo r).canUnload → ∀ x, MemberOf s r x → x ∉ t.solist := by
  induction fuel generalizing s refs si with
  | zero => exact absurd hf (not_lt_zero _)
  | succ fuel ih =>
    have hsi : si ∈ s.solist := h.counted.live si mem_cons_self
    obtain ⟨a, ha, n, hrt, hsf, hn, hd, hcd⟩ := h.decrement
    have hud : ∀ s refs si, Orderly s (si :: refs) → s.solist.length < fuel →
        ∃ t, soinfoUnload fuel s si = some t ∧ Dropped s t refs := by
      intro s refs si hs hl
      obtain ⟨t, ht, hdr, -⟩ := ih hs hl
      exact ⟨t, ht, hdr⟩
    rw [soinfoUnload, if_pos (h.counted.linked si hsi)]
    simp only [hrt, hd]
    by_cases hz : 0 < n
    · refine ⟨_, if_pos hz, h.dropped_of_kept hcd fun _ => hz, fun r har h1 => ?_⟩
      cases har
      omega
    rw [if_neg hz]
    cases hca : (s.soinfo a).canUnload with
    | false =>
      refine ⟨_, by rw [soinfoUnloadImpl, recount_canUnload, hca]; rfl,
        h.dropped_of_kept hcd ?_, ?_⟩
      · intro hc
        rw [hca] at hc
        cases hc
      intro r har _ hc
      cases har
      rw [hca] at hc
      cases hc
    | true =>
      have hz' : ((s.modify a (Soinfo.setRefCount n)).soinfo a).refCount = 0 := by
        rw [modify_soinfo_self]
        exact Nat.le_zero.mp (not_lt.mp hz)
      obtain ⟨t, ht, hdr, hgn⟩ := soinfoUnloadImpl_dropped hud hcd
        (tame_recount h.tame) ha (by rw [recount_root]; exact hsf) hz'
        (by rw [recount_canUnload]; exact hca) (h.held.others n) (le_of_lt_succ hf)
      refine ⟨t, ht, ⟨hdr.orderly, (shrunk_recount s a n).trans hdr.shrunk, hdr.length⟩,
        fun r har _ _ x hx => hgn x ?_⟩
      cases har
      exact ⟨hx.1, by rw [recount_root]; exact hx.2⟩

variable {new : List SoinfoId} {flags : RtldFlags}

theorem exists_edge_into {α : Type} {R} {P : α → Prop} {a b}
    (h : Relation.ReflTransGen R a b) (ha : ¬ P a) (hb : P b) : ∃ p c, R p c ∧ ¬ P p ∧ P c := by
  induction h with
  | refl => exact absurd hb ha
  | @tail p c _ hpc ih =>
    by_cases hp : P p
    · exact ih hp
    · exact ⟨p, c, hpc, hp, hb⟩

theorem mem_opened (ho : Opened s t flags new si) : x ∈ t.solist ↔ x ∈ s.solist ∨ x ∈ new := by
  rw [ho.solist, mem_append]

theorem opened_first (ho : Opened s t flags new si) (wf : Wf s) :
    t.solist.head? = s.solist.head? ∧ linkerSoinfo t = linkerSoinfo s ∧
      t.solist.tail = s.solist.tail ++ new := by
  obtain ⟨exe, linker, rest, hs⟩ := wf.first
  rw [linkerSoinfo, linkerSoinfo, ho.solist, hs]
  exact ⟨rfl, rfl, rfl⟩

section
variable (h : Counted s refs)
include h

section
variable (ho : Opened s t flags new si)
include ho

theorem Counted.old_root
    (hx : x ∈ s.solist) (hr : r ∈ new) : (t.soinfo x).localGroupRoot ≠ some r := by
  intro hxr
  rw [ho.oldRoot x hx] at hxr
  have hn := ho.wf.nodup
  rw [ho.solist] at hn
  exact (List.nodup_append.mp hn).2.2 r (h.root_eq hx hxr).1 r hr rfl

theorem Counted.old_links (r : SoinfoId) : crossLinks t s.solist.tail r = linksInto s r := by
  have hl : ∀ p ∈ s.solist.tail, p ∈ s.solist := fun p hp => mem_of_mem_tail hp
  exact crossLinks_congr (fun p hp => ho.oldRoot p (hl p hp))
    (fun p hp => ho.children p (hl p hp)) fun p _ c hc => ho.oldRoot c (h.wf.live p c hc).2

theorem path_opened (ha : a ∈ s.solist) (hax : Relation.ReflTransGen (ChildOf s) a x) :
    x ∈ s.solist ∧ Relation.ReflTransGen (ChildOf t) a x := by
  induction hax with
  | refl => exact ⟨ha, .refl⟩
  | @tail p c _ hp ih =>
    refine ⟨(h.wf.live p c hp).2, ih.2.tail ?_⟩
    rw [ChildOf, ho.children p ih.1]
    exact hp

theorem Counted.old_linksInto (hr : r ∈ new) : linksInto s r = 0 := by
  rw [← h.old_links ho]
  apply sum_eq_zero
  intro n hn
  obtain ⟨p, hp, rfl⟩ := List.mem_map.mp hn
  have hps := mem_of_mem_tail hp
  rw [if_neg (h.old_root ho hps hr), ho.children p hps]
  exact List.countP_eq_zero.mpr fun c hc => by
    simpa using h.old_root ho (h.wf.live p c hc).2 hr

theorem count_of_opened (hr : r ∈ t.solist) (hsf : (t.soinfo r).localGroupRoot = some r) :
    (t.soinfo r).refCount = ownReference t r + references t refs r + linksInto t r := by
  obtain ⟨-, hlr, ht⟩ := opened_first ho h.wf
  have hls : linksInto t r = linksInto s r + crossLinks t new r := by
    rw [linksInto, ht, crossLinks_append, h.old_links ho]
  have hc := ho.refCount r hr
  rcases (mem_opened ho).mp hr with hrs | hrn
  · have hon : ownReference t r = ownReference s r := by simp only [ownReference, hlr]
    have hs : references t refs r = references s refs r :=
      countP_congr fun x hx => by rw [ho.oldRoot x (h.live x hx)]
    have hnw : r ∉ new := fun hn => h.old_root ho hrs hn hsf
    rw [if_neg hnw] at hc
    have hod := h.count r hrs ((ho.oldRoot r hrs).symm.trans hsf)
    omega
  · rw [if_pos hrn] at hc
    have hre : references t refs r = 0 :=
      List.countP_eq_zero.mpr fun x hx => by simpa using h.old_root ho (h.live x hx) hrn
    have hod := h.old_linksInto ho hrn
    have hno : ownReference t r = 0 := by
      apply if_neg
      intro hl
      rw [hlr] at hl
      exact h.old_root ho (mem_of_getElem? hl) hrn hsf
    omega

theorem counted_of_opened : Counted t refs := by
  obtain ⟨hh, hlr, -⟩ := opened_first ho h.wf
  refine ⟨ho.wf, ho.linked, ?_, fun r hr hsf => count_of_opened h ho hr hsf,
    fun x hx => (mem_opened ho).mpr (.inl (h.live x hx)), ?_,
    ?_⟩
  · intro x hx
    rcases (mem_opened ho).mp hx with hx | hx
    · obtain ⟨r, hr, hxr, hsf, hrh⟩ := h.root x hx
      exact ⟨r, (mem_opened ho).mpr (.inl hr), (ho.oldRoot x hx).trans hxr,
        (ho.oldRoot r hr).trans hsf, (path_opened h ho hr hrh).2⟩
    · obtain ⟨r, hr, hxr, hsf, hrh⟩ := ho.root x hx
      exact ⟨r, (mem_opened ho).mpr (.inr hr), hxr, hsf, hrh⟩
  · intro e he c hc a ha
    rw [hh] at he
    have hes : e ∈ s.solist := mem_of_mem_head? he
    rw [ho.children e hes] at hc
    have hcs : c ∈ s.solist := by
      rcases hc with rfl | hc
      · exact hes
      · exact (h.wf.live e c hc).2
    rw [ho.oldRoot c hcs] at ha
    rw [hlr]
    refine (h.exe e he c hc a ha).imp (fun hf => ?_) id
    rw [flagged_iff, ho.oldFlags a (h.root_eq hcs ha).1]
    exact flagged_iff.mp hf
  · intro l hl
    rw [hlr] at hl
    rw [ho.oldRoot l (mem_of_getElem? hl)]
    exact h.linker l hl

end

theorem held_of_opened (hh : Held s) (ho : Opened s t flags new si)
    (hr : r ∈ t.solist) (hsf : (t.soinfo r).localGroupRoot = some r)
    (hca : (t.soinfo r).canUnload) (hs : (t.soinfo si).localGroupRoot ≠ some r) :
    0 < (t.soinfo r).refCount := by
  have hct := ho.refCount r hr
  rcases (mem_opened ho).mp hr with hrs | hrn
  · have hnw : r ∉ new := fun hn => h.old_root ho hrs hn hsf
    rw [if_neg hnw] at hct
    have hc' : (s.soinfo r).canUnload := by
      rw [Soinfo.canUnload, ho.linked r hr, ho.oldFlags r hrs] at hca
      rw [Soinfo.canUnload, h.linked r hrs]
      exact hca
    have hpo := hh r hrs ((ho.oldRoot r hrs).symm.trans hsf) hc'
    omega
  · obtain ⟨p, c, hpc, hp, hc⟩ := exists_edge_into (P := fun x => (t.soinfo x).localGroupRoot =
      some r) (ho.reached r hrn) hs hsf
    have hpn : p ∈ new := by
      rcases (mem_opened ho).mp (ho.wf.live p c hpc).1 with hps | hpn
      · rw [ChildOf, ho.children p hps] at hpc
        exact absurd hc (h.old_root ho (h.wf.live p c hpc).2 hrn)
      · exact hpn
    have hpo : 0 < crossLinks t new r := crossLinks_pos hpn hpc hc hp
    omega

end

theorem counted_handle {u} (h : Counted t refs) (hs : si ∈ t.solist)
    (hh : ∀ r ∈ t.solist, (t.soinfo r).localGroupRoot = some r →
      (t.soinfo r).canUnload → (t.soinfo si).localGroupRoot ≠ some r → 0 < (t.soinfo r).refCount)
    (hic : t.incrementRefCount si = some u) : Counted u (si :: refs) ∧ Held u := by
  obtain ⟨r, hrt, rfl⟩ := map_eq_some_iff.mp hic
  obtain ⟨hr, hsf, -⟩ := h.root_eq hs hrt
  have hc := h.count r hr hsf
  have hoe := references_cons hrt refs
  have hrs := hoe r
  rw [if_pos rfl] at hrs
  refine ⟨h.recount ?_ ?_ (by omega), ?_⟩
  · intro x hx
    rcases List.mem_cons.mp hx with rfl | hx
    · exact hs
    · exact h.live x hx
  · intro b hb
    rw [hoe b, if_neg hb, add_zero]
  intro b hb hbb hbc
  by_cases hbr : b = r
  · subst hbr
    rw [modify_soinfo_self]
    exact succ_pos _
  rw [recount_root] at hbb
  rw [recount_canUnload] at hbc
  rw [modify_soinfo_of_ne _ _ _ _ hbr]
  exact hh b hb hbb hbc fun hn => hbr (some.inj (hn.symm.trans hrt))

end

/-- What starting a program leaves: its libraries are loaded with RTLD_GLOBAL, and no handle
is open. -/
structure Started (s : Linker) : Prop where
  wf : Wf s
  linked : ∀ x ∈ s.solist, (s.soinfo x).linked
  root : ∀ x ∈ s.solist, ∃ r ∈ s.solist, (s.soinfo x).localGroupRoot = some r ∧
    (s.soinfo r).localGroupRoot = some r ∧ Relation.ReflTransGen (ChildOf s) r x
  flagged : ∀ x ∈ s.solist, linkerSoinfo s = some x ∨ Flagged (s.soinfo x)
  linker : ∀ l, linkerSoinfo s = some l → (s.soinfo l).localGroupRoot = some l
  count : ∀ r ∈ s.solist, (s.soinfo r).localGroupRoot = some r →
    (s.soinfo r).refCount = ownReference s r + linksInto s r

variable {handles : List SoinfoId}

theorem Started.counted (h : Started s) : Counted s [] ∧ Held s := by
  refine ⟨⟨h.wf, h.linked, h.root, ?_, by simp, ?_, h.linker⟩, ?_⟩
  · intro r hr hsf
    rw [h.count r hr hsf]
    rfl
  · intro e he c hc a ha
    have hcs : c ∈ s.solist := by
      rcases hc with rfl | hc
      · exact mem_of_mem_head? he
      · exact (h.wf.live e c hc).2
    obtain ⟨r, hr, hcr, -⟩ := h.root c hcs
    cases ha.symm.trans hcr
    exact (h.flagged a hr).symm
  · intro r hr hsf hca
    rcases h.flagged r hr with hl | hf
    · have hon : ownReference s r = 1 := if_pos hl
      rw [h.count r hr hsf]
      omega
    · rw [canUnload_of_flagged (h.linked r hr) hf] at hca
      cases hca

/-- Runs of calls that succeed, with the open handles, which are closed at most as often as opened,
in states with `P`. -/
inductive Run (P : Linker → Prop) (s₀ : Linker) : Linker → List SoinfoId → Prop where
  | start : Run P s₀ s₀ []
  | dlopen {s t : Linker} {handles : List SoinfoId} (sys : System) (fuel : ℕ) (ns : NamespaceId)
      (name : Option Name) (flags : RtldFlags) (extinfo : Option ExtInfo)
      (caller : Option SoinfoId) (si : SoinfoId) : Run P s₀ s handles → sys.FreshBlocks →
      (∀ c, caller = some c → c ∈ s.solist) →
      findLibrary sys fuel s ns name flags extinfo caller = some (t, some si) →
      Run P s₀ t (si :: handles)
  | dlclose {s t : Linker} {handles : List SoinfoId} (si : SoinfoId) : Run P s₀ s handles → P s →
      si ∈ handles → dlclose s si = some t → Run P s₀ t (handles.erase si)

theorem Counted.perm {refs'} (h : Counted s refs) (hp : refs.Perm refs') : Counted s refs' :=
  ⟨h.wf, h.linked, h.root, fun r hr hsf => by
    rw [h.count r hr hsf, references, references, hp.countP_eq],
    fun x hx => h.live x (hp.mem_iff.mpr hx), h.exe, h.linker⟩

theorem dlclose_dropped (h : Counted s handles) (hh : Held s) (ht : Tame s) (hs : si ∈ handles) :
    ∃ t, dlclose s si = some t ∧ Dropped s t (handles.erase si) ∧
      ∀ r, (s.soinfo si).localGroupRoot = some r → (s.soinfo r).refCount = 1 →
        (s.soinfo r).canUnload → ∀ x, MemberOf s r x → x ∉ t.solist :=
  soinfoUnload_dropped _ ⟨h.perm (perm_cons_erase hs), hh, ht⟩ (lt_succ_self _)

theorem run_counted {s0} (hs : Started s0)
    (hrn : Run Tame s0 s handles) : Counted s handles ∧ Held s := by
  induction hrn with
  | start => exact hs.counted
  | @dlopen s t handles sys fuel ns name flags extinfo caller si _ hf hcl hop ih =>
    obtain ⟨hc, hh⟩ := ih
    cases name with
    | none =>
      simp only [findLibrary] at hop
      split at hop
      · cases hop
      rename_i e he
      obtain ⟨u, hic, heq⟩ := map_eq_some_iff.mp hop
      cases heq
      exact counted_handle hc (mem_of_mem_head? he) (fun r hr hsf hca _ => hh r hr hsf hca) hic
    | some name =>
      obtain ⟨u, new, ho, hic⟩ :=
        findLibrary_opened hf hc.wf hc.linked hcl hop
      exact counted_handle (counted_of_opened hc ho) ho.live
        (fun r hr hsf hca => held_of_opened hc hh ho hr hsf hca) hic
  | @dlclose s t handles si _ ht hsi hco ih =>
    obtain ⟨u, hu, hd, -⟩ := dlclose_dropped ih.1 ih.2 ht hsi
    cases hu.symm.trans hco
    exact ⟨hd.orderly.counted, hd.orderly.held⟩

theorem launched_started : Started launched := by
  refine ⟨launched_wf, by decide, ?_, by decide, ?_, by decide⟩
  · intro x hx
    have hc : x = 1 ∨ x = 2 ∨ x = 3 := by simpa [launched] using hx
    rcases hc with rfl | rfl | rfl
    · exact ⟨1, by decide, by decide, by decide, .refl⟩
    · exact ⟨2, by decide, by decide, by decide, .refl⟩
    refine ⟨1, by decide, by decide, by decide, .single ?_⟩
    change 3 ∈ (launched.soinfo 1).children
    decide
  · intro l hl
    cases hl
    decide

theorem run_openThenClose {P sys} (hf : sys.FreshBlocks) {c}
    (h : openThenClose sys c = some (s, si, t)) :
    Run P launched s [si] ∧ dlclose s si = some t := by
  obtain ⟨hop, hc⟩ := openThenClose_spec h
  exact ⟨.dlopen sys 5 1 (some [c]) {} none none si .start hf (by simp) hop, hc⟩

def loopShelf : System :=
  shelf (fun c =>
    if c = 'r' ∨ c = 'd' then some [.needed ['a']]
    else if c = 'a' then some [.needed ['b']]
    else if c = 'b' then some [.needed ['d']] else none) (fun _ => false) nextBlock

def chainShelf : System :=
  shelf (fun c =>
    if c = 'r' then some [.needed ['b']] else if c = 'b' then some [] else none)
    (fun _ => false) nextBlock

theorem chainShelf_opened : ∃ s t, Run Tame launched s [4] ∧ Tame s ∧ dlclose s 4 = some t ∧
    (s.soinfo 4).localGroupRoot = some 4 ∧ (s.soinfo 4).refCount = 1 ∧
    (s.soinfo 4).canUnload ∧ MemberOf s 4 5 := by
  have hrn : (openThenClose chainShelf 'r').map (fun r => decide (r.2.1 = 4 ∧
      r.1.solist = [1, 2, 3, 4, 5] ∧ (r.1.soinfo 4).refCount = 1 ∧
      (r.1.soinfo 4).canUnload ∧ (r.1.soinfo 4).localGroupRoot = some 4 ∧
      (r.1.soinfo 5).localGroupRoot = some 4 ∧
      ∀ x ∈ r.1.solist, ∀ p ∈ (r.1.soinfo x).parents,
        (r.1.soinfo p).localGroupRoot = some p)) = some true := by
    decide +kernel
  obtain ⟨⟨s, si, t⟩, hst, heq⟩ := map_eq_some_iff.mp hrn
  obtain ⟨rfl, h1, h2, h3, h4, h5, h6⟩ := of_decide_eq_true heq
  obtain ⟨hs, hc⟩ := run_openThenClose (shelf_freshBlocks _ _) hst
  refine ⟨s, t, hs, fun r _ hca => cyclesMeetRoot_of_no_inner fun p x hpx => ?_, hc, h4, h2,
    h3, by rw [h1]; decide, h5⟩
  obtain ⟨hp, ⟨hpr, hn⟩, ⟨hx, -⟩⟩ := hpx
  exact hn (some.inj ((h6 x hx.1 p hp).symm.trans hpr.2))

/-- No group root goes before its group. A `dlclose` takes a group that could be unloaded with its
last reference, as a whole, and every group left has its root and, if it could be unloaded, a
reference. -/
theorem unloaded_groups_go_whole {s₀ s : Linker} {handles : List SoinfoId} (hstart : Started s₀)
    (hrun : Run Tame s₀ s handles) :
    (∀ x ∈ s.solist, ∃ r ∈ s.solist, (s.soinfo x).localGroupRoot = some r) ∧
    ∀ si ∈ handles, Tame s → ∃ t, dlclose s si = some t ∧
      (∀ r, (s.soinfo si).localGroupRoot = some r → (s.soinfo r).refCount = 1 →
        (s.soinfo r).canUnload → ∀ x, MemberOf s r x → x ∉ t.solist) ∧
      (∀ x ∈ s.solist, ∀ y ∈ s.solist,
        (s.soinfo x).localGroupRoot = (s.soinfo y).localGroupRoot → x ∈ t.solist → y ∈ t.solist) ∧
      ∀ x ∈ t.solist, ∃ r ∈ t.solist, (t.soinfo x).localGroupRoot = some r ∧
        ((t.soinfo r).canUnload → 0 < (t.soinfo r).refCount) := by
  obtain ⟨hc, hh⟩ := run_counted hstart hrun
  constructor
  · intro x hx
    obtain ⟨r, hr, hxr, -⟩ := hc.root x hx
    exact ⟨r, hr, hxr⟩
  intro si hs htm
  obtain ⟨t, ht, hd, hgn⟩ := dlclose_dropped hc hh htm hs
  refine ⟨t, ht, hgn, hd.shrunk.together, fun x hx => ?_⟩
  obtain ⟨r, hr, hxr, hsf, -⟩ := hd.orderly.counted.root x hx
  exact ⟨r, hr, hxr, hd.orderly.held r hr hsf⟩

/-- The library a is 5 and survives the root 4 of its group. -/
theorem loop_survives_its_root :
    loopShelf.FreshBlocks ∧ Started launched ∧ ∃ s t, Run (fun _ => True) launched s [4] ∧
      (s.soinfo 4).localGroupRoot = some 4 ∧ (s.soinfo 4).refCount = 1 ∧
      (s.soinfo 4).canUnload ∧ MemberOf s 4 5 ∧ dlclose s 4 = some t ∧ 5 ∈ t.solist ∧
      (t.soinfo 5).localGroupRoot = some 4 ∧ 4 ∉ t.solist := by
  have hrn : (openThenClose loopShelf 'r').map (fun r => (r.2.1, [r.1.solist, r.2.2.solist],
      [(r.1.soinfo 4).localGroupRoot, (r.1.soinfo 5).localGroupRoot,
        (r.2.2.soinfo 5).localGroupRoot], (r.1.soinfo 4).refCount, (r.1.soinfo 4).canUnload)) =
      some (4, [[1, 2, 3, 4, 5, 6, 7], [1, 2, 3, 5, 6, 7]], [some 4, some 4, some 4], 1, true) := by
    decide +kernel
  obtain ⟨⟨s, si, t⟩, hst, heq⟩ := map_eq_some_iff.mp hrn
  simp only [Prod.mk.injEq, List.cons.injEq, and_true] at heq
  obtain ⟨rfl, ⟨h1, h2⟩, ⟨h3, h4, h5⟩, h6, h7⟩ := heq
  have hf : loopShelf.FreshBlocks := shelf_freshBlocks _ _
  obtain ⟨hs, hc⟩ := run_openThenClose hf hst
  exact ⟨hf, launched_started, s, t, hs, h3, h6, h7, ⟨by rw [h1]; decide, h4⟩, hc,
    by rw [h2]; decide, h5, by rw [h2]; decide⟩

theorem unloaded_groups_go_whole_chain : ∃ s t, Started launched ∧ Run Tame launched s [4] ∧
    Tame s ∧ dlclose s 4 = some t ∧ MemberOf s 4 5 ∧ 5 ∉ t.solist := by
  obtain ⟨s, t, hs, ht, hc, hrt, hct, hca, hm⟩ := chainShelf_opened
  obtain ⟨-, ha⟩ := unloaded_groups_go_whole launched_started hs
  obtain ⟨u, hu, hgn, -⟩ := ha 4 (by simp) ht
  cases hc.symm.trans hu
  exact ⟨s, t, launched_started, hs, ht, hc, hm, hgn 4 hrt hct hca 5 hm⟩

/-- The counter of a group is the number of handles on its members and of links into it from other
groups but the executable's, and the linker's soinfo has one more. A `dlclose` frees nothing that
has another handle or that a survivor needs. -/
theorem refCount_eq_references {s₀ s : Linker} {handles : List SoinfoId} (hstart : Started s₀)
    (hrun : Run Tame s₀ s handles) : (∀ r ∈ s.solist, (s.soinfo r).localGroupRoot = some r →
      (s.soinfo r).refCount = ownReference s r + references s handles r + linksInto s r) ∧
    ∀ si ∈ handles, Tame s → ∃ t, dlclose s si = some t ∧ (∀ x ∈ handles.erase si, x ∈ t.solist) ∧
      ∀ p ∈ t.solist, ∀ c ∈ (s.soinfo p).children, c ∈ t.solist := by
  obtain ⟨hcd, hh⟩ := run_counted hstart hrun
  refine ⟨hcd.count, fun si hs htm => ?_⟩
  obtain ⟨t, ht, hd, -⟩ := dlclose_dropped hcd hh htm hs
  refine ⟨t, ht, hd.orderly.counted.live, fun p hp c hc => ?_⟩
  rw [← hd.shrunk.children p hp] at hc
  exact (hd.orderly.counted.wf.live p c hc).2

/-- No handle is open and nothing needs the linker, yet its counter is not zero. -/
theorem linker_counter_is_not_zero :
    Started launched ∧ Run (fun _ => True) launched launched [] ∧ 2 ∈ launched.solist ∧
      (launched.soinfo 2).localGroupRoot = some 2 ∧ (launched.soinfo 2).refCount ≠
        references launched [] 2 + crossLinks launched launched.solist 2 :=
  ⟨launched_started, .start, by decide, by decide, by decide⟩

theorem refCount_eq_references_chain : ∃ s, Started launched ∧ Run Tame launched s [4] ∧
    (s.soinfo 4).refCount = ownReference s 4 + references s [4] 4 + linksInto s 4 := by
  obtain ⟨s, t, hs, -, -, hrt, -⟩ := chainShelf_opened
  have hl : 4 ∈ s.solist := (run_counted launched_started hs).1.live 4 (by simp)
  exact ⟨s, launched_started, hs, (refCount_eq_references launched_started hs).1 4 hl hrt⟩

end LinkerReferences
