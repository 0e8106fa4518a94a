import Bionic.GraphCollapse
import Bionic.LinkerLoad

/-! `soinfo_unload`: the reference count of the local group goes down by one, and a group without
references is taken apart. A worklist follows the child links from the root and takes a library once
its last parent is gone; libraries of other groups lose one reference for each link. -/
namespace LinkerUnload

open LinkerSoinfo LinkerNamespaces LinkerLoad GraphCollapse
open List

structure Worklist where
  linker : Linker
  unload : List SoinfoId
  localUnload : List SoinfoId
  external : List SoinfoId

def isExternal (root : SoinfoId) (child : Soinfo) : Bool :=
  child.linked && decide (child.localGroupRoot ≠ some root)

/-- One child of `si` is popped and loses `si` as a parent. -/
def popChild (root si : SoinfoId) (w : Worklist) (child : SoinfoId) : Worklist :=
  let s := w.linker.modify child (Soinfo.dropParent si)
  if w.localUnload.contains child then { w with linker := s }
  else if isExternal root (s.soinfo child) then
    { w with linker := s, external := w.external ++ [child] }
  else if (s.soinfo child).parents.isEmpty then
    { w with linker := s, unload := w.unload ++ [child] }
  else { w with linker := s }

def takeSoinfo (root si : SoinfoId) (w : Worklist) : Worklist :=
  let children := (w.linker.soinfo si).children
  let s := w.linker.modify si fun x => { x with children := [] }
  children.foldl (popChild root si)
    { w with linker := s, localUnload := w.localUnload ++ [si] }

def collect (root : SoinfoId) : ℕ → Worklist → Option Worklist
  | fuel, w =>
    match w.unload with
    | [] => some w
    | si :: rest =>
      match fuel with
      | 0 => none
      | fuel + 1 =>
        if w.localUnload.contains si then collect root fuel { w with unload := rest }
        else collect root fuel (takeSoinfo root si { w with unload := rest })

def freeAll (s : Linker) : List SoinfoId → Option Linker
  | [] => some s
  | si :: rest =>
    match ({ s with unloaded := s.unloaded ++ [si] }).soinfoFree si with
    | none => none
    | some s₁ => freeAll s₁ rest

/-- `unload` is `soinfo_unload`, for the external references. -/
def soinfoUnloadImpl (unload : Linker → SoinfoId → Option Linker) (s : Linker)
    (root : SoinfoId) : Option Linker :=
  if !(s.soinfo root).canUnload then some s
  else
    match collect root (walkFuel s) ⟨s, [root], [], []⟩ with
    | none => none
    | some w =>
      match freeAll w.linker w.localUnload with
      | none => none
      | some s₁ => if (s.soinfo root).linked then w.external.foldlM unload s₁ else some s₁

/-- `fuel` bounds the nesting of groups that lose their last reference. -/
def soinfoUnload : ℕ → Linker → SoinfoId → Option Linker
  | 0, _, _ => none
  | fuel + 1, s, si =>
    if (s.soinfo si).linked then
      match (s.soinfo si).localGroupRoot with
      | none => none
      | some root =>
        match s.decrementRefCount root with
        | none => none
        | some (s₁, n) =>
          if 0 < n then some s₁ else soinfoUnloadImpl (soinfoUnload fuel) s₁ root
    else soinfoUnloadImpl (soinfoUnload fuel) s si

section
variable (s : Linker) (root si c d : SoinfoId)

theorem isExternal_modify_parents : isExternal root ((s.modify c (Soinfo.dropParent si)).soinfo d) =
      isExternal root (s.soinfo d) := by
  by_cases h : d = c
  · subst h; rw [modify_soinfo_self]; rfl
  · rw [modify_soinfo_of_ne _ _ _ _ h]

theorem remove_modify_parents : remove ((s.modify c (Soinfo.dropParent si)).soinfo d).parents si =
      remove (s.soinfo d).parents si := by
  by_cases h : d = c
  · subst h; rw [modify_soinfo_self]; exact remove_remove _ _
  · rw [modify_soinfo_of_ne _ _ _ _ h]

end

/-- What becomes an external reference while `si` is taken. -/
def externalChildren (root : SoinfoId) (w : Worklist) (cs : List SoinfoId) : List SoinfoId :=
  cs.filter fun c => !w.localUnload.contains c && isExternal root (w.linker.soinfo c)

/-- The children that have no parent left once `si` is taken. -/
def orphans (root si : SoinfoId) (w : Worklist) (cs : List SoinfoId) : List SoinfoId :=
  cs.filter fun c => !w.localUnload.contains c && !isExternal root (w.linker.soinfo c) &&
    (remove (w.linker.soinfo c).parents si).isEmpty

section
variable (root si : SoinfoId)
include root si

theorem popChild_linker (w) (c : SoinfoId) :
    (popChild root si w c).linker = w.linker.modify c (Soinfo.dropParent si) := by
  unfold popChild
  dsimp only
  split
  · rfl
  split
  · rfl
  · split <;> rfl

theorem popChild_localUnload (w) (c : SoinfoId) :
    (popChild root si w c).localUnload = w.localUnload := by
  unfold popChild
  dsimp only
  split
  · rfl
  split
  · rfl
  · split <;> rfl

theorem popChild_external (w) (c : SoinfoId) :
    (popChild root si w c).external = w.external ++ externalChildren root w [c] := by
  unfold popChild externalChildren
  simp only [isExternal_modify_parents]
  by_cases hc : c ∈ w.localUnload
  · simp [hc]
  cases he : isExternal root (w.linker.soinfo c) with
  | true => simp [hc, he]
  | false =>
    simp only [contains_eq_mem, hc, decide_false, Bool.false_eq_true, if_false]
    split <;> simp [hc, he]

theorem popChild_unload (w) (c : SoinfoId) :
    (popChild root si w c).unload = w.unload ++ orphans root si w [c] := by
  have hps : ((w.linker.modify c (Soinfo.dropParent si)).soinfo c).parents =
      remove (w.linker.soinfo c).parents si := by
    rw [modify_soinfo_self]; rfl
  unfold popChild orphans
  simp only [isExternal_modify_parents, hps]
  by_cases hc : c ∈ w.localUnload
  · simp [hc]
  cases he : isExternal root (w.linker.soinfo c) with
  | true => simp [hc, he]
  | false =>
    cases hp : (remove (w.linker.soinfo c).parents si).isEmpty <;> simp [hc, he, hp]

theorem popChildren_spec (cs w) :
    (cs.foldl (popChild root si) w).linker = w.linker.removeParent si cs ∧
    (cs.foldl (popChild root si) w).localUnload = w.localUnload ∧
    (cs.foldl (popChild root si) w).external = w.external ++ externalChildren root w cs ∧
    (cs.foldl (popChild root si) w).unload = w.unload ++ orphans root si w cs := by
  induction cs generalizing w with
  | nil => simp [Linker.removeParent, externalChildren, orphans]
  | cons c cs ih =>
    have het : externalChildren root (popChild root si w c) cs = externalChildren root w cs := by
      simp only [externalChildren, popChild_linker, popChild_localUnload, isExternal_modify_parents]
    have ho : orphans root si (popChild root si w c) cs = orphans root si w cs := by
      simp only [orphans, popChild_linker, popChild_localUnload, isExternal_modify_parents,
        remove_modify_parents]
    obtain ⟨h1, h2, h3, h4⟩ := ih (popChild root si w c)
    refine ⟨?_, ?_, ?_, ?_⟩
    · rw [foldl_cons, h1, popChild_linker]; rfl
    · rw [foldl_cons, h2, popChild_localUnload]
    · rw [foldl_cons, h3, het, popChild_external, append_assoc]
      simp only [externalChildren, ← filter_append, singleton_append]
    · rw [foldl_cons, h4, ho, popChild_unload, append_assoc]
      simp only [orphans, ← filter_append, singleton_append]

end

def ParentOf (s : Linker) (p x : SoinfoId) : Prop := p ∈ (s.soinfo x).parents

/-- The worklist may take `x` on behalf of `root`. -/
def Internal (s : Linker) (root x : SoinfoId) : Prop := isExternal root (s.soinfo x) = false

/-- The links of `x` once the libraries of `gone` were taken. -/
def cutLinks (gone : List SoinfoId) (x : SoinfoId) (si : Soinfo) : Soinfo :=
  { si with
    children := if x ∈ gone then [] else si.children
    parents := si.parents.filter fun p => p ∉ gone }

def externalReferences (s : Linker) (root p : SoinfoId) : List SoinfoId :=
  (s.soinfo p).children.filter fun c => decide (c ≠ root) && isExternal root (s.soinfo c)

/-- Relative to the state `s` that the loop started from. -/
structure CollectInv (s : Linker) (root : SoinfoId) (w : Worklist) : Prop where
  solist : w.linker.solist = s.solist
  namespaces : w.linker.namespaces = s.namespaces
  unloaded : w.linker.unloaded = s.unloaded
  soinfo : ∀ x, w.linker.soinfo x = cutLinks w.localUnload x (s.soinfo x)
  nodup : w.localUnload.Nodup
  start : w.localUnload = [] → w.unload = [root]
  rooted : w.localUnload ≠ [] → root ∈ w.localUnload
  sound : ∀ x, x ∈ w.unload ∨ x ∈ w.localUnload → Collapsed (ParentOf s) (Internal s root) root x
  complete : ∀ x, Internal s root x → (∃ p, ParentOf s p x) →
    (∀ p, ParentOf s p x → p ∈ w.localUnload) → x ∈ w.unload ∨ x ∈ w.localUnload
  external : w.external = w.localUnload.flatMap (externalReferences s root)

theorem cutLinks_nil (x : SoinfoId) (si) : cutLinks [] x si = si := by
  simp [cutLinks]

theorem collectInv_start (s) (root : SoinfoId) : CollectInv s root ⟨s, [root], [], []⟩ := by
  refine ⟨rfl, rfl, rfl, fun x => (cutLinks_nil x _).symm, nodup_nil, fun _ => rfl,
    fun h => absurd rfl h, ?_, ?_, rfl⟩
  · rintro x (hx | hx)
    · rw [mem_singleton.mp hx]; exact .root
    · cases hx
  · rintro x - ⟨p, hp⟩ ha
    cases ha p hp

theorem collectInv_skip {s root si w rest}
    (h : CollectInv s root w) (hw : w.unload = si :: rest) (hs : si ∈ w.localUnload) :
    CollectInv s root { w with unload := rest } := by
  refine ⟨h.solist, h.namespaces, h.unloaded, h.soinfo, h.nodup, ?_, h.rooted, ?_, ?_, h.external⟩
  · intro hn
    simp only at hn
    rw [hn] at hs
    cases hs
  · rintro x (hx | hx)
    · exact h.sound x (.inl (by rw [hw]; exact mem_cons_of_mem _ hx))
    · exact h.sound x (.inr hx)
  intro x hi hp ha
  rcases h.complete x hi hp ha with hx | hx
  · rw [hw] at hx
    rcases mem_cons.mp hx with rfl | hx
    · exact .inr hs
    · exact .inl hx
  · exact .inr hx

theorem cutLinks_append (gone) (si x : SoinfoId) (y) :
    cutLinks (gone ++ [si]) x y = { cutLinks gone x y with
        children := if x ∈ gone ++ [si] then [] else y.children
        parents := remove (cutLinks gone x y).parents si } := by
  simp [cutLinks, remove, filter_filter, Bool.and_comm]

variable {s : Linker} {root si : SoinfoId} {w : Worklist}

section
variable {rest : List SoinfoId}

/-- The state in which the children of `si` are popped. -/
private def taken (w : Worklist) (si : SoinfoId) (rest : List SoinfoId) : Worklist :=
  { linker := w.linker.modify si fun x => { x with children := [] }
    unload := rest
    localUnload := w.localUnload ++ [si]
    external := w.external }

section
variable (h : CollectInv s root w)
include h

private theorem taken_soinfo (x : SoinfoId) :
    (taken w si rest).linker.soinfo x = { cutLinks w.localUnload x (s.soinfo x) with
        children := if x ∈ w.localUnload ++ [si] then [] else (s.soinfo x).children } := by
  by_cases hx : x = si
  · subst hx
    simp [taken, h.soinfo, cutLinks]
  · simp [taken, modify_soinfo_of_ne _ _ _ _ hx, h.soinfo, cutLinks, hx]

private theorem takeSoinfo_eq (hs : si ∉ w.localUnload) :
    takeSoinfo root si { w with unload := rest } =
      (s.soinfo si).children.foldl (popChild root si) (taken w si rest) := by
  have hc : (w.linker.soinfo si).children = (s.soinfo si).children := by
    simp [h.soinfo, cutLinks, hs]
  unfold takeSoinfo taken
  simp only [hc]

section
variable (hw : w.unload = si :: rest)
include hw

private theorem root_mem_taken : root ∈ w.localUnload ++ [si] := by
  by_cases hn : w.localUnload = []
  · have hs := h.start hn
    rw [hw] at hs
    simp [(List.cons.inj hs).1]
  · exact mem_append_left _ (h.rooted hn)

private theorem sound_taken {x}
    (hx : x ∈ w.localUnload ++ [si]) : Collapsed (ParentOf s) (Internal s root) root x := by
  rcases mem_append.mp hx with hx | hx
  · exact h.sound x (.inr hx)
  · rw [mem_singleton.mp hx]
    exact h.sound si (.inl (by rw [hw]; exact mem_cons_self))

private theorem externalChildren_taken :
    externalChildren root (taken w si rest) (s.soinfo si).children =
      externalReferences s root si := by
  apply filter_congr
  intro c _
  have he : isExternal root ((taken w si rest).linker.soinfo c) = isExternal root (s.soinfo c) := by
    rw [taken_soinfo h]; rfl
  rw [he]
  cases hc : isExternal root (s.soinfo c) with
  | false => simp
  | true =>
    have hif : c ∈ w.localUnload ++ [si] ↔ c = root := by
      constructor
      · intro hm
        rcases (sound_taken h hw hm).member_or_root with hr | hi
        · exact hr
        · exact absurd (hc.symm.trans hi) (by simp)
      · rintro rfl
        exact root_mem_taken h hw
    have hcn : (taken w si rest).localUnload.contains c = decide (c = root) := by
      rw [contains_eq_mem]
      exact decide_eq_decide.mpr hif
    rw [hcn]
    simp

end

private theorem mem_orphans_taken {c} :
    c ∈ orphans root si (taken w si rest) (s.soinfo si).children ↔
      c ∈ (s.soinfo si).children ∧ c ∉ w.localUnload ++ [si] ∧ Internal s root c ∧
        ∀ p, ParentOf s p c → p ∈ w.localUnload ++ [si] := by
  have he : isExternal root ((taken w si rest).linker.soinfo c) = isExternal root (s.soinfo c) := by
    rw [taken_soinfo h]; rfl
  have hp : (remove ((taken w si rest).linker.soinfo c).parents si).isEmpty ↔
      ∀ p, ParentOf s p c → p ∈ w.localUnload ++ [si] := by
    rw [taken_soinfo h, List.isEmpty_iff, eq_nil_iff_forall_not_mem]
    apply forall_congr'
    intro p
    simp only [cutLinks, mem_remove, mem_filter, ParentOf, mem_append,
      mem_singleton, decide_eq_true_eq]
    tauto
  unfold orphans Internal
  rw [mem_filter, Bool.and_eq_true, Bool.and_eq_true, hp, he]
  simp [taken, and_assoc]

end

theorem collectInv_take (wf : Wf s) (h : CollectInv s root w) (hw : w.unload = si :: rest)
    (hs : si ∉ w.localUnload) :
    CollectInv s root (takeSoinfo root si { w with unload := rest }) := by
  rw [takeSoinfo_eq h hs]
  obtain ⟨hlr, hl, het, hu⟩ :=
    popChildren_spec root si (s.soinfo si).children (taken w si rest)
  have hg : (taken w si rest).localUnload = w.localUnload ++ [si] := rfl
  refine ⟨?_, ?_, ?_, ?_, ?_, ?_, ?_, ?_, ?_, ?_⟩
  · rw [hlr, removeParent_solist]; exact h.solist
  · rw [hlr, removeParent_namespaces]; exact h.namespaces
  · rw [hlr, removeParent_unloaded]; exact h.unloaded
  · intro x
    rw [hlr, hl, hg, removeParent_soinfo, taken_soinfo h]
    rw [cutLinks_append]
    by_cases hx : x ∈ (s.soinfo si).children
    · rw [if_pos hx]; rfl
    have ho : si ∉ (cutLinks w.localUnload x (s.soinfo x)).parents :=
      fun hm => hx (wf.child_iff.mpr (mem_filter.mp hm).1)
    rw [if_neg hx, remove_eq_self ho]
  · rw [hl, hg]
    exact List.nodup_append.mpr ⟨h.nodup, nodup_singleton si, fun a ha b hb hab =>
      hs (mem_singleton.mp hb ▸ hab ▸ ha)⟩
  · intro hn
    rw [hl, hg] at hn
    exact absurd hn (by simp)
  · intro _
    rw [hl]
    exact root_mem_taken h hw
  · rintro x (hx | hx)
    · rw [hu] at hx
      rcases mem_append.mp hx with hx | hx
      · exact h.sound x (.inl (by rw [hw]; exact mem_cons_of_mem _ hx))
      · obtain ⟨hc, -, hi, hal⟩ := (mem_orphans_taken h).mp hx
        exact .last hi ⟨si, wf.child_iff.mp hc⟩ fun p hp => sound_taken h hw (hal p hp)
    · rw [hl] at hx
      exact sound_taken h hw hx
  · intro x hi hp hal
    rw [hl, hg] at hal ⊢
    rw [hu]
    by_cases hx : x ∈ w.localUnload ++ [si]
    · exact .inr hx
    refine .inl ?_
    by_cases hpr : ParentOf s si x
    · exact mem_append_right _
        ((mem_orphans_taken h).mpr ⟨wf.child_iff.mpr hpr, hx, hi, hal⟩)
    have hbf : ∀ p, ParentOf s p x → p ∈ w.localUnload := by
      intro p hpx
      rcases mem_append.mp (hal p hpx) with hm | hm
      · exact hm
      · exact absurd (mem_singleton.mp hm ▸ hpx) hpr
    rcases h.complete x hi hp hbf with hm | hm
    · rw [hw] at hm
      rcases mem_cons.mp hm with rfl | hm
      · exact absurd (mem_append_right _ (mem_singleton.mpr rfl)) hx
      · exact mem_append_left _ hm
    · exact absurd (mem_append_left _ hm) hx
  · rw [het, hl, hg, externalChildren_taken h hw, flatMap_append]
    simp only [flatMap_singleton]
    rw [← h.external]
    rfl

end

variable {t : Linker} {gone : List SoinfoId}

theorem takeSoinfo_measure (wf : Wf s)
    (rest) (h : CollectInv s root w) (hs : si ∉ w.localUnload) :
    (takeSoinfo root si { w with unload := rest }).unload.length +
        pendingLinks s (takeSoinfo root si { w with unload := rest }).localUnload ≤
      rest.length + pendingLinks s w.localUnload := by
  rw [takeSoinfo_eq h hs]
  obtain ⟨-, hl, -, hu⟩ :=
    popChildren_spec root si (s.soinfo si).children (taken w si rest)
  have hln : (orphans root si (taken w si rest) (s.soinfo si).children).length ≤
      (s.soinfo si).children.length := length_filter_le _ _
  have hp := pendingLinks_take wf hs
  have hg : (taken w si rest).localUnload = w.localUnload ++ [si] := rfl
  have hr : (taken w si rest).unload = rest := rfl
  rw [hu, hl, hg, hr, length_append]
  omega

theorem collect_run (wf : Wf s) (fuel w)
    (h : CollectInv s root w) (hf : w.unload.length + pendingLinks s w.localUnload ≤ fuel) :
    ∃ w', collect root fuel w = some w' ∧ CollectInv s root w' ∧ w'.unload = [] := by
  induction fuel generalizing w with
  | zero =>
    have hn : w.unload = [] := List.length_eq_zero_iff.mp (by omega)
    exact ⟨w, by simp [collect, hn], h, hn⟩
  | succ fuel ih =>
    cases hw : w.unload with
    | nil => exact ⟨w, by simp [collect, hw], h, hw⟩
    | cons si rest =>
      rw [hw, length_cons] at hf
      by_cases hs : si ∈ w.localUnload
      · obtain ⟨w', hc, hiv, hn⟩ := ih _ (collectInv_skip h hw hs) (by simp only; omega)
        exact ⟨w', by rw [collect, hw]; simpa [hs] using hc, hiv, hn⟩
      have hm := takeSoinfo_measure wf rest h hs
      obtain ⟨w', hc, hiv, hn⟩ := ih _ (collectInv_take wf h hw hs) (by omega)
      exact ⟨w', by rw [collect, hw]; simpa [hs] using hc, hiv, hn⟩

theorem collect_spec (wf : Wf s) (root : SoinfoId) :
    ∃ w, collect root (walkFuel s) ⟨s, [root], [], []⟩ = some w ∧ CollectInv s root w ∧
      ∀ x, x ∈ w.localUnload ↔ Collapsed (ParentOf s) (Internal s root) root x := by
  have hf : [root].length + pendingLinks s [] ≤ walkFuel s := by
    simp [pendingLinks, walkFuel]
  obtain ⟨w, hc, hiv, hn⟩ := collect_run wf (walkFuel s) _ (collectInv_start s root) hf
  refine ⟨w, hc, hiv, fun x => ⟨fun hx => hiv.sound x (.inr hx), fun hx => ?_⟩⟩
  have hr : root ∈ w.localUnload := by
    apply hiv.rooted
    intro hep
    have hs := hiv.start hep
    rw [hn] at hs
    cases hs
  apply hx.mem_of_closed hr
  intro y hi hp ha
  rcases hiv.complete y hi hp ha with hy | hy
  · rw [hn] at hy
    cases hy
  · exact hy

theorem CollectInv.wf (wf : Wf s) (h : CollectInv s root w) : Wf w.linker := by
  refine ⟨?_, ?_, ?_, ?_, ?_⟩
  · rw [h.solist]; exact wf.first
  · rw [h.solist]; exact wf.nodup
  · intro x y
    rw [h.soinfo x, h.soinfo y]
    by_cases hx : x ∈ w.localUnload
    · have ho : x ∉ (cutLinks w.localUnload y (s.soinfo y)).parents := by simp [cutLinks, hx]
      rw [count_eq_zero_of_not_mem ho]
      simp [cutLinks, hx]
    · simp [cutLinks, hx, count_filter, wf.mirrored x y]
  · intro x y hy
    rw [h.soinfo x] at hy
    rw [h.solist]
    by_cases hx : x ∈ w.localUnload
    · simp [cutLinks, hx] at hy
    · exact wf.live x y (by simpa [cutLinks, hx] using hy)
  · intro n x hx
    rw [h.namespaces] at hx
    rw [h.solist, h.soinfo x]
    exact wf.members n x hx

structure FreedAll (s t : Linker) (gone : List SoinfoId) : Prop where
  wf : Wf t
  solist : t.solist = s.solist.filter fun x => x ∉ gone
  unloaded : t.unloaded = s.unloaded ++ gone
  cleared : ∀ x ∈ gone, t.soinfo x = Soinfo.zero
  others : ∀ x, x ∉ gone → t.soinfo x =
    { s.soinfo x with
      children := (s.soinfo x).children.filter fun c => c ∉ gone
      parents := (s.soinfo x).parents.filter fun p => p ∉ gone }
  namespaces : ∀ n, t.namespaces n =
    { s.namespaces n with soinfoList := (s.namespaces n).soinfoList.filter fun x => x ∉ gone }

theorem filter_remove (l gone) (si : SoinfoId) :
    (remove l si).filter (fun x => x ∉ gone) = l.filter fun x => x ∉ si :: gone := by
  simp [remove, filter_filter, Bool.and_comm]

variable (wf : Wf s)
include wf

theorem wf_unloaded (l) : Wf { s with unloaded := l } :=
  ⟨wf.first, wf.nodup, wf.mirrored, wf.live, wf.members⟩

theorem drop_two_remove (hsi : Removable s si) :
    (remove s.solist si).drop 2 = remove (s.solist.drop 2) si := by
  obtain ⟨exe, linker, rest, hs⟩ := wf.first
  obtain ⟨h1, h2⟩ := hsi.ne_first wf hs
  simp [hs, remove, h1, h2]

theorem freeAll_spec (hn : gone.Nodup)
    (hr : ∀ x ∈ gone, Removable s x) : ∃ t, freeAll s gone = some t ∧ FreedAll s t gone := by
  induction gone generalizing s with
  | nil =>
    refine ⟨s, rfl, wf, ?_, ?_, ?_, ?_, ?_⟩ <;> simp
  | cons si gone ih =>
    obtain ⟨hs, hg⟩ := List.nodup_cons.mp hn
    have wf0 := wf_unloaded wf (s.unloaded ++ [si])
    have hr0 := hr si mem_cons_self
    obtain ⟨s1, hfe⟩ := soinfoFree_isSome wf0 hr0
    obtain ⟨-, hf⟩ := soinfoFree_spec wf0 hfe
    have hr1 : ∀ x ∈ gone, Removable s1 x := by
      intro x hx
      unfold Removable
      rw [hf.solist]
      rw [drop_two_remove wf hr0]
      refine mem_remove.mpr ⟨hr x (mem_cons_of_mem _ hx), ?_⟩
      rintro rfl
      exact hs hx
    obtain ⟨t, ht, ha⟩ := ih (hf.wf wf0 hr0) hg hr1
    refine ⟨t, by rw [freeAll, hfe]; exact ht, ha.wf, ?_, ?_, ?_, ?_, ?_⟩
    · rw [ha.solist, hf.solist, filter_remove]
    · rw [ha.unloaded, hf.unloaded, append_assoc]; rfl
    · intro x hx
      rcases mem_cons.mp hx with rfl | hx
      · rw [ha.others x hs, hf.cleared]; rfl
      · exact ha.cleared x hx
    · intro x hx
      obtain ⟨hne, hx⟩ := not_or.mp (mt mem_cons.mpr hx)
      rw [ha.others x hx, hf.others x hne]
      simp only [filter_remove]
    · intro n
      rw [ha.namespaces n, hf.namespaces n]
      simp only [filter_remove]

theorem removable_of_freeAll (h : freeAll s gone = some t) : ∀ x ∈ gone, Removable s x := by
  induction gone generalizing s with
  | nil => simp
  | cons si gone ih =>
    rw [freeAll] at h
    split at h
    · cases h
    rename_i s1 hfe
    obtain ⟨hr, hf⟩ := soinfoFree_spec (wf_unloaded wf (s.unloaded ++ [si])) hfe
    intro x hx
    rcases mem_cons.mp hx with rfl | hx
    · exact hr
    have hx1 := ih (hf.wf (wf_unloaded wf _) hr) h x hx
    unfold Removable at hx1 ⊢
    rw [hf.solist] at hx1
    rw [drop_two_remove wf hr] at hx1
    exact (mem_remove.mp hx1).1

/-- `soinfo_unload_impl` frees exactly the libraries that collapse from the root, tells the debugger
about each, and drops the references they held when the root was linked. -/
theorem soinfoUnloadImpl_spec (unload : Linker → SoinfoId → Option Linker)
    (hc : (s.soinfo root).canUnload)
    (hr : ∀ x, Collapsed (ParentOf s) (Internal s root) root x → Removable s x) :
    ∃ gone t, (∀ x, x ∈ gone ↔ Collapsed (ParentOf s) (Internal s root) root x) ∧ gone.Nodup ∧
      FreedAll s t gone ∧ soinfoUnloadImpl unload s root = if (s.soinfo root).linked then
          (gone.flatMap (externalReferences s root)).foldlM unload t else some t := by
  obtain ⟨w, hcl, hiv, hg⟩ := collect_spec wf root
  have hrm : ∀ x ∈ w.localUnload, Removable w.linker x := by
    intro x hx
    unfold Removable
    rw [hiv.solist]
    exact hr x ((hg x).mp hx)
  obtain ⟨t, hf, ha⟩ := freeAll_spec (hiv.wf wf) hiv.nodup hrm
  refine ⟨w.localUnload, t, hg, hiv.nodup, ?_, ?_⟩
  · refine ⟨ha.wf, ?_, ?_, ha.cleared, ?_, ?_⟩
    · rw [ha.solist, hiv.solist]
    · rw [ha.unloaded, hiv.unloaded]
    · intro x hx
      rw [ha.others x hx, hiv.soinfo x]
      simp [cutLinks, hx, filter_filter]
    · intro n
      rw [ha.namespaces n, hiv.namespaces]
  · unfold soinfoUnloadImpl
    rw [hc, hcl]
    simp only [Bool.not_true, Bool.false_eq_true, if_false, hf, hiv.external]

theorem soinfoUnloadImpl_cases {unload} (h : soinfoUnloadImpl unload s root = some t) :
    (s.soinfo root).canUnload = false ∧ t = s ∨ (s.soinfo root).canUnload ∧ ∃ gone s1,
      (∀ x, x ∈ gone ↔ Collapsed (ParentOf s) (Internal s root) root x) ∧
      (∀ x ∈ gone, Removable s x) ∧ FreedAll s s1 gone ∧ (if (s.soinfo root).linked then
        (gone.flatMap (externalReferences s root)).foldlM unload s1 else some s1) = some t := by
  cases hc : (s.soinfo root).canUnload with
  | false =>
    rw [soinfoUnloadImpl, hc] at h
    exact .inl ⟨rfl, by simpa [eq_comm] using h⟩
  | true =>
    obtain ⟨w, hcl, hiv, hgn⟩ := collect_spec wf root
    have hrm : ∀ x, Collapsed (ParentOf s) (Internal s root) root x → Removable s x := by
      intro x hx
      rw [soinfoUnloadImpl, hc, hcl] at h
      simp only [Bool.not_true, Bool.false_eq_true, if_false] at h
      split at h
      · cases h
      rename_i s1 hf
      have hr := removable_of_freeAll (hiv.wf wf) hf x ((hgn x).mpr hx)
      rwa [Removable, hiv.solist] at hr
    obtain ⟨gone, s1, hg, -, hfr, hil⟩ := soinfoUnloadImpl_spec wf unload hc hrm
    exact .inr ⟨rfl, gone, s1, hg, fun x hx => hrm x ((hg x).mp hx), hfr, hil ▸ h⟩

end LinkerUnload
