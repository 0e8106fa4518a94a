import Bionic.LinkerGroups

/-! Runs of `dlopen` and `dlclose`. Every call has surroundings of its own: files come and go
between the calls. A call that aborts the process is not a step. -/
namespace LinkerRuns

open LinkerSoinfo LinkerNamespaces LinkerLoad LinkerUnload LinkerDlfcn LinkerGroups GraphCollapse
open Option (map_eq_some_iff)

/-- One call. A `dlopen` may fail; a handle stands for a soinfo that is alive, however often
it was closed before. -/
inductive Step : Linker → Linker → Prop where
  | dlopen {s t : Linker} (sys : System) (fuel : ℕ) (ns : NamespaceId) (name : Option Name)
      (flags : RtldFlags) (extinfo : Option ExtInfo) (caller : Option SoinfoId)
      (r : Option SoinfoId) : sys.FreshBlocks → (∀ c, caller = some c → c ∈ s.solist) →
      findLibrary sys fuel s ns name flags extinfo caller = some (t, r) → Step s t
  | dlclose {s t : Linker} (si : SoinfoId) : si ∈ s.solist → dlclose s si = some t → Step s t

inductive Execution : Linker → Linker → Prop where
  | refl (s) : Execution s s
  | tail {s t u} : Execution s t → Step t u → Execution s u

/-- RTLD_NODELETE or RTLD_GLOBAL, from the call or from DT_FLAGS_1. -/
def Flagged (x : Soinfo) : Prop :=
  x.dtFlags1.nodelete ∨ x.dtFlags1.global ∨ x.rtldFlags.nodelete ∨ x.rtldFlags.global

instance (x : Soinfo) : Decidable (Flagged x) := inferInstanceAs (Decidable (_ ∨ _ ∨ _ ∨ _))

theorem flagged_iff {x} : Flagged x ↔ x.rtldFlags.nodelete ∨ x.rtldFlags.global := by
  have hg := x.told.1
  have hn := x.told.2
  unfold Flagged
  tauto

theorem canUnload_of_flagged {x} (hl : x.linked) (hf : Flagged x) : x.canUnload = false := by
  simpa [Soinfo.canUnload, hl, or_iff_not_imp_left] using flagged_iff.mp hf

/-- Linked, with the flag, in a group whose root has it too. -/
structure Pinned (s : Linker) (x : SoinfoId) : Prop where
  live : x ∈ s.solist
  linked : (s.soinfo x).linked
  flagged : Flagged (s.soinfo x)
  root : ∃ r ∈ s.solist, (s.soinfo x).localGroupRoot = some r ∧ (s.soinfo r).linked ∧
    Flagged (s.soinfo r) ∧ (s.soinfo r).localGroupRoot = some r

variable {s t : Linker}

theorem Pinned.frame {x} (h : Pinned s x) (hf : Frame s t) : Pinned t x := by
  obtain ⟨r, hr, hrt, hl, hfg, hs⟩ := h.root
  refine ⟨hf.live x h.live, hf.linked x h.live h.linked, ?_, r, hf.live r hr, ?_,
    hf.linked r hr hl, ?_, ?_⟩
  · rw [flagged_iff, hf.flags x h.live h.linked]; exact flagged_iff.mp h.flagged
  · rw [hf.root x h.live h.linked]; exact hrt
  · rw [flagged_iff, hf.flags r hr hl]; exact flagged_iff.mp hfg
  · rw [hf.root r hr hl]; exact hs

/-- The executable and the linker stay, and no pinned library is in the part that the log has grown
by. -/
structure Spared (s t : Linker) : Prop where
  wf : Wf t
  first : t.solist.take 2 = s.solist.take 2
  log : ∃ l, t.unloaded = s.unloaded ++ l ∧ ∀ x, Pinned s x → x ∉ l
  pinned : ∀ x, Pinned s x → Pinned t x

theorem Spared.refl (wf : Wf s) : Spared s s :=
  ⟨wf, rfl, ⟨[], by simp, by simp⟩, fun _ h => h⟩

theorem Spared.trans {u} (h : Spared s t) (k : Spared t u) : Spared s u := by
  obtain ⟨l, hl, ho⟩ := h.log
  obtain ⟨m, hm, ho'⟩ := k.log
  refine ⟨k.wf, k.first.trans h.first,
    ⟨l ++ m, by rw [hm, hl, List.append_assoc], fun x hx hmm => ?_⟩,
    fun x hx => k.pinned x (h.pinned x hx)⟩
  rcases List.mem_append.mp hmm with hmm | hmm
  · exact ho x hx hmm
  · exact ho' x (h.pinned x hx) hmm

theorem Spared.of_frame (wf : Wf s) (h : Frame s t) : Spared s t := by
  refine ⟨h.wf, ?_, ⟨[], by simpa using h.unloaded, by simp⟩, fun _ hx => hx.frame h⟩
  obtain ⟨exe, linker, rest, hs⟩ := wf.first
  obtain ⟨l, hl⟩ := h.solist
  simp [← hl, hs]

variable {unload : Linker → SoinfoId → Option Linker} {flags : RtldFlags} {root : SoinfoId}

theorem not_collapsed_of_pinned {x} (hx : Pinned s x)
    (hc : (s.soinfo root).canUnload) : ¬ Collapsed (ParentOf s) (Internal s root) root x := by
  intro h
  rcases h.member_or_root with rfl | hi
  · rw [canUnload_of_flagged hx.linked hx.flagged] at hc
    cases hc
  obtain ⟨r, -, hrt, hl, hf, -⟩ := hx.root
  have hr : r = root := by simpa [Internal, isExternal, hx.linked, hrt] using hi
  subst hr
  rw [canUnload_of_flagged hl hf] at hc
  cases hc

theorem Spared.freedAll {gone} (wf : Wf s) (hrm : ∀ x ∈ gone, Removable s x)
    (hc : (s.soinfo root).canUnload)
    (hg : ∀ x, x ∈ gone ↔ Collapsed (ParentOf s) (Internal s root) root x)
    (hfr : FreedAll s t gone) : Spared s t := by
  have ho : ∀ x, Pinned s x → x ∉ gone := fun x hx hm =>
    not_collapsed_of_pinned hx hc ((hg x).mp hm)
  refine ⟨hfr.wf, ?_, ⟨gone, hfr.unloaded, ho⟩, fun x hx => ?_⟩
  · obtain ⟨exe, linker, rest, hs⟩ := wf.first
    have hexe : exe ∉ gone := fun hm => ((hrm exe hm).ne_first wf hs).1 rfl
    have hlinker : linker ∉ gone := fun hm => ((hrm linker hm).ne_first wf hs).2 rfl
    simp [hfr.solist, hs, hexe, hlinker]
  have hlv : ∀ y ∈ s.solist, y ∉ gone → y ∈ t.solist := fun y hy hyg => by
    rw [hfr.solist]
    exact List.mem_filter.mpr ⟨hy, by simpa using hyg⟩
  obtain ⟨r, hr, hrt, hl, hf, hs⟩ := hx.root
  have hrg : r ∉ gone := ho r ⟨hr, hl, hf, r, hr, hs, hl, hf, hs⟩
  refine ⟨hlv x hx.live (ho x hx), ?_, ?_, r, hlv r hr hrg, ?_⟩
  · rw [hfr.others x (ho x hx)]; exact hx.linked
  · rw [hfr.others x (ho x hx)]; exact hx.flagged
  · rw [hfr.others x (ho x hx), hfr.others r hrg]
    exact ⟨hrt, hl, hf, hs⟩

section
variable (hu : ∀ s t si, Wf s → unload s si = some t → Spared s t) (wf : Wf s)
include hu wf

theorem spared_foldlM {l : List SoinfoId} (h : l.foldlM unload s = some t) : Spared s t := by
  induction l generalizing s with
  | nil => cases h; exact Spared.refl wf
  | cons si rest ih =>
    obtain ⟨s1, h1, h2⟩ := Option.bind_eq_some_iff.mp h
    have ho := hu s s1 si wf h1
    exact ho.trans (ih ho.wf h2)

theorem spared_soinfoUnloadImpl (h : soinfoUnloadImpl unload s root = some t) : Spared s t := by
  obtain ⟨-, rfl⟩ | ⟨hc, gone, s1, hg, hrm, hf, hr⟩ := soinfoUnloadImpl_cases wf h
  · exact Spared.refl wf
  have ho := Spared.freedAll wf hrm hc hg hf
  split at hr
  · exact ho.trans (spared_foldlM hu ho.wf hr)
  · cases hr; exact ho

end

variable {si : SoinfoId} {sys : System}

theorem frame_decrementRefCount (wf : Wf s) {n}
    (h : s.decrementRefCount si = some (t, n)) : Frame s t := by
  obtain ⟨r, -, heq⟩ := map_eq_some_iff.mp h
  cases heq
  exact frame_modify wf (setRefCount_keepsLinks _) fun hl => ⟨hl, rfl, rfl⟩

theorem spared_soinfoUnload (fuel : ℕ) (wf : Wf s)
    (h : soinfoUnload fuel s si = some t) : Spared s t := by
  induction fuel generalizing s t si with
  | zero => cases h
  | succ fuel ih =>
    rw [soinfoUnload] at h
    split at h
    · split at h
      · cases h
      · split at h
        · cases h
        · rename_i s1 n hd
          have hf := frame_decrementRefCount wf hd
          split at h
          · cases h; exact Spared.of_frame wf hf
          · exact (Spared.of_frame wf hf).trans (spared_soinfoUnloadImpl (fun _ _ _ => ih) hf.wf h)
    · exact spared_soinfoUnloadImpl (fun _ _ _ => ih) wf h

theorem spared_step (wf : Wf s) (h : Step s t) : Spared s t := by
  cases h with
  | dlopen sys fuel ns name flags extinfo caller r hfr hc hfd =>
    unfold findLibrary at hfd
    split at hfd
    · split at hfd
      · cases hfd
      · obtain ⟨u, hic, heq⟩ := map_eq_some_iff.mp hfd
        cases heq
        exact Spared.of_frame wf (frame_incrementRefCount wf hic)
    split at hfd
    · cases hfd
    · rename_i u sis hl
      have hf := frame_findLibraries hfr wf hc hl
      split at hfd
      · cases hfd; exact Spared.of_frame wf hf
      obtain ⟨v, hu, heq⟩ := map_eq_some_iff.mp hfd
      cases heq
      exact (Spared.of_frame wf hf).trans (spared_soinfoUnload _ hf.wf hu)
    · rename_i u sis hl
      have hf := frame_findLibraries hfr wf hc hl
      split at hfd
      · cases hfd
      obtain ⟨v, hic, heq⟩ := map_eq_some_iff.mp hfd
      cases heq
      exact Spared.of_frame wf (hf.trans (frame_incrementRefCount hf.wf hic))
  | dlclose si _ hco => exact spared_soinfoUnload _ wf hco

theorem spared_execution (wf : Wf s) (h : Execution s t) : Spared s t := by
  induction h with
  | refl => exact Spared.refl wf
  | tail _ hs ih => exact ih.trans (spared_step ih.wf hs)

theorem pinned_of_opened {new x}
    (h : Opened s t flags new si) (hfa : (flags.nodelete || flags.global) = true)
    (hx : x ∈ new) : Pinned t x := by
  have hl : ∀ y ∈ new, y ∈ t.solist := fun y hy => by
    rw [h.solist]; exact List.mem_append_right _ hy
  have hfg : ∀ y ∈ new, Flagged (t.soinfo y) := by
    intro y hy
    rcases Bool.or_eq_true_iff.mp hfa with hf | hf
    · exact .inr (.inr (.inl ((h.flags y hy).2 hf)))
    · exact .inr (.inr (.inr ((h.flags y hy).1 hf)))
  obtain ⟨r, hr, hrt, hs, -⟩ := h.root x hx
  exact ⟨hl x hx, h.linked x (hl x hx), hfg x hx, r, hl r hr, hrt,
    h.linked r (hl r hr), hfg r hr, hs⟩

/-- What no later call may free: libraries with the flag whose group root has it too, and all that a
`dlopen` with the flag has loaded. -/
inductive Kept (s : Linker) : SoinfoId → Prop where
  | flagged {x} : Wf s → Pinned s x → Kept s x
  | opened {s₀ x} (sys : System) (fuel : ℕ) (ns : NamespaceId) (name : Name) (flags : RtldFlags)
      (extinfo : Option ExtInfo) (caller : Option SoinfoId) (si : SoinfoId) :
      sys.FreshBlocks → Wf s₀ → (∀ y ∈ s₀.solist, (s₀.soinfo y).linked) →
      (∀ c, caller = some c → c ∈ s₀.solist) →
      findLibrary sys fuel s₀ ns (some name) flags extinfo caller = some (s, some si) →
      (flags.nodelete || flags.global) = true → Created s₀ s x → Kept s x

theorem Kept.pinned {x} (h : Kept s x) : Wf s ∧ Pinned s x := by
  cases h with
  | flagged wf hp => exact ⟨wf, hp⟩
  | @opened s0 _ sys fuel ns name flags extinfo caller si hfr wf ha hc hfd hfa hx =>
    obtain ⟨t, new, ho, hic⟩ := findLibrary_opened hfr wf ha hc hfd
    have hf := frame_incrementRefCount ho.wf hic
    have hs : s.solist = t.solist := by
      obtain ⟨r, -, rfl⟩ := map_eq_some_iff.mp hic
      rfl
    have hm : x ∈ new := by
      have hl := hx.1
      rw [hs, ho.solist] at hl
      exact (List.mem_append.mp hl).resolve_left hx.2
    exact ⟨hf.wf, (pinned_of_opened ho hfa hm).frame hf⟩

/-- Whatever is opened and closed afterwards, such a library stays and its unloading is never
reported. -/
theorem kept_never_freed {s t : Linker} {x : SoinfoId} (h : Kept s x) (hrun : Execution s t) :
    x ∈ t.solist ∧ ∃ l, t.unloaded = s.unloaded ++ l ∧ x ∉ l := by
  obtain ⟨wf, hp⟩ := h.pinned
  have hs := spared_execution wf hrun
  obtain ⟨l, hl, ho⟩ := hs.log
  exact ⟨(hs.pinned x hp).live, l, hl, ho x hp⟩

def nodeleteShelf : System :=
  shelf (fun c =>
    if c = 'r' then some [.needed ['b']]
    else if c = 'b' then some [.flags1 { nodelete := true }] else none) (fun _ => false) nextBlock

/-- After a first `dlopen`, its handle, and once that is closed. -/
def openThenClose (sys : System) (c : Char) : Option (Linker × SoinfoId × Linker) :=
  match findLibrary sys 5 launched 1 (some [c]) {} none none with
  | some (s, some si) => (dlclose s si).map fun t => (s, si, t)
  | _ => none

theorem openThenClose_spec {c} (h : openThenClose sys c = some (s, si, t)) :
    findLibrary sys 5 launched 1 (some [c]) {} none none = some (s, some si) ∧
      dlclose s si = some t := by
  unfold openThenClose at h
  split at h
  · rename_i s' si' ho
    obtain ⟨t', hc, heq⟩ := map_eq_some_iff.mp h
    cases heq
    exact ⟨ho, hc⟩
  · cases h

theorem openThenClose_run (hf : sys.FreshBlocks) {c}
    (h : openThenClose sys c = some (s, si, t)) : Execution launched s ∧ Execution s t := by
  obtain ⟨hop, hc⟩ := openThenClose_spec h
  have hl : si ∈ s.solist := by
    obtain ⟨u, new, ho, hic⟩ :=
      findLibrary_opened hf launched_wf launched_settled.linked (by simp) hop
    obtain ⟨r, -, rfl⟩ := map_eq_some_iff.mp hic
    exact ho.live
  exact ⟨.tail (.refl _) (.dlopen sys 5 1 (some [c]) {} none none _ hf (by simp) hop),
    .tail (.refl _) (.dlclose si hl hc)⟩

/-- b is linked and has the flag when r is closed, and both are freed. -/
theorem nodelete_dependency_is_freed :
    nodeleteShelf.FreshBlocks ∧ ∃ s t, Execution launched s ∧ Execution s t ∧
      5 ∈ s.solist ∧ (s.soinfo 5).linked ∧ (s.soinfo 5).dtFlags1.nodelete ∧
      5 ∉ t.solist ∧ t.unloaded = [4, 5] := by
  have hr : (openThenClose nodeleteShelf 'r').map (fun r => (r.1.solist, (r.1.soinfo 5).linked,
      (r.1.soinfo 5).dtFlags1.nodelete, r.2.2.solist, r.2.2.unloaded)) =
      some ([1, 2, 3, 4, 5], true, true, [1, 2, 3], [4, 5]) := by
    decide +kernel
  obtain ⟨⟨s, si, t⟩, hst, heq⟩ := map_eq_some_iff.mp hr
  simp only [Prod.mk.injEq] at heq
  obtain ⟨h1, h2, h3, h4, h5⟩ := heq
  have hf : nodeleteShelf.FreshBlocks := shelf_freshBlocks _ _
  obtain ⟨hs, ht⟩ := openThenClose_run hf hst
  exact ⟨hf, s, t, hs, ht, by rw [h1]; decide, h2, h3, by rw [h4]; decide, h5⟩

/-- Opened on its own, b is its own root and stays. -/
theorem kept_never_freed_nodelete :
    ∃ s t, Execution s t ∧ Kept s 4 ∧ 4 ∈ t.solist ∧ ∃ l, t.unloaded = s.unloaded ++ l ∧ 4 ∉ l := by
  have hr : (openThenClose nodeleteShelf 'b').map (fun r => (r.1.solist, (r.1.soinfo 4).linked,
      (r.1.soinfo 4).dtFlags1.nodelete, (r.1.soinfo 4).localGroupRoot)) =
      some ([1, 2, 3, 4], true, true, some 4) := by
    decide +kernel
  obtain ⟨⟨s, si, t⟩, hst, heq⟩ := map_eq_some_iff.mp hr
  simp only [Prod.mk.injEq] at heq
  obtain ⟨h1, h2, h3, h4⟩ := heq
  obtain ⟨hs, ht⟩ := openThenClose_run (shelf_freshBlocks _ _) hst
  have hl : 4 ∈ s.solist := by rw [h1]; decide
  have hf : Flagged (s.soinfo 4) := .inl h3
  have hk : Kept s 4 := .flagged (spared_execution launched_wf hs).wf
    ⟨hl, h2, hf, 4, hl, h4, h2, hf, h4⟩
  exact ⟨s, t, ht, hk, kept_never_freed hk ht⟩

/-- Whatever is opened and closed, with or without success, the links stay well formed, behind the
executable and the linker. -/
theorem wf_of_execution {s t : Linker} (wf : Wf s) (h : Execution s t) :
    Wf t ∧ t.solist.take 2 = s.solist.take 2 ∧ s.unloaded <+: t.unloaded := by
  have hs := spared_execution wf h
  obtain ⟨l, hl, -⟩ := hs.log
  exact ⟨hs.wf, hs.first, l, hl.symm⟩

theorem wf_of_execution_opened :
    ∃ s t, Execution launched s ∧ Execution s t ∧
      Wf t ∧ t.solist.take 2 = s.solist.take 2 ∧ s.unloaded <+: t.unloaded := by
  have hr : (openThenClose nodeleteShelf 'r').isSome := by decide +kernel
  obtain ⟨⟨s, si, t⟩, hst⟩ := Option.isSome_iff_exists.mp hr
  obtain ⟨hs, ht⟩ := openThenClose_run (shelf_freshBlocks _ _) hst
  exact ⟨s, t, hs, ht, wf_of_execution (wf_of_execution launched_wf hs).1 ht⟩

end LinkerRuns
