import Bionic.LinkerConfig

/-! `init_default_namespaces`: the namespaces that the linker builds from a configuration, and when
they are what the file says. -/
namespace LinkerDefaultNamespaces

open Prod (fst snd)
open LinkerSoinfo LinkerNamespaces LinkerConfig
open List
open Option (bind_eq_bind bind_some)

/-- The linker while namespaces are made; `namespaces` is the local map, `exported` is
`g_exported_namespaces` and `next` the next block of the allocator. -/
structure Builder where
  linker : Linker
  namespaces : List (Str × NamespaceId)
  exported : Str → Option NamespaceId
  next : NamespaceId

def exportIf (visible : Bool) (exported : Str → Option NamespaceId) (name : Str)
    (ns : NamespaceId) : Str → Option NamespaceId :=
  if visible then Function.update exported name (some ns) else exported

def Namespace.ofConfig (nsConfig : NamespaceConfig) : Namespace where
  isIsolated := nsConfig.isolated
  isExemptListEnabled := false
  ldLibraryPaths := []
  defaultLibraryPaths := nsConfig.searchPaths
  permittedPaths := nsConfig.permittedPaths
  allowedLibs := nsConfig.allowedLibs
  linkedNamespaces := []
  soinfoList := []

def initDefault (s : Linker) (nsConfig : NamespaceConfig) : Builder where
  linker := s.modifyNs defaultNamespace fun ns =>
    { ns with
      isIsolated := nsConfig.isolated
      defaultLibraryPaths := nsConfig.searchPaths
      permittedPaths := nsConfig.permittedPaths }
  namespaces := [(cStr nsConfig.name, defaultNamespace)]
  exported := exportIf nsConfig.visible (fun _ => none) (cStr nsConfig.name) defaultNamespace
  next := defaultNamespace + 1

def addNamespace (b : Builder) (nsConfig : NamespaceConfig) : Builder :=
  let name := cStr nsConfig.name
  if (b.namespaces.lookup name).isSome then b
  else
    { linker := b.linker.modifyNs b.next fun _ => Namespace.ofConfig nsConfig
      namespaces := b.namespaces ++ [(name, b.next)]
      exported := exportIf nsConfig.visible b.exported name b.next
      next := b.next + 1 }

def addLinkedNamespace (s : Linker) (ns : NamespaceId) (link : NamespaceLink) : Linker :=
  s.modifyNs ns fun n => { n with linkedNamespaces := n.linkedNamespaces ++ [link] }

section
variable [Libbase]

def linkNamespaces (s : Linker) (namespaceFrom namespaceTo : NamespaceId)
    (sharedLibSonames : Str) : Linker :=
  if sharedLibSonames = [] then s
  else addLinkedNamespace s namespaceFrom ⟨namespaceTo, split sharedLibSonames ':', false⟩

def linkNamespacesAllLibs (s : Linker) (namespaceFrom namespaceTo : NamespaceId) : Linker :=
  addLinkedNamespace s namespaceFrom ⟨namespaceTo, [], true⟩

/-- The links of one config; `none` if a `CHECK` fails. -/
def addLinksOf (namespaces : List (Str × NamespaceId)) (namespaceFrom : NamespaceId) (s : Linker) :
    List NamespaceLinkConfig → Option Linker
  | [] => some s
  | nsLink :: rest => do
    let namespaceTo ← namespaces.lookup nsLink.nsName
    let s := if nsLink.allowAllSharedLibs then linkNamespacesAllLibs s namespaceFrom namespaceTo
      else linkNamespaces s namespaceFrom namespaceTo (cStr nsLink.sharedLibs)
    addLinksOf namespaces namespaceFrom s rest

def addLinks (namespaces : List (Str × NamespaceId)) (s : Linker) :
    List NamespaceConfig → Option Linker
  | [] => some s
  | nsConfig :: rest => do
    let namespaceFrom ← namespaces.lookup (cStr nsConfig.name)
    let s ← addLinksOf namespaces namespaceFrom s nsConfig.links
    addLinks namespaces s rest

/-- `ld-android.so` and the vdso are in every namespace but the default one. -/
def addLinkerSoinfos (ldAndroidSo : SoinfoId) (vdso : Option SoinfoId) (s : Linker)
    (ns : NamespaceId) : Linker :=
  if ns = defaultNamespace then s
  else
    let s := s.addSoinfo ns ldAndroidSo
    match vdso with
    | some vdso => s.addSoinfo ns vdso
    | none => s

/-- `none` if a `CHECK` fails. -/
def initDefaultNamespaces (s : Linker) (ldAndroidSo : SoinfoId) (vdso : Option SoinfoId)
    (config : Config) : Option Builder := do
  let defaultNsConfig ← config.defaultNamespaceConfig
  let b := config.namespaceConfigs.foldl addNamespace (initDefault s defaultNsConfig)
  let linker ← addLinks b.namespaces b.linker config.namespaceConfigs
  let linker := (b.namespaces.map Prod.snd).foldl (addLinkerSoinfos ldAndroidSo vdso) linker
  some { b with linker }

def libsOf (link : NamespaceLinkConfig) : List Str :=
  if link.allowAllSharedLibs then [] else split link.sharedLibs ':'

structure Faithful (conf : Str → NamespaceConfig) (names : List Str) (b : Builder) : Prop where
  named : ∀ name, (∃ id, (name, id) ∈ b.namespaces) ↔ name ∈ names
  keys : (b.namespaces.map Prod.fst).Nodup
  ids : (b.namespaces.map Prod.snd).Nodup
  isolated : ∀ name id, (name, id) ∈ b.namespaces →
    (b.linker.namespaces id).isIsolated = (conf name).isolated
  searchPaths : ∀ name id, (name, id) ∈ b.namespaces →
    (b.linker.namespaces id).defaultLibraryPaths = (conf name).searchPaths
  permittedPaths : ∀ name id, (name, id) ∈ b.namespaces →
    (b.linker.namespaces id).permittedPaths = (conf name).permittedPaths
  allowedLibs : ∀ name id, (name, id) ∈ b.namespaces →
    (b.linker.namespaces id).allowedLibs = (conf name).allowedLibs
  links : ∀ name id, (name, id) ∈ b.namespaces → ∀ link ∈ (conf name).links,
    ∃ id', (link.nsName, id') ∈ b.namespaces ∧
      ((b.linker.namespaces id).linkedNamespaces.map (·.linkedNamespace)).count id' = 1 ∧
      ∀ l ∈ (b.linker.namespaces id).linkedNamespaces, l.linkedNamespace = id' →
        l.allowAllSharedLibs = link.allowAllSharedLibs ∧
        ∀ lib, lib ∈ l.sharedLibSonames ↔ lib ∈ libsOf link
  noOtherLinks : ∀ name id, (name, id) ∈ b.namespaces →
    ∀ l ∈ (b.linker.namespaces id).linkedNamespaces, ∃ link ∈ (conf name).links,
      (link.nsName, l.linkedNamespace) ∈ b.namespaces

end

/-- Construction loses nothing: no allowed libraries for the default namespace, nothing but links
for a name that is listed twice, no link twice, no nulls. -/
structure Plain (conf : Str → NamespaceConfig) (names : List Str) : Prop where
  default : (conf kDefaultConfigName).allowedLibs = []
  repeated : ∀ name ≠ kDefaultConfigName, 2 ≤ names.count name →
    (conf name).isolated = false ∧ (conf name).searchPaths = [] ∧
      (conf name).permittedPaths = [] ∧ (conf name).allowedLibs = []
  links : ∀ name ∈ names, ((conf name).links.map (·.nsName)).Nodup
  noNullNames : ∀ name ∈ names, '\x00' ∉ name
  noNullLibs : ∀ name ∈ names, ∀ link ∈ (conf name).links, '\x00' ∉ link.sharedLibs

theorem null_notMem_cStr (s : Str) : '\x00' ∉ cStr s := by
  intro hmm
  have hn := mem_takeWhile_imp hmm
  simp at hn

theorem cStr_eq_self {s} (h : '\x00' ∉ s) : cStr s = s := by
  rw [cStr, takeWhile_eq_self_iff]
  intro c hc
  simp only [ne_eq, decide_not, Bool.not_eq_true', decide_eq_false_iff_not]
  rintro rfl
  exact h hc

/-- Each name and namespace is there once, and no name has a null. -/
structure Builder.Wf (b : Builder) : Prop where
  keys : (b.namespaces.map Prod.fst).Nodup
  ids : (b.namespaces.map Prod.snd).Nodup
  below : ∀ id ∈ b.namespaces.map Prod.snd, id < b.next
  default : ∃ name, (name, defaultNamespace) ∈ b.namespaces
  noNull : ∀ name ∈ b.namespaces.map Prod.fst, '\x00' ∉ name

variable {name : Str} {b : Builder}

variable {m namespaces : List (Str × NamespaceId)} {configs : List NamespaceConfig}

theorem mem_of_lookup {id} (h : m.lookup name = some id) : (name, id) ∈ m := by
  obtain ⟨before, behind, rfl, -⟩ := List.lookup_eq_some_iff.mp h
  simp

theorem lookup_of_mem (hk : (m.map fst).Nodup)
    {id} (h : (name, id) ∈ m) : m.lookup name = some id := by
  obtain ⟨before, behind, rfl⟩ := append_of_mem h
  refine List.lookup_eq_some_iff.mpr ⟨before, behind, rfl, ?_⟩
  intro entry hey
  rw [map_append, map_cons] at hk
  have hd := (List.nodup_append.mp hk).2.2 entry.1 (mem_map_of_mem hey) name mem_cons_self
  exact bne_iff_ne.mpr hd.symm

theorem lookup_isSome : (m.lookup name).isSome ↔ name ∈ m.map fst := by
  rw [lookup_isSome_iff, mem_map]
  constructor
  · rintro ⟨entry, hey, heq⟩
    exact ⟨entry, hey, (eq_of_beq heq).symm⟩
  · rintro ⟨entry, hey, rfl⟩
    exact ⟨entry, hey, beq_self_eq_true _⟩

theorem initDefault_wf (s nsConfig) : (initDefault s nsConfig).Wf where
  keys := nodup_singleton _
  ids := nodup_singleton _
  below := by
    intro id hid
    cases mem_singleton.mp hid
    exact Nat.lt_succ_self _
  default := ⟨_, mem_cons_self⟩
  noNull := by
    intro name hn
    cases mem_singleton.mp hn
    exact null_notMem_cStr _

theorem Builder.Wf.addNamespace (h : b.Wf) (nsConfig) : (addNamespace b nsConfig).Wf := by
  unfold LinkerDefaultNamespaces.addNamespace
  dsimp only
  split
  · exact h
  rename_i hn
  rw [lookup_isSome] at hn
  constructor
  · rw [map_append, nodup_append]
    refine ⟨h.keys, nodup_singleton _, ?_⟩
    rintro name hnm _ hl rfl
    cases mem_singleton.mp hl
    exact hn hnm
  · rw [map_append, nodup_append]
    refine ⟨h.ids, nodup_singleton _, ?_⟩
    rintro id hid _ hl rfl
    cases mem_singleton.mp hl
    exact absurd (h.below _ hid) (lt_irrefl _)
  · intro id hid
    rw [map_append, mem_append] at hid
    rcases hid with hid | hl
    · exact Nat.lt_succ_of_lt (h.below id hid)
    · cases mem_singleton.mp hl
      exact Nat.lt_succ_self _
  · obtain ⟨name, hnm⟩ := h.default
    exact ⟨name, mem_append_left _ hnm⟩
  intro name hnm
  rw [map_append, mem_append] at hnm
  rcases hnm with hnm | hl
  · exact h.noNull name hnm
  · cases mem_singleton.mp hl
    exact null_notMem_cStr _

theorem Builder.Wf.foldl (h : b.Wf) (configs : List NamespaceConfig) :
    (configs.foldl LinkerDefaultNamespaces.addNamespace b).Wf := by
  induction configs generalizing b with
  | nil => exact h
  | cons nsConfig configs ih => exact ih (h.addNamespace nsConfig)

theorem addNamespace_kept (h : b.Wf) (nsConfig) {id} (hmm : (name, id) ∈ b.namespaces) :
    (name, id) ∈ (addNamespace b nsConfig).namespaces ∧
      (addNamespace b nsConfig).linker.namespaces id = b.linker.namespaces id := by
  unfold addNamespace
  dsimp only
  split
  · exact ⟨hmm, rfl⟩
  have hn : id ≠ b.next := ne_of_lt (h.below id (mem_map_of_mem hmm))
  refine ⟨mem_append_left _ hmm, ?_⟩
  rw [modifyNs_namespaces_of_ne _ _ _ _ hn]

theorem foldl_kept (h : b.Wf) (configs : List NamespaceConfig)
    {id} (hmm : (name, id) ∈ b.namespaces) :
    (name, id) ∈ (configs.foldl addNamespace b).namespaces ∧
      (configs.foldl addNamespace b).linker.namespaces id = b.linker.namespaces id := by
  induction configs generalizing b with
  | nil => exact ⟨hmm, rfl⟩
  | cons nsConfig configs ih =>
    obtain ⟨hm', hs⟩ := addNamespace_kept h nsConfig hmm
    obtain ⟨hed, hs'⟩ := ih (h.addNamespace nsConfig) hm'
    exact ⟨hed, hs'.trans hs⟩

theorem foldl_new (h : b.Wf) (hn : name ∉ b.namespaces.map fst) {nsConfig}
    (hf : configs.find? (fun c => cStr c.name = name) = some nsConfig) :
    ∃ id, (name, id) ∈ (configs.foldl addNamespace b).namespaces ∧
      (configs.foldl addNamespace b).linker.namespaces id = Namespace.ofConfig nsConfig := by
  induction configs generalizing b with
  | nil => cases hf
  | cons c configs ih =>
    rw [foldl_cons]
    by_cases hnm : cStr c.name = name
    · rw [find?_cons_of_pos (by simpa using hnm), Option.some.injEq] at hf
      subst hf
      have ha : (name, b.next) ∈ (addNamespace b c).namespaces ∧
          (addNamespace b c).linker.namespaces b.next = Namespace.ofConfig c := by
        unfold addNamespace
        rw [hnm, if_neg (lookup_isSome.not.mpr hn)]
        refine ⟨by simp, ?_⟩
        rw [modifyNs_namespaces_self]
      obtain ⟨hmm, hs⟩ := foldl_kept (h.addNamespace c) configs ha.1
      exact ⟨b.next, hmm, hs.trans ha.2⟩
    · rw [find?_cons_of_neg (by simpa using hnm)] at hf
      refine ih (h.addNamespace c) ?_ hf
      unfold addNamespace
      dsimp only
      split
      · exact hn
      rw [map_append, mem_append, not_or]
      refine ⟨hn, ?_⟩
      intro hl
      exact hnm (mem_singleton.mp hl).symm

theorem foldl_names (b) (configs : List NamespaceConfig) (name : Str) :
    name ∈ (configs.foldl addNamespace b).namespaces.map fst ↔
      name ∈ b.namespaces.map fst ∨ ∃ c ∈ configs, cStr c.name = name := by
  induction configs generalizing b with
  | nil => simp
  | cons c configs ih =>
    rw [foldl_cons, ih]
    unfold addNamespace
    dsimp only
    split
    · rename_i ho
      rw [lookup_isSome] at ho
      constructor
      · rintro (hn | ⟨c', hc', hn⟩)
        · exact .inl hn
        · exact .inr ⟨c', mem_cons_of_mem _ hc', hn⟩
      rintro (hn | ⟨c', hc', hn⟩)
      · exact .inl hn
      · rcases mem_cons.mp hc' with rfl | hc'
        · exact .inl (hn ▸ ho)
        · exact .inr ⟨c', hc', hn⟩
    · rw [map_append, mem_append, or_assoc, map_singleton, mem_singleton]
      simp only [mem_cons, exists_eq_or_imp, eq_comm (a := name)]

def withLinks (links : List NamespaceLink) (n : Namespace) : Namespace :=
  { n with linkedNamespaces := n.linkedNamespaces ++ links }

theorem withLinks_nil (n) : withLinks [] n = n := by
  simp [withLinks]

theorem withLinks_withLinks (links links' n) :
    withLinks links' (withLinks links n) = withLinks (links ++ links') n := by
  simp [withLinks]

theorem modifyNs_eq_self (s : Linker) (ns : NamespaceId) : s.modifyNs ns (withLinks []) = s := by
  simp [Linker.modifyNs, withLinks_nil]

theorem modifyNs_modifyNs (s : Linker) (ns : NamespaceId) (links links') :
    (s.modifyNs ns (withLinks links)).modifyNs ns (withLinks links') =
      s.modifyNs ns (withLinks (links ++ links')) := by
  simp only [Linker.modifyNs]
  congr 1
  funext x
  by_cases hx : x = ns
  · simp [hx, withLinks_withLinks]
  · simp [hx]

section
variable [Libbase]

def linkOf (namespaces : List (Str × NamespaceId)) (link : NamespaceLinkConfig) :
    List NamespaceLink :=
  match namespaces.lookup link.nsName with
  | none => []
  | some id =>
    if link.allowAllSharedLibs then [⟨id, [], true⟩]
    else if cStr link.sharedLibs = [] then []
    else [⟨id, split (cStr link.sharedLibs) ':', false⟩]

theorem addLinksOf_eq {links}
    (h : ∀ link ∈ links, ∃ id, namespaces.lookup link.nsName = some id) (ns : NamespaceId)
    (s : Linker) : addLinksOf namespaces ns s links =
      some (s.modifyNs ns (withLinks (links.flatMap (linkOf namespaces)))) := by
  induction links generalizing s with
  | nil => rw [addLinksOf, flatMap_nil, modifyNs_eq_self]
  | cons link links ih =>
    obtain ⟨id, hid⟩ := h link mem_cons_self
    have hs : (if link.allowAllSharedLibs then linkNamespacesAllLibs s ns id
        else linkNamespaces s ns id (cStr link.sharedLibs)) =
        s.modifyNs ns (withLinks (linkOf namespaces link)) := by
      unfold linkOf linkNamespacesAllLibs linkNamespaces addLinkedNamespace
      rw [hid]
      split
      · rfl
      split
      · exact (modifyNs_eq_self s ns).symm
      · rfl
    rw [addLinksOf, hid]
    simp only [bind_eq_bind, bind_some]
    rw [hs, ih fun link' hl' => h link' (mem_cons_of_mem _ hl'), modifyNs_modifyNs, flatMap_cons]

def linksFor (namespaces : List (Str × NamespaceId)) (id : NamespaceId) (c : NamespaceConfig) :
    List NamespaceLink :=
  if namespaces.lookup (cStr c.name) = some id then c.links.flatMap (linkOf namespaces) else []

theorem addLinks_eq (hn : ∀ c ∈ configs, ∃ id, namespaces.lookup (cStr c.name) = some id)
    (hl : ∀ c ∈ configs, ∀ link ∈ c.links, ∃ id, namespaces.lookup link.nsName = some id)
    (s) : ∃ s', addLinks namespaces s configs = some s' ∧ ∀ id, s'.namespaces id =
        withLinks (configs.flatMap (linksFor namespaces id)) (s.namespaces id) := by
  induction configs generalizing s with
  | nil => exact ⟨s, rfl, fun id => (withLinks_nil _).symm⟩
  | cons c configs ih =>
    obtain ⟨ns, hns⟩ := hn c mem_cons_self
    obtain ⟨s', hs', hed⟩ := ih (fun c' hc' => hn c' (mem_cons_of_mem _ hc'))
      (fun c' hc' => hl c' (mem_cons_of_mem _ hc'))
      (s.modifyNs ns (withLinks (c.links.flatMap (linkOf namespaces))))
    refine ⟨s', ?_, ?_⟩
    · rw [addLinks, hns]
      simp only [bind_eq_bind, bind_some]
      rw [addLinksOf_eq (hl c mem_cons_self), bind_some, hs']
    intro id
    rw [hed id, flatMap_cons]
    by_cases hid : ns = id
    · subst hid
      rw [modifyNs_namespaces_self, withLinks_withLinks, linksFor, if_pos hns]
    · rw [modifyNs_namespaces_of_ne _ _ _ _ (Ne.symm hid), linksFor,
        if_neg fun heq => hid (Option.some.inj (hns.symm.trans heq)), nil_append]

omit [Libbase] in
theorem addLinkerSoinfos_namespaces (ldAndroidSo : SoinfoId) (vdso)
    (ids : List NamespaceId) (s) (id : NamespaceId) :
    ∃ soinfos, (ids.foldl (addLinkerSoinfos ldAndroidSo vdso) s).namespaces id =
      { s.namespaces id with soinfoList := soinfos } := by
  have ha : ∀ (s : Linker) (ns : NamespaceId) (si : SoinfoId), ∃ soinfos,
      (s.addSoinfo ns si).namespaces id = { s.namespaces id with soinfoList := soinfos } := by
    intro s ns si
    by_cases hid : id = ns
    · subst hid
      exact ⟨_, modifyNs_namespaces_self _ _ _⟩
    · exact ⟨_, modifyNs_namespaces_of_ne _ _ _ _ hid⟩
  induction ids generalizing s with
  | nil => exact ⟨_, rfl⟩
  | cons ns ids ih =>
    obtain ⟨soinfos, hed⟩ := ih (addLinkerSoinfos ldAndroidSo vdso s ns)
    have hs : ∃ soinfos, (addLinkerSoinfos ldAndroidSo vdso s ns).namespaces id =
        { s.namespaces id with soinfoList := soinfos } := by
      unfold addLinkerSoinfos
      split
      · exact ⟨_, rfl⟩
      obtain ⟨first, hf⟩ := ha s ns ldAndroidSo
      cases vdso with
      | none => exact ⟨first, hf⟩
      | some vdso =>
        obtain ⟨second, hsd⟩ := ha (s.addSoinfo ns ldAndroidSo) ns vdso
        refine ⟨second, hsd.trans ?_⟩
        rw [hf]
    obtain ⟨first, hf⟩ := hs
    refine ⟨soinfos, hed.trans ?_⟩
    rw [hf]

variable {conf : Str → NamespaceConfig} {names : List Str}

section
variable (hcf : ∀ name, (conf name).name = name)
include hcf

omit [Libbase] in
theorem configsOf_name {c} (h : c ∈ configsOf conf names) :
    c.name ∈ names ∧ (c = .new c.name ∨ c = conf c.name) := by
  induction names with
  | nil => cases h
  | cons name names ih =>
    rcases mem_cons.mp h with rfl | h
    · split
      · exact ⟨mem_cons_self, .inl rfl⟩
      · rw [hcf]
        exact ⟨mem_cons_self, .inr rfl⟩
    · exact ⟨mem_cons_of_mem _ (ih h).1, (ih h).2⟩

omit [Libbase] in
theorem find_configsOf (hnl : ∀ name ∈ names, '\x00' ∉ name)
    (h : name ∈ names) : (configsOf conf names).find? (fun c => cStr c.name = name) =
      some (if 2 ≤ names.count name then .new name else conf name) := by
  induction names with
  | nil => cases h
  | cons first names ih =>
    have hh : (if first ∈ names then NamespaceConfig.new first else conf first).name = first := by
      split
      · rfl
      · exact hcf first
    have hcStr : cStr first = first := cStr_eq_self (hnl first mem_cons_self)
    rw [configsOf]
    by_cases hf : first = name
    · subst hf
      rw [find?_cons_of_pos (by simp [hh, hcStr]), count_cons_self]
      have hif : 2 ≤ names.count first + 1 ↔ first ∈ names := by
        rw [← count_pos_iff]
        omega
      simp
    · rw [find?_cons_of_neg (by simpa [hh, hcStr] using hf), count_cons_of_ne hf]
      rcases mem_cons.mp h with heq | h
      · exact absurd heq.symm hf
      · exact ih (fun name' hn' => hnl name' (mem_cons_of_mem _ hn')) h

omit [Libbase] hcf in
theorem flatMap_configsOf {β : Type} {G : NamespaceConfig → List β}
    (hnw : ∀ n, G (.new n) = []) (ho : ∀ n ∈ names, n ≠ name → G (conf n) = []) :
    (configsOf conf names).flatMap G = if name ∈ names then G (conf name) else [] := by
  induction names with
  | nil => rfl
  | cons first names ih =>
    rw [configsOf, flatMap_cons, ih fun n hn hne => ho n (mem_cons_of_mem _ hn) hne]
    by_cases hl : first ∈ names
    · rw [if_pos hl, hnw, nil_append]
      by_cases hnm : name ∈ names
      · rw [if_pos hnm, if_pos (mem_cons_of_mem _ hnm)]
      have hne : name ∉ first :: names := by
        rw [mem_cons, not_or]
        exact ⟨fun heq => hnm (heq ▸ hl), hnm⟩
      rw [if_neg hnm, if_neg hne]
    · rw [if_neg hl]
      by_cases hf : first = name
      · subst hf
        rw [if_neg hl, if_pos mem_cons_self, append_nil]
      have hif : name ∈ first :: names ↔ name ∈ names := by
        rw [mem_cons, or_iff_right (Ne.symm hf)]
      rw [ho first mem_cons_self hf, nil_append]
      simp only [hif]

end

def Constructed (s : Linker) : Prop :=
  (s.namespaces defaultNamespace).allowedLibs = [] ∧
    (s.namespaces defaultNamespace).linkedNamespaces = []

def source (conf : Str → NamespaceConfig) (names : List Str) (name : Str) : NamespaceConfig :=
  if name = kDefaultConfigName then { conf name with allowedLibs := [] }
  else if 2 ≤ names.count name then .new name
  else conf name

structure Built (conf : Str → NamespaceConfig) (names : List Str) (b : Builder) : Prop where
  keys : (b.namespaces.map Prod.fst).Nodup
  ids : (b.namespaces.map Prod.snd).Nodup
  named : ∀ name, name ∈ b.namespaces.map Prod.fst ↔ name ∈ names
  settings : ∀ name id, (name, id) ∈ b.namespaces →
    (b.linker.namespaces id).isIsolated = (source conf names name).isolated ∧
    (b.linker.namespaces id).defaultLibraryPaths = (source conf names name).searchPaths ∧
    (b.linker.namespaces id).permittedPaths = (source conf names name).permittedPaths ∧
    (b.linker.namespaces id).allowedLibs = (source conf names name).allowedLibs
  links : ∀ name id, (name, id) ∈ b.namespaces → (b.linker.namespaces id).linkedNamespaces =
    (conf name).links.flatMap (linkOf b.namespaces)

section
variable (hcf : ∀ name, (conf name).name = name) (hnl : ∀ name ∈ names, '\x00' ∉ name)
  (hdf : kDefaultConfigName ∈ names) (s : Linker)

def unlinked (conf : Str → NamespaceConfig) (names : List Str) (s : Linker) : Builder :=
  (configsOf conf names).foldl addNamespace (initDefault s (conf kDefaultConfigName))

omit [Libbase] in
theorem unlinked_wf : (unlinked conf names s).Wf := (initDefault_wf s _).foldl _

include hcf

omit [Libbase] in
theorem cStr_default : cStr (conf kDefaultConfigName).name = kDefaultConfigName := by
  rw [hcf]
  decide

include hnl hdf

omit [Libbase] in
theorem unlinked_names (name : Str) :
    name ∈ (unlinked conf names s).namespaces.map fst ↔ name ∈ names := by
  have hs : (initDefault s (conf kDefaultConfigName)).namespaces.map fst =
      [kDefaultConfigName] := by
    rw [initDefault, cStr_default hcf]
    rfl
  rw [unlinked, foldl_names, hs, mem_singleton]
  constructor
  · rintro (rfl | ⟨c, hc, rfl⟩)
    · exact hdf
    · obtain ⟨hn, -⟩ := configsOf_name hcf hc
      rw [cStr_eq_self (hnl _ hn)]
      exact hn
  · intro hn
    have hf := find_configsOf hcf hnl hn
    have hp := find?_some hf
    exact .inr ⟨_, mem_of_find?_eq_some hf, by simpa using hp⟩

omit [Libbase] in
theorem unlinked_settings (hs : Constructed s) {id}
    (hmm : (name, id) ∈ (unlinked conf names s).namespaces) :
    let ns := (unlinked conf names s).linker.namespaces id
    ns.isIsolated = (source conf names name).isolated ∧
      ns.defaultLibraryPaths = (source conf names name).searchPaths ∧
      ns.permittedPaths = (source conf names name).permittedPaths ∧
      ns.allowedLibs = (source conf names name).allowedLibs ∧ ns.linkedNamespaces = [] := by
  intro ns
  have hw := initDefault_wf s (conf kDefaultConfigName)
  have hl := lookup_of_mem (unlinked_wf s).keys hmm
  have hst : (initDefault s (conf kDefaultConfigName)).namespaces =
      [(kDefaultConfigName, defaultNamespace)] := by
    rw [initDefault, cStr_default hcf]
  by_cases hnm : name = kDefaultConfigName
  · subst hnm
    have hf : (kDefaultConfigName, defaultNamespace) ∈
        (initDefault s (conf kDefaultConfigName)).namespaces := by
      rw [hst]
      exact mem_cons_self
    obtain ⟨hk, hsm⟩ := foldl_kept hw (configsOf conf names) hf
    cases hl.symm.trans (lookup_of_mem (unlinked_wf s).keys hk)
    have hns : ns = (initDefault s (conf kDefaultConfigName)).linker.namespaces defaultNamespace :=
      hsm
    rw [hns, source, if_pos rfl, initDefault]
    rw [modifyNs_namespaces_self]
    exact ⟨rfl, rfl, rfl, hs.1, hs.2⟩
  · have hls : name ∈ names :=
      (unlinked_names hcf hnl hdf s name).mp (mem_map_of_mem hmm)
    have hn : name ∉ (initDefault s (conf kDefaultConfigName)).namespaces.map fst := by
      rw [hst]
      exact fun hf => hnm (mem_singleton.mp hf)
    obtain ⟨id', hm', hns'⟩ := foldl_new hw hn (find_configsOf hcf hnl hls)
    cases hl.symm.trans (lookup_of_mem (unlinked_wf s).keys hm')
    have hns : ns = Namespace.ofConfig (source conf names name) := by
      rw [source, if_neg hnm]
      exact hns'
    rw [hns]
    exact ⟨rfl, rfl, rfl, rfl, rfl⟩

theorem init_built (hs : Constructed s) {config : Config} (hr : config.Holds conf names)
    (ldAndroidSo : SoinfoId) (vdso) :
    ∃ b, initDefaultNamespaces s ldAndroidSo vdso config = some b ∧ Built conf names b := by
  have hw : (unlinked conf names s).Wf := unlinked_wf s
  have hna := unlinked_names hcf hnl hdf s
  have hf : ∀ name ∈ names, ∃ id, (unlinked conf names s).namespaces.lookup name = some id := by
    intro name hnm
    exact Option.isSome_iff_exists.mp (lookup_isSome.mpr ((hna name).mpr hnm))
  have hcStr : ∀ name ∈ names, cStr name = name := fun name hnm =>
    cStr_eq_self (hnl name hnm)
  have hfm : ∀ c ∈ configsOf conf names, ∃ id,
      (unlinked conf names s).namespaces.lookup (cStr c.name) = some id := by
    intro c hc
    obtain ⟨hnm, -⟩ := configsOf_name hcf hc
    rw [hcStr _ hnm]
    exact hf _ hnm
  have ht : ∀ c ∈ configsOf conf names, ∀ link ∈ c.links, ∃ id,
      (unlinked conf names s).namespaces.lookup link.nsName = some id := by
    intro c hc link hlk
    obtain ⟨hnm, hnw | hod⟩ := configsOf_name hcf hc
    · rw [hnw] at hlk
      cases hlk
    · rw [hod] at hlk
      exact hf _ (hr.links _ hnm link hlk).1
  obtain ⟨linker, hlr, hl⟩ := addLinks_eq hfm ht (unlinked conf names s).linker
  have hsi := addLinkerSoinfos_namespaces ldAndroidSo vdso
    ((unlinked conf names s).namespaces.map snd) linker
  generalize hed : ((unlinked conf names s).namespaces.map snd).foldl
    (addLinkerSoinfos ldAndroidSo vdso) linker = linker' at hsi
  refine ⟨{ unlinked conf names s with linker := linker' }, ?_, hw.keys, hw.ids, hna, ?_, ?_⟩
  · unfold initDefaultNamespaces
    rw [hr.default, hr.configs, bind_eq_bind, bind_some]
    dsimp only
    rw [← unlinked, hlr, bind_eq_bind, bind_some, hed]
  · intro name id hmm
    obtain ⟨soinfos, hns⟩ := hsi id
    obtain ⟨hio, hsa, hp, ha, -⟩ :=
      unlinked_settings hcf hnl hdf s hs hmm
    rw [hns, hl id]
    exact ⟨hio, hsa, hp, ha⟩
  intro name id hmm
  obtain ⟨soinfos, hns⟩ := hsi id
  obtain ⟨-, -, -, -, hep⟩ := unlinked_settings hcf hnl hdf s hs hmm
  have hls : name ∈ names := (hna name).mp (mem_map_of_mem hmm)
  have hnw : ∀ n, linksFor (unlinked conf names s).namespaces id (.new n) = [] := by
    intro n
    unfold linksFor
    split <;> rfl
  have ho : ∀ n ∈ names, n ≠ name →
      linksFor (unlinked conf names s).namespaces id (conf n) = [] := by
    intro n hn hne
    rw [linksFor, hcf, hcStr n hn, if_neg]
    intro heq
    have hpr := inj_on_of_nodup_map hw.ids (mem_of_lookup heq) hmm rfl
    exact hne (congrArg fst hpr)
  rw [hns, hl id]
  dsimp only [withLinks]
  rw [hep, nil_append, flatMap_configsOf hnw ho, if_pos hls, linksFor, hcf,
    hcStr name hls, if_pos (lookup_of_mem hw.keys hmm)]

end

theorem split_cStr_ne {s} (h : '\x00' ∈ s) :
    ¬∀ lib, lib ∈ split (cStr s) ':' ↔ lib ∈ split s ':' := by
  intro hs
  have hn : '\x00' ≠ ':' := by decide
  obtain ⟨part, hp, hnl⟩ := (mem_split hn s).mpr h
  exact null_notMem_cStr s ((mem_split hn (cStr s)).mp ⟨part, (hs part).mpr hp, hnl⟩)

section
variable {link : NamespaceLinkConfig} {id : NamespaceId}
  (hid : namespaces.lookup link.nsName = some id)
  (hac : link.allowAllSharedLibs ↔ link.sharedLibs = [])
include hid

theorem mem_linkOf {l} (hl : l ∈ linkOf namespaces link) :
    l.linkedNamespace = id ∧ l.allowAllSharedLibs = link.allowAllSharedLibs ∧
      (link.allowAllSharedLibs = false →
        l.sharedLibSonames = split (cStr link.sharedLibs) ':') := by
  unfold linkOf at hl
  rw [hid] at hl
  dsimp only at hl
  split at hl <;> rename_i ha
  · cases mem_singleton.mp hl
    exact ⟨rfl, ha.symm, fun hf => nomatch ha.symm.trans hf⟩
  · split at hl
    · cases hl
    · cases mem_singleton.mp hl
      exact ⟨rfl, (Bool.not_eq_true _ ▸ ha).symm, fun _ => rfl⟩

include hac

theorem linkOf_eq (hnl : '\x00' ∉ link.sharedLibs) :
    linkOf namespaces link = [⟨id, libsOf link, link.allowAllSharedLibs⟩] := by
  unfold linkOf libsOf
  rw [hid, cStr_eq_self hnl]
  cases ha : link.allowAllSharedLibs with
  | true => rfl
  | false =>
    have hl : link.sharedLibs ≠ [] := fun hep => by
      rw [hac.mpr hep] at ha
      cases ha
    simp [hl]

end

section
variable {config : Config} (hr : config.Holds conf names) (hbt : Built conf names b)
include hbt

theorem Built.found (hn : name ∈ names) : ∃ id, b.namespaces.lookup name = some id :=
  Option.isSome_iff_exists.mp (lookup_isSome.mpr ((hbt.named name).mpr hn))

variable {id : NamespaceId}

theorem Built.name_eq {name'} (h : b.namespaces.lookup name = some id)
    (h' : b.namespaces.lookup name' = some id) : name = name' :=
  congrArg fst (inj_on_of_nodup_map hbt.ids (mem_of_lookup h) (mem_of_lookup h') rfl)

include hr

section
variable (hmm : (name, id) ∈ b.namespaces)
include hmm

section
variable (hnl : ∀ link ∈ (conf name).links, '\x00' ∉ link.sharedLibs)
include hnl

theorem Built.links_eq :
    (b.linker.namespaces id).linkedNamespaces = (conf name).links.map fun link =>
      ⟨(b.namespaces.lookup link.nsName).getD 0, libsOf link, link.allowAllSharedLibs⟩ := by
  have hn : name ∈ names := (hbt.named name).mp (mem_map_of_mem hmm)
  have hac := hr.links name hn
  rw [hbt.links name id hmm]
  generalize (conf name).links = links at *
  induction links with
  | nil => rfl
  | cons link links ih =>
    obtain ⟨ht, hlb⟩ := hac link mem_cons_self
    obtain ⟨id', hi'⟩ := hbt.found ht
    rw [flatMap_cons, map_cons, linkOf_eq hi' hlb (hnl link mem_cons_self),
      hi', ih (fun l hl => hnl l (mem_cons_of_mem _ hl))
        (fun l hl => hac l (mem_cons_of_mem _ hl))]
    rfl

theorem Built.link_ids : (b.linker.namespaces id).linkedNamespaces.map (·.linkedNamespace) =
      ((conf name).links.map (·.nsName)).map fun n => (b.namespaces.lookup n).getD 0 := by
  rw [hbt.links_eq hr hmm hnl, map_map, map_map]
  rfl

end

theorem Built.mem_links {l} (hl : l ∈ (b.linker.namespaces id).linkedNamespaces) :
    ∃ link ∈ (conf name).links, b.namespaces.lookup link.nsName = some l.linkedNamespace ∧
      l.allowAllSharedLibs = link.allowAllSharedLibs ∧ (link.allowAllSharedLibs = false →
        l.sharedLibSonames = split (cStr link.sharedLibs) ':') := by
  have hn : name ∈ names := (hbt.named name).mp (mem_map_of_mem hmm)
  rw [hbt.links name id hmm] at hl
  obtain ⟨link, hlk, hl⟩ := List.mem_flatMap.mp hl
  obtain ⟨id', hi'⟩ := hbt.found (hr.links name hn link hlk).1
  obtain ⟨ht, ha, hlb⟩ := mem_linkOf hi' hl
  exact ⟨link, hlk, ht ▸ hi', ha, hlb⟩

end

theorem Built.faithful (hp : Plain conf names) : Faithful conf names b := by
  have hls : ∀ {name id}, (name, id) ∈ b.namespaces → name ∈ names := fun hmm =>
    (hbt.named _).mp (mem_map_of_mem hmm)
  have hs : ∀ name, (source conf names name).isolated = (conf name).isolated ∧
      (source conf names name).searchPaths = (conf name).searchPaths ∧
      (source conf names name).permittedPaths = (conf name).permittedPaths ∧
      (source conf names name).allowedLibs = (conf name).allowedLibs := by
    intro name
    unfold source
    split <;> rename_i hdf
    · subst hdf
      exact ⟨rfl, rfl, rfl, hp.default.symm⟩
    · split
      · rename_i ht
        obtain ⟨h1, h2, h3, h4⟩ := hp.repeated name hdf ht
        exact ⟨h1.symm, h2.symm, h3.symm, h4.symm⟩
      · exact ⟨rfl, rfl, rfl, rfl⟩
  refine ⟨?_, hbt.keys, hbt.ids, ?_, ?_, ?_, ?_, ?_, ?_⟩
  · intro name
    rw [← hbt.named name, mem_map]
    constructor
    · rintro ⟨id, hmm⟩
      exact ⟨(name, id), hmm, rfl⟩
    · rintro ⟨⟨_, id⟩, hmm, rfl⟩
      exact ⟨id, hmm⟩
  · intro name id hmm
    rw [(hbt.settings name id hmm).1, (hs name).1]
  · intro name id hmm
    rw [(hbt.settings name id hmm).2.1, (hs name).2.1]
  · intro name id hmm
    rw [(hbt.settings name id hmm).2.2.1, (hs name).2.2.1]
  · intro name id hmm
    rw [(hbt.settings name id hmm).2.2.2, (hs name).2.2.2]
  · intro name id hmm link hlk
    have hnm := hls hmm
    have hto : ∀ link ∈ (conf name).links, link.nsName ∈ names := fun link hlk =>
      (hr.links name hnm link hlk).1
    obtain ⟨id', hid'⟩ := hbt.found (hto link hlk)
    have hlks := hbt.links_eq hr hmm (hp.noNullLibs name hnm)
    refine ⟨id', mem_of_lookup hid', ?_, ?_⟩
    · rw [hbt.link_ids hr hmm (hp.noNullLibs name hnm)]
      apply count_eq_one_of_mem
      · refine (hp.links name hnm).map_on ?_
        intro n hn n' hn' heq
        obtain ⟨l, hl, rfl⟩ := mem_map.mp hn
        obtain ⟨l', hl', rfl⟩ := mem_map.mp hn'
        obtain ⟨i, hi⟩ := hbt.found (hto l hl)
        obtain ⟨i', hi'⟩ := hbt.found (hto l' hl')
        rw [hi, hi'] at heq
        exact hbt.name_eq hi (hi'.trans (congrArg some heq.symm))
      · refine mem_map.mpr ⟨link.nsName, mem_map_of_mem hlk, ?_⟩
        rw [hid']
        rfl
    · intro l hl hl'
      rw [hlks] at hl
      obtain ⟨link', hlk', rfl⟩ := mem_map.mp hl
      obtain ⟨i, hi⟩ := hbt.found (hto link' hlk')
      rw [hi, Option.getD_some] at hl'
      have hsm := hr.sameLink name link' hlk' link hlk
        (hbt.name_eq hi (hid'.trans (congrArg some hl'.symm)))
      subst hsm
      exact ⟨rfl, fun _ => Iff.rfl⟩
  · intro name id hmm l hl
    obtain ⟨link, hlk, hid, -⟩ := hbt.mem_links hr hmm hl
    exact ⟨link, hlk, mem_of_lookup hid⟩

theorem Built.plain (hdf : kDefaultConfigName ∈ names)
    (hnl : ∀ name ∈ names, '\x00' ∉ name) (h : Faithful conf names b) : Plain conf names := by
  have hey : ∀ {name}, name ∈ names → ∃ id, (name, id) ∈ b.namespaces := fun hn =>
    (h.named _).mpr hn
  have hlb : ∀ name ∈ names, ∀ link ∈ (conf name).links, '\x00' ∉ link.sharedLibs := by
    intro name hn link hlk hb
    obtain ⟨id, hmm⟩ := hey hn
    obtain ⟨id', hto, ho, hm⟩ := h.links name id hmm link hlk
    have hp : 0 < ((b.linker.namespaces id).linkedNamespaces.map (·.linkedNamespace)).count id' :=
      by omega
    obtain ⟨l, hl, rfl⟩ := mem_map.mp (List.count_pos_iff.mp hp)
    obtain ⟨link', hlk', hid, -, hsn⟩ := hbt.mem_links hr hmm hl
    have hsm := hr.sameLink name link' hlk' link hlk (hbt.name_eq hid (lookup_of_mem h.keys hto))
    subst hsm
    have ha : link'.allowAllSharedLibs = false := by
      cases ha : link'.allowAllSharedLibs with
      | false => rfl
      | true =>
        rw [(hr.links name hn link' hlk).2.mp ha] at hb
        cases hb
    have hss := (hm l hl rfl).2
    rw [hsn ha, libsOf, ha] at hss
    exact split_cStr_ne hb hss
  refine ⟨?_, ?_, ?_, hnl, hlb⟩
  · obtain ⟨id, hmm⟩ := hey hdf
    rw [← h.allowedLibs _ id hmm, (hbt.settings _ id hmm).2.2.2, source, if_pos rfl]
  · intro name hn ht
    have hls : name ∈ names := List.count_pos_iff.mp (by omega)
    obtain ⟨id, hmm⟩ := hey hls
    have hs := hbt.settings name id hmm
    rw [source, if_neg hn, if_pos ht] at hs
    exact ⟨(h.isolated name id hmm).symm.trans hs.1,
      (h.searchPaths name id hmm).symm.trans hs.2.1,
      (h.permittedPaths name id hmm).symm.trans hs.2.2.1,
      (h.allowedLibs name id hmm).symm.trans hs.2.2.2⟩
  · intro name hn
    obtain ⟨id, hmm⟩ := hey hn
    refine List.Nodup.of_map (fun n => (b.namespaces.lookup n).getD 0) ?_
    rw [← hbt.link_ids hr hmm (hlb name hn), nodup_iff_count_le_one]
    intro id'
    by_cases hm' : id' ∈ (b.linker.namespaces id).linkedNamespaces.map (·.linkedNamespace)
    · obtain ⟨l, hl, rfl⟩ := mem_map.mp hm'
      obtain ⟨link, hlk, hid, -⟩ := hbt.mem_links hr hmm hl
      obtain ⟨id', hto, ho, -⟩ := h.links name id hmm link hlk
      cases hid.symm.trans (lookup_of_mem h.keys hto)
      exact le_of_eq ho
    · rw [count_eq_zero_of_not_mem hm']
      exact Nat.zero_le 1

end

theorem init_namespaces {config} (hr : config.Holds conf names) {s ldAndroidSo vdso}
    (h : initDefaultNamespaces s ldAndroidSo vdso config = some b) :
    b.namespaces = (unlinked conf names s).namespaces := by
  unfold initDefaultNamespaces at h
  rw [hr.default, hr.configs, bind_eq_bind, bind_some] at h
  obtain ⟨linker, -, hb⟩ := Option.bind_eq_some_iff.mp h
  cases hb
  rfl

/-- For a file that is accepted, construction gives exactly the namespaces, settings and links of
the binary's section just if nothing is configured that it loses. -/
theorem namespaces_faithful_iff {env : Environment} {iterate : List Str → List Str}
    {file binary : Str} {isAsan isHwasan : Bool} {config : Config} {properties : PropertyMap}
    (hiterate : ∀ keys, (iterate keys).Perm keys)
    (hparse : parseConfigFile env file binary = .ok properties)
    (hr : readConfigForBinary env iterate file binary isAsan isHwasan = .ok config)
    {s : Linker} (hs : Constructed s) (ldAndroidSo : SoinfoId) (vdso : Option SoinfoId) :
    (∃ b, initDefaultNamespaces s ldAndroidSo vdso config = some b ∧
      Faithful (configured env properties isAsan isHwasan config.targetSdkVersion)
        (sectionNames properties) b) ↔
    Plain (configured env properties isAsan isHwasan config.targetSdkVersion)
      (sectionNames properties) := by
  have hh := readConfigForBinary_ok hiterate hparse hr
  have hdf : kDefaultConfigName ∈ sectionNames properties := mem_cons_self
  constructor
  · rintro ⟨b, hin, hf⟩
    have hnl : ∀ name ∈ sectionNames properties, '\x00' ∉ name := by
      intro name hn
      obtain ⟨id, hmm⟩ := (hf.named name).mpr hn
      rw [init_namespaces hh hin] at hmm
      exact (unlinked_wf s).noNull name (mem_map_of_mem hmm)
    obtain ⟨b', hin', hbt⟩ :=
      init_built hh.name hnl hdf s hs hh ldAndroidSo vdso
    cases hin.symm.trans hin'
    exact hbt.plain hh hdf hnl hf
  · intro hp
    obtain ⟨b, hin, hbt⟩ :=
      init_built hh.name hp.noNullNames hdf s hs hh ldAndroidSo vdso
    exact ⟨b, hin, hbt.faithful hh hp⟩

end

local instance splitOnLibbase : Libbase where
  trim s := ((s.dropWhile Char.isWhitespace).reverse.dropWhile Char.isWhitespace).reverse
  split s delimiter := s.splitOn delimiter
  endsWith s suffix := suffix.isSuffixOf s
  mem_split {c delimiter} hn s := by
    induction s with
    | nil => simp
    | cons x s ih =>
      obtain ⟨first, rest, hs⟩ := exists_cons_of_ne_nil (splitOn_ne_nil delimiter s)
      rw [splitOn_cons_eq_if_modifyHead, mem_cons, ← ih, hs]
      by_cases hx : x = delimiter
      · subst hx
        simp [hn]
      · simp [hx, or_assoc]

def sampleEnv (content : String) : Environment where
  readFile _ := .ok content.toList
  strerror _ := []
  access _ := .ok ()
  realpath path := some path
  resolvePath path := path
  vndkVersion := []
  androidApi := 35
  kLibPath := "lib64".toList
  longBits := 64

def ldConfigTxt : Str := "/ld.config.txt".toList

def sampleApp : Str := "/bin/app".toList

def startLinker : Linker := ⟨fun _ => .zero, [], fun _ => Namespace.ofConfig (.new []), []⟩

def sampleConfig : String := "dir.s = /bin/\n[s]\nadditional.namespaces = a\n" ++
  "namespace.default.links = a\nnamespace.default.link.a.shared_libs = libc.so:libm.so\n"

theorem namespaces_faithful_iff_sampleConfig : ∃ properties config,
      parseConfigFile (sampleEnv sampleConfig) ldConfigTxt sampleApp = .ok properties ∧
      readConfigForBinary (sampleEnv sampleConfig) id ldConfigTxt sampleApp false false =
        .ok config ∧ ((∃ b, initDefaultNamespaces startLinker 5 none config = some b ∧
        Faithful (configured (sampleEnv sampleConfig) properties false false
          config.targetSdkVersion) (sectionNames properties) b) ↔
      Plain (configured (sampleEnv sampleConfig) properties false false config.targetSdkVersion)
        (sectionNames properties)) := by
  obtain ⟨config, hr⟩ : ∃ config,
      readConfigForBinary (sampleEnv sampleConfig) id ldConfigTxt sampleApp false false =
        .ok config := by
    have ho : (readConfigForBinary (sampleEnv sampleConfig) id ldConfigTxt sampleApp false
        false).isOk := by decide +kernel
    revert ho
    generalize readConfigForBinary (sampleEnv sampleConfig) id ldConfigTxt sampleApp false false = r
    cases r with
    | error e => exact nofun
    | ok config => exact fun _ => ⟨config, rfl⟩
  obtain ⟨properties, hp, -⟩ := ok_of_bind hr
  exact ⟨properties, config, hp, hr,
    namespaces_faithful_iff (fun _ => .refl _) hp hr ⟨rfl, rfl⟩ 5 none⟩

def builtFrom (content : String) : Option Builder := do
  let config ← (readConfigForBinary (sampleEnv content) id ldConfigTxt sampleApp false
    false).toOption
  initDefaultNamespaces startLinker 5 none config

/-- The allowed libraries of the default namespace are dropped; of a name that is listed twice, the
settings are; a link that is listed twice is made twice. -/
theorem settings_lost :
    ((builtFrom "dir.s=/bin\n[s]\nnamespace.default.allowed_libs=libc.so").map fun b =>
      (b.linker.namespaces defaultNamespace).allowedLibs) = some [] ∧
    ((builtFrom ("dir.s=/bin\n[s]\nadditional.namespaces=a,a\n" ++
      "namespace.a.isolated=true")).map fun b =>
        (b.namespaces.lookup ['a']).map fun id => (b.linker.namespaces id).isIsolated) =
      some (some false) ∧
    ((builtFrom ("dir.s=/bin\n[s]\nnamespace.default.links=default,default\n" ++
      "namespace.default.link.default.shared_libs=libc.so")).map fun b =>
        ((b.linker.namespaces defaultNamespace).linkedNamespaces.map (·.linkedNamespace))) =
      some [defaultNamespace, defaultNamespace] := by
  decide +kernel

end LinkerDefaultNamespaces
