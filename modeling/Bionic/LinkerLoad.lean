import Bionic.LinkerNamespaces

/-! `find_libraries`: a breadth-first expansion of the requested names into load tasks, then
loading, prelinking and linking of the new libraries, one local group after another, and at last the
reference counts between the groups. After a failure the caller cleans up. -/
namespace LinkerLoad

open Prod (snd)
open LinkerSoinfo LinkerNamespaces Bool Prod
open List

/-- The arguments of `find_libraries`. `ldPreloadsCount` and `namespaces` are missing when
the pointer is null. -/
structure Request where
  ns : NamespaceId
  startWith : Option SoinfoId
  libraryNames : List Name
  ldPreloadsCount : Option ℕ
  flags : RtldFlags
  extinfo : Option ExtInfo
  addAsChildren : Bool
  namespaces : Option (List NamespaceId)

/-- The variables of step 1. `tasks` are the resolved tasks, `readers` the libraries whose
file was read in this call. -/
structure Expansion where
  linker : Linker
  tasks : List (LoadTask × SoinfoId)
  readers : List SoinfoId
  soinfos : List SoinfoId
  ldPreloads : List SoinfoId
  newGlobalGroupMembers : List SoinfoId

def isDtNeeded (q : Request) (neededBy : Option SoinfoId) : Bool :=
  neededBy.isSome && (neededBy ≠ q.startWith || q.addAsChildren)

/-- `set_extinfo` and `set_dt_needed`. -/
def prepareTask (q : Request) (task : LoadTask) : LoadTask :=
  { task with
    extinfo := if isDtNeeded q task.neededBy then none else q.extinfo
    isDtNeeded := isDtNeeded q task.neededBy }

def addToNamespaces (s : Linker) (si : SoinfoId) (l : List NamespaceId) : Linker :=
  l.foldl (fun s ns =>
    if (s.soinfo si).primaryNamespace = ns then s
    else (s.addSoinfo ns si).addSecondaryNamespace si ns) s

def linkNeeded (q : Request) (s : Linker) (neededBy : Option SoinfoId) (si : SoinfoId) : Linker :=
  match neededBy with
  | some p => if isDtNeeded q neededBy then s.addChild p si else s
  | none => s

def recordTask (q : Request) (st : Expansion) (s : Linker) (task : LoadTask) (found : Found) :
    Expansion :=
  let si := found.si
  let s₁ := linkNeeded q s task.neededBy si
  let isLdPreload := q.ldPreloadsCount.any fun n => st.soinfos.length < n
  let joins := (isLdPreload || (s₁.soinfo si).dtFlags1.global) && !(s₁.soinfo si).linked &&
    q.namespaces.isSome && !st.newGlobalGroupMembers.contains si
  { linker := if joins then addToNamespaces s₁ si (q.namespaces.getD []) else s₁
    tasks := st.tasks ++ [(task, si)]
    readers := if found.loaded then st.readers ++ [si] else st.readers
    soinfos := if st.soinfos.length < q.libraryNames.length then st.soinfos ++ [si]
      else st.soinfos
    ldPreloads := if isLdPreload then st.ldPreloads ++ [si] else st.ldPreloads
    newGlobalGroupMembers := if joins then st.newGlobalGroupMembers ++ [si]
      else st.newGlobalGroupMembers }

def expandTasks (sys : System) (q : Request) :
    ℕ → Expansion → List LoadTask → Option (Expansion × Bool)
  | _, st, [] => some (st, true)
  | 0, _, _ :: _ => none
  | fuel + 1, st, task :: rest =>
    match findLibraryInternal sys st.linker task.startFrom (prepareTask q task) q.flags with
    | none => none
    | some (s, none) => some ({ st with linker := s }, false)
    | some (s, some found) =>
      expandTasks sys q fuel (recordTask q st s (prepareTask q task) found) (rest ++ found.tasks)

def initialTasks (q : Request) : List LoadTask :=
  q.libraryNames.map fun name => ⟨name, q.startWith, q.ns, none, false⟩

def loadList (s : Linker) (sis : List SoinfoId) : List SoinfoId :=
  sis.foldl (fun l si =>
    if !(s.soinfo si).linked && !(s.soinfo si).exe && !l.contains si then l ++ [si] else l) []

def loadLibraries (sys : System) (s : Linker) (readers : List SoinfoId) :
    List SoinfoId → Option Bool
  | [] => some true
  | si :: rest =>
    if !readers.contains si then none
    else if sys.load s si then loadLibraries sys s readers rest else some false

def Soinfo.prelinkImage (sys : System) (dynamic : List DynEntry) (si : Soinfo) : Soinfo :=
  let si₁ := dynamic.foldl (Soinfo.readDynEntry sys) si
  { si₁ with
    soname := if si₁.soname = [] ∧ si₁.exe = false ∧ sys.targetSdkVersion < 23
      then basename si₁.realpath else si₁.soname
    prelinked := true }

def prelinkLibraries (sys : System) (s : Linker) : List SoinfoId → Linker × Bool
  | [] => (s, true)
  | si :: rest =>
    if (s.soinfo si).linked || (s.soinfo si).prelinked then prelinkLibraries sys s rest
    else
      match sys.prelink s si with
      | none => (s, false)
      | some dynamic =>
        prelinkLibraries sys (s.modify si (Soinfo.prelinkImage sys dynamic)) rest

def markLdPreloads (s : Linker) (l : List SoinfoId) : Linker :=
  l.foldl (fun s si => s.modify si fun x => x.setDtFlags1 { x.dtFlags1 with global := true }) s

def neededByNs (s : Linker) (q : Request) (neededBy : Option SoinfoId) : NamespaceId :=
  match neededBy with
  | some p => if isDtNeeded q neededBy then (s.soinfo p).primaryNamespace else q.ns
  | none => q.ns

def addRoot (s : Linker) (q : Request) (roots : List SoinfoId) (t : LoadTask × SoinfoId) :
    List SoinfoId :=
  if !(s.soinfo t.2).linked &&
      decide ((s.soinfo t.2).primaryNamespace ≠ neededByNs s q t.1.neededBy) &&
      !roots.contains t.2
  then roots ++ [t.2] else roots

def localGroupRoots (s : Linker) (q : Request) (first : SoinfoId)
    (tasks : List (LoadTask × SoinfoId)) : List SoinfoId :=
  tasks.foldl (addRoot s q) [first]

/-- `walk_dependencies_tree` in step 6: an accessible library joins the group and its children are
visited. -/
def walkDependenciesTree (s : Linker) (ns : NamespaceId) :
    ℕ → List SoinfoId → List SoinfoId → List SoinfoId → Option (List SoinfoId)
  | _, [], _, group => some group
  | 0, _ :: _, _, _ => none
  | fuel + 1, si :: visit, visited, group =>
    if visited.contains si then walkDependenciesTree s ns fuel visit visited group
    else if s.isAccessible ns si then
      walkDependenciesTree s ns fuel (visit ++ (s.soinfo si).children) (visited ++ [si])
        (group ++ [si])
    else walkDependenciesTree s ns fuel visit (visited ++ [si]) group

def walkFuel (s : Linker) : ℕ := 1 + (s.solist.map fun x => (s.soinfo x).children.length).sum

def localGroup (s : Linker) (root : SoinfoId) : Option (List SoinfoId) :=
  walkDependenciesTree s (s.soinfo root).primaryNamespace (walkFuel s) [root] [] []

/-- The root is set before the relocations that can fail. -/
def linkImage (sys : System) (s : Linker) (si : SoinfoId) (root : Option SoinfoId) :
    Linker × Bool :=
  if (s.soinfo si).imageLinked then (s, true)
  else
    let s₁ := s.modify si (Soinfo.setLocalGroupRoot (root.getD si))
    if sys.relocate s₁ si then (s₁.modify si Soinfo.setImageLinked, true)
    else (s₁, false)

def linkGroup (sys : System) (ns : NamespaceId) (root : Option SoinfoId) (s : Linker) :
    List SoinfoId → Linker × Bool
  | [] => (s, true)
  | si :: rest =>
    if !(s.soinfo si).linked && decide ((s.soinfo si).primaryNamespace = ns) then
      match linkImage sys s si root with
      | (s₁, false) => (s₁, false)
      | (s₁, true) =>
        if sys.afterLoad s₁ si then linkGroup sys ns root s₁ rest else (s₁, false)
    else linkGroup sys ns root s rest

def linkGroups (sys : System) (s : Linker) : List SoinfoId → Option (Linker × Bool)
  | [] => some (s, true)
  | root :: rest =>
    match localGroup s root with
    | none => none
    | some group =>
      match linkGroup sys (s.soinfo root).primaryNamespace group.head? s group with
      | (s₁, false) => some (s₁, false)
      | (s₁, true) => linkGroups sys s₁ rest

def setLinked (s : Linker) (l : List SoinfoId) : Linker :=
  l.foldl (fun s si => s.modify si Soinfo.setLinked) s

/-- An edge between groups (step 7), unless it starts at `startWith`. -/
def crossesGroups (s : Linker) (q : Request) (t : LoadTask × SoinfoId) : Bool :=
  match t.1.neededBy with
  | none => false
  | some p => decide (some p ≠ q.startWith) &&
      decide ((s.soinfo p).localGroupRoot ≠ (s.soinfo t.2).localGroupRoot)

def countReferences (q : Request) (s : Linker) : List (LoadTask × SoinfoId) → Option Linker
  | [] => some s
  | t :: rest =>
    if crossesGroups s q t then
      match s.incrementRefCount t.2 with
      | none => none
      | some s₁ => countReferences q s₁ rest
    else countReferences q s rest

def finishLinking (q : Request) (s : Linker) (tasks : List (LoadTask × SoinfoId)) :
    Option Linker :=
  let first := if q.addAsChildren then q.startWith.toList else []
  countReferences q (setLinked s (first ++ tasks.map snd)) tasks

/-- The state, whether it succeeded, and the filled part of `soinfos`. -/
def findLibraries (sys : System) (fuel : ℕ) (s : Linker) (q : Request) :
    Option (Linker × Bool × List SoinfoId) :=
  match expandTasks sys q fuel ⟨s, [], [], [], [], []⟩ (initialTasks q) with
  | none => none
  | some (st, false) => some (st.linker, false, st.soinfos)
  | some (st, true) =>
    let sis := st.tasks.map snd
    match loadLibraries sys st.linker st.readers (sys.shuffle (loadList st.linker sis)) with
    | none => none
    | some false => some (st.linker, false, st.soinfos)
    | some true =>
      match prelinkLibraries sys st.linker sis with
      | (s₁, false) => some (s₁, false, st.soinfos)
      | (s₁, true) =>
        let s₂ := markLdPreloads s₁ st.ldPreloads
        let first := if q.addAsChildren then q.startWith.or st.soinfos.head? else st.soinfos.head?
        match first with
        | none => none
        | some first =>
          match linkGroups sys s₂ (localGroupRoots s₂ q first st.tasks) with
          | none => none
          | some (s₃, false) => some (s₃, false, st.soinfos)
          | some (s₃, true) => (finishLinking q s₃ st.tasks).map fun s₄ => (s₄, true, st.soinfos)

def Request.dlopen (ns : NamespaceId) (caller : Option SoinfoId) (name : Name) (flags : RtldFlags)
    (extinfo : Option ExtInfo) : Request :=
  ⟨ns, caller, [name], none, flags, extinfo, false, none⟩

structure Unlinked (flags : RtldFlags) (x : Soinfo) : Prop where
  linked : x.linked = false
  imageLinked : x.imageLinked = false
  prelinked : x.prelinked = false
  exe : x.exe = false
  localGroupRoot : x.localGroupRoot = none
  refCount : x.refCount = 0
  secondary : x.secondaryNamespaces = []
  flags : (flags.global → x.rtldFlags.global) ∧ (flags.nodelete → x.rtldFlags.nodelete)

/-- The DT_NEEDED entries of `p` that were resolved. -/
def resolvedNeeds (tasks : List (LoadTask × SoinfoId)) (p : SoinfoId) : List SoinfoId :=
  (tasks.filter fun t => t.1.neededBy = some p).map snd

/-- `t` is `s` with the soinfos `new` added: they hold the links that the resolved tasks ask for,
and the old ones gained nothing but parents among them. -/
structure Grown (flags : RtldFlags) (s t : Linker) (tasks : List (LoadTask × SoinfoId))
    (new : List SoinfoId) : Prop where
  wf : Wf t
  solist : t.solist = s.solist ++ new
  unloaded : t.unloaded = s.unloaded
  namespaces : ∀ n, t.namespaces n =
    { s.namespaces n with
      soinfoList := (s.namespaces n).soinfoList ++
        new.filter fun x => (t.soinfo x).primaryNamespace = n }
  old : ∀ x ∈ s.solist, ∃ ps, (∀ p ∈ ps, p ∈ new) ∧
    t.soinfo x = { s.soinfo x with parents := (s.soinfo x).parents ++ ps }
  unlinked : ∀ x ∈ new, Unlinked flags (t.soinfo x)
  children : ∀ x ∈ new, (t.soinfo x).children = resolvedNeeds tasks x
  parents : ∀ x ∈ new, ∀ p ∈ (t.soinfo x).parents, p ∈ new

variable {x : SoinfoId}

variable {flags : RtldFlags} {s t : Linker} {tasks : List (LoadTask × SoinfoId)}
  {new : List SoinfoId} {task : LoadTask}

theorem grown_start (wf : Wf s) : Grown flags s s [] [] := by
  refine ⟨wf, by simp, rfl, fun n => by simp, fun x _ => ⟨[], by simp, by simp⟩, ?_, ?_, ?_⟩ <;>
    simp

section
variable (h : Grown flags s t tasks new)
include h

theorem Grown.disjoint (hx : x ∈ new) : x ∉ s.solist := by
  have hn := h.wf.nodup
  rw [h.solist] at hn
  exact fun hs => (List.nodup_append.mp hn).2.2 x hs x hx rfl

theorem Grown.same {u} (wf : Wf u) (hs : Same t u) : Grown flags s u tasks new := by
  have hod : ∀ x ∈ s.solist, u.soinfo x = t.soinfo x := fun x hx =>
    hs.soinfo x (by rw [h.solist]; exact mem_append_left _ hx)
  have hn : ∀ x ∈ new, u.soinfo x = t.soinfo x := fun x hx =>
    hs.soinfo x (by rw [h.solist]; exact mem_append_right _ hx)
  refine ⟨wf, hs.solist.trans h.solist, hs.unloaded.trans h.unloaded, ?_, ?_, ?_, ?_, ?_⟩
  · intro n
    rw [hs.namespaces, h.namespaces n]
    have hf : (new.filter fun x => (t.soinfo x).primaryNamespace = n) =
        new.filter fun x => (u.soinfo x).primaryNamespace = n :=
      filter_congr fun x hx => by rw [hn x hx]
    rw [hf]
  · intro x hx
    rw [hod x hx]; exact h.old x hx
  · intro x hx
    rw [hn x hx]; exact h.unlinked x hx
  · intro x hx
    rw [hn x hx]; exact h.children x hx
  · intro x hx
    rw [hn x hx]; exact h.parents x hx

theorem Grown.record {c}
    (hot : ∀ p ∈ new, task.neededBy ≠ some p) : Grown flags s t (tasks ++ [(task, c)]) new := by
  refine ⟨h.wf, h.solist, h.unloaded, h.namespaces, h.old, h.unlinked, fun x hx => ?_, h.parents⟩
  rw [h.children x hx]
  simp [resolvedNeeds, hot x hx]

theorem Grown.link {p c} (hp : p ∈ new) (hn : task.neededBy = some p) (hc : c ∈ t.solist) :
    Grown flags s (t.addChild p c) (tasks ++ [(task, c)]) new := by
  have hpl : p ∈ t.solist := by rw [h.solist]; exact mem_append_right _ hp
  refine ⟨addChild_wf h.wf hpl hc, h.solist, h.unloaded, ?_, ?_, ?_, ?_, ?_⟩
  · intro n
    have hf : (new.filter fun x => ((t.addChild p c).soinfo x).primaryNamespace = n) =
        new.filter fun x => (t.soinfo x).primaryNamespace = n :=
      filter_congr fun x _ => by rw [addChild_soinfo]
    rw [hf]
    exact h.namespaces n
  · intro x hx
    obtain ⟨ps, hps, heq⟩ := h.old x hx
    have hxp : x ≠ p := fun hxp => h.disjoint hp (hxp ▸ hx)
    refine ⟨ps ++ if x = c then [p] else [], ?_, ?_⟩
    · intro q hq
      rcases mem_append.mp hq with hq | hq
      · exact hps q hq
      split at hq
      · rw [mem_singleton.mp hq]; exact hp
      · cases hq
    · rw [addChild_soinfo, heq]
      simp [hxp]
  · intro x hx
    rw [addChild_soinfo]
    obtain ⟨h1, h2, h3, h4, h5, h6, h7, h8⟩ := h.unlinked x hx
    exact ⟨h1, h2, h3, h4, h5, h6, h7, h8⟩
  · intro x hx
    rw [addChild_soinfo]
    simp only [h.children x hx, resolvedNeeds, filter_append, map_append]
    by_cases hxp : x = p
    · simp [hxp, hn]
    · simp [hxp, hn, Ne.symm hxp]
  · intro x hx q hq
    rw [addChild_soinfo] at hq
    rcases mem_append.mp hq with hq | hq
    · exact h.parents x hx q hq
    split at hq
    · rw [mem_singleton.mp hq]; exact hp
    · cases hq

theorem Grown.create {sys u a ns realpath stat} {offset : ℤ} {dynamic : List DynEntry}
    (wf : Wf u) (hsm : Same t u) (ha : a ∉ t.solist)
    (ht : ∀ k ∈ tasks, k.1.neededBy ≠ some a) : Grown flags s
      ((u.soinfoAlloc a ns realpath stat offset flags).modify a
        fun si => dynamic.foldl (Soinfo.readDynEntry sys) si) tasks (new ++ [a]) := by
  have hu := h.same wf hsm
  have hau : a ∉ u.solist := by rw [hsm.solist]; exact ha
  have wfa : Wf (u.soinfoAlloc a ns realpath stat offset flags) := soinfoAlloc_wf wf hau
  generalize hw : (u.soinfoAlloc a ns realpath stat offset flags).modify a
    (fun si => dynamic.foldl (Soinfo.readDynEntry sys) si) = w
  have hoh : ∀ x ≠ a, w.soinfo x = u.soinfo x := by
    intro x hx
    rw [← hw, modify_soinfo_of_ne _ _ _ _ hx, soinfoAlloc_soinfo_of_ne hx]
  obtain ⟨runpath, soname, rtldFlags, dtFlags1, told, heq, hg, hn⟩ :=
    readDynEntries_spec sys dynamic ((u.soinfoAlloc a ns realpath stat offset flags).soinfo a)
  have hs : w.soinfo a = { (u.soinfoAlloc a ns realpath stat offset flags).soinfo a with
      dtRunpath := runpath, soname := soname, rtldFlags := rtldFlags, dtFlags1 := dtFlags1
      told := told } := by
    rw [← hw, modify_soinfo_self, heq]
  rw [soinfoAlloc_soinfo_self] at hs hg hn
  have hnw : ∀ x ∈ new, x ≠ a := by
    rintro x hx rfl
    exact hau (by rw [hu.solist]; exact mem_append_right _ hx)
  have hod : ∀ x ∈ s.solist, x ≠ a := by
    rintro x hx rfl
    exact hau (by rw [hu.solist]; exact mem_append_left _ hx)
  refine ⟨?_, ?_, ?_, ?_, ?_, ?_, ?_, ?_⟩
  · rw [← hw]
    exact (readDynEntries_keepsLinks sys dynamic).wf wfa a
  · rw [← hw, modify_solist, soinfoAlloc_solist, hu.solist, append_assoc]
  · rw [← hw]
    exact hu.unloaded
  · intro n
    have hf : (new.filter fun x => (w.soinfo x).primaryNamespace = n) =
        new.filter fun x => (u.soinfo x).primaryNamespace = n :=
      filter_congr fun x hx => by rw [hoh x (hnw x hx)]
    have hl : ([a].filter fun x => (w.soinfo x).primaryNamespace = n) =
        if n = ns then [a] else [] := by
      by_cases hns : n = ns
      · simp [hs, hns]
      · simp [hs, hns, Ne.symm hns]
    rw [filter_append, hf, hl, ← hw, modify_namespaces, soinfoAlloc_namespaces, hu.namespaces n]
    simp
  · intro x hx
    rw [hoh x (hod x hx)]
    obtain ⟨ps, hps, hx'⟩ := hu.old x hx
    exact ⟨ps, fun p hp => mem_append_left _ (hps p hp), hx'⟩
  · intro x hx
    rcases mem_append.mp hx with hx | hx
    · rw [hoh x (hnw x hx)]
      exact hu.unlinked x hx
    · rw [mem_singleton.mp hx, hs]
      exact ⟨rfl, rfl, rfl, rfl, rfl, rfl, rfl, hg, hn⟩
  · intro x hx
    rcases mem_append.mp hx with hx | hx
    · rw [hoh x (hnw x hx)]
      exact hu.children x hx
    rw [mem_singleton.mp hx, hs]
    have hno : (tasks.filter fun k => k.1.neededBy = some a) = [] :=
      List.filter_eq_nil_iff.mpr fun k hk => by simpa using ht k hk
    simp [resolvedNeeds, hno, Soinfo.zero]
  · intro x hx p hp
    rcases mem_append.mp hx with hx | hx
    · rw [hoh x (hnw x hx)] at hp
      exact mem_append_left _ (hu.parents x hx p hp)
    · rw [mem_singleton.mp hx, hs] at hp
      cases hp

end

def ChildOf (s : Linker) (p c : SoinfoId) : Prop := c ∈ (s.soinfo p).children

/-- Step 1 of a `dlopen` from outside: the libraries that were created, the tasks resolved and those
left. -/
structure Expanding (q : Request) (s : Linker) (st : Expansion) (new : List SoinfoId)
    (pending : List LoadTask) : Prop where
  grown : Grown q.flags s st.linker st.tasks new
  live : ∀ k ∈ st.tasks, k.2 ∈ st.linker.solist
  needed : ∀ k ∈ st.tasks, k.1.neededBy = q.startWith ∨ ∃ p ∈ new, k.1.neededBy = some p
  later : ∀ k ∈ st.tasks.drop 1, ∃ p ∈ new, k.1.neededBy = some p
  soinfos : st.soinfos = (st.tasks.take 1).map snd
  readers : st.readers = new
  ldPreloads : st.ldPreloads = []
  resolved : ∀ x ∈ new, ∃ k ∈ st.tasks, k.2 = x
  parented : ∀ x ∈ new, st.soinfos.head? = some x ∨ (st.linker.soinfo x).parents ≠ []
  reached : ∀ x ∈ new, ∃ f, st.soinfos.head? = some f ∧
    Relation.ReflTransGen (ChildOf st.linker) f x
  reused : ∀ x, st.soinfos.head? = some x → x ∉ new → new = []
  first : st.tasks = [] → new = [] ∧ pending = initialTasks q
  rest : st.tasks ≠ [] → ∀ k ∈ pending, ∃ p ∈ new, k.neededBy = some p

variable {ok : Bool}

variable {sys : System} {st : Expansion} {new' : List SoinfoId} {ns : NamespaceId}
  {caller : Option SoinfoId} {name : Name} {extinfo : Option ExtInfo} {pending : List LoadTask}
  {q : Request}

section
variable {u : Linker} {found : Found}

/-- When a name is resolved nothing is created, or the library that was found is, with its own
dependencies to resolve. -/
def Extends (found : Found) (new new' : List SoinfoId) : Prop :=
  found.loaded = false ∧ new' = new ∧ found.tasks = [] ∨
    found.loaded ∧ new' = new ++ [found.si] ∧ ∀ k ∈ found.tasks, k.neededBy = some found.si

section
variable (h : Extends found new new')
include h

theorem Extends.mono : ∀ x ∈ new, x ∈ new' := by
  intro x hx
  rcases h with ⟨-, rfl, -⟩ | ⟨-, rfl, -⟩
  · exact hx
  · exact mem_append_left _ hx

theorem Extends.mem : ∀ x ∈ new', x ∈ new ∨ x = found.si := by
  intro x hx
  rcases h with ⟨-, rfl, -⟩ | ⟨-, rfl, -⟩
  · exact .inl hx
  · exact (mem_append.mp hx).imp id mem_singleton.mp

theorem Extends.readers : (if found.loaded then new ++ [found.si] else new) = new' := by
  rcases h with ⟨hl, rfl, -⟩ | ⟨hl, rfl, -⟩ <;> simp [hl]

theorem Extends.needed : ∀ k ∈ found.tasks, ∃ p ∈ new', k.neededBy = some p := by
  intro k hk
  rcases h with ⟨-, -, hn⟩ | ⟨-, rfl, hal⟩
  · rw [hn] at hk
    cases hk
  · exact ⟨found.si, mem_append_right _ mem_cons_self, hal k hk⟩

end

theorem Outcome.grown (h : Grown flags s t tasks new)
    (hl : ∀ k ∈ tasks, ∀ p, k.1.neededBy = some p → p ∈ t.solist)
    (ho : Outcome sys flags t u (some found)) :
    ∃ new', Grown flags s u tasks new' ∧ found.si ∈ u.solist ∧ Extends found new new' := by
  cases ho with
  | existing wf hs hm =>
    exact ⟨new, h.same wf hs, hs.solist ▸ hm, .inl ⟨rfl, rfl, rfl⟩⟩
  | created ns realpath stat offset dynamic wf hs hot =>
    refine ⟨_, h.create wf hs hot fun k hk hka => hot (hl k hk _ hka), ?_, .inr ⟨rfl, rfl, ?_⟩⟩
    · simp [soinfoAlloc_solist]
    intro k hk
    obtain ⟨name, -, rfl⟩ := List.mem_map.mp hk
    rfl

variable {rest : List LoadTask}

theorem recordTask_dlopen (st task) :
    recordTask (.dlopen ns caller name flags extinfo) st u task found =
      { linker := linkNeeded (.dlopen ns caller name flags extinfo) u task.neededBy found.si
        tasks := st.tasks ++ [(task, found.si)]
        readers := if found.loaded then st.readers ++ [found.si] else st.readers
        soinfos := if st.soinfos.length < 1 then st.soinfos ++ [found.si] else st.soinfos
        ldPreloads := st.ldPreloads
        newGlobalGroupMembers := st.newGlobalGroupMembers } := by
  simp [recordTask, Request.dlopen]

theorem linkNeeded_caller (c : SoinfoId) :
    linkNeeded (.dlopen ns caller name flags extinfo) u caller c = u := by
  cases caller <;> simp [linkNeeded, isDtNeeded, Request.dlopen]

theorem linkNeeded_new {p} (h : caller ≠ some p) (c : SoinfoId) :
    linkNeeded (.dlopen ns caller name flags extinfo) u (some p) c = u.addChild p c := by
  simp [linkNeeded, isDtNeeded, Request.dlopen, h.symm]

section
variable {p : SoinfoId}

section
variable (h : Expanding q s st new pending)
include h

variable (ho : Outcome sys flags st.linker u (some found))
include ho

theorem Expanding.childOf {a b}
    (hab : ChildOf st.linker a b) : ChildOf (u.addChild p found.si) a b := by
  have ha : a ∈ st.linker.solist := (h.grown.wf.live a b hab).1
  simp only [ChildOf, addChild_soinfo, ho.soinfo_eq a ha]
  exact mem_append_left _ hab

theorem Expanding.later_parented (het : Extends found new new') :
    ∀ x ∈ new', st.soinfos.head? = some x ∨ ((u.addChild p found.si).soinfo x).parents ≠ [] := by
  intro x hx
  simp only [addChild_soinfo]
  by_cases hxs : x = found.si
  · exact .inr (by simp [hxs])
  have hxn : x ∈ new := (het.mem x hx).resolve_right hxs
  have hl : x ∈ st.linker.solist := by
    rw [h.grown.solist]
    exact mem_append_right _ hxn
  refine (h.parented x hxn).imp id ?_
  intro hp
  rw [ho.soinfo_eq x hl]
  simp [hp]

theorem Expanding.later_reached (het : Extends found new new')
    (hp : p ∈ new) : ∀ x ∈ new', ∃ f, st.soinfos.head? = some f ∧
      Relation.ReflTransGen (ChildOf (u.addChild p found.si)) f x := by
  intro x hx
  have hm : ∀ a b, ChildOf st.linker a b → ChildOf (u.addChild p found.si) a b :=
    fun _ _ => h.childOf ho
  rcases het.mem x hx with hx | rfl
  · obtain ⟨f, hf, hpt⟩ := h.reached x hx
    exact ⟨f, hf, Relation.ReflTransGen.mono hm _ _ hpt⟩
  obtain ⟨f, hf, hpt⟩ := h.reached p hp
  refine ⟨f, hf, (Relation.ReflTransGen.mono hm _ _ hpt).tail ?_⟩
  simp [ChildOf, addChild_soinfo]

end

end

theorem Expanding.start (wf : Wf s) (q) :
    Expanding q s ⟨s, [], [], [], [], []⟩ [] (initialTasks q) := by
  refine ⟨grown_start wf, ?_, ?_, ?_, rfl, rfl, rfl, ?_, ?_, ?_, ?_, fun _ => ⟨rfl, rfl⟩, ?_⟩ <;>
    simp

variable (hq : q = .dlopen ns caller name flags extinfo)
  (hca : ∀ c, caller = some c → c ∈ s.solist)
include hq hca

theorem Expanding.first_step (h : Expanding q s st new (task :: rest)) (hn : st.tasks = [])
    (ho : Outcome sys flags st.linker u (some found)) :
    ∃ new', Expanding q s (recordTask q st u (prepareTask q task) found) new'
      (rest ++ found.tasks) := by
  subst hq
  obtain ⟨rfl, hpd⟩ := h.first hn
  obtain ⟨rfl, rfl⟩ : task = ⟨name, caller, ns, none, false⟩ ∧ rest = [] := by
    simpa [initialTasks, Request.dlopen] using hpd
  have hgw := h.grown
  rw [hn] at hgw
  obtain ⟨new', hg, hm, het⟩ := Outcome.grown hgw (by simp) ho
  have hot : ∀ p ∈ new', caller ≠ some p := fun p hp hc => hg.disjoint hp (hca p hc)
  have hs : st.soinfos = [] := by rw [h.soinfos, hn]; rfl
  have hr : st.readers = [] := h.readers
  have hpe := h.ldPreloads
  refine ⟨new', ?_⟩
  rw [recordTask_dlopen]
  simp only [prepareTask, linkNeeded_caller, hn, hs, hr, hpe]
  have hrc : Grown flags s u [((prepareTask (.dlopen ns caller name flags extinfo)
      ⟨name, caller, ns, none, false⟩), found.si)] new' := hg.record hot
  have hin : ∀ x ∈ new', x = found.si := fun x hx =>
    (het.mem x hx).resolve_left not_mem_nil
  refine ⟨hrc, ?_, ?_, ?_, ?_, het.readers, rfl, ?_, ?_, ?_, ?_, ?_, ?_⟩
  · simpa using hm
  · intro k hk
    rw [mem_singleton.mp hk]
    exact .inl rfl
  · intro k hk; cases hk
  · simp
  · intro x hx
    exact ⟨_, mem_singleton.mpr rfl, (hin x hx).symm⟩
  · intro x hx
    exact .inl (by simp [hin x hx])
  · intro x hx
    exact ⟨found.si, by simp, hin x hx ▸ .refl⟩
  · intro x hx hxn
    rcases het with ⟨-, rfl, -⟩ | ⟨-, rfl, -⟩
    · rfl
    · exact absurd (by simpa [eq_comm] using hx) hxn
  · intro hcs; cases hcs
  · intro _ k hk
    exact het.needed k (by simpa using hk)

theorem Expanding.needed_live (h : Expanding q s st new pending) :
    ∀ k ∈ st.tasks, ∀ c, k.1.neededBy = some c → c ∈ st.linker.solist := by
  subst hq
  intro k hk c hc
  rw [h.grown.solist]
  rcases h.needed k hk with hcl | ⟨d, hd, hkd⟩
  · exact mem_append_left _ (hca c (hcl.symm.trans hc))
  · rw [hc] at hkd
    exact mem_append_right _ (Option.some.inj hkd ▸ hd)

theorem Expanding.later_step {st} (h : Expanding q s st new (task :: rest))
    (hcs : st.tasks ≠ []) (ho : Outcome sys flags st.linker u (some found)) :
    ∃ new', Expanding q s (recordTask q st u (prepareTask q task) found) new'
      (rest ++ found.tasks) := by
  subst hq
  obtain ⟨p, hp, hn⟩ := h.rest hcs task mem_cons_self
  obtain ⟨new', hg, hm, het⟩ := Outcome.grown h.grown (h.needed_live rfl hca) ho
  have hpc : caller ≠ some p := fun hc => h.grown.disjoint hp (hca p hc)
  obtain ⟨k0, ks, hks⟩ := exists_cons_of_ne_nil hcs
  have hs : st.soinfos = [k0.2] := by rw [h.soinfos, hks]; rfl
  have hkp : (if st.soinfos.length < 1 then st.soinfos ++ [found.si] else st.soinfos) =
      st.soinfos := by simp [hs]
  have hl : Grown flags s (u.addChild p found.si)
      (st.tasks ++ [(prepareTask (.dlopen ns caller name flags extinfo) task, found.si)]) new' :=
    hg.link (het.mono p hp) hn hm
  have hn' : (prepareTask (.dlopen ns caller name flags extinfo) task).neededBy = some p :=
    hn
  refine ⟨new', ?_⟩
  rw [recordTask_dlopen, hn', linkNeeded_new hpc, hkp, h.readers, het.readers]
  refine ⟨hl, ?_, ?_, ?_, ?_, rfl, h.ldPreloads, ?_, h.later_parented ho het,
    h.later_reached ho het hp, ?_, ?_, ?_⟩
  · intro k hk
    rcases mem_append.mp hk with hk | hk
    · have hkl := h.live k hk
      rw [h.grown.solist] at hkl
      rw [hl.solist]
      rcases mem_append.mp hkl with hkl | hkl
      · exact mem_append_left _ hkl
      · exact mem_append_right _ (het.mono _ hkl)
    · rw [mem_singleton.mp hk]
      exact hm
  · intro k hk
    rcases mem_append.mp hk with hk | hk
    · exact (h.needed k hk).imp id fun ⟨c, hc, hkc⟩ => ⟨c, het.mono c hc, hkc⟩
    · rw [mem_singleton.mp hk]
      exact .inr ⟨p, het.mono p hp, hn⟩
  · intro k hk
    simp only [hks, cons_append, drop_succ_cons, drop_zero] at hk
    rcases mem_append.mp hk with hk | hk
    · obtain ⟨c, hc, hkc⟩ := h.later k (by rw [hks]; exact hk)
      exact ⟨c, het.mono c hc, hkc⟩
    · rw [mem_singleton.mp hk]
      exact ⟨p, het.mono p hp, hn⟩
  · simp [hs, hks]
  · intro x hx
    rcases het.mem x hx with hx | rfl
    · obtain ⟨k, hk, hkx⟩ := h.resolved x hx
      exact ⟨k, mem_append_left _ hk, hkx⟩
    · exact ⟨_, mem_append_right _ (mem_singleton.mpr rfl), rfl⟩
  · intro x hx hxn
    have hno := h.reused x hx fun hxm => hxn (het.mono x hxm)
    rw [hno] at hp
    cases hp
  · intro hnl; simp at hnl
  · intro _ k hk
    rcases mem_append.mp hk with hk | hk
    · obtain ⟨c, hc, hkc⟩ := h.rest hcs k (mem_cons_of_mem _ hk)
      exact ⟨c, het.mono c hc, hkc⟩
    · exact het.needed k hk

theorem expandTasks_spec (hfr : sys.FreshBlocks) {fuel st st'} (h : Expanding q s st new pending)
    (hep : expandTasks sys q fuel st pending = some (st', ok)) :
    ∃ new' pending', Expanding q s st' new' pending' ∧ (ok ↔ pending' = []) := by
  subst hq
  induction fuel generalizing st new pending with
  | zero =>
    cases pending with
    | nil =>
      cases hep
      exact ⟨new, [], h, by simp⟩
    | cons task rest => cases hep
  | succ fuel ih =>
    cases pending with
    | nil =>
      cases hep
      exact ⟨new, [], h, by simp⟩
    | cons task rest =>
      rw [expandTasks] at hep
      split at hep
      · cases hep
      · rename_i u hfd
        cases hep
        obtain ⟨wf, hs⟩ := (findLibraryInternal_outcome hfr h.grown.wf hfd).failed_spec
        refine ⟨new, task :: rest, ⟨h.grown.same wf hs, ?_, h.needed, h.later,
          h.soinfos, h.readers, h.ldPreloads, h.resolved, ?_, ?_,
          h.reused, h.first, h.rest⟩, by simp⟩
        · intro k hk
          exact hs.solist ▸ h.live k hk
        · intro x hx
          have hx' : x ∈ st.linker.solist := by
            rw [h.grown.solist]; exact mem_append_right _ hx
          simpa only [hs.soinfo x hx'] using h.parented x hx
        · intro x hx
          obtain ⟨f, hf, hp⟩ := h.reached x hx
          refine ⟨f, hf, Relation.ReflTransGen.mono (fun a b ha => ?_) _ _ hp⟩
          simpa only [ChildOf, hs.soinfo a (h.grown.wf.live a b ha).1] using ha
      · rename_i u found hfd
        have ho := findLibraryInternal_outcome hfr h.grown.wf hfd
        by_cases hn : st.tasks = []
        · obtain ⟨new', h'⟩ := h.first_step rfl hca hn ho
          exact ih h' hep
        · obtain ⟨new', h'⟩ := h.later_step rfl hca hn ho
          exact ih h' hep

end

def pendingLinks (s : Linker) (gone : List SoinfoId) : ℕ :=
  ((s.solist.filter fun x => x ∉ gone).map fun x => (s.soinfo x).children.length).sum

theorem sum_filter_append_le (f : SoinfoId → ℕ) (gone l : List SoinfoId) (si : SoinfoId)
    (hs : si ∉ gone) :
    ((l.filter fun x => x ∉ gone ++ [si]).map f).sum + (if si ∈ l then f si else 0) ≤
      ((l.filter fun x => x ∉ gone).map f).sum := by
  induction l with
  | nil => simp
  | cons a l ih =>
    by_cases ha : a = si
    · subst ha
      rw [filter_cons_of_neg (by simp), filter_cons_of_pos (by simpa using hs),
        map_cons, sum_cons, if_pos mem_cons_self]
      omega
    have hm : (si ∈ a :: l) = (si ∈ l) := by simp [Ne.symm ha]
    simp only [hm]
    by_cases hg : a ∈ gone
    · rw [filter_cons_of_neg (by simp [hg]), filter_cons_of_neg (by simp [hg])]
      exact ih
    rw [filter_cons_of_pos (by simp [hg, ha]), filter_cons_of_pos (by simp [hg]),
      map_cons, map_cons, sum_cons, sum_cons]
    omega

theorem pendingLinks_take (wf : Wf s) {gone si} (hs : si ∉ gone) :
    pendingLinks s (gone ++ [si]) + (s.soinfo si).children.length ≤ pendingLinks s gone := by
  have h := sum_filter_append_le (fun x => (s.soinfo x).children.length) gone s.solist si hs
  by_cases hl : si ∈ s.solist
  · rw [if_pos hl] at h
    exact h
  have hn : (s.soinfo si).children = [] := by
    refine List.eq_nil_iff_forall_not_mem.mpr fun y hy => hl (wf.live si y hy).1
  rw [if_neg hl] at h
  rw [hn]
  exact h

/-- What step 6 visits from a root and lets into the local group. -/
inductive Walked (s : Linker) (ns : NamespaceId) (root : SoinfoId) : SoinfoId → Prop where
  | root : s.isAccessible ns root → Walked s ns root root
  | child {p c} : Walked s ns root p → c ∈ (s.soinfo p).children → s.isAccessible ns c →
      Walked s ns root c

theorem Walked.trans {ns root x y}
    (h : Walked s ns root x) (k : Walked s ns x y) : Walked s ns root y := by
  induction k with
  | root _ => exact h
  | child _ hc ha ih => exact .child ih hc ha

structure WalkInv (s : Linker) (ns : NamespaceId) (root : SoinfoId)
    (visit visited group : List SoinfoId) : Prop where
  members : ∀ x, x ∈ group ↔ x ∈ visited ∧ s.isAccessible ns x
  sound : ∀ x, x ∈ visit ∨ x ∈ visited → s.isAccessible ns x → Walked s ns root x
  complete : ∀ p ∈ group, ∀ c ∈ (s.soinfo p).children, c ∈ visit ∨ c ∈ visited
  rooted : root ∈ visit ∨ root ∈ visited
  start : visited = [] → visit = [root]
  first : s.isAccessible ns root → visited ≠ [] → group.head? = some root

theorem walkInv_start (s) (ns : NamespaceId) (root : SoinfoId) :
    WalkInv s ns root [root] [] [] := by
  refine ⟨by simp, fun x hx ha => ?_, by simp, by simp, fun _ => rfl, fun _ h => absurd rfl h⟩
  rcases hx with hx | hx
  · rw [mem_singleton.mp hx] at ha ⊢
    exact .root ha
  · cases hx

variable {si : SoinfoId} {group : List SoinfoId}

section
variable {root : SoinfoId} {rest visited : List SoinfoId}

theorem mem_moved (x) (hx : x ∈ si :: rest ∨ x ∈ visited) : x ∈ rest ∨ x ∈ visited ++ [si] := by
  rcases hx with hx | hx
  · rcases mem_cons.mp hx with rfl | hx
    · exact .inr (by simp)
    · exact .inl hx
  · exact .inr (mem_append_left _ hx)

section
variable (h : WalkInv s ns root (si :: rest) visited group)
include h

theorem WalkInv.skip (hs : si ∈ visited) : WalkInv s ns root rest visited group := by
  have hd : ∀ x, x ∈ si :: rest ∨ x ∈ visited → x ∈ rest ∨ x ∈ visited := by
    intro x hx
    rcases hx with hx | hx
    · rcases mem_cons.mp hx with rfl | hx
      · exact .inr hs
      · exact .inl hx
    · exact .inr hx
  refine ⟨h.members, fun x hx => h.sound x (hx.imp (mem_cons_of_mem _) id),
    fun p hp c hc => hd c (h.complete p hp c hc), hd root h.rooted, fun hv => ?_, h.first⟩
  rw [hv] at hs
  cases hs

theorem WalkInv.leave
    (hac : ¬ s.isAccessible ns si) : WalkInv s ns root rest (visited ++ [si]) group := by
  refine ⟨?_, ?_, fun p hp c hc => mem_moved c (h.complete p hp c hc),
    mem_moved root h.rooted, fun hv => absurd hv (by simp), ?_⟩
  · intro x
    rw [h.members x, mem_append, mem_singleton]
    constructor
    · rintro ⟨hv, ha⟩
      exact ⟨.inl hv, ha⟩
    rintro ⟨hv | rfl, ha⟩
    · exact ⟨hv, ha⟩
    · exact absurd ha hac
  · intro x hx ha
    rcases hx with hx | hx
    · exact h.sound x (.inl (mem_cons_of_mem _ hx)) ha
    rcases mem_append.mp hx with hx | hx
    · exact h.sound x (.inr hx) ha
    · rw [mem_singleton.mp hx] at ha
      exact absurd ha hac
  · intro ha _
    by_cases hv : visited = []
    · rw [(List.cons.inj (h.start hv)).1] at hac
      exact absurd ha hac
    · exact h.first ha hv

theorem WalkInv.take (hac : s.isAccessible ns si) :
    WalkInv s ns root (rest ++ (s.soinfo si).children) (visited ++ [si]) (group ++ [si]) := by
  have hm := fun x (hx : x ∈ si :: rest ∨ x ∈ visited) =>
    (mem_moved x hx).imp_left (mem_append_left (s.soinfo si).children)
  have hw := h.sound si (.inl mem_cons_self) hac
  refine ⟨?_, ?_, ?_, hm root h.rooted, fun hv => absurd hv (by simp), ?_⟩
  · intro x
    rw [mem_append, mem_append, mem_singleton, h.members x]
    constructor
    · rintro (⟨hv, ha⟩ | rfl)
      · exact ⟨.inl hv, ha⟩
      · exact ⟨.inr rfl, hac⟩
    · rintro ⟨hv | rfl, ha⟩
      · exact .inl ⟨hv, ha⟩
      · exact .inr rfl
  · intro x hx ha
    rcases hx with hx | hx
    · rcases mem_append.mp hx with hx | hx
      · exact h.sound x (.inl (mem_cons_of_mem _ hx)) ha
      · exact .child hw hx ha
    rcases mem_append.mp hx with hx | hx
    · exact h.sound x (.inr hx) ha
    · rw [mem_singleton.mp hx]
      exact hw
  · intro p hp c hc
    rcases mem_append.mp hp with hp | hp
    · exact hm c (h.complete p hp c hc)
    · rw [mem_singleton.mp hp] at hc
      exact .inl (mem_append_right _ hc)
  · intro ha _
    by_cases hv : visited = []
    · have hg : group = [] := by
        apply List.eq_nil_iff_forall_not_mem.mpr
        intro x hx
        have hxv := ((h.members x).mp hx).1
        rw [hv] at hxv
        cases hxv
      rw [hg, (List.cons.inj (h.start hv)).1]
      rfl
    · rw [head?_append, h.first ha hv]
      rfl

end

end

variable {root : SoinfoId}

theorem walkDependenciesTree_run (wf : Wf s) (fuel) {visit visited}
    (h : WalkInv s ns root visit visited group)
    (hf : visit.length + pendingLinks s visited ≤ fuel) :
    ∃ result visited', walkDependenciesTree s ns fuel visit visited group = some result ∧
      WalkInv s ns root [] visited' result := by
  induction fuel generalizing visit visited group with
  | zero =>
    have hn : visit = [] := List.length_eq_zero_iff.mp (by omega)
    subst hn
    exact ⟨group, visited, rfl, h⟩
  | succ fuel ih =>
    cases visit with
    | nil => exact ⟨group, visited, rfl, h⟩
    | cons si rest =>
      rw [length_cons] at hf
      rw [walkDependenciesTree]
      by_cases hs : si ∈ visited
      · rw [if_pos (by simpa using hs)]
        exact ih (h.skip hs) (by omega)
      rw [if_neg (by simpa using hs)]
      have hp := pendingLinks_take wf hs
      by_cases ha : s.isAccessible ns si
      · rw [if_pos ha]
        exact ih (h.take ha) (by rw [length_append]; omega)
      · rw [if_neg ha]
        exact ih (h.leave ha) (by omega)

theorem isAccessible_primary (s : Linker) (x : SoinfoId) :
    s.isAccessible (s.soinfo x).primaryNamespace x := by
  simp [Linker.isAccessible]

theorem localGroup_spec (wf : Wf s) (root : SoinfoId) :
    ∃ group, localGroup s root = some group ∧ group.head? = some root ∧
      ∀ x, x ∈ group ↔ Walked s (s.soinfo root).primaryNamespace root x := by
  have hf : [root].length + pendingLinks s [] ≤ walkFuel s := by
    simp [pendingLinks, walkFuel]
  obtain ⟨group, visited, hw, hiv⟩ := walkDependenciesTree_run wf (walkFuel s)
    (walkInv_start s (s.soinfo root).primaryNamespace root) hf
  have hr : root ∈ visited := hiv.rooted.resolve_left (by simp)
  have hac := isAccessible_primary s root
  refine ⟨group, hw, hiv.first hac (ne_nil_of_mem hr), fun x => ⟨?_, ?_⟩⟩
  · intro hx
    obtain ⟨hv, ha⟩ := (hiv.members x).mp hx
    exact hiv.sound x (.inr hv) ha
  intro hx
  induction hx with
  | root ha => exact (hiv.members root).mpr ⟨hr, ha⟩
  | child _ hc ha ih =>
    exact (hiv.members _).mpr ⟨(hiv.complete _ ih _ hc).resolve_left (by simp), ha⟩

theorem Walked.live (wf : Wf s) (hr : root ∈ s.solist) (h : Walked s ns root x) : x ∈ s.solist := by
  induction h with
  | root _ => exact hr
  | child _ hc _ _ => exact (wf.live _ _ hc).2

theorem localGroup_live (wf : Wf s) (hr : root ∈ s.solist) (h : localGroup s root = some group) :
    ∀ x ∈ group, x ∈ s.solist := by
  obtain ⟨group', hg, -, hm⟩ := localGroup_spec wf root
  cases hg.symm.trans h
  exact fun x hx => ((hm x).mp hx).live wf hr

theorem foldl_addRoot_mem {roots} (h : x ∈ tasks.foldl (addRoot s q) roots) :
    x ∈ roots ∨ (∃ k ∈ tasks, k.2 = x) ∧ (s.soinfo x).linked = false := by
  induction tasks generalizing roots with
  | nil => exact .inl h
  | cons k tasks ih =>
    rcases ih h with hx | ⟨⟨k', hk', hx⟩, hl⟩
    · unfold addRoot at hx
      split at hx
      · rename_i ha
        rcases mem_append.mp hx with hx | hx
        · exact .inl hx
        obtain rfl := mem_singleton.mp hx
        simp only [and_eq_true, not_eq_true'] at ha
        exact .inr ⟨⟨k, mem_cons_self, rfl⟩, ha.1.1⟩
      · exact .inl hx
    · exact .inr ⟨⟨k', mem_cons_of_mem _ hk', hx⟩, hl⟩

theorem localGroupRoots_mem {first} (h : x ∈ localGroupRoots s q first tasks) :
    x = first ∨ (∃ k ∈ tasks, k.2 = x) ∧ (s.soinfo x).linked = false :=
  (foldl_addRoot_mem h).imp mem_singleton.mp id

section
variable {l : List SoinfoId}

theorem prelinkLibraries_linked (hl : ∀ x ∈ l, (s.soinfo x).linked) :
    prelinkLibraries sys s l = (s, true) := by
  induction l with
  | nil => rfl
  | cons si rest ih =>
    rw [prelinkLibraries, hl si mem_cons_self]
    simpa using ih fun x hx => hl x (mem_cons_of_mem _ hx)

theorem linkGroup_linked {ns root}
    (hl : ∀ x ∈ l, (s.soinfo x).linked) : linkGroup sys ns root s l = (s, true) := by
  induction l with
  | nil => rfl
  | cons si rest ih =>
    rw [linkGroup, hl si mem_cons_self]
    simpa using ih fun x hx => hl x (mem_cons_of_mem _ hx)

theorem linkGroups_linked (wf : Wf s) (hal : ∀ x ∈ s.solist, (s.soinfo x).linked)
    {roots} (hr : ∀ x ∈ roots, x ∈ s.solist) {t}
    (h : linkGroups sys s roots = some (t, ok)) : ok := by
  induction roots with
  | nil => cases h; rfl
  | cons root rest ih =>
    rw [linkGroups] at h
    split at h
    · cases h
    rename_i group hg
    have hl := localGroup_live wf (hr root mem_cons_self) hg
    rw [linkGroup_linked fun x hx => hal x (hl x hx)] at h
    exact ih (fun x hx => hr x (mem_cons_of_mem _ hx)) h

theorem loadLibraries_failed {readers l}
    (h : loadLibraries sys s readers l = some false) : readers ≠ [] := by
  induction l with
  | nil => cases h
  | cons si rest ih =>
    rw [loadLibraries] at h
    split at h
    · cases h
    rename_i hm
    rintro rfl
    exact hm rfl

end

/-- What is left of `Grown` while the new libraries are prelinked and relocated. Only the requested
library may be without parents. -/
structure Leftover (s t : Linker) (new : List SoinfoId) (first : Option SoinfoId) : Prop where
  wf : Wf t
  solist : t.solist = s.solist ++ new
  unloaded : t.unloaded = s.unloaded
  namespaces : ∀ n, t.namespaces n =
    { s.namespaces n with
      soinfoList := (s.namespaces n).soinfoList ++
        new.filter fun x => (t.soinfo x).primaryNamespace = n }
  old : ∀ x ∈ s.solist, ∃ ps, (∀ p ∈ ps, p ∈ new) ∧
    t.soinfo x = { s.soinfo x with parents := (s.soinfo x).parents ++ ps }
  linked : ∀ x ∈ new, (t.soinfo x).linked = false
  parents : ∀ x ∈ new, ∀ p ∈ (t.soinfo x).parents, p ∈ new
  parented : ∀ x ∈ new, first = some x ∨ (t.soinfo x).parents ≠ []

theorem Expanding.leftover {q st new pending} (h : Expanding q s st new pending) :
    Leftover s st.linker new st.soinfos.head? :=
  ⟨h.grown.wf, h.grown.solist, h.grown.unloaded, h.grown.namespaces, h.grown.old,
    fun x hx => (h.grown.unlinked x hx).linked, h.grown.parents, h.parented⟩

section
variable {first : Option SoinfoId}

section
variable (h : Leftover s t new first)
include h

theorem Leftover.disjoint (hx : x ∈ new) : x ∉ s.solist := by
  have hn := h.wf.nodup
  rw [h.solist] at hn
  exact fun hs => (List.nodup_append.mp hn).2.2 x hs x hx rfl

theorem Leftover.old_linked (hx : x ∈ s.solist) : (t.soinfo x).linked = (s.soinfo x).linked := by
  obtain ⟨ps, -, heq⟩ := h.old x hx
  rw [heq]

theorem Leftover.new_of_unlinked (hal : ∀ x ∈ s.solist, (s.soinfo x).linked) (hx : x ∈ t.solist)
    (hl : (t.soinfo x).linked = false) : x ∈ new := by
  rw [h.solist] at hx
  rcases mem_append.mp hx with hx | hx
  · rw [h.old_linked hx, hal x hx] at hl
    cases hl
  · exact hx

theorem Leftover.modify {a f}
    (ha : a ∈ new) (hf : KeepsLinks f) (hl : ∀ x, (f x).linked = x.linked) :
    Leftover s (t.modify a f) new first := by
  refine ⟨hf.wf h.wf a, h.solist, h.unloaded, ?_, ?_, ?_, ?_, ?_⟩
  · intro n
    have hft : (new.filter fun x => ((t.modify a f).soinfo x).primaryNamespace = n) =
        new.filter fun x => (t.soinfo x).primaryNamespace = n :=
      filter_congr fun x _ => by rw [modify_keeps t Soinfo.primaryNamespace hf.primary]
    rw [hft]
    exact h.namespaces n
  · intro x hx
    have hn : x ≠ a := fun hxa => h.disjoint ha (hxa ▸ hx)
    rw [modify_soinfo_of_ne _ _ _ _ hn]
    exact h.old x hx
  · intro x hx
    rw [modify_keeps t Soinfo.linked hl]
    exact h.linked x hx
  · intro x hx
    rw [modify_keeps t Soinfo.parents hf.parents]
    exact h.parents x hx
  · intro x hx
    rw [modify_keeps t Soinfo.parents hf.parents]
    exact h.parented x hx

end

theorem prelinkImage_keepsLinks (sys dynamic) : KeepsLinks (Soinfo.prelinkImage sys dynamic) := by
  have hk := readDynEntries_keepsLinks sys dynamic
  exact ⟨hk.children, hk.parents, hk.primary, hk.secondary⟩

theorem prelinkImage_linked (sys dynamic x) :
    (Soinfo.prelinkImage sys dynamic x).linked = x.linked := by
  obtain ⟨_, _, _, _, _, heq, -, -⟩ := readDynEntries_spec sys dynamic x
  simp [Soinfo.prelinkImage, heq]

variable {root : Option SoinfoId}

theorem Leftover.linkImage {si} (h : Leftover s t new first) (hs : si ∈ new) :
    Leftover s (linkImage sys t si root).1 new first := by
  unfold LinkerLoad.linkImage
  split
  · exact h
  have hr := h.modify hs (setLocalGroupRoot_keepsLinks (root.getD si)) fun _ => rfl
  dsimp only
  split
  · exact hr.modify hs setImageLinked_keepsLinks fun _ => rfl
  · exact hr

variable (hal : ∀ x ∈ s.solist, (s.soinfo x).linked)
include hal

variable (h : Leftover s t new first)
include h

theorem Leftover.prelink {l} (hl : ∀ x ∈ l, x ∈ t.solist) :
    Leftover s (prelinkLibraries sys t l).1 new first := by
  induction l generalizing t with
  | nil => exact h
  | cons si rest ih =>
    rw [prelinkLibraries]
    split
    · exact ih h fun x hx => hl x (mem_cons_of_mem _ hx)
    rename_i hs
    split
    · exact h
    rename_i dynamic _
    have hn : si ∈ new := by
      apply h.new_of_unlinked hal (hl si mem_cons_self)
      cases hld : (t.soinfo si).linked
      · rfl
      · exact absurd (by simp [hld]) hs
    refine ih (h.modify hn (prelinkImage_keepsLinks sys dynamic)
      (prelinkImage_linked sys dynamic)) ?_
    intro x hx
    exact hl x (mem_cons_of_mem _ hx)

theorem Leftover.linkGroup {ns group} (hg : ∀ x ∈ group, x ∈ t.solist) :
    Leftover s (linkGroup sys ns root t group).1 new first := by
  induction group generalizing t with
  | nil => exact h
  | cons si rest ih =>
    rw [LinkerLoad.linkGroup]
    split
    · rename_i ht
      have hn : si ∈ new := by
        apply h.new_of_unlinked hal (hg si mem_cons_self)
        simp only [and_eq_true, not_eq_true'] at ht
        exact ht.1
      have hoe : Leftover s (LinkerLoad.linkImage sys t si root).1 new first :=
        h.linkImage hn
      split <;> rename_i s₁ hl
      · rw [hl] at hoe
        exact hoe
      · rw [hl] at hoe
        split
        · apply ih hoe
          intro x hx
          rw [hoe.solist, ← h.solist]
          exact hg x (mem_cons_of_mem _ hx)
        · exact hoe
    · exact ih h fun x hx => hg x (mem_cons_of_mem _ hx)

theorem Leftover.linkGroups {roots u} (hr : ∀ x ∈ roots, x ∈ t.solist)
    (hl : linkGroups sys t roots = some (u, ok)) : Leftover s u new first := by
  induction roots generalizing t with
  | nil => cases hl; exact h
  | cons root rest ih =>
    rw [LinkerLoad.linkGroups] at hl
    split at hl
    · cases hl
    rename_i group hg
    have hoe : Leftover s (LinkerLoad.linkGroup sys (t.soinfo root).primaryNamespace group.head?
        t group).1 new first :=
      h.linkGroup hal (localGroup_live h.wf (hr root mem_cons_self) hg)
    split at hl <;> rename_i s₁ heq
    · rw [heq] at hoe
      cases hl
      exact hoe
    · rw [heq] at hoe
      refine ih hoe (fun x hx => ?_) hl
      rw [hoe.solist, ← h.solist]
      exact hr x (mem_cons_of_mem _ hx)

end

variable {s₁ : Linker} {roots sis : List SoinfoId} {fuel : ℕ}

/-- A `dlopen` can end while libraries are created, mapped, prelinked or linked, or with all of them
linked. -/
inductive Ended (sys : System) (fuel : ℕ) (s : Linker) (q : Request) :
    Linker → Bool → List SoinfoId → Prop
  | expand {st : Expansion}
      (expanded : expandTasks sys q fuel ⟨s, [], [], [], [], []⟩ (initialTasks q) =
        some (st, false)) : Ended sys fuel s q st.linker false st.soinfos
  | load {st : Expansion}
      (expanded : expandTasks sys q fuel ⟨s, [], [], [], [], []⟩ (initialTasks q) = some (st, true))
      (failed : loadLibraries sys st.linker st.readers
        (sys.shuffle (loadList st.linker (st.tasks.map snd))) = some false) :
      Ended sys fuel s q st.linker false st.soinfos
  | prelink {st : Expansion} {s₁ : Linker}
      (expanded : expandTasks sys q fuel ⟨s, [], [], [], [], []⟩ (initialTasks q) = some (st, true))
      (failed : prelinkLibraries sys st.linker (st.tasks.map snd) = (s₁, false)) :
      Ended sys fuel s q s₁ false st.soinfos
  | link {st : Expansion} {s₁ s₂ : Linker} {first : SoinfoId}
      (expanded : expandTasks sys q fuel ⟨s, [], [], [], [], []⟩ (initialTasks q) = some (st, true))
      (prelinked : prelinkLibraries sys st.linker (st.tasks.map snd) = (s₁, true))
      (asked : st.soinfos.head? = some first)
      (failed : linkGroups sys (markLdPreloads s₁ st.ldPreloads)
        (localGroupRoots (markLdPreloads s₁ st.ldPreloads) q first st.tasks) = some (s₂, false)) :
      Ended sys fuel s q s₂ false st.soinfos
  | finish {st : Expansion} {s₁ s₂ t : Linker} {first : SoinfoId}
      (expanded : expandTasks sys q fuel ⟨s, [], [], [], [], []⟩ (initialTasks q) = some (st, true))
      (prelinked : prelinkLibraries sys st.linker (st.tasks.map snd) = (s₁, true))
      (asked : st.soinfos.head? = some first)
      (linked : linkGroups sys (markLdPreloads s₁ st.ldPreloads)
        (localGroupRoots (markLdPreloads s₁ st.ldPreloads) q first st.tasks) = some (s₂, true))
      (finished : finishLinking q s₂ st.tasks = some t) :
      Ended sys fuel s q t true st.soinfos

theorem findLibraries_ended
    (h : findLibraries sys fuel s (.dlopen ns caller name flags extinfo) = some (t, ok, sis)) :
    Ended sys fuel s (.dlopen ns caller name flags extinfo) t ok sis := by
  unfold findLibraries at h
  split at h
  · cases h
  · rename_i st hep
    cases h
    exact .expand hep
  rename_i st hep
  dsimp only at h
  split at h
  · cases h
  · rename_i hld
    cases h
    exact .load hep hld
  split at h <;> rename_i s₁ hp
  · cases h
    exact .prelink hep hp
  · split at h
    · cases h
    · rename_i first hf
      split at h
      · cases h
      · rename_i s₂ hl
        cases h
        exact .link hep hp hf hl
      rename_i s₂ hl
      obtain ⟨u, hfn, heq⟩ := Option.map_eq_some_iff.mp h
      cases heq
      exact .finish hep hp hf hl hfn

section
variable (h : Expanding q s st new pending)
include h

theorem Expanding.head_eq_none (hno : st.soinfos.head? = none) : st.tasks = [] := by
  have hn := head?_eq_none_iff.mp hno
  rw [h.soinfos, map_eq_nil_iff] at hn
  cases ht : st.tasks with
  | nil => rfl
  | cons k ks => rw [ht] at hn; cases hn

theorem Expanding.first_new (hn : new ≠ []) (hs : st.soinfos.head? = some si) : si ∈ new := by
  by_contra hot
  exact hn (h.reused si hs hot)

theorem Expanding.first_live (hs : st.soinfos.head? = some si) : si ∈ st.linker.solist := by
  rw [h.soinfos] at hs
  cases ht : st.tasks with
  | nil => rw [ht] at hs; cases hs
  | cons k ks =>
    rw [ht] at hs
    cases hs
    exact h.live k (by rw [ht]; exact mem_cons_self)

theorem Expanding.tasks_live : ∀ x ∈ st.tasks.map snd, x ∈ st.linker.solist := by
  intro x hx
  obtain ⟨k, hk, rfl⟩ := List.mem_map.mp hx
  exact h.live k hk

theorem Expanding.markLdPreloads (t) : LinkerLoad.markLdPreloads t st.ldPreloads = t := by
  rw [h.ldPreloads]
  rfl

end

theorem Expanding.all_linked (h : Expanding q s st [] pending)
    (hal : ∀ x ∈ s.solist, (s.soinfo x).linked) :
    ∀ x ∈ st.linker.solist, (st.linker.soinfo x).linked := by
  intro x hx
  cases hx' : (st.linker.soinfo x).linked with
  | true => rfl
  | false => cases h.leftover.new_of_unlinked hal hx hx'

section
variable {s₂ : Linker} (h : Expanding q s st new pending)
  (hal : ∀ x ∈ s.solist, (s.soinfo x).linked)
include h hal

theorem Expanding.leftover_prelink
    (hp : prelinkLibraries sys st.linker (st.tasks.map snd) = (s₁, ok)) :
    Leftover s s₁ new st.soinfos.head? := by
  have hl : Leftover s (prelinkLibraries sys st.linker (st.tasks.map snd)).1 new
      st.soinfos.head? := h.leftover.prelink hal h.tasks_live
  rw [hp] at hl
  exact hl

theorem Expanding.new_of_prelink_failed
    (hp : prelinkLibraries sys st.linker (st.tasks.map snd) = (s₁, false)) : new ≠ [] := by
  rintro rfl
  rw [prelinkLibraries_linked fun x hx => h.all_linked hal x (h.tasks_live x hx)] at hp
  cases hp

theorem Expanding.new_of_link_failed
    (hp : prelinkLibraries sys st.linker (st.tasks.map snd) = (s₁, true))
    (wf : Wf s₁) (hr : ∀ x ∈ roots, x ∈ s₁.solist)
    (hlk : linkGroups sys s₁ roots = some (s₂, false)) : new ≠ [] := by
  rintro rfl
  have hl := h.all_linked hal
  have hs : s₁ = st.linker := by
    rw [prelinkLibraries_linked fun x hx => hl x (h.tasks_live x hx)] at hp
    exact (mk.inj hp).1.symm
  cases linkGroups_linked wf (hs ▸ hl) hr hlk

end

theorem Expanding.head_ne_none (h : Expanding q s st new []) (hq : initialTasks q ≠ []) :
    st.soinfos.head? ≠ none := fun hn =>
  hq (h.first (h.head_eq_none hn)).2.symm

/-- A failed `dlopen` leaves only libraries that it created, the one that was asked for among them
unless there are none. -/
theorem findLibraries_failed (hfr : sys.FreshBlocks) (wf : Wf s)
    (hal : ∀ x ∈ s.solist, (s.soinfo x).linked) (hca : ∀ c, caller = some c → c ∈ s.solist)
    (h : findLibraries sys fuel s (.dlopen ns caller name flags extinfo) = some (t, false, sis)) :
    ∃ new, Leftover s t new sis.head? ∧ (sis.head? = none → new = []) ∧
      ∀ si, sis.head? = some si → si ∈ new := by
  have hii : initialTasks (.dlopen ns caller name flags extinfo) ≠ [] :=
    cons_ne_nil _ _
  cases findLibraries_ended h with
  | @expand st hep =>
    obtain ⟨new, pending, hex, hok⟩ := expandTasks_spec rfl hca hfr (.start wf _) hep
    obtain ⟨k, ks, hpd⟩ : ∃ k ks, pending = k :: ks :=
      exists_cons_of_ne_nil fun hnl => by simpa using hok.mpr hnl
    refine ⟨new, hex.leftover, fun hno => (hex.first (hex.head_eq_none hno)).1,
      fun si hs => hex.first_new ?_ hs⟩
    have ht : st.tasks ≠ [] := by
      intro hnl
      rw [hex.soinfos, hnl] at hs
      cases hs
    obtain ⟨p, hp, -⟩ := hex.rest ht k (by rw [hpd]; exact mem_cons_self)
    exact ne_nil_of_mem hp
  | @load st hep hld =>
    obtain ⟨new, pending, hex, hok⟩ := expandTasks_spec rfl hca hfr (.start wf _) hep
    obtain rfl := hok.mp rfl
    have hnw : new ≠ [] := by
      rw [← hex.readers]
      exact loadLibraries_failed hld
    exact ⟨new, hex.leftover, fun hn => absurd hn (hex.head_ne_none hii),
      fun si hs => hex.first_new hnw hs⟩
  | @prelink st _ hep hpe =>
    obtain ⟨new, pending, hex, hok⟩ := expandTasks_spec rfl hca hfr (.start wf _) hep
    obtain rfl := hok.mp rfl
    have hl := hex.leftover_prelink hal hpe
    exact ⟨new, hl, fun hn => absurd hn (hex.head_ne_none hii),
      fun si hs => hex.first_new (hex.new_of_prelink_failed hal hpe) hs⟩
  | @link st s₁ _ first hep hpe hf hlk =>
    obtain ⟨new, pending, hex, hok⟩ := expandTasks_spec rfl hca hfr (.start wf _) hep
    obtain rfl := hok.mp rfl
    have hl := hex.leftover_prelink hal hpe
    rw [hex.markLdPreloads] at hlk
    have hr : ∀ x ∈ localGroupRoots s₁ (.dlopen ns caller name flags extinfo) first st.tasks,
        x ∈ s₁.solist := by
      intro x hx
      rw [hl.solist, ← hex.leftover.solist]
      rcases localGroupRoots_mem hx with rfl | ⟨⟨k, hk, rfl⟩, -⟩
      · exact hex.first_live hf
      · exact hex.live k hk
    exact ⟨new, hl.linkGroups hal hr hlk, fun hn => absurd hn (hex.head_ne_none hii), fun si hs =>
        hex.first_new (hex.new_of_link_failed hal hpe hl.wf hr hlk) hs⟩

/-- Linked libraries stay, with the same flags and group root. -/
structure Frame (s t : Linker) : Prop where
  wf : Wf t
  unloaded : t.unloaded = s.unloaded
  solist : s.solist <+: t.solist
  linked : ∀ x ∈ s.solist, (s.soinfo x).linked → (t.soinfo x).linked
  flags : ∀ x ∈ s.solist, (s.soinfo x).linked → (t.soinfo x).rtldFlags = (s.soinfo x).rtldFlags
  root : ∀ x ∈ s.solist, (s.soinfo x).linked →
    (t.soinfo x).localGroupRoot = (s.soinfo x).localGroupRoot

theorem Frame.live (h : Frame s t) : ∀ x ∈ s.solist, x ∈ t.solist := fun _ => h.solist.mem

theorem Frame.refl (wf : Wf s) : Frame s s :=
  ⟨wf, rfl, prefix_rfl, fun _ _ hl => hl, fun _ _ _ => rfl, fun _ _ _ => rfl⟩

theorem Frame.trans {s t u} (h : Frame s t) (k : Frame t u) : Frame s u :=
  ⟨k.wf, k.unloaded.trans h.unloaded, h.solist.trans k.solist,
    fun x hx hl => k.linked x (h.live x hx) (h.linked x hx hl),
    fun x hx hl => (k.flags x (h.live x hx) (h.linked x hx hl)).trans (h.flags x hx hl),
    fun x hx hl => (k.root x (h.live x hx) (h.linked x hx hl)).trans (h.root x hx hl)⟩

theorem frame_modify (wf : Wf s) {a f} (hf : KeepsLinks f)
    (h : (s.soinfo a).linked → (f (s.soinfo a)).linked ∧
      (f (s.soinfo a)).rtldFlags = (s.soinfo a).rtldFlags ∧
      (f (s.soinfo a)).localGroupRoot = (s.soinfo a).localGroupRoot) : Frame s (s.modify a f) := by
  refine ⟨hf.wf wf a, rfl, prefix_rfl, fun x _ hl => ?_, fun x _ hl => ?_, fun x _ hl => ?_⟩
  all_goals by_cases hx : x = a
  · subst hx; rw [modify_soinfo_self]; exact (h hl).1
  · rw [modify_soinfo_of_ne _ _ _ _ hx]; exact hl
  · subst hx; rw [modify_soinfo_self]; exact (h hl).2.1
  · rw [modify_soinfo_of_ne _ _ _ _ hx]
  · subst hx; rw [modify_soinfo_self]; exact (h hl).2.2
  · rw [modify_soinfo_of_ne _ _ _ _ hx]

theorem Expanding.frame (h : Expanding q s st new pending) : Frame s st.linker := by
  refine ⟨h.grown.wf, h.grown.unloaded, ?_, fun x hx hl => ?_, fun x hx _ => ?_,
    fun x hx _ => ?_⟩
  · rw [h.grown.solist]; exact prefix_append _ _
  all_goals
    obtain ⟨ps, -, heq⟩ := h.grown.old x hx
    rw [heq]
  exact hl

theorem frame_prelink (sys : System) (wf : Wf s) (l : List SoinfoId) :
    Frame s (prelinkLibraries sys s l).1 := by
  induction l generalizing s with
  | nil => exact Frame.refl wf
  | cons si rest ih =>
    rw [prelinkLibraries]
    split
    · exact ih wf
    rename_i hs
    split
    · exact Frame.refl wf
    rename_i dynamic _
    have hk := prelinkImage_keepsLinks sys dynamic
    refine (frame_modify wf hk fun hl => ?_).trans (ih (hk.wf wf si))
    exact absurd (by simp [hl]) hs

theorem frame_linkImage (sys : System) (wf : Wf s)
    (hl : (s.soinfo si).linked = false) (root : Option SoinfoId) :
    Frame s (linkImage sys s si root).1 := by
  unfold linkImage
  split
  · exact Frame.refl wf
  have hk := setLocalGroupRoot_keepsLinks (root.getD si)
  have hr : Frame s (s.modify si (Soinfo.setLocalGroupRoot (root.getD si))) :=
    frame_modify wf hk fun h => by rw [hl] at h; cases h
  dsimp only
  split
  · exact hr.trans (frame_modify hr.wf setImageLinked_keepsLinks fun h => ⟨h, rfl, rfl⟩)
  · exact hr

theorem frame_linkGroup (sys : System) (ns : NamespaceId) (root : Option SoinfoId)
    (wf : Wf s) (group) : Frame s (linkGroup sys ns root s group).1 := by
  induction group generalizing s with
  | nil => exact Frame.refl wf
  | cons si rest ih =>
    rw [linkGroup]
    split
    · rename_i ht
      simp only [and_eq_true, not_eq_true'] at ht
      have hoe := frame_linkImage sys wf ht.1 root
      split <;> rename_i s₁ heq
      · rw [heq] at hoe
        exact hoe
      · rw [heq] at hoe
        split
        · exact hoe.trans (ih hoe.wf)
        · exact hoe
    · exact ih wf

theorem frame_linkGroups (wf : Wf s) (h : linkGroups sys s roots = some (t, ok)) : Frame s t := by
  induction roots generalizing s with
  | nil => cases h; exact Frame.refl wf
  | cons root rest ih =>
    rw [linkGroups] at h
    split at h
    · cases h
    rename_i group _
    have hoe := frame_linkGroup sys (s.soinfo root).primaryNamespace group.head? wf group
    split at h <;> rename_i s₁ heq
    · rw [heq] at hoe
      cases h
      exact hoe
    · rw [heq] at hoe
      exact hoe.trans (ih hoe.wf h)

theorem frame_setLinked (wf : Wf s) (l : List SoinfoId) : Frame s (setLinked s l) := by
  induction l generalizing s with
  | nil => exact Frame.refl wf
  | cons si rest ih =>
    have hoe : Frame s (s.modify si Soinfo.setLinked) :=
      frame_modify wf setLinked_keepsLinks fun _ => ⟨rfl, rfl, rfl⟩
    exact hoe.trans (ih hoe.wf)

theorem frame_incrementRefCount (wf : Wf s) (h : s.incrementRefCount si = some t) : Frame s t := by
  obtain ⟨r, -, rfl⟩ := Option.map_eq_some_iff.mp h
  exact frame_modify wf (setRefCount_keepsLinks _) fun hl => ⟨hl, rfl, rfl⟩

theorem frame_countReferences (wf : Wf s)
    {tasks} (h : countReferences q s tasks = some t) : Frame s t := by
  induction tasks generalizing s with
  | nil => cases h; exact Frame.refl wf
  | cons k rest ih =>
    rw [countReferences] at h
    split at h
    · split at h
      · cases h
      · rename_i s₁ hic
        have hoe := frame_incrementRefCount wf hic
        exact hoe.trans (ih hoe.wf h)
    · exact ih wf h

theorem Expanding.frame_prelinked (h : Expanding q s st new pending)
    (hp : prelinkLibraries sys st.linker (st.tasks.map snd) = (s₁, ok)) : Frame s s₁ := by
  have hf := frame_prelink sys h.grown.wf (st.tasks.map snd)
  rw [hp] at hf
  exact h.frame.trans hf

theorem frame_findLibraries (hfr : sys.FreshBlocks) (wf : Wf s)
    (hca : ∀ c, caller = some c → c ∈ s.solist)
    (h : findLibraries sys fuel s (.dlopen ns caller name flags extinfo) = some (t, ok, sis)) :
    Frame s t := by
  cases findLibraries_ended h with
  | expand hep | load hep hld =>
    obtain ⟨_, _, hex, -⟩ := expandTasks_spec rfl hca hfr (.start wf _) hep
    exact hex.frame
  | prelink hep hp =>
    obtain ⟨_, _, hex, -⟩ := expandTasks_spec rfl hca hfr (.start wf _) hep
    exact hex.frame_prelinked hp
  | link hep hp hft hl =>
    obtain ⟨_, _, hex, -⟩ := expandTasks_spec rfl hca hfr (.start wf _) hep
    have hf := hex.frame_prelinked hp
    rw [hex.markLdPreloads] at hl
    exact hf.trans (frame_linkGroups hf.wf hl)
  | @finish st _ _ _ _ hep hp hft hl hfn =>
    obtain ⟨_, _, hex, -⟩ := expandTasks_spec rfl hca hfr (.start wf _) hep
    have hf := hex.frame_prelinked hp
    rw [hex.markLdPreloads] at hl
    have hg := frame_linkGroups hf.wf hl
    have hs := frame_setLinked hg.wf ([] ++ st.tasks.map snd)
    exact ((hf.trans hg).trans hs).trans (frame_countReferences hs.wf hfn)

end LinkerLoad
