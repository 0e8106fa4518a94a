import Bionic.DoublyLinked

/-! Fork handlers, pthread_atfork.cpp. The list is walked in place, and a handler on the forking
thread can take the recursive mutex and change the list, in steps between its call and its return.
Other threads wait for the mutex until the fork is over. -/
namespace PthreadAtfork
open DoublyLinked Option
open List Nat Function
open Option (map_some some_ne_none)

/-- `atfork_t`; a null pointer to a handler is none. -/
structure Entry where
  next : ℕ
  prev : ℕ
  prepare : Option ℕ
  child : Option ℕ
  parent : Option ℕ
  dsoHandle : ℕ
  /-- A ghost: which registration made the entry. -/
  id : ℕ
  deriving DecidableEq

inductive Fault where
  | freed
  | unending
  deriving DecidableEq

inductive Side where
  | parent
  | child
  deriving DecidableEq

/-- In none of the walks, or in one at the entry `it`, null at the end, whose handler is running or
still to be called. -/
inductive Walk where
  | idle
  | prepare (it : ℕ) (running : Bool)
  | after (side : Side) (it : ℕ) (running : Bool)
  deriving DecidableEq

structure Visit where
  id : ℕ
  handler : Option ℕ
  deriving DecidableEq

structure State where
  heap : ℕ → Option Entry
  first : ℕ
  last : ℕ
  walk : Walk
  /-- A ghost: how many entries have been registered. -/
  registered : ℕ
  /-- A ghost: how many had been when this fork began. -/
  start : ℕ
  /-- A ghost: the visits of this fork before and after `clone`, in their order. -/
  prepared : List Visit
  ran : List Visit

def initial : State := ⟨fun _ => none, 0, 0, .idle, 0, 0, [], []⟩

def readEntry (s : State) (p : ℕ) : Except Fault Entry :=
  match s.heap p with
  | none => .error .freed
  | some e => .ok e

def writeEntry (s : State) (p : ℕ) (f : Entry → Entry) : Except Fault State :=
  match s.heap p with
  | none => .error .freed
  | some e => .ok { s with heap := update s.heap p (some (f e)) }

def pushBack (s : State) (p : ℕ) (entry : Entry) : Except Fault State := do
  let entry := { entry with next := 0, prev := s.last }
  let s := { s with heap := update s.heap p (some entry) }
  let s ← if entry.prev ≠ 0 then writeEntry s entry.prev fun e => { e with next := p } else .ok s
  .ok { s with first := if s.first = 0 then p else s.first, last := p }

/-- What `remove` stores before an entry. -/
def linkNext (s : State) (prev next : ℕ) : Except Fault State :=
  if prev ≠ 0 then writeEntry s prev fun e => { e with next := next }
  else .ok { s with first := next }

/-- What `remove` stores after an entry. -/
def linkPrev (s : State) (next prev : ℕ) : Except Fault State :=
  if next ≠ 0 then writeEntry s next fun e => { e with prev := prev }
  else .ok { s with last := prev }

def remove (s : State) (p : ℕ) : Except Fault State := do
  let entry ← readEntry s p
  let s ← linkNext s entry.prev entry.next
  let entry ← readEntry s p
  let s ← linkPrev s entry.next entry.prev
  .ok { s with heap := update s.heap p none }

/-- The loop of `remove_if` from `it` on. -/
def removeIf (predicate : Entry → Bool) : ℕ → State → ℕ → Except Fault State
  | 0, _, _ => .error .unending
  | fuel + 1, s, it =>
    if it = 0 then .ok s
    else do
      let entry ← readEntry s it
      if predicate entry then
        let s ← remove s it
        removeIf predicate fuel s entry.next
      else removeIf predicate fuel s entry.next

/-- With what `malloc` returns; 12 is `ENOMEM`. -/
def registerAtfork (s : State) (prepare parent child : Option ℕ) (dso : ℕ) (entry : Option ℕ) :
    Except Fault (State × ℕ) :=
  match entry with
  | none => .ok (s, 12)
  | some p => do
    let s ← pushBack { s with registered := s.registered + 1 } p
      ⟨0, 0, prepare, child, parent, dso, s.registered⟩
    .ok (s, 0)

/-- There are no more entries than have been registered. -/
def unregisterAtfork (s : State) (dso : ℕ) : Except Fault State :=
  removeIf (fun entry => entry.dsoHandle == dso) (s.registered + 1) s s.first

def Entry.handler (entry : Entry) : Side → Option ℕ
  | .parent => entry.parent
  | .child => entry.child

inductive Op where
  | register (prepare parent child : Option ℕ) (dso : ℕ) (entry : Option ℕ)
  | unregister (dso : ℕ)
  /-- `__bionic_atfork_run_prepare` takes the mutex. -/
  | runPrepare
  /-- The body of a walk calls the handler of the entry, if it has one. -/
  | visit
  /-- The handler returns and the walk goes on. -/
  | handlerReturn
  /-- `clone` returns, and `__bionic_atfork_run_parent` or `__bionic_atfork_run_child` starts. -/
  | clone (side : Side)
  /-- The mutex is released. -/
  | finish
  deriving DecidableEq

def visit (s : State) : Except Fault State :=
  match s.walk with
  | .prepare it false => do
    let entry ← readEntry s it
    .ok { s with
      prepared := s.prepared ++ [⟨entry.id, entry.prepare⟩]
      walk := if entry.prepare.isSome then .prepare it true else .prepare entry.prev false }
  | .after side it false => do
    let entry ← readEntry s it
    .ok { s with
      ran := s.ran ++ [⟨entry.id, entry.handler side⟩]
      walk := if (entry.handler side).isSome then .after side it true
        else .after side entry.next false }
  | _ => .ok s

def handlerReturn (s : State) : Except Fault State :=
  match s.walk with
  | .prepare it true => do
    let entry ← readEntry s it
    .ok { s with walk := .prepare entry.prev false }
  | .after side it true => do
    let entry ← readEntry s it
    .ok { s with walk := .after side entry.next false }
  | _ => .ok s

def step (s : State) : Op → Except Fault State
  | .register prepare parent child dso entry =>
    (registerAtfork s prepare parent child dso entry).map Prod.fst
  | .unregister dso => unregisterAtfork s dso
  | .runPrepare =>
    .ok { s with walk := .prepare s.last false, start := s.registered, prepared := [], ran := [] }
  | .visit => visit s
  | .handlerReturn => handlerReturn s
  | .clone side => .ok { s with walk := .after side s.first false }
  | .finish => .ok { s with walk := .idle }

def Walk.runningAt : Walk → Option ℕ
  | .prepare it true | .after _ it true => some it
  | _ => none

/-- Handlers are called in the walks and change the list, and so does anybody outside them. -/
def Enabled (s : State) : Op → Prop
  | .register _ _ _ _ entry => (s.walk = .idle ∨ s.walk.runningAt.isSome) ∧
      ∀ p, entry = some p → p ≠ 0 ∧ s.heap p = none
  | .unregister _ => s.walk = .idle ∨ s.walk.runningAt.isSome
  | .runPrepare => s.walk = .idle
  | .visit => (∃ it, it ≠ 0 ∧ s.walk = .prepare it false) ∨
      ∃ side it, it ≠ 0 ∧ s.walk = .after side it false
  | .handlerReturn => s.walk.runningAt.isSome
  | .clone _ => s.walk = .prepare 0 false
  | .finish => ∃ side, s.walk = .after side 0 false

/-- No handler has its own entry unregistered, and the walk after `clone` comes to no entry that was
registered during the fork. -/
def Settled (s : State) : Op → Prop
  | .unregister dso => ∀ it entry, s.walk.runningAt = some it → s.heap it = some entry →
      entry.dsoHandle ≠ dso
  | .visit => ∀ side it entry, s.walk = .after side it false → s.heap it = some entry →
      entry.id < s.start
  | _ => True

inductive Reachable (P : State → Op → Prop) : State → Prop where
  | initial : Reachable P initial
  | step {s s' : State} {op : Op} : Reachable P s → Enabled s op → P s op → step s op = .ok s' →
      Reachable P s'

def Live (s : State) (id : ℕ) : Prop := ∃ p entry, s.heap p = some entry ∧ entry.id = id

structure Sound (s : State) : Prop where
  prepareOrder : (s.prepared.map Visit.id).Pairwise (· > ·)
  afterOrder : (s.ran.map Visit.id).Pairwise (· < ·)
  /-- A handler runs after `clone` only where the prepare phase was run. -/
  paired : ∀ v ∈ s.ran, v.id ∈ s.prepared.map Visit.id
  /-- Before `clone`, each entry of the list at the start is visited or unregistered. -/
  prepareAll : s.walk = .prepare 0 false → ∀ id, Live s id → id < s.start →
    id ∈ s.prepared.map Visit.id
  /-- After it, each entry whose prepare phase was run is visited or unregistered. -/
  afterAll : ∀ side, s.walk = .after side 0 false → ∀ id ∈ s.prepared.map Visit.id, Live s id →
    id ∈ s.ran.map Visit.id

variable {s s' : State} {p q : ℕ} {e : Entry} {xs ys zs : List ℕ}

section
variable {h : ℕ → Option Entry} {e' : Entry} {x : ℕ}

def nextOf (h : ℕ → Option Entry) (p : ℕ) : ℕ := ((h p).map Entry.next).getD 0
def prevOf (h : ℕ → Option Entry) (p : ℕ) : ℕ := ((h p).map Entry.prev).getD 0

def Entry.unlinked (e : Entry) : Entry := { e with next := 0, prev := 0 }

def contents (h : ℕ → Option Entry) (p : ℕ) : Option Entry := (h p).map Entry.unlinked

theorem contents_ne_none_iff : contents h p ≠ none ↔ h p ≠ none := by
  rw [contents, Ne, map_eq_none_iff]

structure Rep (s : State) (xs : List ℕ) : Prop where
  linked : Linked (nextOf s.heap) (prevOf s.heap) 0 xs 0
  first : s.first = xs.headD 0
  last : s.last = xs.getLastD 0
  live : ∀ p, s.heap p ≠ none ↔ p ∈ xs
  nodup : xs.Nodup
  nonzero : 0 ∉ xs

theorem Rep.mem (hr : Rep s xs) (hp : s.heap p = some e) : p ∈ xs :=
  (hr.live p).1 (hp ▸ some_ne_none e)

theorem Rep.exists_entry (hr : Rep s xs) (hp : p ∈ xs) : ∃ e, s.heap p = some e :=
  ne_none_iff_exists'.1 ((hr.live p).2 hp)

theorem map_update {α : Type} (f : Entry → α) (hp : h p = some e) (hf : f e' = f e) (q) :
    (update h p (some e') q).map f = (h q).map f := by
  by_cases hq : q = p
  · subst hq
    rw [update_self, hp, map_some, map_some, hf]
  · rw [update_of_ne hq]

theorem link_update (f : Entry → ℕ) (h : ℕ → Option Entry) (p e q) :
    ((update h p (some e) q).map f).getD 0 = if q = p then f e else ((h q).map f).getD 0 := by
  by_cases hq : q = p
  · rw [hq, update_self, if_pos rfl]
    rfl
  · rw [update_of_ne hq, if_neg hq]

theorem nextOf_update (h : ℕ → Option Entry) (p e q) :
    nextOf (update h p (some e)) q = if q = p then e.next else nextOf h q :=
  link_update Entry.next h p e q

theorem prevOf_update (h : ℕ → Option Entry) (p e q) :
    prevOf (update h p (some e)) q = if q = p then e.prev else prevOf h q :=
  link_update Entry.prev h p e q

theorem nextOf_congr (hp : h p = some e) (hf : e'.next = e.next) (q) :
    nextOf (update h p (some e')) q = nextOf h q := by
  rw [nextOf, map_update Entry.next hp hf, nextOf]

theorem prevOf_congr (hp : h p = some e) (hf : e'.prev = e.prev) (q) :
    prevOf (update h p (some e')) q = prevOf h q := by
  rw [prevOf, map_update Entry.prev hp hf, prevOf]

theorem contents_congr (hp : h p = some e) (hf : e'.unlinked = e.unlinked) (q) :
    contents (update h p (some e')) q = contents h q :=
  map_update Entry.unlinked hp hf q

theorem readEntry_of (hp : s.heap p = some e) : readEntry s p = .ok e := by
  rw [readEntry, hp]

theorem writeEntry_of {f} (hp : s.heap p = some e) :
    writeEntry s p f = .ok { s with heap := update s.heap p (some (f e)) } := by
  rw [writeEntry, hp]

theorem ok_bind {α β : Type} (x : α) (f : α → Except Fault β) : (Except.ok x >>= f) = f x := rfl

def SameWalk (s s' : State) : Prop :=
  s' = { s with heap := s'.heap, first := s'.first, last := s'.last }

theorem eq_nil_of_headD (hx : 0 ∉ xs) (h0 : xs.headD 0 = 0) : xs = [] := by
  cases xs with
  | nil => rfl
  | cons x xs => exact absurd (h0 ▸ mem_cons_self) hx

theorem eq_nil_of_getLastD (hx : 0 ∉ xs) (h0 : xs.getLastD 0 = 0) : xs = [] := by
  cases xs with
  | nil => rfl
  | cons x xs =>
    rw [getLastD_cons] at h0
    exact absurd (h0 ▸ getLastD_mem_cons) hx

theorem getLastD_mem (h0 : xs.getLastD 0 ≠ 0) : xs.getLastD 0 ∈ xs := by
  cases xs with
  | nil => exact absurd rfl h0
  | cons x xs =>
    rw [getLastD_cons]
    exact getLastD_mem_cons

theorem headD_mem (h0 : xs.headD 0 ≠ 0) : xs.headD 0 ∈ xs := by
  cases xs with
  | nil => exact absurd rfl h0
  | cons x xs => exact mem_cons_self

theorem update_ne_none_iff (h : ℕ → Option Entry) (p e q) :
    update h p (some e) q ≠ none ↔ q = p ∨ h q ≠ none := by
  by_cases hq : q = p
  · rw [hq, update_self]
    exact ⟨fun _ => .inl rfl, fun _ => some_ne_none e⟩
  · rw [update_of_ne hq]
    exact ⟨.inr, fun h => h.resolve_left hq⟩

theorem pushBack_spec (hr : Rep s xs) (hp : s.heap p = none) (hp0 : p ≠ 0) (e) :
    ∃ s', pushBack s p e = .ok s' ∧ Rep s' (xs ++ [p]) ∧ SameWalk s s' ∧
      ∀ q, contents s'.heap q = if q = p then some e.unlinked else contents s.heap q := by
  have hn : p ∉ xs := fun hm => (hr.live p).2 hm hp
  have hne : ∀ y ∈ xs, y ≠ p := fun y hy heq => hn (heq ▸ hy)
  have hnd : (xs ++ [p]).Nodup := concat_eq_append ▸ hr.nodup.concat hn
  have hnz : 0 ∉ xs ++ [p] := by
    rintro hm
    rcases mem_append.1 hm with hm | hm
    · exact hr.nonzero hm
    · exact hp0 (mem_singleton.1 hm).symm
  have hla : (xs ++ [p]).getLastD 0 = p := getLastD_concat
  let heap := update s.heap p (some { e with next := 0, prev := s.last })
  have hnw : ∀ q, contents heap q = if q = p then some e.unlinked else contents s.heap q := by
    intro q
    split <;> rename_i hq
    · subst hq
      exact congrArg (Option.map Entry.unlinked) (update_self q _ s.heap)
    · exact congrArg (Option.map Entry.unlinked) (update_of_ne hq _ s.heap)
  by_cases h0 : s.last = 0
  · have hx := eq_nil_of_getLastD hr.nonzero (hr.last ▸ h0)
    subst hx
    have hft : s.first = 0 := hr.first
    refine ⟨{ s with heap := heap, first := p, last := p }, ?_, ?_, rfl, hnw⟩
    · rw [pushBack]
      dsimp only
      rw [if_neg (not_not.2 h0), ok_bind, if_pos hft]
    refine ⟨⟨?_, ?_, trivial⟩, rfl, rfl, fun q => ?_, hnd, hnz⟩
    · rw [prevOf_update, if_pos rfl]
      exact h0
    · rw [nextOf_update, if_pos rfl]
      rfl
    rw [update_ne_none_iff]
    have hep := hr.live q
    simp [hep]
  have hm : s.last ∈ xs := hr.last ▸ getLastD_mem (hr.last ▸ h0)
  have hft : s.first ≠ 0 := by
    intro hf
    rw [eq_nil_of_headD hr.nonzero (hr.first ▸ hf)] at hm
    cases hm
  obtain ⟨el, hel⟩ := hr.exists_entry hm
  have hl := hne s.last hm
  have hel' : heap s.last = some el := by
    rw [← hel]
    exact update_of_ne hl _ _
  have hc : ∀ q, contents (update heap s.last (some { el with next := p })) q =
      contents heap q := contents_congr hel' rfl
  have hpv : ∀ q, prevOf (update heap s.last (some { el with next := p })) q =
      if q = p then s.last else prevOf s.heap q := by
    intro q
    refine (prevOf_congr hel' ?_ q).trans (prevOf_update s.heap p _ q)
    rfl
  have hnx : ∀ q, nextOf (update heap s.last (some { el with next := p })) q =
      if q = s.last then p else if q = p then 0 else nextOf s.heap q := by
    intro q
    rw [nextOf_update, nextOf_update]
  refine ⟨{ s with
      heap := update heap s.last (some { el with next := p }), last := p }, ?_, ?_, rfl,
    fun q => (hc q).trans (hnw q)⟩
  · rw [pushBack]
    dsimp only
    have hw : writeEntry { s with heap := heap } s.last (fun el => { el with next := p }) =
        .ok { s with heap := update heap s.last (some { el with next := p }) } :=
      writeEntry_of hel'
    rw [if_pos h0, hw, ok_bind, if_neg hft]
  refine ⟨linked_append.2 ⟨hr.linked.set_after hr.nodup ?_ ?_, ?_, ?_, trivial⟩, ?_, hla.symm,
    fun q => ?_, hnd, hnz⟩
  · intro y hy
    rw [hnx, if_neg (hne y hy), ← hr.last]
    rfl
  · intro y hy
    rw [hpv, if_neg (hne y hy)]
  · rw [hpv, if_pos rfl, hr.last]
  · rw [hnx, if_neg hl.symm, if_pos rfl]
    rfl
  · have ha : (xs ++ [p]).headD 0 = xs.headD 0 := by
      cases xs with
      | nil => cases hm
      | cons x xs => rfl
    rw [ha]
    exact hr.first
  rw [update_ne_none_iff, update_ne_none_iff, hr.live q, mem_append, mem_singleton]
  constructor
  · rintro (hq | hq | hq)
    · exact .inl (hq ▸ hm)
    · exact .inr hq
    · exact .inl hq
  · rintro (hq | hq)
    · exact .inr (.inr hq)
    · exact .inr (.inl hq)

structure Relinked (s s' : State) : Prop where
  same : SameWalk s s'
  contents : ∀ q, contents s'.heap q = contents s.heap q

theorem Relinked.exists_entry (h : Relinked s s') (hp : s.heap p = some e) :
    ∃ e', s'.heap p = some e' ∧ e'.unlinked = e.unlinked := by
  have hc := h.contents p
  rw [PthreadAtfork.contents, PthreadAtfork.contents, hp, map_some, map_eq_some_iff] at hc
  exact hc

theorem linkNext_spec (next) (hp : p ≠ 0 → ∃ e, s.heap p = some e) :
    ∃ s', linkNext s p next = .ok s' ∧ Relinked s s' ∧ s'.last = s.last ∧
      s'.first = (if p = 0 then next else s.first) ∧
      (∀ q ≠ 0, nextOf s'.heap q = if q = p then next else nextOf s.heap q) ∧
      ∀ q, prevOf s'.heap q = prevOf s.heap q := by
  by_cases h0 : p = 0
  · refine ⟨{ s with first := next }, ?_, ⟨rfl, fun _ => rfl⟩, rfl, (if_pos h0).symm, ?_,
      fun _ => rfl⟩
    · rw [linkNext, if_neg (not_not.2 h0)]
    · intro q hq
      rw [if_neg (h0 ▸ hq)]
  obtain ⟨e, he⟩ := hp h0
  refine ⟨{ s with heap := update s.heap p (some { e with next := next }) }, ?_,
    ⟨rfl, ?_⟩, rfl, (if_neg h0).symm, fun q _ => nextOf_update _ _ _ _, ?_⟩
  · rw [linkNext, if_pos h0, writeEntry_of he]
  · exact contents_congr he rfl
  · exact prevOf_congr he rfl

theorem linkPrev_spec (prev) (hp : p ≠ 0 → ∃ e, s.heap p = some e) :
    ∃ s', linkPrev s p prev = .ok s' ∧ Relinked s s' ∧ s'.first = s.first ∧
      s'.last = (if p = 0 then prev else s.last) ∧
      (∀ q ≠ 0, prevOf s'.heap q = if q = p then prev else prevOf s.heap q) ∧
      ∀ q, nextOf s'.heap q = nextOf s.heap q := by
  by_cases h0 : p = 0
  · refine ⟨{ s with last := prev }, ?_, ⟨rfl, fun _ => rfl⟩, rfl, (if_pos h0).symm, ?_,
      fun _ => rfl⟩
    · rw [linkPrev, if_neg (not_not.2 h0)]
    · intro q hq
      rw [if_neg (h0 ▸ hq)]
  obtain ⟨e, he⟩ := hp h0
  refine ⟨{ s with heap := update s.heap p (some { e with prev := prev }) }, ?_,
    ⟨rfl, ?_⟩, rfl, (if_neg h0).symm, fun q _ => prevOf_update _ _ _ _, ?_⟩
  · rw [linkPrev, if_pos h0, writeEntry_of he]
  · exact contents_congr he rfl
  · exact nextOf_congr he rfl

theorem nextOf_free (hq : q ≠ x) : nextOf (update h x none) q = nextOf h q := by
  rw [nextOf, nextOf, update_of_ne hq]

theorem prevOf_free (hq : q ≠ x) : prevOf (update h x none) q = prevOf h q := by
  rw [prevOf, prevOf, update_of_ne hq]

theorem Rep.entry (hr : Rep s (ys ++ x :: zs)) :
    ∃ e, s.heap x = some e ∧ e.prev = ys.getLastD 0 ∧ e.next = zs.headD 0 := by
  obtain ⟨e, he⟩ := hr.exists_entry (mem_append_right ys mem_cons_self)
  obtain ⟨-, hp, hn, -⟩ := linked_append.1 hr.linked
  rw [prevOf, he] at hp
  rw [nextOf, he] at hn
  exact ⟨e, he, hp, hn⟩

theorem headD_append_of_ne {a} (hy : ys ≠ []) : (ys ++ zs).headD a = ys.headD a := by
  cases ys with
  | nil => exact absurd rfl hy
  | cons y ys => rfl

theorem getLastD_append_of_ne {a b} (hz : zs ≠ []) : (ys ++ zs).getLastD a = zs.getLastD b := by
  cases zs with
  | nil => exact absurd rfl hz
  | cons z zs =>
    rw [getLastD_eq_getLast?, getLastD_eq_getLast?, getLast?_append]
    simp [getLast?_cons]

theorem remove_spec (hr : Rep s (ys ++ x :: zs)) :
    ∃ s', remove s x = .ok s' ∧ Rep s' (ys ++ zs) ∧ SameWalk s s' ∧
      ∀ q, contents s'.heap q = if q = x then none else contents s.heap q := by
  obtain ⟨e, he, hpv, hnx⟩ := hr.entry
  obtain ⟨hy, -, -, hz⟩ := linked_append.1 hr.linked
  have hnd := List.nodup_middle.1 hr.nodup
  obtain ⟨hx, hnd⟩ := List.nodup_cons.1 hnd
  obtain ⟨hno, hnu, hd⟩ := List.nodup_append.1 hnd
  have hm : ∀ q ∈ ys ++ zs, q ∈ ys ++ x :: zs := by
    intro q hq
    rcases mem_append.1 hq with hq | hq
    · exact mem_append_left _ hq
    · exact mem_append_right _ (mem_cons_of_mem x hq)
  have hnz : ∀ q ∈ ys ++ zs, q ≠ 0 := fun q hq h0 => hr.nonzero (h0 ▸ hm q hq)
  have hp : e.prev ≠ 0 → e.prev ∈ ys := fun h0 => hpv ▸ getLastD_mem (hpv ▸ h0)
  have hnm : e.next ≠ 0 → e.next ∈ zs := fun h0 => hnx ▸ headD_mem (hnx ▸ h0)
  have hx0 : x ≠ 0 := fun h0 => hr.nonzero (h0 ▸ mem_append_right ys mem_cons_self)
  have hne : ∀ q ∈ ys ++ zs, q ≠ x := fun q hq heq => hx (heq ▸ hq)
  obtain ⟨s1, hl1, hr1, hla1, hf1, hnx1, hpv1⟩ := linkNext_spec e.next
    fun h0 => hr.exists_entry (mem_append_left _ (hp h0))
  obtain ⟨e1, he1, -⟩ := hr1.exists_entry he
  have hep : e1.prev = e.prev := by
    have heq := hpv1 x
    rw [prevOf, he1, prevOf, he] at heq
    exact heq
  have hxr : x ≠ e.prev := by
    intro heq
    exact hx (mem_append_left zs (heq ▸ hp (heq ▸ hx0)))
  have hee : e1.next = e.next := by
    have heq := hnx1 x hx0
    rw [if_neg hxr, nextOf, he1, nextOf, he] at heq
    exact heq
  have ht : e.next ≠ 0 → ∃ e', s1.heap e.next = some e' := by
    intro h0
    obtain ⟨en, hen⟩ := hr.exists_entry (hm _ (mem_append_right ys (hnm h0)))
    obtain ⟨en', hen', -⟩ := hr1.exists_entry hen
    exact ⟨en', hen'⟩
  obtain ⟨s2, hl2, hr2, hf2, hla2, hpv2, hnx2⟩ := linkPrev_spec e.prev ht
  have hc : ∀ q, contents (update s2.heap x none) q =
      if q = x then none else contents s.heap q := by
    intro q
    split <;> rename_i hq
    · rw [contents, hq, update_self]
      rfl
    · rw [contents, update_of_ne hq]
      exact (hr2.contents q).trans (hr1.contents q)
  refine ⟨{ s2 with heap := update s2.heap x none }, ?_, ?_, ?_, hc⟩
  · rw [remove, readEntry_of he, ok_bind, hl1, ok_bind, readEntry_of he1, ok_bind, hee,
      hep, hl2, ok_bind]
  · have hn : ∀ q ∈ ys ++ zs, nextOf (update s2.heap x none) q =
        if q = ys.getLastD 0 then zs.headD 0 else nextOf s.heap q := by
      intro q hq
      rw [nextOf_free (hne q hq), hnx2, hnx1 q (hnz q hq), hpv, hnx]
    have hps : ∀ q ∈ ys ++ zs, prevOf (update s2.heap x none) q =
        if q = zs.headD 0 then ys.getLastD 0 else prevOf s.heap q := by
      intro q hq
      rw [prevOf_free (hne q hq), hpv2 q (hnz q hq), hpv1, hpv, hnx]
    have hb : ∀ q ∈ ys, q ≠ zs.headD 0 := by
      intro q hq heq
      have hq0 := hnz q (mem_append_left zs hq)
      exact hd q hq q (heq ▸ headD_mem (heq ▸ hq0)) rfl
    have ha : ∀ q ∈ zs, q ≠ ys.getLastD 0 := by
      intro q hq heq
      have hq0 := hnz q (mem_append_right ys hq)
      exact hd q (heq ▸ getLastD_mem (heq ▸ hq0)) q hq rfl
    constructor
    · refine linked_append.2 ⟨hy.set_after hno ?_ ?_, hz.set_before hnu ?_ ?_⟩
      · exact fun q hq => hn q (mem_append_left zs hq)
      · intro q hq
        rw [hps q (mem_append_left zs hq), if_neg (hb q hq)]
      · intro q hq
        rw [hn q (mem_append_right ys hq), if_neg (ha q hq)]
      · exact fun q hq => hps q (mem_append_right ys hq)
    · rw [hf2, hf1, hr.first, hpv, hnx]
      split <;> rename_i h0
      · rw [eq_nil_of_getLastD (fun h => hnz 0 (mem_append_left zs h) rfl) h0]
        rfl
      · have hne : ys ≠ [] := fun h => h0 (h ▸ rfl)
        rw [headD_append_of_ne hne, headD_append_of_ne hne]
    · rw [hla2, hla1, hr.last, hpv, hnx]
      split <;> rename_i h0
      · rw [eq_nil_of_headD (fun h => hnz 0 (mem_append_right ys h) rfl) h0, append_nil]
      · have hne : zs ≠ [] := fun h => h0 (h ▸ rfl)
        rw [getLastD_append_of_ne (b := 0) (cons_ne_nil x zs), getLastD_cons,
          getLastD_append_of_ne (b := x) hne]
    · intro q
      rw [← contents_ne_none_iff, hc q]
      split <;> rename_i hq
      · exact ⟨fun h => absurd rfl h, fun h => absurd hq (hne q h)⟩
      · rw [contents_ne_none_iff, hr.live q, mem_append, mem_append, mem_cons]
        exact ⟨fun h => h.imp_right fun h => h.resolve_left hq, fun h => h.imp_right .inr⟩
    · exact hnd
    · exact fun h0 => hnz 0 h0 rfl
  · rw [SameWalk, hr2.same, hr1.same]

theorem removeIf_spec (pred : Entry → Bool) (hpd : ∀ e, pred e = pred e.unlinked) {fuel}
    (hr : Rep s (ys ++ zs)) (hf : zs.length < fuel) :
    ∃ s' zs', removeIf pred fuel s (zs.headD 0) = .ok s' ∧ Rep s' (ys ++ zs') ∧
      zs'.Sublist zs ∧ SameWalk s s' ∧ ∀ q, contents s'.heap q =
        if q ∈ zs then (contents s.heap q).filter fun e => !pred e else contents s.heap q := by
  induction zs generalizing s ys fuel with
  | nil =>
    cases fuel with
    | zero => cases hf
    | succ fuel => exact ⟨s, [], if_pos rfl, hr, List.Sublist.refl [], rfl, fun q => rfl⟩
  | cons x zs ih =>
    cases fuel with
    | zero => cases hf
    | succ fuel =>
      have hf : zs.length < fuel := lt_of_succ_lt_succ hf
      have hm : x ∈ ys ++ x :: zs := mem_append_right ys mem_cons_self
      have hx0 : x ≠ 0 := fun h0 => hr.nonzero (h0 ▸ hm)
      obtain ⟨e, he, -, hn⟩ := hr.entry
      have hx : x ∉ zs := (List.nodup_cons.1 (List.nodup_append.1 hr.nodup).2.1).1
      have hc : contents s.heap x = some e.unlinked := by rw [contents, he, map_some]
      rw [headD_cons, removeIf, if_neg hx0, readEntry_of he, ok_bind, hn]
      cases hp : pred e with
      | true =>
        obtain ⟨s1, hrm, hr1, hs1, hc1⟩ := remove_spec hr
        obtain ⟨s2, zs', ho, hr2, hs, hs2, hc2⟩ := ih hr1 hf
        refine ⟨s2, zs', ?_, hr2, hs.cons x, ?_, fun q => ?_⟩
        · rw [if_pos rfl, hrm, ok_bind, ho]
        · rw [SameWalk, hs2, hs1]
        rw [hc2 q, hc1 q]
        by_cases hq : q = x
        · subst hq
          rw [if_neg hx, if_pos rfl, if_pos mem_cons_self, hc]
          simp [Option.filter, (hpd e).symm.trans hp]
        · simp [mem_cons, hq]
      | false =>
        have hr1 : Rep s ((ys ++ [x]) ++ zs) := by rwa [append_assoc]
        obtain ⟨s2, zs', ho, hr2, hs, hs2, hc2⟩ := ih hr1 hf
        refine ⟨s2, x :: zs', ?_, ?_, hs.cons_cons x, hs2, fun q => ?_⟩
        · rw [if_neg Bool.false_ne_true, ho]
        · rwa [append_assoc] at hr2
        rw [hc2 q]
        by_cases hq : q = x
        · subst hq
          rw [if_neg hx, if_pos mem_cons_self, hc]
          simp [Option.filter, (hpd e).symm.trans hp]
        · simp [mem_cons, hq]

end

variable {xs' : List ℕ} {it : ℕ} {running : Bool} {side : Side} {op : Op}

def idAt (h : ℕ → Option Entry) (p : ℕ) : ℕ := ((contents h p).map Entry.id).getD 0

theorem idAt_of {h} (hp : h p = some e) : idAt h p = e.id := by
  rw [idAt, contents, hp]
  rfl

def ids (vs : List Visit) : List ℕ := vs.map Visit.id

/-- The visits before `clone` have come down to here. -/
def prepareBound (s : State) (it : ℕ) (running : Bool) : ℕ :=
  if it = 0 then 0 else if running then idAt s.heap it else idAt s.heap it + 1

structure PrepareInv (s : State) (xs : List ℕ) (it : ℕ) (running : Bool) : Prop where
  there : it ≠ 0 → it ∈ xs ∧ idAt s.heap it < s.start
  stands : running → it ≠ 0
  covered : ∀ p ∈ xs, idAt s.heap p < s.start → prepareBound s it running ≤ idAt s.heap p →
    idAt s.heap p ∈ ids s.prepared
  above : ∀ i ∈ ids s.prepared, prepareBound s it running ≤ i
  none : s.ran = []

/-- The visits after `clone` have come up to here. -/
def Passed (s : State) (it : ℕ) (running : Bool) (i : ℕ) : Prop :=
  it = 0 ∨ i < if running then idAt s.heap it + 1 else idAt s.heap it

structure AfterInv (s : State) (xs : List ℕ) (it : ℕ) (running : Bool) : Prop where
  there : it ≠ 0 → it ∈ xs
  stands : running → it ≠ 0
  covered : ∀ p ∈ xs, idAt s.heap p < s.start → idAt s.heap p ∈ ids s.prepared
  visited : ∀ p ∈ xs, idAt s.heap p < s.start → Passed s it running (idAt s.heap p) →
    idAt s.heap p ∈ ids s.ran
  below : ∀ i ∈ ids s.ran, Passed s it running i

def WalkInv (s : State) (xs : List ℕ) : Walk → Prop
  | .idle => True
  | .prepare it running => PrepareInv s xs it running
  | .after _ it running => AfterInv s xs it running

structure Inv (s : State) (xs : List ℕ) : Prop where
  rep : Rep s xs
  sorted : xs.Pairwise fun p q => idAt s.heap p < idAt s.heap q
  fresh : ∀ p ∈ xs, idAt s.heap p < s.registered
  start : s.start ≤ s.registered
  prepareOrder : (ids s.prepared).Pairwise (· > ·)
  prepareStart : ∀ i ∈ ids s.prepared, i < s.start
  afterOrder : (ids s.ran).Pairwise (· < ·)
  paired : ∀ i ∈ ids s.ran, i ∈ ids s.prepared
  walk : WalkInv s xs s.walk

theorem Inv.initial : Inv initial [] where
  rep := ⟨trivial, rfl, rfl, fun _ => ⟨fun h => absurd rfl h, nofun⟩, nodup_nil, not_mem_nil⟩
  sorted := List.Pairwise.nil
  fresh := nofun
  start := Nat.le_refl 0
  prepareOrder := List.Pairwise.nil
  prepareStart := nofun
  afterOrder := List.Pairwise.nil
  paired := nofun
  walk := trivial

theorem Inv.length_le (hiv : Inv s xs) : xs.length ≤ s.registered := by
  have hn : (xs.map (idAt s.heap)).Nodup := by
    rw [List.Nodup, pairwise_map]
    exact hiv.sorted.imp fun h => ne_of_lt h
  have hs : xs.map (idAt s.heap) ⊆ range s.registered := by
    intro i hi
    obtain ⟨p, hp, rfl⟩ := List.mem_map.1 hi
    exact List.mem_range.2 (hiv.fresh p hp)
  have hl := (subperm_of_subset hn hs).length_le
  rwa [length_map, length_range] at hl

theorem Inv.prev (hiv : Inv s xs) (hit : s.heap it = some e) :
    (e.prev ≠ 0 → e.prev ∈ xs ∧ idAt s.heap e.prev < idAt s.heap it) ∧
    ∀ p ∈ xs, idAt s.heap p < idAt s.heap it → e.prev ≠ 0 ∧ idAt s.heap p ≤ idAt s.heap e.prev := by
  obtain ⟨ys, zs, rfl⟩ := append_of_mem (hiv.rep.mem hit)
  obtain ⟨e', he', hpv, -⟩ := hiv.rep.entry
  cases hit.symm.trans he'
  obtain ⟨hy, hz, hc⟩ := pairwise_append.1 hiv.sorted
  have ha := (pairwise_cons.1 hz).1
  have hs : ∀ p ∈ ys ++ it :: zs, idAt s.heap p < idAt s.heap it → p ∈ ys := by
    intro p hp hlt
    rcases mem_append.1 hp with hp | hp
    · exact hp
    rcases mem_cons.1 hp with rfl | hp
    · exact absurd hlt (Nat.lt_irrefl _)
    · exact absurd (ha p hp) (Nat.not_lt_of_lt hlt)
  rw [hpv]
  rcases ys.eq_nil_or_concat' with rfl | ⟨ys, l, rfl⟩
  · exact ⟨fun h => absurd rfl h, fun p hp hlt => absurd (hs p hp hlt) not_mem_nil⟩
  rw [getLastD_concat]
  have hl : l ∈ ys ++ [l] := mem_append_right ys mem_cons_self
  have hl0 : l ≠ 0 := fun h0 => hiv.rep.nonzero (h0 ▸ mem_append_left _ hl)
  refine ⟨fun _ => ⟨mem_append_left _ hl, hc l hl it mem_cons_self⟩, fun p hp hlt => ⟨hl0, ?_⟩⟩
  rcases mem_append.1 (hs p hp hlt) with hp | hp
  · exact Nat.le_of_lt ((pairwise_append.1 hy).2.2 p hp l mem_cons_self)
  · exact Nat.le_of_eq (congrArg _ (mem_singleton.1 hp))

theorem Inv.next (hiv : Inv s xs) (hit : s.heap it = some e) :
    (e.next ≠ 0 → e.next ∈ xs ∧ idAt s.heap it < idAt s.heap e.next) ∧
    ∀ p ∈ xs, idAt s.heap it < idAt s.heap p → e.next ≠ 0 ∧ idAt s.heap e.next ≤ idAt s.heap p := by
  obtain ⟨ys, zs, rfl⟩ := append_of_mem (hiv.rep.mem hit)
  obtain ⟨e', he', -, hn⟩ := hiv.rep.entry
  cases hit.symm.trans he'
  obtain ⟨-, hzs, hc⟩ := pairwise_append.1 hiv.sorted
  obtain ⟨ha, hzs⟩ := pairwise_cons.1 hzs
  have hl : ∀ p ∈ ys ++ it :: zs, idAt s.heap it < idAt s.heap p → p ∈ zs := by
    intro p hp hlt
    rcases mem_append.1 hp with hp | hp
    · exact absurd (hc p hp it mem_cons_self) (Nat.not_lt_of_lt hlt)
    rcases mem_cons.1 hp with rfl | hp
    · exact absurd hlt (Nat.lt_irrefl _)
    · exact hp
  rw [hn]
  cases zs with
  | nil => exact ⟨fun h => absurd rfl h, fun p hp hlt => absurd (hl p hp hlt) not_mem_nil⟩
  | cons z zs =>
    rw [headD_cons]
    have hz : z ∈ ys ++ it :: z :: zs :=
      mem_append_right ys (mem_cons_of_mem it mem_cons_self)
    have hz0 : z ≠ 0 := fun h0 => hiv.rep.nonzero (h0 ▸ hz)
    refine ⟨fun _ => ⟨hz, ha z mem_cons_self⟩, fun p hp hlt => ⟨hz0, ?_⟩⟩
    rcases mem_cons.1 (hl p hp hlt) with rfl | hp
    · exact Nat.le_refl _
    · exact Nat.le_of_lt ((pairwise_cons.1 hzs).1 p hp)

/-- A change of the list: old entries keep their numbers, new ones have new numbers, and the entry
whose handler runs stays. -/
structure Relisted (s s' : State) (xs xs' : List ℕ) : Prop where
  walk : s'.walk = s.walk
  start : s'.start = s.start
  prepared : s'.prepared = s.prepared
  ran : s'.ran = s.ran
  old : ∀ p ∈ xs', p ∈ xs ∧ idAt s'.heap p = idAt s.heap p ∨ s.registered ≤ idAt s'.heap p
  here : ∀ it, s.walk.runningAt = some it → it ∈ xs' ∧ idAt s'.heap it = idAt s.heap it

section
variable (hrl : Relisted s s' xs xs') (hst : s.start ≤ s.registered)
include hrl hst

theorem PrepareInv.relisted (hw : s.walk = .prepare it true) (h : PrepareInv s xs it true) :
    PrepareInv s' xs' it true := by
  obtain ⟨hm, hid⟩ := hrl.here it (by rw [hw]; rfl)
  have hb : prepareBound s' it true = prepareBound s it true := by
    rw [prepareBound, prepareBound, hid]
  refine ⟨fun h0 => ⟨hm, ?_⟩, h.stands, fun p hp hl hle => ?_, ?_, ?_⟩
  · rw [hid, hrl.start]
    exact (h.there h0).2
  · rw [hrl.start] at hl
    rcases hrl.old p hp with ⟨ho, hip⟩ | hn
    · rw [hb] at hle
      rw [hrl.prepared]
      rw [hip] at hl hle ⊢
      exact h.covered p ho hl hle
    · omega
  · rw [hb, hrl.prepared]
    exact h.above
  · rw [hrl.ran]
    exact h.none

theorem AfterInv.relisted (hw : s.walk = .after side it true) (h : AfterInv s xs it true) :
    AfterInv s' xs' it true := by
  obtain ⟨hm, hid⟩ := hrl.here it (by rw [hw]; rfl)
  have hpd : ∀ i, Passed s' it true i ↔ Passed s it true i := by
    intro i
    rw [Passed, Passed, hid]
  refine ⟨fun _ => hm, h.stands, fun p hp hl => ?_, fun p hp hl hps => ?_, ?_⟩
  · rw [hrl.start] at hl
    rcases hrl.old p hp with ⟨ho, hip⟩ | hn
    · rw [hrl.prepared]
      rw [hip] at hl ⊢
      exact h.covered p ho hl
    · omega
  · rw [hrl.start] at hl
    rcases hrl.old p hp with ⟨ho, hip⟩ | hn
    · rw [hpd] at hps
      rw [hrl.ran]
      rw [hip] at hl hps ⊢
      exact h.visited p ho hl hps
    · omega
  · intro i hi
    rw [hrl.ran] at hi
    exact (hpd i).2 (h.below i hi)

end

section
variable (hiv : Inv s xs)
include hiv

theorem Inv.relisted (hrl : Relisted s s' xs xs')
    (hwe : s.walk = .idle ∨ s.walk.runningAt.isSome) (hr : Rep s' xs')
    (hs : xs'.Pairwise fun p q => idAt s'.heap p < idAt s'.heap q)
    (hf : ∀ p ∈ xs', idAt s'.heap p < s'.registered) (hl : s.registered ≤ s'.registered) :
    Inv s' xs' where
  rep := hr
  sorted := hs
  fresh := hf
  start := hrl.start ▸ Nat.le_trans hiv.start hl
  prepareOrder := hrl.prepared ▸ hiv.prepareOrder
  prepareStart := by
    rw [hrl.prepared, hrl.start]
    exact hiv.prepareStart
  afterOrder := hrl.ran ▸ hiv.afterOrder
  paired := by
    rw [hrl.prepared, hrl.ran]
    exact hiv.paired
  walk := by
    have hw := hiv.walk
    rw [hrl.walk]
    cases hwk : s.walk with
    | idle => trivial
    | prepare it running =>
      rw [hwk] at hw hwe
      cases running with
      | false => rcases hwe with h | h <;> cases h
      | true => exact PrepareInv.relisted hrl hiv.start hwk hw
    | after side it running =>
      rw [hwk] at hw hwe
      cases running with
      | false => rcases hwe with h | h <;> cases h
      | true => exact AfterInv.relisted hrl hiv.start hwk hw

theorem Inv.runningAt_mem (h : s.walk.runningAt = some it) : it ∈ xs := by
  have hw := hiv.walk
  cases hwk : s.walk with
  | idle =>
    rw [hwk] at h
    cases h
  | prepare it' running =>
    rw [hwk] at h hw
    cases running with
    | false => cases h
    | true =>
      cases h
      exact (hw.there (hw.stands rfl)).1
  | after side it' running =>
    rw [hwk] at h hw
    cases running with
    | false => cases h
    | true =>
      cases h
      exact hw.there (hw.stands rfl)

theorem Inv.register {prepare parent child dso entry}
    (hen : Enabled s (.register prepare parent child dso entry)) :
    ∃ s' xs', step s (.register prepare parent child dso entry) = .ok s' ∧ Inv s' xs' := by
  obtain ⟨hw, hf⟩ := hen
  cases entry with
  | none => exact ⟨s, xs, rfl, hiv⟩
  | some p =>
    obtain ⟨hp0, hp⟩ := hf p rfl
    have hr : Rep { s with registered := s.registered + 1 } xs :=
      ⟨hiv.rep.linked, hiv.rep.first, hiv.rep.last, hiv.rep.live, hiv.rep.nodup,
        hiv.rep.nonzero⟩
    obtain ⟨s', ho, hr', hs, hc⟩ := pushBack_spec hr hp hp0
      ⟨0, 0, prepare, child, parent, dso, s.registered⟩
    have hn : p ∉ xs := fun hm => (hiv.rep.live p).2 hm hp
    have hip : idAt s'.heap p = s.registered := by
      rw [idAt, hc p, if_pos rfl]
      rfl
    have hid : ∀ q ∈ xs, idAt s'.heap q = idAt s.heap q := by
      intro q hq
      have hqp : q ≠ p := fun h => hn (h ▸ hq)
      rw [idAt, hc q, if_neg hqp]
      rfl
    have hrd : s'.registered = s.registered + 1 := by rw [hs]
    refine ⟨s', xs ++ [p], ?_, hiv.relisted ⟨?_, ?_, ?_, ?_, fun q hq => ?_, fun it hit => ?_⟩
      hw hr' ?_ ?_ (by omega)⟩
    · rw [step, registerAtfork, ho]
      rfl
    · rw [hs]
    · rw [hs]
    · rw [hs]
    · rw [hs]
    · rcases mem_append.1 hq with hq | hq
      · exact .inl ⟨hq, hid q hq⟩
      · rw [mem_singleton.1 hq, hip]
        exact .inr (Nat.le_refl _)
    · have hm := hiv.runningAt_mem hit
      exact ⟨mem_append_left _ hm, hid it hm⟩
    · refine pairwise_append.2 ⟨?_, pairwise_singleton _ p, ?_⟩
      · refine hiv.sorted.imp_of_mem fun {a b} ha hb hl => ?_
        rwa [hid a ha, hid b hb]
      · intro a ha b hb
        rw [mem_singleton.1 hb, hip, hid a ha]
        exact hiv.fresh a ha
    · intro q hq
      rw [hrd]
      rcases mem_append.1 hq with hq | hq
      · rw [hid q hq]
        exact lt_succ_of_lt (hiv.fresh q hq)
      · rw [mem_singleton.1 hq, hip]
        exact lt_succ_self _

theorem Inv.unregister {dso} (hen : Enabled s (.unregister dso)) :
    ∃ s' xs', step s (.unregister dso) = .ok s' ∧ Rep s' xs' ∧
      (∀ q, contents s'.heap q = (contents s.heap q).filter fun e => !(e.dsoHandle == dso)) ∧
      (Settled s (.unregister dso) → Inv s' xs') := by
  have hf : xs.length < s.registered + 1 := lt_succ_of_le hiv.length_le
  have hl : Rep s ([] ++ xs) := hiv.rep
  obtain ⟨s', xs', ho, hr, hs, hsm, hc⟩ :=
    removeIf_spec (fun e => e.dsoHandle == dso) (fun _ => rfl) hl hf
  have hcs : ∀ q, contents s'.heap q =
      (contents s.heap q).filter fun e => !(e.dsoHandle == dso) := by
    intro q
    rw [hc q]
    split
    · rfl
    rename_i hq
    have hn : contents s.heap q = none := by
      by_contra hne
      exact hq ((hiv.rep.live q).1 (contents_ne_none_iff.1 hne))
    rw [hn]
    rfl
  have hid : ∀ q ∈ xs', idAt s'.heap q = idAt s.heap q := by
    intro q hq
    obtain ⟨e, he⟩ := hr.exists_entry hq
    have hce : contents s'.heap q = some e.unlinked := by rw [contents, he, map_some]
    have hod := hcs q
    rw [hce] at hod
    rw [idAt, idAt, hce, (filter_eq_some_iff.1 hod.symm).1]
  rw [← hiv.rep.first] at ho
  refine ⟨s', xs', ho, hr, hcs, fun hse => hiv.relisted
    ⟨?_, ?_, ?_, ?_, fun q hq => .inl ⟨hs.subset hq, hid q hq⟩, fun it hit => ?_⟩ hen hr ?_
    ?_ ?_⟩
  · rw [hsm]
  · rw [hsm]
  · rw [hsm]
  · rw [hsm]
  · obtain ⟨e, he⟩ := hiv.rep.exists_entry (hiv.runningAt_mem hit)
    have hk : contents s'.heap it = some e.unlinked := by
      have hd : (!(e.unlinked.dsoHandle == dso)) = true := by
        rw [Bool.not_eq_true', beq_eq_false_iff_ne]
        exact hse it e hit he
      rw [hcs it, contents, he, map_some]
      exact if_pos hd
    have hlv := contents_ne_none_iff.1 (hk ▸ some_ne_none _)
    have hm : it ∈ xs' := (hr.live it).1 hlv
    exact ⟨hm, hid it hm⟩
  · refine (hiv.sorted.sublist hs).imp_of_mem fun {a b} ha hb hlt => ?_
    rwa [hid a ha, hid b hb]
  · intro q hq
    rw [hid q hq, hsm]
    exact hiv.fresh q (hs.subset hq)
  · exact Nat.le_of_eq (congrArg State.registered hsm).symm

theorem Inv.walked {walk prepared ran}
    (hp : (ids prepared).Pairwise (· > ·)) (hst : ∀ i ∈ ids prepared, i < s.start)
    (ha : (ids ran).Pairwise (· < ·)) (hpi : ∀ i ∈ ids ran, i ∈ ids prepared)
    (hw : WalkInv { s with walk := walk, prepared := prepared, ran := ran } xs walk) :
    Inv { s with walk := walk, prepared := prepared, ran := ran } xs where
  rep := ⟨hiv.rep.linked, hiv.rep.first, hiv.rep.last, hiv.rep.live, hiv.rep.nodup,
    hiv.rep.nonzero⟩
  sorted := hiv.sorted
  fresh := hiv.fresh
  start := hiv.start
  prepareOrder := hp
  prepareStart := hst
  afterOrder := ha
  paired := hpi
  walk := hw

theorem Inv.runPrepare : Inv { s with
      walk := .prepare s.last false, start := s.registered, prepared := [], ran := [] } xs := by
  have hla : s.last ≠ 0 → s.last ∈ xs := by
    rw [hiv.rep.last]
    exact getLastD_mem
  refine ⟨⟨hiv.rep.linked, hiv.rep.first, hiv.rep.last, hiv.rep.live, hiv.rep.nodup,
    hiv.rep.nonzero⟩, hiv.sorted, hiv.fresh, Nat.le_refl _, List.Pairwise.nil,
    nofun, List.Pairwise.nil,
    nofun,
    fun h0 => ⟨hla h0, hiv.fresh _ (hla h0)⟩, nofun, fun p hp _ hle => ?_,
    nofun, rfl⟩
  rcases xs.eq_nil_or_concat' with rfl | ⟨ys, l, rfl⟩
  · cases hp
  have hl : s.last = l := hiv.rep.last.trans getLastD_concat
  have hl0 : l ≠ 0 := by
    intro h0
    exact hiv.rep.nonzero (h0 ▸ mem_append_right ys mem_cons_self)
  have hle : idAt s.heap l + 1 ≤ idAt s.heap p := by
    rw [hl, prepareBound, if_neg hl0] at hle
    exact hle
  rcases mem_append.1 hp with hp | hp
  · have hlt := (pairwise_append.1 hiv.sorted).2.2 p hp l mem_cons_self
    omega
  · rw [mem_singleton.1 hp] at hle
    omega

theorem PrepareInv.move (h : PrepareInv s xs it true) (hit : s.heap it = some e) :
    PrepareInv s xs e.prev false := by
  obtain ⟨hpv, hg⟩ := hiv.prev hit
  have hlt := (h.there (h.stands rfl)).2
  have hb : prepareBound s it true = idAt s.heap it := by
    rw [prepareBound, if_neg (h.stands rfl), if_pos rfl]
  have hn : prepareBound s e.prev false ≤ idAt s.heap it := by
    rw [prepareBound]
    split
    · exact zero_le _
    · rename_i h0
      exact (hpv h0).2
  refine ⟨fun h0 => ⟨(hpv h0).1, Nat.lt_trans (hpv h0).2 hlt⟩, nofun,
    fun p hp hs hle => h.covered p hp hs ?_, fun i hi => ?_, h.none⟩
  · rw [hb]
    by_contra hl
    obtain ⟨h0, hle'⟩ := hg p hp (Nat.lt_of_not_le hl)
    rw [prepareBound, if_neg h0] at hle
    exact absurd hle' (Nat.not_le_of_lt hle)
  · have ha := h.above i hi
    rw [hb] at ha
    exact Nat.le_trans hn ha

theorem AfterInv.move (h : AfterInv s xs it true) (hit : s.heap it = some e) :
    AfterInv s xs e.next false := by
  obtain ⟨hn, hg⟩ := hiv.next hit
  have h0 := h.stands rfl
  refine ⟨fun h0 => (hn h0).1, nofun, h.covered, fun p hp hs hps => ?_, fun i hi => ?_⟩
  · refine h.visited p hp hs (.inr ?_)
    rw [if_pos rfl]
    by_contra hh
    obtain ⟨hne, hl⟩ := hg p hp (by omega)
    rcases hps with hps | hps
    · exact hne hps
    · exact absurd hps (Nat.not_lt_of_le hl)
  · rcases h.below i hi with hz | hlt
    · exact absurd hz h0
    · by_cases hz : e.next = 0
      · exact .inl hz
      · have hu := (hn hz).2
        exact .inr (Nat.lt_of_lt_of_le hlt hu)

end

theorem ids_concat (vs v) : ids (vs ++ [v]) = ids vs ++ [v.id] :=
  map_append

theorem mem_ids_concat {vs v i} : i ∈ ids (vs ++ [v]) ↔ i ∈ ids vs ∨ i = v.id := by
  rw [ids_concat, mem_append, mem_singleton]

section
variable (hiv : Inv s xs)
include hiv

theorem Inv.movePrepare (hwk : s.walk = .prepare it true)
    (hit : s.heap it = some e) : Inv { s with walk := .prepare e.prev false } xs := by
  have hw := hiv.walk
  rw [hwk] at hw
  obtain ⟨ht, hs, hc, ha, hn⟩ := PrepareInv.move hiv hw hit
  exact hiv.walked hiv.prepareOrder hiv.prepareStart hiv.afterOrder hiv.paired
    ⟨ht, hs, hc, ha, hn⟩

theorem Inv.moveAfter (hwk : s.walk = .after side it true)
    (hit : s.heap it = some e) : Inv { s with walk := .after side e.next false } xs := by
  have hw := hiv.walk
  rw [hwk] at hw
  obtain ⟨ht, hs, hc, hv, hb⟩ := AfterInv.move hiv hw hit
  exact hiv.walked hiv.prepareOrder hiv.prepareStart hiv.afterOrder hiv.paired
    ⟨ht, hs, hc, hv, hb⟩

theorem Inv.visitPrepare (hwk : s.walk = .prepare it false) (h0 : it ≠ 0) :
    ∃ s', visit s = .ok s' ∧ Inv s' xs := by
  have hw := hiv.walk
  rw [hwk] at hw
  obtain ⟨hm, hlt⟩ := hw.there h0
  obtain ⟨e, he⟩ := hiv.rep.exists_entry hm
  have hid : e.id = idAt s.heap it := (idAt_of he).symm
  have ha : ∀ i ∈ ids s.prepared, idAt s.heap it + 1 ≤ i := by
    intro i hi
    have hl := hw.above i hi
    rwa [prepareBound, if_neg h0, if_neg nofun] at hl
  have hn : ∀ i ∈ ids (s.prepared ++ [⟨e.id, e.prepare⟩]),
      i ∈ ids s.prepared ∨ i = idAt s.heap it := fun i hi => hid ▸ mem_ids_concat.1 hi
  have hr : Inv { s with
      walk := .prepare it true, prepared := s.prepared ++ [⟨e.id, e.prepare⟩] } xs := by
    refine hiv.walked ?_ ?_ hiv.afterOrder ?_ ⟨fun _ => ⟨hm, hlt⟩, fun _ => h0, ?_, ?_, hw.none⟩
    · rw [ids_concat]
      refine pairwise_append.2 ⟨hiv.prepareOrder, pairwise_singleton _ _, ?_⟩
      intro i hi j hj
      rw [mem_singleton.1 hj]
      exact hid ▸ ha i hi
    · intro i hi
      rcases hn i hi with hi | rfl
      · exact hiv.prepareStart i hi
      · exact hlt
    · rw [hw.none]
      exact nofun
    · intro p hp hs hl
      rw [prepareBound, if_neg h0, if_pos rfl] at hl
      rw [mem_ids_concat]
      rcases Nat.eq_or_lt_of_le hl with heq | hg
      · exact .inr (heq.symm.trans hid.symm)
      refine .inl (hw.covered p hp hs ?_)
      rw [prepareBound, if_neg h0, if_neg nofun]
      exact hg
    · intro i hi
      rw [prepareBound, if_neg h0, if_pos rfl]
      rcases hn i hi with hi | rfl
      · exact le_of_succ_le (ha i hi)
      · exact Nat.le_refl _
  rw [visit, hwk]
  dsimp only
  rw [readEntry_of he, ok_bind]
  refine ⟨_, rfl, ?_⟩
  split
  · exact hr
  · exact hr.movePrepare rfl he

theorem Inv.visitAfter (hwk : s.walk = .after side it false) (h0 : it ≠ 0) :
    ∃ s', visit s = .ok s' ∧ (Settled s .visit → Inv s' xs) := by
  have hw := hiv.walk
  rw [hwk] at hw
  have hm := hw.there h0
  obtain ⟨e, he⟩ := hiv.rep.exists_entry hm
  have hid : e.id = idAt s.heap it := (idAt_of he).symm
  have hb : ∀ i ∈ ids s.ran, i < idAt s.heap it := by
    intro i hi
    have hps := (hw.below i hi).resolve_left h0
    rwa [if_neg nofun] at hps
  have hn : ∀ i ∈ ids (s.ran ++ [⟨e.id, e.handler side⟩]),
      i ∈ ids s.ran ∨ i = idAt s.heap it := fun i hi => hid ▸ mem_ids_concat.1 hi
  have hr : Settled s .visit → Inv { s with
      walk := .after side it true, ran := s.ran ++ [⟨e.id, e.handler side⟩] } xs := by
    intro hse
    have hlt : idAt s.heap it < s.start := hid ▸ hse side it e hwk he
    refine hiv.walked hiv.prepareOrder hiv.prepareStart ?_ ?_
      ⟨fun _ => hm, fun _ => h0, hw.covered, ?_, ?_⟩
    · rw [ids_concat]
      refine pairwise_append.2 ⟨hiv.afterOrder, pairwise_singleton _ _, ?_⟩
      intro i hi j hj
      rw [mem_singleton.1 hj]
      exact hid ▸ hb i hi
    · intro i hi
      rcases hn i hi with hi | rfl
      · exact hiv.paired i hi
      · exact hw.covered it hm hlt
    · intro p hp hs hps
      have hle : idAt s.heap p < idAt s.heap it + 1 := hps.resolve_left h0
      rw [mem_ids_concat]
      rcases Nat.eq_or_lt_of_le (le_of_lt_succ hle) with heq | hl
      · exact .inr (heq.trans hid.symm)
      · exact .inl (hw.visited p hp hs (.inr hl))
    · intro i hi
      right
      rcases hn i hi with hi | rfl
      · exact lt_succ_of_lt (hb i hi)
      · exact lt_succ_self _
  rw [visit, hwk]
  dsimp only
  rw [readEntry_of he, ok_bind]
  refine ⟨_, rfl, fun hse => ?_⟩
  split
  · exact hr hse
  · exact (hr hse).moveAfter rfl he

theorem Inv.handlerReturn (hr : s.walk.runningAt.isSome) :
    ∃ s', handlerReturn s = .ok s' ∧ Inv s' xs := by
  obtain ⟨it, ha⟩ := isSome_iff_exists.mp hr
  obtain ⟨e, he⟩ := hiv.rep.exists_entry (hiv.runningAt_mem ha)
  rw [PthreadAtfork.handlerReturn]
  cases hw : s.walk with
  | idle =>
    rw [hw] at ha
    cases ha
  | prepare it running =>
    rw [hw] at ha
    cases running <;> cases ha
    refine ⟨_, ?_, hiv.movePrepare hw he⟩
    dsimp only
    rw [readEntry_of he, ok_bind]
  | after side it running =>
    rw [hw] at ha
    cases running <;> cases ha
    refine ⟨_, ?_, hiv.moveAfter hw he⟩
    dsimp only
    rw [readEntry_of he, ok_bind]

theorem Inv.clone (hwk : s.walk = .prepare 0 false) (side) :
    Inv { s with walk := .after side s.first false } xs := by
  have hw := hiv.walk
  rw [hwk] at hw
  refine hiv.walked hiv.prepareOrder hiv.prepareStart hiv.afterOrder hiv.paired
    ⟨fun h0 => hiv.rep.first ▸ headD_mem (hiv.rep.first ▸ h0), nofun,
      fun p hp hs => hw.covered p hp hs (zero_le _), fun p hp _ hps => ?_, ?_⟩
  · exfalso
    rw [hiv.rep.first] at hps
    cases xs with
    | nil => cases hp
    | cons x xs =>
      rcases hps with hps | hps
      · exact hiv.rep.nonzero (hps ▸ mem_cons_self)
      rcases mem_cons.1 hp with rfl | hp
      · exact Nat.lt_irrefl _ hps
      · exact Nat.lt_asymm hps ((pairwise_cons.1 hiv.sorted).1 p hp)
  · intro i hi
    rw [hw.none] at hi
    cases hi

theorem Inv.step (hen : Enabled s op) :
    ∃ s', step s op = .ok s' ∧ (Settled s op → ∃ xs', Inv s' xs') := by
  cases op with
  | register prepare parent child dso entry =>
    obtain ⟨s', xs', ho, hi'⟩ := hiv.register hen
    exact ⟨s', ho, fun _ => ⟨xs', hi'⟩⟩
  | unregister dso =>
    obtain ⟨s', xs', ho, -, -, hi'⟩ := hiv.unregister hen
    exact ⟨s', ho, fun hs => ⟨xs', hi' hs⟩⟩
  | runPrepare => exact ⟨_, rfl, fun _ => ⟨xs, hiv.runPrepare⟩⟩
  | visit =>
    rcases hen with ⟨it, h0, hw⟩ | ⟨side, it, h0, hw⟩
    · obtain ⟨s', ho, hi'⟩ := hiv.visitPrepare hw h0
      exact ⟨s', ho, fun _ => ⟨xs, hi'⟩⟩
    · obtain ⟨s', ho, hi'⟩ := hiv.visitAfter hw h0
      exact ⟨s', ho, fun hs => ⟨xs, hi' hs⟩⟩
  | handlerReturn =>
    obtain ⟨s', ho, hi'⟩ := hiv.handlerReturn hen
    exact ⟨s', ho, fun _ => ⟨xs, hi'⟩⟩
  | clone side => exact ⟨_, rfl, fun _ => ⟨xs, hiv.clone hen side⟩⟩
  | finish =>
    exact ⟨_, rfl, fun _ => ⟨xs, hiv.walked hiv.prepareOrder hiv.prepareStart hiv.afterOrder
      hiv.paired trivial⟩⟩

end

theorem Inv.of_reachable (h : Reachable Settled s) : ∃ xs, Inv s xs := by
  induction h with
  | initial => exact ⟨[], Inv.initial⟩
  | step _ hen hs hsp ih =>
    obtain ⟨xs, hiv⟩ := ih
    obtain ⟨s', ho, hi'⟩ := hiv.step hen
    cases hsp.symm.trans ho
    exact hi' hs

theorem Inv.sound (hiv : Inv s xs) : Sound s where
  prepareOrder := hiv.prepareOrder
  afterOrder := hiv.afterOrder
  paired := fun v hv => hiv.paired v.id (mem_map_of_mem hv)
  prepareAll := by
    rintro hwk id ⟨p, e, hp, rfl⟩ hl
    have hw := hiv.walk
    rw [hwk] at hw
    rw [← idAt_of hp] at hl ⊢
    exact hw.covered p (hiv.rep.mem hp) hl (zero_le _)
  afterAll := by
    rintro side hwk id hid ⟨p, e, hp, rfl⟩
    have hw := hiv.walk
    rw [hwk] at hw
    have hl := hiv.prepareStart e.id hid
    rw [← idAt_of hp] at hl ⊢
    exact hw.visited p (hiv.rep.mem hp) hl (.inl rfl)

def preparing : State where
  heap := update (fun _ => none) 16 (some ⟨0, 0, some 1, some 3, some 2, 7, 0⟩)
  first := 16
  last := 16
  walk := .prepare 16 true
  registered := 1
  start := 1
  prepared := [⟨0, some 1⟩]
  ran := []

theorem reachable_preparing {P} (hP : ∀ s op, Settled s op → P s op) : Reachable P preparing := by
  have hr : Enabled initial (.register (some 1) (some 2) (some 3) 7 (some 16)) := by
    refine ⟨.inl rfl, fun p hp => ?_⟩
    cases hp
    exact ⟨by decide, rfl⟩
  have hrd := Reachable.initial.step hr (hP _ _ trivial) rfl
  have hie : ∀ s, s.walk = .idle → Enabled s .runPrepare := fun _ h => h
  have hs := hrd.step (hie _ rfl) (hP _ _ trivial) rfl
  have hv : ∀ s, s.walk = .prepare 16 false → Enabled s .visit :=
    fun _ h => .inl ⟨16, by decide, h⟩
  have hse : ∀ s, s.walk = .prepare 16 false → Settled s .visit := by
    intro s hw side it entry h
    cases hw.symm.trans h
  exact hs.step (hv _ rfl) (hP _ _ (hse _ rfl)) rfl

/-- As long as no handler has its own entry unregistered and the walks after `clone` come to no
entry registered during the fork, each fork runs its handlers in order and in pairs, and uses no
freed entry. -/
theorem fork_sound (s : State) (h : Reachable Settled s) :
    Sound s ∧ ∀ op, Enabled s op → ∃ s', step s op = .ok s' := by
  obtain ⟨xs, hiv⟩ := Inv.of_reachable h
  refine ⟨hiv.sound, fun op hen => ?_⟩
  obtain ⟨s', ho, -⟩ := hiv.step hen
  exact ⟨s', ho⟩

/-- A fork with one entry, up to the parent handler. -/
theorem fork_sound_parent : ∃ s, s.walk = .after .parent 16 true ∧
    s.prepared = [⟨0, some 1⟩] ∧ s.ran = [⟨0, some 2⟩] ∧ Sound s := by
  have hr : Enabled preparing .handlerReturn := rfl
  have hrt := (reachable_preparing fun _ _ h => h).step hr trivial rfl
  have hc : ∀ s, s.walk = .prepare 0 false → Enabled s (.clone .parent) := fun _ h => h
  have hco := hrt.step (hc _ rfl) trivial rfl
  have hv : ∀ s, s.walk = .after .parent 16 false → Enabled s .visit :=
    fun _ h => .inr ⟨.parent, 16, by decide, h⟩
  have hs : ∀ s e, s.walk = .after .parent 16 false → s.heap 16 = some e → e.id < s.start →
      Settled s .visit := by
    intro s e hw he hl side it entry h hey
    cases hw.symm.trans h
    cases he.symm.trans hey
    exact hl
  have hvs := hco.step (hv _ rfl) (hs _ _ rfl rfl (by decide)) rfl
  exact ⟨_, rfl, rfl, rfl, (fork_sound _ hvs).1⟩

/-- A prepare handler has its own entry unregistered, and the walk goes on from the freed entry. One
registers another entry, whose parent handler is run though its prepare handler was not. -/
theorem walk_in_place_unsound : (∃ s, Reachable (fun _ _ => True) s ∧ Enabled s .handlerReturn ∧
      step s .handlerReturn = .error .freed) ∧ ∃ s, Reachable (fun _ _ => True) s ∧ ¬Sound s := by
  have hst : Reachable (fun _ _ => True) preparing := reachable_preparing fun _ _ _ => trivial
  have hr : ∀ s, s.walk.runningAt.isSome → Enabled s .handlerReturn := fun _ h => h
  constructor
  · have hu : Enabled preparing (.unregister 7) := .inr rfl
    have hfr := hst.step hu trivial rfl
    exact ⟨_, hfr, hr _ rfl, rfl⟩
  have hrg : Enabled preparing (.register (some 4) (some 5) none 8 (some 32)) := by
    refine ⟨.inr rfl, fun p hp => ?_⟩
    cases hp
    exact ⟨by decide, rfl⟩
  have hrd := hst.step hrg trivial rfl
  have hpe := hrd.step (hr _ rfl) trivial rfl
  have hc : ∀ s, s.walk = .prepare 0 false → Enabled s (.clone .parent) := fun _ h => h
  have hco := hpe.step (hc _ rfl) trivial rfl
  have hv : ∀ s it, it ≠ 0 → s.walk = .after .parent it false → Enabled s .visit :=
    fun _ it h0 h => .inr ⟨.parent, it, h0, h⟩
  have hf := hco.step (hv _ 16 (by decide) rfl) trivial rfl
  have hs := hf.step (hr _ rfl) trivial rfl
  have hl := hs.step (hv _ 32 (by decide) rfl) trivial rfl
  refine ⟨_, hl, fun hsu => ?_⟩
  have hpi := hsu.paired ⟨1, some 5⟩ (by decide)
  exact absurd hpi (by decide)

end PthreadAtfork
