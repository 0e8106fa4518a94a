import Mathlib

/-!
# The environment of a process

`getenv`, `setenv`, `putenv`, `unsetenv` and `clearenv` of `libc/bionic/env.cpp` over a
memory of pointer arrays. `environ` points to an array that may belong to anyone; `old_env` is the
one allocated last, which alone goes to `reallocarray`. An access outside an array or to a freed one
is `none`. Which allocations succeed is part of a call.
-/

namespace Environ

open Option (bind_eq_bind bind_some map_some)
open List Function

abbrev CStr := List UInt8

def equals : UInt8 := 61

/-- `none` is the null pointer. -/
abbrev Slot := Option CStr

structure Process where
  /-- All arrays ever allocated, by address; `none` once freed. -/
  arrays : List (Option (List Slot))
  environ : Option ℕ
  oldEnv : Option ℕ

def Process.array (s : Process) (p : ℕ) : Option (List Slot) := s.arrays[p]?.join

def Process.store (s : Process) (p : ℕ) (slots : List Slot) : Process :=
  { s with arrays := s.arrays.set p (some slots) }

def writeSlot (slots : List Slot) (i : ℕ) (v : Slot) : Option (List Slot) :=
  if i < slots.length then some (slots.set i v) else none

/-- The answer of an allocator, with the contents of the new slots. -/
inductive Realloc where
  | fail
  | inPlace (junk : ℕ → Slot)
  | moved (junk : ℕ → Slot)

def resize (slots : List Slot) (n : ℕ) (junk : ℕ → Slot) : List Slot :=
  (List.range n).map fun i => slots[i]?.getD (junk i)

/-- The new address, or null with nothing changed. -/
def reallocarray (s : Process) (old : Option ℕ) (n : ℕ) (answer : Realloc) :
    Option (Process × Option ℕ) :=
  match old with
  | none =>
    match answer with
    | .fail => some (s, none)
    | .inPlace junk | .moved junk =>
      some ({ s with arrays := s.arrays ++ [some (resize [] n junk)] }, some s.arrays.length)
  | some p => do
    let slots ← s.array p
    match answer with
    | .fail => some (s, none)
    | .inPlace junk => some (s.store p (resize slots n junk), some p)
    | .moved junk =>
      some ({ s with arrays := s.arrays.set p none ++ [some (resize slots n junk)] },
        some s.arrays.length)

/-- `!strncmp(name, entry, name_length) && entry[name_length] == '='`. -/
def assigns (name entry : CStr) : Bool :=
  entry.take name.length == name && entry[name.length]? == some equals

/-- The loop of `__findenv`, at index `i` of the array. -/
def scan (name : CStr) : List Slot → ℕ → Option (Option (ℕ × CStr))
  | [], _ => none
  | none :: _, _ => some none
  | some entry :: rest, i =>
    if assigns name entry then some (some (i, entry.drop (name.length + 1)))
    else scan name rest (i + 1)

def findenv (s : Process) (name : CStr) (offset : ℕ) : Option (Option (ℕ × CStr)) :=
  match s.environ with
  | none => some none
  | some p => do scan name ((← s.array p).drop offset) offset

/-- `strchrnul(str, '=') - str`. -/
def nameLength (str : CStr) : ℕ := (str.takeWhile (· != equals)).length

/-- How `getenv`, `setenv` and `unsetenv` start; `none` is `EINVAL`. -/
def checkName : Option CStr → Option CStr
  | none => none
  | some name =>
    if nameLength name = 0 ∨ name[nameLength name]? = some equals then none else some name

def getenv (s : Process) (name : Option CStr) : Option (Option CStr) :=
  match checkName name with
  | none => some none
  | some name => do some ((← findenv s name 0).map Prod.snd)

def countSlots : List Slot → Option ℕ
  | [] => none
  | none :: _ => some 0
  | some _ :: rest => (countSlots rest).map (· + 1)

/-- The end of `__add_new_environ_slot`. -/
def installEnviron (s : Process) (newEnv oldSize : ℕ) : Option (Process × ℕ) := do
  let slots ← writeSlot (← s.array newEnv) oldSize none
  let slots ← writeSlot slots (oldSize + 1) none
  some ({ s.store newEnv slots with environ := some newEnv, oldEnv := some newEnv }, oldSize)

/-- `false` is the inner `none`. -/
def addNewEnvironSlot (s : Process) (answer : Realloc) : Option (Option (Process × ℕ)) := do
  let oldSize ← match s.environ with
    | none => some 0
    | some p => do countSlots (← s.array p)
  match ← reallocarray s s.oldEnv (oldSize + 2) answer with
  | (_, none) => some none
  | (s, some newEnv) =>
    let s ← match s.environ with
      | none => some s
      | some p =>
        if s.oldEnv = s.environ then some s
        else do
          let copied := (← s.array p).take oldSize
          some (s.store newEnv (copied ++ (← s.array newEnv).drop oldSize))
    some (← installEnviron s newEnv oldSize)

/-- `environ[offset] = str; return str ? 0 : -1`. -/
def putSlot (s : Process) (offset : ℕ) (str : Slot) : Option (Process × ℤ) := do
  let p ← s.environ
  let slots ← writeSlot (← s.array p) offset str
  some (s.store p slots, if str.isSome then 0 else -1)

/-- The string of `string_maker`, which does not touch `environ`, is an argument. -/
def updateEnviron (s : Process) (name : CStr) (overwrite : Bool) (answer : Realloc)
    (str : Slot) : Option (Process × ℤ) := do
  match ← findenv s name 0 with
  | some (offset, _) => if overwrite then putSlot s offset str else some (s, 0)
  | none =>
    match ← addNewEnvironSlot s answer with
    | none => some (s, -1)
    | some (s, offset) => putSlot s offset str

def putenv (s : Process) (str : Option CStr) (answer : Realloc) : Option (Process × ℤ) :=
  match str with
  | none => some (s, -1)
  | some str =>
    if nameLength str = 0 ∨ str[nameLength str]? ≠ some equals then some (s, -1)
    else updateEnviron s (str.take (nameLength str)) true answer (some str)

/-- `string` says whether the `malloc` of the string succeeds. -/
def setenv (s : Process) (name : Option CStr) (value : CStr) (overwrite : Bool)
    (answer : Realloc) (string : Bool) : Option (Process × ℤ) :=
  match checkName name with
  | none => some (s, -1)
  | some name =>
    updateEnviron s name overwrite answer (if string then some (name ++ equals :: value) else none)

/-- The inner loop of `unsetenv`. -/
def shiftDown : List Slot → Option (List Slot)
  | _ :: none :: rest => some (none :: none :: rest)
  | _ :: some entry :: rest => (shiftDown (some entry :: rest)).map (some entry :: ·)
  | _ => none

/-- The outer loop of `unsetenv`, in at most so many rounds. -/
def unsetLoop : ℕ → Process → CStr → ℕ → Option Process
  | 0, _, _, _ => none
  | rounds + 1, s, name, offset => do
    match ← findenv s name offset with
    | none => some s
    | some (offset, _) =>
      let p ← s.environ
      let slots ← s.array p
      let shifted ← shiftDown (slots.drop offset)
      unsetLoop rounds (s.store p (slots.take offset ++ shifted)) name offset

def unsetenv (s : Process) (name : Option CStr) : Option (Process × ℤ) :=
  match checkName name with
  | none => some (s, -1)
  | some name => do
    let rounds := match s.environ with
      | none => 0
      | some p => ((s.array p).getD []).length
    some (← unsetLoop (rounds + 1) s name 0, 0)

def clearSlots : List Slot → Option (List Slot)
  | [] => none
  | none :: rest => some (none :: rest)
  | some _ :: rest => (clearSlots rest).map (none :: ·)

def clearenv (s : Process) : Option (Process × ℤ) :=
  match s.environ with
  | none => some ({ s with environ := none }, 0)
  | some p => do
    let slots ← clearSlots (← s.array p)
    some ({ s.store p slots with environ := none }, 0)

def Valid (name : CStr) : Prop := name ≠ [] ∧ equals ∉ name

instance (name : CStr) : Decidable (Valid name) :=
  inferInstanceAs (Decidable (_ ∧ _))

variable {entry other value : CStr} {call : Call} {entries' : List CStr}
  {front rest slots tail : List Slot} {answer : Realloc} {q : ℕ} {ret : ℤ} {name : CStr}

theorem assigns_iff : assigns name entry ↔ ∃ value, entry = name ++ equals :: value := by
  simp only [assigns, Bool.and_eq_true, beq_iff_eq]
  constructor
  · rintro ⟨hn, heu⟩
    obtain ⟨hl, hg⟩ := List.getElem?_eq_some_iff.mp heu
    refine ⟨entry.drop (name.length + 1), ?_⟩
    have hs := take_append_drop name.length entry
    rw [hn, drop_eq_getElem_cons hl, hg] at hs
    exact hs.symm
  · rintro ⟨value, rfl⟩
    exact ⟨take_left, by simp⟩

theorem takeWhile_assignment (h : equals ∉ name) (value : CStr) :
    (name ++ equals :: value).takeWhile (· != equals) = name := by
  rw [takeWhile_append_of_pos]
  · simp
  intro c hc
  rw [bne_iff_ne]
  rintro rfl
  exact h hc

theorem nameLength_assignment (h : equals ∉ name) (value : CStr) :
    nameLength (name ++ equals :: value) = name.length := by
  rw [nameLength, takeWhile_assignment h]

theorem nameLength_of_not_mem (h : equals ∉ name) : nameLength name = name.length := by
  have ha : ∀ c ∈ name, (c != equals) = true := by
    intro c hc
    rw [bne_iff_ne]
    rintro rfl
    exact h hc
  rw [nameLength, List.takeWhile_eq_self_iff.mpr ha]

theorem nameLength_spec {str} (h : equals ∈ str) :
    ∃ name value, str = name ++ equals :: value ∧ equals ∉ name ∧ nameLength str = name.length := by
  obtain ⟨name, value, rfl, hn⟩ := eq_append_cons_of_mem h
  exact ⟨name, value, rfl, hn, nameLength_assignment hn value⟩

theorem checkName_of_valid (h : Valid name) : checkName (some name) = some name := by
  have hl := nameLength_of_not_mem h.2
  have hp : name.length ≠ 0 := fun h0 => h.1 (List.length_eq_zero_iff.mp h0)
  have hed : name[name.length]? = none := List.getElem?_eq_none le_rfl
  simp only [checkName, hl, hp, hed, reduceCtorEq, or_self, if_false]

theorem checkName_of_not_valid (h : ¬Valid name) : checkName (some name) = none := by
  by_cases hm : equals ∈ name
  · obtain ⟨front, value, rfl, -, hl⟩ := nameLength_spec hm
    simp [checkName, hl]
  have hn : name = [] := by
    by_contra hne
    exact h ⟨hne, hm⟩
  rw [hn]
  rfl

theorem checkName_eq_some {name name'} (h : checkName name = some name') :
    name = some name' ∧ Valid name' := by
  cases name with
  | none => cases h
  | some name =>
    by_cases hn : Valid name
    · rw [checkName_of_valid hn] at h
      cases h
      exact ⟨rfl, hn⟩
    · rw [checkName_of_not_valid hn] at h
      cases h

theorem assigns_unique (hn : equals ∉ name) (ho : equals ∉ other)
    (h : assigns name entry) (h' : assigns other entry) : name = other := by
  obtain ⟨value, rfl⟩ := assigns_iff.mp h
  obtain ⟨value', heq⟩ := assigns_iff.mp h'
  rw [← takeWhile_assignment hn value, heq, takeWhile_assignment ho]

def lookup (entries : List CStr) (name : CStr) : Option CStr :=
  (entries.find? (assigns name)).map (·.drop (name.length + 1))

variable {entries : List CStr}

theorem lookup_eq_none_iff :
    lookup entries name = none ↔ ∀ entry ∈ entries, assigns name entry = false := by
  simp [lookup]

theorem exists_first_assignment (h : lookup entries name ≠ none) :
    ∃ before value after, entries = before ++ (name ++ equals :: value) :: after ∧
      ∀ entry ∈ before, assigns name entry = false := by
  obtain ⟨found, hf⟩ := Option.ne_none_iff_exists'.mp h
  obtain ⟨entry, hfd, -⟩ := Option.map_eq_some_iff.mp hf
  obtain ⟨ha, before, after, hs, hb⟩ := find?_eq_some_iff_append.mp hfd
  obtain ⟨value, rfl⟩ := assigns_iff.mp ha
  exact ⟨before, value, after, hs, fun e he => by simpa using hb e he⟩

theorem assigns_self (name value : CStr) : assigns name (name ++ equals :: value) :=
  assigns_iff.mpr ⟨value, rfl⟩

variable {before after : List CStr}

theorem lookup_at_first (h : ∀ entry ∈ before, assigns name entry = false) :
    lookup (before ++ (name ++ equals :: value) :: after) name = some value := by
  have hn : before.find? (assigns name) = none := by simpa using h
  simp [lookup, find?_append, hn, assigns_self]

theorem lookup_cons_of_not_assigns (h : assigns name entry = false)
    (entries) : lookup (entry :: entries) name = lookup entries name := by
  simp [lookup, h]

theorem lookup_cons_of_assigns (h : assigns name entry) (entries) :
    lookup (entry :: entries) name = some (entry.drop (name.length + 1)) := by
  simp [lookup, h]

theorem lookup_append_cons (h : assigns name entry = false) (before after) :
    lookup (before ++ entry :: after) name = lookup (before ++ after) name := by
  simp [lookup, find?_append, h]

theorem not_assigns_of_ne (hn : equals ∉ name)
    (ho : equals ∉ other) (hne : other ≠ name) (h : assigns name entry) :
    assigns other entry = false := by
  rw [Bool.eq_false_iff]
  intro hon
  exact hne (assigns_unique ho hn hon h)

/-- The entries of `environ`, and the array to reallocate is alive. -/
structure Holds (s : Process) (entries : List CStr) : Prop where
  null : s.environ = none → entries = []
  terminated : ∀ p, s.environ = some p → ∃ tail, s.array p = some (entries.map some ++ none :: tail)
  oldEnv : ∀ p, s.oldEnv = some p → ∃ slots, s.array p = some slots

theorem scan_no_assignment (h : ∀ entry ∈ entries, assigns name entry = false) (i) :
    scan name (entries.map some ++ none :: tail) i = some none := by
  induction entries generalizing i with
  | nil => rfl
  | cons entry entries ih =>
    have hey := h entry mem_cons_self
    simp only [map_cons, cons_append, scan, hey]
    exact ih (fun e he => h e (mem_cons_of_mem _ he)) (i + 1)

theorem scan_first_assignment (h : ∀ entry ∈ before, assigns name entry = false) (i) :
    scan name ((before ++ (name ++ equals :: value) :: after).map some ++ none :: tail) i =
      some (some (i + before.length, value)) := by
  induction before generalizing i with
  | nil => simp [scan, assigns_self]
  | cons entry before ih =>
    have hey := h entry mem_cons_self
    simp only [cons_append, map_cons, scan, hey]
    have hr := ih (fun e he => h e (mem_cons_of_mem _ he)) (i + 1)
    rw [length_cons, ← Nat.add_assoc, Nat.add_right_comm]
    exact hr

variable {s : Process}

theorem Holds.findenv_none (passed)
    (h : Holds s (passed ++ entries)) (hn : ∀ entry ∈ entries, assigns name entry = false) :
    findenv s name passed.length = some none := by
  unfold findenv
  split
  · rfl
  rename_i p hp
  obtain ⟨tail, ha⟩ := h.terminated p hp
  rw [ha]
  have hd : ((passed ++ entries).map some ++ none :: tail).drop passed.length =
      entries.map some ++ none :: tail := by simp
  simp only [bind_eq_bind, bind_some, hd]
  exact scan_no_assignment hn _

theorem Holds.findenv_some (passed)
    (h : Holds s (passed ++ (before ++ (name ++ equals :: value) :: after)))
    (hb : ∀ entry ∈ before, assigns name entry = false) :
    findenv s name passed.length = some (some (passed.length + before.length, value)) := by
  unfold findenv
  split
  · rename_i hn
    simpa using h.null hn
  rename_i p hp
  obtain ⟨tail, ha⟩ := h.terminated p hp
  rw [ha]
  have hd : ((passed ++ (before ++ (name ++ equals :: value) :: after)).map some ++
      none :: tail).drop passed.length =
      (before ++ (name ++ equals :: value) :: after).map some ++ none :: tail := by simp
  simp only [bind_eq_bind, bind_some, hd]
  exact scan_first_assignment hb _

variable {p : ℕ}

theorem Process.array_lt (h : s.array p = some slots) : p < s.arrays.length := by
  by_contra hl
  rw [Process.array, List.getElem?_eq_none (not_lt.mp hl)] at h
  cases h

theorem Process.array_store_self (h : p < s.arrays.length)
    (slots) : (s.store p slots).array p = some slots := by
  simp [Process.array, Process.store, h]

theorem Process.array_store_ne (h : q ≠ p) (slots) : (s.store p slots).array q = s.array q := by
  simp [Process.array, Process.store, List.getElem?_set_ne h.symm]

theorem Process.array_store_live {old}
    (hq : s.array q = some old) : ∃ new, (s.store p slots).array q = some new := by
  by_cases h : q = p
  · subst h
    exact ⟨slots, Process.array_store_self (Process.array_lt hq) slots⟩
  · exact ⟨old, by rw [Process.array_store_ne h, hq]⟩

theorem Holds.store (h : Holds s entries) (hp : s.environ = some p) (entries' tail) :
    Holds (s.store p (entries'.map some ++ none :: tail)) entries' := by
  obtain ⟨old, ho⟩ := h.terminated p hp
  constructor
  · intro hn
    rw [show s.environ = none from hn] at hp
    cases hp
  · intro q hq
    cases hp.symm.trans hq
    exact ⟨tail, Process.array_store_self (Process.array_lt ho) _⟩
  · intro q hq
    obtain ⟨slots, hs⟩ := h.oldEnv q hq
    exact Process.array_store_live hs

theorem Holds.exists_environ (h : Holds s entries)
    (hn : entries ≠ []) : ∃ p, s.environ = some p := by
  cases hev : s.environ with
  | none => exact absurd (h.null hev) hn
  | some p => exact ⟨p, rfl⟩

theorem getenv_of_valid (h : Holds s entries)
    (hnm : Valid name) : getenv s (some name) = some (lookup entries name) := by
  simp only [getenv, checkName_of_valid hnm]
  by_cases hn : lookup entries name = none
  · have hf := Holds.findenv_none [] h (lookup_eq_none_iff.mp hn)
    rw [length_nil] at hf
    rw [hf, hn]
    rfl
  · obtain ⟨before, value, after, rfl, hb⟩ := exists_first_assignment hn
    have hf := Holds.findenv_some [] h hb
    rw [length_nil] at hf
    rw [hf, lookup_at_first hb]
    rfl

theorem getenv_of_not_valid (s) (hn : ¬Valid name) : getenv s (some name) = some none := by
  simp only [getenv, checkName_of_not_valid hn]

theorem countSlots_spec (entries : List CStr) (tail) :
    countSlots (entries.map some ++ none :: tail) = some entries.length := by
  induction entries with
  | nil => rfl
  | cons entry entries ih => simp only [map_cons, cons_append, countSlots, ih,
      map_some, length_cons]

theorem length_resize (slots n) (junk : ℕ → Slot) : (resize slots n junk).length = n := by
  simp [resize]

/-- A successful `reallocarray` of the functions' own array: the new size, the same slots in front,
and all other arrays as they were. -/
structure Grown (s : Process) (n : ℕ) (s' : Process) (q : ℕ) (slots : List Slot) : Prop where
  environ : s'.environ = s.environ
  oldEnv : s'.oldEnv = s.oldEnv
  array : s'.array q = some slots
  length : slots.length = n
  front : ∀ p front rest, s.oldEnv = some p → s.array p = some (front ++ rest) →
    front.length ≤ n → slots.take front.length = front
  others : ∀ p old, s.array p = some old → s.oldEnv ≠ some p → p ≠ q ∧ s'.array p = some old

theorem Grown.appended {n arrays}
    (hl : arrays.length = s.arrays.length) (hs : slots.length = n)
    (hf : ∀ p front rest, s.oldEnv = some p → s.array p = some (front ++ rest) →
      front.length ≤ n → slots.take front.length = front)
    (ho : ∀ p, s.oldEnv ≠ some p → arrays[p]? = s.arrays[p]?) :
    Grown s n { s with arrays := arrays ++ [some slots] } s.arrays.length slots := by
  refine ⟨rfl, rfl, ?_, hs, hf, ?_⟩
  · simp [Process.array, ← hl]
  intro p old hp hn
  have hlt := Process.array_lt hp
  refine ⟨ne_of_lt hlt, ?_⟩
  rw [Process.array, List.getElem?_append_left (hl ▸ hlt), ho p hn]
  exact hp

theorem reallocarray_grown (h : Holds s entries) (n) (ha : answer ≠ .fail) :
    ∃ s' q slots, reallocarray s s.oldEnv n answer = some (s', some q) ∧ Grown s n s' q slots := by
  cases ho : s.oldEnv with
  | none =>
    have hn : ∀ junk, Grown s n { s with arrays := s.arrays ++ [some (resize [] n junk)] }
        s.arrays.length (resize [] n junk) := by
      intro junk
      apply Grown.appended rfl (length_resize _ _ _)
      · intro p _ _ hp
        rw [ho] at hp
        cases hp
      · intro p _
        rfl
    cases answer with
    | fail => exact absurd rfl ha
    | inPlace junk | moved junk => exact ⟨_, _, _, rfl, hn junk⟩
  | some p =>
    obtain ⟨old, hp⟩ := h.oldEnv p ho
    have hf : ∀ junk q front rest, s.oldEnv = some q → s.array q = some (front ++ rest) →
        front.length ≤ n → (resize old n junk).take front.length = front := by
      intro junk q front rest hq hs hl
      cases ho.symm.trans hq
      cases hp.symm.trans hs
      apply ext_getElem?
      intro i
      by_cases hi : i < front.length
      · rw [List.getElem?_take_of_lt hi]
        simp [resize, List.getElem?_append_left hi, List.getElem?_eq_getElem hi,
          lt_of_lt_of_le hi hl]
      · rw [List.getElem?_eq_none (by simp; omega), List.getElem?_eq_none (by omega)]
    cases answer with
    | fail => exact absurd rfl ha
    | inPlace junk =>
      refine ⟨s.store p (resize old n junk), p, resize old n junk, ?_, rfl, rfl, ?_, ?_, ?_, ?_⟩
      · simp only [reallocarray, hp, bind_eq_bind, bind_some]
      · exact Process.array_store_self (Process.array_lt hp) _
      · exact length_resize _ _ _
      · exact hf junk
      · intro q slots hq hne
        have hqp : q ≠ p := fun heq => hne (heq ▸ ho)
        exact ⟨hqp, by rw [Process.array_store_ne hqp, hq]⟩
    | moved junk =>
      refine ⟨{ s with arrays := s.arrays.set p none ++ [some (resize old n junk)] },
        s.arrays.length, resize old n junk, ?_, ?_⟩
      · simp only [reallocarray, hp, bind_eq_bind, bind_some]
      apply Grown.appended (length_set ..) (length_resize _ _ _) (hf junk)
      intro q hne
      have hpq : p ≠ q := fun heq => hne (heq ▸ ho)
      rw [List.getElem?_set_ne hpq]

theorem write_two_nulls (hl : slots.length = front.length + 2)
    (ht : slots.take front.length = front) :
    writeSlot slots front.length none = some (slots.set front.length none) ∧
      writeSlot (slots.set front.length none) (front.length + 1) none =
        some (front ++ [none, none]) := by
  obtain ⟨a, b, ha⟩ : ∃ a b, slots.drop front.length = [a, b] := by
    have : (slots.drop front.length).length = 2 := by simp [hl]
    exact List.length_eq_two.mp this
  have hs : slots = front ++ [a, b] := by
    rw [← ha]
    nth_rewrite 1 [← take_append_drop front.length slots]
    rw [ht]
  subst hs
  constructor
  · simp [writeSlot]
  · simp [writeSlot]

theorem installEnviron_spec (ha : s.array q = some slots) (hl : slots.length = front.length + 2)
    (ht : slots.take front.length = front) :
    ∃ s', installEnviron s q front.length = some (s', front.length) ∧
      s'.environ = some q ∧ s'.oldEnv = some q ∧ s'.array q = some (front ++ [none, none]) := by
  obtain ⟨hf, hs⟩ := write_two_nulls hl ht
  refine ⟨{ s.store q (front ++ [none, none]) with environ := some q, oldEnv := some q }, ?_,
    rfl, rfl, Process.array_store_self (Process.array_lt ha) _⟩
  simp only [installEnviron, ha, hf, hs, bind_eq_bind, bind_some]

theorem addNewEnvironSlot_spec (h : Holds s entries) (han : answer ≠ .fail) :
    ∃ s' p, addNewEnvironSlot s answer = some (some (s', entries.length)) ∧
      s'.environ = some p ∧ s'.oldEnv = some p ∧
      s'.array p = some (entries.map some ++ [none, none]) := by
  obtain ⟨s1, q, slots, hr, hg⟩ := reallocarray_grown h (entries.length + 2) han
  have hq : q < s1.arrays.length := Process.array_lt hg.array
  have hm : (entries.map some : List Slot).length = entries.length := length_map _
  have hl := hg.length
  rw [← hm] at hl
  cases hev : s.environ with
  | none =>
    have hep := h.null hev
    subst hep
    obtain ⟨s', hin, hs'⟩ := installEnviron_spec hg.array hl (take_zero)
    refine ⟨s', q, ?_, hs'⟩
    simp only [map_nil, length_nil] at hin hr ⊢
    simp only [addNewEnvironSlot, hev, hr, hg.environ, hin, bind_eq_bind, bind_some]
  | some p =>
    obtain ⟨tail, ha⟩ := h.terminated p hev
    by_cases ho : s.oldEnv = some p
    · have ht := hg.front p _ _ ho ha (by rw [hm]; omega)
      obtain ⟨s', hin, hs'⟩ := installEnviron_spec hg.array hl ht
      rw [hm] at hin
      rw [ho] at hr
      refine ⟨s', q, ?_, hs'⟩
      simp only [addNewEnvironSlot, hev, ha, countSlots_spec, hr, hg.environ,
        hg.oldEnv, ho, hin, bind_eq_bind, bind_some, if_true]
    · obtain ⟨hp, hk⟩ := hg.others p _ ha ho
      have ht : (entries.map some ++ none :: tail).take entries.length = entries.map some := by
        rw [← hm, take_left]
      obtain ⟨s', hin, hs'⟩ := installEnviron_spec
        (Process.array_store_self hq (entries.map some ++ slots.drop entries.length))
        (by simp [hg.length]) take_left
      rw [hm] at hin
      refine ⟨s', q, ?_, hs'⟩
      simp only [addNewEnvironSlot, hev, ha, countSlots_spec, hr, hg.environ,
        hg.oldEnv, ho, hk, hg.array, ht, hin, bind_eq_bind,
        bind_some, if_false]

theorem addNewEnvironSlot_fail (h : Holds s entries) : addNewEnvironSlot s .fail = some none := by
  have hr : ∀ n, reallocarray s s.oldEnv n .fail = some (s, none) := by
    intro n
    cases ho : s.oldEnv with
    | none => rfl
    | some p =>
      obtain ⟨slots, hs⟩ := h.oldEnv p ho
      simp only [reallocarray, hs, bind_eq_bind, bind_some]
  cases hev : s.environ with
  | none => simp only [addNewEnvironSlot, hev, hr, bind_eq_bind, bind_some]
  | some p =>
    obtain ⟨tail, ha⟩ := h.terminated p hev
    simp only [addNewEnvironSlot, hev, ha, countSlots_spec, hr, bind_eq_bind, bind_some]

theorem putSlot_spec (hp : s.environ = some p)
    {old} (ha : s.array p = some (front ++ old :: rest)) (str) : putSlot s front.length str =
      some (s.store p (front ++ str :: rest), if str.isSome then 0 else -1) := by
  simp only [putSlot, hp, ha, writeSlot, bind_eq_bind, bind_some]
  simp

inductive UpdateEffect (name : CStr) (overwrite : Bool) (str : Slot) (entries : List CStr) :
    List CStr → ℤ → Prop where
  | kept : lookup entries name ≠ none → overwrite = false →
      UpdateEffect name overwrite str entries entries 0
  | replaced (before after : List CStr) (value new : CStr) :
      entries = before ++ (name ++ equals :: value) :: after →
      (∀ entry ∈ before, assigns name entry = false) → overwrite → str = some new →
      UpdateEffect name overwrite str entries (before ++ new :: after) 0
  /-- The null pointer is written over an entry: it and all behind it are gone. -/
  | truncated (before after : List CStr) (value : CStr) :
      entries = before ++ (name ++ equals :: value) :: after →
      (∀ entry ∈ before, assigns name entry = false) → overwrite → str = none →
      UpdateEffect name overwrite str entries before (-1)
  | added (new : CStr) : lookup entries name = none → str = some new →
      UpdateEffect name overwrite str entries (entries ++ [new]) 0
  | failed : lookup entries name = none → UpdateEffect name overwrite str entries entries (-1)

theorem Holds.overwrite (h : Holds s (before ++ entry :: after)) (str : Slot) :
    ∃ s', putSlot s before.length str = some (s', if str.isSome then 0 else -1) ∧
      Holds s' (match str with
        | some new => before ++ new :: after
        | none => before) := by
  obtain ⟨p, hp⟩ := h.exists_environ (by simp)
  obtain ⟨tail, ha⟩ := h.terminated p hp
  have hs : (before ++ entry :: after).map some ++ none :: tail =
      before.map some ++ some entry :: (after.map some ++ none :: tail) := by simp
  rw [hs] at ha
  have hpt := putSlot_spec hp ha str
  rw [length_map] at hpt
  refine ⟨_, hpt, ?_⟩
  cases str with
  | some new =>
    have hso := h.store hp (before ++ new :: after) tail
    simpa using hso
  | none => exact h.store hp before _

theorem Holds.fill (hp : s.environ = some p)
    (ho : s.oldEnv = some p) (ha : s.array p = some (entries.map some ++ [none, none]))
    (str : Slot) : ∃ s', putSlot s entries.length str = some (s', if str.isSome then 0 else -1) ∧
      Holds s' (entries ++ str.toList) := by
  have h : Holds s entries := by
    constructor
    · intro hn
      rw [hp] at hn
      cases hn
    · intro q hq
      cases hp.symm.trans hq
      exact ⟨[none], ha⟩
    · intro q hq
      cases ho.symm.trans hq
      exact ⟨_, ha⟩
  have hpt := putSlot_spec hp ha str
  rw [length_map] at hpt
  refine ⟨_, hpt, ?_⟩
  cases str with
  | some new =>
    have hs := h.store hp (entries ++ [new]) []
    simpa using hs
  | none =>
    have hs := h.store hp entries [none]
    simpa using hs

theorem updateEnviron_effect (h : Holds s entries) (name : CStr) (overwrite answer) (str : Slot) :
    ∃ s' ret entries', updateEnviron s name overwrite answer str = some (s', ret) ∧
      Holds s' entries' ∧ UpdateEffect name overwrite str entries entries' ret := by
  by_cases hn : lookup entries name = none
  · have hf := Holds.findenv_none [] h (lookup_eq_none_iff.mp hn)
    rw [length_nil] at hf
    by_cases ha : answer = .fail
    · subst ha
      refine ⟨s, -1, entries, ?_, h, .failed hn⟩
      simp only [updateEnviron, hf, addNewEnvironSlot_fail h, bind_eq_bind, bind_some]
    obtain ⟨s1, p, had, hp, ho, har⟩ := addNewEnvironSlot_spec h ha
    obtain ⟨s', hpt, hs'⟩ := Holds.fill hp ho har str
    refine ⟨s', if str.isSome then 0 else -1, _, ?_, hs', ?_⟩
    · simp only [updateEnviron, hf, had, hpt, bind_eq_bind, bind_some]
    cases str with
    | some new => exact .added new hn rfl
    | none => simpa using UpdateEffect.failed hn
  · obtain ⟨before, value, after, hs, hb⟩ := exists_first_assignment hn
    subst hs
    have hf := Holds.findenv_some [] h hb
    rw [length_nil, Nat.zero_add] at hf
    cases overwrite with
    | false =>
      refine ⟨s, 0, _, ?_, h, .kept hn rfl⟩
      simp only [updateEnviron, hf, bind_eq_bind, bind_some, Bool.false_eq_true, if_false]
    | true =>
      obtain ⟨s', hpt, hs'⟩ := h.overwrite str
      refine ⟨s', if str.isSome then 0 else -1, _, ?_, hs', ?_⟩
      · simp only [updateEnviron, hf, hpt, bind_eq_bind, bind_some, if_true]
      cases str with
      | some new => exact .replaced before after value new rfl hb rfl rfl
      | none => exact .truncated before after value rfl hb rfl rfl

theorem shiftDown_spec (entry : CStr) (entries tail) :
    shiftDown ((entry :: entries).map some ++ none :: tail) =
      some (entries.map some ++ none :: none :: tail) := by
  induction entries generalizing entry with
  | nil => rfl
  | cons next entries ih =>
    have hn := ih next
    simp only [map_cons, cons_append] at hn ⊢
    simp only [shiftDown, hn, map_some]

theorem unsetLoop_spec (passed : List CStr) (name : CStr)
    (h : Holds s (passed ++ entries)) {rounds} (hr : entries.length < rounds) :
    ∃ s', unsetLoop rounds s name passed.length = some s' ∧
      Holds s' (passed ++ entries.filter fun e => !assigns name e) := by
  induction rounds generalizing s passed entries with
  | zero => omega
  | succ rounds ih =>
    by_cases hn : lookup entries name = none
    · have hno := lookup_eq_none_iff.mp hn
      refine ⟨s, ?_, ?_⟩
      · simp only [unsetLoop, h.findenv_none passed hno, bind_eq_bind, bind_some]
      · rw [List.filter_eq_self.mpr fun e he => by rw [hno e he]; rfl]
        exact h
    obtain ⟨before, value, after, hsl, hb⟩ := exists_first_assignment hn
    subst hsl
    obtain ⟨p, hp⟩ := h.exists_environ (by simp)
    obtain ⟨tail, ha⟩ := h.terminated p hp
    have hfd := h.findenv_some passed hb
    rw [← length_append] at hfd
    have hss : (passed ++ (before ++ (name ++ equals :: value) :: after)).map some ++
        none :: tail = (passed ++ before).map some ++
          (((name ++ equals :: value) :: after).map some ++ none :: tail) := by simp
    rw [hss] at ha
    have hl : ((passed ++ before).map some : List Slot).length = (passed ++ before).length :=
      length_map _
    have hnx : Holds (s.store p ((passed ++ before).map some ++
        (after.map some ++ none :: none :: tail))) ((passed ++ before) ++ after) := by
      have hs := h.store hp ((passed ++ before) ++ after) (none :: tail)
      rw [map_append, append_assoc] at hs
      exact hs
    obtain ⟨s', hs', hh⟩ := ih (passed ++ before) hnx (by simp at hr; omega)
    refine ⟨s', ?_, ?_⟩
    · simp only [unsetLoop, hfd, hp, ha, bind_eq_bind, bind_some]
      rw [← hl, drop_left, take_left, shiftDown_spec, bind_some, hl]
      exact hs'
    have hf : (before ++ (name ++ equals :: value) :: after).filter
        (fun e => !assigns name e) = before ++ after.filter fun e => !assigns name e := by
      rw [filter_append, List.filter_eq_self.mpr fun e he => by rw [hb e he]; rfl,
        filter_cons_of_neg (by simp [assigns_self])]
    rw [hf, ← append_assoc]
    exact hh

theorem unsetenv_spec (h : Holds s entries) (hn : Valid name) :
    ∃ s', unsetenv s (some name) = some (s', 0) ∧
      Holds s' (entries.filter fun e => !assigns name e) := by
  obtain ⟨rounds, hr, hl⟩ : ∃ rounds, (match s.environ with
      | none => 0
      | some p => ((s.array p).getD []).length) = rounds ∧ entries.length ≤ rounds := by
    refine ⟨_, rfl, ?_⟩
    split
    · rename_i hnl
      rw [h.null hnl, length_nil]
    rename_i p hp
    obtain ⟨tail, ha⟩ := h.terminated p hp
    simp [ha]
  obtain ⟨s', hs', hh⟩ :=
    unsetLoop_spec [] name h (Nat.lt_succ_of_le hl)
  refine ⟨s', ?_, hh⟩
  simp only [unsetenv, checkName_of_valid hn, hr]
  rw [length_nil] at hs'
  rw [hs']
  rfl

theorem clearSlots_spec (entries : List CStr) (tail) :
    ∃ slots, clearSlots (entries.map some ++ none :: tail) = some slots := by
  induction entries with
  | nil => exact ⟨_, rfl⟩
  | cons entry entries ih =>
    obtain ⟨slots, hs⟩ := ih
    refine ⟨none :: slots, ?_⟩
    simp only [map_cons, cons_append, clearSlots, hs, map_some]

theorem clearenv_spec (h : Holds s entries) : ∃ s', clearenv s = some (s', 0) ∧ Holds s' [] := by
  cases hev : s.environ with
  | none =>
    refine ⟨{ s with environ := none }, by simp only [clearenv, hev], fun _ => rfl, ?_, h.oldEnv⟩
    intro p hp
    cases hp
  | some p =>
    obtain ⟨tail, ha⟩ := h.terminated p hev
    obtain ⟨slots, hs⟩ := clearSlots_spec entries tail
    refine ⟨{ s.store p slots with environ := none }, ?_, fun _ => rfl, ?_, ?_⟩
    · simp only [clearenv, hev, ha, hs, bind_eq_bind, bind_some]
    · intro q hq
      cases hq
    intro q hq
    obtain ⟨old, ho⟩ := h.oldEnv q hq
    exact Process.array_store_live ho

inductive Call where
  | setenv (name : Option CStr) (value : CStr) (overwrite : Bool) (answer : Realloc)
      (string : Bool)
  | putenv (str : Option CStr) (answer : Realloc)
  | unsetenv (name : Option CStr)
  | clearenv

def step (s : Process) : Call → Option (Process × ℤ)
  | .setenv name value overwrite answer string =>
    Environ.setenv s name value overwrite answer string
  | .putenv str answer => Environ.putenv s str answer
  | .unsetenv name => Environ.unsetenv s name
  | .clearenv => Environ.clearenv s

def run (s : Process) : List Call → Option Process
  | [] => some s
  | call :: calls => do
    let (s, _) ← step s call
    run s calls

/-- `environ` is null or a null-terminated array, whoever made it. -/
def Terminated (s : Process) : Prop := ∃ entries, Holds s entries

def strings (s : Process) : Option (List CStr) :=
  match s.environ with
  | none => some []
  | some p => do some (((← s.array p).takeWhile Option.isSome).filterMap id)

structure Reads (s : Process) (env : CStr → Option CStr) : Prop where
  getenv : ∀ name, getenv s (some name) = some (env name)
  finite : {name | env name ≠ none}.Finite

def Intended (env env' : CStr → Option CStr) (ret : ℤ) : Call → Prop
  | .setenv name value overwrite _ _ =>
    ret = 0 ∧ (∃ name', name = some name' ∧
      env' = if overwrite ∨ env name' = none then update env name' (some value)
        else env) ∨
    ret = -1 ∧ env' = env
  | .putenv str _ =>
    ret = 0 ∧ (∃ name value, str = some (name ++ equals :: value) ∧ equals ∉ name ∧
      env' = update env name (some value)) ∨
    ret = -1 ∧ env' = env
  | .unsetenv name =>
    ret = 0 ∧ (∃ name', name = some name' ∧ env' = update env name' none) ∨
    ret = -1 ∧ env' = env
  | .clearenv => ret = 0 ∧ env' = fun _ => none

def OnlyAssignments (s s' : Process) (ret : ℤ) : Call → Prop
  | .unsetenv (some name) => ret = 0 →
    ∃ entries, strings s = some entries ∧
      strings s' = some (entries.filter fun e => !assigns name e)
  | _ => True

def Refines (s s' : Process) (ret : ℤ) (call : Call) : Prop :=
  ∃ env env', Reads s env ∧ Reads s' env' ∧ Intended env env' ret call ∧
    OnlyAssignments s s' ret call

/-- A `setenv` of an existing name that gets no memory for its string. -/
def OverwritesWithoutString (s : Process) : Call → Prop
  | .setenv name _ overwrite _ string =>
    overwrite ∧ string = false ∧ ∃ value, getenv s name = some (some value)
  | _ => False

def valueOf (entries : List CStr) (name : CStr) : Option CStr :=
  if Valid name then lookup entries name else none

theorem Holds.reads (h : Holds s entries) : Reads s (valueOf entries) := by
  constructor
  · intro name
    by_cases hn : Valid name
    · rw [getenv_of_valid h hn, valueOf, if_pos hn]
    · rw [getenv_of_not_valid s hn, valueOf, if_neg hn]
  apply Set.Finite.subset (entries.map (·.takeWhile (· != equals))).finite_toSet
  intro name hv
  have hn : Valid name := by
    by_contra hiv
    exact hv (if_neg hiv)
  have hl : lookup entries name ≠ none := by
    intro hno
    exact hv ((if_pos hn).trans hno)
  obtain ⟨before, value, after, rfl, -⟩ := exists_first_assignment hl
  refine List.mem_map.mpr ⟨name ++ equals :: value, by simp, takeWhile_assignment hn.2 value⟩

theorem Reads.unique {env env'} (h : Reads s env) (h' : Reads s env') : env = env' := by
  funext name
  exact Option.some.inj ((h.getenv name).symm.trans (h'.getenv name))

theorem Holds.strings_eq (h : Holds s entries) : strings s = some entries := by
  cases hev : s.environ with
  | none => simp only [strings, hev, h.null hev]
  | some p =>
    obtain ⟨tail, ha⟩ := h.terminated p hev
    have ht : (entries.map some ++ none :: tail).takeWhile Option.isSome = entries.map some := by
      rw [takeWhile_append_of_pos (by simp)]
      simp
    simp [strings, hev, ha, ht]

theorem valueOf_filter (hn : Valid name) : valueOf (entries.filter fun e => !assigns name e) =
      update (valueOf entries) name none := by
  funext other
  by_cases hoh : other = name
  · subst hoh
    rw [update_self, valueOf, if_pos hn, lookup_eq_none_iff]
    intro entry hey
    simpa using (List.mem_filter.mp hey).2
  rw [update_of_ne hoh, valueOf, valueOf]
  split
  · rename_i hv
    induction entries with
    | nil => rfl
    | cons entry entries ih =>
      by_cases ha : assigns name entry
      · have ho := not_assigns_of_ne hn.2 hv.2 hoh ha
        rw [filter_cons_of_neg (by simpa using ha), ih, lookup_cons_of_not_assigns ho]
      rw [filter_cons_of_pos (by simpa using ha)]
      by_cases hon : assigns other entry
      · rw [lookup_cons_of_assigns hon, lookup_cons_of_assigns hon]
      · have ho := Bool.eq_false_iff.mpr hon
        rw [lookup_cons_of_not_assigns ho, lookup_cons_of_not_assigns ho, ih]
  · rfl

theorem valueOf_assignment {before rest after} (hn : Valid name)
    (hb : ∀ entry ∈ before, assigns name entry = false) (hr : ∀ other, Valid other → other ≠ name →
      lookup rest other = lookup (before ++ after) other) :
    valueOf (before ++ (name ++ equals :: value) :: after) =
      update (valueOf rest) name (some value) := by
  funext other
  by_cases ho : other = name
  · subst ho
    rw [update_self, valueOf, if_pos hn, lookup_at_first hb]
  rw [update_of_ne ho, valueOf, valueOf]
  split
  · rename_i hv
    have hof := not_assigns_of_ne hn.2 hv.2 ho (assigns_self name value)
    rw [lookup_append_cons hof, hr other hv ho]
  · rfl

theorem valueOf_replaced {name old} (hn : Valid name)
    (hb : ∀ entry ∈ before, assigns name entry = false) :
    valueOf (before ++ (name ++ equals :: value) :: after) =
      update (valueOf (before ++ (name ++ equals :: old) :: after)) name (some value) := by
  apply valueOf_assignment hn hb
  intro other hv ho
  exact lookup_append_cons (not_assigns_of_ne hn.2 hv.2 ho (assigns_self name old)) before after

theorem valueOf_of_valid (hn : Valid name) : valueOf entries name = lookup entries name := if_pos hn

variable {overwrite : Bool}

theorem UpdateEffect.made (hnm : Valid name)
    (h : UpdateEffect name overwrite (some (name ++ equals :: value)) entries entries' ret) :
    ret = 0 ∧ valueOf entries' = (if overwrite ∨ valueOf entries name = none then
        update (valueOf entries) name (some value) else valueOf entries) ∨
      ret = -1 ∧ valueOf entries' = valueOf entries := by
  cases h with
  | kept hso hno =>
    left
    refine ⟨rfl, ?_⟩
    rw [if_neg]
    rintro (ho | hn)
    · rw [hno] at ho
      cases ho
    · exact hso ((valueOf_of_valid hnm).symm.trans hn)
  | replaced before after old new hsl hb ho hs =>
    cases hs
    subst hsl
    exact .inl ⟨rfl, by rw [if_pos (.inl ho), valueOf_replaced hnm hb]⟩
  | truncated _ _ _ _ _ _ hs => cases hs
  | added new hn hs =>
    cases hs
    left
    refine ⟨rfl, ?_⟩
    rw [if_pos (.inr ((valueOf_of_valid hnm).trans hn))]
    apply valueOf_assignment hnm (lookup_eq_none_iff.mp hn)
    intro other _ _
    rw [append_nil]
  | failed hn => exact .inr ⟨rfl, rfl⟩

theorem UpdateEffect.unmade (hnm : Valid name)
    (h : UpdateEffect name overwrite none entries entries' ret) :
    ret = 0 ∧ entries' = entries ∧ overwrite = false ∧ valueOf entries name ≠ none ∨
      ret = -1 ∧ entries' = entries ∧ valueOf entries name = none ∨
      ret = -1 ∧ overwrite ∧ valueOf entries name ≠ none ∧ valueOf entries' name = none := by
  rw [valueOf_of_valid hnm, valueOf_of_valid hnm]
  cases h with
  | kept hso hno => exact .inl ⟨rfl, rfl, hno, hso⟩
  | replaced _ _ _ _ _ _ _ hs => cases hs
  | truncated _ after value hsl hb ho =>
    right; right
    subst hsl
    refine ⟨rfl, ho, ?_, lookup_eq_none_iff.mpr hb⟩
    rw [lookup_at_first hb]
    exact Option.some_ne_none value
  | added _ _ hs => cases hs
  | failed hn => exact .inr (.inl ⟨rfl, rfl, hn⟩)

theorem refines_iff {s'} (h : Holds s entries) (h' : Holds s' entries') :
    Refines s s' ret call ↔ Intended (valueOf entries) (valueOf entries') ret call ∧
      OnlyAssignments s s' ret call := by
  constructor
  · rintro ⟨env, env', hev, hev', hr⟩
    rw [hev.unique h.reads, hev'.unique h'.reads] at hr
    exact hr
  · intro hr
    exact ⟨_, _, h.reads, h'.reads, hr⟩

/-- A call from a terminated environment returns, leaves it so, and does its work unless it
overwrites an entry without a string. -/
def CallSpec (s : Process) (call : Call) : Prop :=
  ∃ s' ret, step s call = some (s', ret) ∧ Terminated s' ∧
    (Refines s s' ret call ↔ ¬OverwritesWithoutString s call)

section
variable (h : Terminated s)
include h

theorem CallSpec.refused (hs : step s call = some (s, -1)) (hc : call ≠ .clearenv)
    (hsa : ¬OverwritesWithoutString s call) : CallSpec s call := by
  obtain ⟨entries, h⟩ := h
  refine ⟨s, -1, hs, ⟨entries, h⟩, ?_⟩
  rw [refines_iff h h, iff_true_right hsa]
  cases call with
  | setenv | putenv => exact ⟨.inr ⟨rfl, rfl⟩, trivial⟩
  | unsetenv name =>
    refine ⟨.inr ⟨rfl, rfl⟩, ?_⟩
    cases name with
    | none => trivial
    | some name =>
      nofun
  | clearenv => exact absurd rfl hc

theorem setenv_spec (name : Option CStr) (value : CStr)
    (overwrite : Bool) (answer) (string : Bool) :
    CallSpec s (.setenv name value overwrite answer string) := by
  cases hc : checkName name with
  | none =>
    refine .refused h (by simp only [step, setenv, hc]) (by simp) ?_
    rintro ⟨-, -, found, hf⟩
    simp [getenv, hc] at hf
  | some name' =>
    obtain ⟨rfl, hn⟩ := checkName_eq_some hc
    obtain ⟨entries, h⟩ := h
    obtain ⟨s', ret, entries', hs, hs', hef⟩ := updateEnviron_effect h name' overwrite answer
      (if string then some (name' ++ equals :: value) else none)
    refine ⟨s', ret, by simp only [step, setenv, hc, hs], ⟨entries', hs'⟩, ?_⟩
    rw [refines_iff h hs']
    have hg := h.reads.getenv name'
    cases string with
    | true =>
      have hsa : ¬OverwritesWithoutString s (.setenv (some name') value overwrite answer true) := by
        rintro ⟨-, hsr, -⟩
        cases hsr
      rw [iff_true_right hsa]
      refine ⟨?_, trivial⟩
      rcases hef.made hn with ⟨hr, hv⟩ | hfi
      · exact .inl ⟨hr, name', rfl, hv⟩
      · exact .inr hfi
    | false =>
      rcases hef.unmade hn with ⟨rfl, rfl, rfl, hso⟩ | ⟨rfl, rfl, hno⟩ | ⟨rfl, rfl, hso, hl⟩
      · have hsa : ¬OverwritesWithoutString s (.setenv (some name') value false answer false) := by
          rintro ⟨ho, -⟩
          cases ho
        rw [iff_true_right hsa]
        refine ⟨.inl ⟨rfl, name', rfl, ?_⟩, trivial⟩
        rw [if_neg (by simpa using hso)]
      · have hsa : ¬OverwritesWithoutString s
            (.setenv (some name') value overwrite answer false) := by
          rintro ⟨-, -, found, hf⟩
          rw [hg, hno] at hf
          cases hf
        rw [iff_true_right hsa]
        exact ⟨.inr ⟨rfl, rfl⟩, trivial⟩
      · obtain ⟨found, hf⟩ := Option.ne_none_iff_exists'.mp hso
        have hu : OverwritesWithoutString s (.setenv (some name') value true answer false) :=
          ⟨rfl, rfl, found, by rw [hg, hf]⟩
        rw [iff_false_right (not_not.mpr hu)]
        rintro ⟨⟨hr, -⟩ | ⟨-, hsm⟩, -⟩
        · cases hr
        · rw [hsm] at hl
          exact hso hl

theorem putenv_spec (str : Option CStr) (answer : Realloc) : CallSpec s (.putenv str answer) := by
  have hsa : ¬OverwritesWithoutString s (.putenv str answer) := id
  cases str with
  | none => exact .refused h rfl (by simp) hsa
  | some str =>
    by_cases hc : nameLength str = 0 ∨ str[nameLength str]? ≠ some equals
    · exact .refused h (by simp only [step, putenv, if_pos hc]) (by simp) hsa
    obtain ⟨hln, ha⟩ := not_or.mp hc
    obtain ⟨name, value, rfl, hm, hl⟩ :=
      nameLength_spec (mem_of_getElem? (not_not.mp ha))
    have hn : Valid name := by
      refine ⟨?_, hm⟩
      rintro rfl
      exact hln hl
    obtain ⟨entries, h⟩ := h
    obtain ⟨s', ret, entries', hs, hs', hef⟩ := updateEnviron_effect h name true answer
      (some (name ++ equals :: value))
    refine ⟨s', ret, ?_, ⟨entries', hs'⟩, ?_⟩
    · simp only [step, putenv, if_neg hc]
      rw [hl, take_left, hs]
    rw [refines_iff h hs', iff_true_right hsa]
    refine ⟨?_, trivial⟩
    rcases hef.made hn with ⟨hr, hv⟩ | hf
    · exact .inl ⟨hr, name, value, rfl, hm, by rw [hv, if_pos (.inl rfl)]⟩
    · exact .inr hf

theorem unsetenv_callSpec (name : Option CStr) : CallSpec s (.unsetenv name) := by
  have hsa : ¬OverwritesWithoutString s (.unsetenv name) := id
  cases hc : checkName name with
  | none => exact .refused h (by simp only [step, unsetenv, hc]) (by simp) hsa
  | some name' =>
    obtain ⟨rfl, hn⟩ := checkName_eq_some hc
    obtain ⟨entries, h⟩ := h
    obtain ⟨s', hs, hs'⟩ := unsetenv_spec h hn
    refine ⟨s', 0, hs, ⟨_, hs'⟩, ?_⟩
    rw [refines_iff h hs', iff_true_right hsa]
    refine ⟨.inl ⟨rfl, name', rfl, valueOf_filter hn⟩, ?_⟩
    intro _
    exact ⟨entries, h.strings_eq, hs'.strings_eq⟩

theorem clearenv_callSpec : CallSpec s .clearenv := by
  have hsa : ¬OverwritesWithoutString s .clearenv := id
  obtain ⟨entries, h⟩ := h
  obtain ⟨s', hs, hs'⟩ := clearenv_spec h
  refine ⟨s', 0, hs, ⟨_, hs'⟩, ?_⟩
  rw [refines_iff h hs', iff_true_right hsa]
  refine ⟨⟨rfl, ?_⟩, trivial⟩
  funext name
  simp [valueOf, lookup]

theorem step_spec (call) : CallSpec s call := by
  cases call with
  | setenv name value overwrite answer string => exact setenv_spec h ..
  | putenv str answer => exact putenv_spec h ..
  | unsetenv name => exact unsetenv_callSpec h name
  | clearenv => exact clearenv_callSpec h

theorem run_terminated (calls) : ∃ s', run s calls = some s' ∧ Terminated s' := by
  induction calls generalizing s with
  | nil => exact ⟨s, rfl, h⟩
  | cons call calls ih =>
    obtain ⟨s1, ret, hs, ht, -⟩ := step_spec h call
    obtain ⟨s', hr, hs'⟩ := ih ht
    exact ⟨s', by simp only [run, hs, bind_eq_bind, bind_some, hr], hs'⟩

end

/-- After every sequence of calls on a terminated environment, every call refines the map
exactly when it does not overwrite an entry without a string. -/
theorem calls_refine_map_iff (s : Process) (h : Terminated s) (calls : List Call) :
    ∃ reached, run s calls = some reached ∧ ∀ call, ∃ s' ret, step reached call = some (s', ret) ∧
      (Refines reached s' ret call ↔ ¬OverwritesWithoutString reached call) := by
  obtain ⟨reached, hr, hra⟩ := run_terminated h calls
  refine ⟨reached, hr, ?_⟩
  intro call
  obtain ⟨s', ret, hs, -, hif⟩ := step_spec hra call
  exact ⟨s', ret, hs, hif⟩

/-- `A=1` and `B=2`, in an array that the program did not allocate. -/
def twoVariables : Process :=
  { arrays := [some [some [65, 61, 49], some [66, 61, 50], none]]
    environ := some 0
    oldEnv := none }

theorem twoVariables_terminated : Terminated twoVariables := by
  refine ⟨[[65, 61, 49], [66, 61, 50]], ?_, ?_, ?_⟩
  · nofun
  · rintro p hp
    cases hp
    exact ⟨[], rfl⟩
  · intro p hp
    cases hp

theorem calls_refine_map_iff_twoVariables :
    ∃ reached, run twoVariables [.unsetenv (some [65])] = some reached ∧ ∀ call, ∃ s' ret,
      step reached call = some (s', ret) ∧
      (Refines reached s' ret call ↔ ¬OverwritesWithoutString reached call) :=
  calls_refine_map_iff twoVariables twoVariables_terminated [.unsetenv (some [65])]

/-- `setenv("A", "3", 1)` without memory for `A=3` returns -1, and `A` and `B` are gone. -/
theorem setenv_truncates_environ : getenv twoVariables (some [65]) = some (some [49]) ∧
      getenv twoVariables (some [66]) = some (some [50]) ∧
      ∃ s', setenv twoVariables (some [65]) [51] true .fail false = some (s', -1) ∧
        getenv s' (some [65]) = some none ∧ getenv s' (some [66]) = some none := by
  refine ⟨by decide, by decide, _, rfl, by decide, by decide⟩

end Environ
