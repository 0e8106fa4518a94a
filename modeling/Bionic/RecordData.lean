import Bionic.ByteMemory

/-! The record of allocation operations, RecordData.cpp and its callers in malloc_debug.cpp. An
operation reserves an entry, does its work and fills in the entry; only the first step and the dumps
take the lock. -/
namespace RecordData
open ByteMemory Bool
open List Nat Option Function

structure Config where
  abi : Abi
  headerEnabled : Bool
  /-- `expand_alloc_bytes`, 0 without `EXPAND_ALLOC`. -/
  expandAllocBytes : ℕ
  extraBytes : ℕ
  /-- `record_allocs_num_entries`. -/
  numEntries : ℕ

/-- The types of `memory_trace` entries but `UNKNOWN`. -/
inductive Kind where
  | malloc
  | calloc
  | memalign
  | realloc
  | free
  | threadDone
  deriving DecidableEq

structure Entry where
  /-- A ghost: the operation that filled the entry in. -/
  op : ℕ
  tid : ℕ
  type : Kind
  ptr : ℕ
  size : ℕ
  /-- The union of `old_ptr`, `align` and `n_elements`. -/
  u : ℕ
  presentBytes : ℤ
  startNs : ℕ
  endNs : ℕ
  deriving DecidableEq

section

inductive Request where
  | malloc (size : ℕ)
  | calloc (nmemb bytes : ℕ)
  | memalign (alignment bytes : ℕ)
  | realloc (pointer bytes : ℕ)
  | free (pointer : ℕ)
  | threadDone
  deriving DecidableEq

/-- What an operation meets: the pointer of the allocation, the outcome of `VerifyPointer`, the
header of the old pointer, and the measurements for the entry. -/
structure Answer where
  pointer : ℕ
  verified : Bool
  headerSize : ℕ
  usableSize : ℕ
  presentBytes : ℤ
  startNs : ℕ
  endNs : ℕ
  deriving DecidableEq

structure Outcome where
  success : Bool
  entry : Option Entry
  deriving DecidableEq

def failure : Outcome := ⟨false, none⟩

def maxSize : ℕ := 2 ^ 31 - 1

def minimumAlignmentBytes (a : Abi) : ℕ :=
  match a with
  | .lp64 => 16
  | .ilp32 => 8

def bitCeil (n : ℕ) : ℕ := 2 ^ Nat.clog 2 n

variable (c : Config) (op tid : ℕ) (a : Answer)

def debugMalloc (size : ℕ) : Outcome :=
  ⟨a.pointer != 0, some ⟨op, tid, .malloc, a.pointer, size, 0, -1, a.startNs, a.endNs⟩⟩

def debugCalloc (nmemb bytes : ℕ) : Outcome :=
  if c.headerEnabled && a.pointer == 0 then failure
  else ⟨a.pointer != 0, some ⟨op, tid, .calloc, a.pointer, bytes, nmemb, -1, a.startNs, a.endNs⟩⟩

def memalignAlignment (alignment : ℕ) : ℕ :=
  if c.headerEnabled then max (bitCeil alignment) (minimumAlignmentBytes c.abi) else alignment

def memalignRealSize (alignment bytes : ℕ) : ℕ :=
  ((if c.headerEnabled then memalignAlignment c alignment else 0) + bytes + c.extraBytes) %
    c.abi.sizes

def debugMemalign (alignment bytes : ℕ) : Outcome :=
  let bytes := if bytes = 0 then 1 else bytes
  if memalignRealSize c alignment bytes < bytes then failure
  else if a.pointer = 0 then failure
  else ⟨true, some ⟨op, tid, .memalign, a.pointer, bytes, memalignAlignment c alignment, -1,
    a.startNs, a.endNs⟩⟩

def reallocEntry (ptr size oldPtr : ℕ) (presentBytes : ℤ) : Entry :=
  ⟨op, tid, .realloc, ptr, size, oldPtr, presentBytes, a.startNs, a.endNs⟩

def debugRealloc (pointer bytes : ℕ) : Outcome :=
  let realSize := (bytes + c.expandAllocBytes) % c.abi.sizes
  if pointer = 0 then ⟨a.pointer != 0, some (reallocEntry op tid a a.pointer bytes 0 (-1))⟩
  else if !a.verified then failure
  else if bytes = 0 then ⟨true, some (reallocEntry op tid a 0 0 pointer a.presentBytes)⟩
  else if realSize < bytes then failure
  else if maxSize < bytes then failure
  else if c.headerEnabled && (realSize == a.headerSize || decide (realSize < a.usableSize)) then
    ⟨true, none⟩
  else if a.pointer = 0 then failure
  else ⟨true, some (reallocEntry op tid a a.pointer bytes pointer a.presentBytes)⟩

def debugFree (pointer : ℕ) : Outcome :=
  ⟨true, some ⟨op, tid, .free, pointer, 0, 0, a.presentBytes, a.startNs, a.endNs⟩⟩

def threadKeyDelete : Outcome := ⟨true, some ⟨op, tid, .threadDone, 0, 0, 0, -1, 0, a.endNs⟩⟩

def outcome : Request → Outcome
  | .malloc size => debugMalloc op tid a size
  | .calloc nmemb bytes => debugCalloc c op tid a nmemb bytes
  | .memalign alignment bytes => debugMemalign c op tid a alignment bytes
  | .realloc pointer bytes => debugRealloc c op tid a pointer bytes
  | .free pointer => debugFree op tid a pointer
  | .threadDone => threadKeyDelete op tid a

end

inductive Stage where
  | reserved
  | performed (o : Outcome)
  /-- A ghost beside the outcome: how many calls of `WriteEntries` had been made. -/
  | returned (o : Outcome) (writes : ℕ)
  deriving DecidableEq

structure Operation where
  tid : ℕ
  request : Request
  /-- The index of the entry, none if there was no room. -/
  slot : Option ℕ
  /-- A ghost: how many dumps had been taken at the reservation. -/
  epoch : ℕ
  stage : Stage
  deriving DecidableEq

structure State where
  /-- The entries; none is the type `UNKNOWN`. -/
  entries : ℕ → Option Entry
  curIndex : ℕ
  /-- Operations are numbered by their reservation. -/
  next : ℕ
  ops : ℕ → Option Operation
  /-- What has been written, a list for each dump. -/
  dumps : List (List Entry)
  /-- A ghost: how many calls of `WriteEntries` have been made and did what they are to do. -/
  writes : ℕ

def initial : State := ⟨fun _ => none, 0, 0, fun _ => none, [], 0⟩

/-- `InternalReserveEntry`, and what the thread keeps of the operation. -/
def reserveEntry (c : Config) (s : State) (tid : ℕ) (request : Request) : State :=
  let op slot := some ⟨tid, request, slot, s.dumps.length, .reserved⟩
  if s.curIndex = c.numEntries then
    { s with next := s.next + 1, ops := update s.ops s.next (op none) }
  else
    { s with
      entries := update s.entries s.curIndex none
      curIndex := s.curIndex + 1
      next := s.next + 1
      ops := update s.ops s.next (op (some s.curIndex)) }

def setStage (s : State) (k : ℕ) (o : Operation) (stage : Stage) : State :=
  { s with ops := update s.ops k (some { o with stage := stage }) }

def perform (c : Config) (s : State) (k : ℕ) (a : Answer) : State :=
  match s.ops k with
  | none => s
  | some o => setStage s k o (.performed (outcome c k o.tid a o.request))

def fillEntry (s : State) (k : ℕ) : State :=
  match s.ops k with
  | some ⟨tid, request, slot, epoch, .performed out⟩ =>
    let s := setStage s k ⟨tid, request, slot, epoch, .performed out⟩ (.returned out s.writes)
    match slot, out.entry with
    | some i, some e => { s with entries := update s.entries i (some e) }
    | _, _ => s
  | _ => s

/-- Whether the file could be opened, and which write fails, if any. -/
def writeEntries (s : State) (opened : Bool) (failAt : Option ℕ) : State :=
  if s.curIndex = 0 then { s with writes := s.writes + 1 }
  else if !opened then s
  else
    let known := (List.range s.curIndex).filterMap s.entries
    { s with
      curIndex := 0
      dumps := s.dumps ++ [match failAt with
        | none => known
        | some n => known.take n]
      writes := s.writes + 1 }

inductive Step where
  | reserve (tid : ℕ) (request : Request)
  | perform (k : ℕ) (a : Answer)
  | fill (k : ℕ)
  | writeEntries (opened : Bool) (failAt : Option ℕ)

def step (c : Config) (s : State) : Step → State
  | .reserve tid request => reserveEntry c s tid request
  | .perform k a => perform c s k a
  | .fill k => fillEntry s k
  | .writeEntries opened failAt => writeEntries s opened failAt

/-- An operation takes its steps in turn. -/
def Enabled (s : State) : Step → Prop
  | .perform k _ => ∃ o, s.ops k = some o ∧ o.stage = .reserved
  | .fill k => ∃ o out, s.ops k = some o ∧ o.stage = .performed out
  | _ => True

/-- A `realloc` to the same size or to fewer bytes than can be used. -/
def InPlace (c : Config) (a : Answer) : Request → Prop
  | .realloc pointer bytes => c.headerEnabled ∧ pointer ≠ 0 ∧ a.verified ∧ bytes ≠ 0 ∧
      bytes ≤ (bytes + c.expandAllocBytes) % c.abi.sizes ∧ bytes ≤ maxSize ∧
      ((bytes + c.expandAllocBytes) % c.abi.sizes = a.headerSize ∨
        (bytes + c.expandAllocBytes) % c.abi.sizes < a.usableSize)
  | _ => False

/-- No entry is filled in after a dump has gone over its reservation, no block is reallocated in
place, and no write to the dump file fails. -/
def Settled (c : Config) (s : State) : Step → Prop
  | .perform k a => ∀ o, s.ops k = some o → ¬InPlace c a o.request
  | .fill k => ∀ o out, s.ops k = some o → o.stage = .performed out → o.slot ≠ none →
      out.entry ≠ none → o.epoch = s.dumps.length
  | .writeEntries _ failAt => failAt = none
  | .reserve _ _ => True

inductive Reachable (c : Config) (P : State → Step → Prop) : State → Prop where
  | initial : Reachable c P initial
  | step {s : State} (st : Step) : Reachable c P s → Enabled s st → P s st →
      Reachable c P (step c s st)

def occurrences (dumps : List (List Entry)) (k : ℕ) : ℕ := (dumps.flatten.map Entry.op).count k

structure Sound (s : State) : Prop where
  once : ∀ k, occurrences s.dumps k ≤ 1
  /-- An operation that returned with success, before a call of `WriteEntries`, is in a dump. -/
  recorded : ∀ k o out writes, s.ops k = some o → o.stage = .returned out writes →
    out.success → o.slot ≠ none → writes < s.writes → occurrences s.dumps k = 1
  order : ∀ d ∈ s.dumps, (d.map Entry.op).Pairwise (· < ·)

variable {c : Config} {s : State} {st : Step} {k i : ℕ} {o : Operation} {out : Outcome} {e : Entry}

def Current (s : State) (k : ℕ) (o : Operation) (i : ℕ) : Prop :=
  s.ops k = some o ∧ o.slot = some i ∧ o.epoch = s.dumps.length

def Stage.outcome? : Stage → Option Outcome
  | .reserved => none
  | .performed out => some out
  | .returned out _ => some out

structure Inv (s : State) : Prop where
  numbered : ∀ k o, s.ops k = some o → k < s.next
  epochs : ∀ k o, s.ops k = some o → o.epoch ≤ s.dumps.length
  slots : ∀ k o i, Current s k o i → i < s.curIndex
  order : ∀ k o i k' o' i', Current s k o i → Current s k' o' i' → k < k' → i < i'
  owned : ∀ i e, i < s.curIndex → s.entries i = some e →
    ∃ o out w, Current s e.op o i ∧ o.stage = .returned out w ∧ out.entry = some e
  kept : ∀ k o i out w e, Current s k o i → o.stage = .returned out w → out.entry = some e →
    s.entries i = some e
  named : ∀ k o out e, s.ops k = some o → o.stage.outcome? = some out → out.entry = some e →
    e.op = k
  filled : ∀ k o out, s.ops k = some o → o.stage.outcome? = some out → out.success →
    out.entry ≠ none
  timely : ∀ k o i out w, Current s k o i → o.stage = .returned out w → w = s.writes
  past : ∀ k o out w, s.ops k = some o → o.slot ≠ none → o.epoch < s.dumps.length →
    o.stage = .returned out w → out.entry ≠ none → occurrences s.dumps k = 1
  dumped : ∀ k, 0 < occurrences s.dumps k → ∃ o, s.ops k = some o ∧ o.epoch < s.dumps.length
  once : ∀ k, occurrences s.dumps k ≤ 1
  sorted : ∀ d ∈ s.dumps, (d.map Entry.op).Pairwise (· < ·)

theorem Inv.initial : Inv initial where
  numbered := nofun
  epochs := nofun
  slots := fun _ _ _ h => nomatch h.1
  order := fun _ _ _ _ _ _ h => nomatch h.1
  owned := nofun
  kept := fun _ _ _ _ _ _ h => nomatch h.1
  named := fun _ _ _ _ h => nomatch h
  filled := fun _ _ _ h => nomatch h
  timely := fun _ _ _ _ _ h => nomatch h.1
  past := fun _ _ _ _ h => nomatch h
  dumped := fun _ h => absurd h (lt_irrefl 0)
  once := fun _ => zero_le 1
  sorted := nofun

variable {a : Answer} {o' : Operation} {r : Request} {tid : ℕ} {entries : ℕ → Option Entry}

theorem op_of_outcome (h : (outcome c k tid a r).entry = some e) : e.op = k := by
  cases r with
  | malloc size =>
    cases h
    rfl
  | calloc nmemb bytes =>
    rw [outcome, debugCalloc] at h
    split at h <;> cases h
    rfl
  | memalign alignment bytes =>
    rw [outcome, debugMemalign] at h
    generalize (if bytes = 0 then 1 else bytes) = n at h
    split_ifs at h <;> cases h
    rfl
  | realloc pointer bytes =>
    rw [outcome, debugRealloc] at h
    split_ifs at h <;> cases h <;> rfl
  | free pointer =>
    cases h
    rfl
  | threadDone =>
    cases h
    rfl

theorem entry_of_success (hpc : ¬InPlace c a r)
    (h : (outcome c k tid a r).success) : (outcome c k tid a r).entry ≠ none := by
  cases r with
  | malloc size => exact some_ne_none _
  | calloc nmemb bytes =>
    rw [outcome, debugCalloc] at h ⊢
    split
    · rename_i hif
      rw [if_pos hif] at h
      cases h
    · exact some_ne_none _
  | memalign alignment bytes =>
    rw [outcome, debugMemalign] at h ⊢
    generalize (if bytes = 0 then 1 else bytes) = n at h ⊢
    split_ifs at h ⊢
    · cases h
    · cases h
    · exact some_ne_none _
  | realloc pointer bytes =>
    rw [outcome, debugRealloc] at h ⊢
    split_ifs at h ⊢ with h0 hv hb hr hm hin hp
    · exact some_ne_none _
    · cases h
    · exact some_ne_none _
    · cases h
    · cases h
    · rw [and_eq_true, or_eq_true, beq_iff_eq, decide_eq_true_eq] at hin
      rw [not_eq_true', not_eq_false] at hv
      exact absurd ⟨hin.1, h0, hv, hb, Nat.le_of_not_lt hr, Nat.le_of_not_lt hm, hin.2⟩ hpc
    · cases h
    · exact some_ne_none _
  | free pointer => exact some_ne_none _
  | threadDone => exact some_ne_none _

theorem update_cases {f k'} (h : update f k (some o) k' = some o') :
    (k' = k ∧ o' = o) ∨ (k' ≠ k ∧ f k' = some o') := by
  by_cases hk : k' = k
  · subst hk
    rw [update_self] at h
    exact .inl ⟨rfl, (Option.some.inj h).symm⟩
  · rw [update_of_ne hk] at h
    exact .inr ⟨hk, h⟩

def known (s : State) : List Entry := (List.range s.curIndex).filterMap s.entries

theorem mem_known : e ∈ known s ↔ ∃ i < s.curIndex, s.entries i = some e := by
  rw [known, mem_filterMap]
  exact ⟨fun ⟨i, hi, he⟩ => ⟨i, List.mem_range.1 hi, he⟩,
    fun ⟨i, hi, he⟩ => ⟨i, List.mem_range.2 hi, he⟩⟩

theorem occurrences_append (dumps d k) :
    occurrences (dumps ++ [d]) k = occurrences dumps k + (d.map Entry.op).count k := by
  rw [occurrences, occurrences, flatten_append, map_append, count_append]
  simp

section
variable (hiv : Inv s)
include hiv

theorem Inv.reserved {cur request slot} (hcu : s.curIndex ≤ cur)
    (hsl : ∀ i, slot = some i → i = s.curIndex ∧ i < cur)
    (hod : ∀ i < s.curIndex, entries i = s.entries i)
    (hn : ∀ i, s.curIndex ≤ i → i < cur → entries i = none) : Inv { s with
      entries := entries, curIndex := cur, next := s.next + 1
      ops := update s.ops s.next (some ⟨tid, request, slot, s.dumps.length, .reserved⟩) } := by
  have hcr : ∀ k o i, Current { s with
      entries := entries, curIndex := cur, next := s.next + 1
      ops := update s.ops s.next (some ⟨tid, request, slot, s.dumps.length, .reserved⟩) } k o i →
      (k = s.next ∧ i = s.curIndex ∧ i < cur ∧ o.stage = .reserved) ∨ Current s k o i := by
    rintro k o i ⟨hk, hs, he⟩
    rcases update_cases hk with ⟨rfl, rfl⟩ | ⟨-, hk⟩
    · exact .inl ⟨rfl, (hsl i hs).1, (hsl i hs).2, rfl⟩
    · exact .inr ⟨hk, hs, he⟩
  have hkp : ∀ k o, s.ops k = some o → update s.ops s.next
      (some ⟨tid, request, slot, s.dumps.length, .reserved⟩) k = some o := by
    intro k o hk
    rw [update_of_ne (Nat.ne_of_lt (hiv.numbered k o hk)), hk]
  constructor
  · intro k o hk
    rcases update_cases hk with ⟨rfl, -⟩ | ⟨-, hk⟩
    · exact lt_succ_self _
    · exact lt_succ_of_lt (hiv.numbered k o hk)
  · intro k o hk
    rcases update_cases hk with ⟨-, rfl⟩ | ⟨-, hk⟩
    · exact le_rfl
    · exact hiv.epochs k o hk
  · intro k o i hc
    rcases hcr k o i hc with ⟨-, -, hi, -⟩ | hc
    · exact hi
    · exact lt_of_lt_of_le (hiv.slots k o i hc) hcu
  · intro k o i k' o' i' hc hc' hl
    rcases hcr k o i hc with ⟨rfl, -⟩ | hc
    · rcases hcr k' o' i' hc' with ⟨rfl, -⟩ | hc'
      · exact absurd hl (lt_irrefl _)
      · exact absurd hl (Nat.not_lt_of_lt (hiv.numbered k' o' hc'.1))
    · rcases hcr k' o' i' hc' with ⟨-, rfl, -⟩ | hc'
      · exact hiv.slots k o i hc
      · exact hiv.order k o i k' o' i' hc hc' hl
  · intro i e hi he
    by_cases hl : i < s.curIndex
    · change entries i = some e at he
      rw [hod i hl] at he
      obtain ⟨o, out, w, hc, hst, ho⟩ := hiv.owned i e hl he
      exact ⟨o, out, w, ⟨hkp _ _ hc.1, hc.2⟩, hst, ho⟩
    · cases (hn i (Nat.le_of_not_lt hl) hi).symm.trans he
  · intro k o i out w e hc hst ho
    rcases hcr k o i hc with ⟨-, -, -, hr⟩ | hc
    · cases hr.symm.trans hst
    · exact (hod i (hiv.slots k o i hc)).trans (hiv.kept k o i out w e hc hst ho)
  · intro k o out e hk hst ho
    rcases update_cases hk with ⟨-, rfl⟩ | ⟨-, hk⟩
    · cases hst
    · exact hiv.named k o out e hk hst ho
  · intro k o out hk hst hsu
    rcases update_cases hk with ⟨-, rfl⟩ | ⟨-, hk⟩
    · cases hst
    · exact hiv.filled k o out hk hst hsu
  · intro k o i out w hc hst
    rcases hcr k o i hc with ⟨-, -, -, hr⟩ | hc
    · cases hr.symm.trans hst
    · exact hiv.timely k o i out w hc hst
  · intro k o out w hk hs he hst ho
    rcases update_cases hk with ⟨-, rfl⟩ | ⟨-, hk⟩
    · cases hst
    · exact hiv.past k o out w hk hs he hst ho
  · intro k hp
    obtain ⟨o, hk, he⟩ := hiv.dumped k hp
    exact ⟨o, hkp k o hk, he⟩
  · exact hiv.once
  · exact hiv.sorted

theorem Inv.reserve (tid request) : Inv (reserveEntry c s tid request) := by
  rw [reserveEntry]
  split
  · refine hiv.reserved le_rfl (fun i h => (nomatch h)) (fun _ _ => rfl) ?_
    exact fun i hl hlt => absurd hl (Nat.not_le_of_lt hlt)
  refine hiv.reserved (le_succ _) (fun i h => ?_) (fun i hi => ?_) (fun i hl hlt => ?_)
  · cases h
    exact ⟨rfl, lt_succ_self _⟩
  · exact update_of_ne (Nat.ne_of_lt hi) _ _
  · have hi : i = s.curIndex := le_antisymm (le_of_lt_succ hlt) hl
    rw [hi, update_self]

theorem Inv.eq_of_current {k'} (h : Current s k o i) (h' : Current s k' o' i) : k = k' := by
  rcases lt_trichotomy k k' with hl | heq | hl
  · exact absurd (hiv.order k o i k' o' i h h' hl) (lt_irrefl i)
  · exact heq
  · exact absurd (hiv.order k' o' i k o i h' h hl) (lt_irrefl i)

theorem Inv.restage {stage} (hk : s.ops k = some o)
    (hnt : ∀ out w, o.stage ≠ .returned out w)
    (hn : ∀ out e, stage.outcome? = some out → out.entry = some e → e.op = k)
    (hsc : ∀ out, stage.outcome? = some out → out.success → out.entry ≠ none)
    (hr : ∀ out w, stage = .returned out w → w = s.writes ∧
      (o.slot ≠ none → out.entry ≠ none → o.epoch = s.dumps.length))
    (hes : ∀ i, entries i = s.entries i ∨ Current s k o i ∧
      ∃ out w e, stage = .returned out w ∧ out.entry = some e ∧ entries i = some e)
    (hf : ∀ i out w e, Current s k o i → stage = .returned out w → out.entry = some e →
      entries i = some e) :
    Inv { s with
      entries := entries
      ops := update s.ops k (some { o with stage := stage }) } := by
  have hcr : ∀ k' o' i, Current { s with
      entries := entries
      ops := update s.ops k (some { o with stage := stage }) } k' o' i →
      (k' = k ∧ o'.stage = stage ∧ Current s k o i) ∨ (k' ≠ k ∧ Current s k' o' i) := by
    rintro k' o' i ⟨hk', hs, he⟩
    rcases update_cases hk' with ⟨rfl, rfl⟩ | ⟨hne, hk'⟩
    · exact .inl ⟨rfl, rfl, hk, hs, he⟩
    · exact .inr ⟨hne, hk', hs, he⟩
  have hsl : ∀ k' o' i, Current { s with
      entries := entries
      ops := update s.ops k (some { o with stage := stage }) } k' o' i →
      ∃ o0, Current s k' o0 i := by
    intro k' o' i hc
    rcases hcr k' o' i hc with ⟨rfl, -, hc⟩ | ⟨-, hc⟩
    · exact ⟨o, hc⟩
    · exact ⟨o', hc⟩
  constructor
  · intro k' o' hk'
    rcases update_cases hk' with ⟨rfl, -⟩ | ⟨-, hk'⟩
    · exact hiv.numbered k' o hk
    · exact hiv.numbered k' o' hk'
  · intro k' o' hk'
    rcases update_cases hk' with ⟨rfl, rfl⟩ | ⟨-, hk'⟩
    · exact hiv.epochs k' o hk
    · exact hiv.epochs k' o' hk'
  · intro k' o' i hc
    obtain ⟨o0, hc⟩ := hsl k' o' i hc
    exact hiv.slots k' o0 i hc
  · intro k1 o1 i1 k2 o2 i2 h1 h2 hl
    obtain ⟨o1, h1⟩ := hsl k1 o1 i1 h1
    obtain ⟨o2, h2⟩ := hsl k2 o2 i2 h2
    exact hiv.order k1 o1 i1 k2 o2 i2 h1 h2 hl
  · intro i e hi he
    rcases hes i with hsm | ⟨hc, out, w, e', hst, ho, hnw⟩
    · obtain ⟨o', out, w, hc, hst, ho⟩ := hiv.owned i e hi (hsm.symm.trans he)
      have hne : e.op ≠ k := by
        intro heq
        cases hk.symm.trans (heq ▸ hc.1)
        exact hnt out w hst
      refine ⟨o', out, w, ⟨?_, hc.2⟩, hst, ho⟩
      exact (update_of_ne hne _ _).trans hc.1
    · cases hnw.symm.trans he
      have hop : e.op = k := hn out e (hst ▸ rfl) ho
      refine ⟨{ o with stage := stage }, out, w, ⟨?_, hc.2⟩, hst, ho⟩
      rw [hop]
      exact update_self _ _ _
  · intro k' o' i out w e hc hst ho
    rcases hcr k' o' i hc with ⟨rfl, hsg, hc⟩ | ⟨hne, hc⟩
    · exact hf i out w e hc (hsg.symm.trans hst) ho
    rcases hes i with hsm | ⟨hck, -⟩
    · exact hsm.trans (hiv.kept k' o' i out w e hc hst ho)
    · exact absurd (hiv.eq_of_current hc hck) hne
  · intro k' o' out e hk' hst ho
    rcases update_cases hk' with ⟨rfl, rfl⟩ | ⟨-, hk'⟩
    · exact hn out e hst ho
    · exact hiv.named k' o' out e hk' hst ho
  · intro k' o' out hk' hst hsu
    rcases update_cases hk' with ⟨rfl, rfl⟩ | ⟨-, hk'⟩
    · exact hsc out hst hsu
    · exact hiv.filled k' o' out hk' hst hsu
  · intro k' o' i out w hc hst
    rcases hcr k' o' i hc with ⟨-, hsg, -⟩ | ⟨-, hc⟩
    · exact (hr out w (hsg.symm.trans hst)).1
    · exact hiv.timely k' o' i out w hc hst
  · intro k' o' out w hk' hs he hst ho
    rcases update_cases hk' with ⟨rfl, rfl⟩ | ⟨-, hk'⟩
    · exact absurd ((hr out w hst).2 hs ho) (Nat.ne_of_lt he)
    · exact hiv.past k' o' out w hk' hs he hst ho
  · intro k' hp
    obtain ⟨o', hk', he⟩ := hiv.dumped k' hp
    by_cases heq : k' = k
    · subst heq
      cases hk.symm.trans hk'
      exact ⟨_, update_self _ _ _, he⟩
    · exact ⟨o', (update_of_ne heq _ _).trans hk', he⟩
  · exact hiv.once
  · exact hiv.sorted

theorem Inv.perform (hk : s.ops k = some o)
    (hs : o.stage = .reserved) (hp : ¬InPlace c a o.request) : Inv (perform c s k a) := by
  rw [RecordData.perform, hk]
  refine hiv.restage hk (fun out w h => ?_) (fun out e h ho => ?_) (fun out h hsu => ?_)
    (fun out w h => (nomatch h)) (fun i => .inl rfl) (fun i out w e _ h => (nomatch h))
  · cases hs.symm.trans h
  · cases h
    exact op_of_outcome ho
  · cases h
    exact entry_of_success hp hsu

theorem Inv.fill (hk : s.ops k = some o) (hsg : o.stage = .performed out)
    (hs : o.slot ≠ none → out.entry ≠ none → o.epoch = s.dumps.length) : Inv (fillEntry s k) := by
  obtain ⟨tid, request, slot, epoch, stage⟩ := o
  cases hsg
  have hn : ∀ out' w, Stage.performed out ≠ .returned out' w := nofun
  have hnd : ∀ out' e, (Stage.returned out s.writes).outcome? = some out' →
      out'.entry = some e → e.op = k := by
    rintro out' e ⟨⟩ hot
    exact hiv.named k _ out e hk rfl hot
  have hsc : ∀ out', (Stage.returned out s.writes).outcome? = some out' →
      out'.success → out'.entry ≠ none := by
    rintro out' ⟨⟩ hsu
    exact hiv.filled k _ out hk rfl hsu
  have hr : ∀ out' w, Stage.returned out s.writes = .returned out' w → w = s.writes ∧
      (slot ≠ none → out'.entry ≠ none → epoch = s.dumps.length) := by
    rintro out' w ⟨⟩
    exact ⟨rfl, hs⟩
  rw [fillEntry, hk]
  dsimp only
  split
  · rename_i hsl i e hot
    have hc : Current s k ⟨tid, request, some i, epoch, .performed out⟩ i :=
      ⟨hk, rfl, hs (some_ne_none i) (hot ▸ some_ne_none e)⟩
    refine hiv.restage hk hn hnd hsc hr (fun j => ?_) (fun j out' w e' hj h ho => ?_)
    · by_cases hj : j = i
      · subst hj
        exact .inr ⟨hc, out, s.writes, e, rfl, hot, update_self _ _ _⟩
      · exact .inl (update_of_ne hj _ _)
    · cases h
      cases hot.symm.trans ho
      cases hj.2.1
      exact update_self _ _ _
  · rename_i hno
    refine hiv.restage hk hn hnd hsc hr (fun j => .inl rfl) (fun j out' w e' hj h ho => ?_)
    cases h
    exact absurd ho (hno j e' hj.2.1)

theorem Inv.known_sorted : ((known s).map Entry.op).Pairwise (· < ·) := by
  rw [pairwise_map, known, pairwise_filterMap]
  refine List.pairwise_lt_range.imp_of_mem fun {i j} hi hj hl e he e' he' => ?_
  obtain ⟨o, -, -, hc, -⟩ := hiv.owned i e (List.mem_range.1 hi) he
  obtain ⟨o', -, -, hc', -⟩ := hiv.owned j e' (List.mem_range.1 hj) he'
  rcases lt_trichotomy e.op e'.op with ho | ho | ho
  · exact ho
  · rw [← ho] at hc'
    cases hc.1.symm.trans hc'.1
    cases hc.2.1.symm.trans hc'.2.1
    exact absurd hl (lt_irrefl _)
  · exact absurd (hiv.order _ _ _ _ _ _ hc' hc ho) (Nat.not_lt_of_lt hl)

theorem Inv.current_of_known (h : k ∈ (known s).map Entry.op) : ∃ o i, Current s k o i := by
  obtain ⟨e, he, rfl⟩ := List.mem_map.1 h
  obtain ⟨i, hi, hei⟩ := mem_known.1 he
  obtain ⟨o, -, -, hc, -⟩ := hiv.owned i e hi hei
  exact ⟨o, i, hc⟩

theorem Inv.occurrences_eq_zero (hc : Current s k o i) : occurrences s.dumps k = 0 := by
  by_contra hn
  obtain ⟨o', hk, hl⟩ := hiv.dumped k (Nat.pos_of_ne_zero hn)
  cases hc.1.symm.trans hk
  exact absurd hc.2.2 (Nat.ne_of_lt hl)

theorem Inv.dump :
    Inv { s with curIndex := 0, dumps := s.dumps ++ [known s], writes := s.writes + 1 } := by
  have hl : (s.dumps ++ [known s]).length = s.dumps.length + 1 := length_append
  have hn : ∀ k o i, ¬Current { s with
      curIndex := 0, dumps := s.dumps ++ [known s], writes := s.writes + 1 } k o i := by
    rintro k o i ⟨hk, -, he⟩
    have hle := hiv.epochs k o hk
    change o.epoch = (s.dumps ++ [known s]).length at he
    omega
  have hnd := hiv.known_sorted.imp fun h => ne_of_lt h
  constructor
  · exact hiv.numbered
  · intro k o hk
    exact hl ▸ le_succ_of_le (hiv.epochs k o hk)
  · exact fun k o i hc => absurd hc (hn k o i)
  · exact fun k o i _ _ _ hc => absurd hc (hn k o i)
  · exact fun i e hi => absurd hi (not_lt_zero i)
  · exact fun k o i _ _ _ hc => absurd hc (hn k o i)
  · exact hiv.named
  · exact hiv.filled
  · exact fun k o i _ _ hc => absurd hc (hn k o i)
  · intro k o out w hk hs he hst ho
    rw [occurrences_append]
    obtain ⟨i, hi⟩ := ne_none_iff_exists'.1 hs
    obtain ⟨e, hey⟩ := ne_none_iff_exists'.1 ho
    rcases lt_or_eq_of_le (hiv.epochs k o hk) with hlt | heq
    · have hz : ((known s).map Entry.op).count k = 0 := by
        refine count_eq_zero_of_not_mem fun hm => ?_
        obtain ⟨o', i', hc⟩ := hiv.current_of_known hm
        cases hk.symm.trans hc.1
        exact absurd hc.2.2 (Nat.ne_of_lt hlt)
      rw [hiv.past k o out w hk hs hlt hst ho, hz]
    have hc : Current s k o i := ⟨hk, hi, heq⟩
    have hm : k ∈ (known s).map Entry.op := by
      have hop := hiv.named k o out e hk (hst ▸ rfl) hey
      refine List.mem_map.2 ⟨e, mem_known.2 ⟨i, hiv.slots k o i hc, ?_⟩, hop⟩
      exact hiv.kept k o i out w e hc hst hey
    rw [hiv.occurrences_eq_zero hc, count_eq_one_of_mem hnd hm]
  · intro k hp
    rw [occurrences_append] at hp
    rcases Nat.eq_zero_or_pos (occurrences s.dumps k) with hz | hod
    · rw [hz, zero_add] at hp
      obtain ⟨o, i, hk, -, he⟩ := hiv.current_of_known (List.count_pos_iff.1 hp)
      exact ⟨o, hk, hl ▸ he ▸ lt_succ_self _⟩
    · obtain ⟨o, hk, he⟩ := hiv.dumped k hod
      exact ⟨o, hk, hl ▸ lt_succ_of_lt he⟩
  · intro k
    rw [occurrences_append]
    by_cases hm : k ∈ (known s).map Entry.op
    · obtain ⟨o, i, hc⟩ := hiv.current_of_known hm
      rw [hiv.occurrences_eq_zero hc, count_eq_one_of_mem hnd hm]
    · rw [count_eq_zero_of_not_mem hm]
      exact hiv.once k
  · intro d hd
    rcases List.mem_append.1 hd with hd | hd
    · exact hiv.sorted d hd
    · rw [List.mem_singleton.1 hd]
      exact hiv.known_sorted

theorem Inv.empty (hcr : s.curIndex = 0) : Inv { s with writes := s.writes + 1 } := by
  have hn : ∀ k o i, ¬Current s k o i := by
    intro k o i hc
    have hl := hiv.slots k o i hc
    omega
  obtain ⟨hnm, heo, hs, ho, hon, hk, hnd, hf, -, hp, hd, hoe, hst⟩ := hiv
  exact ⟨hnm, heo, hs, ho, hon, hk, hnd, hf,
    fun k o i _ _ hc => absurd hc (hn k o i), hp, hd, hoe, hst⟩

theorem Inv.writeEntries (opened) : Inv (writeEntries s opened none) := by
  rw [RecordData.writeEntries]
  split
  · rename_i hc
    exact hiv.empty hc
  split
  · exact hiv
  · exact hiv.dump

theorem Inv.step (hen : Enabled s st) (hst : Settled c s st) : Inv (step c s st) := by
  cases st with
  | reserve tid request => exact hiv.reserve tid request
  | perform k a =>
    obtain ⟨o, hk, hs⟩ := hen
    exact hiv.perform hk hs (hst o hk)
  | fill k =>
    obtain ⟨o, out, hk, hs⟩ := hen
    exact hiv.fill hk hs (hst o out hk hs)
  | writeEntries opened failAt =>
    cases hst
    exact hiv.writeEntries opened

theorem Inv.sound : Sound s where
  once := hiv.once
  recorded := by
    intro k o out w hk hst hsu hs hl
    have ho := hiv.filled k o out hk (hst ▸ rfl) hsu
    rcases lt_or_eq_of_le (hiv.epochs k o hk) with hp | hc
    · exact hiv.past k o out w hk hs hp hst ho
    obtain ⟨i, hi⟩ := ne_none_iff_exists'.1 hs
    have hw := hiv.timely k o i out w ⟨hk, hi, hc⟩ hst
    omega
  order := hiv.sorted

end

theorem Inv.of_reachable (h : Reachable c (Settled c) s) : Inv s := by
  induction h with
  | initial => exact Inv.initial
  | step _ _ hen hs ih => exact ih.step hen hs

/-- Each operation is in the dumps once, in the order of the reservations, as long as no entry is
filled in after a dump has gone over it, no block is reallocated in place and no write fails. -/
theorem recorded_once (c : Config) (s : State) (h : Reachable c (Settled c) s) : Sound s :=
  (Inv.of_reachable h).sound

def tenEntries : Config := ⟨.lp64, true, 0, 32, 10⟩

def answer : Answer := ⟨4096, true, 16, 16, -1, 5, 6⟩

def mallocSteps : List Step :=
  [.reserve 1 (.malloc 8), .perform 0 answer, .fill 0, .writeEntries true none]

theorem recorded_once_malloc : Sound (mallocSteps.foldl (step tenEntries) initial) ∧
      occurrences (mallocSteps.foldl (step tenEntries) initial).dumps 0 = 1 := by
  refine ⟨recorded_once tenEntries _ ?_, by decide⟩
  have hr := (Reachable.initial (c := tenEntries) (P := Settled tenEntries)).step
    (.reserve 1 (.malloc 8)) trivial trivial
  have hp := hr.step (.perform 0 answer) ⟨_, rfl, rfl⟩ fun o ho hpc => by
    cases ho
    exact hpc
  have hf := hp.step (.fill 0) ⟨_, _, rfl, rfl⟩ fun o out ho _ _ _ => by
    cases ho
    rfl
  exact hf.step (.writeEntries true none) trivial rfl

def dumpedOver : List Step :=
  [.reserve 1 (.malloc 8), .writeEntries true none, .perform 0 answer, .fill 0,
    .writeEntries true none]

def shrunk : List Step :=
  [.reserve 1 (.realloc 4096 8), .perform 0 answer, .fill 0, .writeEntries true none]

theorem not_sound_of_lost (hk : s.ops k = some o)
    (hst : o.stage = .returned out i) (hsu : out.success) (hs : o.slot ≠ none)
    (hl : i < s.writes) (hz : occurrences s.dumps k = 0) : ¬Sound s := by
  intro hso
  have ho := hso.recorded k o out i hk hst hsu hs hl
  omega

/-- In both runs the operation returns with success and is in no dump. -/
theorem operations_lost :
    (Reachable tenEntries (fun _ _ => True) (dumpedOver.foldl (step tenEntries) initial) ∧
      ¬Sound (dumpedOver.foldl (step tenEntries) initial)) ∧
    Reachable tenEntries (fun _ _ => True) (shrunk.foldl (step tenEntries) initial) ∧
      ¬Sound (shrunk.foldl (step tenEntries) initial) := by
  have hs : Reachable tenEntries (fun _ _ => True) initial := Reachable.initial
  refine ⟨⟨?_, ?_⟩, ?_, ?_⟩
  · have hr := hs.step (.reserve 1 (.malloc 8)) trivial trivial
    have hd := hr.step (.writeEntries true none) trivial trivial
    have hp := hd.step (.perform 0 answer) ⟨_, rfl, rfl⟩ trivial
    have hf := hp.step (.fill 0) ⟨_, _, rfl, rfl⟩ trivial
    exact hf.step (.writeEntries true none) trivial trivial
  · exact not_sound_of_lost (k := 0) (i := 1) rfl rfl rfl (some_ne_none 0) (by decide) (by decide)
  · have hr := hs.step (.reserve 1 (.realloc 4096 8)) trivial trivial
    have hp := hr.step (.perform 0 answer) ⟨_, rfl, rfl⟩ trivial
    have hf := hp.step (.fill 0) ⟨_, _, rfl, rfl⟩ trivial
    exact hf.step (.writeEntries true none) trivial trivial
  · exact not_sound_of_lost (k := 0) (i := 0) rfl rfl rfl (some_ne_none 0) (by decide) (by decide)

end RecordData
