import Bionic.ByteMemory

/-! The allocation limit, malloc_limit.cpp. `gAllocated` counts usable sizes as the calls pass
through the dispatch table. The underlying allocator answers each call with a block or not; what it
has given out is a list of blocks with their usable sizes. -/
namespace MallocLimit
open ByteMemory
open List

structure Block where
  address : ℕ
  usable : ℕ
  /-- A ghost: the block was there when the limit was installed. -/
  earlier : Bool
  deriving DecidableEq

abbrev Answer : Type := Option (ℕ × ℕ)

structure State where
  /-- `gAllocated`, a `uint64_t`. -/
  allocated : ℕ
  /-- `gAllocLimit`. -/
  limit : ℕ
  /-- The live blocks of the underlying allocator. -/
  blocks : List Block
  /-- A ghost: `gAllocated` when the limit was installed. -/
  installed : ℕ
  /-- A ghost: what `mallinfo` counted then beside the usable sizes. -/
  overhead : ℕ
  /-- A ghost: the earlier blocks freed since. -/
  released : List Block
  deriving DecidableEq

def ENOMEM : ℕ := 12

def State.find (s : State) (mem : ℕ) : Option Block := s.blocks.find? fun b => b.address == mem

/-- `malloc_usable_size`, 0 for null. -/
def limitUsableSize (s : State) (mem : ℕ) : ℕ := ((s.find mem).map Block.usable).getD 0

/-- `free` of the underlying allocator. -/
def State.release (s : State) (mem : ℕ) : State :=
  { s with
    blocks := s.blocks.eraseP fun b => b.address == mem
    released := ((s.find mem).filter Block.earlier).toList ++ s.released }

def State.provide (s : State) : Answer → State × ℕ
  | none => (s, 0)
  | some (p, usable) => ({ s with blocks := ⟨p, usable, false⟩ :: s.blocks }, p)

/-- `realloc` of the underlying allocator: null is a free for size 0, and else a failure that
leaves the block. -/
def State.reallocate (s : State) (old bytes : ℕ) : Answer → State × ℕ
  | none => if bytes = 0 then (s.release old, 0) else (s, 0)
  | some (p, usable) => (s.release old).provide (some (p, usable))

def checkLimit (s : State) (bytes : ℕ) : Bool :=
  decide (s.allocated + bytes < 2 ^ 64 ∧ s.allocated + bytes ≤ s.limit)

def fetchAdd (s : State) (n : ℕ) : State := { s with allocated := (s.allocated + n) % 2 ^ 64 }

def fetchSub (s : State) (n : ℕ) : State :=
  { s with allocated := (s.allocated + (2 ^ 64 - n % 2 ^ 64)) % 2 ^ 64 }

def incrementLimit (s : State) (mem : ℕ) : State × ℕ :=
  if mem = 0 then (s, 0) else (fetchAdd s (limitUsableSize s mem), mem)

def limitAllocate (s : State) (bytes : ℕ) (answer : Answer) : State × ℕ :=
  if checkLimit s bytes then
    let (s, mem) := s.provide answer
    incrementLimit s mem
  else (s, 0)

def limitMalloc (s : State) (bytes : ℕ) (answer : Answer) : State × ℕ :=
  limitAllocate s bytes answer

def limitMemalign (s : State) (_alignment bytes : ℕ) (answer : Answer) : State × ℕ :=
  limitAllocate s bytes answer

def limitAlignedAlloc (s : State) (_alignment size : ℕ) (answer : Answer) : State × ℕ :=
  limitAllocate s size answer

def limitPvalloc (s : State) (bytes : ℕ) (answer : Answer) : State × ℕ :=
  limitAllocate s bytes answer

def limitValloc (s : State) (bytes : ℕ) (answer : Answer) : State × ℕ :=
  limitAllocate s bytes answer

def limitCalloc (a : Abi) (s : State) (nElements elemSize : ℕ) (answer : Answer) : State × ℕ :=
  if nElements * elemSize < a.sizes then limitAllocate s (nElements * elemSize) answer
  else (s, 0)

/-- The error number, and what is stored at `memptr`; the underlying call fails with an error number
and stores nothing. -/
def limitPosixMemalign (s : State) (_alignment size : ℕ) (answer : Except ℕ Answer) :
    State × ℕ × Option ℕ :=
  if checkLimit s size then
    match answer with
    | .error retval => (s, retval, none)
    | .ok answer =>
      let (s, mem) := s.provide answer
      ((incrementLimit s mem).1, 0, some mem)
  else (s, ENOMEM, none)

def limitFree (s : State) (mem : ℕ) : State := (fetchSub s (limitUsableSize s mem)).release mem

def limitRealloc (s : State) (oldMem bytes : ℕ) (answer : Answer) : State × ℕ :=
  let oldUsableSize := limitUsableSize s oldMem
  if oldUsableSize < bytes && !checkLimit s (bytes - oldUsableSize) then (s, 0)
  else
    let (s, newPtr) := s.reallocate oldMem bytes answer
    if newPtr = 0 then (fetchSub s oldUsableSize, 0)
    else
      let newUsableSize := limitUsableSize s newPtr
      if newUsableSize < oldUsableSize then
        (fetchSub s (oldUsableSize - newUsableSize), newPtr)
      else (fetchAdd s (newUsableSize - oldUsableSize), newPtr)

/-- The pointer, and whether `errno` is set to `ENOMEM` here. -/
def limitReallocArray (a : Abi) (s : State) (oldMem itemCount itemSize : ℕ) (answer : Answer) :
    State × ℕ × Bool :=
  if itemCount * itemSize < a.sizes then
    let (s, mem) := limitRealloc s oldMem (itemCount * itemSize) answer
    (s, mem, false)
  else (s, 0, true)

/-- `LimitEnable` once the dispatch table is in place: `uordblks` of `mallinfo` counts the live
blocks. -/
def limitEnable (limit overhead : ℕ) (blocks : List (ℕ × ℕ)) : State where
  allocated := overhead + (blocks.map Prod.snd).sum
  limit := limit
  blocks := blocks.map fun b => ⟨b.1, b.2, true⟩
  installed := overhead + (blocks.map Prod.snd).sum
  overhead := overhead
  released := []

inductive Op where
  | malloc (bytes : ℕ) (answer : Answer)
  | calloc (nElements elemSize : ℕ) (answer : Answer)
  | memalign (alignment bytes : ℕ) (answer : Answer)
  | posixMemalign (alignment size : ℕ) (answer : Except ℕ Answer)
  | alignedAlloc (alignment size : ℕ) (answer : Answer)
  | pvalloc (bytes : ℕ) (answer : Answer)
  | valloc (bytes : ℕ) (answer : Answer)
  | realloc (oldMem bytes : ℕ) (answer : Answer)
  | reallocArray (oldMem itemCount itemSize : ℕ) (answer : Answer)
  | free (mem : ℕ)

def step (a : Abi) (s : State) : Op → State
  | .malloc bytes answer => (limitMalloc s bytes answer).1
  | .calloc n size answer => (limitCalloc a s n size answer).1
  | .memalign alignment bytes answer => (limitMemalign s alignment bytes answer).1
  | .posixMemalign alignment size answer => (limitPosixMemalign s alignment size answer).1
  | .alignedAlloc alignment size answer => (limitAlignedAlloc s alignment size answer).1
  | .pvalloc bytes answer => (limitPvalloc s bytes answer).1
  | .valloc bytes answer => (limitValloc s bytes answer).1
  | .realloc oldMem bytes answer => (limitRealloc s oldMem bytes answer).1
  | .reallocArray oldMem count size answer => (limitReallocArray a s oldMem count size answer).1
  | .free mem => limitFree s mem

def total (bs : List Block) : ℕ := (bs.map Block.usable).sum

/-- Away from the live blocks, and what is in use fits 64 bits. -/
def Granted (s : State) (answer : Answer) : Prop :=
  ∀ p usable, answer = some (p, usable) → p ≠ 0 ∧ (∀ b ∈ s.blocks, b.address ≠ p) ∧
    s.overhead + total s.blocks + usable < 2 ^ 64

def Passed (s : State) (mem : ℕ) : Prop := mem = 0 ∨ ∃ b ∈ s.blocks, b.address = mem

def Valid (s : State) : Op → Prop
  | .malloc _ answer | .calloc _ _ answer | .memalign _ _ answer | .alignedAlloc _ _ answer
  | .pvalloc _ answer | .valloc _ answer => Granted s answer
  | .posixMemalign _ _ (.ok answer) => Granted s answer
  | .posixMemalign _ _ (.error retval) => retval ≠ 0
  | .realloc oldMem _ answer | .reallocArray oldMem _ _ answer =>
    Passed s oldMem ∧ Granted (s.release oldMem) answer
  | .free mem => Passed s mem

/-- An equation of integers, so nothing has wrapped. -/
def Balanced (s : State) : Prop :=
  (s.allocated : ℤ) = s.installed + total (s.blocks.filter fun b => !b.earlier) - total s.released

instance : DecidablePred Balanced := fun s =>
  inferInstanceAs (Decidable ((s.allocated : ℤ) = s.installed +
    total (s.blocks.filter fun b => !b.earlier) - total s.released))

/-- The underlying `realloc` is reached for a nonzero size and a block that has usable bytes, and
it fails. -/
def FailsOn (s : State) (oldMem bytes : ℕ) (answer : Answer) : Prop :=
  answer = none ∧ bytes ≠ 0 ∧ limitUsableSize s oldMem ≠ 0 ∧
    (limitUsableSize s oldMem < bytes → checkLimit s (bytes - limitUsableSize s oldMem))

def ReallocFails (a : Abi) (s : State) : Op → Prop
  | .realloc oldMem bytes answer => FailsOn s oldMem bytes answer
  | .reallocArray oldMem count size answer =>
    count * size < a.sizes ∧ FailsOn s oldMem (count * size) answer
  | _ => False

def Always (a : Abi) (P : State → Prop) : State → List Op → Prop
  | s, [] => P s
  | s, op :: ops => P s ∧ Always a P (step a s op) ops

def EachStep (a : Abi) (P : State → Op → Prop) : State → List Op → Prop
  | _, [] => True
  | s, op :: ops => P s op ∧ EachStep a P (step a s op) ops

variable {a : Abi} {s : State} {mem bytes oldMem : ℕ} {answer : Answer} {op : Op} {ops : List Op}

/-- The counter is exact, and what became of the earlier blocks is known. -/
structure Inv (s : State) : Prop where
  exact : s.allocated = s.overhead + total s.blocks
  fits : s.overhead + total s.blocks < 2 ^ 64
  history : s.installed = s.overhead + total (s.blocks.filter Block.earlier) + total s.released

@[simp] theorem total_nil : total [] = 0 := rfl

@[simp] theorem total_cons (b bs) : total (b :: bs) = b.usable + total bs :=
  rfl

theorem total_append (bs cs) : total (bs ++ cs) = total bs + total cs := by
  rw [total, map_append, sum_append, total, total]

theorem total_filter_add (p : Block → Bool) (bs) :
    total (bs.filter p) + total (bs.filter fun b => !p b) = total bs := by
  induction bs with
  | nil => rfl
  | cons b bs ih =>
    cases hb : p b with
    | true =>
      rw [filter_cons_of_pos hb, filter_cons_of_neg (by simp [hb]), total_cons, total_cons]
      omega
    | false =>
      rw [filter_cons_of_neg (by simp [hb]), filter_cons_of_pos (by simp [hb]),
        total_cons, total_cons]
      omega

theorem total_eraseP (p : Block → Bool) (bs) :
    total (bs.eraseP p) + ((bs.find? p).map Block.usable).getD 0 = total bs := by
  induction bs with
  | nil => rfl
  | cons b bs ih =>
    cases hb : p b with
    | true =>
      rw [eraseP_cons_of_pos hb, find?_cons_of_pos hb, total_cons, Option.map_some,
        Option.getD_some]
      omega
    | false =>
      rw [eraseP_cons_of_neg (by simp [hb]), find?_cons_of_neg (by simp [hb]), total_cons,
        total_cons]
      omega

theorem total_filter_eraseP (p q : Block → Bool) (bs : List Block) :
    total ((bs.eraseP p).filter q) + total ((bs.find? p).filter q).toList =
      total (bs.filter q) := by
  induction bs with
  | nil => rfl
  | cons b bs ih =>
    cases hb : p b with
    | true =>
      rw [eraseP_cons_of_pos hb, find?_cons_of_pos hb]
      cases hq : q b with
      | true =>
        rw [filter_cons_of_pos hq, Option.filter_some_pos hq]
        simp only [Option.toList_some, total_cons, total_nil]
        omega
      | false =>
        rw [filter_cons_of_neg (by simp [hq]), Option.filter_some_neg (by simp [hq])]
        rfl
    | false =>
      rw [eraseP_cons_of_neg (by simp [hb]), find?_cons_of_neg (by simp [hb])]
      cases hq : q b with
      | true =>
        rw [filter_cons_of_pos hq, filter_cons_of_pos hq, total_cons, total_cons]
        omega
      | false =>
        rw [filter_cons_of_neg (by simp [hq]), filter_cons_of_neg (by simp [hq])]
        exact ih

theorem total_release (s mem) :
    total (s.release mem).blocks + limitUsableSize s mem = total s.blocks :=
  total_eraseP _ s.blocks

theorem history_release (s : State) (mem) :
    total ((s.release mem).blocks.filter Block.earlier) + total (s.release mem).released =
      total (s.blocks.filter Block.earlier) + total s.released := by
  have hb : total ((s.release mem).blocks.filter Block.earlier) +
      total ((s.find mem).filter Block.earlier).toList = total (s.blocks.filter Block.earlier) :=
    total_filter_eraseP _ Block.earlier s.blocks
  have hr : total (s.release mem).released =
      total ((s.find mem).filter Block.earlier).toList + total s.released := total_append _ _
  omega

theorem usable_provide (s : State) (p usable) :
    limitUsableSize (s.provide (some (p, usable))).1 p = usable := by
  simp [limitUsableSize, State.find, State.provide]

theorem balanced_iff
    (h : s.installed = s.overhead + total (s.blocks.filter Block.earlier) + total s.released) :
    Balanced s ↔ s.allocated = s.overhead + total s.blocks := by
  have ht := total_filter_add Block.earlier s.blocks
  rw [Balanced, h]
  omega

section
variable (h : Inv s)
include h

theorem Inv.balanced : Balanced s := (balanced_iff h.history).2 h.exact

theorem Inv.provide (hg : Granted s answer) :
    Inv (incrementLimit (s.provide answer).1 (s.provide answer).2).1 := by
  cases answer with
  | none => exact h
  | some given =>
    obtain ⟨p, usable⟩ := given
    obtain ⟨hp, -, hf⟩ := hg p usable rfl
    have hs := usable_provide s p usable
    have hc : (incrementLimit (s.provide (some (p, usable))).1 p).1 =
        fetchAdd (s.provide (some (p, usable))).1 usable := by
      rw [incrementLimit, if_neg hp, hs]
    have hea := h.exact
    have ht : total (s.provide (some (p, usable))).1.blocks = usable + total s.blocks := rfl
    change Inv (incrementLimit (s.provide (some (p, usable))).1 p).1
    rw [hc]
    constructor
    · change (s.allocated + usable) % 2 ^ 64 = s.overhead + (usable + total s.blocks)
      omega
    · change s.overhead + (usable + total s.blocks) < 2 ^ 64
      omega
    · exact h.history

theorem Inv.allocate (hg : Granted s answer) : Inv (limitAllocate s bytes answer).1 := by
  rw [limitAllocate]
  split
  · exact h.provide hg
  · exact h

theorem Inv.posixMemalign {alignment size answer}
    (hv : Valid s (.posixMemalign alignment size answer)) :
    Inv (limitPosixMemalign s alignment size answer).1 := by
  cases answer with
  | error retval =>
    rw [limitPosixMemalign]
    split <;> exact h
  | ok answer =>
    rw [limitPosixMemalign]
    split
    · exact h.provide hv
    · exact h

theorem Inv.fetchSub_release (mem : ℕ) :
    Inv ((fetchSub s (limitUsableSize s mem)).release mem) := by
  have ht := total_release s mem
  have hh := history_release s mem
  have hea := h.exact
  have hf := h.fits
  have hin := h.history
  constructor
  · change (s.allocated + (2 ^ 64 - limitUsableSize s mem % 2 ^ 64)) % 2 ^ 64 =
      s.overhead + total (s.release mem).blocks
    omega
  · change s.overhead + total (s.release mem).blocks < 2 ^ 64
    omega
  · change s.installed = s.overhead + total ((s.release mem).blocks.filter Block.earlier) +
      total (s.release mem).released
    omega

end

theorem limitRealloc_of_check (h : limitUsableSize s oldMem < bytes →
      checkLimit s (bytes - limitUsableSize s oldMem)) : (limitRealloc s oldMem bytes none).1 =
      fetchSub (if bytes = 0 then s.release oldMem else s) (limitUsableSize s oldMem) ∧
    ∀ p usable, p ≠ 0 → (limitRealloc s oldMem bytes (some (p, usable))).1 =
      if usable < limitUsableSize s oldMem then
        fetchSub ((s.release oldMem).provide (some (p, usable))).1
          (limitUsableSize s oldMem - usable)
      else fetchAdd ((s.release oldMem).provide (some (p, usable))).1
          (usable - limitUsableSize s oldMem) := by
  have hc : (decide (limitUsableSize s oldMem < bytes) &&
      !checkLimit s (bytes - limitUsableSize s oldMem)) = false := by
    by_cases hl : limitUsableSize s oldMem < bytes
    · rw [h hl, Bool.not_true, Bool.and_false]
    · rw [decide_eq_false hl, Bool.false_and]
  constructor
  · rw [limitRealloc]
    dsimp only
    rw [if_neg (ne_true_of_eq_false hc), State.reallocate]
    split <;> rfl
  intro p usable hp
  have hs := usable_provide (s.release oldMem) p usable
  rw [limitRealloc]
  dsimp only
  have hpr : ((s.release oldMem).provide (some (p, usable))).2 ≠ 0 := hp
  change limitUsableSize _ ((s.release oldMem).provide (some (p, usable))).2 = _ at hs
  rw [if_neg (ne_true_of_eq_false hc), State.reallocate, if_neg hpr, hs]
  split <;> rfl

theorem limitRealloc_of_exceeded (hl : limitUsableSize s oldMem < bytes)
    (h : checkLimit s (bytes - limitUsableSize s oldMem) = false) :
    (limitRealloc s oldMem bytes answer).1 = s := by
  rw [limitRealloc]
  rw [decide_eq_true hl, h]
  rfl

theorem Inv.realloc (h : Inv s) (hg : Granted (s.release oldMem) answer)
    (hk : ¬FailsOn s oldMem bytes answer) : Inv (limitRealloc s oldMem bytes answer).1 := by
  by_cases hc : limitUsableSize s oldMem < bytes → checkLimit s (bytes - limitUsableSize s oldMem)
  · cases answer with
    | some given =>
      obtain ⟨p, usable⟩ := given
      obtain ⟨hn, -, hr⟩ := hg p usable rfl
      have ht := total_release s oldMem
      have hh := history_release s oldMem
      have hea := h.exact
      have hf := h.fits
      have hin := h.history
      change s.overhead + total (s.release oldMem).blocks + usable < 2 ^ 64 at hr
      have hl : s.overhead + (usable + total (s.release oldMem).blocks) < 2 ^ 64 := by omega
      have ho : s.installed = s.overhead +
          total ((s.release oldMem).blocks.filter Block.earlier) +
          total (s.release oldMem).released := by
        omega
      rw [(limitRealloc_of_check hc).2 p usable hn]
      split <;> refine ⟨?_, hl, ho⟩
      · change (s.allocated + (2 ^ 64 - (limitUsableSize s oldMem - usable) % 2 ^ 64)) % 2 ^ 64 =
          s.overhead + (usable + total (s.release oldMem).blocks)
        omega
      · change (s.allocated + (usable - limitUsableSize s oldMem)) % 2 ^ 64 =
          s.overhead + (usable + total (s.release oldMem).blocks)
        omega
    | none =>
      rw [(limitRealloc_of_check hc).1]
      by_cases hb : bytes = 0
      · rw [if_pos hb]
        exact h.fetchSub_release oldMem
      have hep : limitUsableSize s oldMem = 0 := by
        by_contra hne
        exact hk ⟨rfl, hb, hne, hc⟩
      have hs : fetchSub s 0 = s := by
        have hlt : s.allocated < 2 ^ 64 := h.exact ▸ h.fits
        have hm : (s.allocated + (2 ^ 64 - 0 % 2 ^ 64)) % 2 ^ 64 = s.allocated := by omega
        rw [fetchSub, hm]
      rw [if_neg hb, hep, hs]
      exact h
  · rw [Classical.not_imp] at hc
    rw [limitRealloc_of_exceeded hc.1 (Bool.not_eq_true _ ▸ hc.2)]
    exact h

theorem not_balanced_of_failsOn (h : Inv s) (hf : FailsOn s oldMem bytes answer) :
    ¬Balanced (limitRealloc s oldMem bytes answer).1 := by
  obtain ⟨rfl, hb, hs, hc⟩ := hf
  have ht := total_release s oldMem
  have hea := h.exact
  have hft := h.fits
  have hh : (fetchSub s (limitUsableSize s oldMem)).installed = s.overhead +
      total (s.blocks.filter Block.earlier) + total s.released := h.history
  rw [(limitRealloc_of_check hc).1, if_neg hb, balanced_iff hh]
  change (s.allocated + (2 ^ 64 - limitUsableSize s oldMem % 2 ^ 64)) % 2 ^ 64 ≠
    s.overhead + total s.blocks
  omega

theorem Inv.step (h : Inv s) (hv : Valid s op) (hk : ¬ReallocFails a s op) : Inv (step a s op) := by
  cases op with
  | malloc bytes answer | pvalloc bytes answer | valloc bytes answer => exact h.allocate hv
  | memalign alignment bytes answer => exact h.allocate hv
  | alignedAlloc alignment size answer => exact h.allocate hv
  | calloc n size answer =>
    rw [MallocLimit.step, limitCalloc]
    split
    · exact h.allocate hv
    · exact h
  | posixMemalign alignment size answer => exact h.posixMemalign hv
  | realloc oldMem bytes answer => exact h.realloc hv.2 hk
  | reallocArray oldMem count size answer =>
    rw [MallocLimit.step, limitReallocArray]
    split
    · rename_i hl
      exact h.realloc hv.2 fun hf => hk ⟨hl, hf⟩
    · exact h
  | free mem => exact h.fetchSub_release mem

theorem not_balanced_of_reallocFails (h : Inv s) (hf : ReallocFails a s op) :
    ¬Balanced (step a s op) := by
  cases op with
  | realloc oldMem bytes answer => exact not_balanced_of_failsOn h hf
  | reallocArray oldMem count size answer =>
    rw [MallocLimit.step, limitReallocArray, if_pos hf.1]
    exact not_balanced_of_failsOn h hf.2
  | _ => exact absurd hf id

theorem Always.head {P} (h : Always a P s ops) : P s := by
  cases ops with
  | nil => exact h
  | cons op ops => exact h.1

theorem Inv.run (h : Inv s) (hv : EachStep a Valid s ops) :
    Always a Balanced s ops ↔ EachStep a (fun s op => ¬ReallocFails a s op) s ops := by
  induction ops generalizing s with
  | nil => exact ⟨fun _ => trivial, fun _ => h.balanced⟩
  | cons op ops ih =>
    obtain ⟨hop, ho⟩ := hv
    constructor
    · rintro ⟨-, ha⟩
      have hk : ¬ReallocFails a s op :=
        fun hf => not_balanced_of_reallocFails h hf ha.head
      exact ⟨hk, (ih (h.step hop hk) ho).1 ha⟩
    · rintro ⟨hk, hr⟩
      exact ⟨h.balanced, (ih (h.step hop hk) ho).2 hr⟩

theorem Inv.enable {limit overhead blocks} (h : overhead + (blocks.map Prod.snd).sum < 2 ^ 64) :
    Inv (limitEnable limit overhead blocks) := by
  have ht : total (limitEnable limit overhead blocks).blocks = (blocks.map Prod.snd).sum := by
    rw [total, limitEnable, map_map]
    rfl
  have hea : (limitEnable limit overhead blocks).blocks.filter Block.earlier =
      (limitEnable limit overhead blocks).blocks := by
    rw [filter_eq_self]
    intro b hb
    obtain ⟨x, -, rfl⟩ := List.mem_map.1 hb
    rfl
  constructor
  · rw [ht]
    rfl
  · rw [ht]
    exact h
  · rw [hea, ht]
    rfl

/-- From the moment the limit is installed, the counter is what it is meant to be after every call
exactly as long as no `realloc` of the underlying allocator fails on a block. -/
theorem balanced_iff_no_realloc_fails (a : Abi) (limit overhead : ℕ) (blocks : List (ℕ × ℕ))
    (ops : List Op) (hfits : overhead + (blocks.map Prod.snd).sum < 2 ^ 64)
    (hvalid : EachStep a Valid (limitEnable limit overhead blocks) ops) :
    Always a Balanced (limitEnable limit overhead blocks) ops ↔
      EachStep a (fun s op => ¬ReallocFails a s op) (limitEnable limit overhead blocks) ops :=
  (Inv.enable hfits).run hvalid

/-- A block of 16 bytes is allocated, resized and freed. -/
theorem balanced_iff_no_realloc_fails_resized :
    Always .lp64 Balanced (limitEnable 1000 0 [(4096, 100)])
      [.malloc 16 (some (8192, 16)), .realloc 8192 32 (some (12288, 48)), .free 4096,
        .free 12288] := by
  refine (balanced_iff_no_realloc_fails .lp64 1000 0 [(4096, 100)] _ (by decide) ?_).2 ?_
  · refine ⟨?_, ⟨.inr ⟨_, mem_cons_self, rfl⟩, ?_⟩, ?_, ?_, trivial⟩
    · rintro p usable ⟨⟩
      decide
    · rintro p usable ⟨⟩
      decide
    · exact .inr ⟨_, mem_cons_of_mem _ mem_cons_self, rfl⟩
    · exact .inr ⟨_, mem_cons_self, rfl⟩
  · refine ⟨id, ?_, id, id, trivial⟩
    rintro ⟨hn, -⟩
    cases hn

/-- `realloc` fails for a block of 16 bytes. The counter forgets the block, and wraps below zero
when it is freed. -/
theorem failed_realloc_unbalanced : let s := limitEnable 1000 0 []
    let ops : List Op := [.malloc 16 (some (8192, 16)), .realloc 8192 32 none, .free 8192]
    EachStep .lp64 Valid s ops ∧ ¬Always .lp64 Balanced s ops ∧
      (step .lp64 (step .lp64 (step .lp64 s (.malloc 16 (some (8192, 16)))) (.realloc 8192 32 none))
        (.free 8192)).allocated = 2 ^ 64 - 16 := by
  refine ⟨⟨?_, ⟨.inr ⟨_, mem_cons_self, rfl⟩, ?_⟩, ?_, trivial⟩, ?_, by decide⟩
  · rintro p usable ⟨⟩
    decide
  · rintro p usable ⟨⟩
  · exact .inr ⟨_, mem_cons_self, rfl⟩
  · rintro ⟨-, -, h, -⟩
    exact absurd h (by decide)

end MallocLimit
