import Mathlib

/-!
# The options of malloc debug

`Config::Init`: what each option writes to the fields of the configuration, and for which options
the order in which they are given does not matter.
-/
namespace MallocDebugConfig

open List

inductive Value where
  | num (n : ℕ)
  | text (s : String)
  deriving DecidableEq

def Value.unset : Value → Bool
  | .num n => n = 0
  | .text s => s = ""

inductive Field where
  | frontGuardBytes | rearGuardBytes | fillOnAllocBytes | fillOnFreeBytes | backtraceEnabled
  | backtraceEnableOnSignal | backtraceFrames | backtraceDumpOnExit | backtraceDumpPrefix
  | backtraceMinSizeBytes | backtraceMaxSizeBytes | expandAllocBytes | freeTrackAllocations
  | freeTrackBacktraceNumFrames | recordAllocsNumEntries | recordAllocsFile | recordAllocsOnExit
  deriving DecidableEq

/-- A field is set to the value given, to a constant, or to a constant where it is still zero or
empty. -/
inductive Write where
  | given (v : Value)
  | const (v : Value)
  | ifUnset (v : Value)
  deriving DecidableEq

def Write.apply (current : Value) : Write → Value
  | .given v => v
  | .const v => v
  | .ifUnset v => if current.unset then v else current

abbrev Writes := List (Field × Write)

def sizeMax : ℕ := 2 ^ 64 - 1

def defaultRecordAllocsFile : Value := .text "/data/local/tmp/record_allocs.txt"

def defaultBacktraceDumpPrefix : Value := .text "/data/local/tmp/backtrace_heap"

def alignUp (n : ℕ) : ℕ := (n + 15) / 16 * 16

variable (strtol : String → Option ℕ)

/-- None where `strtol` fails or the number is negative. -/
def parseValue (value : String) (minValue maxValue : ℕ) : Option ℕ :=
  (strtol value).filter fun n => minValue ≤ n ∧ n ≤ maxValue

/-- Set from one number, or to the default if no value is given. -/
def setSizes (value : String) (default minValue maxValue : ℕ) (fields : List (Field × (ℕ → ℕ))) :
    Option Writes :=
  if value = "" then some (fields.map fun f => (f.1, .const (.num default)))
  else (parseValue strtol value minValue maxValue).map fun n =>
    fields.map fun f => (f.1, .given (.num (f.2 n)))

def setRequired (value : String) (fields : List Field) : Option Writes :=
  if value = "" then none
  else (parseValue strtol value 1 sizeMax).map fun n => fields.map (·, .given (.num n))

def setText (value : String) (default : Value) (f : Field) : Option Writes :=
  some [(f, if value = "" then .const default else .given (.text value))]

def ifEmpty (value : String) (ws : Writes) : Option Writes :=
  if value = "" then some ws else none

inductive ProcessFunc where
  | setGuard | setFrontGuard | setRearGuard | setFill | setFillOnAlloc | setFillOnFree
  | setBacktrace | setBacktraceEnableOnSignal | setBacktraceDumpOnExit | setBacktraceDumpPrefix
  | setBacktraceSize | setBacktraceMinSize | setBacktraceMaxSize | setExpandAlloc | setFreeTrack
  | setFreeTrackBacktraceNumFrames | setRecordAllocs | setRecordAllocsFile
  | setRecordAllocsOnExit | verifyValueEmpty

/-- None where the function returns false. -/
def ProcessFunc.writes (v : String) : ProcessFunc → Option Writes
  | setGuard => setSizes strtol v 32 1 16384 [(.rearGuardBytes, id), (.frontGuardBytes, alignUp)]
  | setFrontGuard => setSizes strtol v 32 1 16384 [(.frontGuardBytes, alignUp)]
  | setRearGuard => setSizes strtol v 32 1 16384 [(.rearGuardBytes, id)]
  | setFill => setSizes strtol v sizeMax 1 sizeMax [(.fillOnAllocBytes, id), (.fillOnFreeBytes, id)]
  | setFillOnAlloc => setSizes strtol v sizeMax 1 sizeMax [(.fillOnAllocBytes, id)]
  | setFillOnFree => setSizes strtol v sizeMax 1 sizeMax [(.fillOnFreeBytes, id)]
  | setBacktrace => (setSizes strtol v 16 1 256 [(.backtraceFrames, id)]).map
      ((.backtraceEnabled, .const (.num 1)) :: ·)
  | setBacktraceEnableOnSignal => (setSizes strtol v 16 1 256 [(.backtraceFrames, id)]).map
      ((.backtraceEnableOnSignal, .const (.num 1)) :: ·)
  | setBacktraceDumpOnExit =>
    ifEmpty v [(.backtraceDumpOnExit, .const (.num 1))]
  | setBacktraceDumpPrefix => setText v defaultBacktraceDumpPrefix .backtraceDumpPrefix
  | setBacktraceSize => setRequired strtol v [.backtraceMinSizeBytes, .backtraceMaxSizeBytes]
  | setBacktraceMinSize => setRequired strtol v [.backtraceMinSizeBytes]
  | setBacktraceMaxSize => setRequired strtol v [.backtraceMaxSizeBytes]
  | setExpandAlloc => setSizes strtol v 16 1 16384 [(.expandAllocBytes, id)]
  | setFreeTrack => (setSizes strtol v 100 1 16384 [(.freeTrackAllocations, id)]).map
      ([(.fillOnFreeBytes, .ifUnset (.num sizeMax)),
        (.freeTrackBacktraceNumFrames, .ifUnset (.num 16))] ++ ·)
  | setFreeTrackBacktraceNumFrames =>
    setSizes strtol v 16 0 256 [(.freeTrackBacktraceNumFrames, id)]
  | setRecordAllocs => (setSizes strtol v 8000000 1 50000000 [(.recordAllocsNumEntries, id)]).map
      ((.recordAllocsFile, .ifUnset defaultRecordAllocsFile) :: ·)
  | setRecordAllocsFile => setText v defaultRecordAllocsFile .recordAllocsFile
  | setRecordAllocsOnExit =>
    ifEmpty v [(.recordAllocsOnExit, .const (.num 1))]
  | verifyValueEmpty => ifEmpty v []

def kOptions : List (String × ℕ × ProcessFunc) :=
  [("guard", 0x83, .setGuard), ("front_guard", 0x81, .setFrontGuard),
   ("rear_guard", 0x82, .setRearGuard), ("backtrace_size", 0x4000, .setBacktraceSize),
   ("bt_sz", 0x4000, .setBacktraceSize), ("backtrace_min_size", 0x4000, .setBacktraceMinSize),
   ("bt_min_sz", 0x4000, .setBacktraceMinSize),
   ("backtrace_max_size", 0x4000, .setBacktraceMaxSize),
   ("bt_max_sz", 0x4000, .setBacktraceMaxSize), ("backtrace", 0x84, .setBacktrace),
   ("bt", 0x84, .setBacktrace),
   ("backtrace_enable_on_signal", 0x84, .setBacktraceEnableOnSignal),
   ("bt_en_on_sig", 0x84, .setBacktraceEnableOnSignal),
   ("backtrace_dump_on_exit", 0, .setBacktraceDumpOnExit),
   ("bt_dmp_on_ex", 0, .setBacktraceDumpOnExit),
   ("backtrace_dump_prefix", 0, .setBacktraceDumpPrefix),
   ("bt_dmp_pre", 0, .setBacktraceDumpPrefix), ("backtrace_full", 0x400, .verifyValueEmpty),
   ("bt_full", 0x400, .verifyValueEmpty), ("fill", 0x18, .setFill),
   ("fill_on_alloc", 0x8, .setFillOnAlloc), ("fill_on_free", 0x10, .setFillOnFree),
   ("expand_alloc", 0x20, .setExpandAlloc), ("free_track", 0xd0, .setFreeTrack),
   ("free_track_backtrace_num_frames", 0, .setFreeTrackBacktraceNumFrames),
   ("leak_track", 0x180, .verifyValueEmpty), ("record_allocs", 0x200, .setRecordAllocs),
   ("record_allocs_file", 0, .setRecordAllocsFile),
   ("record_allocs_on_exit", 0, .setRecordAllocsOnExit),
   ("verify_pointers", 0x80, .verifyValueEmpty),
   ("abort_on_error", 0x800, .verifyValueEmpty), ("verbose", 0x1000, .verifyValueEmpty),
   ("check_unreachable_on_signal", 0x2000, .verifyValueEmpty),
   ("log_allocator_stats_on_signal", 0x8000, .verifyValueEmpty),
   ("log_allocator_stats_on_exit", 0x10000, .verifyValueEmpty)]

structure Config where
  fields : Field → Value
  options : ℕ

def Config.start : Config where
  fields
    | .backtraceDumpPrefix => defaultBacktraceDumpPrefix
    | .backtraceMaxSizeBytes => .num sizeMax
    | .recordAllocsFile => .text ""
    | _ => .num 0
  options := 0

/-- None where the option is unknown or its value not valid. -/
def process (o : String × String) : Option (ℕ × Writes) := do
  let info ← kOptions.lookup o.1
  let ws ← info.2.writes strtol o.2
  some (info.1, ws)

/-- One turn of the loop of `Init`. A function assigns no field twice. -/
def set (c : Config) (o : String × String) : Option Config :=
  (process strtol o).map fun p =>
    { fields := fun f => (p.2.lookup f).elim (c.fields f) (Write.apply (c.fields f))
      options := c.options ||| p.1 }

/-- None where it returns false. -/
def init (opts : List (String × String)) : Option Config := opts.foldlM (set strtol) .start

def writesOf (o : String × String) (f : Field) : Option Write :=
  (process strtol o).bind (·.2.lookup f)

variable (opts : List (String × String))

def fieldWrites (f : Field) : List Write :=
  opts.filterMap (writesOf strtol · f)

abbrev Valid : Prop := ∀ o ∈ opts, (process strtol o).isSome

/-- Every order gives the same, with the values that were given. -/
def OrderFree : Prop :=
  ∀ opts', opts'.Perm opts → init strtol opts' = init strtol opts ∧
    ∀ c, init strtol opts' = some c → ∀ f v, .given v ∈ fieldWrites strtol opts f → c.fields f = v

def after (c : Config) : Config where
  fields f := (fieldWrites strtol opts f).foldl Write.apply (c.fields f)
  options := opts.foldl (fun n o => n ||| ((process strtol o).map Prod.fst).getD 0) c.options

/-- No option would change a value that was given. -/
def Compatible : Prop :=
  ∀ f v, .given v ∈ fieldWrites strtol opts f → ∀ w ∈ fieldWrites strtol opts f, w.apply v = v

/-- The constant of the options that set a field without a value. -/
def Field.const : Field → Value
  | .frontGuardBytes | .rearGuardBytes => .num 32
  | .fillOnAllocBytes | .fillOnFreeBytes => .num sizeMax
  | .backtraceFrames | .expandAllocBytes | .freeTrackBacktraceNumFrames => .num 16
  | .backtraceDumpPrefix => defaultBacktraceDumpPrefix
  | .freeTrackAllocations => .num 100
  | .recordAllocsNumEntries => .num 8000000
  | .recordAllocsFile => defaultRecordAllocsFile
  | _ => .num 1

variable {strtol opts} {f : Field} {v : Value} {w : Write}

/-- From the start or the constant of the field a write leaves that constant, unless it is of a
given value. -/
def Settles (f : Field) (w : Write) : Prop :=
  (∃ v, w = .given v) ∨ ∀ c, c = Config.start.fields f ∨ c = f.const → w.apply c = f.const

theorem settles_given (f v) : Settles f (.given v) := .inl ⟨v, rfl⟩

theorem settles_const_iff {f v} : Settles f (.const v) ↔ v = f.const :=
  ⟨fun h => (h.resolve_left nofun) _ (.inl rfl), fun h => .inr fun _ _ => h⟩

theorem settles_ifUnset {f v} (h : v = f.const ∧ ¬ v.unset ∧ (Config.start.fields f).unset) :
    Settles f (.ifUnset v) := by
  refine .inr fun c hc => ?_
  rcases hc with rfl | rfl
  · exact (if_pos h.2.2).trans h.1
  · exact if_neg (h.1 ▸ h.2.1)

theorem settles_writes {func : ProcessFunc} {value ws} (h : func.writes strtol value = some ws) :
    ∀ p ∈ ws, Settles p.1 p.2 := by
  by_cases hv : value = "" <;> cases func <;>
    simp [ProcessFunc.writes, setSizes, setRequired, setText, ifEmpty, hv] at h <;>
    first
    | subst h
    | obtain ⟨n, -, rfl⟩ := h
  all_goals
    simp [settles_given, settles_const_iff, settles_ifUnset, Field.const, Value.unset,
      Config.start, sizeMax, defaultRecordAllocsFile]

theorem settles_writesOf {o} (h : writesOf strtol o f = some w) : Settles f w := by
  simp only [writesOf, process, Option.bind_eq_bind, Option.bind_eq_some_iff] at h
  obtain ⟨p, ⟨info, -, ws, hw, hp⟩, hl⟩ := h
  cases hp
  obtain ⟨_, _, rfl, -⟩ := lookup_eq_some_iff.mp hl
  exact settles_writes hw (f, w) (by simp)

theorem foldl_const {ws : List Write} (hs : ∀ w ∈ ws, Settles f w) (hg : ∀ v, .given v ∉ ws)
    {c} (hc : c = Config.start.fields f ∨ c = f.const) :
    ws.foldl Write.apply c = if ws = [] then c else f.const := by
  induction ws generalizing c with
  | nil => rfl
  | cons w ws ih =>
    have hw := (hs w mem_cons_self).resolve_left fun ⟨v, h⟩ => hg v (h ▸ mem_cons_self)
    rw [foldl_cons, hw c hc, ih (fun w h => hs w (mem_cons_of_mem _ h))
      (fun v h => hg v (mem_cons_of_mem _ h)) (.inr rfl)]
    simp

theorem foldl_given {ws : List Write} (hv : .given v ∈ ws) (ha : ∀ w ∈ ws, w.apply v = v) (c) :
    ws.foldl Write.apply c = v := by
  obtain ⟨pre, post, rfl⟩ := append_of_mem hv
  rw [foldl_append, foldl_cons]
  have hp : ∀ w ∈ post, w.apply v = v := fun w h => ha w (by simp [h])
  clear ha hv
  induction post with
  | nil => rfl
  | cons w post ih =>
    rw [foldl_cons, Write.apply, hp w mem_cons_self]
    exact ih fun w h => hp w (mem_cons_of_mem _ h)

theorem foldlM_eq (h : Valid strtol opts) (c) :
    opts.foldlM (set strtol) c = some (after strtol opts c) := by
  induction opts generalizing c with
  | nil => rfl
  | cons o opts ih =>
    obtain ⟨p, hp⟩ := Option.isSome_iff_exists.mp (h o mem_cons_self)
    rw [foldlM_cons, set, hp, Option.map_some]
    refine (ih (fun o h' => h o (mem_cons_of_mem _ h')) _).trans ?_
    rw [after, after, Option.some.injEq, Config.mk.injEq]
    refine ⟨funext fun f => ?_, by simp [hp]⟩
    cases hl : p.2.lookup f <;> simp [fieldWrites, writesOf, hp, hl]

theorem after_perm (hc : Compatible strtol opts) {opts'} (hp : opts'.Perm opts) :
    after strtol opts' .start = after strtol opts .start := by
  rw [after, after, Config.mk.injEq]
  refine ⟨funext fun f => ?_, hp.foldl_eq' (fun _ _ _ _ _ => by ac_rfl) _⟩
  have hw : (fieldWrites strtol opts' f).Perm (fieldWrites strtol opts f) := hp.filterMap _
  by_cases hg : ∃ v, .given v ∈ fieldWrites strtol opts f
  · obtain ⟨v, hv⟩ := hg
    rw [foldl_given hv (hc f v hv),
      foldl_given (hw.mem_iff.mpr hv) fun w h => hc f v hv w (hw.mem_iff.mp h)]
  have hs : ∀ w ∈ fieldWrites strtol opts f, Settles f w := fun w h => by
    obtain ⟨o, -, ho⟩ := mem_filterMap.mp h
    exact settles_writesOf ho
  rw [foldl_const hs (fun v h => hg ⟨v, h⟩) (.inl rfl), foldl_const
    (fun w h => hs w (hw.mem_iff.mp h)) (fun v h => hg ⟨v, hw.mem_iff.mp h⟩) (.inl rfl)]
  simp [← length_eq_zero_iff, hw.length_eq]

theorem perm_snoc_snoc {a b : String × String} (ha : a ∈ opts) (hb : b ∈ opts) (hab : a ≠ b) :
    ∃ rest, (rest ++ [a, b]).Perm opts := by
  have hb' : b ∈ opts.erase a := (mem_erase_of_ne hab.symm).mpr hb
  refine ⟨(opts.erase a).erase b, perm_append_comm.trans ?_⟩
  exact (((perm_cons_erase hb').cons a).symm.trans (perm_cons_erase ha).symm)

theorem orderFree_iff (hv : Valid strtol opts) :
    OrderFree strtol opts ↔ Compatible strtol opts := by
  have hi : ∀ opts' : List (String × String), opts'.Perm opts →
      init strtol opts' = some (after strtol opts' .start) := fun opts' hp =>
    foldlM_eq (fun o ho => hv o (hp.mem_iff.mp ho)) .start
  constructor
  · intro h f v hm w hw
    obtain ⟨a, ha, hav⟩ := mem_filterMap.mp hm
    obtain ⟨b, hb, hbw⟩ := mem_filterMap.mp hw
    by_cases hab : a = b
    · subst hab
      cases hav.symm.trans hbw
      rfl
    · obtain ⟨rest, hp⟩ := perm_snoc_snoc ha hb hab
      have hf := (h _ hp).2 _ (hi _ hp) f v hm
      simpa [after, fieldWrites, hav, hbw, Write.apply] using hf
  · intro h opts' hp
    refine ⟨by rw [hi _ hp, hi _ (.refl _), after_perm h hp], fun c hc f v hm => ?_⟩
    cases (hi _ hp).symm.trans hc
    rw [after_perm h hp]
    exact foldl_given hm (h f v hm) _

def framesThenBacktrace : List (String × String) :=
  [("backtrace_enable_on_signal", "8"), ("backtrace", "")]

theorem orderFree_framesThenBacktrace : OrderFree (fun _ => some 8) framesThenBacktrace ↔
    Compatible (fun _ => some 8) framesThenBacktrace :=
  orderFree_iff (by decide)

theorem framesThenBacktrace_frames :
    (init (fun _ => some 8) framesThenBacktrace).map (·.fields .backtraceFrames) = some (.num 16) ∧
      (init (fun _ => some 8) framesThenBacktrace.reverse).map (·.fields .backtraceFrames) =
        some (.num 8) := by
  decide

end MallocDebugConfig
