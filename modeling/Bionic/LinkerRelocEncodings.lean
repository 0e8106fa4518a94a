import Bionic.LinkerRelocate

/-! RELR relocations, whose entries are addresses and bitmaps, read back. -/
namespace LinkerRelocEncodings
open LinkerLookup LinkerRelocate

/-- The set bits of a bitmap, for words from `base` on. -/
def marked (wordSize : ℕ) : ℕ → List Bool → List ℕ
  | _, [] => []
  | base, bit :: bits => (if bit then [base] else []) ++ marked wordSize (base + wordSize) bits

def bitmapWord : List Bool → ℕ
  | [] => 0
  | bit :: bits => bit.toNat + 2 * bitmapWord bits

/-- The entries that encode a list of addresses. An even word is an address; an odd word after it
has a bit for each of the next words. -/
inductive RelrEncodes (a : Arch) : ℕ → List ℕ → List ℕ → Prop
  | nil (base : ℕ) : RelrEncodes a base [] []
  | address {base addr : ℕ} {addrs entries : List ℕ} (even : addr % 2 = 0)
      (rest : RelrEncodes a (addr + a.wordSize) addrs entries) :
      RelrEncodes a base (addr :: addrs) (addr :: entries)
  | bitmap {base : ℕ} {bits : List Bool} {addrs entries : List ℕ}
      (length : bits.length = 8 * a.wordSize - 1)
      (rest : RelrEncodes a (base + (8 * a.wordSize - 1) * a.wordSize) addrs entries) :
      RelrEncodes a base (marked a.wordSize base bits ++ addrs)
        ((1 + 2 * bitmapWord bits) :: entries)

variable {r : Relocator} {mem mem' : Memory} {base base' : ℕ} {addrs entries : List ℕ}

def relocateAll (r : Relocator) (addrs : List ℕ) (mem : Memory) : Memory :=
  addrs.foldl (fun mem addr => applyRelrReloc r addr mem) mem

def destination (r : Relocator) (addr : ℕ) : ℕ := r.arch.wrap (addr + r.own.loadBias)

/-- What `apply_relr_reloc` stores in place of a word. -/
def relocated (r : Relocator) (word : ℕ) : ℕ :=
  let value := r.arch.wrap (word + r.own.loadBias)
  if r.own.shouldTagMemtagGlobals then r.getTaggedAddress value else value

variable {bits : List Bool} {x y : ℕ}

theorem wrap_add {a : Arch} (h : a.wrap x = a.wrap y) (n) : a.wrap (x + n) = a.wrap (y + n) :=
  Nat.ModEq.add_right n h

theorem applyRelrReloc_congr (h : r.arch.wrap x = r.arch.wrap y) :
    applyRelrReloc r x = applyRelrReloc r y := by
  have hd : r.arch.wrap (x + r.own.loadBias) = r.arch.wrap (y + r.own.loadBias) :=
    wrap_add h _
  funext mem
  rw [applyRelrReloc, applyRelrReloc, hd]

theorem wrap_wrap (a : Arch) (x) : a.wrap (a.wrap x) = a.wrap x := Nat.mod_mod _ _

theorem relocateAll_marked_congr (bits) (h : r.arch.wrap base = r.arch.wrap base') :
    relocateAll r (marked r.arch.wordSize base bits) mem =
      relocateAll r (marked r.arch.wordSize base' bits) mem := by
  induction bits generalizing base base' mem with
  | nil => rfl
  | cons bit bits ih =>
    cases bit with
    | false => exact ih (wrap_add h _)
    | true =>
      change relocateAll r _ (applyRelrReloc r base mem) =
        relocateAll r _ (applyRelrReloc r base' mem)
      rw [applyRelrReloc_congr h]
      exact ih (wrap_add h _)

theorem relrBitmap_zero (n offset) : relrBitmap r n 0 offset mem = mem := by
  cases n <;> simp [relrBitmap]

theorem relocateAll_marked_zero (h : bitmapWord bits = 0) (base) :
    relocateAll r (marked r.arch.wordSize base bits) mem = mem := by
  induction bits generalizing base with
  | nil => rfl
  | cons bit bits ih =>
    rw [bitmapWord] at h
    cases bit with
    | false => exact ih (by omega) _
    | true =>
      rw [Bool.toNat_true] at h
      omega

/-- `entry` still has the bit of the word before in front of the bits to come. -/
theorem relrBitmap_eq {entry n} (hey : entry / 2 = bitmapWord bits)
    (hn : bits.length ≤ n) (offset) : relrBitmap r n entry offset mem =
      relocateAll r (marked r.arch.wordSize offset bits) mem := by
  induction bits generalizing entry n offset mem with
  | nil =>
    cases n with
    | zero => rfl
    | succ n =>
      rw [relrBitmap]
      split
      · rfl
      · rw [hey]
        exact relrBitmap_zero n _
  | cons bit bits ih =>
    obtain ⟨n, rfl⟩ : ∃ m, n = m + 1 := ⟨n - 1, by rw [List.length_cons] at hn; omega⟩
    rw [relrBitmap]
    split
    · rename_i hz
      rw [hz] at hey
      exact (relocateAll_marked_zero hey.symm offset).symm
    rw [hey, bitmapWord]
    have hl : bits.length ≤ n := by rw [List.length_cons] at hn; omega
    dsimp only
    cases bit with
    | false =>
      rw [Bool.toNat_false, if_neg (by omega)]
      exact ih (by omega) hl _
    | true =>
      rw [Bool.toNat_true, if_pos (by omega)]
      exact ih (by omega) hl _

theorem relocateRelr_eq (h : RelrEncodes r.arch base addrs entries)
    (hba : r.arch.wrap base' = r.arch.wrap base) :
    relocateRelr r entries base' mem = relocateAll r addrs mem := by
  induction h generalizing base' mem with
  | nil => rfl
  | address even rest ih =>
    rw [relocateRelr, if_pos even]
    exact ih (wrap_wrap _ _)
  | @bitmap base bits addrs entries length rest ih =>
    have ho : ¬(1 + 2 * bitmapWord bits) % 2 = 0 := by omega
    have hb : (1 + 2 * bitmapWord bits) / 2 = bitmapWord bits := by omega
    rw [relocateRelr, if_neg ho, relrBitmap_eq hb (by omega), relocateAll_marked_congr bits hba, ih]
    · exact (List.foldl_append ..).symm
    · rw [wrap_wrap]
      exact wrap_add hba _

theorem write_of_outside {size addr value b} (h : b < addr ∨ addr + size ≤ b) :
    mem.write size addr value b = mem b := by
  induction size generalizing mem addr value with
  | zero => rfl
  | succ size ih =>
    rw [Memory.write, ih (by omega), if_neg (by omega)]

theorem read_congr {size addr} (h : ∀ b, addr ≤ b → b < addr + size → mem b = mem' b) :
    mem.read size addr = mem'.read size addr := by
  induction size generalizing addr with
  | zero => rfl
  | succ size ih =>
    rw [Memory.read, Memory.read, h addr le_rfl (by omega),
      ih fun b hl hlt => h b (by omega) (by omega)]

theorem read_write (size addr value) :
    (mem.write size addr value).read size addr = value % 256 ^ size := by
  induction size generalizing mem addr value with
  | zero => simp [Memory.read, Nat.mod_one]
  | succ size ih =>
    rw [Memory.read, Memory.write, ih, write_of_outside (.inl (by omega)), if_pos rfl,
      UInt8.toNat_ofNat', Nat.pow_succ' (m := 256), Nat.mod_mul]

theorem wordSize_cases (a : Arch) : a.wordSize = 8 ∨ a.wordSize = 4 := by
  rw [Arch.wordSize]
  split
  · exact .inl rfl
  · exact .inr rfl

theorem destination_apart (hx : x % r.arch.wordSize = 0) (hy : y % r.arch.wordSize = 0)
    (hx' : x < 2 ^ (8 * r.arch.wordSize)) (hy' : y < 2 ^ (8 * r.arch.wordSize)) (hn : x ≠ y) :
    destination r x + r.arch.wordSize ≤ destination r y ∨
      destination r y + r.arch.wordSize ≤ destination r x := by
  rw [destination, destination, Arch.wrap, Arch.wrap]
  rcases wordSize_cases r.arch with h | h <;> rw [h] at hx hy hx' hy' ⊢ <;> omega

/-- No byte outside of the words at the addresses changes. -/
structure RelocatedOnce (r : Relocator) (addrs : List ℕ) (mem mem' : Memory) : Prop where
  words : ∀ x ∈ addrs, mem'.read r.arch.wordSize (destination r x) =
    relocated r (mem.read r.arch.wordSize (destination r x)) % 256 ^ r.arch.wordSize
  others : ∀ b, (∀ x ∈ addrs, b < destination r x ∨ destination r x + r.arch.wordSize ≤ b) →
    mem' b = mem b

theorem relocateAll_spec (hs : addrs.Pairwise (· < ·))
    (had : ∀ x ∈ addrs, x % r.arch.wordSize = 0 ∧ x < 2 ^ (8 * r.arch.wordSize)) :
    RelocatedOnce r addrs mem (relocateAll r addrs mem) := by
  induction addrs generalizing mem with
  | nil => exact ⟨nofun, fun _ _ => rfl⟩
  | cons y addrs ih =>
    obtain ⟨hlt, hs⟩ := List.pairwise_cons.mp hs
    obtain ⟨hy, ha⟩ := List.forall_mem_cons.mp had
    have hr : RelocatedOnce r addrs (applyRelrReloc r y mem)
        (relocateAll r addrs (applyRelrReloc r y mem)) := ih hs ha
    have hap (x : ℕ) (hx : x ∈ addrs) : destination r x + r.arch.wordSize ≤ destination r y ∨
        destination r y + r.arch.wordSize ≤ destination r x :=
      destination_apart (ha x hx).1 hy.1 (ha x hx).2 hy.2 (hlt x hx).ne'
    have ho (b : ℕ) (hb : b < destination r y ∨ destination r y + r.arch.wordSize ≤ b) :
        applyRelrReloc r y mem b = mem b := write_of_outside hb
    constructor
    · intro x hx
      rcases List.mem_cons.mp hx with rfl | hx
      · refine (read_congr fun b hle hl => hr.others b fun z hz => ?_).trans (read_write _ _ _)
        have := hap z hz
        omega
      rw [← read_congr fun b hle hl => ho b ?_]
      · exact hr.words x hx
      · have := hap x hx
        omega
    · intro b hb
      obtain ⟨hby, hb⟩ := List.forall_mem_cons.mp hb
      exact (hr.others b hb).trans (ho b hby)

/-- RELR relocations that encode increasing, aligned addresses relocate the word at each of them
once, and change nothing else. -/
theorem relocateRelr_spec (r : Relocator) (mem : Memory) (addrs entries : List ℕ)
    (hencodes : RelrEncodes r.arch 0 addrs entries) (hsorted : addrs.Pairwise (· < ·))
    (haligned : ∀ x ∈ addrs, x % r.arch.wordSize = 0 ∧ x < 2 ^ (8 * r.arch.wordSize)) :
    RelocatedOnce r addrs mem (relocateRelr r entries 0 mem) := by
  rw [relocateRelr_eq hencodes rfl]
  exact relocateAll_spec hsorted haligned

def relocatorAt (tagged : Bool) : Relocator where
  arch := .aarch64
  si := oneSymbol 3
  siStrtabSize := 3
  placement _ := ⟨0x10000, none, tagged⟩
  isLinker := false
  shouldUse16kibAppCompat := false
  hasTextRelocations := false
  protectSegments := true
  unprotectSegments := true
  debugAny := false
  debugStatistics := false
  versionInfos := []
  lookupList := .ofSoinfo false (oneSymbol 3)
  tlsTpBase := 0
  getTlsModule _ := ⟨none, 0⟩
  getTaggedAddress x := x + 2 ^ 56
  callIfuncResolver _ _ := 0
  tlsdescResolverUnresolvedWeak := 0
  tlsdescResolverStatic := 0
  tlsdescResolverDynamic := 0
  tlsdescArgAddress _ := 0

theorem relr_two_words : RelrEncodes .aarch64 0 [0x10, 0x18] [0x10, 3] :=
  have bitmap : RelrEncodes .aarch64 0x18
      (marked 8 0x18 (true :: List.replicate 62 false) ++ []) [3] := .bitmap rfl (.nil _)
  .address rfl bitmap

theorem relocateRelr_spec_two_words : RelocatedOnce (relocatorAt false) [0x10, 0x18] (fun _ => 0)
      (relocateRelr (relocatorAt false) [0x10, 3] 0 fun _ => 0) :=
  relocateRelr_spec _ _ _ _ relr_two_words (by decide) (by decide)

/-- With memory tags, the word is given its tag as well. -/
theorem tagged_word_is_not_the_sum :
    (relocateRelr (relocatorAt true) [0x10, 3] 0 fun _ => 0).read 8 0x10018 = 2 ^ 56 + 0x10000 := by
  decide +kernel

end LinkerRelocEncodings
