import Bionic.ByteMemory

/-! `readdir`, `telldir`, `seekdir` and `rewinddir` over the chunks that `getdents64` delivers. -/
namespace Dirent

open ByteMemory List

structure Entry where
  name : String
  off : ℤ

/-- The cookies differ, and none is that of the start. -/
structure Directory where
  entries : List Entry
  distinct : (0 :: entries.map Entry.off).Nodup

/-- With what the descriptor still delivers, and the number of calls of `getdents64`. -/
structure Dir where
  stream : List Entry
  calls : ℕ
  available : List Entry
  currentPos : ℤ

/-- The conversion of an `off64_t` to `long`. -/
def toLong (abi : Abi) (off : ℤ) : ℤ := off.bmod abi.sizes

variable (abi : Abi) (chunk : ℕ → ℕ) (filter : Entry → Bool) (dir : Directory)

/-- `__fill_DIR`, if nothing is available. -/
def fillDir (d : Dir) : Dir :=
  if d.available = [] then
    let n := chunk d.calls + 1
    { d with stream := d.stream.drop n, calls := d.calls + 1, available := d.stream.take n }
  else d

/-- A position in the list, by what is behind it. -/
def Dir.left (d : Dir) : List Entry := d.available ++ d.stream

theorem fillDir_spec (d : Dir) :
    (fillDir chunk d).left = d.left ∧ (fillDir chunk d).currentPos = d.currentPos ∧
      ((fillDir chunk d).available = [] → d.left = []) := by
  unfold fillDir
  split <;> simp [Dir.left, *]

def readdirLocked (d : Dir) : Option Entry × Dir :=
  match _h : (fillDir chunk d).available with
  | [] => (none, fillDir chunk d)
  | entry :: rest =>
    let d' := { fillDir chunk d with available := rest, currentPos := toLong abi entry.off }
    if filter entry then readdirLocked d' else (some entry, d')
termination_by d.left.length
decreasing_by
  rw [← (fillDir_spec chunk d).1, Dir.left, Dir.left, _h]
  simp

def Directory.lseek (off : ℤ) : Option (List Entry) :=
  if off = 0 then some dir.entries else (dir.entries.dropWhile (·.off ≠ off)).tail?

def rewinddir (d : Dir) : Dir :=
  { d with stream := dir.entries, available := [], currentPos := 0 }

def seekdir (d : Dir) (off : ℤ) : Dir :=
  let (ret, stream) := match dir.lseek off with
    | some stream => (off, stream)
    | none => (-1, d.stream)
  if ret ≠ -1 then { d with stream := stream, available := [], currentPos := ret }
  else { d with stream := stream }

/-- `seekdir` goes to a value that `telldir` has returned, from the last on, or to 0. -/
inductive Call where
  | readdir
  | telldir
  | seekdir (i : ℕ)
  | rewinddir

/-- What the calls of `readdir` return. -/
def run (d : Dir) (told : List ℤ) : List Call → List (Option Entry)
  | [] => []
  | .readdir :: calls =>
    let r := readdirLocked abi chunk filter d
    r.1 :: run r.2 told calls
  | .telldir :: calls => run d (d.currentPos :: told) calls
  | .seekdir i :: calls => run (seekdir dir d (told.getD i 0)) told calls
  | .rewinddir :: calls => run (rewinddir dir d) told calls

/-- What they are meant to return, by the positions. -/
def listing (left : List Entry) (told : List (List Entry)) : List Call → List (Option Entry)
  | [] => []
  | .readdir :: calls =>
    let rest := left.dropWhile filter
    rest.head? :: listing rest.tail told calls
  | .telldir :: calls => listing left (left :: told) calls
  | .seekdir i :: calls => listing (told.getD i dir.entries) told calls
  | .rewinddir :: calls => listing dir.entries told calls

/-- A cookie is a value of `long`, and not what `lseek` returns on an error. -/
def LongCookies : Prop := ∀ e ∈ dir.entries, toLong abi e.off = e.off ∧ e.off ≠ -1

variable {dir}

section
variable {abi} (hl : LongCookies abi dir)
include hl

theorem ne_of_lseek {off left} (h : dir.lseek off = some left) : off ≠ -1 := by
  rintro rfl
  rw [Directory.lseek, if_neg (by decide)] at h
  have hn : dir.entries.dropWhile (fun e => e.off ≠ -1) = [] := by
    refine dropWhile_eq_nil_iff.mpr fun e he => ?_
    simpa using (hl e he).2
  rw [hn] at h
  cases h

theorem lseek_next {off e es} (h : dir.lseek off = some (e :: es)) :
    dir.lseek (toLong abi e.off) = some es := by
  have hs : e :: es <:+ dir.entries := by
    unfold Directory.lseek at h
    split at h
    · rw [Option.some.inj h]
    · cases hr : dir.entries.dropWhile (·.off ≠ off) <;> rw [hr] at h <;> cases h
      exact (suffix_cons _ _).trans (hr ▸ dropWhile_suffix _)
  rw [(hl e (hs.subset mem_cons_self)).1]
  obtain ⟨before, hes⟩ := hs
  have hd := dir.distinct
  rw [← hes] at hd
  simp [nodup_append] at hd
  rw [Directory.lseek, if_neg (by grind), ← hes, dropWhile_append_of_pos (by grind)]
  simp

end

theorem left_eq {d entry rest} (h : (fillDir chunk d).available = entry :: rest) :
    d.left = entry :: (rest ++ (fillDir chunk d).stream) := by
  rw [← (fillDir_spec chunk d).1, Dir.left, h, cons_append]

section
variable {abi} (hl : LongCookies abi dir)
include hl

theorem readdirLocked_spec {d} (h : dir.lseek d.currentPos = some d.left) :
    (readdirLocked abi chunk filter d).1 = (d.left.dropWhile filter).head? ∧
      (readdirLocked abi chunk filter d).2.left = (d.left.dropWhile filter).tail ∧
      dir.lseek (readdirLocked abi chunk filter d).2.currentPos =
        some (readdirLocked abi chunk filter d).2.left := by
  fun_induction readdirLocked abi chunk filter d with
  | case1 d hd =>
    obtain ⟨hlf, hp, hed⟩ := fillDir_spec chunk d
    rw [hlf, hp, h, hed hd]
    exact ⟨rfl, rfl, rfl⟩
  | case2 d entry rest hd d' hf =>
    rename_i ih
    rw [left_eq chunk hd] at h ⊢
    rw [dropWhile_cons_of_pos hf]
    exact ih (lseek_next hl h)
  | case3 d entry rest hd d' =>
    rename_i hf
    rw [left_eq chunk hd] at h ⊢
    rw [dropWhile_cons_of_neg hf]
    exact ⟨rfl, rfl, lseek_next hl h⟩

theorem run_at {d told positions} (h : dir.lseek d.currentPos = some d.left)
    (ht : ∀ i, dir.lseek (told.getD i 0) = some (positions.getD i dir.entries)) (calls) :
    run abi chunk filter dir d told calls = listing filter dir d.left positions calls := by
  induction calls generalizing d told positions with
  | nil => rfl
  | cons call calls ih =>
    cases call with
    | readdir =>
      obtain ⟨hf, hlf, hn⟩ := readdirLocked_spec chunk filter hl h
      rw [run, listing, hf, ih hn ht, hlf]
    | telldir => exact ih h (Nat.rec h fun i _ => ht i)
    | seekdir i =>
      rw [run, listing, seekdir, ht]
      dsimp only
      rw [if_pos (ne_of_lseek hl (ht i))]
      exact ih (ht i) ht
    | rewinddir => exact ih rfl ht

end

/-- If the cookies are values of `long`, the calls of `readdir` return what the positions give. -/
theorem run_eq_listing (abi chunk filter) (dir : Directory) (hl : LongCookies abi dir)
    (calls : List Call) : run abi chunk filter dir ⟨dir.entries, 0, [], 0⟩ [] calls =
      listing filter dir dir.entries [] calls :=
  run_at chunk filter hl rfl (fun _ => rfl) calls

def twoFiles : Directory := ⟨[⟨"a", 2 ^ 32 + 1⟩, ⟨"b", 2⟩], by decide⟩

def tellAndSeek : List Call := [.readdir, .telldir, .readdir, .seekdir 0, .readdir]

theorem run_eq_listing_lp64 : run .lp64 (fun _ => 0) (fun _ => false) twoFiles
      ⟨twoFiles.entries, 0, [], 0⟩ [] tellAndSeek =
    listing (fun _ => false) twoFiles twoFiles.entries [] tellAndSeek := by
  have hl : ∀ e ∈ twoFiles.entries, toLong .lp64 e.off = e.off ∧ e.off ≠ -1 := by decide
  exact run_eq_listing .lp64 _ _ twoFiles hl tellAndSeek

/-- In a 32-bit process `telldir` returns 1 after the first entry, and `seekdir` cannot go there. -/
theorem cookie_cut_off : run .ilp32 (fun _ => 1) (fun _ => false) twoFiles
      ⟨twoFiles.entries, 0, [], 0⟩ [] tellAndSeek =
        [some ⟨"a", 2 ^ 32 + 1⟩, some ⟨"b", 2⟩, none] ∧
    listing (fun _ => false) twoFiles twoFiles.entries [] tellAndSeek =
      [some ⟨"a", 2 ^ 32 + 1⟩, some ⟨"b", 2⟩, some ⟨"b", 2⟩] := by
  constructor
  · simp [run, readdirLocked, fillDir, seekdir, Directory.lseek, twoFiles, tellAndSeek, toLong,
      Abi.sizes, Abi.word]
    rfl
  · rfl

end Dirent
