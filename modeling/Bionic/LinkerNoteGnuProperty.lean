import Mathlib

/-! `GnuPropertySection::Parse` on a 64-bit ARM target: the walk over the properties in the
descriptor of a `.note.gnu.property` note. -/
namespace LinkerNoteGnuProperty

open List

/-- A note: its `n_descsz`, and the bytes from `n_desc` on. -/
structure Note where
  descsz : ℕ
  desc : ℕ → UInt8
  fits : descsz < 2 ^ 32

def Note.word (n : Note) (i : ℕ) : ℕ :=
  (n.desc i).toNat + (n.desc (i + 1)).toNat * 2 ^ 8 + (n.desc (i + 2)).toNat * 2 ^ 16 +
    (n.desc (i + 3)).toNat * 2 ^ 24

def Note.prType (n : Note) (offset : ℕ) : ℕ := n.word offset

def Note.prDatasz (n : Note) (offset : ℕ) : ℕ := n.word (offset + 4)

def gnuPropertyAarch64Feature1And : ℕ := 0xc0000000

/-- Rounded up as a `size_t` and kept as an `ElfW(Word)`. -/
def propertySize (datasz : ℕ) : ℕ := (8 + datasz + 7) / 8 * 8 % 2 ^ 32

inductive ParseError where
  | noSpaceForHeader
  | invalidSize (expected got : ℕ)
  | invalidFeatureSize (expected got : ℕ)

structure Parsing where
  offset : ℕ
  btiCompatible : Bool
  /-- Where the descriptor was read, and how many bytes. -/
  reads : List (ℕ × ℕ)

def Parsing.read (p : Parsing) (i : ℕ) : Parsing := { p with reads := (i, 4) :: p.reads }

/-- One iteration, and what `Parse` returns if it ends there. -/
def iteration (n : Note) (p : Parsing) : Parsing × Option (Except ParseError Unit) :=
  let offset := p.offset
  if offset < n.descsz then
    if n.descsz - offset < 8 then (p, some (.error .noSpaceForHeader))
    else
      let size := propertySize (n.prDatasz offset)
      let p := p.read (offset + 4)
      if n.descsz - offset < size then
        (p, some (.error (.invalidSize size (n.descsz - offset))))
      else
        let p := p.read offset
        if n.prType offset = gnuPropertyAarch64Feature1And then
          if n.prDatasz offset ≠ 4 then
            (p, some (.error (.invalidFeatureSize 4 (n.prDatasz offset))))
          else
            let p := p.read (offset + 8)
            ({ p with
              offset := (offset + size) % 2 ^ 32
              btiCompatible := n.word (offset + 8) % 2 = 1 }, none)
        else ({ p with offset := (offset + size) % 2 ^ 32 }, none)
  else (p, some (.ok ()))

def loop (n : Note) : ℕ → Parsing → Parsing × Option (Except ParseError Unit)
  | 0, p => (p, none)
  | k + 1, p =>
    match iteration n p with
    | (p, none) => loop n k p
    | (p, some r) => (p, some r)

/-- `Parse`, after at most `k` iterations. -/
def parse (n : Note) (k : ℕ) : Parsing × Option (Except ParseError Unit) := loop n k ⟨0, false, []⟩

/-- The property is in the descriptor, and `Parse` accepts it. -/
structure Passed (n : Note) (o : ℕ) : Prop where
  header : o + 8 ≤ n.descsz
  data : o + propertySize (n.prDatasz o) ≤ n.descsz
  feature : n.prType o = gnuPropertyAarch64Feature1And → n.prDatasz o = 4

/-- Where the sizes of the properties lead from the start. -/
inductive Leads (n : Note) : ℕ → Prop
  | start : Leads n 0
  | next {o : ℕ} : Leads n o → Passed n o → Leads n (o + propertySize (n.prDatasz o))

/-- With the header's, the rounded sum is zero as a word. -/
def Wraps (datasz : ℕ) : Prop := 0xfffffff1 ≤ datasz ∧ datasz ≤ 0xfffffff8

/-- `Parse` returns, and it reads the descriptor only. -/
structure Safe (n : Note) : Prop where
  returns : ∃ k, (parse n k).2.isSome
  inside : ∀ k, ∀ r ∈ (parse n k).1.reads, r.1 + r.2 ≤ n.descsz

theorem prDatasz_lt (n : Note) (o) : n.prDatasz o < 2 ^ 32 := by
  have h0 := (n.desc (o + 4)).toNat_lt
  have h1 := (n.desc (o + 4 + 1)).toNat_lt
  have h2 := (n.desc (o + 4 + 2)).toNat_lt
  have h3 := (n.desc (o + 4 + 3)).toNat_lt
  rw [Note.prDatasz, Note.word]
  omega

theorem propertySize_eq_zero_iff (n : Note) (o) :
    propertySize (n.prDatasz o) = 0 ↔ Wraps (n.prDatasz o) := by
  have hl := prDatasz_lt n o
  rw [propertySize, Wraps]
  omega

theorem iteration_spec (n p) : ((∀ r ∈ p.reads, r.1 + r.2 ≤ n.descsz) →
      ∀ r ∈ (iteration n p).1.reads, r.1 + r.2 ≤ n.descsz) ∧
    ((iteration n p).2 = none ↔ Passed n p.offset) ∧ (Passed n p.offset →
      (iteration n p).1.offset = p.offset + propertySize (n.prDatasz p.offset)) := by
  have hft := n.fits
  have hfr : propertySize 4 = 16 := rfl
  unfold iteration Parsing.read
  dsimp only
  split_ifs with hl hh hd hf hs
  on_goal -1 =>
    exact ⟨id, ⟨nofun, fun h => absurd h.header (by omega)⟩, fun h => absurd h.header (by omega)⟩
  · exact ⟨id, ⟨nofun, fun h => absurd h.header (by omega)⟩, fun h => absurd h.header (by omega)⟩
  · refine ⟨fun hr => ?_, ⟨nofun, fun h => absurd h.data (by omega)⟩,
      fun h => absurd h.data (by omega)⟩
    exact forall_mem_cons.2 ⟨by dsimp only; omega, hr⟩
  all_goals
    have hr (h : ∀ r ∈ p.reads, r.1 + r.2 ≤ n.descsz) :
        ∀ r ∈ (p.offset, 4) :: (p.offset + 4, 4) :: p.reads, r.1 + r.2 ≤ n.descsz :=
      forall_mem_cons.2 ⟨by dsimp only; omega, forall_mem_cons.2 ⟨by dsimp only; omega, h⟩⟩
  · exact ⟨hr, ⟨nofun, fun h => absurd (h.feature hf) hs⟩, fun h => absurd (h.feature hf) hs⟩
  · rw [not_not] at hs
    rw [hs, hfr] at hd ⊢
    refine ⟨fun h => forall_mem_cons.2 ⟨by dsimp only; omega, hr h⟩,
      ⟨fun _ => ⟨by omega, by rw [hs, hfr]; omega, fun _ => hs⟩, fun _ => rfl⟩,
      fun _ => by dsimp only; omega⟩
  · exact ⟨hr, ⟨fun _ => ⟨by omega, by omega, fun h => absurd h hf⟩, fun _ => rfl⟩,
      fun _ => by dsimp only; omega⟩

theorem loop_inside (n k p) (h : ∀ r ∈ p.reads, r.1 + r.2 ≤ n.descsz) :
    ∀ r ∈ (loop n k p).1.reads, r.1 + r.2 ≤ n.descsz := by
  induction k generalizing p with
  | zero => exact h
  | succ k ih =>
    have hs := (iteration_spec n p).1 h
    rw [loop]
    split
    next q heq => exact ih q (by rwa [heq] at hs)
    next q r heq => rwa [heq] at hs

variable {n : Note}

theorem loop_of_passed {p} (h : Passed n p.offset) :
    ∃ q, q.offset = p.offset + propertySize (n.prDatasz p.offset) ∧
      ∀ k, loop n (k + 1) p = loop n k q := by
  obtain ⟨-, hg, ho⟩ := iteration_spec n p
  refine ⟨(iteration n p).1, ho h, fun k => ?_⟩
  rw [loop, ← Prod.eta (iteration n p), hg.2 h]

theorem loop_stuck {p} (h : Passed n p.offset)
    (hz : propertySize (n.prDatasz p.offset) = 0) (k) : (loop n k p).2 = none := by
  induction k generalizing p with
  | zero => rfl
  | succ k ih =>
    obtain ⟨q, ho, hl⟩ := loop_of_passed h
    rw [hz, Nat.add_zero] at ho
    rw [hl]
    exact ih (by rwa [ho]) (by rwa [ho])

theorem loop_returns_of_leads {o} (h : Leads n o)
    (hr : ∃ k, (parse n k).2.isSome) : ∃ k p, p.offset = o ∧ (loop n k p).2.isSome := by
  induction h with
  | start => exact hr.imp fun k hk => ⟨⟨0, false, []⟩, rfl, hk⟩
  | next _ hp ih =>
    obtain ⟨_ | k, p, rfl, hs⟩ := ih
    · simp [loop] at hs
    · obtain ⟨q, ho, hl⟩ := loop_of_passed hp
      exact ⟨k, q, ho, hl k ▸ hs⟩

theorem loop_returns (hs : ∀ o, Leads n o → Passed n o → propertySize (n.prDatasz o) ≠ 0)
    (p) (h : Leads n p.offset) : ∃ k, (loop n k p).2.isSome := by
  induction hm : n.descsz - p.offset using Nat.strongRecOn generalizing p with
  | ind m ih =>
    by_cases hp : Passed n p.offset
    · have hps := hs _ h hp
      have hh := hp.header
      obtain ⟨q, ho, hl⟩ := loop_of_passed hp
      obtain ⟨k, hk⟩ := ih (n.descsz - q.offset) (by omega) q (ho ▸ h.next hp) rfl
      exact ⟨k + 1, (hl k).symm ▸ hk⟩
    · obtain ⟨-, hg, -⟩ := iteration_spec n p
      obtain ⟨r, hr⟩ := Option.ne_none_iff_exists'.1 (mt hg.1 hp)
      refine ⟨1, ?_⟩
      rw [loop, ← Prod.eta (iteration n p), hr]
      rfl

/-- The walk over the properties is safe if and only if none of them wraps. -/
theorem parse_safe_iff (n : Note) : Safe n ↔ ∀ o, Leads n o → o + 8 ≤ n.descsz →
    n.prType o ≠ gnuPropertyAarch64Feature1And → ¬ Wraps (n.prDatasz o) := by
  constructor
  · intro h o hl hh ht hw
    have hz := (propertySize_eq_zero_iff n o).2 hw
    have hp : Passed n o := ⟨hh, by omega, fun hf => absurd hf ht⟩
    obtain ⟨k, p, rfl, hs⟩ := loop_returns_of_leads hl h.returns
    rw [loop_stuck hp hz] at hs
    cases hs
  intro h
  refine ⟨loop_returns (fun o hl hp hz => ?_) _ .start, fun k => loop_inside n k _ nofun⟩
  rw [propertySize_eq_zero_iff] at hz
  refine h o hl hp.header (fun hf => ?_) hz
  rw [hp.feature hf] at hz
  exact absurd hz.1 (by decide)

def wrappingNote : Note :=
  ⟨8, fun i => if i < 4 then 0 else if i = 4 then 0xf8 else 0xff, by decide⟩

theorem parse_wrapping_loops : ¬ ∃ k, (parse wrappingNote k).2 ≠ none := by
  rintro ⟨k, hk⟩
  exact hk (loop_stuck ⟨by decide, by decide, by decide⟩ (by decide) k)

end LinkerNoteGnuProperty
