import Bionic.ForwardJumps

/-! The seccomp filters of a process, seccomp_policy.cpp, for the builds with two architectures. A
filter is put together from pieces; the jump to the part of the secondary architecture is set when
the size of the primary part is known. The language is the BPF that the kernel accepts for seccomp.
-/
namespace SeccompPolicy
open ForwardJumps
open List Option

abbrev Word : Type := BitVec 32

structure SeccompData where
  nr : Word
  arch : Word
  instructionPointer : BitVec 64
  args : Fin 6 → BitVec 64

inductive AluOp where
  | add
  | sub
  | mul
  | div
  | and
  | or
  | xor
  | lsh
  | rsh
  deriving DecidableEq

inductive Test where
  | jeq
  | jgt
  | jge
  | jset
  deriving DecidableEq

/-- `BPF_K` or `BPF_X`. -/
inductive Source where
  | k (value : Word)
  | x
  deriving DecidableEq

inductive SockFilter where
  | ldAbs (offset : ℕ)
  | ldLen
  | ldImm (k : Word)
  | ldMem (cell : ℕ)
  | ldxLen
  | ldxImm (k : Word)
  | ldxMem (cell : ℕ)
  | st (cell : ℕ)
  | stx (cell : ℕ)
  | alu (op : AluOp) (source : Source)
  | neg
  | ja (skip : Word)
  | jmp (test : Test) (source : Source) (jt jf : BitVec 8)
  | retK (value : Word)
  | retA
  | tax
  | txa
  deriving DecidableEq

structure Registers where
  a : Word
  x : Word
  m : ℕ → Word

def lowWord (v : BitVec 64) : Word := v.setWidth 32

def highWord (v : BitVec 64) : Word := (v >>> 32).setWidth 32

def SeccompData.load (d : SeccompData) (offset : ℕ) : Word :=
  if offset = 0 then d.nr
  else if offset = 4 then d.arch
  else if offset = 8 then lowWord d.instructionPointer
  else if offset = 12 then highWord d.instructionPointer
  else if h : (offset - 16) / 8 < 6 then
    if offset % 8 = 0 then lowWord (d.args ⟨(offset - 16) / 8, h⟩)
    else highWord (d.args ⟨(offset - 16) / 8, h⟩)
  else 0

def Source.value (source : Source) (r : Registers) : Word :=
  match source with
  | .k value => value
  | .x => r.x

def AluOp.apply (op : AluOp) (a v : Word) : Option Word :=
  match op with
  | .add => some (a + v)
  | .sub => some (a - v)
  | .mul => some (a * v)
  | .div => if v = 0 then none else some (a / v)
  | .and => some (a &&& v)
  | .or => some (a ||| v)
  | .xor => some (a ^^^ v)
  | .lsh => some (a <<< (v.toNat % 32))
  | .rsh => some (a >>> (v.toNat % 32))

def Test.holds (test : Test) (a v : Word) : Bool :=
  match test with
  | .jeq => a == v
  | .jgt => v < a
  | .jge => v ≤ a
  | .jset => (a &&& v) != 0

/-- `sizeof(struct seccomp_data)`. -/
def dataLength : Word := 64

def exec (d : SeccompData) (i : SockFilter) (r : Registers) : Next Registers Word :=
  match i with
  | .ldAbs offset => .go { r with a := d.load offset } 0
  | .ldLen => .go { r with a := dataLength } 0
  | .ldImm k => .go { r with a := k } 0
  | .ldMem cell => .go { r with a := r.m cell } 0
  | .ldxLen => .go { r with x := dataLength } 0
  | .ldxImm k => .go { r with x := k } 0
  | .ldxMem cell => .go { r with x := r.m cell } 0
  | .st cell => .go { r with m := fun c => if c = cell then r.a else r.m c } 0
  | .stx cell => .go { r with m := fun c => if c = cell then r.x else r.m c } 0
  | .alu op source =>
    match op.apply r.a (source.value r) with
    | none => .ret 0
    | some a => .go { r with a := a } 0
  | .neg => .go { r with a := -r.a } 0
  | .ja skip => .go r skip.toNat
  | .jmp test source jt jf =>
    .go r (if test.holds r.a (source.value r) then jt.toNat else jf.toNat)
  | .retK value => .ret value
  | .retA => .ret r.a
  | .tax => .go { r with x := r.a } 0
  | .txa => .go { r with a := r.x } 0

def cleared : Registers := ⟨0, 0, fun _ => 0⟩

def runFilter (f : List SockFilter) (d : SeccompData) : Outcome Registers Word :=
  run (exec d) f 0 cleared

section

abbrev Filter : Type := List SockFilter

def seccompRetAllow : Word := 0x7fff0000
def seccompRetTrap : Word := 0x00030000

structure Policy where
  primaryArch : Word
  secondaryArch : Word
  primarySetresuid : Word
  primarySetresgid : Word
  secondarySetresuid : Word
  secondarySetresgid : Word
  distinct : primaryArch ≠ secondaryArch

def syscallNr : ℕ := 0
def archNr : ℕ := 4
def syscallArg (n : ℕ) : ℕ := 16 + 8 * n

def allow (f : Filter) : Filter := f ++ [.retK seccompRetAllow]

def disallow (f : Filter) : Filter := f ++ [.retK seccompRetTrap]

def examineSyscall (f : Filter) : Filter := f ++ [.ldAbs syscallNr]

variable (π : Policy)

/-- None is `LOG(FATAL)`. -/
def setValidateArchitectureJumpTarget (offset : ℕ) (f : Filter) : Option Filter :=
  let jumpLength := f.length - offset - 1
  if jumpLength % 256 ≠ jumpLength then none
  else some (f.set offset (.jmp .jeq (.k π.secondaryArch) (BitVec.ofNat 8 jumpLength) 0))

def validateArchitectureAndJumpIfNeeded (f : Filter) : Filter × ℕ :=
  let f := disallow (f ++ [.ldAbs archNr, .jmp .jeq (.k π.primaryArch) 2 0,
    .jmp .jeq (.k π.secondaryArch) 1 0])
  (f, f.length - 2)

/-- None is `LOG(FATAL)`. -/
def validateSyscallArgInRange (argNum : ℕ) (rangeMin rangeMax : Word) (f : Filter) :
    Option Filter :=
  if rangeMax.toNat = 2 ^ 32 - 1 then none
  else some (disallow (f ++ [.ldAbs (syscallArg argNum), .jmp .jge (.k rangeMin) 0 1,
    .jmp .jge (.k (rangeMax + 1)) 0 1]))

/-- The two loops of `ValidateSetUidGid` over the arguments. -/
def validateArgs (rangeMin rangeMax : Word) (f : Filter) : Option Filter := do
  let f ← validateSyscallArgInRange 0 rangeMin rangeMax f
  let f ← validateSyscallArgInRange 1 rangeMin rangeMax f
  validateSyscallArgInRange 2 rangeMin rangeMax f

def validateSetUidGid (uidGidMin uidGidMax : Word) (primary : Bool) (f : Filter) :
    Option Filter := do
  let setresuidNr := if primary then π.primarySetresuid else π.secondarySetresuid
  let setresgidNr := if primary then π.primarySetresgid else π.secondarySetresgid
  let f := examineSyscall f ++ [.jmp .jeq (.k setresuidNr) 0 12]
  let f ← validateArgs uidGidMin uidGidMax f
  let f := examineSyscall f ++ [.jmp .jeq (.k setresgidNr) 0 12]
  let f ← validateArgs uidGidMin uidGidMax f
  some (allow f)

def installSetuidgidFilter (uidGidMin uidGidMax : Word) : Option Filter := do
  let (f, offsetToSecondaryFilter) := validateArchitectureAndJumpIfNeeded π []
  let f ← validateSetUidGid π uidGidMin uidGidMax true f
  let f ← setValidateArchitectureJumpTarget π offsetToSecondaryFilter f
  validateSetUidGid π uidGidMin uidGidMax false f

def setSeccompFilter (p s : Filter) : Option Filter := do
  let (f, offsetToSecondaryFilter) := validateArchitectureAndJumpIfNeeded π []
  let f := disallow (examineSyscall f ++ p)
  let f ← setValidateArchitectureJumpTarget π offsetToSecondaryFilter f
  some (disallow (examineSyscall f ++ s))

end

variable {π : Policy} {d : SeccompData} {P S : Filter} {n : ℕ} {lo hi : Word}

section
variable {r : Registers} {p : Filter}

/-- The architecture, with a jump over `n` statements to the secondary part. -/
def head (π : Policy) (n : ℕ) : Filter :=
  [.ldAbs archNr, .jmp .jeq (.k π.primaryArch) 2 0,
    .jmp .jeq (.k π.secondaryArch) (BitVec.ofNat 8 n) 0, .retK seccompRetTrap]

def tablePart (p : Filter) : Filter := .ldAbs syscallNr :: p ++ [.retK seccompRetTrap]

def argBlock (rangeMin rangeMax : Word) (argNum : Fin 6) : Filter :=
  [.ldAbs (syscallArg argNum), .jmp .jge (.k rangeMin) 0 1, .jmp .jge (.k (rangeMax + 1)) 0 1,
    .retK seccompRetTrap]

def argBlocks (rangeMin rangeMax : Word) : Filter :=
  argBlock rangeMin rangeMax 0 ++ (argBlock rangeMin rangeMax 1 ++ argBlock rangeMin rangeMax 2)

def callBlock (rangeMin rangeMax nr : Word) : Filter :=
  [.ldAbs syscallNr, .jmp .jeq (.k nr) 0 12] ++ argBlocks rangeMin rangeMax

def uidGidPart (rangeMin rangeMax setresuid setresgid : Word) : Filter :=
  callBlock rangeMin rangeMax setresuid ++
    (callBlock rangeMin rangeMax setresgid ++ [.retK seccompRetAllow])

variable {jf jt : BitVec 8} {rest : Filter} {k : Word}

theorem run_ldAbs {offset} : run (exec d) (.ldAbs offset :: rest) 0 r =
      run (exec d) rest 0 { r with a := d.load offset } :=
  rfl

theorem run_jeq : run (exec d) (.jmp .jeq (.k k) jt jf :: rest) 0 r =
      if r.a = k then run (exec d) rest jt.toNat r else run (exec d) rest jf.toNat r := by
  rw [← apply_ite (run (exec d) rest · r)]
  refine run_cons_of_go ?_
  simp only [exec, Test.holds, Source.value, beq_iff_eq]

theorem jge_holds {a v} : Test.jge.holds a v ↔ v ≤ a := decide_eq_true_iff

theorem run_jge : run (exec d) (.jmp .jge (.k k) jt jf :: rest) 0 r =
      if k ≤ r.a then run (exec d) rest jt.toNat r else run (exec d) rest jf.toNat r := by
  rw [← apply_ite (run (exec d) rest · r)]
  refine run_cons_of_go ?_
  simp only [exec, Source.value, jge_holds]

theorem run_head (hn : n = P.length + 1) (hl : n < 256) : runFilter (head π n ++ (P ++ S)) d =
      if d.arch = π.primaryArch then run (exec d) (P ++ S) 0 { cleared with a := d.arch }
      else if d.arch = π.secondaryArch then run (exec d) S 0 { cleared with a := d.arch }
      else .ret seccompRetTrap := by
  have ht : (BitVec.ofNat 8 n).toNat = ([SockFilter.retK seccompRetTrap] ++ P).length := by
    rw [BitVec.toNat_ofNat, Nat.mod_eq_of_lt hl, hn, length_append, Nat.add_comm]
    rfl
  have hld : d.load archNr = d.arch := rfl
  have hnx : (0 : BitVec 8).toNat = 0 := rfl
  rw [runFilter, head, cons_append, run_ldAbs, hld, cons_append, run_jeq,
    cons_append, hnx, run_jeq, ht, ← append_assoc, run_append_skip rfl]
  rfl

def runTable (p : Filter) (d : SeccompData) : Outcome Registers Word :=
  run (exec d) p 0 { cleared with a := d.nr }

/-- Each path of the table returns `ALLOW` or falls off its end. -/
def Falls (p : Filter) : Prop :=
  ∀ d, runTable p d = .ret seccompRetAllow ∨ ∃ r, runTable p d = .pastEnd r

def Allows (p : Filter) (d : SeccompData) : Prop := runTable p d = .ret seccompRetAllow

theorem run_tablePart (hp : Falls p) (hr : r.x = 0 ∧ r.m = fun _ => 0) :
    (Allows p d ∧ run (exec d) (tablePart p ++ S) 0 r = .ret seccompRetAllow) ∨
      (¬Allows p d ∧ run (exec d) (tablePart p ++ S) 0 r = .ret seccompRetTrap) := by
  have hrn : run (exec d) (tablePart p ++ S) 0 r =
      run (exec d) (p ++ (.retK seccompRetTrap :: S)) 0 { cleared with a := d.nr } := by
    rw [tablePart, append_assoc, cons_append, run_ldAbs, hr.1, hr.2]
    rfl
  rw [hrn]
  rcases hp d with ha | ⟨r', hed⟩
  · exact .inl ⟨ha, run_append_of_ret ha⟩
  · refine .inr ⟨fun ha => ?_, run_append_of_pastEnd hed⟩
    cases hed.symm.trans ha

def InRange (rangeMin rangeMax : Word) (d : SeccompData) (i : Fin 6) : Prop :=
  rangeMin ≤ lowWord (d.args i) ∧ lowWord (d.args i) ≤ rangeMax

theorem load_syscallArg (i : Fin 6) : d.load (syscallArg i) = lowWord (d.args i) := by
  have hm : (16 + 8 * i.1) % 8 = 0 := by omega
  have h4 : 16 + 8 * i.1 ≠ 4 := by omega
  have h8 : 16 + 8 * i.1 ≠ 8 := by omega
  have h12 : 16 + 8 * i.1 ≠ 12 := by omega
  simp [SeccompData.load, syscallArg, hm, h4, h8, h12]

theorem run_argBlock (lo) (hh : hi.toNat ≠ 2 ^ 32 - 1) (i : Fin 6)
    (r) : (InRange lo hi d i ∧ run (exec d) (argBlock lo hi i) 0 r =
        .pastEnd { r with a := lowWord (d.args i) }) ∨
      (¬InRange lo hi d i ∧ run (exec d) (argBlock lo hi i) 0 r = .ret seccompRetTrap) := by
  have hle : hi + 1 ≤ lowWord (d.args i) ↔ ¬lowWord (d.args i) ≤ hi := by
    bv_omega
  rw [argBlock, run_ldAbs, load_syscallArg, run_jge, InRange]
  by_cases hl : lo ≤ lowWord (d.args i)
  · have hn : (0 : BitVec 8).toNat = 0 := rfl
    rw [if_pos hl, hn, run_jge]
    by_cases hh : lowWord (d.args i) ≤ hi
    · rw [if_neg (fun h => hle.1 h hh)]
      exact .inl ⟨⟨hl, hh⟩, rfl⟩
    · rw [if_pos (hle.2 hh)]
      exact .inr ⟨fun h => hh h.2, rfl⟩
  · rw [if_neg hl]
    exact .inr ⟨fun h => hl h.1, rfl⟩

def ArgsInRange (rangeMin rangeMax : Word) (d : SeccompData) : Prop :=
  InRange rangeMin rangeMax d 0 ∧ InRange rangeMin rangeMax d 1 ∧ InRange rangeMin rangeMax d 2

section
variable {nr uid gid : Word}

/-- The call is one of the two and has an argument outside the range. -/
def Refused (lo hi uid gid : Word) (d : SeccompData) : Prop :=
  (d.nr = uid ∨ d.nr = gid) ∧ ¬ArgsInRange lo hi d

variable (hh : hi.toNat ≠ 2 ^ 32 - 1)
include hh

theorem run_argBlocks :
    (ArgsInRange lo hi d ∧ ∃ r', run (exec d) (argBlocks lo hi) 0 r = .pastEnd r') ∨
      (¬ArgsInRange lo hi d ∧ run (exec d) (argBlocks lo hi) 0 r = .ret seccompRetTrap) := by
  rw [argBlocks]
  rcases run_argBlock (d := d) lo hh 0 _ with ⟨h0, hr⟩ | ⟨h0, hr⟩
  · rw [run_append_of_pastEnd hr]
    rcases run_argBlock (d := d) lo hh 1 _ with ⟨h1, hr⟩ | ⟨h1, hr⟩
    · rw [run_append_of_pastEnd hr]
      rcases run_argBlock (d := d) lo hh 2 _ with ⟨h2, hr⟩ | ⟨h2, hr⟩
      · exact .inl ⟨⟨h0, h1, h2⟩, _, hr⟩
      · exact .inr ⟨fun h => h2 h.2.2, hr⟩
    · exact .inr ⟨fun h => h1 h.2.1, run_append_of_ret hr⟩
  · exact .inr ⟨fun h => h0 h.1, run_append_of_ret hr⟩

theorem run_callBlock : ((d.nr = nr → ArgsInRange lo hi d) ∧
        ∃ r', run (exec d) (callBlock lo hi nr) 0 r = .pastEnd r') ∨
      ((d.nr = nr ∧ ¬ArgsInRange lo hi d) ∧
        run (exec d) (callBlock lo hi nr) 0 r = .ret seccompRetTrap) := by
  have hl : d.load syscallNr = d.nr := rfl
  rw [callBlock, cons_append, run_ldAbs, cons_append, run_jeq, hl]
  by_cases hn : d.nr = nr
  · rw [if_pos hn]
    rcases run_argBlocks hh with ⟨hin, hr⟩ | ⟨ho, hr⟩
    · exact .inl ⟨fun _ => hin, hr⟩
    · exact .inr ⟨⟨hn, ho⟩, hr⟩
  · rw [if_neg hn]
    exact .inl ⟨fun h => absurd h hn, _, rfl⟩

theorem run_uidGidPart : (Refused lo hi uid gid d ∧
        run (exec d) (uidGidPart lo hi uid gid ++ S) 0 r = .ret seccompRetTrap) ∨
      (¬Refused lo hi uid gid d ∧
        run (exec d) (uidGidPart lo hi uid gid ++ S) 0 r = .ret seccompRetAllow) := by
  rw [uidGidPart]
  rcases run_callBlock hh with ⟨hu, r', hr⟩ | ⟨⟨hu, ho⟩, hr⟩
  · rw [append_assoc, run_append_of_pastEnd hr]
    rcases run_callBlock hh with ⟨hg, r', hr⟩ | ⟨⟨hg, ho⟩, hr⟩
    · rw [append_assoc, run_append_of_pastEnd hr]
      refine .inr ⟨?_, rfl⟩
      rintro ⟨hn | hn, ho⟩
      · exact ho (hu hn)
      · exact ho (hg hn)
    · exact .inl ⟨⟨.inr hg, ho⟩, run_append_of_ret (run_append_of_ret hr)⟩
  · exact .inl ⟨⟨.inl hu, ho⟩, run_append_of_ret (run_append_of_ret hr)⟩

end

theorem length_head_append : (head π 1 ++ P).length - 2 - 1 = P.length + 1 := by
  rw [length_append, head]
  simp only [length_cons, length_nil]
  omega

theorem setValidateArchitectureJumpTarget_head (hl : P.length + 1 < 256) :
    setValidateArchitectureJumpTarget π 2 (head π 1 ++ P) = some (head π (P.length + 1) ++ P) := by
  rw [setValidateArchitectureJumpTarget, length_head_append, Nat.mod_eq_of_lt hl,
    if_neg (fun h => h rfl)]
  rfl

theorem setValidateArchitectureJumpTarget_long (hg : 256 ≤ P.length + 1) :
    setValidateArchitectureJumpTarget π 2 (head π 1 ++ P) = none := by
  have hm : (P.length + 1) % 256 ≠ P.length + 1 := by omega
  rw [setValidateArchitectureJumpTarget, length_head_append, if_pos hm]

theorem length_tablePart : (tablePart p).length = p.length + 2 := by
  rw [tablePart, length_append, length_cons]
  rfl

variable {s : Filter}

theorem setSeccompFilter_unfold : setSeccompFilter π p s =
      (setValidateArchitectureJumpTarget π 2 (head π 1 ++ tablePart p)).bind
        fun f => some (f ++ tablePart s) := by
  have ha : disallow (examineSyscall (head π 1) ++ p) = head π 1 ++ tablePart p := by
    simp [disallow, examineSyscall, tablePart]
  have hs : validateArchitectureAndJumpIfNeeded π [] = (head π 1, 2) := rfl
  simp only [setSeccompFilter, hs, ha, bind_eq_bind]
  simp [disallow, examineSyscall, tablePart]

theorem setSeccompFilter_eq (hp : p.length ≤ 252) :
    setSeccompFilter π p s = some (head π (p.length + 3) ++ (tablePart p ++ tablePart s)) := by
  have hl := length_tablePart (p := p)
  rw [setSeccompFilter_unfold, setValidateArchitectureJumpTarget_head (by omega), hl,
    bind_some, append_assoc]

theorem setSeccompFilter_long (hp : 252 < p.length) : setSeccompFilter π p s = none := by
  have hl := length_tablePart (p := p)
  rw [setSeccompFilter_unfold, setValidateArchitectureJumpTarget_long (by omega), bind_none]

variable (hh : hi.toNat ≠ 2 ^ 32 - 1)
include hh

theorem validateArgs_eq (f) : validateArgs lo hi f = some (f ++ argBlocks lo hi) := by
  have hb (i : Fin 6) (f : Filter) :
      validateSyscallArgInRange i lo hi f = some (f ++ argBlock lo hi i) := by
    rw [validateSyscallArgInRange, if_neg hh, disallow, append_assoc]
    rfl
  have h0 (f : Filter) : validateSyscallArgInRange 0 lo hi f = some (f ++ argBlock lo hi 0) :=
    hb 0 f
  have h1 (f : Filter) : validateSyscallArgInRange 1 lo hi f = some (f ++ argBlock lo hi 1) :=
    hb 1 f
  have h2 (f : Filter) : validateSyscallArgInRange 2 lo hi f = some (f ++ argBlock lo hi 2) :=
    hb 2 f
  simp only [validateArgs, h0, h1, h2, bind_eq_bind, bind_some, argBlocks, append_assoc]

theorem validateSetUidGid_eq (primary f) :
    validateSetUidGid π lo hi primary f = some (f ++ uidGidPart lo hi
      (if primary then π.primarySetresuid else π.secondarySetresuid)
      (if primary then π.primarySetresgid else π.secondarySetresgid)) := by
  simp only [validateSetUidGid, validateArgs_eq hh, bind_eq_bind, bind_some]
  simp [allow, examineSyscall, uidGidPart, callBlock]

theorem installSetuidgidFilter_eq : installSetuidgidFilter π lo hi = some (head π 30 ++
      (uidGidPart lo hi π.primarySetresuid π.primarySetresgid ++
        uidGidPart lo hi π.secondarySetresuid π.secondarySetresgid)) := by
  have hj := setValidateArchitectureJumpTarget_head (π := π)
    (P := uidGidPart lo hi π.primarySetresuid π.primarySetresgid) (show 30 < 256 by omega)
  have hs : validateArchitectureAndJumpIfNeeded π [] = (head π 1, 2) := rfl
  simp only [installSetuidgidFilter, hs, validateSetUidGid_eq hh, hj, if_true, if_false,
    Bool.false_eq_true, bind_eq_bind, bind_some, append_assoc]
  rfl

end

section
variable {A B : Prop} {v w : Word}

theorem verdict_of_parts (hn : n = P.length + 1) (hl : n < 256)
    (hP : ∀ r, r.x = 0 ∧ (r.m = fun _ => 0) → (A ∧ run (exec d) (P ++ S) 0 r = .ret v) ∨
        (¬A ∧ run (exec d) (P ++ S) 0 r = .ret seccompRetTrap))
    (hS : ∀ r, r.x = 0 ∧ (r.m = fun _ => 0) →
      (B ∧ run (exec d) S 0 r = .ret v) ∨ (¬B ∧ run (exec d) S 0 r = .ret seccompRetTrap)) :
    ((d.arch = π.primaryArch ∧ A ∨ d.arch = π.secondaryArch ∧ B) ∧
        runFilter (head π n ++ (P ++ S)) d = .ret v) ∨
      (¬(d.arch = π.primaryArch ∧ A ∨ d.arch = π.secondaryArch ∧ B) ∧
        runFilter (head π n ++ (P ++ S)) d = .ret seccompRetTrap) := by
  rw [run_head hn hl]
  by_cases hp : d.arch = π.primaryArch
  · have hs : d.arch ≠ π.secondaryArch := fun h => π.distinct (hp.symm.trans h)
    rw [if_pos hp]
    rcases hP { cleared with a := d.arch } ⟨rfl, rfl⟩ with ⟨hA, hr⟩ | ⟨hA, hr⟩
    · exact .inl ⟨.inl ⟨hp, hA⟩, hr⟩
    refine .inr ⟨?_, hr⟩
    rintro (⟨-, h⟩ | ⟨h, -⟩)
    · exact hA h
    · exact hs h
  rw [if_neg hp]
  by_cases hs : d.arch = π.secondaryArch
  · rw [if_pos hs]
    rcases hS { cleared with a := d.arch } ⟨rfl, rfl⟩ with ⟨hB, hr⟩ | ⟨hB, hr⟩
    · exact .inl ⟨.inr ⟨hs, hB⟩, hr⟩
    refine .inr ⟨?_, hr⟩
    rintro (⟨h, -⟩ | ⟨-, h⟩)
    · exact hp h
    · exact hB h
  · rw [if_neg hs]
    refine .inr ⟨?_, rfl⟩
    rintro (⟨h, -⟩ | ⟨h, -⟩)
    · exact hp h
    · exact hs h

theorem iff_of_verdict {o : Outcome Registers Word} (hv : v ≠ w)
    (h : (A ∧ o = .ret v) ∨ (¬A ∧ o = .ret w)) : (o = .ret v ↔ A) ∧ (o = .ret w ↔ ¬A) := by
  have hr : (Outcome.ret v : Outcome Registers Word) ≠ .ret w := fun h => hv (by cases h; rfl)
  rcases h with ⟨hA, rfl⟩ | ⟨hA, rfl⟩
  · exact ⟨iff_of_true rfl hA, iff_of_false hr (not_not_intro hA)⟩
  · exact ⟨iff_of_false hr.symm hA, iff_of_true rfl hA⟩

theorem not_allowed_iff (π : Policy) (d : SeccompData) (A B : Prop) :
    ¬(d.arch = π.primaryArch ∧ ¬A ∨ d.arch = π.secondaryArch ∧ ¬B) ↔
      (d.arch ≠ π.primaryArch ∧ d.arch ≠ π.secondaryArch) ∨
        (d.arch = π.primaryArch ∧ A) ∨ (d.arch = π.secondaryArch ∧ B) := by
  have hd : d.arch = π.primaryArch → ¬d.arch = π.secondaryArch :=
    fun hp hs => π.distinct (hp.symm.trans hs)
  rw [ne_eq, ne_eq]
  generalize (d.arch = π.primaryArch) = p at *
  generalize (d.arch = π.secondaryArch) = q at *
  tauto

end

/-- The filter with the tables allows exactly what the table of the call's architecture does, and
traps the rest; the filter with the limit traps a call exactly when its architecture is not known,
or it sets an id beyond the limit. -/
theorem filters_sound (π : Policy) : (∀ p s : Filter, Falls p → Falls s → p.length ≤ 252 →
      ∃ f, setSeccompFilter π p s = some f ∧ ∀ d : SeccompData,
        let allowed := (d.arch = π.primaryArch ∧ Allows p d) ∨
          (d.arch = π.secondaryArch ∧ Allows s d)
        (runFilter f d = .ret seccompRetAllow ↔ allowed) ∧
          (runFilter f d = .ret seccompRetTrap ↔ ¬allowed)) ∧
    ∀ lo hi : Word, lo ≤ hi → hi.toNat < 2 ^ 32 - 1 →
      ∃ f, installSetuidgidFilter π lo hi = some f ∧ ∀ d : SeccompData,
        let trapped := (d.arch ≠ π.primaryArch ∧ d.arch ≠ π.secondaryArch) ∨
          (d.arch = π.primaryArch ∧ Refused lo hi π.primarySetresuid π.primarySetresgid d) ∨
          (d.arch = π.secondaryArch ∧ Refused lo hi π.secondarySetresuid π.secondarySetresgid d)
        (runFilter f d = .ret seccompRetTrap ↔ trapped) ∧
          (runFilter f d = .ret seccompRetAllow ↔ ¬trapped) := by
  constructor
  · intro p s hp hs hl
    have hn : p.length + 3 = (tablePart p).length + 1 := by rw [length_tablePart]
    refine ⟨_, setSeccompFilter_eq hl, fun d => iff_of_verdict (by decide) ?_⟩
    refine verdict_of_parts hn (by omega) (fun r hr => run_tablePart hp hr) fun r hr => ?_
    rw [← append_nil (tablePart s)]
    exact run_tablePart hs hr
  intro lo hi _ hh
  have hm : hi.toNat ≠ 2 ^ 32 - 1 := ne_of_lt hh
  refine ⟨_, installSetuidgidFilter_eq hm, fun d => ?_⟩
  have hpt (uid gid : Word) (S : Filter) (r : Registers) : (¬Refused lo hi uid gid d ∧
          run (exec d) (uidGidPart lo hi uid gid ++ S) 0 r = .ret seccompRetAllow) ∨
        (¬¬Refused lo hi uid gid d ∧
          run (exec d) (uidGidPart lo hi uid gid ++ S) 0 r = .ret seccompRetTrap) :=
    (run_uidGidPart hm).symm.imp_right (And.imp_left not_not_intro)
  have hla (uid gid : Word) (r : Registers) := hpt uid gid [] r
  obtain ⟨ha, ht⟩ := iff_of_verdict (by decide)
    (verdict_of_parts (π := π) (n := 30) rfl (by decide) (fun r _ => hpt _ _ _ r)
      fun r _ => hla _ _ r)
  have hif := not_allowed_iff π d (Refused lo hi π.primarySetresuid π.primarySetresgid d)
    (Refused lo hi π.secondarySetresuid π.secondarySetresgid d)
  exact ⟨ht.trans hif, ha.trans ((not_congr hif).symm.trans not_not).symm⟩

def armPolicy : Policy where
  primaryArch := 0xC00000B7
  secondaryArch := 0x40000028
  primarySetresuid := 147
  primarySetresgid := 149
  secondarySetresuid := 208
  secondarySetresgid := 210
  distinct := by decide

def onlyCall (nr : Word) : Filter := [.jmp .jeq (.k nr) 0 1, .retK seccompRetAllow]

theorem onlyCall_falls (nr) : Falls (onlyCall nr) := by
  intro d
  rw [runTable, onlyCall, run_jeq]
  by_cases hn : d.nr = nr
  · exact .inl (if_pos hn)
  · exact .inr ⟨_, if_neg hn⟩

/-- `read` of a 64-bit process is allowed, and of a 32-bit process under the same number is not; a
process that is held to the ids of an app may not become the system user. -/
theorem filters_sound_arm : (∃ f, setSeccompFilter armPolicy (onlyCall 63) (onlyCall 3) = some f ∧
      runFilter f ⟨63, 0xC00000B7, 0, fun _ => 0⟩ = .ret seccompRetAllow ∧
      runFilter f ⟨63, 0x40000028, 0, fun _ => 0⟩ = .ret seccompRetTrap) ∧
    ∃ f, installSetuidgidFilter armPolicy 10000 19999 = some f ∧
      runFilter f ⟨147, 0xC00000B7, 0, fun _ => 1000⟩ = .ret seccompRetTrap ∧
      runFilter f ⟨147, 0xC00000B7, 0, fun _ => 10001⟩ = .ret seccompRetAllow := by
  obtain ⟨ht, hl⟩ := filters_sound armPolicy
  obtain ⟨f, hf, hv⟩ :=
    ht (onlyCall 63) (onlyCall 3) (onlyCall_falls 63) (onlyCall_falls 3) (by decide)
  obtain ⟨g, hg, hb⟩ := hl 10000 19999 (by decide) (by decide)
  refine ⟨⟨f, hf, (hv _).1.2 (.inl ⟨rfl, rfl⟩), (hv _).2.2 ?_⟩,
    g, hg, (hb _).1.2 (.inr (.inl ⟨rfl, .inl rfl, ?_⟩)), (hb _).2.2 ?_⟩
  · rintro (⟨ha, -⟩ | ⟨-, hal⟩)
    · exact absurd ha (by decide)
    · cases hal
  · rintro ⟨⟨hm, -⟩, -⟩
    exact absurd hm (by decide)
  rintro (⟨ha, -⟩ | ⟨-, -, ho⟩ | ⟨ha, -⟩)
  · exact ha rfl
  · exact ho ⟨⟨by decide, by decide⟩, ⟨by decide, by decide⟩, by decide, by decide⟩
  · exact absurd ha (by decide)

/-- The jump over a primary table with more than 252 statements does not fit in a byte: the process
aborts and no filter is made. -/
theorem long_table_aborts :
    ∃ p s : Filter, Falls p ∧ Falls s ∧ setSeccompFilter armPolicy p s = none := by
  refine ⟨replicate 253 (.retK seccompRetAllow), [], fun d => .inl rfl,
    fun d => .inr ⟨_, rfl⟩, setSeccompFilter_long ?_⟩
  rw [length_replicate]
  decide

end SeccompPolicy
