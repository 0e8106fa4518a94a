import Bionic.LinkerCfi
import Bionic.TiledMaps

/-! The CFI shadow over the history of a process. It does not exist before the initial link is done
and a library with `__cfi_check` has been seen; then every library on the list gets its cells, and
later ones when they are linked. A library that is unloaded leaves its cells invalid. -/
namespace LinkerCfiRuns

open LinkerCfi TiledMaps
open LinkerPhdr (PageSize)
open Option (some_ne_none)
open List Set

/-- What the writer reads of a soinfo; without `__cfi_check` its address is 0. -/
structure Soinfo where
  id : ℕ
  base : ℕ
  size : ℕ
  cfiCheck : ℕ
  isLibdl : Bool
  mapped : base + size ≤ kMaxTargetAddr + 1
  inside : cfiCheck = 0 ∨ base ≤ cfiCheck ∧ cfiCheck < base + size
  deriving DecidableEq

structure CfiShadowWriter where
  shadow : Option Shadow
  initialLinkDone : Bool

section
variable (page : PageSize)

def Soinfo.noImage (si : Soinfo) : Bool := si.base == 0 || si.size == 0

/-- `AddLibrary`, with what it returns; `none` is a failed CHECK. -/
def addLibrary (shadow : Shadow) (si : Soinfo) : Option (Shadow × Bool) :=
  if si.noImage then some (shadow, true)
  else if si.cfiCheck = 0 then
    some (addUnchecked page shadow si.base (si.base + si.size), true)
  else if si.cfiCheck % kCfiCheckAlign ≠ 0 then some (shadow, false)
  else
    match add page shadow si.base (si.base + si.size) si.cfiCheck with
    | none => none
    | some shadow => some (shadow, true)

/-- The loop over the list in `MaybeInit`. -/
def addAll (shadow : Shadow) : List Soinfo → Option (Shadow × Bool)
  | [] => some (shadow, true)
  | si :: rest =>
    match addLibrary page shadow si with
    | none => none
    | some (shadow, false) => some (shadow, false)
    | some (shadow, true) => addAll shadow rest

/-- Whether the shadow is needed: after the initial link for the whole list, later only for the new
library. -/
def cfiFound (newSi : Option Soinfo) (solist : List Soinfo) : Bool :=
  match newSi with
  | none => solist.any fun si => si.cfiCheck != 0
  | some si => si.cfiCheck != 0

/-- The new mapping is zero; without libdl nobody learns its address. -/
def maybeInit (w : CfiShadowWriter) (newSi : Option Soinfo) (solist : List Soinfo) :
    Option (CfiShadowWriter × Bool) :=
  if w.initialLinkDone = false ∨ w.shadow.isSome then none
  else if cfiFound newSi solist = false then some (w, true)
  else if solist.any Soinfo.isLibdl = false then some (w, false)
  else
    match addAll page (fun _ => kInvalidShadow) solist with
    | none => none
    | some (shadow, ok) => some ({ w with shadow := some shadow }, ok)

def afterLoad (w : CfiShadowWriter) (si : Soinfo) (solist : List Soinfo) :
    Option (CfiShadowWriter × Bool) :=
  if w.initialLinkDone = false then some (w, true)
  else
    match w.shadow with
    | none => maybeInit page w (some si) solist
    | some shadow =>
      match addLibrary page shadow si with
      | none => none
      | some (shadow, ok) => some ({ w with shadow := some shadow }, ok)

def beforeUnload (w : CfiShadowWriter) (si : Soinfo) : CfiShadowWriter :=
  match w.shadow with
  | none => w
  | some shadow =>
    if si.noImage then w
    else { w with shadow := some (addInvalid page shadow si.base (si.base + si.size)) }

def initialLinkDone (w : CfiShadowWriter) (solist : List Soinfo) :
    Option (CfiShadowWriter × Bool) :=
  if w.initialLinkDone then none
  else maybeInit page { w with initialLinkDone := true } none solist

/-- The libraries of one load in the order in which they are linked, up to the first that is
refused. -/
def afterLoads (w : CfiShadowWriter) (solist : List Soinfo) :
    List Soinfo → Option (CfiShadowWriter × Bool)
  | [] => some (w, true)
  | si :: rest =>
    match afterLoad page w si solist with
    | none => none
    | some (w, false) => some (w, false)
    | some (w, true) => afterLoads w solist rest

end

structure Process where
  solist : List Soinfo
  writer : CfiShadowWriter

def Covers (si : Soinfo) (cell : ℕ) : Prop :=
  si.noImage = false ∧ memToShadow si.base ≤ cell ∧ cell ≤ memToShadow (si.base + si.size - 1)

def cellValue (si : Soinfo) (cell : ℕ) : ℕ :=
  if si.cfiCheck = 0 then kUncheckedShadow
  else if cell < memToShadow si.cfiCheck then kInvalidShadow
  else shadowValue (firstValue si.cfiCheck) (cell - memToShadow si.cfiCheck)

def cells : Tiling Soinfo ℕ ℕ where
  region := fun si => {cell | Covers si cell}
  value := cellValue
  default := kInvalidShadow

def members (l : List Soinfo) : Set Soinfo := {si | si ∈ l}

theorem members_nil : members [] = ∅ := eq_empty_of_forall_notMem fun _ => not_mem_nil

theorem members_cons (si l) : members (si :: l) = insert si (members l) := Set.ext fun _ => mem_cons

theorem members_singleton (si) : members [si] = {si} :=
  Set.ext fun _ => mem_singleton

theorem members_append (l r) : members (l ++ r) = members l ∪ members r :=
  Set.ext fun _ => mem_append

def Apart (l : List Soinfo) : Prop := (members l).PairwiseDisjoint cells.region

/-- One load, unload or end of the initial link. A load appends its libraries, links them in some
order, and unloads all of them again when linking one fails. -/
inductive Step (page : PageSize) : Process → Process → Prop
  | load {p : Process} {w : CfiShadowWriter} (new order : List Soinfo)
      (fresh : ∀ si ∈ new, si ∉ p.solist) (apart : Apart (p.solist ++ new))
      (linked : ∀ si, si ∈ order ↔ si ∈ new)
      (ok : afterLoads page p.writer (p.solist ++ new) order = some (w, true)) :
      Step page p ⟨p.solist ++ new, w⟩
  | loadFails {p : Process} {w : CfiShadowWriter} (new order : List Soinfo) (ok : Bool)
      (fresh : ∀ si ∈ new, si ∉ p.solist) (apart : Apart (p.solist ++ new))
      (linked : order ⊆ new)
      (result : afterLoads page p.writer (p.solist ++ new) order = some (w, ok)) :
      Step page p ⟨p.solist, new.foldl (beforeUnload page) w⟩
  | unload {p : Process} (gone : List Soinfo) (alive : gone ⊆ p.solist) :
      Step page p ⟨p.solist.filter (· ∉ gone), gone.foldl (beforeUnload page) p.writer⟩
  | initialLinkDone {p : Process} {w : CfiShadowWriter}
      (ok : initialLinkDone page p.writer p.solist = some (w, true)) :
      Step page p ⟨p.solist, w⟩

inductive Run (page : PageSize) : Process → Prop
  | start (solist : List Soinfo) (apart : Apart solist) : Run page ⟨solist, ⟨none, false⟩⟩
  | step {p q : Process} (run : Run page p) (next : Step page p q) : Run page q

variable {page : PageSize} {shadow : Shadow} {si : Soinfo}

section
variable {shown : Set Soinfo}

/-- No image, or an aligned `__cfi_check`, if there is one. -/
def Soinfo.Usable (si : Soinfo) : Prop := si.noImage ∨ si.cfiCheck % kCfiCheckAlign = 0

theorem base_lt_end (h : si.noImage = false) : si.base < si.base + si.size := by
  unfold Soinfo.noImage at h
  rw [Bool.or_eq_false_iff, beq_eq_false_iff_ne, beq_eq_false_iff_ne] at h
  omega

theorem not_covers_of_noImage (h : si.noImage) (cell) : ¬Covers si cell := by
  rintro ⟨hig, -⟩
  exact Bool.false_ne_true (hig.symm.trans h)

theorem usable_of_no_check (h : si.cfiCheck = 0) : si.Usable := .inr (by rw [h, Nat.zero_mod])

theorem addLibrary_usable (h : si.Usable)
    (hbf : ∀ cell, Covers si cell → shadow cell = cellValue si cell ∨
      shadow cell = kInvalidShadow) : ∃ written, addLibrary page shadow si = some (written, true) ∧
      (∀ cell, Covers si cell → written cell = cellValue si cell) ∧
      ∀ cell, ¬Covers si cell → written cell = shadow cell := by
  unfold addLibrary
  cases hig : si.noImage with
  | true =>
    exact ⟨shadow, if_pos rfl, fun cell hc => absurd hc (not_covers_of_noImage hig cell),
      fun _ _ => rfl⟩
  | false =>
    rw [if_neg nofun]
    have hcv : ∀ cell, Covers si cell ↔ memToShadow si.base ≤ cell ∧
        cell ≤ memToShadow (si.base + si.size - 1) := fun cell => and_iff_right hig
    have hlt := base_lt_end hig
    by_cases hck : si.cfiCheck = 0
    · refine ⟨_, if_pos hck, ?_, ?_⟩
      · intro cell hc
        rw [addUnchecked, addConstant_apply hlt, if_pos ((hcv cell).mp hc), cellValue,
          if_pos hck]
      · intro cell hc
        rw [addUnchecked, addConstant_apply hlt, if_neg (mt (hcv cell).mpr hc)]
    have ha : si.cfiCheck % kCfiCheckAlign = 0 := h.resolve_left (hig ▸ nofun)
    obtain ⟨hl, hh⟩ := si.inside.resolve_left hck
    obtain ⟨written, had, hap⟩ := add_apply page shadow ha hl hh
    have hce : memToShadow si.base ≤ memToShadow si.cfiCheck := memToShadow_mono hl
    rw [if_neg hck, if_neg (not_not.mpr ha), had]
    refine ⟨written, rfl, ?_, ?_⟩
    · intro cell hc
      rw [hap, cellValue, if_neg hck]
      by_cases hb : cell < memToShadow si.cfiCheck
      · rw [if_neg (by omega), if_pos hb]
        rcases hbf cell hc with hs | hiv
        · rw [hs, cellValue, if_neg hck, if_pos hb]
        · exact hiv
      · rw [if_pos ⟨by omega, ((hcv cell).mp hc).2⟩, if_neg hb]
    · intro cell hc
      rw [hap, if_neg]
      rintro ⟨h1, h2⟩
      exact hc ((hcv cell).mpr ⟨by omega, h2⟩)

theorem addLibrary_unusable (h : ¬si.Usable) :
    addLibrary page shadow si = some (shadow, false) := by
  obtain ⟨hig, ha⟩ := not_or.mp h
  have hc : si.cfiCheck ≠ 0 := fun hz => h (usable_of_no_check hz)
  unfold addLibrary
  rw [if_neg hig, if_neg hc, if_pos ha]

theorem addLibrary_shows (page) (hs : Shows cells shown shadow)
    (hap : (insert si shown).PairwiseDisjoint cells.region) (h : si.Usable) :
    ∃ written, addLibrary page shadow si = some (written, true) ∧
      Shows cells (insert si shown) written := by
  obtain ⟨written, ha, hin, ho⟩ :=
    addLibrary_usable h fun cell hc => hs.before hap hc
  exact ⟨written, ha, hs.add hap hin ho⟩

theorem addInvalid_shows (hs : Shows cells shown shadow)
    (ha : (insert si shown).PairwiseDisjoint cells.region) (hig : si.noImage = false) :
    Shows cells (shown \ {si}) (addInvalid page shadow si.base (si.base + si.size)) := by
  have hl := base_lt_end hig
  refine hs.remove ha ?_ ?_
  · intro cell hc
    rw [addInvalid, addConstant_apply hl, if_pos hc.2]
    rfl
  · intro cell hc
    rw [addInvalid, addConstant_apply hl, if_neg fun h => hc ⟨hig, h⟩]

theorem shows_without_noImage (hs : Shows cells shown shadow) (hig : si.noImage) :
    Shows cells (shown \ {si}) shadow := by
  refine ⟨fun b hb => hs.own b hb.1, fun cell hf => hs.rest cell fun b hb hc => ?_⟩
  exact hf b ⟨hb, fun h => not_covers_of_noImage hig cell (h ▸ hc)⟩ hc

end

variable {w : CfiShadowWriter}

section
variable {new old : List Soinfo} {high low : Set Soinfo} {l : List Soinfo}

theorem addAll_shows (page) {shown} (l) (hs : Shows cells shown shadow)
    (hap : (shown ∪ members l).PairwiseDisjoint cells.region) :
    ∃ written ok more, addAll page shadow l = some (written, ok) ∧ shown ⊆ more ∧
      more ⊆ shown ∪ members l ∧ Shows cells more written ∧
      (ok ↔ ∀ si ∈ l, si.Usable) ∧ (ok → members l ⊆ more) := by
  induction l generalizing shadow shown with
  | nil =>
    refine ⟨shadow, true, shown, rfl, Set.Subset.rfl, subset_union_left, hs, ?_, ?_⟩
    · simp
    · intro _ si hsi
      exact absurd hsi not_mem_nil
  | cons si rest ih =>
    rw [addAll]
    by_cases h : si.Usable
    · have hin : insert si shown ∪ members rest = shown ∪ members (si :: rest) := by
        rw [members_cons, insert_union, union_insert]
      obtain ⟨first, had, hft⟩ := addLibrary_shows page hs (hap.subset (hin ▸ subset_union_left)) h
      obtain ⟨written, ok, more, ha, hl, hh, hm, ho, hc⟩ :=
        ih hft (hin ▸ hap)
      rw [had]
      refine ⟨written, ok, more, ha, (subset_insert si shown).trans hl, hin ▸ hh, hm, ?_, ?_⟩
      · rw [ho, forall_mem_cons, and_iff_right h]
      intro h b hb
      rcases List.mem_cons.mp hb with rfl | hb
      · exact hl (mem_insert b shown)
      · exact hc h hb
    · rw [addLibrary_unusable h]
      refine ⟨shadow, false, shown, rfl, Set.Subset.rfl, subset_union_left, hs, ?_, ?_⟩
      · exact ⟨fun hf => absurd hf nofun, fun ha => absurd (ha si mem_cons_self) h⟩
      · exact fun hf => absurd hf nofun

theorem addAll_append {written} (r) (h : addAll page shadow l = some (written, true)) :
    addAll page shadow (l ++ r) = addAll page written r := by
  induction l generalizing shadow with
  | nil =>
    cases h
    rfl
  | cons si rest ih =>
    rw [cons_append, addAll]
    rw [addAll] at h
    rcases ha : addLibrary page shadow si with _ | ⟨next, ok⟩ <;> rw [ha] at h
    · exact absurd h (by simp)
    · cases ok with
      | false => exact absurd h (by simp)
      | true => exact ih h

/-- While a load is under way the shadow shows the libraries in `low`, and no others than those in
`high`. -/
def Between (low high : Set Soinfo) (w : CfiShadowWriter) : Prop :=
  ∀ shadow, w.shadow = some shadow → ∃ shown, low ⊆ shown ∧ shown ⊆ high ∧ Shows cells shown shadow

/-- A library that stays can be shown, and needs no shadow that is not there. -/
def Accepted (w : CfiShadowWriter) (si : Soinfo) : Prop :=
  si.Usable ∧ (w.shadow = none → si.cfiCheck = 0)

theorem between_of_none (h : w.shadow = none) : Between low high w := by
  intro shadow hs
  exact absurd (h.symm.trans hs) (some_ne_none shadow).symm

theorem Between.mono {low' hi'}
    (h : Between low high w) (hle : low' ⊆ low) (hg : high ⊆ hi') : Between low' hi' w := by
  intro shadow hs
  obtain ⟨shown, hl, hh, hsh⟩ := h shadow hs
  exact ⟨shown, hle.trans hl, hh.trans hg, hsh⟩

theorem addAll_between (page) (hap : Apart (old ++ new)) (hod : ∀ si ∈ old, si.Usable) :
    ∃ written ok shown, addAll page (fun _ => kInvalidShadow) (old ++ new) = some (written, ok) ∧
      members old ⊆ shown ∧ shown ⊆ members (old ++ new) ∧ Shows cells shown written ∧
      (ok → (∀ si ∈ old ++ new, si.Usable) ∧ members (old ++ new) ⊆ shown) := by
  have ha := members_append old new
  have hep : (∅ ∪ members old).PairwiseDisjoint cells.region := by
    rw [empty_union]
    exact hap.subset (ha ▸ subset_union_left)
  obtain ⟨first, ok, shown, hal, -, hh, hsh, ho, hc⟩ :=
    addAll_shows page old Shows.empty hep
  have ht : ok := ho.mpr hod
  subst ht
  have hs : shown = members old :=
    (hh.trans (empty_union _).le).antisymm (hc rfl)
  subst hs
  obtain ⟨written, ok, more, hal', hl, hh', hsh', ho', hc'⟩ :=
    addAll_shows page new hsh (ha ▸ hap)
  refine ⟨written, ok, more, (addAll_append new hal).trans hal', hl, ha ▸ hh', hsh',
    fun h => ⟨?_, ?_⟩⟩
  · intro si hsi
    exact (List.mem_append.mp hsi).elim (hod si) (ho'.mp h si)
  · rw [ha]
    exact union_subset hl (hc' h)

/-- `MaybeInit` makes no shadow, or it shows the libraries that were there before and maybe others,
which are all of them when it succeeds. -/
theorem maybeInit_spec (page w newSi old new)
    (hd : w.initialLinkDone) (hn : w.shadow = none) (hap : Apart (old ++ new))
    (hod : ∀ si ∈ old, si.Usable) :
    ∃ w' ok, maybeInit page w newSi (old ++ new) = some (w', ok) ∧ w'.initialLinkDone ∧
      Between (members old) (members (old ++ new)) w' ∧
      (ok → w' = w ∧ cfiFound newSi (old ++ new) = false ∨
        w'.shadow ≠ none ∧ (∀ si ∈ old ++ new, si.Usable) ∧
          Between (members (old ++ new)) (members (old ++ new)) w') := by
  have hno : Between (members old) (members (old ++ new)) w := between_of_none hn
  unfold maybeInit
  rw [if_neg (by simp [hd, hn])]
  by_cases hf : cfiFound newSi (old ++ new) = false
  · rw [if_pos hf]
    exact ⟨w, true, rfl, hd, hno, fun _ => .inl ⟨rfl, hf⟩⟩
  rw [if_neg hf]
  by_cases hl : (old ++ new).any Soinfo.isLibdl = false
  · rw [if_pos hl]
    exact ⟨w, false, rfl, hd, hno, fun h => absurd h nofun⟩
  rw [if_neg hl]
  obtain ⟨written, ok, shown, ha, hlw, hh, hs, ho⟩ :=
    addAll_between page hap hod
  rw [ha]
  refine ⟨_, ok, rfl, hd, ?_, fun h => .inr ⟨some_ne_none written, (ho h).1, ?_⟩⟩
  · rintro _ ⟨⟩
    exact ⟨shown, hlw, hh, hs⟩
  · rintro _ ⟨⟩
    exact ⟨shown, (ho h).2, hh, hs⟩

/-- What linking some of the libraries `l` leaves behind. -/
structure Outcome (old : List Soinfo) (low high : Set Soinfo) (l : List Soinfo)
    (w w' : CfiShadowWriter) (ok : Bool) : Prop where
  done : w'.initialLinkDone
  kept : w'.shadow = none → w.shadow = none
  between : Between (members old) high w'
  linked : ok → Between (low ∪ members l) high w' ∧ ∀ si ∈ l, Accepted w' si

theorem afterLoads_spec (page order) (hd : w.initialLinkDone)
    (hap : Apart (old ++ new)) (hod : ∀ si ∈ old, si.Usable) (ho : order ⊆ new)
    (hl : members old ⊆ low) (hh : low ⊆ members (old ++ new))
    (hw : Between low (members (old ++ new)) w) :
    ∃ w' ok, afterLoads page w (old ++ new) order = some (w', ok) ∧
      Outcome old low (members (old ++ new)) order w w' ok := by
  induction order generalizing w low with
  | nil =>
    refine ⟨w, true, rfl, hd, id, hw.mono hl Set.Subset.rfl, fun _ => ⟨?_, forall_mem_nil _⟩⟩
    rw [members_nil, union_empty]
    exact hw
  | cons si rest ih =>
    obtain ⟨hsi, hr⟩ := List.cons_subset.mp ho
    obtain ⟨next, ok, hld, hn⟩ : ∃ w' ok, afterLoad page w si (old ++ new) = some (w', ok) ∧
        Outcome old low (members (old ++ new)) [si] w w' ok := by
      cases hs : w.shadow with
      | none =>
        have hm : si ∈ members (old ++ new) := mem_append_right old hsi
        obtain ⟨w', ok, hin, hd', hbt, hok⟩ :=
          maybeInit_spec page w (some si) old new hd hs hap hod
        unfold afterLoad
        rw [if_neg (by simp [hd]), hs]
        refine ⟨w', ok, hin, hd', fun _ => hs, hbt, fun h => ?_⟩
        rw [members_singleton, union_singleton, forall_mem_singleton]
        rcases hok h with ⟨rfl, hf⟩ | ⟨hso, hu, hfu⟩
        · have hc : si.cfiCheck = 0 := by simpa [cfiFound] using hf
          exact ⟨between_of_none hs, usable_of_no_check hc, fun _ => hc⟩
        · refine ⟨hfu.mono (insert_subset hm hh) Set.Subset.rfl, hu si hm, fun h => ?_⟩
          exact absurd h hso
      | some shadow =>
        have hm : si ∈ members (old ++ new) := mem_append_right old hsi
        obtain ⟨shown, hl', hh, hsh⟩ := hw shadow hs
        have hh' : insert si shown ⊆ members (old ++ new) := insert_subset hm hh
        unfold afterLoad
        rw [if_neg (by simp [hd]), hs]
        dsimp only
        by_cases h : si.Usable
        · obtain ⟨written, ha, hwn⟩ :=
            addLibrary_shows page hsh (hap.subset hh') h
          have hfu : Between (insert si low) (members (old ++ new))
              { w with shadow := some written } := by
            rintro _ ⟨⟩
            exact ⟨insert si shown, insert_subset_insert hl', hh', hwn⟩
          rw [ha]
          refine ⟨_, true, rfl, hd, fun h => absurd h (some_ne_none written),
            hfu.mono (hl.trans (subset_insert si low)) Set.Subset.rfl, fun _ => ⟨?_, ?_⟩⟩
          · rw [members_singleton, union_singleton]
            exact hfu
          · exact List.forall_mem_singleton.mpr ⟨h, fun h => absurd h (some_ne_none written)⟩
        · rw [addLibrary_unusable h]
          refine ⟨_, false, rfl, hd, fun h => absurd h (some_ne_none shadow), ?_,
            fun h => absurd h nofun⟩
          rintro _ ⟨⟩
          exact ⟨shown, hl.trans hl', hh, hsh⟩
    rw [afterLoads, hld]
    cases ok with
    | false =>
      exact ⟨next, false, rfl, hn.done, hn.kept, hn.between, fun h => absurd h nofun⟩
    | true =>
      obtain ⟨hbt, hac⟩ := hn.linked rfl
      have hh' : low ∪ members [si] ⊆ members (old ++ new) := by
        rw [members_singleton, union_singleton]
        exact insert_subset (mem_append_right old hsi) hh
      obtain ⟨w', ok, hla, hw'⟩ := ih hn.done hr (hl.trans subset_union_left) hh' hbt
      refine ⟨w', ok, hla, hw'.done, fun h => hn.kept (hw'.kept h), hw'.between,
        fun h => ⟨(hw'.linked h).1.mono ?_ Set.Subset.rfl, ?_⟩⟩
      · rw [members_singleton, union_assoc, singleton_union, members_cons]
      intro b hb
      rcases List.mem_cons.mp hb with rfl | hb
      · obtain ⟨hu, hc⟩ := hac b mem_cons_self
        exact ⟨hu, fun hno => hc (hw'.kept hno)⟩
      · exact (hw'.linked h).2 b hb

theorem afterLoads_early (solist order)
    (h : w.initialLinkDone = false) : afterLoads page w solist order = some (w, true) := by
  induction order with
  | nil => rfl
  | cons si rest ih =>
    rw [afterLoads, afterLoad, if_pos h]
    exact ih

theorem beforeUnload_initialLinkDone (w si) :
    (beforeUnload page w si).initialLinkDone = w.initialLinkDone := by
  unfold beforeUnload
  split
  · rfl
  · split <;> rfl

theorem beforeUnload_none (w si) : (beforeUnload page w si).shadow = none ↔ w.shadow = none := by
  unfold beforeUnload
  split
  · rfl
  split
  · rfl
  · simp [*]

theorem between_beforeUnload (page) (h : Between low high w)
    (ha : (insert si high).PairwiseDisjoint cells.region) :
    Between (low \ {si}) (high \ {si}) (beforeUnload page w si) := by
  cases hs : w.shadow with
  | none => exact between_of_none ((beforeUnload_none w si).mpr hs)
  | some shadow =>
    obtain ⟨shown, hl, hh, hso⟩ := h shadow hs
    have hl' : low \ {si} ⊆ shown \ {si} := sdiff_subset_sdiff_left hl
    have hh' : shown \ {si} ⊆ high \ {si} := sdiff_subset_sdiff_left hh
    cases hig : si.noImage with
    | true =>
      have hsm : beforeUnload page w si = w := by simp [beforeUnload, hs, hig]
      intro sh hsh
      rw [hsm, hs] at hsh
      cases hsh
      exact ⟨_, hl', hh', shows_without_noImage hso hig⟩
    | false =>
      unfold beforeUnload
      rw [hs, hig]
      rintro _ ⟨⟩
      refine ⟨_, hl', hh', addInvalid_shows hso ?_ hig⟩
      exact ha.subset (insert_subset_insert hh)

theorem between_unloads (page gone) (h : Between low high w)
    (ha : (members gone ∪ high).PairwiseDisjoint cells.region) :
    Between (low \ members gone) (high \ members gone) (gone.foldl (beforeUnload page) w) := by
  induction gone generalizing w low high with
  | nil =>
    rw [members_nil, sdiff_empty, sdiff_empty]
    exact h
  | cons si rest ih =>
    rw [members_cons] at ha
    have hn := between_beforeUnload page h (ha.subset (union_subset_union_left high
        (Set.singleton_subset_iff.mpr (mem_insert si _))))
    have hr := ih hn (ha.subset (union_subset_union (subset_insert si _) sdiff_subset))
    rw [sdiff_sdiff, sdiff_sdiff, singleton_union, ← members_cons] at hr
    exact hr

theorem unloads_initialLinkDone (gone : List Soinfo) (w) :
    (gone.foldl (beforeUnload page) w).initialLinkDone = w.initialLinkDone := by
  induction gone generalizing w with
  | nil => rfl
  | cons si rest ih => rw [foldl_cons, ih, beforeUnload_initialLinkDone]

theorem unloads_none (page) (gone : List Soinfo) (w) :
    (gone.foldl (beforeUnload page) w).shadow = none ↔ w.shadow = none := by
  induction gone generalizing w with
  | nil => rfl
  | cons si rest ih => rw [foldl_cons, ih, beforeUnload_none]

variable {p q : Process}

/-- The shadow shows the libraries on the list. There is none before the initial link is done, or
while no library needs it. -/
structure Consistent (p : Process) : Prop where
  apart : Apart p.solist
  early : p.writer.initialLinkDone = false → p.writer.shadow = none
  accepted : p.writer.initialLinkDone → ∀ si ∈ p.solist, Accepted p.writer si
  shown : Between (members p.solist) (members p.solist) p.writer

variable {order : List Soinfo}

theorem Accepted.mono {w'} (h : Accepted w si)
    (hk : w'.shadow = none → w.shadow = none) : Accepted w' si :=
  ⟨h.1, fun hn => h.2 (hk hn)⟩

section
variable (hp : Consistent p)
include hp

theorem consistent_loadFails {ok} (hf : ∀ si ∈ new, si ∉ p.solist)
    (ha : Apart (p.solist ++ new)) (hl : order ⊆ new)
    (hr : afterLoads page p.writer (p.solist ++ new) order = some (w, ok)) :
    Consistent ⟨p.solist, new.foldl (beforeUnload page) w⟩ ∧
      (w.shadow = none → p.writer.shadow = none) := by
  cases hd : p.writer.initialLinkDone with
  | false =>
    rw [afterLoads_early _ _ hd] at hr
    cases hr
    have hno := (unloads_none page new p.writer).mpr (hp.early hd)
    refine ⟨⟨hp.apart, fun _ => hno, fun h => ?_, between_of_none hno⟩, id⟩
    rw [unloads_initialLinkDone] at h
    exact absurd (hd.symm.trans h) nofun
  | true =>
    have ho : members p.solist ⊆ members (p.solist ++ new) := subset_append_left _ _
    obtain ⟨w', ok, hla, hw⟩ := afterLoads_spec page order hd ha
      (fun si hs => (hp.accepted hd si hs).1) hl Set.Subset.rfl ho
      (hp.shown.mono Set.Subset.rfl ho)
    cases hr.symm.trans hla
    have hn : Disjoint (members p.solist) (members new) :=
      Set.disjoint_left.mpr fun si hs h => hf si h hs
    have hu := between_unloads page new hw.between
      (ha.subset (union_subset (subset_append_right _ _) Set.Subset.rfl))
    rw [members_append, union_sdiff_right, hn.sdiff_eq_left] at hu
    refine ⟨⟨hp.apart, ?_, ?_, hu⟩, hw.kept⟩
    · intro h
      rw [unloads_initialLinkDone] at h
      exact absurd (h.symm.trans hw.done) nofun
    · intro _ si hs
      exact (hp.accepted hd si hs).mono fun h => hw.kept ((unloads_none page new w).mp h)

theorem consistent_unload {gone} (ha : gone ⊆ p.solist) :
    Consistent ⟨p.solist.filter (· ∉ gone), gone.foldl (beforeUnload page) p.writer⟩ := by
  have hf : members (p.solist.filter (· ∉ gone)) = members p.solist \ members gone := by
    ext si
    simp [members]
  have hu := between_unloads page gone hp.shown (hp.apart.subset (union_subset ha Set.Subset.rfl))
  refine ⟨hp.apart.subset (hf ▸ sdiff_subset), ?_, ?_, ?_⟩
  · intro h
    rw [unloads_initialLinkDone] at h
    exact (unloads_none page gone p.writer).mpr (hp.early h)
  · intro h si hs
    rw [unloads_initialLinkDone] at h
    exact (hp.accepted h si ((List.mem_filter.mp hs).1)).mono (unloads_none page gone p.writer).mp
  · rw [hf]
    exact hu

theorem consistent_initialLinkDone (ho : initialLinkDone page p.writer p.solist = some (w, true)) :
    Consistent ⟨p.solist, w⟩ ∧ p.writer.shadow = none := by
  unfold initialLinkDone at ho
  cases hd : p.writer.initialLinkDone with
  | true =>
    rw [hd, if_pos rfl] at ho
    exact absurd ho (by simp)
  | false =>
    rw [hd, if_neg nofun] at ho
    have hn := hp.early hd
    obtain ⟨w', ok, hin, hd', -, hc⟩ := maybeInit_spec page
      { p.writer with initialLinkDone := true } none [] p.solist rfl hn hp.apart
      (forall_mem_nil _)
    cases ho.symm.trans hin
    refine ⟨⟨hp.apart, fun h => absurd (h.symm.trans hd') nofun, ?_, ?_⟩, hn⟩
    · intro _ si hs
      rcases hc rfl with ⟨-, hf⟩ | ⟨hso, hu, -⟩
      · have hck : si.cfiCheck = 0 := by
          simpa using List.any_eq_false.mp hf si hs
        exact ⟨usable_of_no_check hck, fun _ => hck⟩
      · exact ⟨hu si hs, fun h => absurd h hso⟩
    · rcases hc rfl with ⟨hsm, -⟩ | ⟨-, -, hfu⟩
      · exact between_of_none (hsm ▸ hn)
      · exact hfu

theorem consistent_step (h : Step page p q) :
    Consistent q ∧ (q.writer.shadow = none → p.writer.shadow = none) := by
  cases h with
  | load new order fresh apart linked loaded =>
    cases hd : p.writer.initialLinkDone with
    | false =>
      rw [afterLoads_early _ _ hd] at loaded
      cases loaded
      have hn := hp.early hd
      exact ⟨⟨apart, hp.early, fun h => absurd (hd.symm.trans h) nofun, between_of_none hn⟩, id⟩
    | true =>
      have hod : members p.solist ⊆ members (p.solist ++ new) := subset_append_left _ _
      obtain ⟨w', ok, hl, hw⟩ := afterLoads_spec page order hd apart
        (fun si hs => (hp.accepted hd si hs).1) (fun si => (linked si).mp)
        Set.Subset.rfl hod
        (hp.shown.mono Set.Subset.rfl hod)
      cases loaded.symm.trans hl
      obtain ⟨hb, ha⟩ := hw.linked rfl
      have ho : members order = members new := Set.ext linked
      rw [ho, ← members_append] at hb
      refine ⟨⟨apart, fun h => absurd (h.symm.trans hw.done) nofun, fun _ si hs => ?_, hb⟩, hw.kept⟩
      rcases List.mem_append.mp hs with hs | hs
      · exact (hp.accepted hd si hs).mono hw.kept
      · exact ha si ((linked si).mpr hs)
  | loadFails new order ok fresh apart linked result =>
    obtain ⟨hq, hk⟩ := consistent_loadFails hp fresh apart linked result
    exact ⟨hq, fun hn => hk ((unloads_none page new _).mp hn)⟩
  | unload gone alive => exact ⟨consistent_unload hp alive, (unloads_none page gone p.writer).mp⟩
  | initialLinkDone ok =>
    obtain ⟨hq, hn⟩ := consistent_initialLinkDone hp ok
    exact ⟨hq, fun _ => hn⟩

end

theorem Run.consistent (run : Run page p) : Consistent p := by
  induction run with
  | start solist apart =>
    exact ⟨apart, fun _ => rfl, fun h => absurd h nofun, between_of_none rfl⟩
  | step run next ih => exact (consistent_step ih next).1

theorem Consistent.shows (hp : Consistent p)
    (h : p.writer.shadow = some shadow) : Shows cells (members p.solist) shadow := by
  obtain ⟨shown, hl, hh, hs⟩ := hp.shown shadow h
  rw [hl.antisymm hh]
  exact hs

structure MapOf (l : List Soinfo) (shadow : Shadow) : Prop where
  free : ∀ cell, (∀ si ∈ l, ¬Covers si cell) → shadow cell = kInvalidShadow
  aligned : ∀ si ∈ l, si.noImage = false → si.cfiCheck % kCfiCheckAlign = 0
  unchecked : ∀ si ∈ l, si.cfiCheck = 0 → ∀ cell, Covers si cell → shadow cell = kUncheckedShadow
  below : ∀ si ∈ l, si.cfiCheck ≠ 0 → ∀ cell, Covers si cell →
    cell < memToShadow si.cfiCheck → shadow cell = kInvalidShadow
  /-- The value fits for 1024 cells, one less when `__cfi_check` is at the start of its cell. -/
  checked : ∀ si ∈ l, si.cfiCheck ≠ 0 → ∀ ptr, Covers si (memToShadow ptr) → ∀ k,
    memToShadow ptr = memToShadow si.cfiCheck + k →
    (k < 1023 ∨ k < 1024 ∧ 8192 < si.cfiCheck % kShadowAlign) →
    kRegularShadowMin ≤ shadow (memToShadow ptr) ∧
      cfiCheckAddr (shadow (memToShadow ptr)) ptr = si.cfiCheck
  tooFar : ∀ si ∈ l, si.cfiCheck ≠ 0 → ∀ cell, Covers si cell → ∀ k ≥ 1023,
    cell = memToShadow si.cfiCheck + k → si.cfiCheck % kShadowAlign ≤ 8192 →
    shadow cell = kUncheckedShadow

theorem mapOf_of_shows (hu : ∀ si ∈ l, si.Usable)
    (h : Shows cells (members l) shadow) : MapOf l shadow := by
  have ha : ∀ si ∈ l, si.noImage = false → si.cfiCheck % kCfiCheckAlign = 0 :=
    fun si hs hig => (hu si hs).resolve_left (hig ▸ nofun)
  have hv : ∀ si ∈ l, si.cfiCheck ≠ 0 → ∀ cell, Covers si cell →
      ∀ k, cell = memToShadow si.cfiCheck + k →
        shadow cell = shadowValue (firstValue si.cfiCheck) k := by
    rintro si hs hck cell hc k rfl
    rw [h.own si hs _ hc, cells]
    dsimp only
    rw [cellValue, if_neg hck, if_neg (by omega), Nat.add_sub_cancel_left]
  refine ⟨h.rest, ha, ?_, ?_, ?_, ?_⟩
  · intro si hs hck cell hc
    exact (h.own si hs cell hc).trans (if_pos hck)
  · intro si hs hck cell hc hb
    exact (h.own si hs cell hc).trans ((if_neg hck).trans (if_pos hb))
  · intro si hs hck ptr hc k hk hf
    have han := ha si hs hc.1
    rw [hv si hs hck _ hc k hk]
    apply regular_shadowValue han (le_maxTargetAddr si.mapped hc.2.2) hk
    refine hf.imp id (And.imp id fun hl => ?_)
    rw [← not_le, high_firstValue_iff han, not_le]
    exact hl
  · intro si hs hck cell hc k hk heq hh
    rw [hv si hs hck cell hc k heq]
    exact shadowValue_of_high ((high_firstValue_iff (ha si hs hc.1)).mpr hh) hk

end

/-- A small process: libdl, and an executable of four cells with `__cfi_check` at the start of the
second one. -/
def libdl : Soinfo := ⟨0, 2 ^ 41, 2 ^ 18, 0, true, by decide, .inl rfl⟩

def executable : Soinfo :=
  ⟨1, 2 ^ 40, 2 ^ 20, 2 ^ 40 + 2 ^ 18, false, by decide, .inr (by decide)⟩

theorem apart_executable : Apart [libdl, executable] := by
  rw [Apart, members_cons, members_singleton]
  refine Set.pairwise_pair_of_symm.mpr ?_
  intro _
  apply Set.disjoint_left.mpr
  intro cell hl hee
  exact absurd (hl.2.1.trans hee.2.2) (by decide)

end LinkerCfiRuns
