import Bionic.LinkerWalk

/-! `dlsym` over the dependencies of a library: `dlsym_handle_lookup_impl` walks them with an action
that looks for the symbol. -/
namespace LinkerDlsym

open LinkerWalk List WalkActionResult

variable {α β : Type} [DecidableEq α] (children : α → List α) (isAccessible : α → Bool)
  (findSymbolByName : α → Option β)

/-- The lambda of the walk. `skip_lookup` is true until `skip_until` has been visited. -/
def lookupAction (skipUntil : Option α) (calls : Calls α) (si : α) : WalkActionResult :=
  if skipUntil.any (· ∉ calls.map Prod.fst) then kWalkContinue
  else if !isAccessible si then kWalkSkip
  else if (findSymbolByName si).isSome then kWalkStop
  else kWalkContinue

/-- The library and the symbol that was found in it. -/
def dlsymHandleLookupImpl (fuel : ℕ) (root : α) (skipUntil : Option α) : Option (Option (α × β)) :=
  (walkDependenciesTree children (lookupAction isAccessible findSymbolByName skipUntil) fuel [root]
    []).map fun w => if w.1 then none
      else w.2.getLast?.bind fun c => (findSymbolByName c.1).map (c.1, ·)

/-- What is reached from the root through accessible libraries. -/
inductive Through (root : α) : α → Prop where
  | root : Through root root
  | child {p c} : Through root p → isAccessible p → c ∈ children p → Through root c

variable {children isAccessible findSymbolByName} {root : α} {skipUntil : Option α}

omit [DecidableEq α] in
theorem answered_at {f : Calls α → α → WalkActionResult} {before c after}
    (h : Answered f (before ++ c :: after)) : c.2 = f before c.1 := by
  generalize hl : before ++ c :: after = calls at h
  induction h generalizing after with
  | nil => simp at hl
  | snoc si _ ih =>
    rcases eq_nil_or_concat' after with rfl | ⟨after, d, rfl⟩
    · obtain ⟨rfl, hd⟩ := append_inj' hl rfl
      cases hd
      rfl
    · rw [← cons_append, ← append_assoc] at hl
      exact ih (append_inj' hl rfl).1

theorem found_of_stopped {before : Calls α} {si}
    (h : Answered (lookupAction isAccessible findSymbolByName skipUntil)
      (before ++ [(si, kWalkStop)])) :
    isAccessible si ∧ (∃ sym, findSymbolByName si = some sym) ∧
      ∀ x ∈ skipUntil, x ∈ before.map Prod.fst := by
  have hs : kWalkStop = lookupAction _ _ _ _ _ := answered_at h
  unfold lookupAction at hs
  split_ifs at hs with hk ha hf
  refine ⟨by simpa using ha, Option.isSome_iff_exists.mp hf, ?_⟩
  rintro x rfl
  simpa using hk

theorem through_of_reachable {calls : Calls α} {x}
    (hf : ∀ c ∈ calls, c.2 = lookupAction isAccessible findSymbolByName none [] c.1)
    (h : Reachable children root calls x) : Through children isAccessible root x := by
  induction h with
  | root => exact .root
  | child _ hp hx ih =>
    have hr := hf _ hp
    refine .child ih ?_ hx
    by_contra ha
    simp_all [lookupAction]

theorem none_of_complete {calls : Calls α} {x}
    (hf : ∀ c ∈ calls, c.2 = lookupAction isAccessible findSymbolByName none [] c.1)
    (hs : ∀ c ∈ calls, c.2 ≠ kWalkStop)
    (hc : ∀ y, Reachable children root calls y → y ∈ calls.map Prod.fst)
    (h : Through children isAccessible root x) :
    Reachable children root calls x ∧ (isAccessible x → findSymbolByName x = none) := by
  have hx : Reachable children root calls x := by
    induction h with
    | root => exact .root
    | child _ ha hx ih =>
      obtain ⟨⟨p, r⟩, hm, rfl⟩ := mem_map.mp (hc _ ih)
      have hr := hf _ hm
      have hn := hs _ hm
      refine .child ih ?_ hx
      simp_all [lookupAction]
  obtain ⟨⟨x, r⟩, hm, rfl⟩ := mem_map.mp (hc x hx)
  have hr := hf _ hm
  have hn := hs _ hm
  refine ⟨hx, fun ha => ?_⟩
  simp_all [lookupAction]

/-- The lookup returns, with the symbol of the first library in breadth-first order that has it
behind the one to be skipped, and with none only if nothing that is reached has it. -/
theorem dlsymHandleLookup_finds [Fintype α] (children : α → List α) (isAccessible : α → Bool)
    (findSymbolByName : α → Option β) (root : α) (skipUntil : Option α) : ∃ r calls,
    dlsymHandleLookupImpl children isAccessible findSymbolByName
      (1 + ∑ x, (children x).length) root skipUntil = some r ∧
    BreadthFirst children (lookupAction isAccessible findSymbolByName skipUntil) root r.isNone
      calls ∧
    (∀ si sym, r = some (si, sym) → ∃ before, calls = before ++ [(si, kWalkStop)] ∧
      isAccessible si ∧ findSymbolByName si = some sym ∧
      ∀ x ∈ skipUntil, x ∈ before.map Prod.fst) ∧
    (skipUntil = none → (r = none ↔ ∀ x, Through children isAccessible root x →
      isAccessible x → findSymbolByName x = none)) := by
  obtain ⟨done, calls, hw, hb⟩ := walkDependenciesTree_run (1 + ∑ x, (children x).length)
    (.start : WalkInv children (lookupAction isAccessible findSymbolByName skipUntil) root _ _)
    (by simp) (by simp)
  have hf : skipUntil = none → ∀ c ∈ calls,
      c.2 = lookupAction isAccessible findSymbolByName none [] c.1 := by
    rintro rfl c hc
    obtain ⟨before, after, rfl⟩ := append_of_mem hc
    exact (answered_at hb.answered).trans (by simp [lookupAction])
  unfold dlsymHandleLookupImpl
  rw [hw]
  cases done with
  | true =>
    refine ⟨none, calls, rfl, hb, by simp, fun hk => iff_of_true rfl fun x hx => ?_⟩
    obtain ⟨hs, hc⟩ := hb.complete rfl
    exact (none_of_complete (hf hk) hs hc hx).2
  | false =>
    obtain ⟨before, si, rfl, -⟩ := hb.stopped (by simp)
    obtain ⟨ha, ⟨sym, hy⟩, hk⟩ := found_of_stopped hb.answered
    refine ⟨some (si, sym), _, by simp [hy], hb, ?_, fun hn => iff_of_false (by simp) fun h => ?_⟩
    · rintro _ _ ⟨⟩
      exact ⟨before, rfl, ha, hy, hk⟩
    · have ht := through_of_reachable (hf hn) (hb.reachable si (by simp))
      exact absurd (hy.symm.trans (h si ht ha)) (by simp)

end LinkerDlsym
