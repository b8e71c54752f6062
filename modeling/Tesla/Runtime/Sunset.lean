/-
# `Tesla.Runtime.Sunset` — what a sunset leaves

`tesla_sunset` sends the cleanup event to every class it meets and then
zeroes both lists.  A class is reset only if one of its instances takes a
cleanup transition, so whether a sunset empties its lifetime depends on the
classes it meets (`CleansClass`), and that it meets all of them is the
invariant of `Tesla.Runtime.Registration`.

    the loops       empty each class on the list, and touch nothing else     `sunsetLoop_empties`
    the sunset      ends with every class of the lifetime empty              `sunset_empties`
    the runs        stay registered, so every sunset of a run does that      `registered_of_run`

The cleanup event carries a key of which only the mask is set.  When the rest
of it, which is whatever the stack held, has a free variable that an instance
does not bind, the instance does not match and nothing is cleaned up
(`stale_key_keeps_instances`).
-/
import Tesla.Runtime.Registration

namespace Tesla.Runtime

open Lib

variable {P : Program} {s s' : Store} {ls : LifetimeState} {cls li : Nat} {c c' : Class}
  {evs evs' : List Event} {key : Key}

/-- From `s` to `s'` the classes `xs` have been emptied, and nothing else has
changed. -/
structure Emptied (s : Store) (xs : List Nat) (s' : Store) : Prop where
  lifetimes : s'.tsLifetimes = s.tsLifetimes
  frame : ∀ {cls : Nat}, cls ∉ xs → s'.tsClasses[cls]? = s.tsClasses[cls]?
  emptied : ∀ {cls : Nat}, cls ∈ xs → ∃ c c', s.tsClasses[cls]? = some c ∧
    s'.tsClasses[cls]? = some c' ∧ c'.tcAutomaton = c.tcAutomaton ∧ c'.WF ∧ c'.Empty

theorem Emptied.nil (s : Store) : Emptied s [] s where
  lifetimes := rfl
  frame := fun _ => rfl
  emptied := fun h => by cases h

/-- One cleanup event. -/
theorem cleanupClass_empties (hr : Registered P s) (hown : s.Lists li cls)
    (hclean : CleansClass P s key cls) (h : cleanupClass P key cls s = .ok (s', evs)) :
    Emptied s [cls] s' := by
  simp only [cleanupClass] at h
  split at h
  · cases h
  · rename_i a hbind
    obtain ⟨c, hc, ha⟩ := Option.bind_eq_some_iff.mp hbind
    obtain ⟨c₀, a₀, hc₀, ha₀, hf⟩ := hr.valid hown
    obtain rfl := Option.some.inj (hc₀.symm.trans hc)
    obtain rfl := Option.some.inj (ha₀.symm.trans ha)
    obtain ⟨c₁, a₁, hc₁, ha₁, hcase⟩ := updateClassState_spec h
    obtain rfl := Option.some.inj (hc₁.symm.trans hc)
    obtain rfl := Option.some.inj (ha₁.symm.trans ha)
    rcases hcase with ⟨hnone, _⟩ | ⟨li', ls, c', ls', _, hls, hu, rfl⟩
    · rw [hf] at hnone
      cases hnone
    · have hwf := hr.wf _ (List.mem_of_getElem? hc)
      obtain ⟨rfl, hempty⟩ := (hclean _ hc _ ha).updated hwf hu
      refine ⟨?_, ?_, ?_⟩
      · obtain ⟨hlt, rfl⟩ := List.getElem?_eq_some_iff.mp hls
        exact List.set_getElem_self hlt
      · intro cls₀ hne
        exact List.getElem?_set_ne fun heq => hne (by rw [heq]; exact List.mem_cons_self)
      · intro cls₀ hmem
        cases List.mem_singleton.mp hmem
        exact ⟨_, c', hc, List.getElem?_set_self (List.getElem?_eq_some_iff.mp hc).1,
          hu.tcAutomaton, hwf.updated hu, hempty⟩

theorem Emptied.bounds (h : Emptied s xs s') : s'.bounds = s.bounds := by
  rw [Store.bounds, Store.bounds, h.lifetimes]

/-- Emptying classes keeps the registrations right. -/
theorem Emptied.registered {xs : List Nat} (h : Emptied s xs s') (hr : Registered P s) :
    Registered P s' := by
  have hclass : ∀ {cls : Nat} {c' : Class}, s'.tsClasses[cls]? = some c' →
      s.tsClasses[cls]? = some c' ∨ (c'.WF ∧ c'.Empty ∧ ∃ c, s.tsClasses[cls]? = some c ∧
        c'.tcAutomaton = c.tcAutomaton) := by
    intro cls c' hc'
    by_cases hmem : cls ∈ xs
    · obtain ⟨c, c'', hc, hc'', haut, hwf, hempty⟩ := h.emptied hmem
      obtain rfl := Option.some.inj (hc'.symm.trans hc'')
      exact Or.inr ⟨hwf, hempty, c, hc, haut⟩
    · exact Or.inl ((h.frame hmem).symm.trans hc')
  refine ⟨?_, ?_, ?_, ?_, ?_, ?_⟩
  · intro c hc
    obtain ⟨cls, hcls⟩ := List.mem_iff_getElem?.mp hc
    rcases hclass hcls with hc | ⟨hwf, _⟩
    · exact hr.wf c (List.mem_of_getElem? hc)
    · exact hwf
  · intro c hc hnone
    obtain ⟨cls, hcls⟩ := List.mem_iff_getElem?.mp hc
    rcases hclass hcls with hc | ⟨_, hempty, _⟩
    · exact hr.unclaimed c (List.mem_of_getElem? hc) hnone
    · exact hempty.free
  · rw [h.lifetimes]; exact hr.shape
  · rw [h.lifetimes]; exact hr.nodup
  · rintro li cls ⟨ls, hls, hmem⟩
    rw [h.lifetimes] at hls
    obtain ⟨c, a, hc, ha, hf⟩ := hr.valid ⟨ls, hls, hmem⟩
    rw [← findLifetime_congr h.bounds] at hf
    by_cases hx : cls ∈ xs
    · obtain ⟨c₀, c', hc₀, hc', haut, _⟩ := h.emptied hx
      obtain rfl := Option.some.inj (hc₀.symm.trans hc)
      exact ⟨c', a, hc', haut.trans ha, hf⟩
    · exact ⟨c, a, (h.frame hx).trans hc, ha, hf⟩
  · intro cls c a hc ha hused
    rcases hclass hc with hc | ⟨_, hempty, _⟩
    · obtain ⟨li, hf, ls, hls, hmem⟩ := hr.complete hc ha hused
      exact ⟨li, by rw [findLifetime_congr h.bounds]; exact hf, ls, by rw [h.lifetimes]; exact hls,
        hmem⟩
    · exact absurd hempty.free (by omega)

theorem Emptied.cons {xs : List Nat} {t : Store} (h : Emptied s [cls] t) (h' : Emptied t xs s')
    (hnot : cls ∉ xs) : Emptied s (cls :: xs) s' where
  lifetimes := h'.lifetimes.trans h.lifetimes
  frame := by
    intro cls₀ hne
    rw [List.mem_cons, not_or] at hne
    rw [h'.frame hne.2, h.frame (by simpa using hne.1)]
  emptied := by
    intro cls₀ hx
    rcases List.mem_cons.mp hx with rfl | hmem
    · obtain ⟨c, c', hc, hc', hrest⟩ := h.emptied List.mem_cons_self
      exact ⟨c, c', hc, (h'.frame hnot).trans hc', hrest⟩
    · have hne : cls₀ ∉ [cls] := by
        rw [List.mem_singleton]
        rintro rfl
        exact hnot hmem
      obtain ⟨c, c', hc, hc', hrest⟩ := h'.emptied hmem
      exact ⟨c, c', (h.frame hne).symm.trans hc, hc', hrest⟩

theorem CleansClass.frame {cls₀ : Nat} (h : CleansClass P s key cls₀)
    (heq : s'.tsClasses[cls₀]? = s.tsClasses[cls₀]?) : CleansClass P s' key cls₀ := by
  intro c hc a ha
  rw [heq] at hc
  exact h c hc a ha

/-- One loop of the sunset over entries that are all different: each class met
is emptied. -/
theorem sunsetLoop_empties (slots : LifetimeState → List (Option Nat)) {is : List Nat} :
    ∀ {s : Store} {evs : List Event}, Registered P s → s.tsLifetimes[li]? = some ls →
    (∀ cls ∈ firstSome (is.map fun i => (slots ls)[i]?.join), cls ∈ ls.listed) →
    (firstSome (is.map fun i => (slots ls)[i]?.join)).Nodup →
    (∀ cls ∈ firstSome (is.map fun i => (slots ls)[i]?.join), CleansClass P s key cls) →
    sunsetLoop P key li slots is s evs = .ok (s', evs') →
    Emptied s (firstSome (is.map fun i => (slots ls)[i]?.join)) s' := by
  induction is with
  | nil =>
      intro s evs _ _ _ _ _ h
      cases h
      exact .nil _
  | cons i is ih =>
      intro s evs hr hls hsub hnd hclean h
      simp only [sunsetLoop, hls, Option.bind_some] at h
      rw [List.map_cons] at hsub hnd hclean ⊢
      split at h
      · rename_i hnone
        cases h
        rw [hnone]
        exact .nil _
      · rename_i cls hcls
        simp only [hcls, firstSome] at hsub hnd hclean ⊢
        obtain ⟨hnot, hnd⟩ := List.nodup_cons.mp hnd
        obtain ⟨hin, hsub⟩ := List.forall_mem_cons.mp hsub
        obtain ⟨hcl, hclean⟩ := List.forall_mem_cons.mp hclean
        split at h
        · cases h
        · rename_i t evs₁ hstep
          have hone := cleanupClass_empties hr ⟨ls, hls, hin⟩ hcl hstep
          refine hone.cons (ih (hone.registered hr) (by rw [hone.lifetimes]; exact hls) hsub hnd ?_
            h) hnot
          intro cls₀ hmem
          refine (hclean cls₀ hmem).frame (hone.frame ?_)
          rw [List.mem_singleton]
          rintro rfl
          exact hnot hmem

/-! ## The whole sunset -/

theorem map_range_getElem? (l : List (Option Nat)) {n : Nat} (h : n ≤ l.length) :
    ((List.range n).map fun i => l[i]?.join) = l.take n := by
  refine List.ext_getElem (by simp [h]) fun i hi hi' => ?_
  rw [List.length_map, List.length_range] at hi
  simp only [List.getElem_map, List.getElem_range, List.getElem_take]
  rw [List.getElem?_eq_getElem (by omega)]
  rfl

theorem clearSlots_length (n : Nat) (l : List (Option Nat)) :
    (clearSlots n l).length = l.length := by
  simp only [clearSlots, List.length_append, List.length_replicate, List.length_drop]
  omega

theorem modifyLifetime_eq {f : LifetimeState → LifetimeState}
    (hls : s.tsLifetimes[li]? = some ls) :
    s.modifyLifetime li f = ⟨s.tsClasses, s.tsLifetimes.set li (f ls)⟩ := by
  rw [Store.modifyLifetime, List.modify_eq_set_getElem?, hls]
  rfl

/-- Rewriting the registrations of one lifetime, such that only empty classes
are dropped. -/
theorem Registered.relist {ls' : LifetimeState} (hr : Registered P s)
    (hls : s.tsLifetimes[li]? = some ls)
    (hsame : ls'.tlsBegin = ls.tlsBegin ∧ ls'.tlsEnd = ls.tlsEnd) (hshape : ls'.Shape)
    (hnd : ls'.listed.Nodup) (hsub : ls'.listed ⊆ ls.listed)
    (hgone : ∀ x ∈ ls.listed, x ∉ ls'.listed → ∀ c, s.tsClasses[x]? = some c →
      c.tcFree = c.tcLimit) :
    Registered P ⟨s.tsClasses, s.tsLifetimes.set li ls'⟩ := by
  have hlt := (List.getElem?_eq_some_iff.mp hls).1
  have hb : Store.bounds ⟨s.tsClasses, s.tsLifetimes.set li ls'⟩ = s.bounds := bounds_set hls hsame
  refine ⟨hr.wf, hr.unclaimed, forall_mem_set hr.shape hshape, forall_mem_set hr.nodup hnd, ?_, ?_⟩
  · rintro li₀ cls ⟨l, hl, hmem⟩
    have hold : s.Lists li₀ cls := by
      by_cases heq : li = li₀
      · subst heq
        rw [List.getElem?_set_self hlt] at hl
        cases hl
        exact ⟨ls, hls, hsub hmem⟩
      · rw [List.getElem?_set_ne heq] at hl
        exact ⟨l, hl, hmem⟩
    obtain ⟨c, a, hc, ha, hf⟩ := hr.valid hold
    exact ⟨c, a, hc, ha, by rw [findLifetime_congr hb]; exact hf⟩
  · intro cls c a hc ha hused
    obtain ⟨li₀, hf, l, hl, hmem⟩ := hr.complete hc ha hused
    refine ⟨li₀, by rw [findLifetime_congr hb]; exact hf, ?_⟩
    by_cases heq : li = li₀
    · subst heq
      obtain rfl := Option.some.inj (hls.symm.trans hl)
      refine ⟨ls', List.getElem?_set_self hlt, ?_⟩
      by_contra hnot
      exact absurd (hgone cls hmem hnot c hc) (by omega)
    · exact ⟨l, (List.getElem?_set_ne heq).trans hl, hmem⟩

/-- The entry once the static list has been zeroed. -/
def LifetimeState.clearStatic (ls : LifetimeState) : LifetimeState :=
  { ls with tlsClasses := clearSlots staticClasses ls.tlsClasses }

/-- The entry once the dynamic list has been zeroed too. -/
def LifetimeState.clearDynamic (ls : LifetimeState) : LifetimeState :=
  { ls with tlsDynClasses := clearSlots ls.tlsDynCount ls.tlsDynClasses }

theorem LifetimeState.Shape.clearStatic (hs : ls.Shape) :
    ls.clearStatic.Shape ∧
      ls.clearStatic.listed = firstSome (ls.tlsDynClasses.take ls.tlsDynCount) := by
  have hst : clearSlots staticClasses ls.tlsClasses = List.replicate staticClasses none := by
    rw [clearSlots, hs.statics, Nat.min_self, List.drop_of_length_le (by rw [hs.statics]),
      List.append_nil]
  refine ⟨⟨⟨[], staticClasses, hst⟩, ?_, hs.capacity, hs.count⟩, ?_⟩
  · show (clearSlots staticClasses ls.tlsClasses).length = staticClasses
    rw [hst, List.length_replicate]
  · show firstSome (clearSlots staticClasses ls.tlsClasses) ++ _ = _
    rw [hst, firstSome_replicate_none, List.nil_append]
    rfl

theorem LifetimeState.Shape.clearDynamic (hs : ls.Shape) :
    ls.clearDynamic.Shape ∧ ls.clearDynamic.listed = firstSome ls.tlsClasses := by
  have hcap := hs.capacity
  have hcnt := hs.count
  refine ⟨⟨hs.static, hs.statics, ?_, hs.count⟩, ?_⟩
  · show (clearSlots ls.tlsDynCount ls.tlsDynClasses).length = ls.tlsDynCapacity
    rw [clearSlots_length, hs.capacity]
  · have hdyn : (clearSlots ls.tlsDynCount ls.tlsDynClasses).take ls.tlsDynCount =
        List.replicate ls.tlsDynCount none := by
      rw [clearSlots, Nat.min_eq_left (by omega), List.take_left' List.length_replicate]
    show _ ++ firstSome ((clearSlots ls.tlsDynCount ls.tlsDynClasses).take ls.tlsDynCount) = _
    rw [hdyn, firstSome_replicate_none, List.append_nil]
    rfl

/-- What a sunset does to the classes when it cleans up every class it meets. -/
structure SunsetSpec (P : Program) (l : Lifetime) (s s' : Store) (li : Nat) (ls : LifetimeState) :
    Prop where
  registered : Registered P s'
  found : s.findLifetime l = some li
  entry : s.tsLifetimes[li]? = some ls
  frame : ∀ {cls : Nat}, cls ∉ ls.listed → s'.tsClasses[cls]? = s.tsClasses[cls]?
  emptied : ∀ {cls : Nat}, cls ∈ ls.listed → ∃ c', s'.tsClasses[cls]? = some c' ∧ c'.Empty

theorem sunsetStatic_spec {junk : Key} (hr : Registered P s) (hls : s.tsLifetimes[li]? = some ls)
    (hclean : ∀ cls ∈ ls.listed, CleansClass P s (emptyKey junk) cls)
    (h : sunsetStatic P junk li s evs = .ok (s', evs')) :
    Registered P s' ∧ s'.tsLifetimes[li]? = some ls.clearStatic ∧
      (∀ {cls : Nat}, cls ∉ firstSome ls.tlsClasses → s'.tsClasses[cls]? = s.tsClasses[cls]?) ∧
      ∀ {cls : Nat}, cls ∈ firstSome ls.tlsClasses →
        ∃ c', s'.tsClasses[cls]? = some c' ∧ c'.Empty := by
  have hshape := hr.shape ls (List.mem_of_getElem? hls)
  have hlt := (List.getElem?_eq_some_iff.mp hls).1
  obtain ⟨hnd₁, hnd₂, _⟩ := List.nodup_append.mp (hr.nodup ls (List.mem_of_getElem? hls))
  simp only [sunsetStatic] at h
  split at h
  · cases h
  · rename_i s₀ evs₀ hloop
    cases h
    have hwhole : ((List.range staticClasses).map fun i => ls.tlsClasses[i]?.join) =
        ls.tlsClasses := by
      rw [map_range_getElem? _ (by rw [hshape.statics]),
        List.take_of_length_le (by rw [hshape.statics])]
    have hem := sunsetLoop_empties LifetimeState.tlsClasses hr hls
      (by rw [hwhole]; exact fun x hx => List.mem_append_left _ hx) (by rw [hwhole]; exact hnd₁)
      (by rw [hwhole]; exact fun x hx => hclean x (List.mem_append_left _ hx)) hloop
    rw [hwhole] at hem
    have hls₀ : s₀.tsLifetimes[li]? = some ls := by rw [hem.lifetimes]; exact hls
    rw [modifyLifetime_eq hls₀]
    obtain ⟨hshape', hlisted⟩ := hshape.clearStatic
    refine ⟨?_, ?_, hem.frame, ?_⟩
    · refine (hem.registered hr).relist hls₀ ⟨rfl, rfl⟩ hshape' ?_ ?_ ?_
      · show ls.clearStatic.listed.Nodup
        rw [hlisted]
        exact hnd₂
      · show ls.clearStatic.listed ⊆ ls.listed
        rw [hlisted]
        exact List.subset_append_right ..
      · intro x hx hnot c hc
        have hin : x ∈ firstSome ls.tlsClasses := by
          refine (List.mem_append.mp hx).resolve_right fun hin => hnot ?_
          show x ∈ ls.clearStatic.listed
          rw [hlisted]
          exact hin
        obtain ⟨_, c', _, hc', _, _, hempty⟩ := hem.emptied hin
        obtain rfl := Option.some.inj (hc.symm.trans hc')
        exact hempty.free
    · exact List.getElem?_set_self (by rw [hem.lifetimes]; exact hlt)
    · intro cls hmem
      obtain ⟨_, c', _, hc', _, _, hempty⟩ := hem.emptied hmem
      exact ⟨c', hc', hempty⟩

theorem sunsetDynamic_spec {junk : Key} (hr : Registered P s) (hls : s.tsLifetimes[li]? = some ls)
    (hst : firstSome ls.tlsClasses = [])
    (hclean : ∀ cls ∈ ls.listed, CleansClass P s (emptyKey junk) cls)
    (h : sunsetDynamic P junk li s evs = .ok (s', evs')) :
    Registered P s' ∧
      (∀ {cls : Nat}, cls ∉ ls.listed → s'.tsClasses[cls]? = s.tsClasses[cls]?) ∧
      ∀ {cls : Nat}, cls ∈ ls.listed → ∃ c', s'.tsClasses[cls]? = some c' ∧ c'.Empty := by
  have hshape := hr.shape ls (List.mem_of_getElem? hls)
  have hcap := hshape.capacity
  have hcnt := hshape.count
  have hlisted : ls.listed = firstSome (ls.tlsDynClasses.take ls.tlsDynCount) := by
    rw [LifetimeState.listed, hst, List.nil_append]
  have hnd := hr.nodup ls (List.mem_of_getElem? hls)
  simp only [sunsetDynamic, hls, Option.map_some, Option.getD_some] at h
  split at h
  · cases h
  · rename_i s₀ evs₀ hloop
    cases h
    have hwhole : firstSome ((List.range ls.tlsDynCount).map fun i =>
        ls.tlsDynClasses[i]?.join) = ls.listed := by
      rw [map_range_getElem? _ (by omega), hlisted]
    have hem := sunsetLoop_empties LifetimeState.tlsDynClasses hr hls
      (by rw [hwhole]; exact fun x hx => hx) (by rw [hwhole]; exact hnd)
      (by rw [hwhole]; exact hclean) hloop
    rw [hwhole] at hem
    have hls₀ : s₀.tsLifetimes[li]? = some ls := by rw [hem.lifetimes]; exact hls
    rw [modifyLifetime_eq hls₀]
    obtain ⟨hshape', hnone⟩ := hshape.clearDynamic
    rw [hst] at hnone
    have hempty : ∀ {cls : Nat}, cls ∈ ls.listed →
        ∃ c', s₀.tsClasses[cls]? = some c' ∧ c'.Empty := by
      intro cls hmem
      obtain ⟨_, c', _, hc', _, _, hempty⟩ := hem.emptied hmem
      exact ⟨c', hc', hempty⟩
    refine ⟨?_, hem.frame, hempty⟩
    refine (hem.registered hr).relist hls₀ ⟨rfl, rfl⟩ hshape' ?_ ?_ ?_
    · show ls.clearDynamic.listed.Nodup
      rw [hnone]
      exact List.nodup_nil
    · show ls.clearDynamic.listed ⊆ ls.listed
      rw [hnone]
      exact List.nil_subset _
    · intro x hx _ c hc
      obtain ⟨c', hc', he⟩ := hempty hx
      obtain rfl := Option.some.inj (hc.symm.trans hc')
      exact he.free

theorem sunset_spec {l : Lifetime} {junk : Key} (hr : Registered P s)
    (hreg : Registers P s (.sunset l junk)) (h : sunset P l junk s = .ok (s', evs)) :
    ∃ li ls, SunsetSpec P l s s' li ls := by
  simp only [sunset] at h
  split at h
  · split at h
    · cases h
    · rename_i li hli
      obtain ⟨ls, hls⟩ : ∃ ls, s.tsLifetimes[li]? = some ls := by
        obtain ⟨hlt, _⟩ := List.findIdx?_eq_some_iff_getElem.mp hli
        exact ⟨_, List.getElem?_eq_getElem hlt⟩
      have hclean := hreg li hli ls hls
      have hshape := hr.shape ls (List.mem_of_getElem? hls)
      obtain ⟨_, _, hdisj⟩ := List.nodup_append.mp (hr.nodup ls (List.mem_of_getElem? hls))
      split at h
      · cases h
      · rename_i s₁ evs₁ hst
        obtain ⟨hr₁, hls₁, hframe₁, hempty₁⟩ := sunsetStatic_spec hr hls hclean hst
        obtain ⟨hshape₁, hlisted₁⟩ := hshape.clearStatic
        have hnone : firstSome ls.clearStatic.tlsClasses = [] := by
          show firstSome (clearSlots staticClasses ls.tlsClasses) = []
          rw [clearSlots, hshape.statics, List.drop_of_length_le (by rw [hshape.statics]),
            List.append_nil, firstSome_replicate_none]
        -- the two lists have no class in common
        have hclean₁ : ∀ cls ∈ ls.clearStatic.listed, CleansClass P s₁ (emptyKey junk) cls := by
          intro cls hmem
          rw [hlisted₁] at hmem
          refine (hclean cls (List.mem_append_right _ hmem)).frame (hframe₁ fun hin => ?_)
          exact hdisj cls hin cls hmem rfl
        obtain ⟨hr₂, hframe₂, hempty₂⟩ := sunsetDynamic_spec hr₁ hls₁ hnone hclean₁ h
        rw [hlisted₁] at hframe₂ hempty₂
        refine ⟨li, ls, hr₂, hli, hls, ?_, ?_⟩
        · intro cls hnot
          rw [LifetimeState.listed, List.mem_append, not_or] at hnot
          rw [hframe₂ hnot.2, hframe₁ hnot.1]
        · intro cls hmem
          rcases List.mem_append.mp hmem with hmem | hmem
          · obtain ⟨c', hc', he⟩ := hempty₁ hmem
            refine ⟨c', ?_, he⟩
            rw [hframe₂ fun hin => hdisj cls hmem cls hin rfl]
            exact hc'
          · exact hempty₂ hmem
  · cases h

/-! ## Runs -/

/-- One call. -/
theorem Registered.step {k : Call} (hr : Registered P s) (h : Step P s k s')
    (hreg : Registers P s k) : Registered P s' := by
  obtain ⟨evs, h⟩ := h
  cases k with
  | sunrise l => exact hr.sunrise h
  | updateState a symbol pattern =>
      simp only [call, updateState] at h
      split at h
      · cases h
      · rename_i s₁ cls hget
        exact (hr.classGet hget).updateClassState (hreg (s₁, cls) hget) h
  | sunset l junk =>
      obtain ⟨li, ls, hspec⟩ := sunset_spec hr hreg h
      exact hspec.registered

theorem registered_of_run {classes instances : UInt32} {ks : List Call}
    (h : RegRun P classes instances ks s) : Registered P s :=
  h.invariant (.init classes instances) fun hr hstep => hr.step hstep.1 hstep.2

/-- Cleanup registration: in a run that keeps to the condition, the sunset of its
lifetime meets every class with an active instance exactly once, and
registering a class loses none. -/
theorem met_exactly_once {classes instances : UInt32} {ks : List Call}
    (h : RegRun P classes instances ks s) :
    (∀ cls c a, s.tsClasses[cls]? = some c → c.tcAutomaton = some a → 0 < c.active →
      ∃ li ls, s.findLifetime (P.automaton a).taLifetime = some li ∧
        s.tsLifetimes[li]? = some ls ∧ ls.listed.count cls = 1) ∧
    ∀ ls ∈ s.tsLifetimes, ls.tlsDynCount ≤ ls.tlsDynCapacity ∧
      ∀ cls ls', register ls cls = .ok ls' → ls.listed ⊆ ls'.listed := by
  have hr := registered_of_run h
  refine ⟨fun cls c a hc ha hact => ?_, fun ls hls => ⟨(hr.shape ls hls).count, ?_⟩⟩
  · have hbound := (hr.wf c (List.mem_of_getElem? hc)).bound
    obtain ⟨li, hf, ls, hls, hmem⟩ := hr.complete hc ha (by omega)
    refine ⟨li, ls, hf, hls, ?_⟩
    exact List.count_eq_one_of_mem (hr.nodup ls (List.mem_of_getElem? hls)) hmem
  · intro cls ls' hreg
    exact ((hr.shape ls hls).register hreg).2

theorem met_exactly_once_forkJoin : ∃ s : Store, ∃ c ls,
    RegRun forkJoinProgram 2 4
      [.sunrise callLifetime, .updateState 7 1 (Key.of 5), .sunset callLifetime (Key.of 0),
        .updateState 7 1 (Key.of 6)] s ∧
    s.tsClasses[1]? = some c ∧ c.active = 2 ∧ ls ∈ s.tsLifetimes ∧ ls.listed.count 1 = 1 := by
  have hexec : (Call.runRegistered forkJoinProgram (storeInit 2 4)
      [.sunrise callLifetime, .updateState 7 1 (Key.of 5), .sunset callLifetime (Key.of 0),
        .updateState 7 1 (Key.of 6)]).any (fun s =>
      s.tsClasses[1]?.any fun c => c.tcAutomaton = some 7 ∧ c.active = 2) = true := by decide +kernel
  obtain ⟨s, hs, hcheck⟩ := (Option.any_eq_true _ _).mp hexec
  obtain ⟨c, hc, hcheck⟩ := (Option.any_eq_true _ _).mp hcheck
  obtain ⟨ha, hact⟩ := of_decide_eq_true hcheck
  have hrun := regRun_of_exec hs
  obtain ⟨li, ls, _, hls, hcount⟩ := (met_exactly_once hrun).1 1 c 7 hc ha (by omega)
  exact ⟨s, c, ls, hrun, hc, hact, List.mem_of_getElem? hls, hcount⟩

/-- One event for each of 33 automata, which is one more than there are static
slots. -/
def fullCycle : List Call :=
  .sunrise callLifetime ::
    (List.range 33).map fun n => .updateState (BitVec.ofNat 64 n) 1 (Key.of 5)

/-- In the second cycle, the class in the dynamic array stands behind the entry
that the sunset zeroed, and the next sunset does not meet it. -/
theorem second_cycle_loses_class : ∃ s : Store, ∃ cls c a,
    LibRun forkJoinProgram 64 2
      (fullCycle ++ .sunset callLifetime (Key.of 0) :: fullCycle) s ∧
    s.tsClasses[cls]? = some c ∧ c.tcAutomaton = some a ∧ 0 < c.active ∧
    ∀ ls ∈ s.tsLifetimes, ls.listed.count cls = 0 := by
  have hexec : (Call.run forkJoinProgram (fun _ => True) (storeInit 64 2)
      (fullCycle ++ .sunset callLifetime (Key.of 0) :: fullCycle)).any (fun s =>
        s.tsClasses[32]?.any fun c => c.tcAutomaton = some 32 ∧ 0 < c.active ∧
          ∀ ls ∈ s.tsLifetimes, ls.listed.count 32 = 0) = true := by decide +kernel
  obtain ⟨s, hs, hcheck⟩ := (Option.any_eq_true _ _).mp hexec
  obtain ⟨c, hc, hcheck⟩ := (Option.any_eq_true _ _).mp hcheck
  obtain ⟨ha, hact, hnone⟩ := of_decide_eq_true hcheck
  exact ⟨s, 32, c, 32, run_of_exec hs, hc, ha, hact, hnone⟩

theorem findLifetime_same {l l' : Lifetime} (h : sameLifetime l l' = true) :
    s.findLifetime l = s.findLifetime l' := by
  rw [Store.findLifetime, Store.findLifetime]
  congr 1
  exact funext fun ls => sameStaticLifetime_congr h ls

/-- Sunset empties the lifetime: after a sunset that ends a run which keeps to the
condition, no class of that lifetime has an active instance, and all its slots
are free. -/
theorem sunset_empties {classes instances : UInt32} {ks : List Call} {l : Lifetime} {junk : Key}
    {a : Ptr} (h : RegRun P classes instances ks s) (hreg : Registers P s (.sunset l junk))
    (hok : sunset P l junk s = .ok (s', evs)) (hc : c ∈ s'.tsClasses)
    (ha : c.tcAutomaton = some a) (hl : sameLifetime (P.automaton a).taLifetime l = true) :
    c.active = 0 ∧ c.tcFree = c.tcLimit := by
  have hr := registered_of_run h
  obtain ⟨li, ls, hspec⟩ := sunset_spec hr hreg hok
  obtain ⟨cls, hcls⟩ := List.mem_iff_getElem?.mp hc
  have hempty : c.tcFree = c.tcLimit := by
    by_cases hmem : cls ∈ ls.listed
    · obtain ⟨c', hc', he⟩ := hspec.emptied hmem
      obtain rfl := Option.some.inj (hcls.symm.trans hc')
      exact he.free
    · -- a class that was not met was not in use
      rw [hspec.frame hmem] at hcls
      by_contra hne
      have hbound := (hr.wf c (List.mem_of_getElem? hcls)).bound
      obtain ⟨li', hf, ls', hls', hmem'⟩ := hr.complete hcls ha (by omega)
      rw [findLifetime_same hl, hspec.found] at hf
      cases hf
      obtain rfl := Option.some.inj (hspec.entry.symm.trans hls')
      exact hmem hmem'
  have hbound := (hspec.registered.wf c hc).bound
  exact ⟨by omega, hempty⟩

theorem sunset_empties_forkJoin : ∃ s s' : Store, ∃ evs, ∃ c ∈ s'.tsClasses,
    RegRun forkJoinProgram 2 4 [.sunrise callLifetime, .updateState 7 1 (Key.of 5)] s ∧
    sunset forkJoinProgram callLifetime (Key.of 0) s = .ok (s', evs) ∧
    c.tcAutomaton = some 7 ∧ c.active = 0 ∧ c.tcFree = c.tcLimit := by
  have hexec : (Call.runRegistered forkJoinProgram (storeInit 2 4)
      [.sunrise callLifetime, .updateState 7 1 (Key.of 5)]).any (fun s =>
      Registers forkJoinProgram s (.sunset callLifetime (Key.of 0)) ∧
        (sunset forkJoinProgram callLifetime (Key.of 0) s).toOption.any fun r =>
          r.1.tsClasses.any fun c => c.tcAutomaton = some 7) = true := by decide +kernel
  obtain ⟨s, hs, hcheck⟩ := (Option.any_eq_true _ _).mp hexec
  obtain ⟨hreg, hcheck⟩ := of_decide_eq_true hcheck
  obtain ⟨⟨s', evs⟩, hok, hcheck⟩ := (Option.any_eq_true _ _).mp hcheck
  obtain ⟨c, hc, hcheck⟩ := List.any_eq_true.mp hcheck
  have ha := of_decide_eq_true hcheck
  have hrun := regRun_of_exec hs
  have hempty := sunset_empties hrun hreg (ok_of_toOption hok) hc ha (by decide)
  exact ⟨s, s', evs, c, hc, hrun, ok_of_toOption hok, ha, hempty⟩

/-- A sunset whose key holds a stale free variable cleans nothing up. -/
theorem stale_key_keeps_instances : ∃ s s' : Store, ∃ evs, ∃ c ∈ s'.tsClasses, ∃ a,
    LibRun forkJoinProgram 2 4 [.sunrise callLifetime, .updateState 7 1 (Key.of 5)] s ∧
    sunset forkJoinProgram callLifetime ⟨fun _ => 0, 0, 2⟩ s = .ok (s', evs) ∧
    c.tcAutomaton = some a ∧
    sameLifetime (forkJoinProgram.automaton a).taLifetime callLifetime = true ∧
    ¬ (c.active = 0 ∧ c.tcFree = c.tcLimit) := by
  have hexec : (Call.run forkJoinProgram (fun _ => True) (storeInit 2 4)
      [.sunrise callLifetime, .updateState 7 1 (Key.of 5)]).any (fun s =>
        (sunset forkJoinProgram callLifetime ⟨fun _ => 0, 0, 2⟩ s).toOption.any fun r =>
          r.1.tsClasses.any fun c => c.tcAutomaton = some 7 ∧
            ¬ (c.active = 0 ∧ c.tcFree = c.tcLimit)) = true := by decide
  obtain ⟨s, hs, hcheck⟩ := (Option.any_eq_true _ _).mp hexec
  obtain ⟨⟨s', evs⟩, hok, hcheck⟩ := (Option.any_eq_true _ _).mp hcheck
  obtain ⟨c, hc, hcheck⟩ := List.any_eq_true.mp hcheck
  obtain ⟨ha, hne⟩ := of_decide_eq_true hcheck
  exact ⟨s, s', evs, c, hc, 7, run_of_exec hs, ok_of_toOption hok, ha, by decide, hne⟩

end Tesla.Runtime
