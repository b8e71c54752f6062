/-
# `Tesla.Runtime.Frames` — what the calls leave alone

A call reaches other classes and other lifetimes than its own only through the
registration lists, so the frame of `tesla_sunset` rests on an invariant:

    a lifetime slot lists only classes whose automaton has that lifetime     `OwnLists`

For properties of the whole store there is one rule (`sunset_ensures`): what
survives the cleanup event of a listed class, and the zeroing of the two lists,
survives a sunset.  The owners of the class slots are the first use of it.
-/
import Tesla.Runtime.Sunset

namespace Tesla.Runtime

open Lib

variable {P : Program} {s s' : Store} {l : Lifetime} {junk : Key} {evs : List Event} {li : Nat}
  {Q : Store → Prop} {E : Abort → Prop}

/-! ## Sunsets -/

/-- The slot's lists mention the class. -/
def LifetimeState.Mentions (ls : LifetimeState) (cls : Nat) : Prop :=
  some cls ∈ ls.tlsClasses ∨ some cls ∈ ls.tlsDynClasses

theorem sunsetLoop_ensures {key : Key} {slots : LifetimeState → List (Option Nat)}
    (hslots : ∀ ls cls, some cls ∈ slots ls → ls.Mentions cls)
    (hclean : ∀ t ls cls, Q t → t.tsLifetimes[li]? = some ls → ls.Mentions cls →
      Ensures (cleanupClass P key cls t) (fun r => Q r.1) E) {is : List Nat} :
    ∀ {t : Store} {evs : List Event}, Q t →
      Ensures (sunsetLoop P key li slots is t evs) (fun r => Q r.1) E := by
  induction is with
  | nil => exact fun h => h
  | cons i is ih =>
    intro t evs h
    rw [sunsetLoop]
    split
    · exact h
    · next cls hcls =>
      obtain ⟨ls, hls, hi⟩ := Option.bind_eq_some_iff.mp hcls
      have hmem : some cls ∈ slots ls := by
        rw [Option.join_eq_some_iff] at hi
        exact List.mem_of_getElem? hi
      have hstep := hclean t ls cls h hls (hslots ls cls hmem)
      split
      · next a ha => exact hstep.of_error ha
      · next t' evs' hok => exact ih (hstep.of_ok hok)

/-- The rule for sunsets of a lifetime that has begun. -/
theorem sunset_ensures (hli : s.findLifetime l = some li) (hlt : s.tsLifetimeCount < s.tsLength)
    (h : Q s)
    (hclean : ∀ t ls cls, Q t → t.tsLifetimes[li]? = some ls → ls.Mentions cls →
      Ensures (cleanupClass P (emptyKey junk) cls t) (fun r => Q r.1) E)
    (hstatic : ∀ t, Q t → Q (t.modifyLifetime li LifetimeState.clearStatic))
    (hdynamic : ∀ t, Q t → Q (t.modifyLifetime li LifetimeState.clearDynamic)) :
    Ensures (sunset P l junk s) (fun r => Q r.1) E := by
  have hloop : Ensures (sunsetStatic P junk li s [.sunset l]) (fun r => Q r.1) E := by
    have hl : Ensures (sunsetLoop P (emptyKey junk) li LifetimeState.tlsClasses
        (List.range staticClasses) s [.sunset l]) (fun r => Q r.1) E :=
      sunsetLoop_ensures (fun ls cls hmem => .inl hmem) hclean h
    rw [sunsetStatic]
    split
    · next a ha => exact hl.of_error ha
    · next t evs hok => exact hstatic t (hl.of_ok hok)
  rw [sunset, if_pos hlt, hli]
  simp only
  split
  · next a ha => exact hloop.of_error ha
  · next t evs hok =>
    have hl : Ensures (sunsetLoop P (emptyKey junk) li LifetimeState.tlsDynClasses
        (List.range (((t.tsLifetimes[li]?).map LifetimeState.tlsDynCount).getD 0)) t evs)
        (fun r => Q r.1) E :=
      sunsetLoop_ensures (fun ls cls hmem => .inr hmem) hclean (hloop.of_ok hok)
    rw [sunsetDynamic]
    split
    · next a ha => exact hl.of_error ha
    · next t' evs' hok' => exact hdynamic t' (hl.of_ok hok')

theorem sunset_begun (h : sunset P l junk s = .ok (s', evs)) :
    ∃ li, s.findLifetime l = some li ∧ s.tsLifetimeCount < s.tsLength := by
  rw [sunset] at h
  split at h
  · next hlt =>
    split at h
    · cases h
    · next li hli => exact ⟨li, hli, hlt⟩
  · cases h

/-- The events of a sunset go through `tesla_update_class_state`. -/
theorem cleanupClass_eq {key : Key} {cls : Nat} (h : cleanupClass P key cls s = .ok (s', evs)) :
    ∃ symbol, updateClassState P cls symbol key s = .ok (s', evs) := by
  rw [cleanupClass] at h
  split at h
  · cases h
  · exact ⟨_, h⟩

/-! ## Owners -/

/-- The descriptions that have taken class slots. -/
def Store.owners (s : Store) : List (Option Ptr) := s.tsClasses.map Class.tcAutomaton

theorem owners_length (s : Store) : s.owners.length = s.tsLength := List.length_map ..

theorem owners_getElem? {cls : Nat} {c : Class} (hc : s.tsClasses[cls]? = some c) :
    s.owners[cls]? = some c.tcAutomaton := by
  rw [Store.owners, List.getElem?_map, hc]
  rfl

theorem owners_set {cls : Nat} {c c' : Class} {ls : List LifetimeState}
    (hc : s.tsClasses[cls]? = some c) (h : c'.tcAutomaton = c.tcAutomaton) :
    Store.owners ⟨s.tsClasses.set cls c', ls⟩ = s.owners := by
  rw [Store.owners, List.map_set, h]
  have hlt := (List.getElem?_eq_some_iff.mp (owners_getElem? hc)).1
  have hget := (List.getElem?_eq_some_iff.mp (owners_getElem? hc)).2
  rw [← hget]
  exact List.set_getElem_self hlt

theorem updateClassState_owners {cls symbol : Nat} {pattern : Key}
    (h : updateClassState P cls symbol pattern s = .ok (s', evs)) : s'.owners = s.owners := by
  obtain ⟨c, a, hc, _, ⟨_, rfl, _⟩ | ⟨li, ls, c', ls', _, _, hu, rfl⟩⟩ := updateClassState_spec h
  · rfl
  · exact owners_set hc hu.tcAutomaton

theorem sunset_owners (h : sunset P l junk s = .ok (s', evs)) : s'.owners = s.owners := by
  obtain ⟨li, hli, hlt⟩ := sunset_begun h
  have hrule : Ensures (sunset P l junk s) (fun r => r.1.owners = s.owners) (fun _ => True) := by
    refine sunset_ensures (Q := fun t => t.owners = s.owners) hli hlt rfl ?_ (fun _ h => h)
      (fun _ h => h)
    intro t ls cls ht _ _
    refine .intro ?_ (fun _ _ => trivial)
    rintro ⟨t', evs'⟩ hok
    obtain ⟨symbol, hupd⟩ := cleanupClass_eq hok
    exact (updateClassState_owners hupd).trans ht
  exact hrule.of_ok h

theorem classGet_owners {a b : Ptr} {cls i : Nat} (h : classGet s a = some (s', cls))
    (hb : s.owners[i]? = some (some b)) : s'.owners[i]? = some (some b) := by
  obtain ⟨c, hc, ⟨_, rfl⟩ | ⟨hn, rfl⟩⟩ := classGet_spec h
  · exact hb
  · have hne : cls ≠ i := by
      rintro rfl
      rw [owners_getElem? hc, hn] at hb
      cases hb
    rw [Store.owners, List.map_set, List.getElem?_set_ne hne]
    exact hb

theorem classGet_frame {a : Ptr} {cls : Nat} (h : classGet s a = some (s', cls)) :
    s'.owners[cls]? = some (some a) ∧ (∀ i : Nat, i ≠ cls → s'.tsClasses[i]? = s.tsClasses[i]?) ∧
      s'.tsLifetimes = s.tsLifetimes := by
  obtain ⟨c, hc, _, rfl⟩ := classGet_claims h
  have hlt := (List.getElem?_eq_some_iff.mp hc).1
  refine ⟨?_, ?_, rfl⟩
  · rw [Store.owners, List.getElem?_map, List.getElem?_set_self hlt]
    rfl
  · intro i hi
    exact List.getElem?_set_ne hi.symm

/-! ## Lists of one lifetime -/

/-- A lifetime slot lists only classes whose automaton has that lifetime. -/
def OwnLists (P : Program) (s : Store) : Prop :=
  ∀ ls ∈ s.tsLifetimes, ∀ cls, ls.Mentions cls →
    ∃ a, s.owners[cls]? = some (some a) ∧ sameStaticLifetime (P.automaton a).taLifetime ls = true

theorem mentions_of_register {ls ls' : LifetimeState} {cls x : Nat}
    (h : register ls cls = .ok ls') (hx : ls'.Mentions x) : ls.Mentions x ∨ x = cls := by
  have hset : ∀ (slots : List (Option Nat)) (i : Nat), some x ∈ slots.set i (some cls) →
      some x ∈ slots ∨ x = cls := by
    intro slots i hmem
    exact (List.mem_or_eq_of_mem_set hmem).imp_right Option.some.inj
  -- growing adds nothing but NULLs
  have hgrow : some x ∈ (growDyn ls).tlsDynClasses → some x ∈ ls.tlsDynClasses := by
    rw [growDyn]
    split
    · intro hmem
      cases List.eq_of_mem_replicate hmem
    · intro hmem
      obtain hmem | hmem := List.mem_append.mp hmem
      · exact List.mem_of_mem_take hmem
      · cases List.eq_of_mem_replicate hmem
  have hkeep : (growDyn ls).tlsClasses = ls.tlsClasses := by
    rw [growDyn]
    split <;> rfl
  rw [register] at h
  split at h
  · obtain rfl := Except.ok.inj h
    obtain hx | hx := hx
    · exact (hset _ _ hx).imp_left .inl
    · exact .inl (.inr hx)
  · simp only at h
    split at h
    · obtain rfl := Except.ok.inj h
      obtain hx | hx := hx
      · exact .inl (.inl (hkeep ▸ hx))
      · exact (hset _ _ hx).imp_left fun hmem => .inr (hgrow hmem)
    · cases h

theorem Updated.mentions {autom : Automaton} {cls symbol x : Nat} {pattern : Key} {c c' : Class}
    {ls ls' : LifetimeState} (h : Updated P autom cls symbol pattern c ls c' ls' evs)
    (hx : ls'.Mentions x) : ls.Mentions x ∨ x = cls := by
  cases h with
  | returned => exact .inl hx
  | delivered hp => cases hp with
    | ready => exact .inl hx
    | init _ _ _ _ hreg => exact mentions_of_register hreg hx

theorem sameStaticLifetime_bounds {ls ls' : LifetimeState}
    (h : ls'.tlsBegin = ls.tlsBegin ∧ ls'.tlsEnd = ls.tlsEnd) (l : Lifetime) :
    sameStaticLifetime l ls' = sameStaticLifetime l ls := by
  rw [sameStaticLifetime, h.1, h.2, sameStaticLifetime]

theorem slot_of_find (hli : s.findLifetime l = some li) : ∃ ls, s.tsLifetimes[li]? = some ls := by
  obtain ⟨hlt, _⟩ := List.findIdx?_eq_some_iff_getElem.mp hli
  exact ⟨_, List.getElem?_eq_getElem hlt⟩

theorem sameStaticLifetime_of_find {ls : LifetimeState} (hli : s.findLifetime l = some li)
    (hls : s.tsLifetimes[li]? = some ls) : sameStaticLifetime l ls = true := by
  obtain ⟨hlt, hsame, _⟩ := List.findIdx?_eq_some_iff_getElem.mp hli
  obtain ⟨_, rfl⟩ := List.getElem?_eq_some_iff.mp hls
  exact hsame

/-- Two lifetimes that are the same as one slot are the same. -/
theorem sameLifetime_of_slot {l l' : Lifetime} {ls : LifetimeState}
    (h : sameStaticLifetime l ls = true) (h' : sameStaticLifetime l' ls = true) :
    sameLifetime l l' = true := by
  simp only [sameStaticLifetime, sameLifetime, Bool.and_eq_true] at h h' ⊢
  exact ⟨sameEvent_trans h.1 (sameEvent_symm h'.1), sameEvent_trans h.2 (sameEvent_symm h'.2)⟩

theorem OwnLists.updateClassState {cls symbol : Nat} {pattern : Key} (hown : OwnLists P s)
    (h : updateClassState P cls symbol pattern s = .ok (s', evs)) : OwnLists P s' := by
  have howners := updateClassState_owners h
  obtain ⟨c, a, hc, ha, ⟨_, rfl, _⟩ | ⟨li, ls, c', ls', hli, hls, hu, rfl⟩⟩ := updateClassState_spec h
  · exact hown
  · intro u hmem x hx
    rw [howners]
    obtain hmem | rfl := List.mem_or_eq_of_mem_set hmem
    · exact hown u hmem x hx
    · have hbounds := sameStaticLifetime_bounds hu.bounds
      obtain hx | rfl := hu.mentions hx
      · obtain ⟨b, hb, hsame⟩ := hown ls (List.mem_of_getElem? hls) x hx
        exact ⟨b, hb, (hbounds _).trans hsame⟩
      · refine ⟨a, by rw [owners_getElem? hc, ha], ?_⟩
        exact (hbounds _).trans (sameStaticLifetime_of_find hli hls)

theorem OwnLists.classGet {a : Ptr} {cls : Nat} (hown : OwnLists P s)
    (h : classGet s a = some (s', cls)) : OwnLists P s' := by
  intro ls hls x hx
  rw [(classGet_frame h).2.2] at hls
  obtain ⟨b, hb, hsame⟩ := hown ls hls x hx
  exact ⟨b, classGet_owners h hb, hsame⟩

/-- Lists that shrink. -/
theorem OwnLists.modifyLifetime {f : LifetimeState → LifetimeState} (hown : OwnLists P s)
    (hbounds : ∀ ls, (f ls).tlsBegin = ls.tlsBegin ∧ (f ls).tlsEnd = ls.tlsEnd)
    (hmentions : ∀ ls x, (f ls).Mentions x → ls.Mentions x) :
    OwnLists P (s.modifyLifetime li f) := by
  intro u hmem x hx
  obtain ⟨i, hi⟩ := List.mem_iff_getElem?.mp hmem
  rw [Store.modifyLifetime, List.getElem?_modify] at hi
  obtain ⟨ls, hls, rfl⟩ := Option.map_eq_some_iff.mp hi
  have hmem := List.mem_of_getElem? hls
  split at hx
  · next heq =>
    rw [if_pos heq]
    obtain ⟨a, ha, hsame⟩ := hown ls hmem x (hmentions ls x hx)
    exact ⟨a, ha, (sameStaticLifetime_bounds (hbounds ls) _).trans hsame⟩
  · next hne =>
    rw [if_neg hne]
    exact hown ls hmem x hx

theorem mem_of_mem_clearSlots {n x : Nat} {slots : List (Option Nat)}
    (h : some x ∈ clearSlots n slots) : some x ∈ slots := by
  obtain h | h := List.mem_append.mp h
  · cases List.eq_of_mem_replicate h
  · exact List.mem_of_mem_drop h

theorem OwnLists.clearStatic (hown : OwnLists P s) :
    OwnLists P (s.modifyLifetime li LifetimeState.clearStatic) :=
  hown.modifyLifetime (fun _ => ⟨rfl, rfl⟩) fun _ _ hx => hx.imp_left mem_of_mem_clearSlots

theorem OwnLists.clearDynamic (hown : OwnLists P s) :
    OwnLists P (s.modifyLifetime li LifetimeState.clearDynamic) :=
  hown.modifyLifetime (fun _ => ⟨rfl, rfl⟩) fun _ _ hx => hx.imp_right mem_of_mem_clearSlots

/-! ## Frames -/

/-- Outside its class and the slot of its lifetime an update changes nothing. -/
theorem updateClassState_frame {cls symbol : Nat} {pattern : Key}
    (h : updateClassState P cls symbol pattern s = .ok (s', evs)) :
    ∃ a, s.owners[cls]? = some (some a) ∧
      (∀ i, i ≠ cls → s'.tsClasses[i]? = s.tsClasses[i]?) ∧
      ∀ i, s.findLifetime (P.automaton a).taLifetime ≠ some i →
        s'.tsLifetimes[i]? = s.tsLifetimes[i]? := by
  obtain ⟨c, a, hc, ha, ⟨_, rfl, _⟩ | ⟨li, ls, c', ls', hli, _, _, rfl⟩⟩ := updateClassState_spec h
  · exact ⟨a, by rw [owners_getElem? hc, ha], fun _ _ => rfl, fun _ _ => rfl⟩
  · refine ⟨a, by rw [owners_getElem? hc, ha], ?_, ?_⟩
    · intro i hi
      exact List.getElem?_set_ne hi.symm
    · intro i hi
      refine List.getElem?_set_ne ?_
      rintro rfl
      exact hi hli

/-- What a sunset leaves alone, given the slot of the lifetime. -/
structure SunsetFrame (P : Program) (li : Nat) (slot : LifetimeState) (s t : Store) : Prop where
  own : OwnLists P t
  owners : t.owners = s.owners
  bounds : t.bounds = s.bounds
  lifetimes : ∀ i : Nat, i ≠ li → t.tsLifetimes[i]? = s.tsLifetimes[i]?
  classes : ∀ i : Nat, (∀ a, s.owners[i]? = some (some a) →
    sameStaticLifetime (P.automaton a).taLifetime slot = false) → t.tsClasses[i]? = s.tsClasses[i]?

theorem SunsetFrame.clear {slot : LifetimeState} {t : Store} {f : LifetimeState → LifetimeState}
    (h : SunsetFrame P li slot s t) (hown : OwnLists P (t.modifyLifetime li f))
    (hf : ∀ ls, (f ls).tlsBegin = ls.tlsBegin ∧ (f ls).tlsEnd = ls.tlsEnd) :
    SunsetFrame P li slot s (t.modifyLifetime li f) := by
  refine ⟨hown, h.owners, (bounds_modifyLifetime li hf).trans h.bounds, ?_, h.classes⟩
  intro i hi
  rw [← h.lifetimes i hi, Store.modifyLifetime, List.getElem?_modify]
  simp [hi.symm]

/-- The slot under an index has the same bounds in both stores. -/
theorem slot_bounds {t : Store} {slot ls : LifetimeState} (h : t.bounds = s.bounds)
    (hslot : s.tsLifetimes[li]? = some slot) (hls : t.tsLifetimes[li]? = some ls) :
    ls.tlsBegin = slot.tlsBegin ∧ ls.tlsEnd = slot.tlsEnd := by
  have hget : t.bounds[li]? = s.bounds[li]? := by rw [h]
  simpa [Store.bounds, hslot, hls] using hget

theorem SunsetFrame.cleanupClass {slot ls : LifetimeState} {t t' : Store} {key : Key} {cls : Nat}
    (hli : s.findLifetime l = some li) (hslot : s.tsLifetimes[li]? = some slot)
    (h : SunsetFrame P li slot s t) (hls : t.tsLifetimes[li]? = some ls) (hcls : ls.Mentions cls)
    (hok : cleanupClass P key cls t = .ok (t', evs)) : SunsetFrame P li slot s t' := by
  obtain ⟨symbol, hupd⟩ := cleanupClass_eq hok
  obtain ⟨a, ha, hsame⟩ := h.own ls (List.mem_of_getElem? hls) cls hcls
  rw [sameStaticLifetime_bounds (slot_bounds h.bounds hslot hls)] at hsame
  obtain ⟨b, hb, hclasses, hlifetimes⟩ := updateClassState_frame hupd
  obtain rfl : a = b := by
    rw [ha] at hb
    exact Option.some.inj (Option.some.inj hb)
  -- the automaton's lifetime is in the slot that the sunset is about
  have hfind : t.findLifetime (P.automaton a).taLifetime = some li := by
    have hl := sameLifetime_of_slot hsame (sameStaticLifetime_of_find hli hslot)
    rw [findLifetime_same hl, findLifetime_congr h.bounds, hli]
  refine ⟨h.own.updateClassState hupd, (updateClassState_owners hupd).trans h.owners,
    (updateClassState_bounds hupd).trans h.bounds, ?_, ?_⟩
  · intro i hi
    rw [hlifetimes i, h.lifetimes i hi]
    rw [hfind]
    exact fun heq => hi (Option.some.inj heq).symm
  · intro i hi
    rw [hclasses i, h.classes i hi]
    rintro rfl
    rw [h.owners] at ha
    rw [hi a ha] at hsame
    cases hsame

theorem sunset_frame (hown : OwnLists P s) (h : sunset P l junk s = .ok (s', evs)) :
    ∃ li slot, s.findLifetime l = some li ∧ s.tsLifetimes[li]? = some slot ∧
      SunsetFrame P li slot s s' := by
  obtain ⟨li, hli, hlt⟩ := sunset_begun h
  obtain ⟨slot, hslot⟩ := slot_of_find hli
  refine ⟨li, slot, hli, hslot, ?_⟩
  have hrule : Ensures (sunset P l junk s) (fun r => SunsetFrame P li slot s r.1)
      (fun _ => True) := by
    refine sunset_ensures (Q := SunsetFrame P li slot s) hli hlt ?_ ?_ ?_ ?_
    · exact ⟨hown, rfl, rfl, fun _ _ => rfl, fun _ _ => rfl⟩
    · intro t ls cls ht hls hcls
      refine .intro ?_ (fun _ _ => trivial)
      rintro ⟨t', evs'⟩ hok
      exact ht.cleanupClass hli hslot hls hcls hok
    · intro t ht
      exact ht.clear ht.own.clearStatic fun _ => ⟨rfl, rfl⟩
    · intro t ht
      exact ht.clear ht.own.clearDynamic fun _ => ⟨rfl, rfl⟩
  exact hrule.of_ok h

/-! ## Runs -/

theorem not_mentions_fresh (l : Lifetime) (x : Nat) : ¬ (LifetimeState.fresh l).Mentions x := by
  rintro (hx | hx)
  · cases List.eq_of_mem_replicate hx
  · cases hx

theorem sunrise_classes (h : sunrise l s = .ok (s', evs)) :
    s'.tsClasses = s.tsClasses ∧
      (s'.tsLifetimes = s.tsLifetimes ∨ s'.tsLifetimes = s.tsLifetimes ++ [LifetimeState.fresh l]) := by
  rw [sunrise] at h
  split at h
  · split at h
    · cases h
      exact ⟨rfl, .inl rfl⟩
    · cases h
      exact ⟨rfl, .inr rfl⟩
  · cases h

theorem OwnLists.sunrise (hown : OwnLists P s) (h : sunrise l s = .ok (s', evs)) :
    OwnLists P s' := by
  obtain ⟨hclasses, hlists⟩ := sunrise_classes h
  have howners : s'.owners = s.owners := by rw [Store.owners, hclasses, Store.owners]
  intro ls hls x hx
  rw [howners]
  obtain heq | heq := hlists
  · exact hown ls (heq ▸ hls) x hx
  · rw [heq, List.mem_append, List.mem_singleton] at hls
    obtain hls | rfl := hls
    · exact hown ls hls x hx
    · exact absurd hx (not_mentions_fresh l x)

theorem ownLists_of_run {classes instances : UInt32} {ks : List Call}
    (h : LibRun P classes instances ks s) : OwnLists P s := by
  refine h.invariant (P := OwnLists P) ?_ ?_
  · intro ls hls
    cases hls
  · rintro t u k hown ⟨evs, hk⟩
    cases k with
    | sunrise l => exact hown.sunrise hk
    | updateState a symbol pattern =>
      simp only [call, updateState] at hk
      split at hk
      · cases hk
      · next t' cls hget => exact (hown.classGet hget).updateClassState hk
    | sunset l junk =>
      obtain ⟨_, _, _, _, hframe⟩ := sunset_frame hown hk
      exact hframe.own

/-- `tesla_update_state` changes one class, that of its automaton, and one
lifetime slot, that of its automaton's lifetime. -/
theorem updateState_frame {a : Ptr} {symbol : Nat} {pattern : Key}
    (h : updateState P a symbol pattern s = .ok (s', evs)) :
    ∃ cls : Nat, s'.owners[cls]? = some (some a) ∧
      (∀ i : Nat, i ≠ cls → s'.tsClasses[i]? = s.tsClasses[i]?) ∧
      ∀ i : Nat, s.findLifetime (P.automaton a).taLifetime ≠ some i →
        s'.tsLifetimes[i]? = s.tsLifetimes[i]? := by
  rw [updateState] at h
  split at h
  · cases h
  · next t cls hget =>
    obtain ⟨howner, hother, hlists⟩ := classGet_frame hget
    obtain ⟨b, hb, hclasses, hlifetimes⟩ := updateClassState_frame h
    obtain rfl : a = b := by
      rw [howner] at hb
      exact Option.some.inj (Option.some.inj hb)
    refine ⟨cls, ?_, ?_, ?_⟩
    · rw [updateClassState_owners h]
      exact howner
    · intro i hi
      exact (hclasses i hi).trans (hother i hi)
    · intro i hi
      rw [hlifetimes i, hlists]
      rw [findLifetime_congr (classGet_bounds hget)]
      exact hi

/-- Frames: in the store of any run, an update leaves all classes but its
automaton's and all lifetime slots but its lifetime's as they are; a sunset
leaves all classes of other lifetimes and all other slots; a sunrise leaves
all classes. -/
theorem calls_keep_frames {classes instances : UInt32} {ks : List Call}
    (hrun : LibRun P classes instances ks s) :
    (∀ a symbol pattern s' evs, updateState P a symbol pattern s = .ok (s', evs) →
      ∃ cls : Nat, s'.owners[cls]? = some (some a) ∧
        (∀ i : Nat, i ≠ cls → s'.tsClasses[i]? = s.tsClasses[i]?) ∧
        ∀ i : Nat, s.findLifetime (P.automaton a).taLifetime ≠ some i →
          s'.tsLifetimes[i]? = s.tsLifetimes[i]?) ∧
    (∀ l junk s' evs, sunset P l junk s = .ok (s', evs) →
      ∃ li slot, s.findLifetime l = some li ∧ s.tsLifetimes[li]? = some slot ∧
        (∀ (i : Nat) (c : Class), s.tsClasses[i]? = some c →
          (∀ a, c.tcAutomaton = some a →
            sameStaticLifetime (P.automaton a).taLifetime slot = false) →
          s'.tsClasses[i]? = some c) ∧
        ∀ i : Nat, i ≠ li → s'.tsLifetimes[i]? = s.tsLifetimes[i]?) ∧
    ∀ l s' evs, sunrise l s = .ok (s', evs) → s'.tsClasses = s.tsClasses := by
  refine ⟨?_, ?_, ?_⟩
  · intro a symbol pattern s' evs h
    exact updateState_frame h
  · intro l junk s' evs h
    obtain ⟨li, slot, hli, hslot, hframe⟩ := sunset_frame (ownLists_of_run hrun) h
    refine ⟨li, slot, hli, hslot, ?_, hframe.lifetimes⟩
    intro i c hc hother
    rw [hframe.classes i, hc]
    intro a ha
    rw [owners_getElem? hc] at ha
    exact hother a (Option.some.inj ha)
  · intro l s' evs h
    exact (sunrise_classes h).1

/-- A lifetime that no automaton of `forkJoinProgram` has. -/
def otherLifetime : Lifetime where
  tlBegin := ⟨[98], 1, 3⟩
  tlEnd := ⟨[101], 1, 4⟩

theorem calls_keep_frames_other : ∃ s s' : Store, ∃ evs, ∃ (i : Nat) (c : Class),
    LibRun forkJoinProgram 4 4 [.sunrise callLifetime, .updateState 7 1 (Key.of 5),
      .sunrise otherLifetime] s ∧
    sunset forkJoinProgram otherLifetime (Key.of 0) s = .ok (s', evs) ∧
    s.tsClasses[i]? = some c ∧ c.active = 2 ∧ s'.tsClasses[i]? = some c := by
  have hexec : (Call.run forkJoinProgram (fun _ => True) (storeInit 4 4)
      [.sunrise callLifetime, .updateState 7 1 (Key.of 5), .sunrise otherLifetime]).any (fun s =>
      (sunset forkJoinProgram otherLifetime (Key.of 0) s).toOption.isSome ∧
        s.findLifetime otherLifetime = some 1 ∧
        (s.tsLifetimes[1]?).all (fun slot => sameStaticLifetime callLifetime slot = false) ∧
        s.tsClasses.any fun c => c.active = 2) = true := by decide +kernel
  obtain ⟨s, hs, hcheck⟩ := (Option.any_eq_true _ _).mp hexec
  obtain ⟨hsome, hfind, hslots, hany⟩ := of_decide_eq_true hcheck
  obtain ⟨⟨s', evs⟩, hok⟩ := Option.isSome_iff_exists.mp hsome
  obtain ⟨c, hmem, hactive⟩ := List.any_eq_true.mp hany
  obtain ⟨i, hi⟩ := List.mem_iff_getElem?.mp hmem
  have hrun := run_of_exec hs
  have hsunset := ok_of_toOption hok
  obtain ⟨li, slot, hli, hslot, hclasses, _⟩ :=
    (calls_keep_frames hrun).2.1 otherLifetime (Key.of 0) s' evs hsunset
  rw [hfind] at hli
  cases hli
  refine ⟨s, s', evs, i, c, hrun, hsunset, hi, of_decide_eq_true hactive, ?_⟩
  refine hclasses i c hi fun a _ => ?_
  rw [hslot] at hslots
  exact of_decide_eq_true hslots

end Tesla.Runtime
