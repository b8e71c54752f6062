/-
# `Tesla.Runtime.EarlyExit` — the scan that stops early, and the scan of all slots

The scan of `tesla_update_class_state` stops when it has handled as many instances as are in use
by the count of `tc_free`.  A JOIN clears an instance and does not give its slot back, so there
can be fewer active instances than that.  There are never more, and only active ones are handled:

    active instances ahead ≤ `expected`     at every slot of the scan   `scanLoop_eq_scanAll`

hence all that the scan leaves out is inactive.  The count is an `int`.  From `2 ^ 31` instances in
use on it is negative, nothing is scanned, and this is the same only if nothing was to be done.
-/
import Tesla.Runtime.Reports

namespace Tesla.Runtime

open Lib

variable {P : Program} {s s' : Store} {cls symbol : Nat} {pattern : Key} {c c' c₁ : Class}
  {d : Delivery} {sc sc' : Scan} {inst : Instance} {rest : List Instance} {i : Nat} {is : List Nat}
  {evs evs' : List Event} {m : Nat}

/-! ## Two scans -/

/-- The scan without the test of `expected`. -/
def scanAll (d : Delivery) : List Nat → Scan → Except Abort Scan
  | [], s => .ok s
  | i :: is, s =>
      if s.returned then .ok s
      else
        match scanSlot d i s with
        | .error a => .error a
        | .ok s' => scanAll d is s'

/-- The scan, the clones and the end of the update, for all slots. -/
def deliverAll (d : Delivery) (c : Class) (evs : List Event) :
    Except Abort (Class × List Event) :=
  match scanAll d (List.range c.tcLimit) (Scan.start c evs) with
  | .error a => .error a
  | .ok s => finish d c s

theorem scanAll_returned (h : sc.returned = true) : scanAll d is sc = .ok sc := by
  cases is with
  | nil => rfl
  | cons i is => rw [scanAll, if_pos h]

theorem scanSlot_ignore (hi : sc.insts[i]? = some inst) (h : actionOf d inst = .ok .ignore) :
    scanSlot d i sc = .ok sc := by
  rw [actionOf] at h
  simp only [scanSlot, hi, h, applyAction, if_true, Int.sub_zero]

/-- Instances that ignore the event are scanned to no effect. -/
theorem scanAll_quiet (h : ∀ inst ∈ sc.insts.drop i, actionOf d inst = .ok .ignore) (n : Nat) :
    scanAll d (List.range' i n) sc = .ok sc := by
  induction n generalizing i with
  | zero => rfl
  | succ n ih =>
    rw [List.range'_succ, scanAll]
    split
    · rfl
    · have hslot : scanSlot d i sc = .ok sc := by
        cases hi : sc.insts[i]? with
        | none => simp only [scanSlot, hi]
        | some inst =>
          refine scanSlot_ignore hi (h inst ?_)
          obtain ⟨hlt, rfl⟩ := List.getElem?_eq_some_iff.mp hi
          exact List.mem_drop_iff_getElem.mpr ⟨0, by omega, rfl⟩
      simp only [hslot]
      refine ih fun inst hinst => h inst ?_
      exact List.drop_subset_drop_left sc.insts (Nat.le_succ i) hinst

/-- As long as no more active instances are ahead than are expected, stopping early makes no
difference. -/
theorem scanLoop_eq_scanAll : ∀ {pre : List Instance} {sc : Scan}, sc.insts = pre ++ rest →
    sc.returned = false → (rest.countP instanceActive : Int) ≤ sc.expected →
    scanLoop d (List.range' pre.length rest.length) sc =
      scanAll d (List.range' pre.length rest.length) sc := by
  induction rest with
  | nil => exact fun _ _ _ => rfl
  | cons inst rest ih =>
    intro pre sc hins hr hahead
    by_cases hgo : 0 < sc.expected
    · have hi : sc.insts[pre.length]? = some inst := by rw [hins]; simp
      rw [List.length_cons, List.range'_succ, scanLoop, scanAll, if_pos ⟨hgo, hr⟩, hr,
        if_neg Bool.false_ne_true]
      cases hs : scanSlot d pre.length sc with
      | error a => rfl
      | ok sc' =>
        dsimp only
        by_cases hfull : isFork d inst = true ∧ d.maxClones ≤ sc.clones.length
        · have hret := (scanSlot_full hi hs hfull.1 hfull.2).1
          rw [scanAll_returned hret, scanLoop_idle (by simp [hret])]
        · have hroom : isFork d inst = true → sc.clones.length < d.maxClones :=
            fun hf => Nat.lt_of_not_le fun hle => hfull ⟨hf, hle⟩
          have hret := scanSlot_returned hi hs hroom
          obtain ⟨_, hin, hexp, _⟩ := scanSlot_go hi hs hret hroom
          have hins' : sc'.insts = (pre ++ [outcome d inst]) ++ rest := by rw [hin, hins]; simp
          have hlen : (pre ++ [outcome d inst]).length = pre.length + 1 := by simp
          rw [← hlen]
          refine ih hins' (hret.trans hr) ?_
          -- a handled instance is active, so one less is ahead
          rw [List.countP_cons] at hahead
          rw [hexp]
          cases hh : handled d inst with
          | true =>
            rw [handled_active hh] at hahead
            simp only [if_true] at hahead ⊢
            omega
          | false =>
            simp only [Bool.false_eq_true, if_false]
            omega
    · have hnone : (inst :: rest).countP instanceActive = 0 := by omega
      have hquiet : ∀ u ∈ sc.insts.drop pre.length, actionOf d u = .ok .ignore := by
        intro u hu
        rw [hins, List.drop_left] at hu
        exact action_inactive (by simpa using List.countP_eq_zero.mp hnone u hu)
      rw [scanAll_quiet hquiet, scanLoop_idle fun h => hgo h.1]

theorem deliver_eq_deliverAll (hwf : c.WF) (hfits : c.tcLimit < c.tcFree + 2 ^ 31) :
    deliver d c evs = deliverAll d c evs := by
  have hahead : (c.tcInstances.countP instanceActive : Int) ≤ (Scan.start c evs).expected := by
    have hbound := hwf.bound
    rw [Class.active] at hbound
    show _ ≤ ((c.tcLimit : Int) - c.tcFree).bmod (2 ^ 32)
    rw [hwf.expected, if_pos hfits]
    omega
  have hins : (Scan.start c evs).insts = [] ++ c.tcInstances := rfl
  have heq : scanLoop d (List.range c.tcLimit) (Scan.start c evs) =
      scanAll d (List.range c.tcLimit) (Scan.start c evs) := by
    rw [List.range_eq_range']
    exact scanLoop_eq_scanAll hins rfl hahead
  exact congrArg (fun r : Except Abort Scan => (match r with
    | .error a => .error a
    | .ok s => finish d c s : Except Abort (Class × List Event))) heq

/-! ## Past the range of an `int` -/

/-- Nothing reads `expected` but the scan that stops early. -/
theorem scanSlot_recount (d : Delivery) (i : Nat) (sc : Scan) (e : Int) :
    ∃ e', scanSlot d i { sc with expected := e } =
      (scanSlot d i sc).map fun s => { s with expected := e' } := by
  simp only [scanSlot]
  cases sc.insts[i]? with
  | none => exact ⟨e, rfl⟩
  | some inst =>
    dsimp only
    cases action inst d.pattern d.trans with
    | error a => exact ⟨e, rfl⟩
    | ok a =>
      refine ⟨e - (if a = .ignore then 0 else 1), ?_⟩
      cases a with
      | fail => rfl
      | ignore => rfl
      | update t => rfl
      | fork t =>
        simp only [applyAction]
        split <;> rfl
      | join t =>
        simp only [applyAction]
        split <;> rfl

theorem scanAll_recount (d : Delivery) (is : List Nat) (sc : Scan) (e : Int) :
    ∃ e', scanAll d is { sc with expected := e } =
      (scanAll d is sc).map fun s => { s with expected := e' } := by
  induction is generalizing sc e with
  | nil => exact ⟨e, rfl⟩
  | cons i is ih =>
    simp only [scanAll]
    split
    · exact ⟨e, rfl⟩
    · obtain ⟨e', hslot⟩ := scanSlot_recount d i sc e
      rw [hslot]
      cases scanSlot d i sc with
      | error a => exact ⟨e, rfl⟩
      | ok sc' => exact ih sc' e'

/-- The scan of all slots ends as a delivery does, behind the last slot or at the fork that finds
no room. -/
theorem deliverAll_ends (h : deliverAll d c evs = .ok (c', evs')) :
    ∃ m, (∀ inst ∈ c.tcInstances.take m, ∃ a, actionOf d inst = .ok a) ∧
      Delivered d c evs m c' evs' ∧
      (m = c.tcLimit ∨
        evs'.getLast? = some (.err d.cls d.symbol .enomem .tooManyClones)) := by
  -- with as many expected as there are slots, stopping early is no matter
  have hins : ({ Scan.start c evs with expected := c.tcLimit } : Scan).insts =
      [] ++ c.tcInstances := rfl
  have hahead : (c.tcInstances.countP instanceActive : Int) ≤ c.tcLimit :=
    Int.ofNat_le.mpr List.countP_le_length
  obtain ⟨e, hcount⟩ := scanAll_recount d (List.range c.tcLimit) (Scan.start c evs) c.tcLimit
  rw [deliverAll] at h
  split at h
  · cases h
  · rename_i sc hsc
    rw [hsc, List.range_eq_range'] at hcount
    have hm := scanLoop_spec hins rfl ((scanLoop_eq_scanAll hins rfl hahead).trans hcount)
    generalize scanRounds d _ _ = m at hm
    have hstop (hr : sc.returned = false) : m = c.tcLimit := by
      rcases hm.stop with ⟨hreturned, _⟩ | ⟨_, hlimit | hexpected⟩
      · rw [hr] at hreturned
        cases hreturned
      · exact hlimit
      · have hcount := Int.ofNat_le.mp (hexpected.trans (Int.ofNat_le.mpr List.countP_le_length))
        rw [List.length_take] at hcount
        exact Nat.le_antisymm hm.le (hcount.trans (Nat.min_le_left _ _))
    refine ⟨m, hm.acts, (finish_ends hm (fun hr => .inl (hstop hr)) h).1, ?_⟩
    cases hr : sc.returned with
    | false => exact .inl (hstop hr)
    | true =>
      rw [finish, if_pos hr] at h
      cases h
      refine .inr ?_
      rw [hm.evs, if_pos hr, ← List.append_assoc, List.getLast?_concat]

theorem instEvents_of_slotEvents {insts : List Instance} : ∀ {i : Nat}, slotEvents d i insts = [] →
    ∀ inst ∈ insts, ∃ j, instEvents d j inst = [] := by
  induction insts with
  | nil => exact fun _ _ => nofun
  | cons inst insts ih =>
    intro i h
    obtain ⟨hinst, hinsts⟩ := List.append_eq_nil_iff.mp h
    exact List.forall_mem_cons.mpr ⟨⟨i, hinst⟩, ih hinsts⟩

/-- What the slots and the clones report is never the verdict that there was no instance. -/
theorem slotEvents_append_ne {insts : List Instance} {new : List Event}
    (hq : ∀ ev ∈ new, ev.ofClone = true) :
    slotEvents d 0 insts ++ new ≠ [.noInstance d.cls d.symbol d.pattern] := by
  intro heq
  have hmem : .noInstance d.cls d.symbol d.pattern ∈ slotEvents d 0 insts ++ new := by
    rw [heq]
    exact List.mem_singleton_self _
  rcases List.mem_append.mp hmem with h | h
  · exact slotEvents_forall instEvents_noInstance _ h rfl
  · cases hq _ h

theorem forkCopies_of_idle {insts : List Instance}
    (hidle : ∀ inst ∈ insts, advances d inst = false) : forkCopies d insts = [] :=
  forkCopies_eq_nil fun inst hinst => by
    by_contra hf
    have hadv := advances_of_fork (by simpa using hf)
    rw [hidle inst hinst] at hadv
    cases hadv

/-- An instance that is not advanced, is not changed and of which nothing is reported is ignored. -/
theorem ignore_of_idle {inst : Instance} {a : Action} {j : Nat} (ha : actionOf d inst = .ok a)
    (hidle : advances d inst = false) (hquiet : instEvents d j inst = [])
    (hkept : outcome d inst = inst) : actionOf d inst = .ok .ignore := by
  rw [advances, ha] at hidle
  rw [instEvents, ha] at hquiet
  cases a with
  | ignore => exact ha
  | update t => cases hidle
  | fork t => cases hidle
  | fail => cases hquiet
  | join t =>
    -- it has been cleared and is what it was, so it was not active
    rw [outcome, ha] at hkept
    rw [← hkept]
    exact action_inactive rfl

/-- A delivery to all slots that leaves nothing but the verdict that there was no instance was
ignored by all. -/
theorem ignore_of_delivered (hacts : ∀ inst ∈ c.tcInstances, ∃ a, actionOf d inst = .ok a)
    (hd : Delivered d c evs c.tcLimit c' evs') (hc : c' = c)
    (hevs : evs' = evs ++ [.noInstance d.cls d.symbol d.pattern]) :
    ∀ inst ∈ c.tcInstances, actionOf d inst = .ok .ignore := by
  have hall : c.tcInstances.take c.tcLimit = c.tcInstances := List.take_length
  cases hd with
  | @full inst hslot =>
    rw [Class.tcLimit, List.getElem?_length] at hslot
    cases hslot
  | @cloned c' n new _ _ _ _ hq =>
    rw [hall] at hevs
    exact absurd (List.append_cancel_left hevs) (slotEvents_append_ne hq)
  | @done c'' new _ hgrown hq =>
    rw [hall] at hevs hgrown hc
    have htail := List.append_cancel_left hevs
    cases hadv : c.tcInstances.any (advances d) with
    | true =>
      rw [hadv, if_pos rfl, List.append_nil] at htail
      exact absurd htail (slotEvents_append_ne hq)
    | false =>
      rw [hadv, if_neg Bool.false_ne_true, ← List.append_assoc] at htail
      have hempty : slotEvents d 0 c.tcInstances = [] :=
        (List.append_eq_nil_iff.mp (List.append_cancel_right (htail.trans (List.nil_append _).symm))).1
      have hidle : ∀ inst ∈ c.tcInstances, advances d inst = false := by
        simpa using hadv
      rw [forkCopies_of_idle hidle] at hgrown
      cases hgrown
      intro inst hinst
      cases hcl : c.tcInstances.any (cleansUp d) with
      | true =>
        rw [hcl, if_pos rfl] at hc
        rw [← hc, classReset] at hinst
        rw [List.eq_of_mem_replicate hinst]
        exact action_inactive rfl
      | false =>
        rw [hcl, if_neg Bool.false_ne_true] at hc
        have hmap : c.tcInstances.map (outcome d) = c.tcInstances := by
          have htable := congrArg Class.tcInstances hc
          have hrest : c.tcInstances.drop c.tcLimit = [] := List.drop_length
          rw [scanned, hall, hrest, List.append_nil] at htable
          exact htable
        have hkept : outcome d inst = inst :=
          List.map_inj_left.mp (hmap.trans (List.map_id _).symm) inst hinst
        obtain ⟨a, ha⟩ := hacts inst hinst
        obtain ⟨j, hj⟩ := instEvents_of_slotEvents hempty inst hinst
        exact ignore_of_idle ha (hidle inst hinst) hj hkept

theorem deliverAll_quiet (h : ∀ inst ∈ c.tcInstances, actionOf d inst = .ok .ignore) :
    deliverAll d c evs = .ok (c, evs ++ [.noInstance d.cls d.symbol d.pattern]) := by
  have hscan : scanAll d (List.range c.tcLimit) (Scan.start c evs) = .ok (Scan.start c evs) := by
    rw [List.range_eq_range']
    have hall : ∀ inst ∈ (Scan.start c evs).insts.drop 0, actionOf d inst = .ok .ignore := h
    exact scanAll_quiet hall c.tcLimit
  rw [deliverAll, hscan]
  rfl

/-- Stopping early makes no difference exactly if the instances in use fit an `int` or nothing was
to be done. -/
theorem deliver_eq_deliverAll_iff (hwf : c.WF) : deliver d c evs = deliverAll d c evs ↔
    c.tcLimit < c.tcFree + 2 ^ 31 ∨ ∀ inst ∈ c.tcInstances, actionOf d inst = .ok .ignore := by
  by_cases hfits : c.tcLimit < c.tcFree + 2 ^ 31
  · exact iff_of_true (deliver_eq_deliverAll hwf hfits) (.inl hfits)
  · rw [deliver_of_overflow hwf hfits, or_iff_right hfits]
    constructor
    · intro h
      obtain ⟨m, hacts, hd, hend⟩ := deliverAll_ends h.symm
      obtain rfl : m = c.tcLimit := by
        rcases hend with hm | hlast
        · exact hm
        · rw [List.getLast?_concat] at hlast
          cases hlast
      have hall : c.tcInstances.take c.tcLimit = c.tcInstances := List.take_length
      exact ignore_of_delivered (hall ▸ hacts) hd rfl rfl
    · intro h
      exact (deliverAll_quiet h).symm

/-! ## The whole update -/

/-- `updateFound` with another way to scan. -/
def updateFoundBy (deliver : Delivery → Class → List Event → Except Abort (Class × List Event))
    (P : Program) (autom : Automaton) (cls symbol : Nat) (pattern : Key) (c : Class)
    (ls : LifetimeState) : Except Abort (Class × LifetimeState × List Event) :=
  match prepare autom cls symbol c ls with
  | .error a => .error a
  | .ok (.returned c' evs) => .ok (c', ls, evs)
  | .ok (.go c' ls' evs) =>
      match autom.taTransitions[symbol]? with
      | none => .error .wildPointer
      | some ts =>
          if ts.length = 0 then .error .noTransitions
          else if 10000 ≤ ts.length then .error .tooManyTransitions
          else
            match deliver (delivery P cls symbol pattern ts c.tcFree) c' evs with
            | .error a => .error a
            | .ok (c'', evs') => .ok (c'', ls', evs')

/-- `tesla_update_class_state` with another way to scan. -/
def updateClassStateBy
    (deliver : Delivery → Class → List Event → Except Abort (Class × List Event))
    (P : Program) (cls symbol : Nat) (pattern : Key) (s : Store) :
    Except Abort (Store × List Event) :=
  match s.tsClasses[cls]? with
  | none => .error .wildPointer
  | some c =>
      match c.tcAutomaton with
      | none => .error .wildPointer
      | some a =>
          let autom := P.automaton a
          match s.findLifetime autom.taLifetime with
          | none => .ok (s, [.ignored cls symbol pattern])
          | some li =>
              match s.tsLifetimes[li]? with
              | none => .error .wildPointer
              | some ls =>
                  match updateFoundBy deliver P autom cls symbol pattern c ls with
                  | .error e => .error e
                  | .ok (c', ls', evs) =>
                      .ok (⟨s.tsClasses.set cls c', s.tsLifetimes.set li ls'⟩, evs)

/-- The update with the scan that does not stop early. -/
abbrev updateClassStateAll := updateClassStateBy deliverAll

theorem updateClassStateBy_deliver :
    updateClassStateBy deliver P cls symbol pattern s = updateClassState P cls symbol pattern s :=
  rfl

/-- The scan of the update begins, with the class `c₁`. -/
def Scans (P : Program) (s : Store) (cls symbol : Nat) (pattern : Key) (c₁ : Class)
    (d : Delivery) : Prop :=
  Arrives P s cls symbol pattern c₁ d ∧ 0 < d.trans.length ∧ d.trans.length < 10000

theorem Scans.wf (h : Scans P s cls symbol pattern c₁ d) (hs : ∀ c ∈ s.tsClasses, c.WF) :
    c₁.WF := by
  obtain ⟨⟨c, a, li, ls, ls₁, evs₁, ts, hc, _, _, _, hp, _⟩, _⟩ := h
  exact prepare_go_wf (hs c (List.mem_of_getElem? hc)) hp

section By

variable {f g : Delivery → Class → List Event → Except Abort (Class × List Event)}

theorem updateClassStateBy_of_not_scans (h : ∀ c₁ d, ¬ Scans P s cls symbol pattern c₁ d) :
    updateClassStateBy f P cls symbol pattern s = updateClassStateBy g P cls symbol pattern s := by
  unfold updateClassStateBy
  cases hc : s.tsClasses[cls]? with
  | none => rfl
  | some c =>
    cases ha : c.tcAutomaton with
    | none => simp only [ha]
    | some a =>
      cases hli : s.findLifetime (P.automaton a).taLifetime with
      | none => simp only [ha, hli]
      | some li =>
        cases hls : s.tsLifetimes[li]? with
        | none => simp only [ha, hli, hls]
        | some ls =>
          have hsame : updateFoundBy f P (P.automaton a) cls symbol pattern c ls =
              updateFoundBy g P (P.automaton a) cls symbol pattern c ls := by
            unfold updateFoundBy
            cases hp : prepare (P.automaton a) cls symbol c ls with
            | error e => rfl
            | ok p =>
              cases p with
              | returned c' evs => rfl
              | go c₁ ls' evs =>
                cases hts : (P.automaton a).taTransitions[symbol]? with
                | none => rfl
                | some ts =>
                  have hno := h c₁ (delivery P cls symbol pattern ts c.tcFree)
                  rw [Scans, not_and_or, not_and_or] at hno
                  rcases hno with hno | hno | hno
                  · exact absurd ⟨c, a, li, ls, ls', evs, ts, hc, ha, hli, hls, hp, hts, rfl⟩ hno
                  · have hzero : ts.length = 0 := Nat.eq_zero_of_not_pos hno
                    simp only [hzero, if_true]
                  · have hmany : 10000 ≤ ts.length := Nat.le_of_not_lt hno
                    simp only [hmany, if_true]
          simp only [ha, hli, hls, hsame]

theorem updateClassStateBy_of_scans (h : Scans P s cls symbol pattern c₁ d) :
    ∃ evs₁, updateClassStateBy f P cls symbol pattern s =
        updateClassStateBy g P cls symbol pattern s ↔ f d c₁ evs₁ = g d c₁ evs₁ := by
  obtain ⟨⟨c, a, li, ls, ls₁, evs₁, ts, hc, ha, hli, hls, hp, hts, rfl⟩, hsome, hfew⟩ := h
  have hzero : ts.length ≠ 0 := Nat.ne_of_gt hsome
  have hmany : ¬ 10000 ≤ ts.length := Nat.not_le_of_lt hfew
  refine ⟨evs₁, ?_⟩
  have hlt := (List.getElem?_eq_some_iff.mp hc).1
  simp only [updateClassStateBy, updateFoundBy, hc, ha, hli, hls, hp, hts, if_neg hzero,
    if_neg hmany]
  generalize f _ c₁ evs₁ = x
  generalize g _ c₁ evs₁ = y
  refine ⟨fun h => ?_, fun h => by rw [h]⟩
  cases x with
  | error e =>
    cases y with
    | error e' => exact congrArg _ (Except.error.inj h)
    | ok r => cases h
  | ok r =>
    cases y with
    | error e => cases h
    | ok r' =>
      obtain ⟨hstore, hevs⟩ := Prod.mk.inj (Except.ok.inj h)
      have hclass := congrArg (·.tsClasses[cls]?) hstore
      simp only [List.getElem?_set_self hlt, Option.some.injEq] at hclass
      rw [Except.ok.injEq]
      exact Prod.ext hclass hevs

end By

/-! ## `no free instances but tc_free was > 0` -/

theorem instanceNew_not_abort {name : Key} {state : Nat} {a : Abort} (hwf : c.WF) :
    instanceNew c name state ≠ .error (.abort a) := by
  intro h
  rcases instanceNew_error h with ⟨hstop, _⟩ | ⟨hstop, _⟩ | ⟨_, hfree, hactive⟩
  · cases hstop
  · cases hstop
  · have hbound := hwf.bound
    omega

theorem initOuter_not_error {autom : Automaton} {a : Abort} {fuel i : Nat} :
    ∀ {c : Class} {slot : Option Nat}, c.WF → initOuter autom fuel i c slot ≠ .error a := by
  induction fuel generalizing i with
  | zero => exact fun _ => nofun
  | succ fuel ih =>
    intro c slot hwf h
    rw [initOuter] at h
    split at h
    · cases h
    · split at h
      · exact ih hwf h
      · rename_i t _
        split at h
        · rename_i hnew
          exact ih (hwf.grown (.of_new (x := initInstance t) hnew (.nil _))) h
        · cases h
        · rename_i hnew
          exact instanceNew_not_abort hwf hnew

theorem moveClones_not_error {a : Abort} {ks : List Clone} :
    ∀ {c : Class} {evs : List Event}, c.WF → moveClones d ks c evs ≠ .error a := by
  induction ks with
  | nil => exact fun _ => nofun
  | cons k ks ih =>
    intro c evs hwf h
    rw [moveClones] at h
    dsimp only at h
    split at h
    · rename_i hnew
      exact instanceNew_not_abort hwf hnew
    · cases h
    · rename_i c' slot hnew
      obtain ⟨_, hfree, ⟨old, hold, hina⟩, rfl⟩ := instanceNew_ok hnew
      split at h
      · rename_i key _
        have hcopy : Grown c [⟨key, k.transition.toState⟩]
            { c.setInstance slot ⟨key, k.transition.toState⟩ with tcFree := c.tcFree - 1 } :=
          .cons hold hina hfree (.nil _)
        simp only [Class.setInstance, List.set_set] at h
        exact ih (hwf.grown hcopy) h
      · cases h

/-- In a class with an inactive slot for each free one, the update always finds one. -/
theorem updateFound_not_noFreeInstance {autom : Automaton} {ls : LifetimeState} (hwf : c.WF) :
    updateFound P autom cls symbol pattern c ls ≠ .error .noFreeInstance := by
  intro h
  rcases updateFound_aborts h with hp | hown | ⟨c₁, ls', evs, ts, hp, _, hd⟩
  · rcases prepare_aborts hp with hinit | hcapacity | hinactive
    · exact initOuter_not_error hwf hinit
    · cases hcapacity
    · cases hinactive
  · rcases hown with hown | hown | hown <;> cases hown
  · have hwf₁ := prepare_go_wf hwf hp
    rcases deliver_aborts hd with (hjoin | ⟨inst, _, hact⟩) | ⟨m, ks, evs', hclones⟩
    · cases hjoin
    · cases action_error hact
    · exact moveClones_not_error (hwf₁.scanned m) hclones

/-! ## Runs of all operations -/

/-- The operations of the library, and those of `tesla_internal.h` on classes and instances. -/
inductive LibOp
  | op (o : Op)
  | classGet (autom : Ptr)
  | storeReset
  | instanceClone (cls : Nat) (orig : Instance)
  | instanceClear (cls slot : Nat)
  deriving DecidableEq

def LibOp.exec (P : Program) (s : Store) : LibOp → Except Abort Store
  | .op o => o.exec P s
  -- no space for the class is an error code, and the store is left as it is
  | .classGet autom => .ok (((Runtime.classGet s autom).map Prod.fst).getD s)
  | .storeReset => .ok (Runtime.storeReset s)
  | .instanceClone cls orig => onClass s cls (instanceNewOn · orig.tiKey orig.tiState)
  | .instanceClear cls slot => onClass s cls fun c => .ok (c.setInstance slot Instance.zero)

/-- The runs of all operations, from a fresh store. -/
abbrev LibOpRun (P : Program) (classes instances : UInt32) : List LibOp → Store → Prop :=
  Run (fun s o s' => LibOp.exec P s o = .ok s') (storeInit classes instances)

theorem libOpRun_of_exec {classes instances : UInt32} {ops : List LibOp}
    (h : ops.foldlM (fun s o => (LibOp.exec P s o).toOption) (storeInit classes instances) = some s) :
    LibOpRun P classes instances ops s := by
  refine Run.of_exec (fun {t o u} hstep => ?_) h
  exact ok_of_toOption hstep

theorem wf_never_aborts : Preserved P Class.WF (fun _ => True) (fun _ => True)
    (· ≠ .noFreeInstance) where
  claim := (wf_preserved (P := P)).claim
  update := fun _ hwf _ _ => .intro
    (fun _ hr => ⟨hwf.updated (updateFound_spec hr), fun _ _ => trivial⟩)
    fun a hr ha => updateFound_not_noFreeInstance hwf (ha ▸ hr)
  event := fun _ _ => trivial
  abort := by
    intro a ha heq
    rw [heq] at ha
    cases ha

/-- What the operations keep, and what they never end in. -/
abbrev Sound (x : Except Abort Store) : Prop :=
  Ensures x (fun s => ∀ c ∈ s.tsClasses, c.WF) (· ≠ .noFreeInstance)

theorem onClass_sound {f : Class → Except Abort Class} (hs : ∀ c ∈ s.tsClasses, c.WF)
    (hf : ∀ c, c.WF → Ensures (f c) Class.WF (· ≠ .noFreeInstance)) : Sound (onClass s cls f) := by
  rw [onClass]
  split
  · intro habort
    cases habort
  · rename_i c hc
    have hkeep := hf c (hs c (List.mem_of_getElem? hc))
    split
    · rename_i a ha
      exact hkeep.of_error ha
    · rename_i c' hc'
      intro u hu
      rcases List.mem_or_eq_of_mem_set hu with hu | rfl
      · exact hs u hu
      · exact hkeep.of_ok hc'

theorem instanceNewOn_sound (hwf : c.WF) (name : Key) (state : Nat) :
    Ensures (instanceNewOn c name state) Class.WF (· ≠ .noFreeInstance) := by
  rw [instanceNewOn]
  split
  · rename_i hnew
    exact hwf.grown (.of_new (x := ⟨name, state⟩) hnew (.nil _))
  · exact hwf
  · rename_i hnew
    exact absurd hnew (instanceNew_not_abort hwf)

theorem Class.WF.cleared (h : c.WF) (slot : Nat) : (c.setInstance slot Instance.zero).WF := by
  have hactive : (c.setInstance slot Instance.zero).active ≤ c.active := by
    rw [Class.active, Class.setInstance, Class.active]
    by_cases hslot : slot < c.tcInstances.length
    · rw [List.countP_set hslot, instanceActive_zero, if_neg Bool.false_ne_true, Nat.add_zero]
      exact Nat.sub_le _ _
    · rw [List.set_eq_of_length_le (Nat.le_of_not_lt hslot)]
  have hbound := h.bound
  exact ⟨by simpa using h.limit, by simpa using (Nat.add_le_add_left hactive _).trans hbound⟩

theorem op_sound (hs : ∀ c ∈ s.tsClasses, c.WF) (o : Op) : Sound (o.exec P s) := by
  cases o with
  | call k =>
    have hcall := wf_never_aborts.call (P := P) (k := k) hs fun _ _ => trivial
    rw [Op.exec]
    cases hr : call P s k with
    | error a => exact hcall.of_error hr
    | ok r => exact (hcall.of_ok hr).1
  | classInit cls instances =>
    refine onClass_sound hs fun c _ => ?_
    rw [classInit]
    split
    · intro habort
      cases habort
    · have hfresh := Class.WF.fresh instances
      exact ⟨hfresh.limit, hfresh.bound⟩
  | instanceNew cls name state => exact onClass_sound hs fun c hc => instanceNewOn_sound hc name state
  | classReset cls =>
    have hreset (c : Class) (hc : c.WF) : Ensures (.ok (classReset c) : Except Abort Class) Class.WF
        (· ≠ .noFreeInstance) := hc.reset
    exact onClass_sound hs hreset

theorem libOp_sound (hs : ∀ c ∈ s.tsClasses, c.WF) (o : LibOp) : Sound (o.exec P s) := by
  cases o with
  | op o => exact op_sound hs o
  | classGet autom =>
    show ∀ c ∈ (((classGet s autom).map Prod.fst).getD s).tsClasses, c.WF
    cases hget : classGet s autom with
    | none => exact hs
    | some r => exact (wf_preserved (P := P)).classGet hs hget
  | storeReset =>
    intro c hc
    obtain ⟨u, hu, rfl⟩ := List.mem_map.mp hc
    exact (hs u hu).reset
  | instanceClone cls orig =>
    exact onClass_sound hs fun c hc => instanceNewOn_sound hc orig.tiKey orig.tiState
  | instanceClear cls slot =>
    have hclear (c : Class) (hc : c.WF) :
        Ensures (.ok (c.setInstance slot Instance.zero) : Except Abort Class) Class.WF
          (· ≠ .noFreeInstance) := hc.cleared slot
    exact onClass_sound hs hclear

theorem wf_of_libOpRun {classes instances : UInt32} {ops : List LibOp}
    (h : LibOpRun P classes instances ops s) : ∀ c ∈ s.tsClasses, c.WF := by
  refine h.invariant (P := fun s => ∀ c ∈ s.tsClasses, c.WF) ?_ ?_
  · intro c hc
    cases List.eq_of_mem_replicate hc
    exact .fresh instances
  · intro t u o ht hstep
    exact (libOp_sound ht o).of_ok hstep

/-- Stopping early is the same as scanning all slots, in every store that the operations lead to
and for every event, if and only if the scan does not begin, or the instances in use fit an `int`,
or no instance has anything to do; and an instance that should be free is always found. -/
theorem early_exit_iff {classes instances : UInt32} {ops : List LibOp}
    (h : LibOpRun P classes instances ops s) :
    (∀ o : LibOp, o.exec P s ≠ .error .noFreeInstance) ∧
      ∀ cls symbol pattern, updateClassState P cls symbol pattern s =
          updateClassStateAll P cls symbol pattern s ↔
        ∀ c₁ d, Scans P s cls symbol pattern c₁ d → c₁.tcLimit < c₁.tcFree + 2 ^ 31 ∨
          ∀ inst ∈ c₁.tcInstances, actionOf d inst = .ok .ignore := by
  have hs := wf_of_libOpRun h
  refine ⟨fun o ho => (libOp_sound hs o).of_error ho rfl, fun cls symbol pattern => ?_⟩
  rw [← updateClassStateBy_deliver]
  constructor
  · intro heq c₁ d hscans
    obtain ⟨evs₁, hiff⟩ := updateClassStateBy_of_scans (f := deliver) (g := deliverAll) hscans
    exact (deliver_eq_deliverAll_iff (hscans.wf hs)).mp (hiff.mp heq)
  · intro hcond
    by_cases hscan : ∃ c₁ d, Scans P s cls symbol pattern c₁ d
    · obtain ⟨c₁, d, hscans⟩ := hscan
      obtain ⟨evs₁, hiff⟩ := updateClassStateBy_of_scans (f := deliver) (g := deliverAll) hscans
      exact hiff.mpr ((deliver_eq_deliverAll_iff (hscans.wf hs)).mpr (hcond c₁ d hscans))
    · exact updateClassStateBy_of_not_scans fun c₁ d hscans => hscan ⟨c₁, d, hscans⟩

/-- The run in which a JOIN keeps its slot: more is expected than there is. -/
theorem early_exit_iff_join : ∃ s : Store, ∃ c ∈ s.tsClasses, c.tcFree + c.active < c.tcLimit ∧
    LibOpRun forkJoinProgram 2 4 [.op (.call (.sunrise callLifetime)),
      .op (.call (.updateState 7 1 (Key.of 5))), .op (.call (.updateState 7 2 (Key.of 5)))] s ∧
    (∀ o : LibOp, o.exec forkJoinProgram s ≠ .error .noFreeInstance) ∧
    ∀ cls symbol pattern, updateClassState forkJoinProgram cls symbol pattern s =
        updateClassStateAll forkJoinProgram cls symbol pattern s ↔
      ∀ c₁ d, Scans forkJoinProgram s cls symbol pattern c₁ d →
        c₁.tcLimit < c₁.tcFree + 2 ^ 31 ∨
          ∀ inst ∈ c₁.tcInstances, actionOf d inst = .ok .ignore := by
  have hrun : ([LibOp.op (.call (.sunrise callLifetime)),
      .op (.call (.updateState 7 1 (Key.of 5))), .op (.call (.updateState 7 2 (Key.of 5)))].foldlM
        (fun s o => (LibOp.exec forkJoinProgram s o).toOption) (storeInit 2 4)).any (fun s =>
      s.tsClasses.any fun c => c.tcFree + c.active < c.tcLimit) = true := by decide
  obtain ⟨s, hs, hany⟩ := (Option.any_eq_true _ _).mp hrun
  obtain ⟨c, hc, hfewer⟩ := List.any_eq_true.mp hany
  have h := libOpRun_of_exec hs
  exact ⟨s, c, hc, of_decide_eq_true hfewer, h, early_exit_iff h⟩

/-! ## More instances than an `int` can count -/

/-- An instance about object 5. -/
def bound : Instance := ⟨Key.of 5, 2⟩

/-- A store with one class of `limit` slots, of which `k` are taken. -/
def crowded (limit k : Nat) : Store where
  tsClasses := [⟨some 7, limit - k,
    List.replicate k bound ++ List.replicate (limit - k) Instance.zero⟩]
  tsLifetimes := [LifetimeState.fresh callLifetime]

theorem crowded_start (limit : UInt32) : LibOpRun forkJoinProgram 1 limit
    [.op (.call (.sunrise callLifetime)), .classGet 7] (crowded limit.toNat 0) := by
  refine .snoc _ (.snoc _ .nil rfl) ?_
  have hbucket : bucket 7 1 0 = 0 := Nat.mod_one _
  have hget : classGet ⟨[Class.fresh limit.toNat], [LifetimeState.fresh callLifetime]⟩ 7 =
      some (crowded limit.toNat 0, bucket 7 1 0) := by
    simp only [classGet, Store.tsLength, List.length_singleton, List.range_one, classGetLoop,
      hbucket]
    rfl
  show Except.ok (((classGet ⟨[Class.fresh limit.toNat], [LifetimeState.fresh callLifetime]⟩ 7).map
    Prod.fst).getD _) = _
  rw [hget]
  rfl

theorem crowded_step {limit k : Nat} (h : k < limit) :
    LibOp.exec forkJoinProgram (crowded limit k) (.op (.instanceNew 0 (Key.of 5) 2)) =
      .ok (crowded limit (k + 1)) := by
  obtain ⟨n, rfl⟩ := Nat.exists_eq_add_of_lt h
  have hfree : k + n + 1 - k = n + 1 := by omega
  have hfree' : k + n + 1 - (k + 1) = n := by omega
  have hfirst : (List.replicate k bound ++ List.replicate (n + 1) Instance.zero).findIdx?
      (fun inst => !instanceActive inst) = some k := by
    have hbound : (!instanceActive bound) = false := by decide
    rw [List.findIdx?_append, List.findIdx?_replicate, List.findIdx?_replicate, hbound,
      instanceActive_zero, List.length_replicate]
    simp
  have hset : (List.replicate k bound ++ List.replicate (n + 1) Instance.zero).set k bound =
      List.replicate (k + 1) bound ++ List.replicate n Instance.zero := by
    rw [List.set_append_right _ _ (by simp), List.length_replicate, Nat.sub_self,
      List.replicate_succ, List.set_cons_zero, List.replicate_succ', List.append_assoc,
      List.singleton_append]
  have hnew : instanceNew ⟨some 7, n + 1, List.replicate k bound ++
      List.replicate (n + 1) Instance.zero⟩ (Key.of 5) 2 = .ok (⟨some 7, n,
        List.replicate (k + 1) bound ++ List.replicate n Instance.zero⟩, k) := by
    simp only [instanceNew, hfirst, Class.setInstance]
    rw [if_neg (by decide), if_neg (Nat.succ_ne_zero n), ← hset]
    rfl
  simp only [LibOp.exec, Op.exec, onClass, crowded, List.getElem?_cons_zero, instanceNewOn, hfree,
    hfree', hnew]
  rfl

theorem crowded_run (limit : Nat) : ∀ k ≤ limit,
    Run (fun s o s' => LibOp.exec forkJoinProgram s o = .ok s') (crowded limit 0)
      (List.replicate k (.op (.instanceNew 0 (Key.of 5) 2))) (crowded limit k) := by
  intro k
  induction k with
  | zero => exact fun _ => .nil
  | succ k ih =>
    intro hk
    rw [List.replicate_succ']
    exact .snoc _ (ih (Nat.le_of_succ_le hk)) (crowded_step hk)

theorem crowded_differs {limit : UInt32} {k : Nat} (hk : limit.toNat = k) (hover : 2 ^ 31 ≤ k) :
    ∃ s, LibOpRun forkJoinProgram 1 limit ([.op (.call (.sunrise callLifetime)), .classGet 7] ++
        List.replicate k (.op (.instanceNew 0 (Key.of 5) 2))) s ∧
      updateClassState forkJoinProgram 0 3 (Key.of 5) s ≠
        updateClassStateAll forkJoinProgram 0 3 (Key.of 5) s := by
  have hrun := (crowded_start limit).append (crowded_run limit.toNat k hk.ge)
  rw [hk] at hrun
  refine ⟨crowded k k, hrun, ?_⟩
  let c : Class := ⟨some 7, k - k, List.replicate k bound ++ List.replicate (k - k) Instance.zero⟩
  have hlimit : c.tcLimit = k := by simp [c, Class.tcLimit]
  have hprepare : prepare forkJoin 0 3 c (LifetimeState.fresh callLifetime) =
      .ok (.go c (LifetimeState.fresh callLifetime) []) := by
    rw [prepare, if_neg]
    rw [hlimit]
    show k ≠ k - k
    omega
  let d := delivery forkJoinProgram 0 3 (Key.of 5) [⟨1, 0, 3, 0, 4⟩, ⟨2, 1, 3, 0, 4⟩] c.tcFree
  have hscans : Scans forkJoinProgram (crowded k k) 0 3 (Key.of 5) c d :=
    ⟨⟨c, 7, 0, _, _, _, _, rfl, rfl, rfl, rfl, hprepare, rfl, rfl⟩, Nat.zero_lt_succ _,
      (by decide : 2 < 10000)⟩
  have hwf : c.WF := wf_of_libOpRun hrun c (List.mem_singleton_self c)
  intro heq
  obtain ⟨evs₁, hiff⟩ := updateClassStateBy_of_scans (f := deliver) (g := deliverAll) hscans
  rcases (deliver_eq_deliverAll_iff hwf).mp (hiff.mp heq) with hfits | hignore
  · rw [hlimit] at hfits
    have hused : k < (k - k) + 2 ^ 31 := hfits
    omega
  · have hmem : bound ∈ c.tcInstances :=
      List.mem_append_left _ (List.mem_replicate.mpr ⟨by omega, rfl⟩)
    have hupdate : action bound (Key.of 5) [⟨1, 0, 3, 0, 4⟩, ⟨2, 1, 3, 0, 4⟩] ≠ .ok .ignore := by
      decide
    exact hupdate (hignore bound hmem)

/-- With `2 ^ 31` instances in use the cleanup event finds none of them. -/
theorem early_exit_overflows :
    ∃ s, LibOpRun forkJoinProgram 1 2147483648
        ([.op (.call (.sunrise callLifetime)), .classGet 7] ++
          List.replicate 2147483648 (.op (.instanceNew 0 (Key.of 5) 2))) s ∧
      updateClassState forkJoinProgram 0 3 (Key.of 5) s ≠
        updateClassStateAll forkJoinProgram 0 3 (Key.of 5) s :=
  crowded_differs rfl (by decide)

end Tesla.Runtime
