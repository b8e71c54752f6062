/-
# `Tesla.Runtime.Reports` — what an update says, and what it has done when it says it

Two reports of `tesla_update_class_state` are read by the program's owner as
facts about the class:

    ev_no_instance    no instance took a transition                `no_instance_iff`
    ev_err            the event has not been taken at all           `error_atomic_iff`

Both are compared with the class `c₁` that late initialisation hands to the
scan (`Arrives`).  The first is computed from a flag that UPDATE and FORK set
and JOIN does not.  The second is followed by a `return` from the middle of
the scan, or of the clone loop, with the slots in front of it written already.
-/
import Tesla.Runtime.Accounting

namespace Tesla.Runtime

open Lib

variable {P : Program} {s s' : Store} {cls symbol : Nat} {pattern : Key} {c c' c₁ : Class}
  {d : Delivery} {ts : List Transition} {evs evs' : List Event} {m : Nat}

/-- The event reaches class `cls`, its lifetime is open, `c₁` is the class after
late initialisation, and `d` is the event as the scan sees it. -/
def Arrives (P : Program) (s : Store) (cls symbol : Nat) (pattern : Key) (c₁ : Class)
    (d : Delivery) : Prop :=
  ∃ c a li ls ls₁ evs₁ ts, s.tsClasses[cls]? = some c ∧ c.tcAutomaton = some a ∧
    s.findLifetime (P.automaton a).taLifetime = some li ∧ s.tsLifetimes[li]? = some ls ∧
    prepare (P.automaton a) cls symbol c ls = .ok (.go c₁ ls₁ evs₁) ∧
    (P.automaton a).taTransitions[symbol]? = some ts ∧
    d = delivery P cls symbol pattern ts c.tcFree

theorem prepare_go_evs {autom : Automaton} {ls ls₁ : LifetimeState}
    (h : prepare autom cls symbol c ls = .ok (.go c₁ ls₁ evs)) :
    evs = [] ∨ ∃ slot inst, evs = [.newInstance cls slot inst] := by
  cases prepare_spec h with
  | ready => exact .inl rfl
  | init => exact .inr ⟨_, _, rfl⟩

theorem prepare_go_wf {autom : Automaton} {ls ls₁ : LifetimeState} (hwf : c.WF)
    (h : prepare autom cls symbol c ls = .ok (.go c₁ ls₁ evs)) : c₁.WF := by
  cases prepare_spec h with
  | ready => exact hwf
  | init _ _ hg => exact hwf.grown hg

/-- A call that gets past late initialisation is a delivery to `c₁`. -/
theorem Arrives.deliver (h : Arrives P s cls symbol pattern c₁ d)
    (hok : updateClassState P cls symbol pattern s = .ok (s', evs))
    (hwf : ∀ c ∈ s.tsClasses, c.WF) :
    c₁.WF ∧ ∃ evs₁ c', s'.tsClasses[cls]? = some c' ∧
      (evs₁ = [] ∨ ∃ slot inst, evs₁ = [.newInstance cls slot inst]) ∧
      deliver d c₁ evs₁ = .ok (c', evs) := by
  obtain ⟨c, a, li, ls, ls₁, evs₁, ts, hc, ha, hli, hls, hp, hts, rfl⟩ := h
  refine ⟨prepare_go_wf (hwf c (List.mem_of_getElem? hc)) hp, evs₁, ?_⟩
  simp only [updateClassState, hc, ha, hli, hls, updateFound, hp, hts] at hok
  split at hok
  · cases hok
  · rename_i c'' ls'' evs'' hu
    cases hok
    split at hu
    · cases hu
    · split at hu
      · cases hu
      · split at hu
        · cases hu
        · rename_i c' evs' hd
          cases hu
          have hlt := (List.getElem?_eq_some_iff.mp hc).1
          exact ⟨_, List.getElem?_set_self hlt, prepare_go_evs hp, hd⟩

/-! ## The no-instance verdict -/

/-- The instance takes a transition: UPDATE, FORK or JOIN. -/
def takes (d : Delivery) (inst : Instance) : Bool :=
  match actionOf d inst with
  | .ok (.update _) | .ok (.fork _) | .ok (.join _) => true
  | _ => false

theorem takes_eq (inst : Instance) : takes d inst = (advances d inst || joins d inst) := by
  simp only [takes, advances, joins]
  rcases actionOf d inst with e | a
  · rfl
  · cases a <;> rfl

theorem advances_of_fork {inst : Instance} (h : isFork d inst = true) :
    advances d inst = true := by
  simp only [isFork] at h
  split at h
  · rename_i t ht
    simp only [advances, ht]
  · cases h

theorem advances_active {inst : Instance} (h : advances d inst = true) :
    instanceActive inst = true := by
  by_contra hina
  rw [advances, actionOf, action_inactive (by simpa using hina)] at h
  cases h

theorem instEvents_noInstance (i : Nat) (inst : Instance) :
    ∀ ev ∈ instEvents d i inst, ev ≠ .noInstance d.cls d.symbol d.pattern := by
  intro ev hev
  rcases instEvents_cases hev with ⟨_, rfl⟩ | ⟨t, _, rfl | rfl⟩
  · exact Event.noConfusion
  · exact Event.noConfusion
  · exact Event.noConfusion

theorem forkCopies_eq_nil {insts : List Instance} (h : ∀ inst ∈ insts, isFork d inst = false) :
    forkCopies d insts = [] := by
  rw [← List.length_eq_zero_iff, forkCopies_length, List.countP_eq_zero]
  intro inst hinst
  simp [h inst hinst]

/-- With as many instances in use as an `int` can count, the verdict is whether
`matched_something` was set: whether some instance UPDATEs or FORKs. -/
theorem Delivered.noInstance_iff (hd : Delivered d c evs m c' evs') (hwf : c.WF)
    (hfits : c.tcLimit < c.tcFree + 2 ^ 31)
    (hevs : .noInstance d.cls d.symbol d.pattern ∉ evs) :
    .noInstance d.cls d.symbol d.pattern ∈ evs' ↔
      ∀ inst ∈ c.tcInstances, advances d inst = false := by
  have hslots : .noInstance d.cls d.symbol d.pattern ∉ slotEvents d 0 (c.tcInstances.take m) :=
    fun h => slotEvents_forall instEvents_noInstance _ h rfl
  have hquiet : ∀ {new : List Event}, (∀ ev ∈ new, ev.ofClone = true) →
      .noInstance d.cls d.symbol d.pattern ∉ new := fun hq h => by cases hq _ h
  -- the instances that the scan does not get to are inactive
  have hrest := inactive_of_stop (d := d) (m := m) hwf hfits
  cases hd with
  | @full inst hslot hfork =>
      simp only [List.mem_append, List.mem_singleton, hevs, hslots, reduceCtorEq, or_self,
        false_iff]
      intro h
      have hadv := advances_of_fork hfork
      rw [h inst (List.mem_of_getElem? hslot)] at hadv
      cases hadv
  | cloned hstop hgrown hshort hroom hq =>
      simp only [List.mem_append, hevs, hslots, hquiet hq, or_self, false_iff]
      intro h
      -- a clone was noted, so some instance forks
      rw [forkCopies_eq_nil fun inst hinst => ?_] at hshort
      · cases hshort
      · by_contra hf
        have hadv := advances_of_fork (by simpa using hf)
        rw [h inst (List.mem_of_mem_take hinst)] at hadv
        cases hadv
  | done hstop hgrown hq =>
      simp only [List.mem_append, hevs, hslots, hquiet hq, false_or]
      have hany : (c.tcInstances.take m).any (advances d) = false ↔
          ∀ inst ∈ c.tcInstances, advances d inst = false := by
        rw [List.any_eq_false]
        constructor
        · intro h inst hinst
          rw [← List.take_append_drop m c.tcInstances, List.mem_append] at hinst
          rcases hinst with hinst | hinst
          · simpa using h inst hinst
          · by_contra hadv
            have hact := advances_active (by simpa using hadv)
            rw [hrest hstop inst hinst] at hact
            cases hact
        · intro h inst hinst
          simp [h inst (List.mem_of_mem_take hinst)]
      rw [← hany]
      split
      · rename_i ht
        simp [ht]
      · rename_i hf
        simpa using hf

theorem scanLoop_idle {is : List Nat} {sc : Scan}
    (h : ¬ (0 < sc.expected ∧ sc.returned = false)) : scanLoop d is sc = .ok sc := by
  cases is with
  | nil => rfl
  | cons i is => rw [scanLoop, if_neg h]

/-- Beyond what an `int` can count nothing is scanned, and the verdict is
always given. -/
theorem deliver_of_overflow (hwf : c.WF) (hover : ¬ c.tcLimit < c.tcFree + 2 ^ 31) :
    deliver d c evs = .ok (c, evs ++ [.noInstance d.cls d.symbol d.pattern]) := by
  have hidle : ¬ (0 < (Scan.start c evs).expected ∧ (Scan.start c evs).returned = false) := by
    have hl := hwf.limit
    have he : (Scan.start c evs).expected = (c.tcLimit : Int) - c.tcFree - 2 ^ 32 :=
      hwf.expected.trans (if_neg hover)
    intro hpos
    rw [he] at hpos
    omega
  rw [deliver, scanLoop_idle hidle]
  rfl

/-- The no-instance verdict: it says what it is meant to say exactly when no
instance JOINs or another one UPDATEs or FORKs, and, when more instances are in
use than an `int` can count, when nothing could be taken. -/
theorem no_instance_iff {classes instances : UInt32} {ks : List Call}
    (hrun : LibRun P classes instances ks s) (harr : Arrives P s cls symbol pattern c₁ d)
    (hok : updateClassState P cls symbol pattern s = .ok (s', evs)) :
    (.noInstance cls symbol pattern ∈ evs ↔
        ∀ inst ∈ c₁.tcInstances, instanceActive inst = true → takes d inst = false) ↔
      if c₁.tcLimit < c₁.tcFree + 2 ^ 31 then
        (∃ inst ∈ c₁.tcInstances, joins d inst = true) →
          ∃ inst ∈ c₁.tcInstances, advances d inst = true
      else ∀ inst ∈ c₁.tcInstances, takes d inst = false := by
  obtain ⟨hwf, evs₁, c', -, hevs, hd⟩ := harr.deliver hok (wf_of_run hrun)
  have hsame : Event.noInstance cls symbol pattern = .noInstance d.cls d.symbol d.pattern := by
    obtain ⟨c, a, li, ls, ls₁, evs₁, ts, -, -, -, -, -, -, rfl⟩ := harr
    rfl
  have hnone : .noInstance d.cls d.symbol d.pattern ∉ evs₁ := by
    rcases hevs with rfl | ⟨slot, inst, rfl⟩ <;> simp
  have hactive : (∀ inst ∈ c₁.tcInstances, instanceActive inst = true → takes d inst = false) ↔
      ∀ inst ∈ c₁.tcInstances, takes d inst = false := by
    refine ⟨fun h inst hinst => ?_, fun h inst hinst _ => h inst hinst⟩
    cases hact : instanceActive inst with
    | true => exact h inst hinst hact
    | false => rw [takes, actionOf, action_inactive hact]
  rw [hsame, hactive]
  split
  · rename_i hfits
    obtain ⟨m, -, hm⟩ := deliver_spec hd
    rw [hm.noInstance_iff hwf hfits hnone]
    have hjoin : (∃ inst ∈ c₁.tcInstances, joins d inst = true) ↔
        ¬ ∀ inst ∈ c₁.tcInstances, joins d inst = false := by simp
    have hadv : (∃ inst ∈ c₁.tcInstances, advances d inst = true) ↔
        ¬ ∀ inst ∈ c₁.tcInstances, advances d inst = false := by simp
    have htakes : (∀ inst ∈ c₁.tcInstances, takes d inst = false) ↔
        (∀ inst ∈ c₁.tcInstances, advances d inst = false) ∧
          ∀ inst ∈ c₁.tcInstances, joins d inst = false := by
      simp only [takes_eq, Bool.or_eq_false_iff, forall_and]
    rw [hjoin, hadv, htakes, iff_self_and, not_imp_not]
  · rename_i hover
    rw [deliver_of_overflow hwf hover] at hd
    cases hd
    simp

/-- The class of the two objects, and the event `symbol` with `x = 5` for it. -/
theorem twoObjects_arrives {symbol : Nat} {ts : List Transition}
    (hts : forkJoin.taTransitions[symbol]? = some ts) :
    Arrives forkJoinProgram (twoObjects 5 7) 1 symbol (Key.of 5) (twoObjects 5 7).tsClasses[1]
      (delivery forkJoinProgram 1 symbol (Key.of 5) ts 1) :=
  ⟨_, 7, 0, _, _, _, ts, rfl, rfl, rfl, rfl, rfl, hts, rfl⟩

/-- The binding event, sent again for object 5, forks the instance without a
name, and no verdict is given. -/
theorem no_instance_iff_twoObjects : ∃ s' evs,
    updateClassState forkJoinProgram 1 1 (Key.of 5) (twoObjects 5 7) = .ok (s', evs) ∧
      .noInstance 1 1 (Key.of 5) ∉ evs := by
  have hok : (updateClassState forkJoinProgram 1 1 (Key.of 5) (twoObjects 5 7)).toOption.isSome =
      true := by decide
  obtain ⟨⟨s', evs⟩, hr⟩ := Option.isSome_iff_exists.mp hok
  have hr' := ok_of_toOption hr
  refine ⟨s', evs, hr', fun hno => ?_⟩
  have htaken := ((no_instance_iff twoObjects_reached (twoObjects_arrives rfl) hr').mpr
    (by decide)).mp hno ⟨Key.zero, 1⟩ (by decide) (by decide)
  exact absurd htaken (by decide)

/-- The forgetting event clears both instances, and yet no instance is reported
to have been found. -/
theorem join_reports_no_instance : ∃ s' evs,
    LibRun forkJoinProgram 2 4
      [.sunrise callLifetime, .updateState 7 1 (Key.of 5), .updateState 7 1 (Key.of 7)]
      (twoObjects 5 7) ∧
    Arrives forkJoinProgram (twoObjects 5 7) 1 2 (Key.of 5) (twoObjects 5 7).tsClasses[1]
      (delivery forkJoinProgram 1 2 (Key.of 5) [⟨2, 1, 1, 0, 0⟩] 1) ∧
    updateClassState forkJoinProgram 1 2 (Key.of 5) (twoObjects 5 7) = .ok (s', evs) ∧
    (∀ ev ∈ evs, ev.isErr = false) ∧
    ¬ (.noInstance 1 2 (Key.of 5) ∈ evs ↔
      ∀ inst ∈ ((twoObjects 5 7).tsClasses[1]).tcInstances, instanceActive inst = true →
        takes (delivery forkJoinProgram 1 2 (Key.of 5) [⟨2, 1, 1, 0, 0⟩] 1) inst = false) := by
  have hok : ((updateClassState forkJoinProgram 1 2 (Key.of 5) (twoObjects 5 7)).toOption.any
      fun r => decide (r.2 = [.noInstance 1 2 (Key.of 5)])) = true := by decide
  obtain ⟨⟨s', evs⟩, hr, hcheck⟩ := (Option.any_eq_true _ _).mp hok
  have hevs : evs = [.noInstance 1 2 (Key.of 5)] := of_decide_eq_true hcheck
  refine ⟨s', evs, twoObjects_reached, twoObjects_arrives rfl, ok_of_toOption hr, ?_, ?_⟩
  · rw [hevs]
    decide
  · intro hiff
    have htaken := hiff.mp (hevs ▸ List.mem_singleton.mpr rfl) ⟨Key.of 5, 2⟩ (by decide) (by decide)
    exact absurd htaken (by decide)

/-! ## Errors in the middle -/

/-- The event leaves the instance as it is, as far as its own slot is concerned:
it does not JOIN, and an UPDATE leads back to its state. -/
def Kept (d : Delivery) (inst : Instance) : Prop :=
  joins d inst = false ∧ ∀ t, actionOf d inst = .ok (.update t) → t.toState = inst.tiState

theorem kept_of_inactive {inst : Instance} (h : instanceActive inst = false) : Kept d inst := by
  refine ⟨not_joins_of_inactive h, fun t ht => ?_⟩
  rw [actionOf, action_inactive h] at ht
  cases ht

theorem kept_of_fork {inst : Instance} (h : isFork d inst = true) : Kept d inst := by
  simp only [isFork] at h
  split at h
  · rename_i t ht
    refine ⟨by simp only [joins, ht], fun u hu => ?_⟩
    rw [ht] at hu
    cases hu
  · cases h

theorem outcome_eq_iff {inst : Instance} : outcome d inst = inst ↔ Kept d inst := by
  constructor
  · intro h
    refine ⟨?_, fun t ht => ?_⟩
    · simp only [joins]
      split
      · rename_i t ht
        -- a cleared slot is inactive, and an inactive instance does not JOIN
        have hact := active_of_action ht (by simp)
        rw [outcome, ht] at h
        rw [← h, instanceActive_zero] at hact
        cases hact
      · rfl
    · rw [outcome, ht] at h
      exact congrArg Instance.tiState h
  · rintro ⟨hj, hu⟩
    rcases outcome_cases (d := d) inst with h | ⟨t, ht, h⟩ | ⟨t, ht, _⟩
    · exact h
    · rw [h, hu t ht]
    · rw [joins, ht] at hj
      cases hj

theorem scanned_eq_iff : (scanned d c m).tcInstances = c.tcInstances ↔
    ∀ j inst, c.tcInstances[j]? = some inst → j < m → Kept d inst := by
  constructor
  · intro h j inst hj hlt
    have hs := scanned_slot (d := d) (m := m) hj
    rw [h, hj, if_pos hlt] at hs
    exact outcome_eq_iff.mp (Option.some.inj hs).symm
  · intro h
    refine List.ext_getElem? fun j => ?_
    cases hj : c.tcInstances[j]? with
    | none =>
        have hlen := scanned_tcLimit (d := d) (c := c) m
        rw [List.getElem?_eq_none_iff] at hj ⊢
        exact hlen.le.trans hj
    | some inst =>
        rw [scanned_slot hj]
        split
        · rename_i hlt
          rw [outcome_eq_iff.mpr (h j inst hj hlt)]
        · rfl

/-- A delivery that stops with an error has left the class alone exactly when
everything it reached is kept and, if it got as far as the clones, no slot was
free to begin with. -/
theorem Stopped.atomic_iff (hwf : c.WF) (hreach : Reach d c m) (h : Stopped d c m c') :
    (c'.tcInstances = c.tcInstances ∧ c'.tcFree = c.tcFree) ↔
      (∀ j inst, c.tcInstances[j]? = some inst → Reaches d c j → Kept d inst) ∧
        (c.tcInstances.countP (isFork d) ≤ d.maxClones → c.tcFree = 0) := by
  cases h with
  | @full inst hslot hfork hroom =>
      rw [scanned_eq_iff, scanned_tcFree]
      constructor
      · intro ⟨h, _⟩
        refine ⟨fun j u hj hr => ?_, fun hcount => ?_⟩
        · rcases (le_of_reaches hslot hfork hroom hr).lt_or_eq with hlt | rfl
          · exact h j u hj hlt
          · rw [hslot] at hj
            cases hj
            exact kept_of_fork hfork
        · have hpre : (c.tcInstances.take (m + 1)).countP (isFork d) ≤
              c.tcInstances.countP (isFork d) := (List.take_sublist _ _).countP_le
          rw [List.take_add_one, hslot, List.countP_append] at hpre
          simp only [Option.toList_some, List.countP_singleton, hfork, if_true] at hpre
          rw [forkCopies_length] at hroom
          omega
      · intro ⟨h, _⟩
        exact ⟨fun j u hj hlt => h j u hj (hreach.reaches hwf hlt), rfl⟩
  | @cloned _ n hstop hgrown hshort hroom =>
      have hpos : 0 < m := by
        by_contra h0
        rw [Nat.eq_zero_of_not_pos h0] at hshort
        cases hshort
      have hfits := (hreach.reaches hwf hpos).1
      have hrest := inactive_of_stop (d := d) hwf hfits hstop
      have hn := hgrown.tcFree
      rw [List.length_take, Nat.min_eq_left hshort.le, scanned_tcFree] at hn
      constructor
      · intro ⟨hinst, hfree⟩
        obtain rfl : n = 0 := by omega
        cases hgrown
        rw [scanned_eq_iff] at hinst
        refine ⟨fun j u hj _ => ?_, fun _ => by omega⟩
        by_cases hlt : j < m
        · exact hinst j u hj hlt
        · refine kept_of_inactive (hrest u (List.mem_iff_getElem?.mpr ⟨j - m, ?_⟩))
          rw [List.getElem?_drop, Nat.add_sub_cancel' (Nat.not_lt.mp hlt)]
          exact hj
      · intro ⟨h, hzero⟩
        have hcount : c.tcInstances.countP (isFork d) ≤ d.maxClones := by
          have hnone : (c.tcInstances.drop m).countP (isFork d) = 0 := by
            rw [List.countP_eq_zero]
            intro u hu hf
            simp only [isFork, actionOf, action_inactive (hrest u hu)] at hf
            cases hf
          have hle := hreach.room
          rw [forkCopies_length] at hle
          rw [← List.take_append_drop m c.tcInstances, List.countP_append, hnone]
          exact hle
        have hfree := hzero hcount
        obtain rfl : n = 0 := by omega
        cases hgrown
        exact ⟨scanned_eq_iff.mpr fun j u hj hlt => h j u hj (hreach.reaches hwf hlt), rfl⟩

/-- Error atomicity: an update that reports an error while it takes transitions
leaves the instances and `tc_free` as they were exactly when no instance within
the scan's reach JOINs or moves to another state, and, if all forks could be
noted, no slot was free for the first clone either. -/
theorem error_atomic_iff {classes instances : UInt32} {ks : List Call} {e : Err} {msg : Msg}
    (hrun : LibRun P classes instances ks s) (harr : Arrives P s cls symbol pattern c₁ d)
    (hok : updateClassState P cls symbol pattern s = .ok (s', evs))
    (herr : .err cls symbol e msg ∈ evs) :
    (∃ c', s'.tsClasses[cls]? = some c' ∧ c'.tcInstances = c₁.tcInstances ∧
        c'.tcFree = c₁.tcFree) ↔
      (∀ j inst, c₁.tcInstances[j]? = some inst → Reaches d c₁ j → Kept d inst) ∧
        (c₁.tcInstances.countP (isFork d) ≤ d.maxClones → c₁.tcFree = 0) := by
  obtain ⟨hwf, evs₁, c', hc', hevs, hd⟩ := harr.deliver hok (wf_of_run hrun)
  obtain ⟨hreach, -, hstop | hcalm⟩ := deliver_ends hd
  · rw [← hstop.atomic_iff hwf hreach]
    simp [hc']
  · have hmem := hcalm _ herr rfl
    rcases hevs with rfl | ⟨slot, inst, rfl⟩
    · cases hmem
    · cases List.mem_singleton.mp hmem

/-- Symbol 0 starts, 1 binds variable 0, 2 takes the instance without a name on,
or binds variable 1, and 3 cleans up. -/
def bindTwice : Automaton where
  taTransitions := [[⟨0, 0, 1, 0, 2⟩], [⟨1, 0, 2, 1, 0⟩], [⟨1, 0, 4, 0, 0⟩, ⟨2, 1, 3, 3, 0⟩],
    [⟨1, 0, 5, 0, 4⟩, ⟨2, 1, 5, 0, 4⟩, ⟨3, 3, 5, 0, 4⟩, ⟨4, 0, 5, 0, 4⟩]]
  taCleanupSymbol := 3
  taLifetime := callLifetime

def bindTwiceProgram : Program := ⟨fun _ => bindTwice, false⟩

/-- A class of two instances, both in use. -/
def fullStore : Store where
  tsClasses := [Class.fresh 2, ⟨some 7, 0, [⟨Key.zero, 1⟩, ⟨Key.of 5, 2⟩]⟩]
  tsLifetimes := [{ LifetimeState.fresh callLifetime with
    tlsClasses := some 1 :: List.replicate 31 none }]

theorem fullStore_reached : LibRun bindTwiceProgram 2 2
    [.sunrise callLifetime, .updateState 7 1 (Key.of 5)] fullStore :=
  run_of_exec (by decide +kernel)

theorem fullStore_arrives {symbol : Nat} {ts : List Transition} {pattern : Key}
    (hts : bindTwice.taTransitions[symbol]? = some ts) :
    Arrives bindTwiceProgram fullStore 1 symbol pattern fullStore.tsClasses[1]
      (delivery bindTwiceProgram 1 symbol pattern ts 0) :=
  ⟨_, 7, 0, _, _, _, ts, rfl, rfl, rfl, rfl, rfl, hts, rfl⟩

/-- The first instance forks, there is no room, and nothing has happened. -/
theorem error_atomic_iff_fullStore : ∃ s' evs c',
    updateClassState bindTwiceProgram 1 1 (Key.of 6) fullStore = .ok (s', evs) ∧
      .err 1 1 .enomem .tooManyClones ∈ evs ∧ s'.tsClasses[1]? = some c' ∧
      c'.tcInstances = [⟨Key.zero, 1⟩, ⟨Key.of 5, 2⟩] ∧ c'.tcFree = 0 := by
  have hok : ((updateClassState bindTwiceProgram 1 1 (Key.of 6) fullStore).toOption.any
      fun r => decide (.err 1 1 .enomem .tooManyClones ∈ r.2)) = true := by decide
  obtain ⟨⟨s', evs⟩, hr, hcheck⟩ := (Option.any_eq_true _ _).mp hok
  have hr' := ok_of_toOption hr
  have herr := of_decide_eq_true hcheck
  have hkept : ∀ j inst, fullStore.tsClasses[1].tcInstances[j]? = some inst →
      Reaches (delivery bindTwiceProgram 1 1 (Key.of 6) [⟨1, 0, 2, 1, 0⟩] 0)
        fullStore.tsClasses[1] j →
      Kept (delivery bindTwiceProgram 1 1 (Key.of 6) [⟨1, 0, 2, 1, 0⟩] 0) inst := by
    intro j inst hj _
    refine outcome_eq_iff.mp ?_
    have hall : ∀ inst ∈ fullStore.tsClasses[1].tcInstances,
        outcome (delivery bindTwiceProgram 1 1 (Key.of 6) [⟨1, 0, 2, 1, 0⟩] 0) inst = inst := by
      decide
    exact hall inst (List.mem_of_getElem? hj)
  obtain ⟨c', hc', hinst, hfree⟩ := (error_atomic_iff fullStore_reached (fullStore_arrives rfl)
    hr' herr).mpr ⟨hkept, fun _ => rfl⟩
  exact ⟨s', evs, c', hr', herr, hc', hinst, hfree⟩

/-- The first instance has moved on to state 4 when the second finds no room for
its clone. -/
theorem error_leaves_half : ∃ s' evs,
    LibRun bindTwiceProgram 2 2 [.sunrise callLifetime, .updateState 7 1 (Key.of 5)] fullStore ∧
    Arrives bindTwiceProgram fullStore 1 2 ⟨fun _ => 5, 3, 0⟩ fullStore.tsClasses[1]
      (delivery bindTwiceProgram 1 2 ⟨fun _ => 5, 3, 0⟩ [⟨1, 0, 4, 0, 0⟩, ⟨2, 1, 3, 3, 0⟩] 0) ∧
    updateClassState bindTwiceProgram 1 2 ⟨fun _ => 5, 3, 0⟩ fullStore = .ok (s', evs) ∧
    .err 1 2 .enomem .tooManyClones ∈ evs ∧
    ¬ ∃ c', s'.tsClasses[1]? = some c' ∧
      c'.tcInstances = (fullStore.tsClasses[1]).tcInstances ∧
      c'.tcFree = (fullStore.tsClasses[1]).tcFree := by
  have hok : ((updateClassState bindTwiceProgram 1 2 ⟨fun _ => 5, 3, 0⟩ fullStore).toOption.any
      fun r => decide (.err 1 2 .enomem .tooManyClones ∈ r.2 ∧ ∀ c' ∈ r.1.tsClasses[1]?,
        c'.tcInstances ≠ (fullStore.tsClasses[1]).tcInstances)) = true := by decide
  obtain ⟨⟨s', evs⟩, hr, hcheck⟩ := (Option.any_eq_true _ _).mp hok
  obtain ⟨herr, hmoved⟩ := of_decide_eq_true hcheck
  refine ⟨s', evs, fullStore_reached, fullStore_arrives rfl, ok_of_toOption hr, herr, ?_⟩
  intro ⟨c', hc', hinst, _⟩
  exact hmoved c' hc' hinst

end Tesla.Runtime
