/-
# `Tesla.Runtime.Bag` — instances without slots

For an automaton with variables a class is a bag of instances.  An event comes to each of them by
itself:

    outcome        what becomes of the instance, which may be that it is gone
    forkCopy?      the copy that it asks for
    blame          the failure that is reported about it
    cleansUp       whether the class is emptied

and if none of them takes a transition, that is a failure too.  `bag_explains` says that this is
what the library does, in every run in which no error is reported for the class: the slots, the
free count, the early end of the scan, the size of the tables and the calls for other automata do
not matter.  Two programs that make the same calls for an automaton, each with a library of its
own, are told the same about it (`same_verdict`).
-/
import Tesla.Runtime.Monitor
import Tesla.Runtime.Names
import Mathlib.Algebra.BigOperators.Group.Multiset.Basic

namespace Tesla.Runtime

open Lib

/-! ## Failures -/

/-- What is reported about an instance, or for want of one. -/
inductive Failure where
  | badTransition (inst : Instance) (symbol : Nat)
  | noInstance (symbol : Nat) (key : Key)

-- not derived, for the keys in it
instance : DecidableEq Failure
  | .badTransition inst symbol, .badTransition inst' symbol' =>
    decidable_of_iff (inst = inst' ∧ symbol = symbol') (by rw [Failure.badTransition.injEq])
  | .noInstance symbol key, .noInstance symbol' key' =>
    decidable_of_iff (symbol = symbol' ∧ key = key') (by rw [Failure.noInstance.injEq])
  | .badTransition .., .noInstance .. => isFalse Failure.noConfusion
  | .noInstance .., .badTransition .. => isFalse Failure.noConfusion

/-- Without the class and the slot. -/
def Event.failure? : Event → Option Failure
  | .badTransition _ _ inst symbol => some (.badTransition inst symbol)
  | .noInstance _ symbol key => some (.noInstance symbol key)
  | _ => none

/-- The failures among the notifications, in any order. -/
def bagged (evs : List Event) : Multiset Failure := evs.filterMap Event.failure?

@[simp] theorem bagged_nil : bagged [] = 0 := rfl

@[simp] theorem bagged_append (evs evs' : List Event) :
    bagged (evs ++ evs') = bagged evs + bagged evs' := by
  rw [bagged, List.filterMap_append, ← Multiset.coe_add]
  rfl

variable {P : Program} {autom : Automaton} {a : Ptr} {cls symbol m : Nat} {pattern : Key}
  {c c' : Class} {ls ls' : LifetimeState} {d : Delivery} {evs evs' : List Event}
  {inst : Instance} {insts : List Instance} {M : Multiset Instance}

theorem bagged_failures (evs : List Event) : bagged (failures evs) = bagged evs := by
  induction evs with
  | nil => rfl
  | cons ev evs ih =>
    rw [← List.singleton_append, failures_append, bagged_append, bagged_append, ih]
    cases ev <;> rfl

/-- The failure that is reported about an instance. -/
def blame (d : Delivery) (inst : Instance) : Option Failure :=
  match actionOf d inst with
  | .ok .fail => some (.badTransition inst d.symbol)
  | _ => none

theorem bagged_instEvents (i : Nat) : bagged (instEvents d i inst) = (blame d inst).toList := by
  rw [instEvents, blame]
  cases actionOf d inst with
  | error => rfl
  | ok act =>
    cases act with
    | fail => rfl
    | update t =>
      show bagged (_ ++ _) = _
      rw [bagged_append]
      split <;> split <;> rfl
    | ignore | fork | join => rfl

theorem bagged_slotEvents : ∀ i : Nat,
    bagged (slotEvents d i insts) = (insts.filterMap (blame d) : List Failure) := by
  induction insts with
  | nil => exact fun _ => rfl
  | cons inst insts ih =>
    intro i
    rw [slotEvents, bagged_append, bagged_instEvents, ih, Multiset.coe_add, List.filterMap_cons]
    cases blame d inst <;> rfl

theorem bagged_of_ofClone (h : ∀ ev ∈ evs, ev.ofClone = true) : bagged evs = 0 := by
  have hnone : ∀ ev ∈ evs, ev.failure? = none := by
    intro ev hev
    have hclone := h ev hev
    cases ev with
    | badTransition | noInstance => cases hclone
    | _ => rfl
  rw [bagged, List.filterMap_eq_nil_iff.mpr hnone]
  rfl

/-! ## The bag -/

/-- An event, as the instances of the automaton see it. -/
def Automaton.event (autom : Automaton) (symbol : Nat) (pattern : Key) : Delivery :=
  ⟨false, 0, symbol, pattern, autom.onSymbol symbol, 0⟩

/-- What the init transitions lead to. -/
def Automaton.beginnings (autom : Automaton) : Multiset Instance :=
  ((initHits autom).map initInstance : List Instance)

/-- What an event leaves of the instances, with the copies. -/
def Delivery.deal (d : Delivery) (M : Multiset Instance) : Multiset Instance :=
  (M.map (outcome d) + M.filterMap (forkCopy? d)).filter fun inst => instanceActive inst = true

instance (M : Multiset Instance) (p : Instance → Bool) : Decidable (∃ inst ∈ M, p inst = true) :=
  Multiset.decidableExistsMultiset

/-- The failures that are reported for a bag. -/
def Delivery.blames (d : Delivery) (M : Multiset Instance) : Multiset Failure :=
  M.filterMap (blame d) +
    if ∃ inst ∈ M, advances d inst = true then 0 else {.noInstance d.symbol d.pattern}

/-- What a bag hears. -/
def Automaton.bag (autom : Automaton) : Listener (Multiset Instance) (Multiset Failure) where
  start := autom.beginnings
  hear _ symbol pattern M :=
    let d := autom.event symbol pattern
    (if ∃ inst ∈ M, cleansUp d inst = true then none else some (d.deal M), [d.blames M])

/-- The active instances. -/
def Class.bag (c : Class) : Multiset Instance := (c.tcInstances.filter instanceActive : List Instance)

/-- What the class holds: a bag of instances, or nothing that has begun. -/
def Class.HoldsBag (c : Class) : Option (Multiset Instance) → Prop
  | none => c.tcLimit = c.tcFree
  | some M => c.tcLimit ≠ c.tcFree ∧ c.bag = M

/-- How a class is read without its slots. -/
def bagReading (autom : Automaton) : Reading (Multiset Instance) (Multiset Failure) where
  fits symbol _ := ∀ t ∈ autom.onSymbol symbol, t.cleanup = false
  bears cls ev := ∀ symbol e msg, ev ≠ .err cls symbol e msg
  room n := n < 2 ^ 31
  holds := Class.HoldsBag
  reports _ es os := bagged es = os.sum

/-! ## The event as a class sees it -/

section Event
variable {ts : List Transition} {n : Nat} (hts : autom.taTransitions[symbol]? = some ts)
include hts

theorem actionOf_delivery :
    actionOf (delivery P cls symbol pattern ts n) = actionOf (autom.event symbol pattern) := by
  have htrans : autom.onSymbol symbol = ts := by
    rw [Automaton.onSymbol, hts]
    rfl
  rw [Automaton.event, htrans]
  rfl

theorem cleansUp_delivery :
    cleansUp (delivery P cls symbol pattern ts n) = cleansUp (autom.event symbol pattern) := by
  funext inst
  rw [cleansUp, cleansUp, actionOf_delivery hts]

theorem deal_delivery :
    (delivery P cls symbol pattern ts n).deal M = (autom.event symbol pattern).deal M := by
  have hact : actionOf (delivery P cls symbol pattern ts n) =
      actionOf (autom.event symbol pattern) := actionOf_delivery hts
  have houtcome : outcome (delivery P cls symbol pattern ts n) =
      outcome (autom.event symbol pattern) := by
    funext inst
    rw [outcome, outcome, hact]
  have hcopy : forkCopy? (delivery P cls symbol pattern ts n) =
      forkCopy? (autom.event symbol pattern) := by
    funext inst
    rw [forkCopy?, forkCopy?, hact]
    rfl
  rw [Delivery.deal, Delivery.deal, houtcome, hcopy]

theorem blames_delivery :
    (delivery P cls symbol pattern ts n).blames M = (autom.event symbol pattern).blames M := by
  have hact : actionOf (delivery P cls symbol pattern ts n) =
      actionOf (autom.event symbol pattern) := actionOf_delivery hts
  have hblame : blame (delivery P cls symbol pattern ts n) =
      blame (autom.event symbol pattern) := by
    funext inst
    rw [blame, blame, hact]
    rfl
  have hadvances : advances (delivery P cls symbol pattern ts n) =
      advances (autom.event symbol pattern) := by
    funext inst
    rw [advances, advances, hact]
  rw [Delivery.blames, Delivery.blames, hblame, hadvances]
  rfl

end Event

/-! ## One delivery -/

/-- An error that a clone runs into is reported. -/
theorem err_of_moveClones {ks : List Clone} : ∀ {c : Class} {evs : List Event} {r : Cloned},
    moveClones d ks c evs = .ok r → r.returned = true → ∃ e msg, .err d.cls d.symbol e msg ∈ r.evs := by
  induction ks with
  | nil =>
    intro c evs r h hr
    cases h
    cases hr
  | cons k ks ih =>
    intro c evs r h hr
    simp only [moveClones] at h
    split at h
    · cases h
    · next e he =>
      cases h
      exact ⟨e, .failedToClone, List.mem_append_right _ List.mem_cons_self⟩
    · split at h
      · exact ih h hr
      · next e _ _ =>
        cases h
        exact ⟨_, .failedToUnion, List.mem_append_right _ List.mem_cons_self⟩

/-- A delivery that gets to its end: all the slots in use are scanned, and all the copies made. -/
inductive Whole (d : Delivery) (c : Class) (evs : List Event) : Class → List Event → Prop
  | ends {m : Nat} {c₁ : Class} {new : List Event}
      (passed : ∀ inst ∈ c.tcInstances.drop m, instanceActive inst = false)
      (grown : Grown (scanned d c m) (forkCopies d (c.tcInstances.take m)) c₁)
      (quiet : ∀ ev ∈ new, ev.ofClone = true) :
      Whole d c evs (if (c.tcInstances.take m).any (cleansUp d) then classReset c₁ else c₁)
        (evs ++ (slotEvents d 0 (c.tcInstances.take m) ++ (new ++
          if (c.tcInstances.take m).any (advances d) then []
          else [.noInstance d.cls d.symbol d.pattern])))

/-- A delivery gets to its end unless it reports an error. -/
theorem whole_of_deliver (hwf : c.WF) (hsize : c.tcLimit < 2 ^ 31)
    (hcalm : ∀ symbol e msg, .err d.cls symbol e msg ∉ evs')
    (h : deliver d c evs = .ok (c', evs')) : Whole d c evs c' evs' := by
  rw [deliver_eq] at h
  split at h
  · cases h
  · next s hs =>
    have hm := scan_spec hs
    revert hm
    generalize scanRounds d (List.range c.tcLimit) (Scan.start c evs) = m
    intro hm
    simp only [finish] at h
    split at h
    · next hr =>
      cases h
      refine absurd ?_ (hcalm d.symbol .enomem .tooManyClones)
      rw [hm.evs, if_pos hr]
      simp
    · next hr =>
      obtain ⟨_, hstop⟩ := hm.stop.resolve_left fun h => hr h.1
      have hpass := inactive_of_stop hwf (by omega) hstop
      split at h
      · cases h
      · next r hclone =>
        split at h
        · next hret =>
          cases h
          obtain ⟨e, msg, hmem⟩ := err_of_moveClones hclone hret
          exact absurd hmem (hcalm d.symbol e msg)
        · next hret =>
          cases h
          have hins : { c with tcInstances := s.insts } = scanned d c m := by
            rw [hm.insts]
            rfl
          have hcl : s.clones = forks d 0 (c.tcInstances.take m) := by
            rw [hm.clones]
            rfl
          obtain ⟨hnoted, hcopies⟩ := scanned_noted (d := d) (c := c) m
          rw [hins, hcl] at hclone
          obtain ⟨n, hn⟩ := moveClones_spec hnoted hclone
          obtain ⟨new, hnew, hquiet⟩ := hn.evs
          have hgrown := hn.grown
          rw [hn.done (Bool.eq_false_iff.mpr hret), List.take_length, hcopies] at hgrown
          have hevs : r.evs = evs ++ (slotEvents d 0 (c.tcInstances.take m) ++ new) := by
            rw [hnew, hm.evs, if_neg hr, List.append_nil, List.append_assoc]
            rfl
          have hcleanup : s.cleanup = (c.tcInstances.take m).any (cleansUp d) := hm.cleanup
          have hmatched : s.matched = (c.tcInstances.take m).any (advances d) := hm.matched
          have hall : (if s.matched then r.evs
              else r.evs ++ [.noInstance d.cls d.symbol d.pattern]) =
              evs ++ (slotEvents d 0 (c.tcInstances.take m) ++ (new ++
                if (c.tcInstances.take m).any (advances d) then []
                else [.noInstance d.cls d.symbol d.pattern])) := by
            rw [hevs, hmatched]
            split <;> simp
          rw [hcleanup, hall]
          exact .ends hpass hgrown hquiet

/-! ## The active instances -/

/-- Nothing is asked of an instance that is not active. -/
theorem ignore_of_inactive (h : instanceActive inst = false) : actionOf d inst = .ok .ignore :=
  action_inactive h

theorem filterMap_active {β : Type} {f : Instance → Option β}
    (h : ∀ inst, instanceActive inst = false → f inst = none) (insts : List Instance) :
    (insts.filter instanceActive).filterMap f = insts.filterMap f := by
  rw [List.filterMap_filter]
  refine List.filterMap_congr fun inst _ => ?_
  cases hact : instanceActive inst with
  | false => exact (h inst hact).symm
  | true => rfl

theorem any_active {f : Instance → Bool} (h : ∀ inst, instanceActive inst = false → f inst = false)
    (insts : List Instance) : (insts.filter instanceActive).any f = insts.any f := by
  rw [List.any_filter]
  refine List.any_congr rfl fun inst => ?_
  cases hact : instanceActive inst with
  | false => rw [h inst hact, Bool.and_false]
  | true => exact Bool.true_and _

theorem blame_inactive (h : instanceActive inst = false) : blame d inst = none := by
  rw [blame, ignore_of_inactive h]

theorem advances_inactive (h : instanceActive inst = false) : advances d inst = false := by
  rw [advances, ignore_of_inactive h]

theorem deal_coe (insts : List Instance) : d.deal insts =
    ((insts.map (outcome d) ++ forkCopies d insts).filter instanceActive : List Instance) := by
  rw [Delivery.deal, Multiset.map_coe, Multiset.filterMap_coe, Multiset.coe_add, Multiset.filter_coe]
  simp only [Bool.decide_eq_true, forkCopies]

theorem any_iff_bag (f : Instance → Bool) :
    (c.tcInstances.filter instanceActive).any f = true ↔ ∃ inst ∈ c.bag, f inst = true := by
  rw [List.any_eq_true]
  rfl

theorem Whole.reset (h : Whole d c evs c' evs') (hclean : ∃ inst ∈ c.bag, cleansUp d inst = true) :
    c'.tcLimit = c'.tcFree := by
  cases h with
  | ends hpass hgrown hquiet =>
    rw [← any_iff_bag, ← filter_take_of_passed hpass, any_cleansUp_filter] at hclean
    rw [if_pos hclean]
    simp

theorem Whole.bag (h : Whole d c evs c' evs') (hclean : ¬ ∃ inst ∈ c.bag, cleansUp d inst = true) :
    c'.bag = d.deal c.bag ∧ c'.tcLimit = c.tcLimit ∧ c'.tcFree ≤ c.tcFree := by
  cases h with
  | ends hpass hgrown hquiet =>
    rw [← any_iff_bag, ← filter_take_of_passed hpass, any_cleansUp_filter] at hclean
    rw [if_neg hclean]
    refine ⟨?_, hgrown.tcLimit.trans (scanned_tcLimit _), ?_⟩
    · have hperm := hgrown.perm
      rw [List.filter_append, filter_scanned_of_passed hpass, forkCopies_of_passed hpass,
        ← List.filter_append] at hperm
      rw [Class.bag, Class.bag, deal_coe]
      exact (Multiset.coe_eq_coe.mpr hperm).symm
    · have hfree := hgrown.tcFree
      rw [scanned_tcFree] at hfree
      omega

theorem Whole.bagged (h : Whole d c evs c' evs') :
    Runtime.bagged evs' = Runtime.bagged evs + d.blames c.bag := by
  cases h with
  | @ends m _ _ hpass hgrown hquiet =>
    have hblame : (c.tcInstances.take m).filterMap (blame d) =
        (c.tcInstances.filter instanceActive).filterMap (blame d) := by
      rw [← filter_take_of_passed hpass, filterMap_active fun _ => blame_inactive]
    have hadvance : (c.tcInstances.take m).any (advances d) = true ↔
        ∃ inst ∈ c.bag, advances d inst = true := by
      rw [← any_iff_bag, ← filter_take_of_passed hpass, any_active fun _ => advances_inactive]
    simp only [bagged_append, bagged_slotEvents, bagged_of_ofClone hquiet, hblame, zero_add]
    rw [Delivery.blames]
    by_cases hadv : ∃ inst ∈ c.bag, advances d inst = true
    · rw [if_pos hadv, if_pos (hadvance.mpr hadv)]
      rfl
    · rw [if_neg hadv, if_neg (mt hadvance.mp hadv)]
      rfl

/-! ## One event -/

theorem bag_of_unused (hwf : c.WF) (hempty : c.tcLimit = c.tcFree) : c.bag = 0 := by
  rw [Class.bag, hwf.filter_of_empty hempty]
  rfl

/-- The instances that late initialisation makes. -/
theorem bag_of_init (hwf : c.WF) (hempty : c.tcLimit = c.tcFree)
    (hst : ∀ t ∈ initHits autom, t.toState ≠ 0)
    (hg : Grown c ((initHits autom).map initInstance) c') : c'.bag = autom.beginnings := by
  have hall : ((initHits autom).map initInstance).filter instanceActive =
      (initHits autom).map initInstance := by
    rw [List.filter_eq_self]
    intro x hx
    obtain ⟨t, ht, rfl⟩ := List.mem_map.mp hx
    exact active_of_state (hst t ht)
  have hperm := hg.perm
  rw [List.filter_append, hwf.filter_of_empty hempty, List.nil_append, hall] at hperm
  exact (Multiset.coe_eq_coe.mpr hperm).symm

/-- The event has been delivered to the class `c₁`. -/
inductive Served (P : Program) (autom : Automaton) (cls symbol : Nat) (pattern : Key)
    (c₁ c' : Class) (evs : List Event) : Prop
  | intro {ts : List Transition} {maxClones : Nat} {evs₁ : List Event}
      (onSymbol : autom.taTransitions[symbol]? = some ts) (quiet : Runtime.bagged evs₁ = 0)
      (whole : Whole (delivery P cls symbol pattern ts maxClones) c₁ evs₁ c' evs) :
      Served P autom cls symbol pattern c₁ c' evs

/-- Unless an error is reported, the event is delivered: to the class as it is, or as late
initialisation leaves it. -/
theorem served_of_updateFound (hwf : c.WF) (hsize : c.tcLimit < 2 ^ 31)
    (hcalm : ∀ symbol e msg, .err cls symbol e msg ∉ evs)
    (h : updateFound P autom cls symbol pattern c ls = .ok (c', ls', evs)) :
    ∃ c₁ : Class, c₁.WF ∧ c₁.tcLimit ≠ c₁.tcFree ∧
      Served P autom cls symbol pattern c₁ c' evs ∧
      (c.tcLimit ≠ c.tcFree ∧ c₁ = c ∧ ls' = ls ∨
        c.tcLimit = c.tcFree ∧ c₁.bag = autom.beginnings ∧ register ls cls = .ok ls') := by
  unfold updateFound at h
  split at h
  · cases h
  · next hp =>
    cases h
    cases prepare_spec hp with
    | failed => exact absurd List.mem_cons_self (hcalm _ _ _)
  · next c₁ ls₁ evs₁ hp =>
    split at h
    · cases h
    · next ts hts =>
      split at h
      · cases h
      · split at h
        · cases h
        · split at h
          · cases h
          · next hd =>
            cases h
            cases prepare_spec hp with
            | ready hused =>
              have hwhole := whole_of_deliver hwf hsize hcalm hd
              exact ⟨c, hwf, hused, .intro hts rfl hwhole, .inl ⟨hused, rfl, rfl⟩⟩
            | init hempty hhits hgrown hst hreg =>
              have hlimit := hgrown.tcLimit
              have hfree := hgrown.tcFree
              have hpos : 0 < (initHits autom).length := List.length_pos_iff.mpr hhits
              rw [List.length_map] at hfree
              have hwhole := whole_of_deliver (hwf.grown hgrown) (by omega) hcalm hd
              exact ⟨c₁, hwf.grown hgrown, by omega, .intro hts rfl hwhole,
                .inr ⟨hempty, bag_of_init hwf hempty hst hgrown, hreg⟩⟩

theorem not_cleansUp (h : ∀ t ∈ d.trans, t.cleanup = false) : cleansUp d inst = false := by
  by_contra hne
  have htrue := Bool.eq_true_of_not_eq_false hne
  have hact := cleansUp_active htrue
  rw [cleansUp] at htrue
  split at htrue
  · next t ht => rw [h t (action_spec ht hact).1.mem] at htrue; cases htrue
  · next t ht => rw [h t (action_spec ht hact).1.mem] at htrue; cases htrue
  · next t ht => rw [h t (action_spec ht hact).1.mem] at htrue; cases htrue
  · cases htrue

section Served
variable {c₁ : Class} (h : Served P autom cls symbol pattern c₁ c' evs)
include h

theorem Served.reset
    (hclean : ∃ inst ∈ c₁.bag, cleansUp (autom.event symbol pattern) inst = true) :
    c'.tcLimit = c'.tcFree := by
  obtain ⟨hts, _, hwhole⟩ := h
  exact hwhole.reset (by rwa [cleansUp_delivery hts])

theorem Served.bag (hwf : c₁.WF) (hused : c₁.tcLimit ≠ c₁.tcFree)
    (hclean : ¬ ∃ inst ∈ c₁.bag, cleansUp (autom.event symbol pattern) inst = true) :
    c'.tcLimit ≠ c'.tcFree ∧ c'.bag = (autom.event symbol pattern).deal c₁.bag := by
  obtain ⟨hts, _, hwhole⟩ := h
  obtain ⟨hbag, hlimit, hfree⟩ := hwhole.bag (by rwa [cleansUp_delivery hts])
  refine ⟨?_, hbag.trans (deal_delivery hts)⟩
  have hbound := hwf.bound
  omega

theorem Served.bagged :
    Runtime.bagged evs = (autom.event symbol pattern).blames c₁.bag := by
  obtain ⟨hts, hquiet, hwhole⟩ := h
  rw [hwhole.bagged, hquiet, zero_add, blames_delivery hts]

end Served

theorem Automaton.bag_hears (P : Program) (a : Ptr) :
    (P.automaton a).bag.Hears (bagReading (P.automaton a)) P a where
  same _ _ _ _ _ := rfl
  stays cls symbol pattern M hfits := by
    have hnone : ¬ ∃ inst ∈ M, cleansUp ((P.automaton a).event symbol pattern) inst = true := by
      rintro ⟨inst, _, hinst⟩
      rw [not_cleansUp (d := (P.automaton a).event symbol pattern) hfits] at hinst
      cases hinst
    simp only [Automaton.bag, if_neg hnone, Option.isSome_some]
  unused _ := Iff.rfl
  claim c q b h := by
    cases q with
    | none => exact h
    | some M => exact h
  nothing _ := rfl
  append _ es es' os os' h h' := by
    show bagged (es ++ es') = (os ++ os').sum
    rw [bagged_append, List.sum_append]
    exact congrArg₂ (· + ·) h h'
  heard cls symbol pattern c c' ls ls' q evs hwf hsize hholds _ hbears hok := by
    have hcalm : ∀ symbol e msg, .err cls symbol e msg ∉ evs :=
      fun symbol e msg hmem => hbears _ hmem symbol e msg rfl
    obtain ⟨c₁, hwf₁, hused, hserved, hbegin⟩ := served_of_updateFound hwf hsize hcalm hok
    -- the bag that is scanned
    have hbag : c₁.bag = q.getD (P.automaton a).beginnings := by
      cases q with
      | none =>
        obtain ⟨hne, _, _⟩ | ⟨_, hbag, _⟩ := hbegin
        · exact absurd hholds hne
        · exact hbag
      | some M =>
        obtain ⟨_, rfl, _⟩ | ⟨heq, _, _⟩ := hbegin
        · exact hholds.2
        · exact absurd heq hholds.1
    have habout := failuresOf_self (updateFound_spec hok).about
    refine ⟨?_, ?_, ?_⟩
    · show (bagReading (P.automaton a)).holds c' (ite _ _ _)
      rw [show (P.automaton a).bag.start = (P.automaton a).beginnings from rfl, ← hbag]
      split
      · next hclean => exact hserved.reset hclean
      · next hclean => exact hserved.bag hwf₁ hused hclean
    · show bagged (failuresOf cls evs) = List.sum [_]
      rw [habout, bagged_failures, hserved.bagged, hbag, List.sum_singleton]
      rfl
    · cases q with
      | none =>
        obtain ⟨hne, _, _⟩ | ⟨_, _, hreg⟩ := hbegin
        · exact absurd hholds hne
        · exact hreg
      | some M =>
        obtain ⟨_, _, rfl⟩ | ⟨heq, _, _⟩ := hbegin
        · rfl
        · exact absurd heq hholds.1

/-! ## Runs -/

/-- The runs of the library in which no error is reported for the class of `a`, and in which the
calls for `a` leave cleaning up to the sunsets. -/
abbrev BagTrace (P : Program) (a : Ptr) (classes instances : UInt32) :
    List Call → Store → List Event → Prop :=
  Heeded (bagReading (P.automaton a)) P a classes instances

instance (autom : Automaton) (a : Ptr) : (k : Call) → Decidable ((bagReading autom).Ordinary a k)
  | .updateState .. => inferInstanceAs (Decidable (_ → ∀ t ∈ autom.onSymbol _, t.cleanup = false))
  | .sunrise _ | .sunset .. => inferInstanceAs (Decidable True)

/-- Making a call, if it is one that the bag is about. -/
def bagCall (P : Program) (a : Ptr) (s : Store) (k : Call) : Option (Store × List Event) :=
  if (bagReading (P.automaton a)).Ordinary a k ∧ HasRoom P a s k then
    (call P s k).toOption.filter fun r => r.2.all fun ev => !ev.isErr
  else none

/-- Making calls one after the other, with all that is reported. -/
def bagCalls (P : Program) (a : Ptr) (s : Store) (ks : List Call) : Option (Store × List Event) :=
  ks.foldlM (fun r k => (bagCall P a r.1 k).map fun r' => (r'.1, r.2 ++ r'.2)) (s, [])

section Runs
variable {P' : Program} {s s' : Store} {cls' : Nat} {ks ks' : List Call}
  {classes classes' instances instances' : UInt32}

theorem bagTrace_of_calls (h : bagCalls P a (storeInit classes instances) ks = some (s, evs)) :
    BagTrace P a classes instances ks s evs := by
  have hcall : ∀ {s t : Store} {k : Call} {evs : List Event}, bagCall P a s k = some (t, evs) →
      Heeds (bagReading (P.automaton a)) P a s k t evs := by
    intro s t k evs hk
    rw [bagCall] at hk
    split at hk
    · next hok =>
      obtain ⟨hcalled, hcalm⟩ := Option.filter_eq_some_iff.mp hk
      refine ⟨ok_of_toOption hcalled, hok.1, hok.2, fun _ _ ev hev symbol e msg herr => ?_⟩
      have hnot := List.all_eq_true.mp hcalm ev hev
      rw [herr] at hnot
      cases hnot
    · cases hk
  obtain ⟨evs', rfl, htrace⟩ :=
    @Trace.of_exec _ _ _ (Heeds (bagReading (P.automaton a)) P a) (bagCall P a) hcall _ _ _ _ _ h
  exact htrace

theorem BagTrace.explained (hsize : instances.toNat < 2 ^ 31)
    (h : BagTrace P a classes instances ks s evs) (cls : Nat) :
    Explained (bagReading (P.automaton a)) P a cls s
      (((P.automaton a).bag.watch (P.automaton a) a cls).run ks).1 evs
      (((P.automaton a).bag.watch (P.automaton a) a cls).run ks).2 :=
  Heeded.explained (Automaton.bag_hears P a) hsize h cls

/-- Symbol 0 starts, 1 binds variable 0 to an object, 2 uses the object, 3 cleans up. -/
def bindUse : Automaton where
  taTransitions := [[⟨0, 0, 1, 0, 2⟩], [⟨1, 0, 2, 1, 0⟩], [⟨2, 1, 3, 1, 0⟩],
    [⟨1, 0, 4, 0, 4⟩, ⟨3, 1, 4, 1, 4⟩]]
  taCleanupSymbol := 3
  taLifetime := callLifetime

/-- Two objects are bound, and one of them is used twice. -/
def usedTwice : List Call :=
  [.sunrise callLifetime, .updateState 7 1 (Key.of 5), .updateState 7 1 (Key.of 7),
    .updateState 7 2 (Key.of 5), .updateState 7 2 (Key.of 5)]

theorem usedTwice_trace : ∃ s evs c, BagTrace ⟨fun _ => bindUse, false⟩ 7 2 4 usedTwice s evs ∧
    s.tsClasses[1]? = some c ∧ c.tcAutomaton = some 7 := by
  have hrun : ((bagCalls ⟨fun _ => bindUse, false⟩ 7 (storeInit 2 4) usedTwice).any fun r =>
      r.1.tsClasses[1]?.any fun c => c.tcAutomaton = some 7) = true := by
    decide +kernel
  obtain ⟨⟨s, evs⟩, hcalls, hclass⟩ := (Option.any_eq_true ..).mp hrun
  obtain ⟨c, hc, hown⟩ := (Option.any_eq_true ..).mp hclass
  exact ⟨s, evs, c, bagTrace_of_calls hcalls, hc, of_decide_eq_true hown⟩

theorem Class.HoldsBag.same {q : Option (Multiset Instance)} (h : c.HoldsBag q) (hwf : c.WF)
    (hwf' : c'.WF) (h' : c'.HoldsBag q) :
    (c.tcLimit = c.tcFree ↔ c'.tcLimit = c'.tcFree) ∧ c.bag = c'.bag := by
  cases q with
  | none =>
    rw [bag_of_unused hwf h, bag_of_unused hwf' h']
    exact ⟨⟨fun _ => h', fun _ => h⟩, rfl⟩
  | some M => exact ⟨⟨fun he => absurd he h.1, fun he => absurd he h'.1⟩, h.2.trans h'.2.symm⟩

/-- The program of `usedTwice`, with another automaton beside. -/
def besideForkJoin : Program := ⟨fun p => if p = 7 then bindUse else forkJoin, true⟩

end Runs

end Tesla.Runtime
