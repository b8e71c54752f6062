/-
# `Tesla.Runtime.Chain` — one event of the program, several symbols

The symbols of an automaton are patterns, and one call of a function can match several of
them.  The instrumentation then calls `tesla_update_state` for each in turn, and the second
call sees the class as the first has left it.  An instance that the first symbol has moved,
or made, is moved once more if the second symbol has a transition from where it is:

    t on the first symbol    enters state q, with the values of its key
    u on the second          leaves state q, and its key has no other values     `Continues`

`oneStep` follows the slots whose instance has had its step through the chain of calls.  If
none of the symbols continues an earlier one (`Unchained`), no instance makes two steps,
whatever the class is when the chain begins (`oneStep_of_unchained`).
-/
import Tesla.Runtime.Reports

namespace Tesla.Runtime

/-! ## The steps of a chain of calls -/

/-- The scan that an update makes, and the class and notifications it begins with. -/
structure Passage where
  d : Delivery
  cls : Class
  evs : List Event

/-- An update makes a scan unless late initialisation ends it, or an assertion on the symbol's
transitions. -/
def passage (P : Program) (autom : Automaton) (cls symbol : Nat) (pattern : Key) (c : Class)
    (ls : LifetimeState) : Option Passage :=
  match prepare autom cls symbol c ls, autom.taTransitions[symbol]? with
  | .ok (.go c₁ _ evs), some ts =>
      if ts.length = 0 ∨ 10000 ≤ ts.length then none
      else some ⟨delivery P cls symbol pattern ts c.tcFree, c₁, evs⟩
  | _, _ => none

/-- The slots that the scan handles. -/
def Passage.handled (p : Passage) : Nat := rounds p.d p.cls p.evs

/-- The scan UPDATEs the instance. -/
def updates (d : Delivery) (inst : Instance) : Bool :=
  match actionOf d inst with
  | .ok (.update _) => true
  | _ => false

/-- Does slot `j` of `c'`, the class that the update leaves, hold an instance that has had its
step?  It is a copy if the slot was free when the scan was over.  A FORK is the step of the copy:
the instance it is made from stays where it is. -/
def Passage.spent (p : Passage) (c' : Class) (spent : Nat → Bool) (j : Nat) : Bool :=
  (c'.tcInstances[j]?).any instanceActive &&
    (!((scanned p.d p.cls p.handled).tcInstances[j]?).any instanceActive ||
      (decide (j < p.handled) && (p.cls.tcInstances[j]?).any (updates p.d)) || spent j)

/-- The scan moves no instance that has had its step. -/
def Passage.calm (p : Passage) (spent : Nat → Bool) : Bool :=
  (List.range p.handled).all fun j =>
    !(spent j && (p.cls.tcInstances[j]?).any (takes p.d))

/-- In the calls of `tesla_update_state` for the symbols and keys of a list, no instance moves
that has had its step: that was moved before, or made by a FORK, or was in one of the slots
`spent` to begin with.  The lifetime is open, else the calls are ignored; and the program ends
with an assertion that fails. -/
def oneStep (P : Program) (autom : Automaton) (cls : Nat) :
    List (Nat × Key) → Class → LifetimeState → (Nat → Bool) → Bool
  | [], _, _, _ => true
  | (symbol, pattern) :: rest, c, ls, spent =>
      let p := passage P autom cls symbol pattern c ls
      p.all (·.calm spent) &&
        match updateFound P autom cls symbol pattern c ls with
        | .error _ => true
        | .ok (c', ls', _) =>
            oneStep P autom cls rest c' ls' (p.elim spent fun p => p.spent c' spent)

/-! ## Symbols that continue one another -/

/-- The transitions on a symbol. -/
def Automaton.onSymbol (autom : Automaton) (symbol : Nat) : List Transition :=
  (autom.taTransitions[symbol]?).getD []

/-- The mask of an instance that has taken `t` on an event with key `k`. -/
def reachedMask (k : Key) (t : Transition) : Mask :=
  if t.Gains then t.fromMask ||| (newName k t).tkMask else t.fromMask

/-- An instance that takes `t` on an event with key `k` can go on with `u` on one with key `k'`:
it is still there, in the state and under the mask that `u` leaves, and `u` is a JOIN, for which
names are not compared, or `k'` has the values that the instance got from `k`. -/
def Continues (k : Key) (t : Transition) (k' : Key) (u : Transition) : Prop :=
  (t.Loses → t.cleanup = true) ∧ t.toState = u.fromState ∧ reachedMask k t = u.fromMask ∧
    ((u.Loses ∧ u.cleanup = false) ∨ (newName k t).Agrees k')

instance (k : Key) (t : Transition) (k' : Key) (u : Transition) : Decidable (Continues k t k' u) :=
  inferInstanceAs (Decidable ((_ → _) ∧ _ ∧ _ ∧ (_ ∨ _)))

/-- No transition on the symbol of `y` continues one on the symbol of `x`. -/
def ApartFrom (autom : Automaton) (x y : Nat × Key) : Prop :=
  ∀ t ∈ autom.onSymbol x.1, ∀ u ∈ autom.onSymbol y.1, ¬ Continues x.2 t y.2 u

instance (autom : Automaton) (x y : Nat × Key) : Decidable (ApartFrom autom x y) :=
  inferInstanceAs (Decidable (∀ t ∈ autom.onSymbol x.1, ∀ u ∈ autom.onSymbol y.1, ¬ _))

/-- None of the symbols continues an earlier one. -/
def Unchained (autom : Automaton) (xs : List (Nat × Key)) : Prop := xs.Pairwise (ApartFrom autom)

instance (autom : Automaton) (xs : List (Nat × Key)) : Decidable (Unchained autom xs) :=
  inferInstanceAs (Decidable (List.Pairwise _ _))

/-! ## Where an instance is that has had its step -/

variable {P : Program} {autom : Automaton} {cls symbol : Nat} {pattern k k' : Key} {c c' : Class}
  {ls ls' : LifetimeState} {d : Delivery} {evs evs' : List Event} {m : Nat} {inst : Instance}
  {t u : Transition} {spent : Nat → Bool}

/-- The instance is as `t` leaves it on an event with key `k`. -/
structure Made (k : Key) (t : Transition) (inst : Instance) : Prop where
  kept : t.Loses → t.cleanup = true
  state : inst.tiState = t.toState
  mask : inst.tiKey.tkMask = reachedMask k t
  words : ∀ i : Fin keySize, (newName k t).tkMask.getLsbD i = true →
    inst.tiKey.tkKeys i = k.tkKeys i

/-- What an event adds to a name is under the mask afterwards. -/
theorem newName_reachedMask {i : Nat} (h : (newName k t).tkMask.getLsbD i = true) :
    (reachedMask k t).getLsbD i = true := by
  rw [reachedMask]
  split
  · rw [BitVec.getLsbD_or, h, Bool.or_true]
  · rename_i hgain
    rw [newName, BitVec.getLsbD_and, Bool.and_eq_true] at h
    exact subMask_iff.mp (not_not.mp hgain) i h.2

theorem Made.of_update (h : actionOf d inst = .ok (.update t)) :
    Made d.pattern t { inst with tiState := t.toState } := by
  obtain ⟨hl, hkept, hgain, hm⟩ := action_spec h (active_of_action h (by simp))
  have hmask : reachedMask d.pattern t = inst.tiKey.tkMask := by
    rw [reachedMask, if_neg hgain, hl.mask]
  rw [maskedName_matches] at hm
  refine ⟨hkept, rfl, hmask.symm, fun i hi => ?_⟩
  have hfrom := newName_reachedMask hi
  rw [hmask, ← hl.mask] at hfrom
  refine ((keyMatches_iff.mp hm).2 i ?_).symm
  rw [newName, BitVec.getLsbD_and, Bool.and_eq_true] at hi
  rw [eventPattern, BitVec.getLsbD_and, hi.1, hfrom]
  rfl

theorem Made.of_fork (h : actionOf d inst = .ok (.fork t)) :
    Made d.pattern t (forkCopy d inst t) := by
  obtain ⟨hl, hkept, hgain, _⟩ := action_spec h (active_of_action h (by simp))
  obtain ⟨hmask, _, hwords⟩ := keyUnion_success (fork_agrees h)
  refine ⟨hkept, rfl, ?_, hwords⟩
  rw [reachedMask, if_pos hgain, hl.mask]
  exact hmask

/-- The transition that an instance takes leaves its state, and is a JOIN or compares names. -/
theorem takes_leaves (h : takes d inst = true) : ∃ u, Leaves inst d.trans u ∧
    ((u.Loses ∧ u.cleanup = false) ∨ keyMatches (eventPattern d.pattern u) inst.tiKey = true) := by
  rw [takes] at h
  split at h
  · rename_i u hu
    obtain ⟨hl, _, _, hm⟩ := action_spec hu (active_of_action hu (by simp))
    rw [maskedName_matches] at hm
    exact ⟨u, hl, .inr hm⟩
  · rename_i u hu
    obtain ⟨hl, _, _, hm⟩ := action_spec hu (active_of_action hu (by simp))
    exact ⟨u, hl, .inr hm⟩
  · rename_i u hu
    obtain ⟨hl, hjoin⟩ := action_spec hu (active_of_action hu (by simp))
    exact ⟨u, hl, .inl hjoin⟩
  · cases h

/-- An instance that has taken `t` and moves again goes on with a transition that continues it. -/
theorem Made.continues (hmade : Made k t inst) (h : takes d inst = true) :
    ∃ u ∈ d.trans, Continues k t d.pattern u := by
  obtain ⟨u, hl, hname⟩ := takes_leaves h
  have hmask : reachedMask k t = u.fromMask := by rw [← hmade.mask, hl.mask]
  refine ⟨u, hl.mem, hmade.kept, by rw [← hmade.state, hl.state], hmask, hname.imp_right fun hm => ?_⟩
  intro i hi hi'
  have hfrom : (eventPattern d.pattern u).tkMask.getLsbD i = true := by
    rw [eventPattern, BitVec.getLsbD_and, hi', ← hmask, newName_reachedMask hi]
    rfl
  exact (hmade.words i hi).symm.trans ((keyMatches_iff.mp hm).2 i hfrom).symm

/-! ## The invariant of the chain -/

/-- The instances in the slots `spent` are as a transition on one of the symbols `xs` leaves
them. -/
def AtRest (autom : Automaton) (xs : List (Nat × Key)) (c : Class) (spent : Nat → Bool) : Prop :=
  ∀ j, spent j = true → ∃ inst, c.tcInstances[j]? = some inst ∧ instanceActive inst = true ∧
    ∃ x ∈ xs, ∃ t ∈ autom.onSymbol x.1, Made x.2 t inst

variable {xs : List (Nat × Key)} {x : Nat × Key}

theorem AtRest.grown {insts : List Instance} (h : AtRest autom xs c spent)
    (hg : Grown c insts c') : AtRest autom xs c' spent := by
  intro j hj
  obtain ⟨inst, hslot, hact, hx⟩ := h j hj
  exact ⟨inst, hg.frame hslot hact, hact, hx⟩

theorem AtRest.mono (h : AtRest autom xs c spent) : AtRest autom (xs ++ [x]) c spent := by
  intro j hj
  obtain ⟨inst, hslot, hact, y, hy, hmade⟩ := h j hj
  exact ⟨inst, hslot, hact, y, List.mem_append_left _ hy, hmade⟩

/-- An active instance of the class that a delivery leaves was there when the scan was over, or
is a copy. -/
theorem Delivered.slot (h : Delivered d c evs m c' evs') {j : Nat}
    (hj : c'.tcInstances[j]? = some inst) (hact : instanceActive inst = true) :
    (scanned d c m).tcInstances[j]? = some inst ∨ inst ∈ forkCopies d (c.tcInstances.take m) := by
  cases h with
  | full => exact .inl hj
  | cloned _ hg => exact (hg.slot hj).imp_right List.mem_of_mem_take
  | done _ hg =>
      split at hj
      · rw [List.eq_of_mem_replicate (List.mem_of_getElem? hj), instanceActive_zero] at hact
        cases hact
      · exact hg.slot hj

theorem made_of_forkCopies {insts : List Instance} (h : inst ∈ forkCopies d insts) :
    ∃ t ∈ d.trans, Made d.pattern t inst := by
  obtain ⟨orig, _, hcopy⟩ := List.mem_filterMap.mp h
  obtain ⟨t, ht, rfl⟩ := forkCopy?_eq_some.mp hcopy
  exact ⟨t, (action_spec ht (active_of_action ht (by simp))).1.mem, .of_fork ht⟩

theorem made_of_updates (h : updates d inst = true) :
    ∃ t ∈ d.trans, Made d.pattern t (outcome d inst) := by
  rw [updates] at h
  split at h
  · rename_i t ht
    rw [outcome, ht]
    exact ⟨t, (action_spec ht (active_of_action ht (by simp))).1.mem, .of_update ht⟩
  · cases h

theorem outcome_of_not_updates (h : updates d inst = false)
    (hact : instanceActive (outcome d inst) = true) : outcome d inst = inst := by
  rcases outcome_cases (d := d) inst with ho | ⟨t, ht, _⟩ | ⟨t, _, ho⟩
  · exact ho
  · rw [updates, ht] at h
    cases h
  · rw [ho, instanceActive_zero] at hact
    cases hact

/-- What a delivery of `x` leaves in a slot that counts as spent. -/
theorem AtRest.delivered {p : Passage} (h : AtRest autom xs p.cls spent)
    (hd : Delivered p.d p.cls evs p.handled c' evs') (htrans : p.d.trans = autom.onSymbol x.1)
    (hpat : p.d.pattern = x.2) : AtRest autom (xs ++ [x]) c' (p.spent c' spent) := by
  intro j hj
  rw [Passage.spent, Bool.and_eq_true, Option.any_eq_true] at hj
  obtain ⟨⟨inst, hslot, hact⟩, hwhy⟩ := hj
  refine ⟨inst, hslot, hact, ?_⟩
  have hnew : (∃ t ∈ p.d.trans, Made p.d.pattern t inst) →
      ∃ y ∈ xs ++ [x], ∃ t ∈ autom.onSymbol y.1, Made y.2 t inst := by
    rw [htrans, hpat]
    exact fun hmade => ⟨x, List.mem_append_right _ List.mem_cons_self, hmade⟩
  rcases hd.slot hslot hact with hmid | hcopy
  · -- the instance was there when the scan was over, and so before it
    have hlt : j < p.cls.tcInstances.length := by
      have hlen := (List.getElem?_eq_some_iff.mp hmid).1
      rwa [← Class.tcLimit, scanned_tcLimit] at hlen
    obtain ⟨old, hold⟩ : ∃ old, p.cls.tcInstances[j]? = some old :=
      ⟨_, List.getElem?_eq_getElem hlt⟩
    have hsame := scanned_slot (d := p.d) (m := p.handled) hold
    rw [hmid, Option.some.injEq] at hsame
    by_cases hupd : j < p.handled ∧ updates p.d old = true
    · rw [if_pos hupd.1] at hsame
      exact hnew (hsame ▸ made_of_updates hupd.2)
    · have hspent : spent j = true := by
        simp only [hmid, hold, Option.any_some, hact, Bool.not_true, Bool.false_or,
          Bool.or_eq_true, Bool.and_eq_true, decide_eq_true_eq] at hwhy
        exact hwhy.resolve_left hupd
      have hkeep : inst = old := by
        split at hsame
        · rename_i hlt
          have hno : updates p.d old = false := by
            rw [← Bool.not_eq_true]
            exact fun hu => hupd ⟨hlt, hu⟩
          rw [hsame, outcome_of_not_updates hno (hsame ▸ hact)]
        · exact hsame
      obtain ⟨inst₀, hinst₀, _, y, hy, hmade⟩ := h j hspent
      rw [hold, Option.some.injEq] at hinst₀
      rw [hkeep, hinst₀]
      exact ⟨y, List.mem_append_left _ hy, hmade⟩
  · exact hnew (made_of_forkCopies hcopy)

/-! ## The chain -/

theorem passage_eq_some {p : Passage} (h : passage P autom cls symbol pattern c ls = some p) :
    ∃ ls₁, prepare autom cls symbol c ls = .ok (.go p.cls ls₁ p.evs) ∧
      p.d.trans = autom.onSymbol symbol ∧ p.d.pattern = pattern := by
  unfold passage at h
  split at h
  · rename_i c₁ ls₁ evs ts hp hts
    split at h
    · cases h
    · cases h
      refine ⟨ls₁, hp, ?_, rfl⟩
      rw [Automaton.onSymbol, hts]
      rfl
  · cases h

/-- Late initialisation leaves alone what is there. -/
theorem AtRest.passage {p : Passage} (h : AtRest autom xs c spent)
    (hp : passage P autom cls symbol pattern c ls = some p) : AtRest autom xs p.cls spent := by
  obtain ⟨d, c₁, evs⟩ := p
  obtain ⟨ls₁, hgo, _⟩ := passage_eq_some hp
  cases prepare_spec hgo with
  | ready => exact h
  | init _ _ hg => exact h.grown hg

/-- An update ends with late initialisation, or is a scan and what follows. -/
theorem updateFound_passage
    (hu : updateFound P autom cls symbol pattern c ls = .ok (c', ls', evs)) :
    (passage P autom cls symbol pattern c ls = none ∧ ∃ insts, Grown c insts c') ∨
      ∃ p, passage P autom cls symbol pattern c ls = some p ∧
        Delivered p.d p.cls p.evs p.handled c' evs := by
  unfold updateFound at hu
  split at hu
  · cases hu
  · rename_i hp
    cases hu
    cases prepare_spec hp with
    | failed _ _ hg => exact .inl ⟨by rw [passage, hp], _, hg⟩
  · rename_i c₁ ls₁ evs₁ hp
    split at hu
    · cases hu
    · rename_i ts hts
      split at hu
      · cases hu
      · rename_i hpos
        split at hu
        · cases hu
        · rename_i hmany
          split at hu
          · cases hu
          · rename_i hd
            cases hu
            refine .inr ⟨⟨delivery P cls symbol pattern ts c.tcFree, c₁, evs₁⟩, ?_, ?_⟩
            · rw [passage, hp, hts]
              exact if_neg (not_or.mpr ⟨hpos, hmany⟩)
            · exact (deliver_ends hd).2.1

/-- What an update leaves in the slots that count as spent then. -/
theorem AtRest.updated (h : AtRest autom xs c spent)
    (hu : updateFound P autom cls symbol pattern c ls = .ok (c', ls', evs)) :
    AtRest autom (xs ++ [(symbol, pattern)]) c'
      ((Runtime.passage P autom cls symbol pattern c ls).elim spent fun p => p.spent c' spent) := by
  rcases updateFound_passage hu with ⟨hnone, insts, hg⟩ | ⟨p, hp, hd⟩
  · rw [hnone]
    exact (h.grown hg).mono
  · obtain ⟨_, _, htrans, hpat⟩ := passage_eq_some hp
    rw [hp]
    exact (h.passage hp).delivered hd htrans hpat

/-- A symbol that continues none of the earlier ones moves no instance that has had its step. -/
theorem AtRest.calm {p : Passage} (h : AtRest autom xs p.cls spent)
    (hapart : ∀ y ∈ xs, ApartFrom autom y x) (htrans : p.d.trans = autom.onSymbol x.1)
    (hpat : p.d.pattern = x.2) : p.calm spent = true := by
  rw [Passage.calm, List.all_eq_true]
  intro j _
  rw [Bool.not_eq_true', ← Bool.not_eq_true, Bool.and_eq_true, Option.any_eq_true]
  rintro ⟨hj, inst, hslot, htakes⟩
  obtain ⟨inst', hslot', _, y, hy, t, ht, hmade⟩ := h j hj
  rw [hslot, Option.some.injEq] at hslot'
  subst hslot'
  obtain ⟨u, hu, hcont⟩ := hmade.continues htakes
  rw [htrans] at hu
  rw [hpat] at hcont
  exact hapart y hy t ht u hu hcont

theorem oneStep_of_atRest {ys : List (Nat × Key)} (hpair : Unchained autom ys)
    (hapart : ∀ x ∈ xs, ∀ y ∈ ys, ApartFrom autom x y) (h : AtRest autom xs c spent) :
    oneStep P autom cls ys c ls spent = true := by
  induction ys generalizing xs c ls spent with
  | nil => rfl
  | cons y ys ih =>
      obtain ⟨symbol, pattern⟩ := y
      obtain ⟨hy, hpair⟩ := List.pairwise_cons.mp hpair
      rw [oneStep, Bool.and_eq_true]
      refine ⟨?_, ?_⟩
      · rw [Option.all_eq_true]
        intro p hp
        obtain ⟨_, _, htrans, hpat⟩ := passage_eq_some hp
        exact (h.passage hp).calm (x := (symbol, pattern))
          (fun x hx => hapart x hx _ List.mem_cons_self) htrans hpat
      · split
        · rfl
        · rename_i c' ls' evs hu
          refine ih hpair ?_ (h.updated hu)
          intro x hx z hz
          rcases List.mem_append.mp hx with hx | hx
          · exact hapart x hx z (List.mem_cons_of_mem _ hz)
          · rw [List.mem_singleton.mp hx]
            exact hy z hz

/-- No instance moves twice, and no copy moves, in the chain of calls for symbols none of which
continues an earlier one. -/
theorem oneStep_of_unchained (h : Unchained autom xs) :
    oneStep P autom cls xs c ls (fun _ => false) = true := by
  have hnone : AtRest autom [] c fun _ => false := fun _ hj => by cases hj
  exact oneStep_of_atRest h (fun _ hx => (List.not_mem_nil hx).elim) hnone

end Tesla.Runtime
