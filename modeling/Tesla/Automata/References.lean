/-
# `Tesla.Automata.References` — which variables a state knows

A state learns its references from the transition that enters it first; every later
transition is only checked against them.

    refsAt      the references of a state, `none` before the first transition
    enters      what `State::UpdateReferences` asserts of one more transition
    Indexed     the argument at position `i` is variable `i`

On indexed references the assertions come down to `enters`: the others cannot fail.
A state that has nothing but blank references behind it passes them all.
-/
import Tesla.Automata.Steps

namespace Tesla.Automata

open Lib Relation

abbrev References := List (Option Argument)

variable {A Z : Set ℕ} {base s p q x : ℕ} {L : Label → Prop} {l : Label} {g g' : Graph}
  {t : Transition} {R old new : References}

/-! ## Re-entry -/

/-- No variable is bound. -/
def References.blank (R : References) : Bool := R.all (·.isNone)

/-- A state with the references `old` is entered with `new`: either nothing is bound,
or there are as many, and whatever is bound twice is bound to the same argument.  The
mask of a state has 32 bits. -/
def References.admits (old new : References) : Bool :=
  (new.blank || old.length = new.length) && new.length < 32 &&
    new.zipIdx.all fun r => r.1.all fun a => ((old[r.2]?).getD none).all (a = ·)

/-- A state that knows no references yet takes what it is given. -/
def References.enters (known : Option References) (new : References) : Bool :=
  match known with
  | none => new.length < 32
  | some old => old.admits new

theorem References.enters_nil (known : Option References) : References.enters known [] = true := by
  cases known with
  | none => rfl
  | some old => rfl

theorem References.admits_self (h : R.length < 32) : R.admits R = true := by
  simp only [admits, decide_true, Bool.or_true, Bool.true_and, Bool.and_eq_true, decide_eq_true_eq,
    List.all_eq_true]
  refine ⟨h, ?_⟩
  rintro ⟨r, i⟩ hr
  rw [List.mk_mem_zipIdx_iff_getElem?] at hr
  cases r with
  | none => rfl
  | some a => simp [hr]

theorem References.nil_admits (R : References) : References.admits [] R = (R.blank && R.length < 32) := by
  have hlast : (R.zipIdx.all fun r => r.1.all fun a =>
      ((([] : References)[r.2]?).getD none).all (a = ·)) = true := by
    simp
  rw [admits, hlast, Bool.and_true]
  cases R with
  | nil => rfl
  | cons r R => simp

/-- The argument at position `i` is variable `i`. -/
def References.Indexed (R : References) : Prop :=
  ∀ (i : ℕ) (a : Argument), R[i]? = some (some a) → a.argIndex = i

theorem Label.binds_argIndex {i : ℕ} {a : Argument} (h : l.binds i = some a) : a.argIndex = i := by
  have := List.find?_some h
  exact of_decide_eq_true this

theorem referencesThusFar_indexed (l : Label) (h : R.Indexed) :
    References.Indexed (referencesThusFar l R) := by
  intro i a ha
  rw [referencesThusFar, List.getElem?_mapIdx] at ha
  obtain ⟨old, hold, ha⟩ := Option.map_eq_some_iff.mp ha
  obtain hnew | ⟨_, hkept⟩ := Option.or_eq_some_iff.mp ha
  · exact Label.binds_argIndex hnew
  · exact h i a (by rw [hold, hkept])

@[simp] theorem referencesThusFar_null (R : References) : referencesThusFar .null R = R := by
  have hbinds : ∀ i, Label.binds .null i = none := fun _ => rfl
  simp only [referencesThusFar, hbinds, Option.none_or]
  exact List.mapIdx_eq_iff.mpr fun i => by simp

@[simp] theorem referencesThusFar_nil (l : Label) : referencesThusFar l [] = [] := rfl

theorem referencesThusFar_length (l : Label) (R : References) :
    (referencesThusFar l R).length = R.length := by
  rw [referencesThusFar, List.length_mapIdx]

/-- A condition on the variables that are bound, at their positions. -/
theorem References.Indexed.forall_iff (hnew : new.Indexed) {F : Argument → Prop} :
    (∀ r ∈ new, ∀ a ∈ r, F a) ↔
      ∀ r ∈ new.zipIdx, ∀ a ∈ r.1, a.argIndex = r.2 → r.2 < new.length → F a := by
  constructor
  · rintro h ⟨r, i⟩ hr a ha _ _
    exact h r (List.fst_mem_of_mem_zipIdx hr) a ha
  · intro h r hr a ha
    obtain ⟨i, hi⟩ := List.mem_iff_getElem?.mp hr
    obtain rfl := ha
    exact h (some a, i) (List.mk_mem_zipIdx_iff_getElem?.mpr hi) a rfl (hnew i a hi)
      (List.getElem?_eq_some_iff.mp hi).1

theorem all_eq_true_iff {r : Option Argument} {f : Argument → Bool} :
    r.all f = true ↔ ∀ a ∈ r, f a = true := by
  cases r <;> simp

/-- Of the assertions about a state that knows its references only one can fail. -/
theorem referenceChecks_iff {st : State} (hst : st.refs = some old) (hnew : new.Indexed) :
    (∀ c ∈ referenceChecks st new, c.2 = true) ↔
      (new.zipIdx.all fun r => r.1.all fun a => ((old[r.2]?).getD none).all (a = ·)) = true := by
  have href : st.references = old := by rw [State.references, hst, Option.getD_some]
  have hsize : (new.all fun r => r.all fun a => a.argIndex ≤ (new.length : Int)) = true := by
    simp only [List.all_eq_true, all_eq_true_iff, decide_eq_true_eq]
    refine hnew.forall_iff.mpr ?_
    intro r _ a _ hindex hlt
    omega
  -- a constant has no index, so it is not among the references
  have hconstant : (new.zipIdx.all fun r =>
      r.1.all fun a => a.type ≠ .constant || r.2 ∈ st.mask) = true := by
    simp only [List.all_eq_true, all_eq_true_iff]
    rintro ⟨r, i⟩ hr a rfl
    have hindex := hnew i a (List.mk_mem_zipIdx_iff_getElem?.mp hr)
    have htype : a.type ≠ .constant := by
      intro htype
      rw [Argument.argIndex, htype] at hindex
      simp only at hindex
      omega
    simp [htype]
  have hsame : (new.all fun r => r.all fun a => a.argIndex < 0 ||
      ((st.references[a.argIndex.toNat]?).getD none).all (a = ·)) = true ↔
      (new.zipIdx.all fun r => r.1.all fun a => ((old[r.2]?).getD none).all (a = ·)) = true := by
    rw [href]
    simp only [List.all_eq_true, all_eq_true_iff, hnew.forall_iff]
    refine forall₄_congr ?_
    rintro ⟨r, i⟩ hr a rfl
    have hi := List.mk_mem_zipIdx_iff_getElem?.mp hr
    have hindex : a.argIndex = i := hnew i a hi
    have hlt := (List.getElem?_eq_some_iff.mp hi).1
    have hneg : ¬ ((i : Int) < 0) := by omega
    simp [hindex, hlt, hneg, all_eq_true_iff]
  simp only [referenceChecks, List.forall_mem_cons, List.not_mem_nil, false_imp_iff, implies_true,
    and_true, hsize, hconstant, hsame, true_and]

/-! ## Transitions -/

/-- The references of a state, as far as it knows them. -/
def Graph.refsAt (g : Graph) (s : ℕ) : Option References := (g.states[s]?).bind (·.refs)

/-- What a transition from a state brings along. -/
def Graph.refsFrom (g : Graph) (s : ℕ) : References := (g.refsAt s).getD []

theorem Graph.checks_failed (cs : List (Check × Bool)) (g : Graph) :
    (cs.foldl (fun g c => g.check c.1 c.2) g).failed = [] ↔
      g.failed = [] ∧ ∀ c ∈ cs, c.2 = true := by
  induction cs generalizing g with
  | nil => simp
  | cons c cs ih =>
    rw [List.foldl_cons, ih, List.forall_mem_cons, ← and_assoc]
    refine and_congr_left fun _ => ?_
    cases hc : c.2 <;> simp [check]

theorem Graph.refsAt_newState (g : Graph) (start accept : Bool) (name : List ℕ) (x : ℕ) :
    (g.newState start accept name none).2.refsAt x = g.refsAt x := by
  simp only [refsAt, newState, Option.map_none]
  obtain hx | rfl | hx := Nat.lt_trichotomy x g.states.length
  · rw [List.getElem?_append_left hx]
  · simp
  · rw [List.getElem?_eq_none (by simp; omega), List.getElem?_eq_none hx.le]

theorem Graph.refsAt_eq_none (hx : g.states.length ≤ x) : g.refsAt x = none := by
  rw [refsAt, List.getElem?_eq_none hx, Option.bind_none]

section Register

variable (hdest : t.dest < g.states.length)
include hdest

theorem Graph.register_eq : ∃ st, g.states[t.dest]? = some st ∧ st.refs = g.refsAt t.dest ∧
    g.register t = (st.updateReferences t (g.refsFrom t.source)).2.foldl
      (fun g c => g.check c.1 c.2)
      { ({ g with transitions := g.transitions ++ [t] }.check .destNotStart (t.dest ≠ 0)) with
        states := g.states.set t.dest (st.updateReferences t (g.refsFrom t.source)).1 } := by
  obtain ⟨st, hst⟩ : ∃ st, g.states[t.dest]? = some st := ⟨_, List.getElem?_eq_getElem hdest⟩
  have hfrom : ((g.states[t.source]?).map State.references).getD [] = g.refsFrom t.source := by
    rw [refsFrom, refsAt]
    cases g.states[t.source]? <;> rfl
  refine ⟨st, hst, by rw [refsAt, hst, Option.bind_some], ?_⟩
  simp only [register, check_states, hst, hfrom]

/-- The first transition to a state gives it its references; no later one changes them. -/
theorem Graph.refsAt_register (x : ℕ) : (g.register t).refsAt x =
    if x = t.dest then
      some ((g.refsAt t.dest).getD (referencesThusFar t.label (g.refsFrom t.source)))
    else g.refsAt x := by
  obtain ⟨st, hst, href, heq⟩ := register_eq hdest
  rw [refsAt, heq, (checks_states _ _).1]
  simp only
  split
  · next hx =>
    rw [hx, List.getElem?_set_self hdest, ← href, Option.bind_some, State.updateReferences]
    cases hrefs : st.refs with
    | none => rfl
    | some refs =>
      simp only
      split <;> simp [hrefs]
  · next hx => rw [List.getElem?_set_ne (Ne.symm hx), refsAt]

theorem Graph.register_failed (hscope : t.outOfScope = false)
    (hfrom : (g.refsFrom t.source).Indexed) : (g.register t).failed = [] ↔ g.failed = [] ∧
      t.dest ≠ 0 ∧ References.enters (g.refsAt t.dest)
        (referencesThusFar t.label (g.refsFrom t.source)) = true := by
  obtain ⟨st, hst, href, heq⟩ := register_eq hdest
  have hnew := referencesThusFar_indexed t.label hfrom
  have hstart : ({ g with transitions := g.transitions ++ [t] }.check .destNotStart
      (t.dest ≠ 0)).failed = [] ↔ g.failed = [] ∧ t.dest ≠ 0 := by
    by_cases h0 : t.dest = 0 <;> simp [check, h0]
  rw [heq, checks_failed, hstart, ← href, and_assoc]
  refine and_congr_right fun _ => and_congr_right fun _ => ?_
  simp only [State.updateReferences]
  cases hrefs : st.refs with
  | none => simp [References.enters]
  | some old =>
    simp only [hscope, Bool.false_eq_true, ↓reduceIte, List.forall_mem_cons,
      referenceChecks_iff hrefs hnew, References.enters, References.admits, References.blank,
      Bool.and_eq_true, and_assoc]

/-- An out-of-scope transition to a state that has been entered is not checked. -/
theorem Graph.register_failed_outOfScope (hscope : t.outOfScope = true)
    (hrefs : g.refsAt t.dest ≠ none) :
    (g.register t).failed = [] ↔ g.failed = [] ∧ t.dest ≠ 0 := by
  obtain ⟨st, hst, href, heq⟩ := register_eq hdest
  rw [heq, checks_failed, State.updateReferences]
  rw [← href] at hrefs
  obtain ⟨refs, hrefs⟩ := Option.ne_none_iff_exists'.mp hrefs
  by_cases h0 : t.dest = 0 <;> simp [check, hrefs, hscope, h0]

end Register

theorem Graph.register_kept (hdest : t.dest < g.states.length) (hx : g.refsAt x = some R) :
    (g.register t).refsAt x = some R := by
  rw [refsAt_register hdest]
  split
  · next hd =>
    rw [← hd, hx, Option.getD_some]
  · exact hx

/-! ## Null transitions -/

section Null

variable (hq : q < g.states.length)
include hq

theorem Graph.refsAt_createNull (p x : ℕ) : (g.createNull p q).refsAt x =
    if x = q then some ((g.refsAt q).getD (g.refsFrom p)) else g.refsAt x := by
  have h := refsAt_register (t := ⟨p, q, .null, false, false, false⟩) hq x
  rwa [referencesThusFar_null] at h

theorem Graph.createNull_failed (hp : (g.refsFrom p).Indexed) :
    (g.createNull p q).failed = [] ↔
      g.failed = [] ∧ q ≠ 0 ∧ References.enters (g.refsAt q) (g.refsFrom p) = true := by
  have h := register_failed (t := ⟨p, q, .null, false, false, false⟩) hq rfl hp
  rwa [referencesThusFar_null] at h

end Null

/-! ## What holds while a graph is built -/

/-- References are indexed, and whatever a transition leads to has some. -/
structure Graph.Tracked (g : Graph) : Prop where
  sources : g.Scoped
  indexed : ∀ x R, g.refsAt x = some R → R.Indexed
  entered : ∀ t ∈ g.transitions, g.refsAt t.dest ≠ none

namespace Graph.Tracked

theorem refsFrom_indexed (hg : g.Tracked) (s : ℕ) : (g.refsFrom s).Indexed := by
  rw [refsFrom]
  cases h : g.refsAt s with
  | none => exact fun i a ha => by simp at ha
  | some R => exact hg.indexed s R h

theorem register (hg : g.Tracked) (hsource : t.source < g.states.length)
    (hdest : t.dest < g.states.length) : (g.register t).Tracked := by
  refine ⟨?_, ?_, ?_⟩
  · refine hg.sources.grows (.register g t) ?_
    intro u hu
    obtain rfl := List.mem_singleton.mp hu
    rwa [register_length]
  · intro x R hR
    rw [refsAt_register hdest] at hR
    split at hR
    · obtain rfl := Option.some.inj hR
      cases h : g.refsAt t.dest with
      | none => exact referencesThusFar_indexed _ (hg.refsFrom_indexed _)
      | some old => exact hg.indexed _ _ h
    · exact hg.indexed x R hR
  · intro u hu
    rw [refsAt_register hdest]
    split
    · exact Option.some_ne_none _
    · next hne =>
      rw [register_transitions, List.mem_append] at hu
      obtain hu | hu := hu
      · exact hg.entered u hu
      · obtain rfl := List.mem_singleton.mp hu
        exact absurd rfl hne

theorem newState (hg : g.Tracked) (accept : Bool) :
    (g.newState false accept [] none).2.Tracked := by
  refine ⟨?_, ?_, ?_⟩
  · intro t ht
    rw [newState_length]
    exact Nat.lt_succ_of_lt (hg.sources t ht)
  · intro x R hR
    rw [refsAt_newState] at hR
    exact hg.indexed x R hR
  · intro t ht
    rw [refsAt_newState]
    exact hg.entered t ht

theorem createNullIf (hg : g.Tracked) (b : Bool) (hp : p < g.states.length)
    (hq : q < g.states.length) : (if b then g.createNull p q else g).Tracked := by
  cases b with
  | false => exact hg
  | true => exact hg.register hp hq

end Graph.Tracked

theorem Steps.tracked (h : Steps A Z base L g g') (hA : ∀ x ∈ A, x < g.states.length)
    (hZ : ∀ x ∈ Z, x < g.states.length) (hg : g.Tracked) : g'.Tracked := by
  induction h with
  | refl => exact hg
  | tail hsteps hstep ih =>
    have hle : g.states.length ≤ _ := Steps.le hsteps
    cases hstep with
    | state => exact ih.newState false
    | add hl hp hq =>
      refine ih.register ?_ ?_
      · obtain hx | hx := hp
        · exact (hA _ hx).trans_le hle
        · exact hx.2
      · obtain hx | hx := hq
        · exact (hZ _ hx).trans_le hle
        · exact hx.2

/-! ## Blank states

Where the transitions start from states without variables, nothing is brought along:
no assertion fails, and no state learns anything. -/

structure Quiet (Z : Set ℕ) (base : ℕ) (g g' : Graph) : Prop where
  failed : g'.failed = [] ↔ g.failed = []
  refsFrom : ∀ x, g'.refsFrom x = g.refsFrom x
  kept : ∀ x R, g.refsAt x = some R → g'.refsAt x = some R
  apart : ∀ x, x ∉ Z → x < base → g'.refsAt x = g.refsAt x

theorem Quiet.refl (Z : Set ℕ) (base : ℕ) (g : Graph) : Quiet Z base g g :=
  ⟨Iff.rfl, fun _ => rfl, fun _ _ h => h, fun _ _ _ => rfl⟩

theorem Quiet.register (h : Quiet Z base g g') (ht : t.outOfScope = false)
    (hsource : g.refsFrom t.source = []) (hdest : t.dest < g'.states.length) (h0 : t.dest ≠ 0)
    (hZ : t.dest ∈ Z ∨ base ≤ t.dest) : Quiet Z base g (g'.register t) := by
  have hsource' : g'.refsFrom t.source = [] := by rw [h.refsFrom, hsource]
  have hat := g'.refsAt_register hdest
  simp only [hsource', referencesThusFar_nil] at hat
  refine ⟨?_, ?_, ?_, ?_⟩
  · rw [Graph.register_failed hdest ht (hsource' ▸ fun i a ha => by simp at ha), hsource',
      referencesThusFar_nil, References.enters_nil, h.failed]
    simp [h0]
  · intro x
    rw [← h.refsFrom, Graph.refsFrom, hat]
    split
    · next hx => rw [Option.getD_some, hx, Graph.refsFrom]
    · rfl
  · exact fun x R hR => Graph.register_kept hdest (h.kept x R hR)
  · intro x hx hlt
    rw [hat, if_neg, h.apart x hx hlt]
    rintro rfl
    exact hZ.elim hx (not_le_of_gt hlt)

theorem Steps.quiet (h : Steps A Z base L g g') (hbase : 0 < base) (hZ : ∀ x ∈ Z, x < g.states.length)
    (h0 : 0 ∉ Z) (hA : ∀ x, x ∈ A ∨ base ≤ x → g.refsFrom x = []) : Quiet Z base g g' := by
  induction h with
  | refl => exact .refl Z base g
  | @tail g₁ _ hsteps hstep ih =>
    have hle : g.states.length ≤ g₁.states.length := Steps.le hsteps
    cases hstep with
    | state =>
      refine ⟨ih.failed, ?_, ?_, ?_⟩
      · intro x
        rw [Graph.refsFrom, Graph.refsAt_newState]
        exact ih.refsFrom x
      · intro x R hR
        rw [Graph.refsAt_newState]
        exact ih.kept x R hR
      · intro x hx hlt
        rw [Graph.refsAt_newState]
        exact ih.apart x hx hlt
    | @add p q l hl hp hq =>
      refine ih.register rfl (hA p (hp.imp_right And.left)) ?_ ?_ (hq.imp_right And.left)
      · obtain hx | hx := hq
        · exact (hZ _ hx).trans_le hle
        · exact hx.2
      · rintro rfl
        obtain hx | hx := hq
        · exact h0 hx
        · exact absurd hx.1 (by omega)

end Tesla.Automata
