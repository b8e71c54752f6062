/-
# `Tesla.Runtime.Registration` — the classes a sunset will meet

A class that has been initialised is registered with its lifetime: in one of
32 static slots or, when these are taken, in an array that doubles with every
registration.  `tesla_sunset` walks both lists, each up to its first NULL:

    tls_classes       c₀ … cₖ NULL … NULL
    tls_dyn_classes   d₀ … dₙ | not read        (n + 1 = tls_dyn_count)

`LifetimeState.listed` is the list of classes it meets.  Three things can
make that list wrong, and each happens: `tls_dyn_count` is not reset by the
sunset, so that later dynamic registrations stand behind NULLs; a class that
is reset by an ordinary event stays registered and is registered again; and
late initialisation can fail after it has made an instance, and returns
without registering.  A sunset that does not empty a class then leaves an
active class unregistered.

`Registers P s k` excludes these, as a condition on the store before the
call.  In runs that keep to it (`RegRun`), the store stays `Registered`.
-/
import Tesla.Runtime.Lifetimes
import Mathlib.Data.List.Perm.Basic

namespace Tesla.Runtime

open Lib

/-! ## The list a sunset walks -/

/-- The entries up to the first NULL. -/
def firstSome : List (Option Nat) → List Nat
  | some x :: xs => x :: firstSome xs
  | _ => []

/-- The classes `tesla_sunset` meets, in order. -/
def LifetimeState.listed (ls : LifetimeState) : List Nat :=
  firstSome ls.tlsClasses ++ firstSome (ls.tlsDynClasses.take ls.tlsDynCount)

theorem firstSome_map_some (xs : List Nat) (ys : List (Option Nat)) :
    firstSome (xs.map some ++ ys) = xs ++ firstSome ys := by
  induction xs with
  | nil => rfl
  | cons x xs ih => rw [List.map_cons, List.cons_append, firstSome, ih]; rfl

@[simp] theorem firstSome_replicate_none (n : Nat) : firstSome (List.replicate n none) = [] := by
  cases n <;> rfl

theorem firstSome_concat {ys : List (Option Nat)} {x : Nat} (h : ∀ y ∈ ys, y.isSome = true) :
    firstSome (ys ++ [some x]) = firstSome ys ++ [x] := by
  induction ys with
  | nil => rfl
  | cons y ys ih =>
      obtain ⟨hy, hys⟩ := List.forall_mem_cons.mp h
      obtain ⟨y, rfl⟩ := Option.isSome_iff_exists.mp hy
      exact congrArg (y :: ·) (ih hys)

theorem firstSome_subset_append (ys zs : List (Option Nat)) :
    firstSome ys ⊆ firstSome (ys ++ zs) := by
  induction ys with
  | nil => intro x hx; cases hx
  | cons y ys ih =>
      cases y with
      | none => intro x hx; cases hx
      | some y => exact List.cons_subset_cons y ih

/-- What every entry of the lifetime table looks like. -/
structure LifetimeState.Shape (ls : LifetimeState) : Prop where
  static : ∃ (xs : List Nat) (k : Nat), ls.tlsClasses = xs.map some ++ List.replicate k none
  statics : ls.tlsClasses.length = staticClasses
  capacity : ls.tlsDynClasses.length = ls.tlsDynCapacity
  count : ls.tlsDynCount ≤ ls.tlsDynCapacity

/-- No entry below the count is NULL. -/
def LifetimeState.Solid (ls : LifetimeState) : Prop :=
  ∀ y ∈ ls.tlsDynClasses.take ls.tlsDynCount, y.isSome = true

instance (ls : LifetimeState) : Decidable ls.Solid :=
  inferInstanceAs (Decidable (∀ y ∈ _, _))

theorem LifetimeState.Shape.fresh (l : Lifetime) : (LifetimeState.fresh l).Shape where
  static := ⟨[], staticClasses, rfl⟩
  statics := List.length_replicate
  capacity := rfl
  count := Nat.le_refl 0

@[simp] theorem listed_fresh (l : Lifetime) : (LifetimeState.fresh l).listed = [] := rfl

/-! ## Registering -/

variable {P : Program} {s s' : Store} {ls ls' : LifetimeState} {cls : Nat} {c c' : Class}
  {evs : List Event}

/-- A free static slot is the first one after those taken. -/
theorem register_static {xs : List Nat} {k : Nat}
    (hst : ls.tlsClasses = xs.map some ++ List.replicate (k + 1) none) :
    register ls cls = .ok { ls with
      tlsClasses := (xs ++ [cls]).map some ++ List.replicate k none } := by
  have hfind : ls.tlsClasses.findIdx? Option.isNone = some xs.length := by
    rw [hst, List.findIdx?_append, List.findIdx?_eq_none_iff.mpr (by simp), Option.none_or]
    simp [List.replicate_succ, List.findIdx?_cons]
  simp only [register, hfind]
  rw [hst, List.set_append_right _ _ (by simp)]
  simp [List.replicate_succ]

theorem growDyn_spec (hs : ls.Shape) (hlt : (growDyn ls).tlsDynCount < (growDyn ls).tlsDynCapacity) :
    (growDyn ls).tlsClasses = ls.tlsClasses ∧ (growDyn ls).tlsDynCount = ls.tlsDynCount ∧
      (growDyn ls).tlsDynClasses.length = (growDyn ls).tlsDynCapacity ∧
      (growDyn ls).tlsDynClasses.take ls.tlsDynCount = ls.tlsDynClasses.take ls.tlsDynCount := by
  have hcap := hs.capacity
  have hcnt := hs.count
  simp only [growDyn] at hlt ⊢
  split
  · rename_i h0
    have hnil : ls.tlsDynClasses = [] := List.eq_nil_of_length_eq_zero (by omega)
    have hzero : ls.tlsDynCount = 0 := by omega
    simp [hnil, hzero]
  · rename_i h0
    simp only [h0, if_false] at hlt
    refine ⟨rfl, rfl, ?_, ?_⟩
    · simp only [List.length_append, List.length_take, List.length_replicate]
      omega
    · rw [List.take_append_of_le_length (by rw [List.length_take]; omega), List.take_take]
      congr 1
      omega

/-- Without a free static slot the class goes behind the dynamic ones. -/
theorem register_dynamic (hs : ls.Shape) (hfull : ∀ y ∈ ls.tlsClasses, y.isSome = true)
    (h : register ls cls = .ok ls') :
    ls'.tlsClasses = ls.tlsClasses ∧ ls'.tlsDynCount = ls.tlsDynCount + 1 ∧
      ls'.tlsDynClasses.length = ls'.tlsDynCapacity ∧ ls'.tlsDynCount ≤ ls'.tlsDynCapacity ∧
      ls'.tlsDynClasses.take ls'.tlsDynCount =
        ls.tlsDynClasses.take ls.tlsDynCount ++ [some cls] := by
  have hfind : ls.tlsClasses.findIdx? Option.isNone = none := by
    rw [List.findIdx?_eq_none_iff]
    intro y hy
    rw [← Option.not_isSome, hfull y hy]
    rfl
  simp only [register, hfind] at h
  split at h
  · rename_i hlt
    cases h
    obtain ⟨hst, hcnt, hlen, htake⟩ := growDyn_spec hs hlt
    refine ⟨hst, by rw [hcnt], by rw [List.length_set]; exact hlen, hlt, ?_⟩
    rw [hcnt] at hlt ⊢
    rw [List.take_add_one, List.take_set_of_le (Nat.le_refl _), htake,
      List.getElem?_set_self (by omega)]
    rfl
  · cases h

/-- Registering keeps the shape and loses no class. -/
theorem LifetimeState.Shape.register (hs : ls.Shape) (h : register ls cls = .ok ls') :
    ls'.Shape ∧ ls.listed ⊆ ls'.listed := by
  obtain ⟨xs, k, hst⟩ := hs.static
  cases k with
  | succ k =>
      rw [register_static hst] at h
      cases h
      refine ⟨⟨⟨_, _, rfl⟩, ?_, hs.capacity, hs.count⟩, ?_⟩
      · have := hs.statics
        rw [hst] at this
        simp only [List.length_append, List.length_map, List.length_replicate, List.length_cons,
          List.length_nil] at this ⊢
        omega
      · intro x hx
        simp only [LifetimeState.listed, hst, firstSome_map_some, firstSome_replicate_none,
          List.append_nil, List.mem_append] at hx ⊢
        exact hx.imp_left Or.inl
  | zero =>
      rw [List.replicate_zero, List.append_nil] at hst
      have hfull : ∀ y ∈ ls.tlsClasses, y.isSome = true := by
        rw [hst]; simp
      obtain ⟨hst', hcnt, hlen, hle, htake⟩ := register_dynamic hs hfull h
      refine ⟨⟨⟨xs, 0, ?_⟩, by rw [hst']; exact hs.statics, hlen, hle⟩, ?_⟩
      · rw [hst', hst]; simp
      · rw [LifetimeState.listed, LifetimeState.listed, hst', htake]
        exact List.append_subset.mpr ⟨List.subset_append_left .., fun x hx =>
          List.mem_append_right _ (firstSome_subset_append _ _ hx)⟩

/-- When no NULL is in the way, registering adds the class to what the sunset
meets, and nothing else. -/
theorem LifetimeState.Shape.register_listed (hs : ls.Shape)
    (hsolid : (∀ y ∈ ls.tlsClasses, y.isSome = true) → ls.Solid)
    (h : Runtime.register ls cls = .ok ls') : ls'.listed.Perm (cls :: ls.listed) := by
  obtain ⟨xs, k, hst⟩ := hs.static
  cases k with
  | succ k =>
      rw [register_static hst] at h
      cases h
      simp only [LifetimeState.listed, hst, firstSome_map_some, firstSome_replicate_none,
        List.append_nil, List.append_assoc, List.singleton_append]
      exact List.perm_middle
  | zero =>
      rw [List.replicate_zero, List.append_nil] at hst
      have hfull : ∀ y ∈ ls.tlsClasses, y.isSome = true := by
        rw [hst]; simp
      obtain ⟨hst', _, _, _, htake⟩ := register_dynamic hs hfull h
      rw [LifetimeState.listed, LifetimeState.listed, hst', htake, firstSome_concat (hsolid hfull),
        ← List.append_assoc]
      exact List.perm_append_comm

/-! ## Emptying a class -/

/-- The scan gets to the end, and an instance asks for cleanup. -/
def Visit.Empties (P : Program) (v : Visit) : Prop :=
  v.before.tcLimit < v.before.tcFree + 2 ^ 31 ∧
    v.before.tcInstances.countP (isFork (v.delivery P)) ≤ v.before.tcFree ∧
    v.before.tcInstances.any (cleansUp (v.delivery P)) = true

instance (P : Program) (v : Visit) : Decidable (v.Empties P) :=
  inferInstanceAs (Decidable (_ ∧ _ ∧ _))

/-- The class is as after a reset. -/
structure Class.Empty (c : Class) : Prop where
  free : c.tcFree = c.tcLimit
  active : c.active = 0

theorem Delivered.empties {d : Delivery} {m : Nat} {evs' : List Event} (hwf : c.WF)
    (hfree : c.tcFree = d.maxClones) (hreach : Reach d c m)
    (hused : c.tcLimit < c.tcFree + 2 ^ 31) (hroom : c.tcInstances.countP (isFork d) ≤ c.tcFree)
    (hclean : c.tcInstances.any (cleansUp d) = true) (hd : Delivered d c evs m c' evs') :
    c'.Empty := by
  cases hd with
  | @full u hslot hfork hfull =>
      -- the fork that found no room would be one too many
      have hpre : (c.tcInstances.take (m + 1)).countP (isFork d) ≤
          c.tcInstances.countP (isFork d) := (List.take_sublist ..).countP_le
      rw [List.take_add_one, hslot, List.countP_append] at hpre
      simp only [Option.toList_some, List.countP_singleton, hfork, if_true] at hpre
      rw [forkCopies_length] at hfull
      omega
  | @cloned _ n _ _ hg hshort hzero =>
      have hfree' := hg.tcFree
      have hle := hreach.room
      rw [hzero, List.length_take, scanned_tcFree] at hfree'
      omega
  | done hstop hg =>
      have hpass := inactive_of_stop hwf hused hstop
      have hany : (c.tcInstances.take m).any (cleansUp d) = true := by
        rw [← List.take_append_drop m c.tcInstances, List.any_append, Bool.or_eq_true] at hclean
        refine hclean.resolve_right fun hdrop => ?_
        obtain ⟨inst, hinst, hcl⟩ := List.any_eq_true.mp hdrop
        rw [cleansUp, actionOf, action_inactive (hpass inst hinst)] at hcl
        cases hcl
      rw [if_pos hany]
      exact ⟨(classReset_tcLimit _).symm, classReset_active _⟩

/-- A sunset event that empties its class does that and nothing else. -/
theorem Visit.Empties.updated {v : Visit} (he : v.Empties P) (hwf : v.before.WF)
    (hu : Updated P v.autom v.cls v.symbol v.pattern v.before ls c' ls' evs) :
    ls' = ls ∧ c'.Empty := by
  obtain ⟨hused, hroom, hclean⟩ := he
  -- an instance that asks for cleanup is active, so the class is in use
  have hready : v.before.tcLimit ≠ v.before.tcFree := by
    intro hempty
    obtain ⟨inst, hinst, hcl⟩ := List.any_eq_true.mp hclean
    rw [cleansUp, actionOf, action_inactive (hwf.inactive_of_empty hempty inst hinst)] at hcl
    cases hcl
  cases hu with
  | returned hp => cases hp with
    | failed hempty => exact (hready hempty).elim
  | @delivered _ _ _ _ _ ts _ hp hts hreach hd => cases hp with
    | init hempty => exact (hready hempty).elim
    | ready =>
        rw [Visit.delivery_eq hts] at hroom hclean
        exact ⟨rfl, hd.empties hwf rfl hreach hused hroom hclean⟩

/-! ## The condition -/

/-- Late initialisation makes all the instances it should, or none. -/
def InitsWhole (autom : Automaton) (c : Class) : Prop :=
  ((∀ t ∈ initHits autom, t.toState ≠ 0) ∧ (initHits autom).length ≤ c.tcLimit) ∨
    (∀ t ∈ (initHits autom).head?, t.toState = 0) ∨ c.tcLimit = 0

instance (autom : Automaton) (c : Class) : Decidable (InitsWhole autom c) :=
  inferInstanceAs (Decidable ((_ ∧ _) ∨ _ ∨ _))

/-- Class `cls` can receive an event: if it is empty, it is not registered
already, late initialisation does not stop halfway, and if no static slot is
free there is no NULL among the dynamic ones. -/
def CanRegister (P : Program) (s : Store) (cls : Nat) : Prop :=
  ∀ c ∈ s.tsClasses[cls]?, ∀ a ∈ c.tcAutomaton,
    ∀ li ∈ s.findLifetime (P.automaton a).taLifetime, ∀ ls ∈ s.tsLifetimes[li]?,
      c.tcLimit = c.tcFree → cls ∉ ls.listed ∧ InitsWhole (P.automaton a) c ∧
        ((∀ y ∈ ls.tlsClasses, y.isSome = true) → ls.Solid)

-- spelled out: a search would go through all 2 ^ 64 pointers
instance (P : Program) (s : Store) (cls : Nat) : Decidable (CanRegister P s cls) :=
  @Option.decidableForallMem _ _ (fun _ => @Option.decidableForallMem _ _ (fun _ =>
    inferInstanceAs (Decidable (∀ li ∈ _, ∀ ls ∈ _, _ → _))) _) _

/-- The cleanup event that `tesla_sunset` sends to class `cls` empties it. -/
def CleansClass (P : Program) (s : Store) (key : Key) (cls : Nat) : Prop :=
  ∀ c ∈ s.tsClasses[cls]?, ∀ a ∈ c.tcAutomaton,
    Visit.Empties P ⟨P.automaton a, cls, (P.automaton a).taCleanupSymbol, key, c⟩

instance (P : Program) (s : Store) (key : Key) (cls : Nat) : Decidable (CleansClass P s key cls) :=
  @Option.decidableForallMem _ _ (fun _ => @Option.decidableForallMem _ _
    (fun _ => inferInstanceAs (Decidable (Visit.Empties ..))) _) _

/-- The condition under which a call keeps the registrations right. -/
def Registers (P : Program) (s : Store) : Call → Prop
  | .sunrise _ => True
  | .updateState a _ _ => ∀ r ∈ classGet s a, CanRegister P r.1 r.2
  | .sunset l junk => ∀ li ∈ s.findLifetime l, ∀ ls ∈ s.tsLifetimes[li]?,
      ∀ cls ∈ ls.listed, CleansClass P s (emptyKey junk) cls

instance (P : Program) (s : Store) : (k : Call) → Decidable (Registers P s k)
  | .sunrise _ => inferInstanceAs (Decidable True)
  | .updateState .. => inferInstanceAs (Decidable (∀ r ∈ _, _))
  | .sunset .. => inferInstanceAs (Decidable (∀ li ∈ _, ∀ ls ∈ _, ∀ cls ∈ _, _))

/-- The runs all of whose calls keep to the condition. -/
abbrev RegRun (P : Program) (classes instances : UInt32) : List Call → Store → Prop :=
  Run (fun s k s' => Step P s k s' ∧ Registers P s k) (storeInit classes instances)

/-- Making calls, as long as they keep to the condition. -/
def Call.runRegistered (P : Program) (s : Store) (ks : List Call) : Option Store :=
  ks.foldlM (fun s k => if Registers P s k then (call P s k).toOption.map Prod.fst else none) s

theorem regRun_of_exec {classes instances : UInt32} {ks : List Call}
    (h : Call.runRegistered P (storeInit classes instances) ks = some s) :
    RegRun P classes instances ks s := by
  refine Run.of_exec (fun {s k t} hst => ?_) h
  split at hst
  · rename_i hreg
    obtain ⟨r, hr, rfl⟩ := Option.map_eq_some_iff.mp hst
    exact ⟨⟨r.2, ok_of_toOption hr⟩, hreg⟩
  · cases hst

/-! ## The invariant -/

/-- Class `cls` is registered in entry `li` of the lifetime table. -/
def Store.Lists (s : Store) (li cls : Nat) : Prop :=
  ∃ ls, s.tsLifetimes[li]? = some ls ∧ cls ∈ ls.listed

/-- Class `cls` belongs to the lifetime in entry `li`. -/
def Store.Owns (P : Program) (s : Store) (li cls : Nat) : Prop :=
  ∃ c a, s.tsClasses[cls]? = some c ∧ c.tcAutomaton = some a ∧
    s.findLifetime (P.automaton a).taLifetime = some li

/-- What runs that keep to the condition preserve. -/
structure Registered (P : Program) (s : Store) : Prop where
  wf : ∀ c ∈ s.tsClasses, c.WF
  unclaimed : ∀ c ∈ s.tsClasses, c.tcAutomaton = none → c.tcFree = c.tcLimit
  shape : ∀ ls ∈ s.tsLifetimes, ls.Shape
  nodup : ∀ ls ∈ s.tsLifetimes, ls.listed.Nodup
  valid : ∀ {li cls : Nat}, s.Lists li cls → s.Owns P li cls
  complete : ∀ {cls : Nat} {c : Class} {a : Ptr}, s.tsClasses[cls]? = some c →
    c.tcAutomaton = some a → c.tcFree < c.tcLimit →
    ∃ li, s.findLifetime (P.automaton a).taLifetime = some li ∧ s.Lists li cls

theorem Registered.init (classes instances : UInt32) :
    Registered P (storeInit classes instances) where
  wf := by
    intro c hc
    cases List.eq_of_mem_replicate hc
    exact Class.WF.fresh instances
  unclaimed := by
    intro c hc _
    cases List.eq_of_mem_replicate hc
    exact List.length_replicate.symm
  shape := fun _ h => by cases h
  nodup := fun _ h => by cases h
  valid := fun ⟨_, h, _⟩ => by cases h
  complete := by
    intro cls c a hc ha _
    cases List.eq_of_mem_replicate (List.mem_of_getElem? hc)
    cases ha

/-- The bookkeeping of an update: a class that was in use changes no
registration, an empty one is registered or stays empty. -/
theorem Updated.registers {autom : Automaton} {symbol : Nat} {pattern : Key}
    (hw : c.tcLimit = c.tcFree → InitsWhole autom c)
    (hu : Updated P autom cls symbol pattern c ls c' ls' evs) :
    (ls' = ls ∧ (c.tcLimit = c.tcFree → c' = c)) ∨
      (c.tcLimit = c.tcFree ∧ register ls cls = .ok ls') := by
  cases hu with
  | returned hp => cases hp with
    | @failed _ n _ _ hempty hle hg hst hstop =>
        refine Or.inl ⟨rfl, fun _ => ?_⟩
        have hfree := hg.tcFree
        rw [List.length_map, List.length_take, Nat.min_eq_left hle] at hfree
        have hzero : n = 0 := by
          rcases hstop with hzero | ⟨t, ht, hfail⟩
          · exact hzero
          · have hlt := (List.getElem?_eq_some_iff.mp ht).1
            rcases hw hempty with ⟨hall, hlen⟩ | hhead | hlim
            · rcases hfail with h0 | h0
              · exact (hall t (List.mem_of_getElem? ht) h0).elim
              · omega
            · by_contra hpos
              have hmem : (initHits autom)[0] ∈ (initHits autom).take n := by
                refine List.mem_of_getElem? (i := 0) ?_
                rw [List.getElem?_take_of_lt (by omega), List.getElem?_eq_getElem (by omega)]
              exact hst _ hmem (hhead _ (by rw [List.head?_eq_getElem?]; exact List.getElem?_eq_getElem _))
            · omega
        rw [hzero, List.take_zero, List.map_nil] at hg
        cases hg
        rfl
  | delivered hp _ _ hd => cases hp with
    | ready hused => exact Or.inl ⟨rfl, fun hempty => (hused hempty).elim⟩
    | init hempty _ _ _ hreg => exact Or.inr ⟨hempty, hreg⟩

/-! ## One update -/

theorem Store.Owns.set {li cls₀ : Nat} {a : Ptr} (ho : s.Owns P li cls₀)
    (hb : s'.bounds = s.bounds) (hcs : s'.tsClasses = s.tsClasses.set cls c')
    (hc : s.tsClasses[cls]? = some c) (ha : c.tcAutomaton = some a)
    (ha' : c'.tcAutomaton = some a) : s'.Owns P li cls₀ := by
  obtain ⟨u, b, hu, hb', hf⟩ := ho
  rw [← findLifetime_congr hb] at hf
  by_cases heq : cls = cls₀
  · subst heq
    rw [hc] at hu
    cases hu
    rw [ha] at hb'
    cases hb'
    refine ⟨c', a, ?_, ha', hf⟩
    rw [hcs, List.getElem?_set_self (List.getElem?_eq_some_iff.mp hc).1]
  · refine ⟨u, b, ?_, hb', hf⟩
    rw [hcs, List.getElem?_set_ne heq]
    exact hu

/-- A property of the lifetime table after one entry is rewritten. -/
theorem forall_mem_set {ls₀ : LifetimeState} {lss : List LifetimeState} {li : Nat}
    {Q : LifetimeState → Prop} (h : ∀ l ∈ lss, Q l) (h' : Q ls₀) : ∀ l ∈ lss.set li ls₀, Q l := by
  intro l hl
  rcases List.mem_or_eq_of_mem_set hl with hl | rfl
  · exact h l hl
  · exact h'

/-- What an update does to the list of its class's lifetime: the class is there if it is used, and
nothing else is new. -/
theorem Registered.entry {symbol li : Nat} {pattern : Key} {a : Ptr} {c c' : Class}
    {ls ls' : LifetimeState} (hr : Registered P s) (hcan : CanRegister P s cls)
    (hc : s.tsClasses[cls]? = some c) (ha : c.tcAutomaton = some a)
    (hf : s.findLifetime (P.automaton a).taLifetime = some li) (hls : s.tsLifetimes[li]? = some ls)
    (hu : Updated P (P.automaton a) cls symbol pattern c ls c' ls' evs) :
    ls'.Shape ∧ ls'.listed.Nodup ∧ ls.listed ⊆ ls'.listed ∧
      (∀ x ∈ ls'.listed, x = cls ∨ x ∈ ls.listed) ∧
      (c'.tcFree < c'.tcLimit → cls ∈ ls'.listed) := by
  have hcond := hcan c hc a ha li hf ls hls
  have hwf := hr.wf c (List.mem_of_getElem? hc)
  have hshape := hr.shape ls (List.mem_of_getElem? hls)
  have hnd := hr.nodup ls (List.mem_of_getElem? hls)
  rcases hu.registers fun hempty => (hcond hempty).2.1 with ⟨rfl, hsame⟩ | ⟨hempty, hreg⟩
  · refine ⟨hshape, hnd, List.Subset.refl _, fun x hx => Or.inr hx, fun hused => ?_⟩
    have hbefore : c.tcFree < c.tcLimit := by
      have hbound := hwf.bound
      by_contra hge
      have hempty : c.tcLimit = c.tcFree := by omega
      rw [hsame hempty] at hused
      omega
    obtain ⟨li', hf', l, hl, hmem⟩ := hr.complete hc ha hbefore
    rw [hf] at hf'
    cases hf'
    rw [hls] at hl
    cases hl
    exact hmem
  · obtain ⟨hnot, _, hsolid⟩ := hcond hempty
    obtain ⟨hshape', hsub⟩ := hshape.register hreg
    have hperm := hshape.register_listed hsolid hreg
    refine ⟨hshape', hperm.nodup_iff.mpr (List.nodup_cons.mpr ⟨hnot, hnd⟩), hsub, ?_, ?_⟩
    · intro x hx
      exact List.mem_cons.mp (hperm.mem_iff.mp hx)
    · intro _
      exact hperm.mem_iff.mpr List.mem_cons_self

theorem Registered.updateClassState {symbol : Nat} {pattern : Key} (hr : Registered P s)
    (hcan : CanRegister P s cls)
    (h : updateClassState P cls symbol pattern s = .ok (s', evs)) : Registered P s' := by
  have hb := updateClassState_bounds h
  obtain ⟨c, a, hc, ha, ⟨_, rfl, _⟩ | ⟨li, ls, c', ls', hf, hls, hu, rfl⟩⟩ :=
    updateClassState_spec h
  · exact hr
  · have hwf := hr.wf c (List.mem_of_getElem? hc)
    have hlt := (List.getElem?_eq_some_iff.mp hls).1
    have ha' : c'.tcAutomaton = some a := hu.tcAutomaton.trans ha
    obtain ⟨hshape', hnd', hsub, hsup, hself⟩ := hr.entry hcan hc ha hf hls hu
    have hlist : ∀ {li₀ cls₀ : Nat}, s.Lists li₀ cls₀ →
        Store.Lists ⟨s.tsClasses.set cls c', s.tsLifetimes.set li ls'⟩ li₀ cls₀ := by
      rintro li₀ cls₀ ⟨l, hl, hmem⟩
      by_cases heq : li = li₀
      · subst heq
        rw [hls] at hl
        cases hl
        exact ⟨ls', List.getElem?_set_self hlt, hsub hmem⟩
      · exact ⟨l, (List.getElem?_set_ne heq).trans hl, hmem⟩
    refine ⟨?_, ?_, forall_mem_set hr.shape hshape', forall_mem_set hr.nodup hnd', ?_, ?_⟩
    · intro u hmem
      rcases List.mem_or_eq_of_mem_set hmem with hmem | rfl
      · exact hr.wf u hmem
      · exact hwf.updated hu
    · intro u hmem hnone
      rcases List.mem_or_eq_of_mem_set hmem with hmem | rfl
      · exact hr.unclaimed u hmem hnone
      · rw [ha'] at hnone
        cases hnone
    · rintro li₀ cls₀ ⟨l, hl, hmem⟩
      by_cases heq : li = li₀
      · subst heq
        rw [List.getElem?_set_self hlt] at hl
        cases hl
        rcases hsup cls₀ hmem with rfl | hmem
        · refine ⟨c', a, ?_, ha', ?_⟩
          · exact List.getElem?_set_self (List.getElem?_eq_some_iff.mp hc).1
          · rw [findLifetime_congr hb]; exact hf
        · exact (hr.valid ⟨ls, hls, hmem⟩).set hb rfl hc ha ha'
      · rw [List.getElem?_set_ne heq] at hl
        exact (hr.valid ⟨l, hl, hmem⟩).set hb rfl hc ha ha'
    · intro cls₀ u b hu' hb' hused
      by_cases heq : cls = cls₀
      · subst heq
        rw [List.getElem?_set_self (List.getElem?_eq_some_iff.mp hc).1] at hu'
        cases hu'
        rw [ha'] at hb'
        cases hb'
        refine ⟨li, by rw [findLifetime_congr hb]; exact hf, ls', ?_, hself hused⟩
        exact List.getElem?_set_self hlt
      · rw [List.getElem?_set_ne heq] at hu'
        obtain ⟨li₀, hf₀, hl₀⟩ := hr.complete hu' hb' hused
        exact ⟨li₀, by rw [findLifetime_congr hb]; exact hf₀, hlist hl₀⟩

theorem Registered.classGet {a : Ptr} (hr : Registered P s)
    (h : classGet s a = some (s', cls)) : Registered P s' := by
  have hb := classGet_bounds h
  obtain ⟨c, hc, ⟨_, rfl⟩ | ⟨hn, rfl⟩⟩ := classGet_spec h
  · exact hr
  · have hlt := (List.getElem?_eq_some_iff.mp hc).1
    refine ⟨?_, ?_, hr.shape, hr.nodup, ?_, ?_⟩
    · intro u hmem
      rcases List.mem_or_eq_of_mem_set hmem with hmem | rfl
      · exact hr.wf u hmem
      · exact ⟨(hr.wf c (List.mem_of_getElem? hc)).limit, (hr.wf c (List.mem_of_getElem? hc)).bound⟩
    · intro u hmem hnone
      rcases List.mem_or_eq_of_mem_set hmem with hmem | rfl
      · exact hr.unclaimed u hmem hnone
      · cases hnone
    · intro li₀ cls₀ hl
      -- an unclaimed class is not registered
      obtain ⟨u, b, hu, hb', hf⟩ := hr.valid hl
      have hne : cls ≠ cls₀ := by
        rintro rfl
        rw [hc] at hu
        cases hu
        rw [hn] at hb'
        cases hb'
      exact ⟨u, b, (List.getElem?_set_ne hne).trans hu, hb', hf⟩
    · intro cls₀ u b hu hb' hused
      by_cases heq : cls = cls₀
      · subst heq
        rw [List.getElem?_set_self hlt] at hu
        cases hu
        have := hr.unclaimed c (List.mem_of_getElem? hc) hn
        have hused' : c.tcFree < c.tcLimit := hused
        omega
      · rw [List.getElem?_set_ne heq] at hu
        exact hr.complete hu hb' hused

theorem Registered.sunrise {l : Lifetime} (hr : Registered P s)
    (h : sunrise l s = .ok (s', evs)) : Registered P s' := by
  simp only [Runtime.sunrise] at h
  split at h
  · split at h
    · cases h
      exact hr
    · rename_i hnone
      cases h
      have hfind : ∀ {l₀ : Lifetime} {li : Nat}, s.findLifetime l₀ = some li →
          Store.findLifetime ⟨s.tsClasses, s.tsLifetimes ++ [LifetimeState.fresh l]⟩ l₀ =
            some li := by
        intro l₀ li hf
        rw [Store.findLifetime] at hf ⊢
        rw [List.findIdx?_append, hf]
        rfl
      refine ⟨hr.wf, hr.unclaimed, ?_, ?_, ?_, ?_⟩
      · rw [List.forall_mem_append]
        exact ⟨hr.shape, fun l₀ hl => by cases List.mem_singleton.mp hl; exact .fresh l⟩
      · rw [List.forall_mem_append]
        exact ⟨hr.nodup, fun l₀ hl => by cases List.mem_singleton.mp hl; exact .nil⟩
      · rintro li cls₀ ⟨ls, hls, hmem⟩
        rcases Nat.lt_or_ge li s.tsLifetimes.length with hlt | hge
        · rw [List.getElem?_append_left hlt] at hls
          obtain ⟨u, b, hu, hb, hf⟩ := hr.valid ⟨ls, hls, hmem⟩
          exact ⟨u, b, hu, hb, hfind hf⟩
        · rw [List.getElem?_append_right hge] at hls
          cases List.mem_singleton.mp (List.mem_of_getElem? hls)
          cases hmem
      · intro cls₀ u b hu hb hused
        obtain ⟨li, hf, ls, hls, hmem⟩ := hr.complete hu hb hused
        refine ⟨li, hfind hf, ls, ?_, hmem⟩
        rw [List.getElem?_append_left (List.getElem?_eq_some_iff.mp hls).1]
        exact hls
  · cases h

end Tesla.Runtime
