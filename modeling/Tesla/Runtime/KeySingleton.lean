/-
# `Tesla.Runtime.KeySingleton` — `pthread_key()` under any interleaving

The thread-specific store is found under a key that is made once for the
process.  `pthread_key` is a singleton accessor with double-checked locking:

    check      key_initialised?               set: return             else lock
    lock       take the mutex, or wait
    recheck    key_initialised?               set: return             else create
    create     pthread_key_create
    setFlag    key_initialised = 1
    unlock     give the mutex back
    ret        return

Any number of threads are inside, each at one of these places, and one step of
any of them is one step of the system.  The step at `recheck` that finds the
flag set is the one of a thread that waited for the mutex while another one
made the key.  It returns from between `lock` and `unlock`.

    the key is made at most once                                always
    nobody inside, and the mutex is free                        unless a thread
                                                                returned there
-/
import Mathlib.Logic.Function.Basic
import Tesla.Lib.Run

namespace Tesla.Runtime.KeySingleton

open Lib

/-- Where a thread is in `pthread_key`. -/
inductive Place
  | outside
  | check
  | lock
  | recheck
  | create
  | setFlag
  | unlock
  | ret
  deriving DecidableEq, Repr

/-- One step of a thread; the two tests with what they found. -/
inductive Action
  | call
  | check (initialised : Bool)
  | lock
  | recheck (initialised : Bool)
  | create
  | setFlag
  | unlock
  | ret
  deriving DecidableEq, Repr

variable {τ : Type*}

/-- The statics of `pthread_key`, how often the key has been made, and the
threads. -/
structure State (τ : Type*) where
  keyInitialised : Bool
  lock : Option τ
  created : Nat
  place : τ → Place

/-- Before any call. -/
def State.init : State τ := ⟨false, none, 0, fun _ => .outside⟩

variable [DecidableEq τ]

/-- Thread `t` goes on to `p`. -/
def State.goto (s : State τ) (t : τ) (p : Place) : State τ :=
  { s with place := Function.update s.place t p }

@[simp] theorem goto_keyInitialised (s : State τ) (t : τ) (p : Place) :
    (s.goto t p).keyInitialised = s.keyInitialised := rfl

@[simp] theorem goto_lock (s : State τ) (t : τ) (p : Place) : (s.goto t p).lock = s.lock := rfl

@[simp] theorem goto_created (s : State τ) (t : τ) (p : Place) :
    (s.goto t p).created = s.created := rfl

theorem place_goto (s : State τ) (t : τ) (p : Place) (u : τ) :
    (s.goto t p).place u = if u = t then p else s.place u := by
  simp only [State.goto, Function.update_apply]

/-- The next step of thread `t`; a thread that waits for the mutex has none. -/
def step (s : State τ) (t : τ) : Option (Action × State τ) :=
  match s.place t with
  | .outside => some (.call, s.goto t .check)
  | .check => some (.check s.keyInitialised, s.goto t (if s.keyInitialised then .ret else .lock))
  | .lock =>
      match s.lock with
      | none => some (.lock, { s.goto t .recheck with lock := some t })
      | some _ => none
  | .recheck =>
      some (.recheck s.keyInitialised, s.goto t (if s.keyInitialised then .ret else .create))
  | .create => some (.create, { s.goto t .setFlag with created := s.created + 1 })
  | .setFlag => some (.setFlag, { s.goto t .unlock with keyInitialised := true })
  | .unlock => some (.unlock, { s.goto t .ret with lock := none })
  | .ret => some (.ret, s.goto t .outside)

/-- Thread `i.1` takes step `i.2`. -/
def Step (s : State τ) (i : τ × Action) (s' : State τ) : Prop := step s i.1 = some (i.2, s')

/-- No thread is inside the function. -/
def State.Quiet (s : State τ) : Prop := ∀ t, s.place t = .outside

/-- Some thread has returned from between `lock` and `unlock`. -/
def Lost (is : List (τ × Action)) : Prop := ∃ t, (t, Action.recheck true) ∈ is

/-! ## The invariant -/

/-- Between taking the mutex and giving it back. -/
def Place.critical : Place → Bool
  | .recheck | .create | .setFlag | .unlock => true
  | _ => false

/-- What the flag and the key are when a thread is at a place, and no other one is in the critical
section. -/
def Place.Agrees (p : Place) (flag : Bool) (created : Nat) : Prop :=
  match p with
  | .create => flag = false ∧ created = 0
  | .setFlag => flag = false ∧ created = 1
  | .unlock => flag = true ∧ created = 1
  | .outside | .check | .lock | .recheck | .ret => created = flag.toNat

/-- The key is made by the holder of the mutex, once, before the flag is set; and
the mutex is held by a thread outside the critical section exactly when one has
left it without giving the mutex back, after which the flag is set for good. -/
structure Inv (is : List (τ × Action)) (s : State τ) : Prop where
  holder : ∀ u, (s.place u).critical = true → s.lock = some u
  unmade : s.keyInitialised = false → (∀ u, s.place u ≠ .setFlag) → s.created = 0
  making : ∀ u, s.place u = .setFlag → s.created = 1
  made : s.keyInitialised = true → s.created = 1
  unset : ∀ u, s.place u = .create ∨ s.place u = .setFlag → s.keyInitialised = false
  set : ∀ u, s.place u = .unlock → s.keyInitialised = true
  kept : ¬ Lost is → ∀ u, s.lock = some u → (s.place u).critical = true
  lost : Lost is → s.keyInitialised = true ∧
    ∃ u, s.lock = some u ∧ (s.place u).critical = false

omit [DecidableEq τ] in
theorem inv_init : Inv [] (State.init : State τ) where
  holder := fun u h => by cases h
  unmade := fun _ _ => rfl
  making := fun u h => by cases h
  made := fun h => by cases h
  unset := fun u h => by rcases h with h | h <;> cases h
  set := fun u h => by cases h
  kept := fun _ u h => by cases h
  lost := fun ⟨u, h⟩ => by cases h

section Preserved
variable {is : List (τ × Action)} {s s' : State τ} {t u : τ} {a : Action} {p : Place}

omit [DecidableEq τ] in
theorem lost_snoc : Lost (is ++ [(t, a)]) ↔ Lost is ∨ a = .recheck true := by
  simp only [Lost, List.mem_append, List.mem_singleton, Prod.mk.injEq]
  constructor
  · rintro ⟨u, h | ⟨-, rfl⟩⟩
    · exact .inl ⟨u, h⟩
    · exact .inr rfl
  · rintro (⟨u, h⟩ | rfl)
    · exact ⟨u, .inl h⟩
    · exact ⟨t, .inr ⟨rfl, rfl⟩⟩

omit [DecidableEq τ] in
/-- Only one thread is in the critical section. -/
theorem Inv.alone (h : Inv is s) (ht : (s.place t).critical = true) (hne : u ≠ t) :
    (s.place u).critical = false := by
  by_contra hu
  have hut := h.holder u (by simpa using hu)
  rw [h.holder t ht] at hut
  exact hne (Option.some.inj hut).symm

omit [DecidableEq τ] in
/-- Once a thread has left with the mutex, no thread is in the critical section. -/
theorem Inv.not_lost (h : Inv is s) (ht : (s.place t).critical = true) : ¬ Lost is := by
  intro hl
  obtain ⟨-, u, hu, hcrit⟩ := h.lost hl
  rw [h.holder t ht] at hu
  cases hu
  rw [ht] at hcrit
  cases hcrit

/-- A step outside the critical section. -/
theorem Inv.move (h : Inv is s) (hold : (s.place t).critical = false)
    (hnew : p.critical = false) (ha : a ≠ .recheck true) :
    Inv (is ++ [(t, a)]) (s.goto t p) := by
  -- the places that the invariant names are critical, so `t` is at none of them
  have hcrit : ∀ u, ((s.goto t p).place u).critical = true ↔ (s.place u).critical = true := by
    intro u
    rw [place_goto]
    split
    · next heq => rw [heq, hold, hnew]
    · rfl
  have hplace : ∀ u q, q.critical = true → ((s.goto t p).place u = q ↔ s.place u = q) := by
    intro u q hq
    rw [place_goto]
    split
    · next heq =>
      rw [heq]
      constructor
      · intro hp
        rw [hp, hq] at hnew
        cases hnew
      · intro hp
        rw [hp, hq] at hold
        cases hold
    · rfl
  have hl : Lost (is ++ [(t, a)]) ↔ Lost is := by
    rw [lost_snoc]
    exact or_iff_left ha
  refine ⟨fun u hu => h.holder u ((hcrit u).mp hu), fun hf hno => h.unmade hf fun u hu =>
    hno u ((hplace u _ rfl).mpr hu), fun u hu => h.making u ((hplace u _ rfl).mp hu), h.made,
    fun u hu => h.unset u (hu.imp (hplace u _ rfl).mp (hplace u _ rfl).mp),
    fun u hu => h.set u ((hplace u _ rfl).mp hu),
    fun hno u hu => (hcrit u).mpr (h.kept (fun hl' => hno (hl.mpr hl')) u hu), fun hlost => ?_⟩
  obtain ⟨hset, u, hu, hout⟩ := h.lost (hl.mp hlost)
  refine ⟨hset, u, hu, ?_⟩
  rw [← Bool.not_eq_true, hcrit u, hout]
  exact Bool.false_ne_true

omit [DecidableEq τ] in
/-- While `t` is the only thread that can be in the critical section, and nobody has left with the
mutex, the invariant is about `t` alone. -/
theorem Inv.of_holder (hno : ¬ Lost is) (hothers : ∀ u, u ≠ t → (s.place u).critical = false)
    (hlock : s.lock = if (s.place t).critical then some t else none)
    (hagrees : (s.place t).Agrees s.keyInitialised s.created) : Inv is s := by
  have honly : ∀ {u q}, s.place u = q → q.critical = true → u = t := by
    intro u q hu hq
    by_contra hne
    rw [← hu, hothers u hne] at hq
    cases hq
  refine ⟨fun u hu => ?_, fun hflag hnot => ?_, fun u hu => ?_, fun hflag => ?_, fun u hu => ?_,
    fun u hu => ?_, fun _ u hu => ?_, fun hlost => absurd hlost hno⟩
  · obtain rfl := honly rfl hu
    rw [hlock, if_pos hu]
  · cases hp : s.place t with
    | create =>
        rw [hp] at hagrees
        exact hagrees.2
    | setFlag => exact absurd hp (hnot t)
    | unlock =>
        rw [hp, hflag] at hagrees
        cases hagrees.1
    | outside | check | lock | recheck | ret =>
        rw [hp, hflag] at hagrees
        exact hagrees
  · obtain rfl := honly hu rfl
    rw [hu] at hagrees
    exact hagrees.2
  · cases hp : s.place t with
    | create | setFlag =>
        rw [hp, hflag] at hagrees
        cases hagrees.1
    | unlock =>
        rw [hp] at hagrees
        exact hagrees.2
    | outside | check | lock | recheck | ret =>
        rw [hp, hflag] at hagrees
        exact hagrees
  · obtain rfl := honly rfl (by rcases hu with hu | hu <;> rw [hu] <;> rfl)
    rcases hu with hu | hu
    · rw [hu] at hagrees
      exact hagrees.1
    · rw [hu] at hagrees
      exact hagrees.1
  · obtain rfl := honly hu rfl
    rw [hu] at hagrees
    exact hagrees.1
  · rw [hlock] at hu
    split at hu
    · next hcrit =>
      cases hu
      exact hcrit
    · cases hu

omit [DecidableEq τ] in
/-- With nobody at `setFlag`, the key has been made if the flag is set. -/
theorem Inv.created_eq (h : Inv is s) (hnot : ∀ u, s.place u ≠ .setFlag) :
    s.created = s.keyInitialised.toNat := by
  cases hflag : s.keyInitialised with
  | false => exact h.unmade hflag hnot
  | true => exact h.made hflag

/-- Taking the mutex: nobody was in the critical section. -/
theorem Inv.lock (h : Inv is s) (hfree : s.lock = none) :
    Inv (is ++ [(t, .lock)]) { s.goto t .recheck with lock := some t } := by
  have hout : ∀ u, (s.place u).critical = false := by
    intro u
    rw [← Bool.not_eq_true]
    intro hu
    rw [h.holder u hu] at hfree
    cases hfree
  refine .of_holder (t := t) ?_ (fun u hne => ?_) ?_ ?_
  · rw [lost_snoc]
    rintro (hlost | ha)
    · obtain ⟨-, u, hu, -⟩ := h.lost hlost
      rw [hfree] at hu
      cases hu
    · cases ha
  · rw [place_goto, if_neg hne]
    exact hout u
  · rw [place_goto, if_pos rfl]
    rfl
  · rw [place_goto, if_pos rfl]
    refine h.created_eq fun u hu => ?_
    have hu' := hout u
    rw [hu] at hu'
    cases hu'

/-- A step of the holder of the mutex, other than the one that leaves with it. -/
theorem Inv.proceed (h : Inv is s) (ht : (s.place t).critical = true) (ha : a ≠ .recheck true)
    (hplace : s'.place = (s.goto t p).place)
    (hlock : s'.lock = if p.critical then some t else none)
    (hagrees : p.Agrees s'.keyInitialised s'.created) : Inv (is ++ [(t, a)]) s' := by
  have hp : s'.place t = p := by rw [hplace, place_goto, if_pos rfl]
  refine .of_holder (t := t) ?_ (fun u hne => ?_) (by rw [hp, hlock]) (by rw [hp]; exact hagrees)
  · rw [lost_snoc]
    exact not_or.mpr ⟨h.not_lost ht, ha⟩
  · rw [hplace, place_goto, if_neg hne]
    exact h.alone ht hne

omit [DecidableEq τ] in
/-- Another thread than the holder is not at `setFlag`. -/
theorem Inv.not_setFlag (h : Inv is s) (ht : (s.place t).critical = true)
    (hnot : s.place t ≠ .setFlag) (u : τ) : s.place u ≠ .setFlag := by
  intro hu
  by_cases hne : u = t
  · exact hnot (hne ▸ hu)
  · have hout := h.alone ht hne
    rw [hu] at hout
    cases hout

/-- Finding the flag set, and leaving with the mutex. -/
theorem Inv.recheckSet (h : Inv is s) (ht : s.place t = .recheck)
    (hflag : s.keyInitialised = true) : Inv (is ++ [(t, .recheck true)]) (s.goto t .ret) := by
  have hcrit : (s.place t).critical = true := by rw [ht]; rfl
  have hlost : Lost (is ++ [(t, .recheck true)]) := lost_snoc.mpr (.inr rfl)
  -- now nobody is in the critical section
  have hout : ∀ u, ((s.goto t .ret).place u).critical = false := by
    intro u
    rw [place_goto]
    split
    · rfl
    · next hne => exact h.alone hcrit hne
  have hnot : ∀ {u q}, (s.goto t .ret).place u = q → q.critical = true → False := by
    intro u q hu hq
    rw [← hu, hout u] at hq
    cases hq
  refine ⟨fun u hu => (hnot rfl hu).elim, fun hf => ?_, fun u hu => (hnot hu rfl).elim, h.made,
    fun u hu => (hu.elim (hnot · rfl) (hnot · rfl)).elim, fun _ _ => hflag,
    fun hno => absurd hlost hno, fun _ => ⟨hflag, t, h.holder t hcrit, hout t⟩⟩
  rw [goto_keyInitialised, hflag] at hf
  cases hf

theorem Inv.step {i : τ × Action} (h : Inv is s) (hs : Step s i s') : Inv (is ++ [i]) s' := by
  obtain ⟨t, a⟩ := i
  simp only [Step, KeySingleton.step] at hs
  cases hp : s.place t with
  | outside =>
      rw [hp] at hs
      cases hs
      exact h.move (by rw [hp]; rfl) rfl (by decide)
  | check =>
      rw [hp] at hs
      cases hs
      refine h.move (by rw [hp]; rfl) ?_ Action.noConfusion
      split <;> rfl
  | lock =>
      rw [hp] at hs
      cases hfree : s.lock with
      | none =>
          simp only [hfree] at hs
          cases hs
          exact h.lock hfree
      | some u =>
          simp only [hfree] at hs
          cases hs
  | recheck =>
      rw [hp] at hs
      cases hs
      have hcrit : (s.place t).critical = true := by rw [hp]; rfl
      cases hflag : s.keyInitialised with
      | false =>
          refine h.proceed hcrit (by decide) rfl (h.holder t hcrit) ⟨hflag, ?_⟩
          exact h.unmade hflag (h.not_setFlag hcrit (by rw [hp]; exact Place.noConfusion))
      | true => exact h.recheckSet hp hflag
  | create =>
      rw [hp] at hs
      cases hs
      have hcrit : (s.place t).critical = true := by rw [hp]; rfl
      have hflag := h.unset t (.inl hp)
      have hnone := h.unmade hflag (h.not_setFlag hcrit (by rw [hp]; exact Place.noConfusion))
      refine h.proceed hcrit Action.noConfusion rfl (h.holder t hcrit) ⟨hflag, ?_⟩
      rw [hnone]
  | setFlag =>
      rw [hp] at hs
      cases hs
      have hcrit : (s.place t).critical = true := by rw [hp]; rfl
      exact h.proceed hcrit Action.noConfusion rfl (h.holder t hcrit) ⟨rfl, h.making t hp⟩
  | unlock =>
      rw [hp] at hs
      cases hs
      have hcrit : (s.place t).critical = true := by rw [hp]; rfl
      refine h.proceed hcrit Action.noConfusion rfl rfl ?_
      exact h.created_eq (h.not_setFlag hcrit (by rw [hp]; exact Place.noConfusion))
  | ret =>
      rw [hp] at hs
      cases hs
      exact h.move (by rw [hp]; rfl) rfl (by decide)

end Preserved

omit [DecidableEq τ] in
/-- The key is made at most once. -/
theorem Inv.created_le {is : List (τ × Action)} {s : State τ} (h : Inv is s) : s.created ≤ 1 := by
  cases hf : s.keyInitialised with
  | true => exact Nat.le_of_eq (h.made hf)
  | false =>
      by_cases hno : ∀ u, s.place u ≠ .setFlag
      · rw [h.unmade hf hno]
        exact Nat.zero_le 1
      · obtain ⟨u, hu⟩ := not_forall.mp hno
        exact Nat.le_of_eq (h.making u (not_not.mp hu))

/-- The key singleton: in every state any number of threads can reach, the key
has been made once at most; and with nobody inside `pthread_key` the mutex is
free exactly when no thread has found the flag set after taking it. -/
theorem key_singleton_iff {is : List (τ × Action)} {s : State τ}
    (h : Run Step State.init is s) :
    s.created ≤ 1 ∧ (s.Quiet → (s.lock = none ↔ ¬ Lost is)) := by
  have hinv : Inv is s := h.track (P := Inv) inv_init fun h hs => h.step hs
  refine ⟨hinv.created_le, fun hquiet => ⟨fun hfree hlost => ?_, fun hno => ?_⟩⟩
  · obtain ⟨-, u, hu, -⟩ := hinv.lost hlost
    rw [hfree] at hu
    cases hu
  · rw [Option.eq_none_iff_forall_ne_some]
    intro u hu
    have hcrit := hinv.kept hno u hu
    rw [hquiet u] at hcrit
    cases hcrit

/-- One thread alone, from the call to the return. -/
def alone (t : τ) : List (τ × Action) :=
  [(t, .call), (t, .check false), (t, .lock), (t, .recheck false), (t, .create), (t, .setFlag),
    (t, .unlock), (t, .ret)]

/-- Taking the steps of a list, if the threads can take them. -/
def exec (s : State τ) (is : List (τ × Action)) : Option (State τ) :=
  is.foldlM (fun s i => (step s i.1).bind fun r => if r.1 = i.2 then some r.2 else none) s

theorem run_of_exec {is : List (τ × Action)} {s s' : State τ} (h : exec s is = some s') :
    Run Step s is s' := by
  refine Run.of_exec (fun {s i t} hst => ?_) h
  obtain ⟨r, hr, hst⟩ := Option.bind_eq_some_iff.mp hst
  split at hst
  · rename_i ha
    cases hst
    rw [Step, hr, ← ha]
  · cases hst

theorem key_singleton_iff_alone : ∃ s : State Bool, Run Step State.init (alone true) s ∧
    s.Quiet ∧ s.created = 1 ∧ s.lock = none := by
  have hexec : (exec (State.init : State Bool) (alone true)).any
      (fun s => s.created = 1 ∧ ∀ t, s.place t = .outside) = true := by decide
  obtain ⟨s, hs, hcheck⟩ := (Option.any_eq_true _ _).mp hexec
  obtain ⟨hcreated, hquiet⟩ := of_decide_eq_true hcheck
  have hrun := run_of_exec hs
  refine ⟨s, hrun, hquiet, hcreated, ((key_singleton_iff hrun).2 hquiet).mpr ?_⟩
  rintro ⟨t, ht⟩
  revert t
  decide

/-- The second thread passes the first test before the first thread makes the
key, and takes the mutex after it: both have returned, and the mutex is held. -/
theorem loser_keeps_mutex : ∃ is, ∃ s : State Bool, Run Step State.init is s ∧ s.Quiet ∧
    s.lock ≠ none := by
  have hexec : (exec (State.init : State Bool)
      ([(false, .call), (false, .check false)] ++ alone true ++
        [(false, .lock), (false, .recheck true), (false, .ret)])).any
      (fun s => s.lock ≠ none ∧ ∀ t, s.place t = .outside) = true := by decide
  obtain ⟨s, hs, hcheck⟩ := (Option.any_eq_true _ _).mp hexec
  obtain ⟨hheld, hquiet⟩ := of_decide_eq_true hcheck
  exact ⟨_, s, run_of_exec hs, hquiet, hheld⟩

end Tesla.Runtime.KeySingleton
