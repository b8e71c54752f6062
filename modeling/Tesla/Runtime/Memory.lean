/-
# `Tesla.Runtime.Memory` — acquiring a store when allocations may fail

The rest of the development takes the store as it is once `tesla_store_init`
has succeeded.  Here it is what it is in memory: tables are pointers, NULL
until they are allocated, and every allocation may fail.

    tesla_class_init    `classInit`    the table of instances
    tesla_store_init    `storeInit`    the class table, the classes, the table of lifetimes
    tesla_store_get     `storeGet`     the global store, or that of the calling thread

`tesla_store_init` sets `ts_length` before it allocates anything, and
`tesla_store_get` takes a store with a length for one that is initialised; the
result of the allocation of a table of instances is not looked at.  So whether
a store is complete is settled by the first call for it
(`store_complete_iff`).  A complete store reads as a `Runtime.Store`, and a
fresh one as `Runtime.storeInit`                          (`view_storeInit`).

The pointer that `tesla_store_get` caches for a thread is never another than
the thread-specific one, so only the latter is kept here.
-/
import Tesla.Runtime.Store

namespace Tesla.Runtime.Memory

open Lib

/-- `enum tesla_context`; an `int` may be neither of the two. -/
inductive Context
  | global
  | thread
  | other
  deriving DecidableEq, Repr

/-- The assertions and NULL pointers in the way of a store. -/
inductive Abort
  /-- `tesla_store_init`: `classes > 0` -/
  | noClasses
  /-- `tesla_store_init`, `tesla_class_init`: `instances > 0` -/
  | noInstances
  /-- `tesla_class_init`: `"unhandled TESLA context"` -/
  | unhandledContext
  /-- `tesla_store_get`: `store->ts_length` of a store that is NULL -/
  | nullStore
  /-- `tesla_store_init`: `bzero` of a table of lifetimes that is NULL -/
  | nullLifetimes
  deriving DecidableEq, Repr

/-- `struct tesla_class`, without its lock. -/
structure Class where
  tcAutomaton : Option Ptr
  tcContext : Context
  tcLimit : Nat
  tcFree : Nat
  tcInstances : Option (List Instance)

/-- What `calloc` leaves. -/
def Class.zero : Class := ⟨none, .global, 0, 0, none⟩

/-- `struct tesla_store`. -/
structure Store where
  tsLength : Nat
  tsClasses : Option (List Class)
  tsLifetimes : Option (List LifetimeState)
  tsLifetimeCount : Nat

/-- The global store before the first call, and what `calloc` leaves. -/
def Store.zero : Store := ⟨0, none, none, 0⟩

/-- A zeroed entry of the table of lifetimes. -/
def lifetimeZero : LifetimeState :=
  LifetimeState.fresh ⟨⟨[], 0, 0⟩, ⟨[], 0, 0⟩⟩

/-- Which of the allocations of a call succeed. -/
structure Allocations where
  store : Bool
  classes : Bool
  instances : Nat → Bool
  lifetimes : Bool

/-- `tesla_malloc`. -/
def malloc {α : Type*} (ok : Bool) (x : α) : Option α := if ok then some x else none

/-- `tesla_class_init`.  Both `postinit` functions return success. -/
def classInit (context : Context) (instances : UInt32) (ok : Bool) (c : Class) :
    Except Abort Class :=
  if instances = 0 then .error .noInstances
  else
    match context with
    | .other => .error .unhandledContext
    | .global | .thread => .ok { c with
        tcLimit := instances.toNat
        tcContext := context
        tcFree := instances.toNat
        tcInstances := malloc ok (List.replicate instances.toNat Instance.zero) }

/-- The loop of `tesla_store_init`, from class `i` on. -/
def initClasses (context : Context) (instances : UInt32) (ok : Nat → Bool) :
    Nat → List Class → Except Abort (List Class)
  | _, [] => .ok []
  | i, c :: cs =>
      match classInit context instances (ok i) c with
      | .error a => .error a
      | .ok c' => (initClasses context instances ok (i + 1) cs).map (c' :: ·)

/-- `tesla_store_init`. -/
def storeInit (context : Context) (classes instances : UInt32) (al : Allocations) (s : Store) :
    Except Abort (Store × Err) :=
  if classes = 0 then .error .noClasses
  else if instances = 0 then .error .noInstances
  else
    match malloc al.classes (List.replicate classes.toNat Class.zero) with
    | none => .ok ({ s with tsLength := classes.toNat, tsClasses := none }, .enomem)
    | some cs =>
        match initClasses context instances al.instances 0 cs with
        | .error a => .error a
        | .ok cs' =>
            match malloc al.lifetimes (List.replicate classes.toNat lifetimeZero) with
            | none => .error .nullLifetimes
            | some ls => .ok (⟨classes.toNat, some cs', some ls, 0⟩, .success)

/-- The end of `tesla_store_get`, for the store it has found. -/
def acquire (context : Context) (classes instances : UInt32) (al : Allocations) (s : Store) :
    Except Abort (Store × Err) :=
  if s.tsLength = 0 then storeInit context classes instances al s else .ok (s, .success)

/-- The stores of the process: the global one, and for each thread what
`pthread_getspecific` gives. -/
structure Process where
  globalStore : Store
  specific : Nat → Option Store

def Process.init : Process := ⟨Store.zero, fun _ => none⟩

/-- What `*storep` points to. -/
inductive StoreRef
  | global
  | thread (t : Nat)
  deriving DecidableEq, Repr

/-- The store behind a pointer. -/
def Process.read (p : Process) : StoreRef → Option Store
  | .global => some p.globalStore
  | .thread t => p.specific t

def Process.write (p : Process) (s : Store) : StoreRef → Process
  | .global => { p with globalStore := s }
  | .thread t => { p with specific := Function.update p.specific t (some s) }

/-- One call of `tesla_store_get`, by `thread`. -/
structure Call where
  thread : Nat
  context : Context
  classes : UInt32
  instances : UInt32
  al : Allocations

/-- The store a call is for. -/
def Call.ref (k : Call) : Option StoreRef :=
  match k.context with
  | .global => some .global
  | .thread => some (.thread k.thread)
  | .other => none

/-- `tesla_store_get`: the process, the error code and `*storep`. -/
def storeGet (k : Call) (p : Process) : Except Abort (Process × Err × Option StoreRef) :=
  match k.ref with
  | none => .ok (p, .einval, none)
  | some ref =>
      -- a thread without a store is given a zeroed one; the global store is there
      match (p.read ref).orElse fun _ => malloc k.al.store Store.zero with
      | none => .error .nullStore
      | some s =>
          match acquire k.context k.classes k.instances k.al s with
          | .error a => .error a
          | .ok (s', .success) => .ok (p.write s' ref, .success, some ref)
          | .ok (s', e) => .ok (p.write s' ref, e, none)

/-- A call that returns. -/
def GetStep (p : Process) (k : Call) (p' : Process) : Prop :=
  ∃ e ref, storeGet k p = .ok (p', e, ref)

/-! ## Complete stores -/

/-- The class has a table of `tc_limit` instances. -/
def Class.Complete (c : Class) : Prop :=
  ∃ insts, c.tcInstances = some insts ∧ insts.length = c.tcLimit

/-- The store has all its tables: `ts_length` classes, each with its table of
instances, and `ts_length` lifetimes. -/
structure Store.Complete (s : Store) : Prop where
  classes : ∃ cs, s.tsClasses = some cs ∧ cs.length = s.tsLength ∧ ∀ c ∈ cs, c.Complete
  lifetimes : ∃ ls, s.tsLifetimes = some ls ∧ ls.length = s.tsLength

/-- The class table and every table of instances are allocated. -/
def Call.Allocates (k : Call) : Prop :=
  k.al.classes = true ∧ ∀ i < k.classes.toNat, k.al.instances i = true

/-! ## One store -/

section One
variable {context : Context} {classes instances : UInt32} {al : Allocations} {s s' : Store}
  {e : Err}

theorem classInit_complete {ok : Bool} {c c' : Class}
    (h : classInit context instances ok c = .ok c') : c'.Complete ↔ ok = true := by
  have hc : c'.tcInstances = malloc ok (List.replicate instances.toNat Instance.zero) ∧
      c'.tcLimit = instances.toNat := by
    simp only [classInit] at h
    split at h
    · cases h
    · cases context with
      | global => cases h; exact ⟨rfl, rfl⟩
      | thread => cases h; exact ⟨rfl, rfl⟩
      | other => cases h
  rw [Class.Complete, hc.1, hc.2]
  cases ok with
  | true => simp [malloc]
  | false => simp [malloc]

theorem initClasses_complete {ok : Nat → Bool} {cs : List Class} : ∀ {i : Nat} {cs' : List Class},
    initClasses context instances ok i cs = .ok cs' →
    cs'.length = cs.length ∧
      ((∀ c ∈ cs', c.Complete) ↔ ∀ j < cs.length, ok (i + j) = true) := by
  induction cs with
  | nil =>
      intro i cs' h
      cases h
      simp
  | cons c cs ih =>
      intro i cs' h
      simp only [initClasses] at h
      split at h
      · cases h
      · rename_i c' hc'
        cases hrest : initClasses context instances ok (i + 1) cs with
        | error a => rw [hrest] at h; cases h
        | ok rest =>
            rw [hrest] at h
            cases h
            obtain ⟨hlen, hiff⟩ := ih hrest
            refine ⟨congrArg (· + 1) hlen, ?_⟩
            rw [List.forall_mem_cons, classInit_complete hc', hiff]
            constructor
            · intro ⟨h0, hj⟩ j hlt
              cases j with
              | zero => exact h0
              | succ j =>
                  have := hj j (Nat.lt_of_succ_lt_succ hlt)
                  rwa [Nat.add_assoc, Nat.add_comm 1 j] at this
            · intro h
              refine ⟨h 0 (Nat.zero_lt_succ _), fun j hlt => ?_⟩
              rw [Nat.add_assoc, Nat.add_comm 1 j]
              exact h (j + 1) (Nat.succ_lt_succ hlt)

/-- An initialisation that returns, with whatever code, gives the store its length;
the store is complete exactly when its tables could be allocated. -/
theorem storeInit_complete (h : storeInit context classes instances al s = .ok (s', e)) :
    s'.tsLength ≠ 0 ∧
      (s'.Complete ↔ al.classes = true ∧ ∀ i < classes.toNat, al.instances i = true) := by
  simp only [storeInit] at h
  split at h
  · cases h
  · rename_i hclasses
    have hpos : classes.toNat ≠ 0 := fun h0 => hclasses (UInt32.toNat_inj.mp h0)
    split at h
    · cases h
    · cases hal : al.classes with
      | false =>
          rw [hal] at h
          cases h
          refine ⟨hpos, ⟨fun hc => ?_, fun hc => by cases hc.1⟩⟩
          obtain ⟨cs, hcs, -⟩ := hc.classes
          cases hcs
      | true =>
          simp only [hal, malloc, if_true] at h
          split at h
          · cases h
          · rename_i cs' hcs'
            obtain ⟨hlen, hiff⟩ := initClasses_complete hcs'
            rw [List.length_replicate] at hlen hiff
            simp only [Nat.zero_add] at hiff
            cases hl : al.lifetimes with
            | false => simp [hl] at h
            | true =>
                simp only [hl, if_true] at h
                cases h
                refine ⟨hpos, ?_⟩
                rw [← hiff]
                constructor
                · intro hc
                  obtain ⟨cs, hcs, -, hall⟩ := hc.classes
                  cases hcs
                  exact ⟨rfl, hall⟩
                · intro ⟨_, hall⟩
                  exact ⟨⟨cs', rfl, hlen, hall⟩, ⟨_, rfl, List.length_replicate⟩⟩

end One

/-! ## Sequences of calls -/

section Calls
variable {p p' : Process} {k : Call} {ks : List Call} {ref : StoreRef}

/-- The first call for a store. -/
def firstCall (ref : StoreRef) (ks : List Call) : Option Call :=
  ks.find? fun k => k.ref = some ref

/-- What the calls so far have made of a store. -/
def Made (ks : List Call) (p : Process) (ref : StoreRef) : Prop :=
  match firstCall ref ks with
  | none => ∀ s, p.read ref = some s → s.tsLength = 0
  | some k => ∃ s, p.read ref = some s ∧ s.tsLength ≠ 0 ∧ (s.Complete ↔ k.Allocates)

theorem read_write (p : Process) (s : Store) (ref ref' : StoreRef) :
    (p.write s ref).read ref' = if ref' = ref then some s else p.read ref' := by
  cases ref with
  | global => cases ref' <;> rfl
  | thread t =>
      cases ref' with
      | global => rfl
      | thread t' =>
          show Function.update p.specific t (some s) t' = _
          rw [Function.update_apply]
          simp only [StoreRef.thread.injEq]
          rfl

theorem firstCall_snoc :
    firstCall ref (ks ++ [k]) =
      (firstCall ref ks).or (if k.ref = some ref then some k else none) := by
  simp only [firstCall, List.find?_append, List.find?_cons, List.find?_nil]
  by_cases hk : k.ref = some ref
  · simp [hk]
  · simp [hk]

/-- A call that returns has written its own store, with what `acquire` made of it. -/
theorem storeGet_cases {e : Err} {r : Option StoreRef} (h : storeGet k p = .ok (p', e, r)) :
    (k.ref = none ∧ p' = p ∧ r = none) ∨ ∃ ref s s',
      k.ref = some ref ∧ (p.read ref).getD Store.zero = s ∧
        acquire k.context k.classes k.instances k.al s = .ok (s', e) ∧ p' = p.write s' ref ∧
        (∀ ref', r = some ref' → ref' = ref) := by
  simp only [storeGet] at h
  split at h
  · rename_i hk
    cases h
    exact .inl ⟨hk, rfl, rfl⟩
  · rename_i ref hk
    split at h
    · cases h
    · rename_i s hs
      have hread : (p.read ref).getD Store.zero = s := by
        cases hr : p.read ref with
        | some u =>
            rw [hr] at hs
            exact Option.some.inj hs
        | none =>
            rw [hr] at hs
            simp only [Option.orElse_none, malloc] at hs
            split at hs
            · exact Option.some.inj hs
            · cases hs
      split at h
      · cases h
      · rename_i s' hacq
        cases h
        exact .inr ⟨ref, s, s', hk, hread, hacq, rfl, fun ref' hr => (Option.some.inj hr).symm⟩
      · rename_i s' e' _ hacq
        cases h
        exact .inr ⟨ref, s, s', hk, hread, hacq, rfl, fun ref' hr => by cases hr⟩

theorem Made.step (h : ∀ ref, Made ks p ref) (hstep : GetStep p k p') (ref : StoreRef) :
    Made (ks ++ [k]) p' ref := by
  obtain ⟨e, r, hget⟩ := hstep
  have href := h ref
  rcases storeGet_cases hget with ⟨hk, rfl, -⟩ | ⟨ref₀, s, s', hk, hs, hacq, rfl, -⟩
  · rw [Made, firstCall_snoc, hk, if_neg (by simp), Option.or_none]
    exact href
  · by_cases hsame : ref = ref₀
    · subst hsame
      rw [Made, firstCall_snoc, if_pos hk]
      rw [Made] at href
      simp only [read_write, if_true]
      cases hfirst : firstCall ref ks with
      | none =>
          -- the store has no length yet, and is initialised by this call
          rw [hfirst] at href
          have hzero : s.tsLength = 0 := by
            rw [← hs]
            cases hr : p.read ref with
            | none => rfl
            | some u => exact href u hr
          rw [acquire, if_pos hzero] at hacq
          obtain ⟨hlen, hiff⟩ := storeInit_complete hacq
          exact ⟨s', rfl, hlen, hiff⟩
      | some k₀ =>
          rw [hfirst] at href
          obtain ⟨u, hu, hlen, hiff⟩ := href
          rw [hu] at hs
          obtain rfl : u = s := hs
          rw [acquire, if_neg hlen] at hacq
          cases hacq
          exact ⟨_, rfl, hlen, hiff⟩
    · have hother : k.ref ≠ some ref := by
        rw [hk]
        exact fun heq => hsame (Option.some.inj heq).symm
      rw [Made, firstCall_snoc, if_neg hother, Option.or_none]
      simp only [read_write, if_neg hsame]
      exact href

theorem made_init (ref : StoreRef) : Made [] Process.init ref := by
  intro s hs
  cases ref with
  | global =>
      cases hs
      rfl
  | thread t => cases hs

/-- Store acquisition: a call that returns success yields a complete store exactly
when the first call for that store could allocate the class table and the
tables of instances. -/
theorem store_complete_iff (h : Run GetStep Process.init ks p)
    (hget : storeGet k p = .ok (p', .success, some ref)) :
    (∃ s, p'.read ref = some s ∧ s.Complete) ↔
      ∀ k₀ ∈ firstCall ref (ks ++ [k]), k₀.Allocates := by
  have hmade : ∀ ref, Made (ks ++ [k]) p' ref := by
    have hrun : ∀ ref, Made ks p ref :=
      h.track (P := fun ks p => ∀ ref, Made ks p ref) made_init fun h hs => Made.step h hs
    exact Made.step hrun ⟨_, _, hget⟩
  obtain ⟨k₀, hk₀⟩ : ∃ k₀, firstCall ref (ks ++ [k]) = some k₀ := by
    rcases storeGet_cases hget with ⟨-, -, hr⟩ | ⟨ref₀, s, s', hk, -, -, -, hr⟩
    · cases hr
    · obtain rfl := hr ref rfl
      rw [firstCall_snoc, if_pos hk]
      cases firstCall ref ks with
      | none => exact ⟨k, rfl⟩
      | some k₀ => exact ⟨k₀, rfl⟩
  have href := hmade ref
  rw [Made, hk₀] at href
  obtain ⟨s, hs, -, hiff⟩ := href
  rw [hk₀]
  constructor
  · intro ⟨u, hu, hc⟩ k' hk'
    cases hk'
    rw [hs] at hu
    cases hu
    exact hiff.mp hc
  · intro hall
    exact ⟨s, hs, hiff.mpr (hall k₀ rfl)⟩

/-- A call of the global store, by thread 0. -/
def globalCall (al : Allocations) : Call := ⟨0, .global, 2, 4, al⟩

theorem store_complete_iff_first : ∃ p', ∃ s : Store,
    storeGet (globalCall ⟨true, true, fun _ => true, true⟩) Process.init =
      .ok (p', .success, some .global) ∧ p'.read .global = some s ∧ s.Complete := by
  obtain ⟨s, hs, hc⟩ := (store_complete_iff (k := globalCall ⟨true, true, fun _ => true, true⟩)
    (.nil (s := Process.init)) rfl).mpr (by
      intro k₀ hk₀
      cases hk₀
      exact ⟨rfl, fun _ _ => rfl⟩)
  exact ⟨_, s, rfl, hs, hc⟩

/-- The class table cannot be allocated; the first call says so, and the second
says that all is well. -/
theorem second_call_succeeds : ∃ p p',
    Run GetStep Process.init [globalCall ⟨true, false, fun _ => true, true⟩] p ∧
    storeGet (globalCall ⟨true, true, fun _ => true, true⟩) p =
      .ok (p', .success, some .global) ∧
    ¬ ∃ s, p'.read .global = some s ∧ s.Complete := by
  refine ⟨_, _, .snoc _ .nil ⟨_, _, rfl⟩, rfl, ?_⟩
  intro ⟨s, hs, hc⟩
  cases hs
  obtain ⟨cs, hcs, -⟩ := hc.classes
  cases hcs

end Calls

/-! ## The store as the other calls take it -/

/-- A class that has its table. -/
def Class.view (c : Class) : Option Runtime.Class :=
  c.tcInstances.map fun insts => ⟨c.tcAutomaton, c.tcFree, insts⟩

/-- A store that has its tables. -/
def Store.view (s : Store) : Option Runtime.Store :=
  match s.tsClasses, s.tsLifetimes with
  | some cs, some ls => (cs.mapM Class.view).map fun cs' => ⟨cs', ls.take s.tsLifetimeCount⟩
  | _, _ => none

section View
variable {context : Context} {classes instances : UInt32} {al : Allocations} {s s' : Store}

theorem initClasses_view {ok : Nat → Bool} {n : Nat} : ∀ {i : Nat} {cs' : List Class},
    initClasses context instances ok i (List.replicate n Class.zero) = .ok cs' →
    (∀ j < n, ok (i + j) = true) →
    cs'.mapM Class.view = some (List.replicate n (Class.fresh instances.toNat)) := by
  induction n with
  | zero =>
      intro i cs' h _
      cases h
      rfl
  | succ n ih =>
      intro i cs' h hok
      rw [List.replicate_succ] at h
      simp only [initClasses] at h
      split at h
      · cases h
      · rename_i c' hc'
        cases hrest : initClasses context instances ok (i + 1) (List.replicate n Class.zero) with
        | error a => rw [hrest] at h; cases h
        | ok rest =>
            rw [hrest] at h
            cases h
            have hview : c'.view = some (Class.fresh instances.toNat) := by
              have h0 := hok 0 (Nat.zero_lt_succ _)
              rw [Nat.add_zero] at h0
              simp only [classInit, h0] at hc'
              split at hc'
              · cases hc'
              · cases context with
                | global => cases hc'; rfl
                | thread => cases hc'; rfl
                | other => cases hc'
            have hrest' := ih hrest fun j hj => by
              have := hok (j + 1) (Nat.succ_lt_succ hj)
              rwa [Nat.add_assoc, Nat.add_comm 1 j]
            rw [List.mapM_cons, hview, hrest']
            rfl

/-- A store that has just been initialised is the one the runs of the library
start from. -/
theorem view_storeInit (h : storeInit context classes instances al s = .ok (s', .success))
    (hal : ∀ i < classes.toNat, al.instances i = true) :
    s'.view = some (Runtime.storeInit classes instances) := by
  simp only [storeInit] at h
  split at h
  · cases h
  · split at h
    · cases h
    · split at h
      · cases h
      · rename_i cs hcs
        simp only [malloc] at hcs
        split at hcs
        · cases hcs
          split at h
          · cases h
          · rename_i cs' hcs'
            split at h
            · cases h
            · cases h
              simp only [Store.view]
              rw [initClasses_view hcs' fun j hj => by rw [Nat.zero_add]; exact hal j hj]
              rfl
        · cases hcs

end View

end Tesla.Runtime.Memory
