/-
# `Tesla.Runtime.Class` — a class of instances and the slot table behind it

`struct tesla_class` and the operations of `libtesla/src/tesla_class.c`: a
fixed table of instance slots, of which a slot is free when its instance
"looks inactive" (state 0 and an empty mask), together with the counter
`tc_free` that is meant to say how many are.

    tesla_class_init       `classInit`
    tesla_class_reset      `classReset`
    tesla_instance_active  `instanceActive`
    tesla_instance_new     `instanceNew`
    tesla_instance_clone   `instanceClone`
    tesla_instance_clear   `Instance.zero`  (a `bzero` of the slot)

The table carries its own length, so `tc_limit` is the length of
`tc_instances` and the two cannot come apart.  The counter is an ordinary
field: whether it is right is a theorem, not a definition.
-/
import Tesla.Runtime.Automaton

namespace Tesla.Runtime

/-- The ways a call ends without returning: an assertion that fails, or a
pointer that is followed outside what it points to. -/
inductive Abort
  /-- `tesla_sunrise`, `tesla_sunset`: `ts_lifetime_count < ts_length` -/
  | lifetimeTableFull
  /-- `"tesla_sunset() without corresponding sunrise"` -/
  | sunsetWithoutSunrise
  /-- `tesla_update_state`: `ret == TESLA_SUCCESS` after `tesla_class_get` -/
  | noClassSlot
  /-- `tesla_class_init`: `instances > 0` -/
  | noInstances
  /-- `tesla_instance_new`: `"no free instances but tc_free was > 0"` -/
  | noFreeInstance
  /-- `tesla_update_class_state`: `tesla_instance_active(inst)` -/
  | inactiveNewInstance
  /-- `tesla_update_class_state`: `trans->length > 0` -/
  | noTransitions
  /-- `tesla_update_class_state`: `trans->length < 10000` -/
  | tooManyTransitions
  /-- `tesla_update_class_state`: `tls_dyn_count < tls_dyn_capacity` -/
  | dynCapacity
  /-- `tesla_update_class_state`: `target >= 0` in the JOIN case -/
  | joinTarget
  /-- `tesla_action`: `inst->ti_key.tk_mask == t->from_mask` -/
  | instanceMask
  /-- not an assertion: a symbol, class or automaton pointer out of range -/
  | wildPointer
  deriving DecidableEq, Repr

/-- `struct tesla_instance`. -/
structure Instance where
  tiKey : Key
  tiState : Nat

instance : DecidableEq Instance := fun ⟨k, q⟩ ⟨k', q'⟩ =>
  decidable_of_iff (k = k' ∧ q = q') (by rw [Instance.mk.injEq])

/-- What `tesla_instance_clear` and `tesla_class_reset` write into a slot. -/
def Instance.zero : Instance := ⟨Key.zero, 0⟩

/-- `tesla_instance_active`. -/
def instanceActive (inst : Instance) : Bool :=
  inst.tiState != 0 || inst.tiKey.tkMask != 0

/-- `struct tesla_class`, without its context and its lock. -/
structure Class where
  tcAutomaton : Option Ptr
  tcFree : Nat
  tcInstances : List Instance

instance : DecidableEq Class := fun ⟨a, n, is⟩ ⟨a', n', is'⟩ =>
  decidable_of_iff (a = a' ∧ n = n' ∧ is = is') (by rw [Class.mk.injEq])

/-- `tc_limit`. -/
def Class.tcLimit (c : Class) : Nat := c.tcInstances.length

/-- The number of active instances. -/
def Class.active (c : Class) : Nat := c.tcInstances.countP instanceActive

/-- Writing one slot. -/
def Class.setInstance (c : Class) (i : Nat) (inst : Instance) : Class :=
  { c with tcInstances := c.tcInstances.set i inst }

/-- `tesla_class_init`, the allocation succeeding. -/
def classInit (c : Class) (instances : UInt32) : Except Abort Class :=
  if instances = 0 then .error .noInstances
  else .ok { c with
    tcFree := instances.toNat
    tcInstances := List.replicate instances.toNat Instance.zero }

/-- `tesla_class_reset`. -/
def classReset (c : Class) : Class :=
  { c with
    tcFree := c.tcLimit
    tcInstances := List.replicate c.tcLimit Instance.zero }

/-- How `tesla_instance_new` ends when it creates nothing. -/
inductive Stop
  | err (e : Err)
  | abort (a : Abort)
  deriving DecidableEq

/-- `tesla_instance_new`: the class and the slot that was taken. -/
def instanceNew (c : Class) (name : Key) (state : Nat) : Except Stop (Class × Nat) :=
  -- a new instance must not look inactive
  if state = 0 ∧ name.tkMask = 0 then .error (.err .einval)
  else if c.tcFree = 0 then .error (.err .enomem)
  else
    match c.tcInstances.findIdx? (fun inst => !instanceActive inst) with
    | some i => .ok ({ c.setInstance i ⟨name, state⟩ with tcFree := c.tcFree - 1 }, i)
    | none => .error (.abort .noFreeInstance)

/-- `tesla_instance_clone`. -/
def instanceClone (c : Class) (orig : Instance) : Except Stop (Class × Nat) :=
  instanceNew c orig.tiKey orig.tiState

/-! ## The table and its length -/

@[simp] theorem instanceActive_zero : instanceActive Instance.zero = false := by decide

theorem instanceActive_iff {inst : Instance} :
    instanceActive inst = true ↔ inst.tiState ≠ 0 ∨ inst.tiKey.tkMask ≠ 0 := by
  simp [instanceActive]

@[simp] theorem Class.setInstance_tcLimit (c : Class) (i : Nat) (inst : Instance) :
    (c.setInstance i inst).tcLimit = c.tcLimit := by simp [setInstance, tcLimit]

@[simp] theorem Class.setInstance_tcFree (c : Class) (i : Nat) (inst : Instance) :
    (c.setInstance i inst).tcFree = c.tcFree := rfl

@[simp] theorem Class.setInstance_tcAutomaton (c : Class) (i : Nat) (inst : Instance) :
    (c.setInstance i inst).tcAutomaton = c.tcAutomaton := rfl

@[simp] theorem Class.setInstance_tcInstances (c : Class) (i : Nat) (inst : Instance) :
    (c.setInstance i inst).tcInstances = c.tcInstances.set i inst := rfl

/-! ## What the class operations do -/

@[simp] theorem classReset_tcLimit (c : Class) : (classReset c).tcLimit = c.tcLimit := by
  simp [classReset, Class.tcLimit]

@[simp] theorem classReset_tcFree (c : Class) : (classReset c).tcFree = c.tcLimit := rfl

@[simp] theorem classReset_active (c : Class) : (classReset c).active = 0 := by
  simp [classReset, Class.active, List.countP_replicate]

/-- The one successful outcome of `tesla_instance_new`: the first inactive slot
is overwritten and the counter goes down by one. -/
theorem instanceNew_ok {c c' : Class} {name : Key} {state i : Nat}
    (h : instanceNew c name state = .ok (c', i)) :
    (state ≠ 0 ∨ name.tkMask ≠ 0) ∧ 0 < c.tcFree ∧
      (∃ old, c.tcInstances[i]? = some old ∧ instanceActive old = false) ∧
      c' = { c.setInstance i ⟨name, state⟩ with tcFree := c.tcFree - 1 } := by
  unfold instanceNew at h
  split at h
  · cases h
  · rename_i hact
    split at h
    · cases h
    · rename_i hfree
      split at h
      · rename_i j hj
        cases h
        rw [List.findIdx?_eq_some_iff_getElem] at hj
        obtain ⟨hlt, hold, _⟩ := hj
        refine ⟨?_, Nat.pos_of_ne_zero hfree, ⟨_, List.getElem?_eq_getElem hlt, ?_⟩, rfl⟩
        · by_cases hs : state = 0
          · exact Or.inr fun hm => hact ⟨hs, hm⟩
          · exact Or.inl hs
        · simpa using hold
      · cases h

/-- With an inactive slot left, `tesla_instance_new` only fails in the two ways
its caller is told about. -/
theorem instanceNew_error {c : Class} {name : Key} {state : Nat} {s : Stop}
    (h : instanceNew c name state = .error s) :
    (s = .err .einval ∧ state = 0 ∧ name.tkMask = 0) ∨ (s = .err .enomem ∧ c.tcFree = 0) ∨
      (s = .abort .noFreeInstance ∧ 0 < c.tcFree ∧ c.active = c.tcLimit) := by
  unfold instanceNew at h
  split at h
  · rename_i hz; cases h; exact Or.inl ⟨rfl, hz⟩
  · split at h
    · rename_i hf; cases h; exact Or.inr (Or.inl ⟨rfl, hf⟩)
    · rename_i hf
      split at h
      · cases h
      · rename_i hn
        cases h
        refine Or.inr (Or.inr ⟨rfl, Nat.pos_of_ne_zero hf, ?_⟩)
        rw [List.findIdx?_eq_none_iff] at hn
        exact List.countP_eq_length.mpr fun inst hinst => by simpa using hn inst hinst

end Tesla.Runtime
