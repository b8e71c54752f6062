/-
# `Tesla.Automata.Encoding` — events as messages

The structures for the events of an automaton stand for messages of `tesla.proto`.  Each has its
message here, with the numbers of the schema, and events that differ have messages that differ.
So `operator ==` on the messages is equality of the structures, and transitions are in one class
by their labels if and only if they are by their messages.
-/
import Tesla.Automata.EventClasses
import Tesla.Automata.Schema

namespace Tesla.Automata

/-! ## Records -/

/-- What a field can hold. -/
inductive Slot where
  | one (v : Option Value)
  | many (vs : List Value)

namespace Slot

def field? (n : Nat) : Slot → Option Field
  | one v => v.map (.singular n)
  | many [] => none
  | many (v :: vs) => some (.repeated n (v :: vs))

def isOne : Slot → Bool
  | one _ => true
  | many _ => false

/-- The values in a slot are well formed. -/
def WF : Slot → Prop
  | one v => ∀ w ∈ v, w.WF
  | many vs => ∀ w ∈ vs, w.WF

theorem number_of_field? {n : Nat} {s : Slot} {f : Field} (h : s.field? n = some f) :
    f.number = n := by
  cases s with
  | one v =>
    obtain ⟨w, _, rfl⟩ := Option.map_eq_some_iff.mp h
    rfl
  | many vs =>
    cases vs with
    | nil => cases h
    | cons v vs => cases h; rfl

theorem field?_inj {n : Nat} {s s' : Slot} (hone : s.isOne = s'.isOne)
    (h : s.field? n = s'.field? n) : s = s' := by
  cases s with
  | one v =>
    cases s' with
    | one v' =>
      have hinj : Function.Injective (Field.singular n) := fun _ _ h => (Field.singular.inj h).2
      rw [Option.map_injective hinj h]
    | many vs' => cases hone
  | many vs =>
    cases s' with
    | one v' => cases hone
    | many vs' =>
      cases vs <;> cases vs' <;> simp_all [field?]

theorem wf_of_field? {n : Nat} {s : Slot} {f : Field} (hs : s.WF) (h : s.field? n = some f) :
    f.WF := by
  cases s with
  | one v =>
    obtain ⟨w, hw, rfl⟩ := Option.map_eq_some_iff.mp h
    exact Field.wf_singular.mpr (hs w hw)
  | many vs =>
    cases vs with
    | nil => cases h
    | cons v vs =>
      cases h
      exact Field.wf_repeated.mpr ⟨List.cons_ne_nil _ _, hs⟩

end Slot

/-- The message of the type with what is in the slots. -/
def record (type : String) (slots : List (Nat × Slot)) : Message :=
  .mk type (slots.filterMap fun s => s.2.field? s.1)

variable {type : String} {slots slots' : List (Nat × Slot)}

theorem lt_of_mem_record {n : Nat} (h : ∀ s ∈ slots, n < s.1) :
    ∀ f ∈ slots.filterMap fun s => s.2.field? s.1, n < f.number := by
  intro f hf
  obtain ⟨s, hs, hfield⟩ := List.mem_filterMap.mp hf
  rw [Slot.number_of_field? hfield]
  exact h s hs

theorem record_wf (hnumbers : slots.Pairwise fun s s' => s.1 < s'.1) (h : ∀ s ∈ slots, s.2.WF) :
    (record type slots).WF := by
  refine Message.wf_mk.mpr ⟨?_, fun f hf => ?_⟩
  · rw [List.pairwise_map, List.pairwise_filterMap]
    refine hnumbers.imp fun {s s'} hlt f hf f' hf' => ?_
    rwa [Slot.number_of_field? hf, Slot.number_of_field? hf']
  · obtain ⟨s, hs, hfield⟩ := List.mem_filterMap.mp hf
    exact Slot.wf_of_field? (h s hs) hfield

/-- A record tells what is in its slots. -/
theorem record_inj (hnumbers : slots.Pairwise fun s s' => s.1 < s'.1)
    (hsame : slots.map (fun s => (s.1, s.2.isOne)) = slots'.map fun s => (s.1, s.2.isOne))
    (h : record type slots = record type slots') : slots = slots' := by
  have hfields := (Message.mk.inj h).2
  clear h
  induction slots generalizing slots' with
  | nil => exact (List.map_eq_nil_iff.mp hsame.symm).symm
  | cons s slots ih =>
    cases slots' with
    | nil => cases hsame
    | cons s' slots' =>
      rw [List.map_cons, List.map_cons, List.cons.injEq, Prod.mk.injEq] at hsame
      obtain ⟨⟨hnumber, hone⟩, htail⟩ := hsame
      rw [List.pairwise_cons] at hnumbers
      have hlt : ∀ s'' ∈ slots', s.1 < s''.1 := by
        intro s'' hs''
        have hmem : (s''.1, s''.2.isOne) ∈ slots.map fun s => (s.1, s.2.isOne) :=
          htail ▸ List.mem_map_of_mem hs''
        obtain ⟨s₀, hs₀, heq⟩ := List.mem_map.mp hmem
        rw [← (Prod.mk.inj heq).1]
        exact hnumbers.1 s₀ hs₀
      have hslot (heq : s.2.field? s.1 = s'.2.field? s.1) : s = s' :=
        Prod.ext hnumber (Slot.field?_inj hone heq)
      rw [List.filterMap_cons, List.filterMap_cons, ← hnumber] at hfields
      cases hf : s.2.field? s.1 with
      | none =>
        cases hf' : s'.2.field? s.1 with
        | none =>
          rw [hf, hf'] at hfields
          rw [hslot (hf.trans hf'.symm), ih hnumbers.2 htail hfields]
        | some f' =>
          rw [hf, hf'] at hfields
          dsimp only at hfields
          have hmem := lt_of_mem_record hnumbers.1 f' (hfields ▸ List.mem_cons_self)
          rw [Slot.number_of_field? hf'] at hmem
          exact absurd hmem (Nat.lt_irrefl _)
      | some f =>
        cases hf' : s'.2.field? s.1 with
        | none =>
          rw [hf, hf'] at hfields
          dsimp only at hfields
          have hmem := lt_of_mem_record hlt f (hfields ▸ List.mem_cons_self)
          rw [Slot.number_of_field? hf] at hmem
          exact absurd hmem (Nat.lt_irrefl _)
        | some f' =>
          rw [hf, hf'] at hfields
          obtain ⟨heq, hrest⟩ := List.cons.inj hfields
          rw [hslot (hf.trans (heq ▸ hf'.symm)), ih hnumbers.2 htail hrest]

/-- What is in a slot is declared so in the schema. -/
def Slot.Declared (type : String) (n : Nat) : Slot → Prop
  | one v => ∃ t, descriptor? type n = some ⟨n, false, t⟩ ∧ ∀ w ∈ v, Value.OfType t w
  | many vs => ∃ t, descriptor? type n = some ⟨n, true, t⟩ ∧ ∀ w ∈ vs, Value.OfType t w

theorem record_ofSchema (known : (schema.lookup type).isSome)
    (h : ∀ s ∈ slots, s.2.Declared type s.1) : (record type slots).OfSchema := by
  refine .mk known fun f hf => ?_
  obtain ⟨⟨n, s⟩, hs, hfield⟩ := List.mem_filterMap.mp hf
  have hdeclared := h _ hs
  cases s with
  | one v =>
    obtain ⟨w, hw, rfl⟩ := Option.map_eq_some_iff.mp hfield
    obtain ⟨t, ht, htyped⟩ := hdeclared
    exact .singular ht (htyped w hw)
  | many vs =>
    cases vs with
    | nil => cases hfield
    | cons v vs =>
      cases hfield
      obtain ⟨t, ht, htyped⟩ := hdeclared
      exact .repeated ht htyped

/-! ## Values -/

def intValue (i : Int) : Value := .scalar (.int32 i)

def longValue (i : Int) : Value := .scalar (.int64 i)

def boolValue (b : Bool) : Value := .scalar (.bool b)

def stringValue (s : String) : Value := .scalar (.string s)

def ArgumentType.toValue : ArgumentType → Value
  | .constant => .scalar (.enum "tesla.Argument.Constant" 1)
  | .variable => .scalar (.enum "tesla.Argument.Variable" 2)
  | .any => .scalar (.enum "tesla.Argument.Any" 3)
  | .indirect => .scalar (.enum "tesla.Argument.Indirect" 4)
  | .field => .scalar (.enum "tesla.Argument.Field" 5)

def MatchType.toValue : MatchType → Value
  | .exact => .scalar (.enum "tesla.Argument.Exact" 1)
  | .flags => .scalar (.enum "tesla.Argument.Flags" 2)
  | .mask => .scalar (.enum "tesla.Argument.Mask" 3)

def Direction.toValue : Direction → Value
  | .entry => .scalar (.enum "tesla.FunctionEvent.Entry" 1)
  | .exit => .scalar (.enum "tesla.FunctionEvent.Exit" 2)

def CallContext.toValue : CallContext → Value
  | .caller => .scalar (.enum "tesla.FunctionEvent.Caller" 1)
  | .callee => .scalar (.enum "tesla.FunctionEvent.Callee" 2)

def CallKind.toValue : CallKind → Value
  | .cCall => .scalar (.enum "tesla.FunctionEvent.CCall" 1)
  | .objCInstanceMessage => .scalar (.enum "tesla.FunctionEvent.ObjCInstanceMessage" 2)
  | .objCClassMessage => .scalar (.enum "tesla.FunctionEvent.ObjCClassMessage" 3)
  | .objCSuperMessage => .scalar (.enum "tesla.FunctionEvent.ObjCSuperMessage" 4)

def AssignType.toValue : AssignType → Value
  | .simpleAssign => .scalar (.enum "tesla.FieldAssignment.SimpleAssign" 1)
  | .plusEqual => .scalar (.enum "tesla.FieldAssignment.PlusEqual" 2)
  | .minusEqual => .scalar (.enum "tesla.FieldAssignment.MinusEqual" 3)

/-! ## Messages -/

def Location.message (loc : Location) : Message :=
  record "tesla.Location" [(1, .one (stringValue loc.filename)), (2, .one (intValue loc.line)),
    (3, .one (intValue loc.counter))]

def Identifier.message (id : Identifier) : Message :=
  record "tesla.Identifier" [(1, .one (id.name.map stringValue)),
    (2, .one (id.location.map fun loc => .message loc.message))]

def AssertionSite.message (site : AssertionSite) : Message :=
  record "tesla.AssertionSite" [(1, .one (Value.message site.location.message))]

mutual

def Argument.message : Argument → Message
  | .mk type index name free value constantMatch indirection field =>
    record "tesla.Argument" [(1, .one type.toValue), (2, .one (index.map intValue)),
      (3, .one (name.map stringValue)), (5, .one (value.map longValue)),
      (6, .one (constantMatch.map MatchType.toValue)), (7, .one (Argument.value? indirection)),
      (8, .one (StructField.value? field)), (9, .one (free.map boolValue))]
termination_by structural x => x

def Argument.value? : Option Argument → Option Value
  | none => none
  | some x => some (.message x.message)
termination_by structural x => x

def StructField.message : StructField → Message
  | .mk type base name index =>
    record "tesla.StructField" [(1, .one (stringValue type)), (2, .one (Value.message base.message)),
      (3, .one (stringValue name)), (4, .one (intValue index))]
termination_by structural x => x

def StructField.value? : Option StructField → Option Value
  | none => none
  | some x => some (.message x.message)
termination_by structural x => x

end

def FunctionEvent.message (ev : FunctionEvent) : Message :=
  record "tesla.FunctionEvent" [(1, .one (Value.message (record "tesla.FunctionRef"
      [(1, .one (stringValue ev.function))]))), (2, .one (ev.direction.map Direction.toValue)),
    (3, .one (ev.context.map CallContext.toValue)),
    (4, .many (ev.argument.map fun a => .message a.message)),
    (5, .one (Argument.value? ev.expectedReturnValue)), (6, .one (ev.strict.map boolValue)),
    (7, .one (ev.kind.map CallKind.toValue)), (8, .one (Argument.value? ev.receiver))]

def FieldAssignment.message (assign : FieldAssignment) : Message :=
  record "tesla.FieldAssignment" [(4, .one assign.operation.toValue),
    (5, .one (Value.message assign.value.message)), (7, .one (assign.strict.map boolValue)),
    (8, .one (Value.message assign.field.message))]

/-! ## They are well formed -/

@[simp] theorem Slot.wf_some {v : Value} : (Slot.one (some v)).WF ↔ v.WF := by
  simp [Slot.WF]

@[simp] theorem Slot.wf_map {α : Type} {f : α → Value} (hf : ∀ a, (f a).WF) (o : Option α) :
    (Slot.one (o.map f)).WF := by
  intro w hw
  obtain ⟨a, _, rfl⟩ := Option.map_eq_some_iff.mp hw
  exact hf a

@[simp] theorem intValue_wf (i : Int) : (intValue i).WF := Value.wf_scalar

@[simp] theorem longValue_wf (i : Int) : (longValue i).WF := Value.wf_scalar

@[simp] theorem boolValue_wf (b : Bool) : (boolValue b).WF := Value.wf_scalar

@[simp] theorem stringValue_wf (s : String) : (stringValue s).WF := Value.wf_scalar

@[simp] theorem ArgumentType.toValue_wf (t : ArgumentType) : t.toValue.WF := by
  cases t <;> exact Value.wf_scalar

@[simp] theorem MatchType.toValue_wf (t : MatchType) : t.toValue.WF := by
  cases t <;> exact Value.wf_scalar

@[simp] theorem Direction.toValue_wf (d : Direction) : d.toValue.WF := by
  cases d <;> exact Value.wf_scalar

@[simp] theorem CallContext.toValue_wf (c : CallContext) : c.toValue.WF := by
  cases c <;> exact Value.wf_scalar

@[simp] theorem CallKind.toValue_wf (k : CallKind) : k.toValue.WF := by
  cases k <;> exact Value.wf_scalar

@[simp] theorem AssignType.toValue_wf (t : AssignType) : t.toValue.WF := by
  cases t <;> exact Value.wf_scalar

@[simp] theorem Location.message_wf (loc : Location) : loc.message.WF :=
  record_wf (by simp) (by simp)

theorem Identifier.message_wf (id : Identifier) : id.message.WF :=
  record_wf (by simp) (by simp)

theorem AssertionSite.message_wf (site : AssertionSite) : site.message.WF :=
  record_wf (by simp) (by simp)

mutual

theorem Argument.message_wf (x : Argument) : x.message.WF := by
  cases x with
  | mk type index name free value constantMatch indirection field =>
    have hindirection := Argument.slot_wf indirection
    have hfield := StructField.slot_wf field
    exact record_wf (by simp) (by simp [hindirection, hfield])

theorem Argument.slot_wf (x : Option Argument) : (Slot.one (Argument.value? x)).WF := by
  cases x with
  | none => exact nofun
  | some x => exact Slot.wf_some.mpr (Value.wf_message.mpr (Argument.message_wf x))

theorem StructField.message_wf (x : StructField) : x.message.WF := by
  cases x with
  | mk type base name index =>
    have hbase := Argument.message_wf base
    exact record_wf (by simp) (by simp [hbase])

theorem StructField.slot_wf (x : Option StructField) : (Slot.one (StructField.value? x)).WF := by
  cases x with
  | none => exact nofun
  | some x => exact Slot.wf_some.mpr (Value.wf_message.mpr (StructField.message_wf x))

end

theorem FunctionEvent.message_wf (ev : FunctionEvent) : ev.message.WF := by
  have hname : (record "tesla.FunctionRef" [(1, .one (stringValue ev.function))]).WF :=
    record_wf (by simp) (by simp)
  have harguments : (Slot.many (ev.argument.map fun a => .message a.message)).WF :=
    List.forall_mem_map.mpr fun a _ => Value.wf_message.mpr a.message_wf
  exact record_wf (by simp) (by simp [hname, harguments, Argument.slot_wf])

theorem FieldAssignment.message_wf (assign : FieldAssignment) : assign.message.WF :=
  record_wf (by simp) (by simp [Argument.message_wf, StructField.message_wf])

/-! ## They are declared -/

theorem Slot.declared_one {v : Option Value} {n : Nat} {t : FieldType}
    (h : descriptor? type n = some ⟨n, false, t⟩) (hv : ∀ w ∈ v, Value.OfType t w) :
    (Slot.one v).Declared type n := ⟨t, h, hv⟩

theorem ofType_map {α : Type} {f : α → Value} {t : FieldType} (hf : ∀ a, Value.OfType t (f a))
    (o : Option α) : ∀ w ∈ o.map f, Value.OfType t w := by
  intro w hw
  obtain ⟨a, _, rfl⟩ := Option.map_eq_some_iff.mp hw
  exact hf a

theorem ofType_some {v : Value} {t : FieldType} (hv : Value.OfType t v) :
    ∀ w ∈ some v, Value.OfType t w := by
  intro w hw
  obtain rfl := Option.mem_some_iff.mp hw
  exact hv

theorem ArgumentType.toValue_ofType (t : ArgumentType) : Value.OfType .enum t.toValue := by
  cases t <;> exact .enum ..

theorem MatchType.toValue_ofType (t : MatchType) : Value.OfType .enum t.toValue := by
  cases t <;> exact .enum ..

mutual

theorem Argument.message_ofSchema (x : Argument) : x.message.OfSchema := by
  cases x with
  | mk type index name free value constantMatch indirection field =>
    have hindirection := Argument.slot_ofType indirection
    have hfield := StructField.slot_ofType field
    refine record_ofSchema rfl ?_
    simp only [List.forall_mem_cons, List.not_mem_nil, false_implies, implies_true, and_true]
    refine ⟨?_, ?_, ?_, ?_, ?_, ?_, ?_, ?_⟩
    · exact Slot.declared_one rfl (ofType_some type.toValue_ofType)
    · exact Slot.declared_one rfl (ofType_map .int32 index)
    · exact Slot.declared_one rfl (ofType_map .string name)
    · exact Slot.declared_one rfl (ofType_map .int64 value)
    · exact Slot.declared_one rfl (ofType_map MatchType.toValue_ofType constantMatch)
    · exact Slot.declared_one rfl hindirection
    · exact Slot.declared_one rfl hfield
    · exact Slot.declared_one rfl (ofType_map .bool free)

theorem Argument.slot_ofType (x : Option Argument) :
    ∀ w ∈ Argument.value? x, Value.OfType (.message "tesla.Argument") w := by
  cases x with
  | none => exact nofun
  | some x => exact ofType_some (.message (by cases x; rfl) (Argument.message_ofSchema x))

theorem StructField.message_ofSchema (x : StructField) : x.message.OfSchema := by
  cases x with
  | mk type base name index =>
    have hbase := Argument.message_ofSchema base
    refine record_ofSchema rfl ?_
    simp only [List.forall_mem_cons, List.not_mem_nil, false_implies, implies_true, and_true]
    refine ⟨?_, ?_, ?_, ?_⟩
    · exact Slot.declared_one rfl (ofType_some (.string type))
    · exact Slot.declared_one rfl (ofType_some (.message (by cases base; rfl) hbase))
    · exact Slot.declared_one rfl (ofType_some (.string name))
    · exact Slot.declared_one rfl (ofType_some (.int32 index))

theorem StructField.slot_ofType (x : Option StructField) :
    ∀ w ∈ StructField.value? x, Value.OfType (.message "tesla.StructField") w := by
  cases x with
  | none => exact nofun
  | some x => exact ofType_some (.message (by cases x; rfl) (StructField.message_ofSchema x))

end

/-! ## Differences stay -/

theorem stringValue_inj : Function.Injective stringValue := by
  intro s s' h
  simpa [stringValue] using h

theorem intValue_inj : Function.Injective intValue := by
  intro i i' h
  simpa [intValue] using h

theorem longValue_inj : Function.Injective longValue := by
  intro i i' h
  simpa [longValue] using h

theorem boolValue_inj : Function.Injective boolValue := by
  intro b b' h
  simpa [boolValue] using h

theorem messageValue_inj : Function.Injective Value.message := fun _ _ => Value.message.inj

theorem ArgumentType.toValue_inj : Function.Injective ArgumentType.toValue := by
  intro t t' h
  cases t <;> cases t' <;> first | rfl | simp [toValue] at h

theorem MatchType.toValue_inj : Function.Injective MatchType.toValue := by
  intro t t' h
  cases t <;> cases t' <;> first | rfl | simp [toValue] at h

theorem Direction.toValue_inj : Function.Injective Direction.toValue := by
  intro d d' h
  cases d <;> cases d' <;> first | rfl | simp [toValue] at h

theorem CallContext.toValue_inj : Function.Injective CallContext.toValue := by
  intro c c' h
  cases c <;> cases c' <;> first | rfl | simp [toValue] at h

theorem CallKind.toValue_inj : Function.Injective CallKind.toValue := by
  intro k k' h
  cases k <;> cases k' <;> first | rfl | simp [toValue] at h

theorem AssignType.toValue_inj : Function.Injective AssignType.toValue := by
  intro t t' h
  cases t <;> cases t' <;> first | rfl | simp [toValue] at h

theorem Location.message_inj : Function.Injective Location.message := by
  rintro ⟨filename, line, counter⟩ ⟨filename', line', counter'⟩ h
  have hslots := record_inj (by simp) (by simp [Slot.isOne]) h
  simp only [List.cons.injEq, Prod.mk.injEq, Slot.one.injEq, Option.some_inj, true_and, and_true]
    at hslots
  obtain ⟨hfilename, hline, hcounter⟩ := hslots
  rw [stringValue_inj hfilename, intValue_inj hline, intValue_inj hcounter]

theorem Identifier.message_inj : Function.Injective Identifier.message := by
  rintro ⟨name, location⟩ ⟨name', location'⟩ h
  have hslots := record_inj (by simp) (by simp [Slot.isOne]) h
  simp only [List.cons.injEq, Prod.mk.injEq, Slot.one.injEq, true_and, and_true] at hslots
  obtain ⟨hname, hlocation⟩ := hslots
  rw [Option.map_injective stringValue_inj hname,
    Option.map_injective (messageValue_inj.comp Location.message_inj) hlocation]

mutual

theorem Argument.eq_of_message (x y : Argument) (h : x.message = y.message) : x = y := by
  cases x with
  | mk type index name free value constantMatch indirection field =>
    cases y with
    | mk type' index' name' free' value' constantMatch' indirection' field' =>
      have hslots := record_inj (by simp) (by simp [Slot.isOne]) h
      simp only [List.cons.injEq, Prod.mk.injEq, Slot.one.injEq, Option.some_inj, true_and, and_true]
        at hslots
      obtain ⟨htype, hindex, hname, hvalue, hmatch, hindirection, hfield, hfree⟩ := hslots
      rw [ArgumentType.toValue_inj htype, Option.map_injective intValue_inj hindex,
        Option.map_injective stringValue_inj hname, Option.map_injective longValue_inj hvalue,
        Option.map_injective MatchType.toValue_inj hmatch,
        Argument.eq_of_value? indirection indirection' hindirection,
        StructField.eq_of_value? field field' hfield, Option.map_injective boolValue_inj hfree]

theorem Argument.eq_of_value? (x y : Option Argument)
    (h : Argument.value? x = Argument.value? y) : x = y := by
  cases x with
  | none =>
    cases y with
    | none => rfl
    | some y => cases h
  | some x =>
    cases y with
    | none => cases h
    | some y => rw [Argument.eq_of_message x y (messageValue_inj (Option.some.inj h))]

theorem StructField.eq_of_message (x y : StructField) (h : x.message = y.message) : x = y := by
  cases x with
  | mk type base name index =>
    cases y with
    | mk type' base' name' index' =>
      have hslots := record_inj (by simp) (by simp [Slot.isOne]) h
      simp only [List.cons.injEq, Prod.mk.injEq, Slot.one.injEq, Option.some_inj, true_and, and_true]
        at hslots
      obtain ⟨htype, hbase, hname, hindex⟩ := hslots
      rw [stringValue_inj htype, Argument.eq_of_message base base' (messageValue_inj hbase),
        stringValue_inj hname, intValue_inj hindex]

theorem StructField.eq_of_value? (x y : Option StructField)
    (h : StructField.value? x = StructField.value? y) : x = y := by
  cases x with
  | none =>
    cases y with
    | none => rfl
    | some y => cases h
  | some x =>
    cases y with
    | none => cases h
    | some y => rw [StructField.eq_of_message x y (messageValue_inj (Option.some.inj h))]

end

theorem Argument.message_inj : Function.Injective Argument.message := Argument.eq_of_message

theorem FunctionEvent.message_inj : Function.Injective FunctionEvent.message := by
  rintro ⟨function, direction, context, argument, value, strict, kind, receiver⟩
    ⟨function', direction', context', argument', value', strict', kind', receiver'⟩ h
  have hslots := record_inj (by simp) (by simp [Slot.isOne]) h
  simp only [List.cons.injEq, Prod.mk.injEq, Slot.one.injEq, Slot.many.injEq, Option.some_inj,
    true_and, and_true] at hslots
  obtain ⟨hfunction, hdirection, hcontext, hargument, hvalue, hstrict, hkind, hreceiver⟩ := hslots
  have hname := record_inj (by simp) (by simp [Slot.isOne]) (messageValue_inj hfunction)
  simp only [List.cons.injEq, Prod.mk.injEq, Slot.one.injEq, Option.some_inj, true_and, and_true]
    at hname
  rw [stringValue_inj hname, Option.map_injective Direction.toValue_inj hdirection,
    Option.map_injective CallContext.toValue_inj hcontext,
    List.map_injective_iff.mpr (messageValue_inj.comp Argument.message_inj) hargument,
    Argument.eq_of_value? _ _ hvalue, Option.map_injective boolValue_inj hstrict,
    Option.map_injective CallKind.toValue_inj hkind, Argument.eq_of_value? _ _ hreceiver]

theorem FieldAssignment.message_inj : Function.Injective FieldAssignment.message := by
  rintro ⟨field, operation, value, strict⟩ ⟨field', operation', value', strict'⟩ h
  have hslots := record_inj (by simp) (by simp [Slot.isOne]) h
  simp only [List.cons.injEq, Prod.mk.injEq, Slot.one.injEq, Option.some_inj, true_and, and_true]
    at hslots
  obtain ⟨hoperation, hvalue, hstrict, hfield⟩ := hslots
  rw [AssignType.toValue_inj hoperation, Argument.message_inj (messageValue_inj hvalue),
    Option.map_injective boolValue_inj hstrict,
    StructField.eq_of_message _ _ (messageValue_inj hfield)]

/-! ## Labels -/

/-- What the transition of a label is compared by. -/
def Label.event : Label → EventMessage
  | .null => .null
  | .assertSite site _ => .assertSite ⟨site.message, site.message_wf⟩
  | .fn ev => .fn ⟨ev.message, ev.message_wf⟩
  | .fieldAssign assign => .fieldAssign ⟨assign.message, assign.message_wf⟩
  | .subAutomaton id => .subAutomaton ⟨id.message, id.message_wf⟩

/-- `EquivalentTo` on messages is that on labels. -/
theorem Label.equivalentTo_event (l l' : Label) :
    l.event.equivalentTo l'.event = l.equivalentTo l' := by
  rw [Bool.eq_iff_iff, EventMessage.equivalentTo_iff]
  cases l <;> cases l' <;>
    simp [event, equivalentTo, EventMessage.key, EventMessage.kind, FunctionEvent.message_inj.eq_iff,
      FieldAssignment.message_inj.eq_iff, Identifier.message_inj.eq_iff]

end Tesla.Automata
