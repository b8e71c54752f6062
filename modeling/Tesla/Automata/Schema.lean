/-
# `Tesla.Automata.Schema` — the messages of `tesla.proto` and their comparison

`FieldEq` looks at the declared type of a field and knows only some of the types that Protocol
Buffers have: for the others it panics.  `Message.equals` is `operator ==` with that choice made,
for the fields that `tesla.proto` declares.

    Message.OfSchema        a message with fields that are declared
    Message.equals_eq       no panic, and the answer of `Message.same`
    equals_structural       the answer is whether the messages are alike throughout

Values of floating-point and unsigned types have no place in a `Message`, and none is declared.
-/
import Tesla.Automata.Messages

namespace Tesla.Automata

/-! ## The schema -/

/-- `FieldDescriptor::Type`; that of a message field says which messages. -/
inductive FieldType where
  | double | float | int64 | uint64 | int32 | fixed64 | fixed32 | bool | string | group
  | message (type : String)
  | bytes | uint32 | enum | sfixed32 | sfixed64 | sint32 | sint64
deriving DecidableEq, Repr

structure FieldDescriptor where
  number : Nat
  isRepeated : Bool
  type : FieldType
deriving DecidableEq, Repr

/-- `tesla.proto`. -/
def schema : List (String × List FieldDescriptor) := [
  ("tesla.ManifestFile", [
    ⟨1, true, .message "tesla.AutomatonDescription"⟩, ⟨2, true, .message "tesla.Usage"⟩]),
  ("tesla.Usage", [
    ⟨1, false, .message "tesla.Identifier"⟩, ⟨2, false, .message "tesla.Expression"⟩,
    ⟨3, false, .message "tesla.Expression"⟩]),
  ("tesla.AutomatonDescription", [
    ⟨1, false, .message "tesla.Identifier"⟩, ⟨2, false, .enum⟩,
    ⟨3, false, .message "tesla.Expression"⟩, ⟨5, true, .message "tesla.Argument"⟩,
    ⟨6, false, .string⟩]),
  ("tesla.Identifier", [⟨1, false, .string⟩, ⟨2, false, .message "tesla.Location"⟩]),
  ("tesla.Location", [⟨1, false, .string⟩, ⟨2, false, .int32⟩, ⟨3, false, .int32⟩]),
  ("tesla.Expression", [
    ⟨1, false, .enum⟩, ⟨2, false, .message "tesla.BooleanExpr"⟩,
    ⟨3, false, .message "tesla.Sequence"⟩, ⟨4, false, .message "tesla.AssertionSite"⟩,
    ⟨5, false, .message "tesla.FunctionEvent"⟩, ⟨6, false, .message "tesla.FieldAssignment"⟩,
    ⟨7, false, .message "tesla.Identifier"⟩]),
  ("tesla.BooleanExpr", [⟨1, false, .enum⟩, ⟨2, true, .message "tesla.Expression"⟩]),
  ("tesla.Sequence", [
    ⟨1, true, .message "tesla.Expression"⟩, ⟨2, false, .int32⟩, ⟨3, false, .int32⟩]),
  ("tesla.AssertionSite", [⟨1, false, .message "tesla.Location"⟩]),
  ("tesla.FunctionEvent", [
    ⟨1, false, .message "tesla.FunctionRef"⟩, ⟨2, false, .enum⟩, ⟨3, false, .enum⟩,
    ⟨4, true, .message "tesla.Argument"⟩, ⟨5, false, .message "tesla.Argument"⟩,
    ⟨6, false, .bool⟩, ⟨7, false, .enum⟩, ⟨8, false, .message "tesla.Argument"⟩]),
  ("tesla.FunctionRef", [⟨1, false, .string⟩]),
  ("tesla.FieldAssignment", [
    ⟨8, false, .message "tesla.StructField"⟩, ⟨4, false, .enum⟩,
    ⟨5, false, .message "tesla.Argument"⟩, ⟨7, false, .bool⟩]),
  ("tesla.StructField", [
    ⟨1, false, .string⟩, ⟨2, false, .message "tesla.Argument"⟩, ⟨3, false, .string⟩,
    ⟨4, false, .int32⟩]),
  ("tesla.Argument", [
    ⟨1, false, .enum⟩, ⟨2, false, .int32⟩, ⟨3, false, .string⟩, ⟨9, false, .bool⟩,
    ⟨5, false, .int64⟩, ⟨6, false, .enum⟩, ⟨7, false, .message "tesla.Argument"⟩,
    ⟨8, false, .message "tesla.StructField"⟩])]

/-- The declaration of field `n` of the messages of type `t`. -/
def descriptor? (t : String) (n : Nat) : Option FieldDescriptor :=
  (schema.lookup t).bind fun fields => fields.find? fun d => d.number = n

mutual

/-- All fields are declared, and hold values of their types. -/
inductive Message.OfSchema : Message → Prop where
  | mk {t : String} {fs : List Field} (known : (schema.lookup t).isSome)
      (fields : ∀ f ∈ fs, Field.OfSchema t f) : Message.OfSchema (.mk t fs)

inductive Field.OfSchema : String → Field → Prop where
  | singular {t : String} {n : Nat} {v : Value} {type : FieldType}
      (declared : descriptor? t n = some ⟨n, false, type⟩) (typed : Value.OfType type v) :
      Field.OfSchema t (.singular n v)
  | repeated {t : String} {n : Nat} {vs : List Value} {type : FieldType}
      (declared : descriptor? t n = some ⟨n, true, type⟩) (typed : ∀ v ∈ vs, Value.OfType type v) :
      Field.OfSchema t (.repeated n vs)

inductive Value.OfType : FieldType → Value → Prop where
  | bool (b : Bool) : Value.OfType .bool (.scalar (.bool b))
  | int32 (i : Int) : Value.OfType .int32 (.scalar (.int32 i))
  | int64 (i : Int) : Value.OfType .int64 (.scalar (.int64 i))
  | string (s : String) : Value.OfType .string (.scalar (.string s))
  | enum (fullName : String) (number : Int) : Value.OfType .enum (.scalar (.enum fullName number))
  | message {t : String} {m : Message} (type : m.type = t) (h : m.OfSchema) :
      Value.OfType (.message t) (.message m)

end

/-! ## `operator ==` and `FieldEq` -/

/-- What `FieldEq` answers beside true and false: its panics, and the one of the getters, which
refuse to read a field as what it is not. -/
inductive Refusal where
  | fixedPoint | group | bytes | sInt | getter
deriving DecidableEq, Repr

mutual

/-- `operator ==`. -/
def Message.equals : Message → Message → Except Refusal Bool
  | .mk t fs, y =>
    if t ≠ y.type then .ok false
    else if fs.length ≠ y.fields.length then .ok false
    else fieldsEqual t fs y
termination_by structural x => x

/-- The loop over the fields of the left message, which is of type `t`. -/
def fieldsEqual (t : String) : List Field → Message → Except Refusal Bool
  | [], _ => .ok true
  | f :: fs, y =>
    match descriptor? t f.number with
    | none => .error .getter
    | some d => do
      if ← f.equals d.type y then fieldsEqual t fs y
      else .ok false
termination_by structural fs => fs

def Field.equals (type : FieldType) : Field → Message → Except Refusal Bool
  | .repeated n vs, y =>
    if (y.values n).length ≠ vs.length then .ok false
    else valuesEqual type vs (y.values n)
  | .singular n v, y =>
    match y.value? n with
    | none => .ok false
    | some w => Value.fieldEq type v w
termination_by structural f => f

/-- The loop over the values of a repeated field. -/
def valuesEqual (type : FieldType) : List Value → List Value → Except Refusal Bool
  | v :: vs, w :: ws => do
    if ← Value.fieldEq type v w then valuesEqual type vs ws
    else .ok false
  | _, _ => .ok true
termination_by structural vs => vs

/-- `FieldEq`, for the values of one field. -/
def Value.fieldEq : FieldType → Value → Value → Except Refusal Bool
  | .bool, .scalar (.bool b), .scalar (.bool b') => .ok (b == b')
  | .int32, .scalar (.int32 i), .scalar (.int32 i') => .ok (i == i')
  | .int64, .scalar (.int64 i), .scalar (.int64 i') => .ok (i == i')
  | .string, .scalar (.string s), .scalar (.string s') => .ok (s == s')
  | .enum, .scalar (.enum name number), .scalar (.enum name' number') =>
    .ok (name == name' && number == number')
  | .message _, .message m, .message m' => m.equals m'
  | .fixed32, _, _ | .fixed64, _, _ | .sfixed32, _, _ | .sfixed64, _, _ => .error .fixedPoint
  | .group, _, _ => .error .group
  | .bytes, _, _ => .error .bytes
  | .sint32, _, _ | .sint64, _, _ => .error .sInt
  | _, _, _ => .error .getter
termination_by structural _ v => v

end

variable {x y m : Message} {f : Field} {t : String} {n : Nat} {type : FieldType}
  {d : FieldDescriptor} {v w : Value}

/-! ## What a message of the schema holds -/

theorem Message.OfSchema.field (h : m.OfSchema) (hf : f ∈ m.fields) : Field.OfSchema m.type f := by
  cases h with
  | mk known fields => exact fields f hf

theorem Field.OfSchema.held (h : Field.OfSchema t f) (hd : descriptor? t f.number = some d) :
    ∀ v ∈ f.held, Value.OfType d.type v := by
  cases h with
  | singular declared typed =>
    obtain rfl := Option.some.inj (declared.symm.trans hd)
    exact List.forall_mem_singleton.mpr typed
  | repeated declared typed =>
    obtain rfl := Option.some.inj (declared.symm.trans hd)
    exact typed

theorem Field.OfSchema.declared (h : Field.OfSchema t f) : ∃ d, descriptor? t f.number = some d := by
  cases h with
  | singular declared _ => exact ⟨_, declared⟩
  | repeated declared _ => exact ⟨_, declared⟩

theorem Message.OfSchema.value? (h : m.OfSchema) (hd : descriptor? m.type n = some d)
    (hv : m.value? n = some v) : Value.OfType d.type v :=
  (h.field (Message.mem_of_value? hv)).held hd v List.mem_cons_self

theorem Message.OfSchema.values (h : m.OfSchema) (hd : descriptor? m.type n = some d)
    (hv : v ∈ m.values n) : Value.OfType d.type v :=
  (h.field (Message.mem_of_values rfl (List.ne_nil_of_mem hv))).held hd v hv

/-! ## No panic -/

mutual

theorem Message.equals_eq (x y : Message) (hx : x.OfSchema) (hy : y.OfSchema) :
    x.equals y = .ok (x.same y) := by
  cases x with
  | mk t fs =>
    rw [Message.equals, Message.same]
    by_cases ht : t = y.type
    · by_cases hlen : fs.length = y.fields.length
      · have hfields : ∀ f ∈ fs, Field.OfSchema y.type f := fun f hf => ht ▸ hx.field hf
        rw [if_neg (not_not.mpr ht), if_neg (not_not.mpr hlen), ht,
          fieldsEqual_eq fs y hfields hy, beq_self_eq_true, beq_iff_eq.mpr hlen]
        rfl
      · rw [if_neg (not_not.mpr ht), if_pos hlen, beq_eq_false_iff_ne.mpr hlen, Bool.and_false]
        rfl
    · rw [if_pos ht, beq_eq_false_iff_ne.mpr ht]
      rfl

theorem fieldsEqual_eq (fs : List Field) (y : Message) (hfs : ∀ f ∈ fs, Field.OfSchema y.type f)
    (hy : y.OfSchema) : fieldsEqual y.type fs y = .ok (sameFields fs y) := by
  cases fs with
  | nil => rfl
  | cons f fs =>
    rw [List.forall_mem_cons] at hfs
    obtain ⟨d, hd⟩ := hfs.1.declared
    rw [fieldsEqual, sameFields, hd]
    dsimp only
    rw [Field.equals_eq f y hfs.1 hy hd]
    cases f.same y with
    | false => rfl
    | true => exact fieldsEqual_eq fs y hfs.2 hy

theorem Field.equals_eq (f : Field) (y : Message) (hf : Field.OfSchema y.type f) (hy : y.OfSchema)
    {d : FieldDescriptor} (hd : descriptor? y.type f.number = some d) :
    f.equals d.type y = .ok (f.same y) := by
  have hheld := hf.held hd
  cases f with
  | singular n v =>
    rw [Field.equals, Field.same]
    cases hw : y.value? n with
    | none => rfl
    | some w => exact Value.fieldEq_eq v w (hheld v List.mem_cons_self) (hy.value? hd hw)
  | repeated n vs =>
    rw [Field.equals, Field.same]
    by_cases hlen : (y.values n).length = vs.length
    · rw [if_neg (not_not.mpr hlen), beq_iff_eq.mpr hlen, Bool.true_and]
      exact valuesEqual_eq vs (y.values n) hheld fun w hw => hy.values hd hw
    · rw [if_pos hlen, beq_eq_false_iff_ne.mpr hlen, Bool.false_and]

theorem valuesEqual_eq (vs ws : List Value) {type : FieldType} (hvs : ∀ v ∈ vs, Value.OfType type v)
    (hws : ∀ w ∈ ws, Value.OfType type w) : valuesEqual type vs ws = .ok (sameValues vs ws) := by
  cases vs with
  | nil => rfl
  | cons v vs =>
    cases ws with
    | nil => rfl
    | cons w ws =>
      rw [List.forall_mem_cons] at hvs hws
      rw [valuesEqual, sameValues, Value.fieldEq_eq v w hvs.1 hws.1]
      cases v.same w with
      | false => rfl
      | true => exact valuesEqual_eq vs ws hvs.2 hws.2

theorem Value.fieldEq_eq (v w : Value) {type : FieldType} (hv : Value.OfType type v)
    (hw : Value.OfType type w) : Value.fieldEq type v w = .ok (v.same w) := by
  cases hv with
  | message _ hm =>
    cases hw with
    | message _ hm' => exact Message.equals_eq _ _ hm hm'
  | bool b =>
    cases hw with
    | bool b' =>
      have hinj : Function.Injective Scalar.bool := fun _ _ => Scalar.bool.inj
      rw [Value.fieldEq, Value.same, hinj.beq_eq]
  | int32 i =>
    cases hw with
    | int32 i' =>
      have hinj : Function.Injective Scalar.int32 := fun _ _ => Scalar.int32.inj
      rw [Value.fieldEq, Value.same, hinj.beq_eq]
  | int64 i =>
    cases hw with
    | int64 i' =>
      have hinj : Function.Injective Scalar.int64 := fun _ _ => Scalar.int64.inj
      rw [Value.fieldEq, Value.same, hinj.beq_eq]
  | string s =>
    cases hw with
    | string s' =>
      have hinj : Function.Injective Scalar.string := fun _ _ => Scalar.string.inj
      rw [Value.fieldEq, Value.same, hinj.beq_eq]
  | enum name number =>
    cases hw with
    | enum name' number' =>
      have hboth : (Scalar.enum name number == Scalar.enum name' number') =
          (name == name' && number == number') := by
        rw [Bool.eq_iff_iff]
        simp
      rw [Value.fieldEq, Value.same, hboth]

end

/-- A message of the schema, as it is listed. -/
abbrev SchemaMessage := {m : Message // m.WF ∧ m.OfSchema}

theorem equals_iff_alike (x y : SchemaMessage) : x.1.equals y.1 = .ok true ↔ x.1.Alike y.1 := by
  rw [Message.equals_eq x.1 y.1 x.2.2 y.2.2, Except.ok.injEq, Message.same_iff_alike x.2.1 y.2.1]

theorem alike_iff_eq (x y : SchemaMessage) : x.1.Alike y.1 ↔ x = y := by
  rw [← Message.same_iff_alike x.2.1 y.2.1, Message.same_iff x.2.1 y.2.1, Subtype.ext_iff]

/-- `operator ==` answers for any two messages of the schema, holds of those that are alike
throughout, and is an equivalence. -/
theorem equals_structural :
    (∀ x y : SchemaMessage, ∃ b, x.1.equals y.1 = .ok b) ∧
      (∀ x y : SchemaMessage, x.1.equals y.1 = .ok true ↔ x.1.Alike y.1) ∧
      Equivalence fun x y : SchemaMessage => x.1.equals y.1 = .ok true := by
  refine ⟨fun x y => ⟨_, Message.equals_eq x.1 y.1 x.2.2 y.2.2⟩, equals_iff_alike, ?_⟩
  have heq (x y : SchemaMessage) : x.1.equals y.1 = .ok true ↔ x = y :=
    (equals_iff_alike x y).trans (alike_iff_eq x y)
  refine ⟨fun x => (heq x x).mpr rfl, fun {x y} hxy => ?_, fun {x y z} hxy hyz => ?_⟩
  · exact (heq y x).mpr ((heq x y).mp hxy).symm
  · exact (heq x z).mpr (((heq x y).mp hxy).trans ((heq y z).mp hyz))

end Tesla.Automata
