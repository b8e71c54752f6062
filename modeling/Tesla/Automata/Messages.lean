/-
# `Tesla.Automata.Messages` — messages and their comparison

A message has a type and fields with numbers, singular or repeated; what is listed here are the
fields that `Reflection::ListFields` lists: the singular ones that are present and the repeated
ones that are not empty, by their numbers.

`operator ==` takes the fields of the left message and looks each up in the right one.  Of the
fields of the right message it only counts how many there are.  Fields of floating-point types,
and the types that `FieldEq` refuses, do not occur in `tesla.proto`.
-/
import Mathlib.Data.List.Perm.Subperm
import Mathlib.Data.List.Sort

namespace Tesla.Automata

/-- What a field holds that is no message. -/
inductive Scalar where
  | bool (b : Bool)
  | int32 (i : Int)
  | int64 (i : Int)
  | string (s : String)
  | enum (fullName : String) (number : Int)
deriving DecidableEq, Repr

mutual

inductive Value where
  | scalar (s : Scalar)
  | message (m : Message)

inductive Field where
  | singular (number : Nat) (value : Value)
  | repeated (number : Nat) (values : List Value)

inductive Message where
  | mk (type : String) (fields : List Field)

end

def Field.number : Field → Nat
  | .singular n _ | .repeated n _ => n

namespace Message

def type : Message → String
  | .mk t _ => t

def fields : Message → List Field
  | .mk _ fs => fs

def field? (m : Message) (n : Nat) : Option Field := m.fields.find? fun f => f.number = n

/-- `HasField`, and the value of a singular field. -/
def value? (m : Message) (n : Nat) : Option Value :=
  match m.field? n with
  | some (.singular _ v) => some v
  | _ => none

/-- The values of a repeated field. -/
def values (m : Message) (n : Nat) : List Value :=
  match m.field? n with
  | some (.repeated _ vs) => vs
  | _ => []

end Message

/-! ## `operator ==` -/

mutual

def Message.same : Message → Message → Bool
  | .mk t fs, y => t == y.type && fs.length == y.fields.length && sameFields fs y
termination_by structural x => x

/-- The loop over the fields of the left message. -/
def sameFields : List Field → Message → Bool
  | [], _ => true
  | f :: fs, y => f.same y && sameFields fs y
termination_by structural fs => fs

def Field.same : Field → Message → Bool
  | .repeated n vs, y => (y.values n).length == vs.length && sameValues vs (y.values n)
  | .singular n v, y =>
    match y.value? n with
    | some w => v.same w
    | none => false
termination_by structural f => f

/-- The loop over the values of a repeated field. -/
def sameValues : List Value → List Value → Bool
  | v :: vs, w :: ws => v.same w && sameValues vs ws
  | _, _ => true
termination_by structural vs => vs

/-- `FieldEq`, for the values of one field. -/
def Value.same : Value → Value → Bool
  | .message m, .message m' => m.same m'
  | .scalar s, .scalar s' => s == s'
  | _, _ => false
termination_by structural v => v

end

/-! ## Messages as they are listed -/

mutual

inductive Message.WF : Message → Prop where
  | mk {t : String} {fs : List Field} : (fs.map Field.number).Pairwise (· < ·) →
      (∀ f ∈ fs, f.WF) → (Message.mk t fs).WF

inductive Field.WF : Field → Prop where
  | singular {n : Nat} {v : Value} : v.WF → (Field.singular n v).WF
  | repeated {n : Nat} {vs : List Value} : vs ≠ [] → (∀ v ∈ vs, v.WF) → (Field.repeated n vs).WF

inductive Value.WF : Value → Prop where
  | scalar {s : Scalar} : (Value.scalar s).WF
  | message {m : Message} : m.WF → (Value.message m).WF

end

variable {x y m : Message} {f f' : Field} {fs : List Field} {n : Nat} {v w : Value} {vs ws : List Value}

@[simp] theorem Message.wf_mk {t : String} : (Message.mk t fs).WF ↔
    (fs.map Field.number).Pairwise (· < ·) ∧ ∀ f ∈ fs, f.WF := by
  constructor
  · rintro ⟨hsorted, hfields⟩
    exact ⟨hsorted, hfields⟩
  · rintro ⟨hsorted, hfields⟩
    exact .mk hsorted hfields

@[simp] theorem Field.wf_singular : (Field.singular n v).WF ↔ v.WF := by
  constructor
  · rintro ⟨hv⟩
    exact hv
  · exact .singular

@[simp] theorem Field.wf_repeated : (Field.repeated n vs).WF ↔ vs ≠ [] ∧ ∀ v ∈ vs, v.WF := by
  constructor
  · intro h
    cases h with
    | repeated hne hvs => exact ⟨hne, hvs⟩
  · rintro ⟨hne, hvs⟩
    exact .repeated hne hvs

@[simp] theorem Value.wf_scalar {s : Scalar} : (Value.scalar s).WF := .scalar

@[simp] theorem Value.wf_message : (Value.message m).WF ↔ m.WF := by
  constructor
  · intro h
    cases h with
    | message hm => exact hm
  · exact .message

theorem Message.WF.sorted (h : m.WF) : (m.fields.map Field.number).Pairwise (· < ·) := by
  cases h with
  | mk hsorted _ => exact hsorted

theorem Message.WF.fields (h : m.WF) : ∀ f ∈ m.fields, f.WF := by
  cases h with
  | mk _ hfields => exact hfields

/-- A number has one field. -/
theorem Message.WF.unique (h : m.WF) (hf : f ∈ m.fields) (hf' : f' ∈ m.fields)
    (hnumber : f.number = f'.number) : f = f' :=
  List.inj_on_of_nodup_map (h.sorted.imp Nat.ne_of_lt) hf hf' hnumber

theorem Message.mem_of_field? (h : m.field? n = some f) : f ∈ m.fields ∧ f.number = n :=
  ⟨List.mem_of_find?_eq_some h, of_decide_eq_true (List.find?_some h :)⟩

theorem Message.WF.field? (h : m.WF) (hf : f ∈ m.fields) : m.field? f.number = some f := by
  cases hfind : m.field? f.number with
  | none => exact absurd (decide_eq_true rfl) (List.find?_eq_none.mp hfind f hf)
  | some f' =>
    obtain ⟨hf', hnumber⟩ := mem_of_field? hfind
    rw [h.unique hf' hf hnumber]

theorem Message.mem_of_value? (h : m.value? n = some v) : .singular n v ∈ m.fields := by
  rw [value?] at h
  split at h
  · next n' v' hfield =>
    cases h
    obtain ⟨hmem, rfl⟩ := mem_of_field? hfield
    exact hmem
  · cases h

theorem Message.mem_of_values (h : m.values n = vs) (hne : vs ≠ []) :
    .repeated n vs ∈ m.fields := by
  rw [values] at h
  split at h
  · next n' vs' hfield =>
    subst h
    obtain ⟨hmem, rfl⟩ := mem_of_field? hfield
    exact hmem
  · exact absurd h.symm hne

/-! ## It decides equality -/

/-- A message is its type and its fields in the order of their numbers. -/
theorem Message.eq_of_perm (hx : x.WF) (hy : y.WF) (htype : x.type = y.type)
    (hperm : x.fields.Perm y.fields) : x = y := by
  have hsorted {m : Message} (hm : m.WF) : m.fields.Pairwise fun f f' => f.number < f'.number :=
    List.pairwise_map.mp hm.sorted
  have hfields : x.fields = y.fields :=
    hperm.eq_of_pairwise (fun f f' _ _ hlt hgt => absurd hgt (Nat.lt_asymm hlt)) (hsorted hx)
      (hsorted hy)
  cases x
  cases y
  exact congrArg₂ Message.mk htype hfields

theorem Message.WF.nodup (h : m.WF) : m.fields.Nodup := .of_map _ (h.sorted.imp Nat.ne_of_lt)

mutual

theorem Message.eq_of_same (x y : Message) (hx : x.WF) (hy : y.WF) (h : x.same y = true) : x = y := by
  cases x with
  | mk t fs =>
    rw [Message.same, Bool.and_eq_true, Bool.and_eq_true, beq_iff_eq, beq_iff_eq] at h
    obtain ⟨⟨rfl, hlen⟩, hsame⟩ := h
    have hsub : fs ⊆ y.fields := fun f hf => mem_of_sameFields fs y hx.fields hy hsame f hf
    have hperm : fs.Perm y.fields :=
      (List.subperm_of_subset hx.nodup hsub).perm_of_length_le (Nat.le_of_eq hlen.symm)
    exact Message.eq_of_perm hx hy rfl hperm

theorem mem_of_sameFields (fs : List Field) (y : Message) (hfs : ∀ f ∈ fs, f.WF) (hy : y.WF)
    (h : sameFields fs y = true) : ∀ f ∈ fs, f ∈ y.fields := by
  cases fs with
  | nil => exact nofun
  | cons f fs =>
    rw [sameFields, Bool.and_eq_true] at h
    rw [List.forall_mem_cons] at hfs ⊢
    exact ⟨Field.mem_of_same f y hfs.1 hy h.1, mem_of_sameFields fs y hfs.2 hy h.2⟩

theorem Field.mem_of_same (f : Field) (y : Message) (hf : f.WF) (hy : y.WF) (h : f.same y = true) :
    f ∈ y.fields := by
  cases f with
  | singular n v =>
    rw [Field.same] at h
    split at h
    · next w hw =>
      have hmem := Message.mem_of_value? hw
      rw [Field.wf_singular] at hf
      rwa [Value.eq_of_same v w hf (Field.wf_singular.mp (hy.fields _ hmem)) h]
    · cases h
  | repeated n vs =>
    rw [Field.same, Bool.and_eq_true, beq_iff_eq] at h
    obtain ⟨hne, hvs⟩ := Field.wf_repeated.mp hf
    have hne' : y.values n ≠ [] := by
      intro hnil
      rw [hnil] at h
      exact hne (List.length_eq_zero_iff.mp h.1.symm)
    have hmem := Message.mem_of_values rfl hne'
    have hws := (Field.wf_repeated.mp (hy.fields _ hmem)).2
    rwa [eq_of_sameValues vs (y.values n) hvs hws h.1 h.2]

theorem eq_of_sameValues (vs ws : List Value) (hvs : ∀ v ∈ vs, v.WF) (hws : ∀ w ∈ ws, w.WF)
    (hlen : ws.length = vs.length) (h : sameValues vs ws = true) : vs = ws := by
  cases vs with
  | nil => exact (List.length_eq_zero_iff.mp hlen).symm
  | cons v vs =>
    cases ws with
    | nil => cases hlen
    | cons w ws =>
      rw [sameValues, Bool.and_eq_true] at h
      rw [List.forall_mem_cons] at hvs hws
      rw [Value.eq_of_same v w hvs.1 hws.1 h.1,
        eq_of_sameValues vs ws hvs.2 hws.2 (Nat.succ.inj hlen) h.2]

theorem Value.eq_of_same (v w : Value) (hv : v.WF) (hw : w.WF) (h : v.same w = true) : v = w := by
  cases v with
  | scalar s =>
    cases w with
    | scalar s' => rw [eq_of_beq (h : (s == s') = true)]
    | message m' => cases h
  | message m =>
    cases w with
    | scalar s' => cases h
    | message m' =>
      rw [Value.wf_message] at hv hw
      rw [Message.eq_of_same m m' hv hw h]

end

mutual

theorem Message.same_self (x : Message) (hx : x.WF) : x.same x = true := by
  cases x with
  | mk t fs =>
    rw [Message.same, Bool.and_eq_true, Bool.and_eq_true, beq_iff_eq, beq_iff_eq]
    exact ⟨⟨rfl, rfl⟩, sameFields_of_mem fs (.mk t fs) hx.fields hx fun f hf => hf⟩

theorem sameFields_of_mem (fs : List Field) (y : Message) (hfs : ∀ f ∈ fs, f.WF) (hy : y.WF)
    (h : ∀ f ∈ fs, f ∈ y.fields) : sameFields fs y = true := by
  cases fs with
  | nil => rfl
  | cons f fs =>
    rw [List.forall_mem_cons] at hfs h
    rw [sameFields, Bool.and_eq_true]
    exact ⟨Field.same_of_mem f y hfs.1 hy h.1, sameFields_of_mem fs y hfs.2 hy h.2⟩

theorem Field.same_of_mem (f : Field) (y : Message) (hf : f.WF) (hy : y.WF) (h : f ∈ y.fields) :
    f.same y = true := by
  have hfield := hy.field? h
  cases f with
  | singular n v =>
    have hvalue : y.value? n = some v := by
      rw [Field.number] at hfield
      rw [Message.value?, hfield]
    rw [Field.same, hvalue]
    exact Value.same_self v (Field.wf_singular.mp hf)
  | repeated n vs =>
    have hvalues : y.values n = vs := by
      rw [Field.number] at hfield
      rw [Message.values, hfield]
    rw [Field.same, hvalues, Bool.and_eq_true, beq_iff_eq]
    exact ⟨rfl, sameValues_self vs (Field.wf_repeated.mp hf).2⟩

theorem sameValues_self (vs : List Value) (hvs : ∀ v ∈ vs, v.WF) : sameValues vs vs = true := by
  cases vs with
  | nil => rfl
  | cons v vs =>
    rw [List.forall_mem_cons] at hvs
    rw [sameValues, Bool.and_eq_true]
    exact ⟨Value.same_self v hvs.1, sameValues_self vs hvs.2⟩

theorem Value.same_self (v : Value) (hv : v.WF) : v.same v = true := by
  cases v with
  | scalar s => exact beq_self_eq_true s
  | message m => exact Message.same_self m (Value.wf_message.mp hv)

end

/-- Messages that are the same to `operator ==` are equal. -/
theorem Message.same_iff (hx : x.WF) (hy : y.WF) : x.same y = true ↔ x = y := by
  refine ⟨Message.eq_of_same x y hx hy, ?_⟩
  rintro rfl
  exact Message.same_self x hx

/-! ## What it means for the parts -/

mutual

/-- The same type, the same singular fields present, repeated fields of the same length, and the
same held in all of them. -/
inductive Message.Alike : Message → Message → Prop where
  | mk {x y : Message} (type : x.type = y.type)
      (present : ∀ n, (x.value? n).isSome = (y.value? n).isSome)
      (length : ∀ n, (x.values n).length = (y.values n).length)
      (value : ∀ n v w, x.value? n = some v → y.value? n = some w → Value.Alike v w)
      (values : ∀ (n i : Nat) v w, (x.values n)[i]? = some v → (y.values n)[i]? = some w →
        Value.Alike v w) : Message.Alike x y

inductive Value.Alike : Value → Value → Prop where
  | scalar (s : Scalar) : Value.Alike (.scalar s) (.scalar s)
  | message {x y : Message} (h : Message.Alike x y) : Value.Alike (.message x) (.message y)

end

/-- What a field holds. -/
def Field.held : Field → List Value
  | .singular _ v => [v]
  | .repeated _ vs => vs

mutual

theorem Message.alike_self (x : Message) : x.Alike x := by
  cases x with
  | mk t fs =>
    have hheld := held_alike_self fs
    refine .mk rfl (fun _ => rfl) (fun _ => rfl) (fun n v w hv hw => ?_) fun n i v w hv hw => ?_
    · obtain rfl := Option.some.inj (hv.symm.trans hw)
      exact hheld _ (Message.mem_of_value? hv) v List.mem_cons_self
    · obtain rfl := Option.some.inj (hv.symm.trans hw)
      have hmem := List.mem_of_getElem? hv
      exact hheld _ (Message.mem_of_values rfl (List.ne_nil_of_mem hmem)) v hmem

theorem held_alike_self (fs : List Field) : ∀ f ∈ fs, ∀ v ∈ f.held, v.Alike v := by
  cases fs with
  | nil => exact nofun
  | cons f fs => exact List.forall_mem_cons.mpr ⟨Field.held_alike_self f, held_alike_self fs⟩

theorem Field.held_alike_self (f : Field) : ∀ v ∈ f.held, v.Alike v := by
  cases f with
  | singular n v => exact List.forall_mem_singleton.mpr (Value.alike_self v)
  | repeated n vs => exact values_alike_self vs

theorem values_alike_self (vs : List Value) : ∀ v ∈ vs, v.Alike v := by
  cases vs with
  | nil => exact nofun
  | cons v vs => exact List.forall_mem_cons.mpr ⟨Value.alike_self v, values_alike_self vs⟩

theorem Value.alike_self (v : Value) : v.Alike v := by
  cases v with
  | scalar s => exact .scalar s
  | message m => exact .message (Message.alike_self m)

end

/-- The listing of a message tells which singular fields are present. -/
theorem Message.WF.mem_singular (h : m.WF) : .singular n v ∈ m.fields ↔ m.value? n = some v := by
  refine ⟨fun hmem => ?_, mem_of_value?⟩
  have hfield := h.field? hmem
  rw [Field.number] at hfield
  rw [value?, hfield]

/-- The listing of a message tells which repeated fields are not empty. -/
theorem Message.WF.mem_repeated (h : m.WF) :
    .repeated n vs ∈ m.fields ↔ vs ≠ [] ∧ m.values n = vs := by
  constructor
  · intro hmem
    have hfield := h.field? hmem
    rw [Field.number] at hfield
    refine ⟨(Field.wf_repeated.mp (h.fields _ hmem)).1, ?_⟩
    rw [values, hfield]
  · rintro ⟨hne, hvalues⟩
    exact mem_of_values hvalues hne

/-- What a message holds is well formed. -/
theorem Message.WF.of_value? (h : m.WF) (hv : m.value? n = some v) : v.WF :=
  Field.wf_singular.mp (h.fields _ (Message.mem_of_value? hv))

theorem Message.WF.of_values (h : m.WF) (hv : v ∈ m.values n) : v.WF :=
  (Field.wf_repeated.mp (h.fields _ (Message.mem_of_values rfl (List.ne_nil_of_mem hv)))).2 v hv

theorem option_eq_of_isSome {α : Type} {o o' : Option α} (hsome : o.isSome = o'.isSome)
    (h : ∀ a a', o = some a → o' = some a' → a = a') : o = o' := by
  cases o with
  | none =>
    have hnone : o' = none := by simpa using hsome.symm
    exact hnone.symm
  | some a =>
    obtain ⟨a', rfl⟩ := Option.isSome_iff_exists.mp hsome.symm
    rw [h a a' rfl rfl]

theorem Message.eq_of_lookups (hx : x.WF) (hy : y.WF) (htype : x.type = y.type)
    (hvalue : ∀ n, x.value? n = y.value? n) (hvalues : ∀ n, x.values n = y.values n) : x = y := by
  refine Message.eq_of_perm hx hy htype ((List.perm_ext_iff_of_nodup hx.nodup hy.nodup).mpr ?_)
  intro f
  cases f with
  | singular n v => rw [hx.mem_singular, hy.mem_singular, hvalue]
  | repeated n vs => rw [hx.mem_repeated, hy.mem_repeated, hvalues]

theorem Message.Alike.eq (h : x.Alike y) : x.WF → y.WF → x = y := by
  refine @Message.Alike.rec (fun x y _ => x.WF → y.WF → x = y)
    (fun v w _ => v.WF → w.WF → v = w) ?_ ?_ ?_ x y h
  · intro x y type present length _ _ value values hx hy
    refine Message.eq_of_lookups hx hy type (fun n => ?_) fun n => ?_
    · refine option_eq_of_isSome (present n) fun v w hv hw => ?_
      exact value n v w hv hw (hx.of_value? hv) (hy.of_value? hw)
    · refine List.ext_getElem (length n) fun i hi hi' => ?_
      exact values n i _ _ (List.getElem?_eq_getElem hi) (List.getElem?_eq_getElem hi')
        (hx.of_values (List.getElem_mem hi)) (hy.of_values (List.getElem_mem hi'))
  · exact fun s _ _ => rfl
  · intro x y _ ih hx hy
    rw [ih (Value.wf_message.mp hx) (Value.wf_message.mp hy)]

/-- `operator ==` holds of the messages that are alike throughout. -/
theorem Message.same_iff_alike (hx : x.WF) (hy : y.WF) : x.same y = true ↔ x.Alike y := by
  rw [Message.same_iff hx hy]
  constructor
  · rintro rfl
    exact x.alike_self
  · exact fun h => h.eq hx hy

/-- A message as it is listed. -/
abbrev Msg := {m : Message // m.WF}

/-- `operator ==`. -/
def Msg.same (x y : Msg) : Bool := x.1.same y.1

theorem Msg.same_iff (x y : Msg) : x.same y = true ↔ x = y := by
  rw [Msg.same, Message.same_iff x.2 y.2, Subtype.ext_iff]

end Tesla.Automata
