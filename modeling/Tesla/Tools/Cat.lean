/-
# `Tesla.Tools.Cat` — `tesla cat`

`main` loads one manifest after the other and adds its descriptions and its roots to the result.
A description or root that is there already, to the map of identifiers, has to be the same message;
else `main` panics.

Descriptions come in the order of `AllAutomata`, which is a map as well, roots in the order of the
file.  Whether `Manifest::load` reads a file is left open.
-/
import Mathlib.Data.List.TakeWhile
import Tesla.Automata.Identifiers
import Tesla.Automata.Messages
import Tesla.Lib.Merge

namespace Tesla.Tools

open Automata Lib

/-! ## Files -/

def string (m : Message) (n : Nat) : String :=
  match m.value? n with
  | some (.scalar (.string s)) => s
  | _ => ""

def int32 (m : Message) (n : Nat) : Int :=
  match m.value? n with
  | some (.scalar (.int32 i)) => i
  | _ => 0

/-- A message `Location`. -/
def location (m : Message) : Location := ⟨string m 1, int32 m 2, int32 m 3⟩

/-- A message `Identifier`. -/
def identifierOf (m : Message) : Identifier where
  name := (m.value? 1).map fun _ => string m 1
  location :=
    match m.value? 2 with
    | some (.message loc) => some (location loc)
    | _ => none

/-- `identifier ()`, which has the number 1 in an `AutomatonDescription` and in a `Usage`. -/
def identifier (m : Msg) : Identifier :=
  match m.1.value? 1 with
  | some (.message id) => identifierOf id
  | _ => ⟨none, none⟩

/-- A `ManifestFile`. -/
structure InputFile where
  automaton : List Msg
  root : List Msg

def byIdentifier (ms : List Msg) : List (Identifier × Msg) := ms.map fun m => (identifier m, m)

/-! ## `main` -/

inductive CatError where
  | unreadable
  | automaton (id : Identifier)
  | root (id : Identifier)

/-- What is in `Automata` and `Usages`, in the order in which it is added to `Result`. -/
structure Output where
  automata : List (Identifier × Msg)
  usages : List (Identifier × Msg)

section

variable (m : OrderedMap Identifier.lt) (reads : InputFile → Bool)

/-- A round of the loop over the input files. -/
def catNext (out : Output) (file : InputFile) : Except CatError Output :=
  if reads file then do
    let automata ← (m.walk (byIdentifier file.automaton)).foldlM
      (merge m Msg.same .automaton) out.automata
    let usages ← (byIdentifier file.root).foldlM (merge m Msg.same .root) out.usages
    return ⟨automata, usages⟩
  else .error .unreadable

def cat (files : List InputFile) : Except CatError Output :=
  files.foldlM (catNext m reads) ⟨[], []⟩

end

/-- `Result.automaton ()`. -/
def Output.automaton (out : Output) : List Msg := out.automata.map (·.2)

/-- `Result.root ()`. -/
def Output.root (out : Output) : List Msg := out.usages.map (·.2)

/-! ## Identifiers that are told apart -/

/-- A name and nothing else, or nothing but a location with a file name. -/
def SingleKind (id : Identifier) : Prop :=
  id.name ≠ none ∧ id.location = none ∨
    id.name = none ∧ ∃ loc, id.location = some loc ∧ loc.filename ≠ ""

/-- No file name holds the character that ends a C string. -/
def NulFree (id : Identifier) : Prop :=
  ∀ loc, id.location = some loc → ∀ c ∈ loc.filename.toList, c.toNat ≠ 0

theorem cString_of_nulFree {s : String} (h : ∀ c ∈ s.toList, c.toNat ≠ 0) :
    cString s = s.toList := by
  rw [cString, List.takeWhile_eq_self_iff]
  exact fun c hc => decide_eq_true (h c hc)

variable {id id' : Identifier}

theorem loc_inj {loc loc' : Location} (h : ∀ c ∈ loc.filename.toList, c.toNat ≠ 0)
    (h' : ∀ c ∈ loc'.filename.toList, c.toNat ≠ 0) (hkey : loc.key = loc'.key) : loc = loc' := by
  rw [Location.key, Location.key, cString_of_nulFree h, cString_of_nulFree h'] at hkey
  injection hkey with hname hrest
  injection hrest with hline hcounter
  obtain ⟨filename, line, counter⟩ := loc
  obtain ⟨filename', line', counter'⟩ := loc'
  cases String.toList_inj.mp hname
  cases hline
  cases hcounter
  rfl

/-- A location with a file name does not come before the one that stands for none. -/
theorem lt_default {loc : Location} (h : ∀ c ∈ loc.filename.toList, c.toNat ≠ 0)
    (hne : loc.filename ≠ "") : loc.lt ⟨"", 0, 0⟩ = false := by
  have hpos : cString "" < cString loc.filename := by
    rw [cString_of_nulFree h]
    cases hlist : loc.filename.toList with
    | nil => exact absurd (String.toList_inj.mp hlist) hne
    | cons c cs => exact List.nil_lt_cons c cs
  rw [Location.lt, if_neg (not_lt_of_gt hpos), if_pos hpos]

theorem namesFirst_singleKind : NamesFirst {id | SingleKind id ∧ NulFree id} := by
  rintro x ⟨hx, hxfree⟩ y ⟨hy, _⟩ hxname hyname
  rcases hx with ⟨hname, _⟩ | ⟨_, loc, hloc, hne⟩
  · exact absurd hxname hname
  · rcases hy with ⟨_, hyloc⟩ | ⟨hname, _⟩
    · rw [Identifier.loc, hloc, Identifier.loc, hyloc]
      exact lt_default (hxfree loc hloc) hne
    · exact absurd hname hyname

/-- The comparator tells such identifiers apart. -/
theorem discerns_singleKind : Discerns Identifier.lt {id | SingleKind id ∧ NulFree id} where
  order := namesFirst_singleKind.strictWeakOn
  eq_of_equivalent := by
    rintro x hx y hy ⟨hxy, hyx⟩
    have hkey : x.key = y.key := by
      have hnot := (Identifier.lt_iff (namesFirst_singleKind x hx y hy)).not
      have hnot' := (Identifier.lt_iff (namesFirst_singleKind y hy x hx)).not
      rw [Bool.not_eq_true, not_lt] at hnot hnot'
      exact le_antisymm (hnot'.mp hyx) (hnot.mp hxy)
    obtain ⟨name, location⟩ := x
    obtain ⟨name', location'⟩ := y
    obtain ⟨hx, hfree⟩ := hx
    obtain ⟨hy, hfree'⟩ := hy
    cases name with
    | some name =>
      obtain ⟨_, rfl⟩ | ⟨hname, _⟩ := hx
      · cases name' with
        | some name' =>
          obtain ⟨_, rfl⟩ | ⟨hname, _⟩ := hy
          · injection hkey with hkey
            rw [String.toList_inj.mp hkey]
          · cases hname
        | none => cases hkey
      · cases hname
    | none =>
      obtain ⟨hname, _⟩ | ⟨_, loc, rfl, _⟩ := hx
      · exact absurd rfl hname
      · cases name' with
        | some name' => cases hkey
        | none =>
          obtain ⟨hname, _⟩ | ⟨_, loc', rfl, _⟩ := hy
          · exact absurd rfl hname
          · injection hkey with hkey
            rw [loc_inj (hfree loc rfl) (hfree' loc' rfl) hkey]

/-! ## All files -/

/-- All descriptions. -/
def described (files : List InputFile) : List (Identifier × Msg) :=
  files.flatMap fun file => byIdentifier file.automaton

/-- All roots. -/
def used (files : List InputFile) : List (Identifier × Msg) :=
  files.flatMap fun file => byIdentifier file.root

/-- A manifest whose identifiers are of one kind, each there once. -/
structure WellNamed (file : InputFile) : Prop where
  single : ∀ d, d ∈ file.automaton ∨ d ∈ file.root → SingleKind (identifier d)
  automaton : (file.automaton.map identifier).Nodup
  root : (file.root.map identifier).Nodup

/-- Two messages with one identifier. -/
def Differ (ds : List Msg) : Prop := ∃ d ∈ ds, ∃ d' ∈ ds, identifier d = identifier d' ∧ d ≠ d'

/-- Two files give one identifier two descriptions, or two roots. -/
def Conflict (files : List InputFile) : Prop :=
  Differ (files.flatMap (·.automaton)) ∨ Differ (files.flatMap (·.root))

variable {m : OrderedMap Identifier.lt} {reads : InputFile → Bool} {files fs : List InputFile}
  {file : InputFile} {out out' : Output} {ds : List Msg} {s : Set Identifier}

theorem mem_byIdentifier {d : Msg} : (id, d) ∈ byIdentifier ds ↔ d ∈ ds ∧ identifier d = id := by
  rw [byIdentifier, List.mem_map]
  constructor
  · rintro ⟨d', hd', heq⟩
    cases heq
    exact ⟨hd', rfl⟩
  · rintro ⟨hd, rfl⟩
    exact ⟨d, hd, rfl⟩

theorem keys_byIdentifier : keys (byIdentifier ds) = ds.map identifier := by
  rw [keys, byIdentifier, List.map_map]
  rfl

theorem byIdentifier_flatMap (f : InputFile → List Msg) :
    (files.flatMap fun file => byIdentifier (f file)) = byIdentifier (files.flatMap f) := by
  rw [byIdentifier, List.map_flatMap]
  rfl

theorem consistent_byIdentifier : Consistent (byIdentifier ds) ↔ ¬ Differ ds := by
  constructor
  · rintro h ⟨d, hd, d', hd', hid, hne⟩
    exact hne (h _ _ _ (mem_byIdentifier.mpr ⟨hd, rfl⟩) (mem_byIdentifier.mpr ⟨hd', hid.symm⟩))
  · intro h id d d' hd hd'
    obtain ⟨hmem, hid⟩ := mem_byIdentifier.mp hd
    obtain ⟨hmem', hid'⟩ := mem_byIdentifier.mp hd'
    by_contra hne
    exact h ⟨d, hmem, d', hmem', hid.trans hid'.symm, hne⟩

/-- What one more file does to maps of the descriptions `as` and the roots `us`. -/
theorem catNext_ensures (m : OrderedMap Identifier.lt) (reads : InputFile → Bool)
    (file : InputFile) {as us : List (Identifier × Msg)} (hd : Discerns Identifier.lt s) (has : Merged as out.automata) (hus : Merged us out.usages)
    (hakeys : ∀ z ∈ keys (as ++ byIdentifier file.automaton), z ∈ s)
    (hukeys : ∀ z ∈ keys (us ++ byIdentifier file.root), z ∈ s)
    (hnodup : (file.automaton.map identifier).Nodup) :
    Ensures (catNext m reads out file)
      (fun out' => reads file = true ∧ Merged (as ++ byIdentifier file.automaton) out'.automata ∧
        Merged (us ++ byIdentifier file.root) out'.usages)
      fun _ => reads file = false ∨ ¬ Consistent (as ++ byIdentifier file.automaton) ∨
        ¬ Consistent (us ++ byIdentifier file.root) := by
  rw [catNext]
  split
  · next hreads =>
    have hown : ∀ z ∈ keys (byIdentifier file.automaton), z ∈ s := fun z hz =>
      hakeys z (keys_append ▸ List.mem_append_right _ hz)
    have hwalk (e : Identifier × Msg) : e ∈ as ++ m.walk (byIdentifier file.automaton) ↔
        e ∈ as ++ byIdentifier file.automaton := by
      rw [List.mem_append, List.mem_append, hd.mem_walk hown (keys_byIdentifier ▸ hnodup)]
    have hwkeys : ∀ z ∈ keys (as ++ m.walk (byIdentifier file.automaton)), z ∈ s := by
      intro z hz
      obtain ⟨d, hd⟩ := mem_keys.mp hz
      exact hakeys z (key_mem ((hwalk _).mp hd))
    have hautomata := foldlM_merge m CatError.automaton hd Msg.same_iff has hwkeys
    refine (hautomata.imp (fun _ h => h.congr hwalk) fun _ h => ?_).bind fun automata hmerged => ?_
    · exact .inr (.inl fun hcons => h (hcons.mono fun e he => (hwalk e).mp he))
    · have husages := foldlM_merge m CatError.root hd Msg.same_iff hus hukeys
      refine (husages.imp (fun _ h => h) fun _ h => ?_).bind fun usages hroots => ?_
      · exact .inr (.inr h)
      · exact ⟨hreads, hmerged, hroots⟩
  · next hreads => exact .inl (Bool.not_eq_true _ ▸ hreads)

theorem foldlM_catNext (m : OrderedMap Identifier.lt) (reads : InputFile → Bool)
    (files : List InputFile) (out : Output) {as us : List (Identifier × Msg)}
    (hd : Discerns Identifier.lt s) (has : Merged as out.automata) (hus : Merged us out.usages)
    (hakeys : ∀ z ∈ keys (as ++ described files), z ∈ s)
    (hukeys : ∀ z ∈ keys (us ++ used files), z ∈ s)
    (hnodup : ∀ file ∈ files, (file.automaton.map identifier).Nodup) :
    Ensures (files.foldlM (catNext m reads) out)
      (fun out' => (∀ file ∈ files, reads file = true) ∧ Merged (as ++ described files) out'.automata ∧
        Merged (us ++ used files) out'.usages)
      fun _ => (∃ file ∈ files, reads file = false) ∨ ¬ Consistent (as ++ described files) ∨
        ¬ Consistent (us ++ used files) := by
  induction files generalizing as us out with
  | nil =>
    rw [described, used, List.flatMap_nil, List.flatMap_nil, List.append_nil, List.append_nil]
    exact ⟨nofun, has, hus⟩
  | cons file files ih =>
    have ha : as ++ described (file :: files) =
        as ++ byIdentifier file.automaton ++ described files := by
      rw [described, List.flatMap_cons, List.append_assoc, described]
    have hu : us ++ used (file :: files) = us ++ byIdentifier file.root ++ used files := by
      rw [used, List.flatMap_cons, List.append_assoc, used]
    rw [ha] at hakeys ⊢
    rw [hu] at hukeys ⊢
    rw [List.forall_mem_cons] at hnodup
    have hstep := catNext_ensures m reads file hd has hus
      (fun z hz => hakeys z (keys_append ▸ List.mem_append_left _ hz))
      (fun z hz => hukeys z (keys_append ▸ List.mem_append_left _ hz)) hnodup.1
    rw [List.foldlM_cons]
    refine (hstep.imp (fun _ h => h) fun _ h => ?_).bind ?_
    · rcases h with hread | hcons | hcons
      · exact .inl ⟨file, List.mem_cons_self, hread⟩
      · exact .inr (.inl fun h => hcons (h.mono fun e he => List.mem_append_left _ he))
      · exact .inr (.inr fun h => hcons (h.mono fun e he => List.mem_append_left _ he))
    · rintro out' ⟨hread, hautomata, husages⟩
      refine (ih _ hautomata husages hakeys hukeys hnodup.2).imp ?_ fun _ h => ?_
      · rintro out'' ⟨hreads, hrest⟩
        exact ⟨List.forall_mem_cons.mpr ⟨hread, hreads⟩, hrest⟩
      · exact h.imp_left fun ⟨file, hfile, h⟩ => ⟨file, List.mem_cons_of_mem _ hfile, h⟩

/-- What `tesla cat` does with files whose identifiers are well formed. -/
theorem cat_ensures (h : ∀ file ∈ files, WellNamed file)
    (hfree : ∀ file ∈ files, ∀ d, d ∈ file.automaton ∨ d ∈ file.root → NulFree (identifier d)) :
    Ensures (cat m reads files)
      (fun out => (∀ file ∈ files, reads file = true) ∧
        Merged (byIdentifier (files.flatMap (·.automaton))) out.automata ∧
        Merged (byIdentifier (files.flatMap (·.root))) out.usages)
      fun _ => (∃ file ∈ files, reads file = false) ∨ Conflict files := by
  have hkeys (f : InputFile → List Msg)
      (hf : ∀ file d, d ∈ f file → d ∈ file.automaton ∨ d ∈ file.root) :
      ∀ z ∈ keys (byIdentifier (files.flatMap f)), z ∈ {id | SingleKind id ∧ NulFree id} := by
    intro z hz
    rw [keys_byIdentifier] at hz
    obtain ⟨d, hd, rfl⟩ := List.mem_map.mp hz
    obtain ⟨file, hfile, hd⟩ := List.mem_flatMap.mp hd
    exact ⟨(h file hfile).single d (hf file d hd), hfree file hfile d (hf file d hd)⟩
  have hrun := foldlM_catNext m reads files ⟨[], []⟩ discerns_singleKind merged_nil merged_nil
  rw [List.nil_append, List.nil_append, described, byIdentifier_flatMap, used, byIdentifier_flatMap]
    at hrun
  refine (hrun (hkeys _ fun _ _ => .inl) (hkeys _ fun _ _ => .inr)
    fun file hfile => (h file hfile).automaton).imp (fun _ h => h) fun _ h => ?_
  rwa [consistent_byIdentifier, consistent_byIdentifier, not_not, not_not] at h

/-- The result has what the files have, each message once. -/
structure Unites (files : List InputFile) (out : Output) : Prop where
  automaton_nodup : out.automaton.Nodup
  root_nodup : out.root.Nodup
  mem_automaton : ∀ d, d ∈ out.automaton ↔ ∃ file ∈ files, d ∈ file.automaton
  mem_root : ∀ u, u ∈ out.root ↔ ∃ file ∈ files, u ∈ file.root

theorem values_of_merged {l : List (Identifier × Msg)} (h : Merged (byIdentifier ds) l) :
    (l.map (·.2)).Nodup ∧ ∀ d, d ∈ l.map (·.2) ↔ d ∈ ds := by
  have hkeys : keys l = (l.map (·.2)).map identifier := by
    rw [keys, List.map_map]
    refine List.map_congr_left fun e he => ?_
    exact (mem_byIdentifier.mp ((h.mem e).mp he)).2.symm
  refine ⟨.of_map identifier (hkeys ▸ h.nodup), fun d => ?_⟩
  rw [List.mem_map]
  constructor
  · rintro ⟨e, he, rfl⟩
    exact (mem_byIdentifier.mp ((h.mem e).mp he)).1
  · intro hd
    exact ⟨(identifier d, d), (h.mem _).mpr (mem_byIdentifier.mpr ⟨hd, rfl⟩), rfl⟩

theorem unites_of_ok (h : ∀ file ∈ files, WellNamed file)
    (hfree : ∀ file ∈ files, ∀ d, d ∈ file.automaton ∨ d ∈ file.root → NulFree (identifier d))
    (hout : cat m reads files = .ok out) : Unites files out := by
  obtain ⟨_, hautomata, husages⟩ := (cat_ensures h hfree).of_ok hout
  obtain ⟨hanodup, hamem⟩ := values_of_merged hautomata
  obtain ⟨hunodup, humem⟩ := values_of_merged husages
  refine ⟨hanodup, hunodup, fun d => ?_, fun u => ?_⟩
  · rw [Output.automaton, hamem, List.mem_flatMap]
  · rw [Output.root, humem, List.mem_flatMap]

theorem cat_fails_iff (h : ∀ file ∈ files, WellNamed file)
    (hfree : ∀ file ∈ files, ∀ d, d ∈ file.automaton ∨ d ∈ file.root → NulFree (identifier d)) :
    (∃ e, cat m reads files = .error e) ↔
      (∃ file ∈ files, reads file = false) ∨ Conflict files := by
  have hens : Ensures (cat m reads files) _ _ := cat_ensures h hfree
  constructor
  · rintro ⟨e, he⟩
    exact hens.of_error he
  · intro hbad
    cases hout : cat m reads files with
    | error e => exact ⟨e, rfl⟩
    | ok out =>
      obtain ⟨hreads, hautomata, husages⟩ := hens.of_ok hout
      rcases hbad with ⟨file, hfile, hnot⟩ | hdiffer | hdiffer
      · rw [hreads file hfile] at hnot
        cases hnot
      · exact absurd hdiffer (consistent_byIdentifier.mp hautomata.consistent)
      · exact absurd hdiffer (consistent_byIdentifier.mp husages.consistent)

/-- `tesla cat` fails if and only if a file cannot be read or two files differ about an identifier;
else the result unites the files.  Which files there are decides, their order and number do not. -/
theorem cat_unites (m : OrderedMap Identifier.lt) (reads : InputFile → Bool)
    (files : List InputFile) (h : ∀ file ∈ files, WellNamed file)
    (hfree : ∀ file ∈ files, ∀ d, d ∈ file.automaton ∨ d ∈ file.root → NulFree (identifier d)) :
    ((∃ e, cat m reads files = .error e) ↔
        (∃ file ∈ files, reads file = false) ∨ Conflict files) ∧
      (∀ out, cat m reads files = .ok out → Unites files out) ∧
      ∀ files', (∀ file, file ∈ files' ↔ file ∈ files) →
        ((∃ e, cat m reads files' = .error e) ↔ ∃ e, cat m reads files = .error e) ∧
          ∀ out out', cat m reads files = .ok out → cat m reads files' = .ok out' →
            (∀ d, d ∈ out'.automaton ↔ d ∈ out.automaton) ∧ ∀ u, u ∈ out'.root ↔ u ∈ out.root := by
  refine ⟨cat_fails_iff h hfree, fun out hout => unites_of_ok h hfree hout, fun files' hsame => ?_⟩
  have h' : ∀ file ∈ files', WellNamed file := fun file hfile => h file ((hsame file).mp hfile)
  have hfree' : ∀ file ∈ files', ∀ d, d ∈ file.automaton ∨ d ∈ file.root → NulFree (identifier d) :=
    fun file hfile => hfree file ((hsame file).mp hfile)
  constructor
  · rw [cat_fails_iff h hfree, cat_fails_iff h' hfree', Conflict, Conflict, Differ, Differ, Differ,
      Differ]
    simp only [List.mem_flatMap, hsame]
  · intro out out' hout hout'
    have hunites := unites_of_ok h hfree hout
    have hunites' := unites_of_ok h' hfree' hout'
    refine ⟨fun d => ?_, fun u => ?_⟩
    · rw [hunites.mem_automaton, hunites'.mem_automaton]
      simp only [hsame]
    · rw [hunites.mem_root, hunites'.mem_root]
      simp only [hsame]

/-- The identifier of an inline assertion. -/
def locatedId (filename : String) (line : Int) : Field :=
  .singular 1 (.message (.mk "tesla.Identifier" [.singular 2 (.message (.mk "tesla.Location"
    [.singular 1 (.scalar (.string filename)), .singular 2 (.scalar (.int32 line)),
      .singular 3 (.scalar (.int32 0))]))]))

/-- The description of an automaton without events. -/
def located (filename : String) (line : Int) : Msg :=
  ⟨.mk "tesla.AutomatonDescription" [locatedId filename line,
      .singular 2 (.scalar (.enum "tesla.AutomatonDescription.ThreadLocal" 2)),
      .singular 3 (.message (.mk "tesla.Expression"
        [.singular 1 (.scalar (.enum "tesla.Expression.NULL_EXPR" 3))]))],
    by simp [locatedId, Field.number]⟩

/-- Its use, with no bounds. -/
def locatedUse (filename : String) (line : Int) : Msg :=
  ⟨.mk "tesla.Usage" [locatedId filename line], by simp [locatedId, Field.number]⟩

def locatedFile (filename : String) (line : Int) : InputFile :=
  ⟨[located filename line], [locatedUse filename line]⟩

theorem locatedFile_wellNamed {filename : String} {line : Int} (h : filename ≠ "") :
    WellNamed (locatedFile filename line) := by
  refine ⟨?_, List.nodup_singleton _, List.nodup_singleton _⟩
  rintro d (hd | hd)
  all_goals
    obtain rfl := List.mem_singleton.mp hd
    exact .inr ⟨rfl, ⟨filename, line, 0⟩, rfl, h⟩

theorem locatedFile_nulFree {filename : String} {line : Int}
    (h : ∀ c ∈ filename.toList, c.toNat ≠ 0) (d : Msg)
    (hd : d ∈ (locatedFile filename line).automaton ∨ d ∈ (locatedFile filename line).root) :
    NulFree (identifier d) := by
  have hid : identifier d = ⟨none, some ⟨filename, line, 0⟩⟩ := by
    rcases hd with hd | hd
    all_goals
      obtain rfl := List.mem_singleton.mp hd
      rfl
  rw [hid]
  rintro loc hloc
  cases hloc
  exact h

/-- Two files, one of them twice. -/
theorem cat_unites_three :
    WellNamed (locatedFile "a.c" 1) ∧ ∀ out, cat (.sortedList Identifier.lt) (fun _ => true)
      [locatedFile "a.c" 1, locatedFile "b.c" 2, locatedFile "a.c" 1] = .ok out →
        Unites [locatedFile "a.c" 1, locatedFile "b.c" 2, locatedFile "a.c" 1] out := by
  have hfiles (P : InputFile → Prop) (ha : P (locatedFile "a.c" 1)) (hb : P (locatedFile "b.c" 2)) :
      ∀ file ∈ [locatedFile "a.c" 1, locatedFile "b.c" 2, locatedFile "a.c" 1], P file := by
    simp [ha, hb]
  have ha : "a.c" ≠ "" := by decide
  have hb : "b.c" ≠ "" := by decide
  refine ⟨locatedFile_wellNamed ha, (cat_unites _ _ _ ?_ ?_).2.1⟩
  · exact hfiles _ (locatedFile_wellNamed ha) (locatedFile_wellNamed hb)
  · exact hfiles _ (locatedFile_nulFree (by simp)) (locatedFile_nulFree (by simp))

/-- A file name with the character that ends a C string. -/
def withNul (c : Char) : String := String.ofList ['a', Char.ofNat 0, c]

/-- Two files, each with one assertion, whose file names differ after a NUL. -/
theorem cat_refuses_nul :
    WellNamed (locatedFile (withNul 'b') 1) ∧ WellNamed (locatedFile (withNul 'c') 1) ∧
      ¬ Conflict [locatedFile (withNul 'b') 1, locatedFile (withNul 'c') 1] ∧
        ∃ e, cat (.sortedList Identifier.lt) (fun _ => true)
          [locatedFile (withNul 'b') 1, locatedFile (withNul 'c') 1] = .error e := by
  have hne : withNul 'b' ≠ withNul 'c' := by decide
  have hdiffer (x y : Msg) (hxy : identifier x ≠ identifier y) : ¬ Differ [x, y] := by
    rintro ⟨d, hd, d', hd', hid, hdd'⟩
    rcases List.mem_pair.mp hd with rfl | rfl
    · rcases List.mem_pair.mp hd' with rfl | rfl
      · exact hdd' rfl
      · exact hxy hid
    · rcases List.mem_pair.mp hd' with rfl | rfl
      · exact hxy hid.symm
      · exact hdd' rfl
  refine ⟨locatedFile_wellNamed (by decide), locatedFile_wellNamed (by decide), ?_, ?_⟩
  · rintro (h | h)
    · refine hdiffer _ _ (fun heq => hne ?_) h
      exact congrArg (fun id : Identifier => (id.location.map (·.filename)).getD "") heq
    · refine hdiffer _ _ (fun heq => hne ?_) h
      exact congrArg (fun id : Identifier => (id.location.map (·.filename)).getD "") heq
  · exact ⟨_, rfl⟩

end Tesla.Tools
