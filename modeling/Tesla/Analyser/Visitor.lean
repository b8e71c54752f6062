/-
# `Tesla.Analyser.Visitor` — from a translation unit to its manifest

`TeslaVisitor` is shown the calls and the definitions of a translation unit, one after the other.
It parses the inline assertions, the automata and the mappings from structures to automata, each
with a `Parser` of its own; what they report goes to one log.  Where it gives up, the analyser
panics and writes nothing.

    `VisitCallExpr`, `VisitFunctionDecl`      `visit`
    `HandleTranslationUnit`                   `analyse`

What is written is well formed (`analyse_wellFormed`): every automaton has its variables numbered,
every assertion has its usage with both bounds.
-/
import Tesla.Analyser.Macros
import Tesla.Automata.Manifest

namespace Tesla.Analyser

open Automata Lib

/-! ## The visitor -/

/-- What the traversal comes by. -/
inductive Node where
  | call (callee : Option FunctionDecl) (args : List Expr)
  /-- A function with its body. -/
  | definition (f : FunctionDecl) (body : List Stmt)

/-- A pointer that is pushed may be null. -/
structure VisitorState where
  automata : List (Option AutomatonDescription)
  roots : List (Option Usage)
  diagnostics : List Diagnostic

abbrev VisitorM := Attempt Gave VisitorState

/-- With a parser of its own. -/
def withParser {α : Type} (x : ParserM α) : VisitorM α := fun v =>
  let r := x { ParserState.empty with diagnostics := v.diagnostics }
  (r.1, { v with diagnostics := r.2.diagnostics })

/-- `getBaseTypeIdentifier`, of types that come down to a structure. -/
def CType.baseName : CType → Option String
  | .record _ name _ => some name
  | .pointer t | .typedef t => t.baseName
  | .void | .plain | .enumeration => none

/-- `getPointeeType`, of a pointer by whatever name. -/
def CType.pointee : CType → Option CType
  | .pointer t => some t
  | .typedef t => t.pointee
  | .void | .plain | .record .. | .enumeration => none

/-- `VisitCallExpr`. -/
def visitCallExpr (clang : Clang) (callee : Option FunctionDecl) (args : List Expr) :
    VisitorM PUnit :=
  match callee with
  | none => return ⟨⟩
  | some f =>
    if f.name = "__tesla_inline_assertion" then do
      let p ← withParser (assertionParser clang args)
      let (description, use) ← withParser (p.parse clang)
      modify fun v => { v with automata := v.automata ++ [description], roots := v.roots ++ [use] }
    else return ⟨⟩

/-- The second half of `VisitFunctionDecl`; here null pointers are left out. -/
def visitDefinition (clang : Clang) (parser : ParserM Parser) : VisitorM PUnit := do
  let p ← withParser parser
  let (description, use) ← withParser (p.parse clang)
  modify fun v =>
    { v with
      automata := v.automata ++ description.toList.map some
      roots := v.roots ++ use.toList.map some }

/-- `VisitFunctionDecl`; `left` is what `MappingParser` leaves in its flags. -/
def visitFunctionDecl (clang : Clang) (left : Option Operation × Bool) (f : FunctionDecl)
    (body : List Stmt) : VisitorM PUnit :=
  match f.result.pointee.bind CType.baseName with
  | none => return ⟨⟩
  | some name =>
    if name = "__tesla_automaton_description" then visitDefinition clang (automatonParser f body)
    else if name = "__tesla_automaton_usage" ∧ f.name ≠ "__tesla_struct_uses_automaton" then
      visitDefinition clang (mappingParser left body)
    else return ⟨⟩

def visit (clang : Clang) (left : Option Operation × Bool) : Node → VisitorM PUnit
  | .call callee args => visitCallExpr clang callee args
  | .definition f body => visitFunctionDecl clang left f body

/-- `TraverseDecl`: the first `false` ends it. -/
def traverse (clang : Clang) (left : Option Operation × Bool) : List Node → VisitorM PUnit
  | [] => return ⟨⟩
  | n :: ns => do
    visit clang left n
    traverse clang left ns

/-- `HandleTranslationUnit`: the manifest, unless the analyser panics; and what has been reported. -/
def analyse (clang : Clang) (left : Option Operation × Bool) (nodes : List Node) :
    Except Gave ManifestFile × List Diagnostic :=
  let r := traverse clang left nodes ⟨[], [], []⟩
  match r.1 with
  | .error e => (.error e, r.2.diagnostics)
  | .ok _ =>
    match r.2.automata.mapM id, r.2.roots.mapM id with
    | some automata, some roots => (.ok ⟨automata, roots⟩, r.2.diagnostics)
    | _, _ => (.error .abort, r.2.diagnostics)

/-! ## What it keeps -/

/-- An automaton with what belongs to it: an assertion has its usage, for its own variables. -/
def Described (roots : List (Option Usage)) (d : AutomatonDescription) : Prop :=
  DescriptionAccepted d ∧ (d.identifier.location.isSome →
    ∃ u, some u ∈ roots ∧ u.identifier = d.identifier ∧ u.beginning.isSome ∧ u.ending.isSome ∧
      UsageAccepted d.argument u)

/-- A usage; that of an assertion is one of an automaton that is described. -/
def Used (automata : List (Option AutomatonDescription)) (u : Usage) : Prop :=
  ∃ refs, UsageAccepted refs u ∧ (u.identifier.location.isSome →
    ∃ d, some d ∈ automata ∧ d.identifier = u.identifier ∧ d.argument = refs)

structure VisitorState.WellFormed (v : VisitorState) : Prop where
  automata : ∀ o ∈ v.automata, ∃ d, o = some d ∧ Described v.roots d
  roots : ∀ o ∈ v.roots, ∃ u, o = some u ∧ Used v.automata u

variable {clang : Clang} {left : Option Operation × Bool} {v w : VisitorState} {n : Node}
  {ns : List Node} {d : AutomatonDescription} {u : Usage} {α : Type} {x : ParserM α}
  {automata automata' : List (Option AutomatonDescription)} {roots roots' : List (Option Usage)}

def visiting : Discipline Gave VisitorState where
  inv := VisitorState.WellFormed
  after v w := v.automata <+: w.automata ∧ v.roots <+: w.roots ∧ v.diagnostics <+: w.diagnostics
  fails e v w := v.diagnostics <+: w.diagnostics ∧
    (e = .refused → v.diagnostics.length < w.diagnostics.length)
  refl _ := ⟨List.prefix_refl _, List.prefix_refl _, List.prefix_refl _⟩
  trans := fun h h' => ⟨h.1.trans h'.1, h.2.1.trans h'.2.1, h.2.2.trans h'.2.2⟩
  late := fun h h' => ⟨h.2.2.trans h'.1, fun he => Nat.lt_of_le_of_lt h.2.2.length_le (h'.2 he)⟩

theorem Described.mono (h : Described roots d) (hroots : roots <+: roots') : Described roots' d := by
  refine ⟨h.1, fun hlocation => ?_⟩
  obtain ⟨u, hu, hrest⟩ := h.2 hlocation
  exact ⟨u, hroots.subset hu, hrest⟩

theorem Used.mono (h : Used automata u) (hautomata : automata <+: automata') : Used automata' u := by
  obtain ⟨refs, hu, hlocation⟩ := h
  refine ⟨refs, hu, fun hsome => ?_⟩
  obtain ⟨d, hd, hrest⟩ := hlocation hsome
  exact ⟨d, hautomata.subset hd, hrest⟩

/-- A parser starts with no references, and does nothing to what has been collected. -/
theorem keeps_withParser {Q : α → Prop} (h : ∀ s, parsing.Keeps x s fun a _ => Q a) :
    visiting.Keeps (withParser x) v fun a _ => Q a := by
  intro hv
  have hx := h { ParserState.empty with diagnostics := v.diagnostics } numbered_nil
  rw [withParser]
  rcases hrun : x { ParserState.empty with diagnostics := v.diagnostics } with ⟨e | a, t⟩
  · rw [hrun] at hx
    exact hx
  · rw [hrun] at hx
    exact ⟨⟨hv.automata, hv.roots⟩, ⟨List.prefix_refl _, List.prefix_refl _, hx.2.1.2⟩, hx.2.2⟩

/-- What a parse adds. -/
theorem keeps_push {ds : List (Option AutomatonDescription)} {us : List (Option Usage)}
    (hds : ∀ o ∈ ds, ∃ d, o = some d ∧ Described us d)
    (hus : ∀ o ∈ us, ∃ u, o = some u ∧ Used ds u) :
    visiting.Keeps (modify fun v =>
      { v with automata := v.automata ++ ds, roots := v.roots ++ us }) v fun _ _ => True := by
  refine (Discipline.keeps_modify (D := visiting) (fun hv => ⟨fun o ho => ?_, fun o ho => ?_⟩)
    ⟨List.prefix_append .., List.prefix_append .., List.prefix_refl _⟩).imp fun _ _ _ _ _ => trivial
  · obtain ho | ho := List.mem_append.mp ho
    · obtain ⟨d, rfl, hd⟩ := hv.automata o ho
      exact ⟨d, rfl, hd.mono (List.prefix_append ..)⟩
    · obtain ⟨d, rfl, hd⟩ := hds o ho
      refine ⟨d, rfl, hd.1, fun hlocation => ?_⟩
      obtain ⟨u, hu, hrest⟩ := hd.2 hlocation
      exact ⟨u, List.mem_append_right _ hu, hrest⟩
  · obtain ho | ho := List.mem_append.mp ho
    · obtain ⟨u, rfl, hu⟩ := hv.roots o ho
      exact ⟨u, rfl, hu.mono (List.prefix_append ..)⟩
    · obtain ⟨u, rfl, refs, hu, hlocation⟩ := hus o ho
      refine ⟨u, rfl, refs, hu, fun hsome => ?_⟩
      obtain ⟨d, hd, hrest⟩ := hlocation hsome
      exact ⟨d, List.mem_append_right _ hd, hrest⟩

theorem keeps_visitCallExpr {callee : Option FunctionDecl} {args : List Expr} :
    visiting.Keeps (visitCallExpr clang callee args) v fun _ _ => True := by
  unfold visitCallExpr
  split
  · exact Discipline.keeps_pure trivial
  · refine Discipline.keeps_ite (fun _ => ?_) fun _ => Discipline.keeps_pure trivial
    refine (keeps_withParser fun _ => keeps_assertionParser).bind fun p w _ _ hp => ?_
    refine (keeps_withParser (Q := fun r => ∃ refs, Results p refs r) fun s =>
      keeps_parse.imp fun r t _ _ hr => ⟨t.references, hr⟩).bind fun r w' _ _ hr => ?_
    obtain ⟨description, use⟩ := r
    obtain ⟨refs, hr⟩ := hr
    obtain ⟨hsome, hbeginning, hending, hroot⟩ := hp
    obtain ⟨d, rfl⟩ := Option.isSome_iff_exists.mp (hr.described.trans hroot)
    obtain ⟨u, hu, hbegin, hend⟩ := hr.bounds hbeginning hending
    obtain rfl : use = some u := hu
    obtain ⟨hid, rfl, haccepted⟩ := hr.description d rfl
    obtain ⟨hid', hused⟩ := hr.usage u rfl
    refine keeps_push (fun o ho => ?_) fun o ho => ?_
    · obtain rfl := List.mem_singleton.mp ho
      exact ⟨d, rfl, haccepted, fun _ =>
        ⟨u, List.mem_singleton.mpr rfl, hid'.trans hid.symm, hbegin, hend, hused⟩⟩
    · obtain rfl := List.mem_singleton.mp ho
      exact ⟨u, rfl, d.argument, hused, fun _ =>
        ⟨d, List.mem_singleton.mpr rfl, hid.trans hid'.symm, rfl⟩⟩

theorem keeps_visitDefinition {parser : ParserM Parser}
    (h : ∀ s, parsing.Keeps parser s fun p _ => p.id.location = none) :
    visiting.Keeps (visitDefinition clang parser) v fun _ _ => True := by
  rw [visitDefinition]
  refine (keeps_withParser h).bind fun p w _ _ hp => ?_
  refine (keeps_withParser (Q := fun r => ∃ refs, Results p refs r) fun s =>
    keeps_parse.imp fun r t _ _ hr => ⟨t.references, hr⟩).bind fun r w' _ _ hr => ?_
  obtain ⟨description, use⟩ := r
  obtain ⟨refs, hr⟩ := hr
  refine keeps_push (fun o ho => ?_) fun o ho => ?_
  · obtain ⟨d, hd, rfl⟩ := List.mem_map.mp ho
    obtain ⟨hid, _, haccepted⟩ := hr.description d (Option.mem_toList.mp hd)
    refine ⟨d, rfl, haccepted, fun hsome => ?_⟩
    rw [hid, hp] at hsome
    cases hsome
  · obtain ⟨u, hu, rfl⟩ := List.mem_map.mp ho
    obtain ⟨hid, hused⟩ := hr.usage u (Option.mem_toList.mp hu)
    refine ⟨u, rfl, refs, hused, fun hsome => ?_⟩
    rw [hid, hp] at hsome
    cases hsome

theorem keeps_visit : visiting.Keeps (visit clang left n) v fun _ _ => True := by
  cases n with
  | call callee args => exact keeps_visitCallExpr
  | definition f body =>
    rw [visit, visitFunctionDecl]
    split
    · exact Discipline.keeps_pure trivial
    · refine Discipline.keeps_ite (fun _ => ?_) fun _ => Discipline.keeps_ite (fun _ => ?_)
        fun _ => Discipline.keeps_pure trivial
      · exact keeps_visitDefinition fun s => keeps_automatonParser.imp fun _ _ _ _ h => h.1
      · exact keeps_visitDefinition fun s => keeps_mappingParser.imp fun _ _ _ _ h => h.1

theorem keeps_traverse : visiting.Keeps (traverse clang left ns) v fun _ _ => True := by
  induction ns generalizing v with
  | nil => exact Discipline.keeps_pure trivial
  | cons n ns ih => exact keeps_visit.bind fun _ _ _ _ _ => ih

/-! ## The manifest -/

/-- A file in which every automaton and every usage has what belongs to it. -/
structure FileWellFormed (file : ManifestFile) : Prop where
  automaton : ∀ d ∈ file.automaton, DescriptionAccepted d ∧ (d.identifier.location.isSome →
    ∃ u ∈ file.root, u.identifier = d.identifier ∧ u.beginning.isSome ∧ u.ending.isSome ∧
      UsageAccepted d.argument u)
  root : ∀ u ∈ file.root, ∃ refs, UsageAccepted refs u ∧ (u.identifier.location.isSome →
    ∃ d ∈ file.automaton, d.identifier = u.identifier ∧ d.argument = refs)

/-- Where there is no null pointer, all are followed. -/
theorem mapM_id_of_some {β : Type} {os : List (Option β)} (h : ∀ o ∈ os, ∃ b, o = some b) :
    ∃ bs, os.mapM id = some bs ∧ ∀ b, b ∈ bs ↔ some b ∈ os := by
  induction os with
  | nil => exact ⟨[], rfl, fun b => iff_of_false List.not_mem_nil List.not_mem_nil⟩
  | cons o os ih =>
    obtain ⟨⟨b, rfl⟩, hos⟩ := List.forall_mem_cons.mp h
    obtain ⟨bs, hbs, hmem⟩ := ih hos
    refine ⟨b :: bs, ?_, fun c => ?_⟩
    · rw [List.mapM_cons, id, hbs]
      rfl
    · rw [List.mem_cons, List.mem_cons, hmem, Option.some.injEq]

variable {nodes : List Node} {file : ManifestFile}

theorem wellFormed_empty : VisitorState.WellFormed ⟨[], [], []⟩ := ⟨nofun, nofun⟩

/-- A traversal that comes to its end leaves a manifest. -/
theorem analyse_of_traverse (h : (traverse clang left nodes ⟨[], [], []⟩).1 = .ok ⟨⟩) :
    ∃ file, analyse clang left nodes =
        (.ok file, (traverse clang left nodes ⟨[], [], []⟩).2.diagnostics) ∧
      FileWellFormed file := by
  rcases hrun : traverse clang left nodes ⟨[], [], []⟩ with ⟨e | ⟨⟩, v⟩
  · rw [hrun] at h
    cases h
  · obtain ⟨hv, _, _⟩ := keeps_traverse.of_ok wellFormed_empty hrun
    obtain ⟨ds, hds, hmemds⟩ := mapM_id_of_some fun o ho =>
      (hv.automata o ho).imp fun _ hd => hd.1
    obtain ⟨us, hus, hmemus⟩ := mapM_id_of_some fun o ho => (hv.roots o ho).imp fun _ hu => hu.1
    refine ⟨⟨ds, us⟩, ?_, fun d hd => ?_, fun u hu => ?_⟩
    · rw [analyse, hrun]
      dsimp only
      rw [hds, hus]
    · obtain ⟨d', hd', haccepted, hlocation⟩ := hv.automata _ ((hmemds d).mp hd)
      obtain rfl := Option.some.inj hd'
      refine ⟨haccepted, fun hsome => ?_⟩
      obtain ⟨u, hu, hrest⟩ := hlocation hsome
      exact ⟨u, (hmemus u).mpr hu, hrest⟩
    · obtain ⟨u', hu', refs, hused, hlocation⟩ := hv.roots _ ((hmemus u).mp hu)
      obtain rfl := Option.some.inj hu'
      refine ⟨refs, hused, fun hsome => ?_⟩
      obtain ⟨d, hd, hrest⟩ := hlocation hsome
      exact ⟨d, (hmemds d).mpr hd, hrest⟩

theorem traverse_of_analyse (h : (analyse clang left nodes).1 = .ok file) :
    (traverse clang left nodes ⟨[], [], []⟩).1 = .ok ⟨⟩ := by
  cases hrun : (traverse clang left nodes ⟨[], [], []⟩).1 with
  | error e =>
    rw [analyse, hrun] at h
    cases h
  | ok => rfl

/-- The analyser does not refuse a translation unit without a word. -/
theorem analyse_refused (h : (analyse clang left nodes).1 = .error .refused) :
    (analyse clang left nodes).2 ≠ [] := by
  rcases hrun : traverse clang left nodes ⟨[], [], []⟩ with ⟨e | ⟨⟩, v⟩
  · obtain ⟨_, hlt⟩ := keeps_traverse.of_error wellFormed_empty hrun
    rw [analyse, hrun] at h ⊢
    cases h
    intro hnil
    rw [show v.diagnostics = [] from hnil] at hlt
    exact Nat.lt_irrefl _ (hlt rfl)
  · obtain ⟨file, hfile, _⟩ := analyse_of_traverse (congrArg Prod.fst hrun)
    rw [hfile] at h
    cases h

/-! ## Assertions written with macros -/

/-- `__tesla_inline_assertion`. -/
def inlineAssertion : FunctionDecl := ⟨"__tesla_inline_assertion", [], .void⟩

/-- What the visitor has no interest in. -/
def Foreign : Node → Prop
  | .call callee _ => ∀ f ∈ callee, f.name ≠ "__tesla_inline_assertion"
  | .definition f _ => ∀ name ∈ f.result.pointee.bind CType.baseName,
      name ≠ "__tesla_automaton_description" ∧ name ≠ "__tesla_automaton_usage"

/-- A part of a source file: an assertion, or something else. -/
inductive Item where
  | assertion (a : Assertion)
  | other (n : Node)

namespace Item

def node : Item → Node
  | assertion a => .call (some inlineAssertion) a.args
  | other n => n

def assertion? : Item → Option Assertion
  | assertion a => some a
  | other _ => none

/-- Every member of a structure is assigned in one way throughout an assertion. -/
def Proper (clang : Clang) : Item → Prop
  | assertion a => ∃ K, a.Proper clang K
  | other n => Foreign n

end Item

variable {items : List Item} {a : Assertion}

theorem withParser_ok {p : α} {t : ParserState}
    (h : x { ParserState.empty with diagnostics := v.diagnostics } = (.ok p, t))
    (hdiag : t.diagnostics = v.diagnostics) : withParser x v = (.ok p, v) := by
  rw [withParser, h]
  dsimp only
  rw [hdiag]

theorem visit_assertion {K : Nat → Bool} (ha : a.Proper clang K) :
    visit clang left (Item.assertion a).node v =
      (.ok ⟨⟩, { v with
        automata := v.automata ++ [some (a.description clang)]
        roots := v.roots ++ [some (a.usage clang)] }) := by
  have hready : Ready K [] { ParserState.empty with diagnostics := v.diagnostics } :=
    ⟨numbered_nil, nofun, rfl⟩
  obtain ⟨t, hrun, hdiag⟩ := Assertion.parser_parse ha hready rfl
  have hargs : withParser (assertionParser clang a.args) v = (.ok a.parser, v) :=
    withParser_ok Assertion.parse_args rfl
  have hname : inlineAssertion.name = "__tesla_inline_assertion" := rfl
  show visitCallExpr clang (some inlineAssertion) a.args v = _
  rw [visitCallExpr, if_pos hname, Attempt.bind_ok hargs, Attempt.bind_ok (withParser_ok hrun hdiag)]
  rfl

theorem visit_foreign (h : Foreign n) : visit clang left n = return ⟨⟩ := by
  cases n with
  | call callee args =>
    cases callee with
    | none => rfl
    | some f => exact if_neg (h f rfl)
  | definition f body =>
    rw [visit, visitFunctionDecl]
    split
    · rfl
    · next hname =>
      obtain ⟨hdescription, husage⟩ := h _ hname
      rw [if_neg hdescription, if_neg fun h => husage h.1]

theorem traverse_items (h : ∀ i ∈ items, i.Proper clang) :
    traverse clang left (items.map Item.node) v =
      (.ok ⟨⟩, { v with
        automata := v.automata ++ (items.filterMap Item.assertion?).map fun a =>
          some (a.description clang)
        roots := v.roots ++ (items.filterMap Item.assertion?).map fun a =>
          some (a.usage clang) }) := by
  induction items generalizing v with
  | nil => simp [traverse]
  | cons i items ih =>
    obtain ⟨hi, hitems⟩ := List.forall_mem_cons.mp h
    rw [List.map_cons, traverse]
    cases i with
    | assertion a =>
      obtain ⟨K, ha⟩ := hi
      rw [Attempt.bind_ok (visit_assertion ha), ih hitems]
      simp [Item.assertion?]
    | other n =>
      have hvisit : visit clang left (Item.other n).node = return ⟨⟩ := visit_foreign hi
      rw [hvisit, pure_bind, ih hitems]
      rfl

def objectPointer : CType := .pointer (.record true "object" [])

/-- `void hold (struct object *o)`. -/
def hold : FunctionDecl := ⟨"hold", [.mk 1 "o" .plain objectPointer], .void⟩

/-- `int example_syscall (struct credential *cred, int index, int op)`. -/
def exampleSyscall : FunctionDecl :=
  ⟨"example_syscall", [.mk 2 "cred" .plain (.pointer (.record true "credential" [])),
    .mk 3 "index" .plain .plain, .mk 4 "op" .plain .plain], .plain⟩

/-- `hold (o)`, of the parameter of `perform_operation`. -/
def holdObject : Target := .applied hold [.variable (.mk 5 "o" .plain objectPointer)]

/-- `TESLA_WITHIN (example_syscall, previously (call (hold (o))))`. -/
def holdCalled : Assertion :=
  .within "hold.c" 40 0 exampleSyscall (.previously [.call holdObject])

/-- `TESLA_WITHIN (example_syscall, previously (returnfrom (hold (o))))`. -/
def holdReturned : Assertion :=
  .within "hold.c" 41 1 exampleSyscall (.previously [.returnfrom holdObject])

/-- `perform_operation`, with a call of its own between the two. -/
def performOperation : List Item :=
  [.assertion holdCalled, .other (.call (some hold) []), .assertion holdReturned]

/-- Without constants. -/
def noConstants : Clang := ⟨fun _ => none, fun _ => .plain, fun _ => none, 0⟩

theorem proper_holdObject : holdObject.Proper noConstants :=
  ⟨by decide, rfl, List.forall_mem_singleton.mpr ⟨rfl, nofun⟩⟩

theorem proper_exampleSyscall : Target.Proper noConstants (.function exampleSyscall) := by
  refine ⟨by decide, ?_⟩
  rw [exampleSyscall, List.forall_mem_cons, List.forall_mem_cons, List.forall_mem_singleton]
  exact ⟨⟨rfl, nofun⟩, ⟨rfl, nofun⟩, rfl, nofun⟩

theorem proper_performOperation : ∀ i ∈ performOperation, i.Proper noConstants := by
  have hwithin {t : Term} {line counter : Nat} (ht : t.Proper noConstants fun _ => true) :
      Item.Proper noConstants (.assertion (.within "hold.c" line counter exampleSyscall t)) :=
    ⟨fun _ => true, proper_exampleSyscall, ⟨proper_exampleSyscall, trivial⟩, ht⟩
  rw [performOperation, List.forall_mem_cons, List.forall_mem_cons, List.forall_mem_singleton]
  refine ⟨hwithin ⟨proper_holdObject, trivial, trivial⟩, ?_,
    hwithin ⟨⟨proper_holdObject, .inl rfl⟩, trivial, trivial⟩⟩
  intro f hf
  rw [← Option.some.inj hf]
  decide

/-- An assertion without its arguments. -/
theorem analyse_refused_noArguments :
    (analyse noConstants (none, false) [.call (some inlineAssertion) []]).1 = .error .refused ∧
      (analyse noConstants (none, false) [.call (some inlineAssertion) []]).2 ≠ [] :=
  ⟨rfl, analyse_refused rfl⟩

end Tesla.Analyser
