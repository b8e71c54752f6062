/-
# `Tesla.Analyser.Accepted` — what the parser accepts is well formed

    Numbered      the references are different, and each has its place as its index
    Shaped        an argument has what its type calls for, and only the outermost has an index
    Placed        an argument of an event is ANY, a constant, or one of the references
    Accepted      the messages of an expression have what the later passes read

Every function of the parser keeps the first, and adds to the references and to the diagnostics
only at their ends (`parsing`); it does not give up without a diagnostic, unless Clang's tree is
one that it does not expect.
-/
import Tesla.Analyser.Parser

namespace Tesla.Analyser

open Automata Lib

/-! ## Arguments -/

/-- The references of a parser. -/
structure Numbered (refs : List Argument) : Prop where
  index : ∀ i r, refs[i]? = some r → r.index = some (int32 i)
  nodup : (refs.map Argument.noIndex).Nodup
  numberable : ∀ r ∈ refs, Numberable r

/-- An argument has the fields that go with its type. -/
inductive Shaped : Argument → Prop where
  | constant {i : Option Int} {name : Option String} {free : Option Bool} {v : Int}
      {m : Option MatchType} : Shaped (.mk .constant i name free (some v) m none none)
  | any {i : Option Int} {name : Option String} {free : Option Bool} {m : Option MatchType} :
      Shaped (.mk .any i name free none m none none)
  | named {i : Option Int} {name : String} {free : Option Bool} {m : Option MatchType} :
      Shaped (.mk .variable i (some name) free none m none none)
  | indirect {i : Option Int} {free : Option Bool} {m : Option MatchType} {a : Argument} :
      Shaped a → a.index = none → Shaped (.mk .indirect i none free none m (some a) none)
  | field {i : Option Int} {free : Option Bool} {m : Option MatchType} {type name : String}
      {a : Argument} {k : Int} : Shaped a → a.index = none →
      Shaped (.mk .field i none free none m none (some (.mk type a name k)))

/-- An argument that is registered, or is not to be. -/
def Placed (register : Bool) (refs : List Argument) (a : Argument) : Prop :=
  Shaped a ∧ (a.index = none ∧ (register = true → ¬ Numberable a) ∨ register = true ∧ a ∈ refs)

variable {refs refs' : List Argument} {a b x : Argument} {as : List Argument} {register : Bool}
  {s t : ParserState} {d : ValueDecl} {e : Expr} {clang : Clang} {m : ArgFactory}
  {flags : Flags} {site : Location} {i : Option Int} {pos : Nat} {message : String}

theorem Shaped.withIndex (h : Shaped a) : Shaped (a.withIndex i) := by
  cases h with
  | constant => exact .constant
  | any => exact .any
  | named => exact .named
  | indirect ha hnone => exact .indirect ha hnone
  | field ha hnone => exact .field ha hnone

theorem Placed.mono (h : Placed register refs a) (hrefs : refs <+: refs') :
    Placed register refs' a := by
  obtain ⟨hshaped, ⟨hnone, hplain⟩ | ⟨hregister, hmem⟩⟩ := h
  · exact ⟨hshaped, .inl ⟨hnone, hplain⟩⟩
  · exact ⟨hshaped, .inr ⟨hregister, hrefs.subset hmem⟩⟩

theorem numbered_nil : Numbered [] := ⟨nofun, List.nodup_nil, nofun⟩

/-! ## Registration -/

/-- Where the argument is, apart from its index, or would be. -/
def placeOf (refs : List Argument) (a : Argument) : Nat :=
  (refs.map Argument.noIndex).idxOf a.noIndex

theorem findArg_eq (hrefs : ∀ j r, refs[j]? = some r → r.index = some (int32 (pos + j))) :
    findArg refs (a.setIndex pos) pos =
      (pos + placeOf refs a, a.setIndex (pos + placeOf refs a)) := by
  induction refs generalizing pos with
  | nil => rfl
  | cons r refs ih =>
    have hr : r.index = some (int32 pos) := hrefs 0 r rfl
    have hrest : ∀ j r, refs[j]? = some r → r.index = some (int32 (pos + 1 + j)) := by
      intro j r hj
      rw [Nat.add_right_comm, Nat.add_assoc]
      exact hrefs (j + 1) r hj
    have hsame : r = a.setIndex pos ↔ r.noIndex = a.noIndex := by
      rw [← Argument.withIndex_inj (i := some (int32 pos)), Argument.withIndex_index hr]
      rfl
    rw [findArg, placeOf, List.map_cons, List.idxOf_cons]
    by_cases h : r.noIndex = a.noIndex
    · rw [if_pos (hsame.mpr h), beq_iff_eq.mpr h]
      rfl
    · rw [if_neg fun heq => h (hsame.mp heq), beq_eq_false_iff_ne.mpr h, cond_false]
      have hset : (a.setIndex pos).setIndex (pos + 1) = a.setIndex (pos + 1) := by
        simp [Argument.setIndex]
      rw [hset, ih hrest, placeOf, Nat.add_right_comm, Nat.add_assoc]

/-- The references after an argument is registered. -/
def registered (refs : List Argument) (a : Argument) : List Argument :=
  if a.noIndex ∈ refs.map Argument.noIndex then refs
  else refs ++ [a.setIndex refs.length]

theorem registerArgument_eq (hs : Numbered s.references) (ha : Numberable a) :
    registerArgument a s = (.ok (a.setIndex (placeOf s.references a)),
      { s with references := registered s.references a }) := by
  have hindex : ∀ j r, s.references[j]? = some r → r.index = some (int32 (0 + j)) := by
    intro j r hj
    rw [Nat.zero_add]
    exact hs.index j r hj
  have hfind := findArg_eq (a := a) hindex
  rw [Nat.zero_add] at hfind
  have hplain : ¬ (a.type = .any ∨ a.type = .constant) := by
    rintro (h | h)
    · exact ha.1 h
    · exact ha.2 h
  have hlen : (s.references.map Argument.noIndex).length = s.references.length :=
    List.length_map ..
  rw [registerArgument, if_neg hplain]
  simp only [Attempt.bind_apply, Attempt.get_apply, hfind, registered]
  by_cases hmem : a.noIndex ∈ s.references.map Argument.noIndex
  · have hlt : placeOf s.references a ≠ s.references.length := by
      rw [← hlen]
      exact (List.idxOf_lt_length_iff.mpr hmem).ne
    simp [hlt, hmem]
  · have hplace : placeOf s.references a = s.references.length := by
      rw [← hlen]
      exact List.idxOf_eq_length_iff.mpr hmem
    simp [hplace, hmem, Attempt.bind_apply]

theorem setIndex_noIndex (a : Argument) (pos : Nat) : (a.setIndex pos).noIndex = a.noIndex :=
  Argument.noIndex_withIndex

theorem prefix_registered : refs <+: registered refs a := by
  rw [registered]
  split
  · exact List.prefix_refl refs
  · exact List.prefix_append ..

theorem contents_registered :
    (registered refs a).map Argument.noIndex = intern (refs.map Argument.noIndex) a.noIndex := by
  rw [registered, intern]
  split
  · rfl
  · rw [List.map_append, List.map_singleton, setIndex_noIndex]

theorem Numbered.registered (h : Numbered refs) (ha : Numberable a) :
    Numbered (registered refs a) := by
  refine ⟨fun i r hr => ?_, ?_, fun r hr => ?_⟩
  · rw [Analyser.registered] at hr
    split at hr
    · exact h.index i r hr
    · rw [List.getElem?_append] at hr
      split at hr
      · exact h.index i r hr
      · next hlt =>
        rw [List.getElem?_singleton] at hr
        split at hr
        · next hzero =>
          rw [← Option.some.inj hr, Argument.setIndex, Argument.index_withIndex]
          congr 2
          omega
        · cases hr
  · rw [contents_registered]
    exact nodup_intern h.nodup
  · rw [Analyser.registered] at hr
    split at hr
    · exact h.numberable r hr
    · obtain hr | hr := List.mem_append.mp hr
      · exact h.numberable r hr
      · rw [List.mem_singleton.mp hr, numberable_iff_noIndex, setIndex_noIndex,
          ← numberable_iff_noIndex]
        exact ha

/-- What `RegisterArg` gives back is one of the references. -/
theorem mem_registered (h : Numbered refs) : a.setIndex (placeOf refs a) ∈ registered refs a := by
  rw [registered]
  split
  · next hmem =>
    obtain ⟨r, hr, heq⟩ := List.mem_map.mp hmem
    obtain ⟨i, hi, rfl⟩ := List.mem_iff_getElem.mp hr
    have hlt : i < (refs.map Argument.noIndex).length := by
      rw [List.length_map]
      exact hi
    have hplace : placeOf refs a = i := by
      have := h.nodup.idxOf_getElem i hlt
      rw [List.getElem_map, heq] at this
      exact this
    have hindex := h.index i refs[i] (List.getElem?_eq_getElem hi)
    have hsame : a.setIndex i = refs[i] := by
      rw [← Argument.withIndex_index hindex]
      exact Argument.withIndex_inj.mpr heq.symm
    rw [hplace, hsame]
    exact hr
  · next hmem =>
    have hplace : placeOf refs a = refs.length := by
      rw [placeOf, List.idxOf_eq_length_iff.mpr hmem, List.length_map]
    rw [hplace]
    exact List.mem_append_right _ (List.mem_singleton.mpr rfl)

/-- It does to the list what it does to the objects. -/
theorem registerArg_registered {s : Registry} {a : Nat} (h : s.Numbered)
    (ha : Numberable (s.arguments a)) (hfresh : a ∉ s.references) :
    ∃ s', registerArg s a = .ok s' ∧
      s'.references.map s'.arguments =
        registered (s.references.map s.arguments) (s.arguments a) := by
  refine ⟨s.after a, registerArg_eq h ha, ?_⟩
  have hcontents : (s.references.map s.arguments).map Argument.noIndex = s.contents :=
    List.map_map ..
  have hold : s.references.map (s.after a).arguments = s.references.map s.arguments :=
    List.map_congr_left fun r hr => Registry.after_of_ne fun hra => hfresh (hra ▸ hr)
  rw [registered, hcontents, Registry.after]
  dsimp only
  split
  · exact hold
  · next hmem =>
    have hplace : s.contents.idxOf (s.arguments a).noIndex = s.references.length := by
      rw [List.idxOf_eq_length_iff.mpr hmem, Registry.contents, List.length_map]
    rw [List.map_append, List.map_singleton, setIndex_self, hplace, List.length_map, ← hplace]
    exact congrArg (· ++ _) hold

/-! ## What the parser keeps -/

def parsing : Discipline Gave ParserState where
  inv s := Numbered s.references
  after s t := s.references <+: t.references ∧ s.diagnostics <+: t.diagnostics
  fails e s t := s.diagnostics <+: t.diagnostics ∧
    (e = .refused → s.diagnostics.length < t.diagnostics.length)
  refl _ := ⟨List.prefix_refl _, List.prefix_refl _⟩
  trans := fun h h' => ⟨h.1.trans h'.1, h.2.trans h'.2⟩
  late := fun h h' => ⟨h.2.trans h'.1, fun he => Nat.lt_of_le_of_lt h.2.length_le (h'.2 he)⟩

variable {α : Type} {Q : α → ParserState → Prop} {d' : Diagnostic} {g : Gave}

theorem keeps_report : parsing.Keeps (report d') s fun _ t => t.references = s.references :=
  fun hs => ⟨hs, ⟨List.prefix_refl _, List.prefix_append ..⟩, rfl⟩

theorem keeps_refuse : parsing.Keeps (refuse (α := α) message) s Q := by
  refine fun _ => ⟨List.prefix_append .., fun _ => ?_⟩
  show s.diagnostics.length < (s.diagnostics ++ [_]).length
  rw [List.length_append]
  exact Nat.lt_succ_self _

theorem keeps_stop (h : g ≠ .refused) : parsing.Keeps (throw g : ParserM α) s Q :=
  Discipline.keeps_throw ⟨List.prefix_refl _, fun he => absurd he h⟩

/-- A warning and a note, and then it gives up. -/
theorem keeps_report_throw : parsing.Keeps (do
    report d'
    throw g : ParserM α) s Q := by
  refine fun _ => ⟨List.prefix_append .., fun _ => ?_⟩
  show s.diagnostics.length < (s.diagnostics ++ [d']).length
  rw [List.length_append]
  exact Nat.lt_succ_self _

theorem keeps_parseStringLiteral : parsing.Keeps (parseStringLiteral e) s fun _ _ => True := by
  rw [parseStringLiteral]
  split
  · exact Discipline.keeps_pure trivial
  · exact keeps_report.bind fun _ _ _ _ _ => Discipline.keeps_pure trivial

theorem keeps_parseIntegerLiteral :
    parsing.Keeps (parseIntegerLiteral clang e) s fun _ _ => True := by
  rw [parseIntegerLiteral]
  split
  · exact Discipline.keeps_pure trivial
  · exact keeps_report.bind fun _ _ _ _ _ => Discipline.keeps_pure trivial

theorem keeps_checkIgnore : parsing.Keeps (checkIgnore e) s fun _ _ => True := by
  rw [checkIgnore]
  repeat' split
  all_goals first | exact Discipline.keeps_pure trivial | exact keeps_refuse

theorem keeps_checkAssignmentKind {simple : Bool} :
    parsing.Keeps (checkAssignmentKind d simple) s fun _ _ => True := by
  rw [checkAssignmentKind]
  refine Discipline.keeps_get ?_
  split
  · exact (Discipline.keeps_modify (D := parsing) (fun hs => hs) (parsing.refl s)).imp
      fun _ _ _ _ _ => trivial
  · split
    · exact Discipline.keeps_pure trivial
    · exact keeps_report.bind fun _ _ _ _ _ => keeps_report_throw

/-! ## Arguments -/

theorem keeps_registerIf (hshaped : Shaped a) (hindex : a.index = none) (ha : Numberable a) :
    parsing.Keeps (registerIf register a) s fun b t => Placed register t.references b := by
  rw [registerIf]
  split
  · intro hs
    rw [registerArgument_eq hs ha]
    refine ⟨hs.registered ha, ⟨prefix_registered, List.prefix_refl _⟩, hshaped.withIndex, .inr ?_⟩
    exact ⟨‹_›, mem_registered hs⟩
  · next hregister =>
    exact Discipline.keeps_pure ⟨hshaped, .inl ⟨hindex, fun h => absurd h hregister⟩⟩

/-- An argument that is not to be registered. -/
theorem placed_of_plain (hshaped : Shaped a) (hindex : a.index = none) (ha : ¬ Numberable a) :
    Placed register refs a :=
  ⟨hshaped, .inl ⟨hindex, fun _ => ha⟩⟩

theorem not_numberable_any (h : a.type = .any) : ¬ Numberable a := fun ha => ha.1 h

theorem not_numberable_constant (h : a.type = .constant) : ¬ Numberable a := fun ha => ha.2 h

theorem keeps_parseLeaf {allowAny : Bool} : parsing.Keeps (parseLeaf m allowAny register d) s
    fun a t => Placed register t.references a := by
  rw [parseLeaf]
  split
  · exact Discipline.keeps_pure (placed_of_plain .constant rfl (not_numberable_constant rfl))
  all_goals
    split
    · exact Discipline.keeps_pure (placed_of_plain .any rfl (not_numberable_any rfl))
    · exact keeps_registerIf .named rfl ⟨nofun, nofun⟩

/-- All arguments of a list. -/
def AllPlaced (register : Bool) (as : List Argument) (t : ParserState) : Prop :=
  ∀ a ∈ as, Placed register t.references a

theorem AllPlaced.mono (h : AllPlaced register as s) (hst : s.references <+: t.references) :
    AllPlaced register as t :=
  fun a ha => (h a ha).mono hst

theorem allPlaced_singleton : AllPlaced register [a] s ↔ Placed register s.references a :=
  List.forall_mem_singleton

theorem keeps_parseLeaves {allowAny : Bool} (ds : List (List Nat × ValueDecl)) :
    parsing.Keeps (parseLeaves m allowAny register ds) s (AllPlaced register) := by
  induction ds generalizing s with
  | nil => exact Discipline.keeps_pure nofun
  | cons d ds ih =>
    rw [parseLeaves]
    exact Discipline.keeps_get <| keeps_parseLeaf.bind fun a t _ _ ha => ih.bind fun as u _ hu has =>
      Discipline.keeps_pure (List.forall_mem_cons.mpr ⟨ha.mono hu.1, has⟩)

theorem keeps_parseDecl {allowAny : Bool} :
    parsing.Keeps (parseDecl m allowAny register d) s (AllPlaced register) := by
  rw [parseDecl]
  split
  · exact keeps_parseLeaves _
  · exact keeps_stop nofun

theorem keeps_one (h : AllPlaced register as s) :
    parsing.Keeps (one as) s fun a t => Placed register t.references a := by
  match as with
  | [a] => exact Discipline.keeps_pure (allPlaced_singleton.mp h)
  | [] | _ :: _ :: _ => exact keeps_stop nofun

theorem keeps_parseStructField {parseBase : ParserM (List Argument)}
    (h : ∀ s, parsing.Keeps parseBase s (AllPlaced register)) :
    parsing.Keeps (parseStructField clang e d parseBase) s fun f t =>
      ∃ type base name index, f = .mk type base name index ∧ Placed register t.references base := by
  rw [parseStructField]
  split
  · exact keeps_stop nofun
  · split
    · exact (h s).bind fun as t _ _ has => (keeps_one has).bind fun a u _ _ ha =>
        Discipline.keeps_pure ⟨_, a, _, _, rfl, ha⟩
    all_goals exact keeps_refuse

theorem keeps_parseConstant :
    parsing.Keeps (parseConstant clang m e) s (AllPlaced register) := by
  rw [parseConstant]
  split
  · exact Discipline.keeps_pure (allPlaced_singleton.mpr
      (placed_of_plain .constant rfl (not_numberable_constant rfl)))
  · exact keeps_refuse

/-- What is not registered has no index. -/
theorem Placed.index (h : Placed false refs a) : a.index = none := by
  obtain ⟨_, ⟨hindex, _⟩ | ⟨hfalse, _⟩⟩ := h
  · exact hindex
  · cases hfalse

theorem keeps_parseArg {top : Bool} :
    parsing.Keeps (parseArg clang register m top e) s (AllPlaced register) := by
  have hany {register : Bool} {m : ArgFactory} {s : ParserState} :
      AllPlaced register [m.argument .any none none none none] s :=
    allPlaced_singleton.mpr (placed_of_plain .any rfl (not_numberable_any rfl))
  have hsingle {register : Bool} {s : ParserState} {x : Argument} (hshaped : Shaped x)
      (hindex : x.index = none) (hx : Numberable x) :
      parsing.Keeps (do return [← registerIf register x]) s (AllPlaced register) :=
    (keeps_registerIf hshaped hindex hx).bind fun _ _ _ _ ha =>
      Discipline.keeps_pure (allPlaced_singleton.mpr ha)
  fun_induction parseArg clang register m top e generalizing s with
  | case1 _ _ _ ih | case2 _ _ _ ih | case3 _ _ _ ih | case4 _ _ _ ih => exact ih
  | case5 => exact keeps_refuse
  | case6 _ _ _ _ _ ih => exact ih
  | case7 _ _ _ _ _ _ ih => exact ih
  | case8 => exact Discipline.keeps_pure hany
  | case9 | case10 => exact keeps_refuse
  | case11 => exact Discipline.keeps_pure hany
  | case12 => exact keeps_refuse
  | case13 => exact keeps_parseDecl
  | case14 => exact hsingle .named rfl ⟨nofun, nofun⟩
  | case15 _ _ _ _ _ _ ih =>
    exact ih.bind fun as t _ _ has => (keeps_one has).bind fun a u _ _ ha =>
      hsingle (.indirect ha.1 ha.index) rfl ⟨nofun, nofun⟩
  | case16 => exact keeps_parseConstant
  | case17 _ _ _ _ _ _ ih =>
    refine (keeps_parseStructField fun _ => ih).bind fun f t _ _ hf => ?_
    obtain ⟨type, base, name, index, rfl, ha⟩ := hf
    exact hsingle (.field ha.1 ha.index) rfl ⟨nofun, nofun⟩
  | case18 | case19 => exact keeps_parseConstant

/-! ## Events -/

structure FunctionAccepted (refs : List Argument) (ev : FunctionEvent) : Prop where
  named : ev.function ≠ ""
  direction : ev.direction.isSome
  context : ev.context.isSome
  strict : ev.strict.isSome
  argument : ∀ a ∈ ev.argument, Placed true refs a
  /-- A function has given back its value when it exits. -/
  expected : ∀ a ∈ ev.expectedReturnValue, Placed true refs a ∧ ev.direction = some .exit
  plain : ev.kind = none ∧ ev.receiver = none

structure AssignAccepted (refs : List Argument) (assign : FieldAssignment) : Prop where
  strict : assign.strict.isSome
  base : Placed true refs assign.field.base
  value : Placed true refs assign.value

/-- An expression of a description with these references, at this place. -/
inductive Accepted (site : Location) (refs : List Argument) : Expression → Prop where
  | booleanExpr {op : Operation} {l r : Expression} :
      Accepted site refs l → Accepted site refs r → Accepted site refs (.booleanExpr op l r)
  | sequence {es : List Expression} {minReps maxReps : Int} :
      (∀ e ∈ es, Accepted site refs e) → Accepted site refs (.sequence es minReps maxReps)
  | nullExpr : Accepted site refs .nullExpr
  | assertionSite : Accepted site refs (.assertionSite ⟨site⟩)
  | function {ev : FunctionEvent} : FunctionAccepted refs ev → Accepted site refs (.function ev)
  | fieldAssign {assign : FieldAssignment} :
      AssignAccepted refs assign → Accepted site refs (.fieldAssign assign)
  | subAutomaton {name : String} : Accepted site refs (.subAutomaton ⟨some name, none⟩)

variable {E : Expression} {Es : List Expression} {ev : FunctionEvent} {f : FunctionDecl}
  {args : List Expr} {direction : Direction}

theorem FunctionAccepted.mono (h : FunctionAccepted refs ev) (hrefs : refs <+: refs') :
    FunctionAccepted refs' ev :=
  { h with
    argument := fun a ha => (h.argument a ha).mono hrefs
    expected := fun a ha => ⟨(h.expected a ha).1.mono hrefs, (h.expected a ha).2⟩ }

theorem Accepted.mono (h : Accepted site refs E) (hrefs : refs <+: refs') :
    Accepted site refs' E := by
  induction h with
  | booleanExpr _ _ ihl ihr => exact .booleanExpr ihl ihr
  | sequence _ ih => exact .sequence ih
  | nullExpr => exact .nullExpr
  | assertionSite => exact .assertionSite
  | function hev => exact .function (hev.mono hrefs)
  | fieldAssign hassign =>
    exact .fieldAssign ⟨hassign.strict, hassign.base.mono hrefs, hassign.value.mono hrefs⟩
  | subAutomaton => exact .subAutomaton

/-- A parser for one expression. -/
def Parses (site : Location) (p : ParserM Expression) : Prop :=
  ∀ s, parsing.Keeps p s fun E t => Accepted site t.references E

theorem parses_refuse : Parses site (refuse message) := fun _ => keeps_refuse

theorem parses_stop (h : g ≠ .refused) : Parses site (throw g) := fun _ => keeps_stop h

theorem parses_pure (h : ∀ refs, Accepted site refs E) : Parses site (pure E) :=
  fun s => Discipline.keeps_pure (h s.references)

theorem keeps_parseArgs {strip : Expr → Expr} (es : List Expr) :
    parsing.Keeps (parseArgs clang strip es) s (AllPlaced true) := by
  induction es generalizing s with
  | nil => exact Discipline.keeps_pure nofun
  | cons e es ih =>
    exact keeps_parseArg.bind fun as t _ _ has => ih.bind fun bs u _ hu hbs =>
      Discipline.keeps_pure (List.forall_mem_append.mpr ⟨has.mono hu.1, hbs⟩)

theorem keeps_parseParams (ds : List ValueDecl) :
    parsing.Keeps (parseParams ds) s (AllPlaced true) := by
  induction ds generalizing s with
  | nil => exact Discipline.keeps_pure nofun
  | cons d ds ih =>
    exact keeps_parseDecl.bind fun as t _ _ has => ih.bind fun bs u _ hu hbs =>
      Discipline.keeps_pure (List.forall_mem_append.mpr ⟨has.mono hu.1, hbs⟩)

theorem keeps_parseFunctionRef : parsing.Keeps (parseFunctionRef f) s fun name _ => name ≠ "" := by
  rw [parseFunctionRef]
  split
  · exact keeps_refuse
  · next hname => exact Discipline.keeps_pure hname

theorem keeps_parseReference : parsing.Keeps (parseReference e) s fun _ _ => True := by
  unfold parseReference
  split
  · exact Discipline.keeps_pure trivial
  · exact keeps_refuse
  · exact Discipline.keeps_pure trivial
  · exact keeps_stop nofun
  · exact keeps_refuse

theorem keeps_parseDetails {haveRetVal : Bool} :
    parsing.Keeps (parseDetails clang f args haveRetVal) s (AllPlaced true) := by
  rw [parseDetails]
  exact Discipline.keeps_ite (fun _ => keeps_parseParams _) fun _ =>
    Discipline.keeps_ite (fun _ => keeps_refuse) fun _ => keeps_parseArgs _

theorem keeps_parseRetVal {o : Option Expr} :
    parsing.Keeps (parseRetVal clang o) s fun a t => Placed true t.references a := by
  cases o with
  | none => exact Discipline.keeps_pure (placed_of_plain .any rfl (not_numberable_any rfl))
  | some e => exact keeps_parseArg.bind fun as t _ _ has => keeps_one has

/-- A value is expected of a function that exits. -/
theorem keeps_parseExpected {haveRetVal : Bool} {ret : Option Expr}
    (hexit : haveRetVal = true → direction = .exit) :
    parsing.Keeps (parseExpected clang haveRetVal ret) s
      fun o t => ∀ a ∈ o, Placed true t.references a ∧ direction = .exit := by
  refine Discipline.keeps_ite (fun hret => ?_) fun _ => Discipline.keeps_pure nofun
  refine keeps_parseRetVal.bind fun a t _ _ ha => Discipline.keeps_pure fun b hb => ?_
  rw [← Option.some.inj hb]
  exact ⟨ha, hexit hret⟩

theorem parses_event {retVal : Bool} {ret : Option Expr} (hexit : retVal = true → direction = .exit) :
    Parses site (parseFunctionDetails.event clang direction retVal flags e ret) := by
  intro s
  refine keeps_parseReference.bind fun r t _ _ _ => keeps_parseFunctionRef.bind fun name u _ _ hname =>
    keeps_parseDetails.bind fun as v _ _ has => ?_
  have hret : (retVal && !r.1.result.isVoid) = true → direction = .exit := by
    rw [Bool.and_eq_true]
    exact fun h => hexit h.1
  refine (keeps_parseExpected hret).bind fun o w _ hw ho => Discipline.keeps_pure ?_
  refine Accepted.function ⟨hname, rfl, rfl, rfl, has.mono hw.1, fun a ha => ⟨(ho a ha).1, ?_⟩,
    rfl, rfl⟩
  rw [(ho a ha).2]

theorem parses_parseFunctionDetails {name : String} {retVal : Bool}
    (hexit : retVal = true → direction = .exit) :
    Parses site (parseFunctionDetails clang name args direction retVal flags) := by
  unfold parseFunctionDetails
  split
  · exact parses_refuse
  · split
    · split
      · split
        · split
          · exact parses_refuse
          · exact parses_event hexit
        · exact parses_event hexit
      · exact parses_refuse
    · exact parses_refuse

theorem parses_parseFunctionResult {lhs rhs : Expr} :
    Parses site (parseFunctionResult clang lhs rhs flags) := by
  intro s
  rw [parseFunctionResult]
  dsimp only
  split
  · exact keeps_refuse.bind (Q := fun _ _ => False) fun _ _ _ _ h => h.elim
  · refine keeps_parseRetVal.bind fun a t _ _ ha => ?_
    split
    · exact keeps_parseFunctionRef.bind fun name u _ hu hname =>
        (keeps_parseArgs _).bind fun as v _ hv has => Discipline.keeps_pure <| .function
          ⟨hname, rfl, rfl, rfl, has, fun b hb => Option.some.inj hb ▸
            ⟨(ha.mono hu.1).mono hv.1, rfl⟩, rfl, rfl⟩
    · exact keeps_refuse
    · exact keeps_refuse

theorem parses_parseFieldAssign {op : BinaryOp} {lhs rhs : Expr} :
    Parses site (parseFieldAssign clang op lhs rhs flags) := by
  have hassign (operation : AssignType) :
      Parses site (parseFieldAssign.assign clang op lhs rhs flags operation) := by
    intro s
    unfold parseFieldAssign.assign
    split
    · refine keeps_checkAssignmentKind.bind fun _ t _ _ _ =>
        (keeps_parseStructField fun _ => keeps_parseArg).bind fun field u _ _ hfield =>
          keeps_parseArg.bind fun as v _ hv has => (keeps_one has).bind fun a w _ hw ha =>
            Discipline.keeps_pure ?_
      obtain ⟨type, base, name, index, rfl, hbase⟩ := hfield
      exact .fieldAssign ⟨rfl, (hbase.mono hv.1).mono hw.1, ha⟩
    · exact keeps_refuse
  unfold parseFieldAssign
  split
  · exact hassign _
  · exact hassign _
  · exact hassign _
  · exact parses_refuse

theorem parses_parseUnary {op : UnaryOp} : Parses site (parseUnary clang op e flags) := by
  have hstep (operation : AssignType) : Parses site (parseUnary.step clang e flags operation) := by
    intro s
    unfold parseUnary.step
    split
    · refine keeps_checkAssignmentKind.bind fun _ t _ _ _ =>
        (keeps_parseStructField fun _ => keeps_parseArg).bind fun field u _ _ hfield =>
          Discipline.keeps_pure ?_
      obtain ⟨type, base, name, index, rfl, hbase⟩ := hfield
      exact .fieldAssign ⟨rfl, hbase, placed_of_plain .constant rfl (not_numberable_constant rfl)⟩
    · exact keeps_refuse
  unfold parseUnary
  split
  all_goals first | exact hstep _ | exact parses_refuse

theorem parses_parseRef {name : String} : Parses site (parseRef site name) := by
  unfold parseRef
  split
  · exact parses_pure fun _ => .assertionSite
  · split
    · exact parses_pure fun _ => .nullExpr
    · exact parses_refuse

/-! ## Expressions -/

/-- Parsers for parts of an expression. -/
def ParsesAll (site : Location) (ps : List SubParser) : Prop :=
  ∀ p ∈ ps, ∀ flags, Parses site (p flags)

variable {p q : SubParser} {ps : List SubParser} {name : String}

theorem keeps_parseAll (hps : ParsesAll site ps) : parsing.Keeps (parseAll flags ps) s
    fun Es t => ∀ E ∈ Es, Accepted site t.references E := by
  induction ps generalizing s with
  | nil => exact Discipline.keeps_pure nofun
  | cons p ps ih =>
    obtain ⟨hp, hps⟩ := List.forall_mem_cons.mp hps
    exact (hp flags s).bind fun E t _ _ hE => (ih hps).bind fun Es u _ hu hEs =>
      Discipline.keeps_pure (List.forall_mem_cons.mpr ⟨hE.mono hu.1, hEs⟩)

theorem parses_sequence (hps : ParsesAll site ps) (minReps maxReps : Int) :
    Parses site (do return .sequence (← parseAll flags ps) minReps maxReps) :=
  fun _ => (keeps_parseAll hps).bind fun _ _ _ _ hEs => Discipline.keeps_pure (.sequence hEs)

theorem parses_parseRepetition (hps : ParsesAll site ps) :
    Parses site (parseRepetition clang args ps flags) := by
  intro s
  unfold parseRepetition
  split
  · next p q ps =>
    have hps : ParsesAll site ps := fun r hr =>
      hps r (List.mem_cons_of_mem _ (List.mem_cons_of_mem _ hr))
    exact keeps_parseIntegerLiteral.bind fun min t _ _ _ =>
      keeps_parseIntegerLiteral.bind fun max u _ _ _ => parses_sequence hps _ _ u
  · exact keeps_refuse

theorem parses_parseOptional (hps : ParsesAll site ps) : Parses site (parseOptional ps flags) := by
  intro s
  unfold parseOptional
  split
  · next p q =>
    exact (hps q (by simp) flags s).bind fun E t _ _ hE =>
      Discipline.keeps_pure (.booleanExpr .nullExpr hE)
  · exact keeps_refuse

theorem parses_parseWith (set : Flags → Flags) (hps : ParsesAll site ps) :
    Parses site (parseWith set args ps flags) := by
  intro s
  unfold parseWith
  split
  · next p q =>
    exact keeps_checkIgnore.bind fun _ t _ _ _ => hps q (by simp) (set flags) t
  · exact keeps_refuse

theorem parses_parseModifier (hps : ParsesAll site ps) :
    Parses site (parseModifier clang name args ps flags) := by
  unfold parseModifier
  split
  · exact parses_parseFunctionDetails nofun
  · split
    · exact parses_parseFunctionDetails fun _ => rfl
    · -- the modifiers that take expressions
      repeat' split
      all_goals first
        | exact parses_parseWith _ hps
        | exact parses_sequence hps 1 1
        | exact parses_parseRepetition hps
        | exact parses_parseOptional hps
        | exact parses_refuse

theorem parses_parseCall {callee : Option FunctionDecl} (hps : ParsesAll site ps) :
    Parses site (parseCall clang callee args ps flags) := by
  unfold parseCall
  split
  · exact parses_refuse
  · split
    · split
      · exact parses_refuse
      · split
        · exact parses_pure fun _ => .subAutomaton
        · split
          · exact parses_parseModifier hps
          · exact parses_refuse
    · exact parses_refuse

theorem parses_parseBinary {op : BinaryOp} {lhs rhs : Expr} (hp : Parses site (p flags))
    (hq : Parses site (q flags)) : Parses site (parseBinary clang op lhs rhs p q flags) := by
  have hboth (operation : Operation) : Parses site (parseBinary.both p q flags operation) :=
    fun s => (hp s).bind fun _ t _ _ hl => (hq t).bind fun _ _ _ hu hr =>
      Discipline.keeps_pure (.booleanExpr (hl.mono hu.1) hr)
  unfold parseBinary
  split
  · exact parses_stop nofun
  · split
    · exact parses_parseFieldAssign
    · exact parses_parseFunctionResult
    · exact hboth _
    · exact hboth _
    · exact parses_refuse

theorem keeps_parseReturn {o : Option Expr} : parsing.Keeps (parseReturn o) s fun _ _ => True := by
  unfold parseReturn
  split
  · exact keeps_refuse
  · split
    · exact Discipline.keeps_pure trivial
    · exact keeps_refuse

mutual

theorem parses_parseExpr (clang : Clang) (site : Location) (e : Expr) (flags : Flags) :
    Parses site (parseExpr clang site e flags) := by
  cases e with
  | implicit e => exact parses_parseExpr clang site e flags
  | block body =>
    exact fun s => (keeps_parseBody clang site body flags s).bind fun _ _ _ _ hEs =>
      Discipline.keeps_pure (.sequence hEs)
  | binary op lhs rhs =>
    rw [parseExpr]
    split
    · exact parses_parseFieldAssign
    · exact parses_parseBinary (parses_parseExpr clang site lhs flags)
        (parses_parseExpr clang site rhs flags)
  | call callee args => exact parses_parseCall (parses_parseExprs clang site args)
  | value d => exact parses_parseRef
  | function f => exact parses_parseRef
  | unary op e => exact parses_parseUnary
  | paren | cast | choose | member | intLiteral | stringLiteral | other => exact parses_refuse

theorem parses_parseExprs (clang : Clang) (site : Location) (es : List Expr) :
    ParsesAll site (parseExprs clang site es) := by
  cases es with
  | nil => exact List.forall_mem_nil _
  | cons e es =>
    exact List.forall_mem_cons.mpr
      ⟨fun flags => parses_parseExpr clang site e flags, parses_parseExprs clang site es⟩

theorem keeps_parseBody (clang : Clang) (site : Location) (body : List Stmt) (flags : Flags)
    (s : ParserState) : parsing.Keeps (parseBody clang site body flags) s
      fun Es t => ∀ E ∈ Es, Accepted site t.references E := by
  match body with
  | [] => exact Discipline.keeps_pure (List.forall_mem_nil _)
  | .ret o :: ss =>
    exact keeps_parseReturn.bind fun _ t _ _ _ => keeps_parseBody clang site ss flags t
  | .decl ds :: ss =>
    exact (Discipline.keeps_modify (D := parsing) (fun hs => hs) (parsing.refl s)).bind
      fun _ t _ _ _ => keeps_parseBody clang site ss flags t
  | .expr e :: ss =>
    exact (parses_parseExpr clang site e flags s).bind fun E t _ _ hE =>
      (keeps_parseBody clang site ss flags t).bind fun Es u _ hu hEs =>
        Discipline.keeps_pure (List.forall_mem_cons.mpr ⟨hE.mono hu.1, hEs⟩)
  | .other :: _ => exact keeps_refuse

end

/-! ## Descriptions and usages -/

/-- The place of the assertion that is described. -/
def siteOf (id : Identifier) : Location := id.location.getD ⟨"", 0, 0⟩

structure DescriptionAccepted (d : AutomatonDescription) : Prop where
  numbered : Numbered d.argument
  expression : Accepted (siteOf d.identifier) d.argument d.expression

/-- A usage goes with a description, whose variables its bounds name. -/
structure UsageAccepted (refs : List Argument) (use : Usage) : Prop where
  numbered : Numbered refs
  bounded : use.beginning.isSome ∨ use.ending.isSome
  beginning : ∀ E ∈ use.beginning, Accepted (siteOf use.identifier) refs E
  ending : ∀ E ∈ use.ending, Accepted (siteOf use.identifier) refs E

/-- What a parser gives back. -/
structure Results (p : Parser) (refs : List Argument) (r : Option AutomatonDescription × Option Usage) :
    Prop where
  described : r.1.isSome = p.root.isSome
  description : ∀ d ∈ r.1, d.identifier = p.id ∧ d.argument = refs ∧ DescriptionAccepted d
  usage : ∀ u ∈ r.2, u.identifier = p.id ∧ UsageAccepted refs u
  bounds : p.beginning.isSome → p.ending.isSome →
    ∃ u ∈ r.2, u.beginning.isSome ∧ u.ending.isSome

variable {P : Parser}

theorem keeps_parseBound {o : Option Expr} : parsing.Keeps (parseBound clang P o) s fun r t =>
    r.isSome = o.isSome ∧ ∀ E ∈ r, Accepted P.site t.references E := by
  cases o with
  | none => exact Discipline.keeps_pure ⟨rfl, nofun⟩
  | some e =>
    exact (parses_parseExpr clang P.site e P.rootFlags s).bind fun E t _ _ hE =>
      Discipline.keeps_pure ⟨rfl, fun E' hE' => Option.some.inj hE' ▸ hE⟩

theorem keeps_parseRoot {o : Option Root} : parsing.Keeps (parseRoot clang P o) s fun r t =>
    r.isSome = o.isSome ∧ ∀ E ∈ r, Accepted P.site t.references E := by
  unfold parseRoot
  split
  · exact Discipline.keeps_pure ⟨rfl, nofun⟩
  · next body =>
    refine Discipline.Keeps.bind (Q := fun E t => Accepted P.site t.references E) ?_ fun E t _ _ hE =>
      Discipline.keeps_pure ⟨rfl, fun E' hE' => Option.some.inj hE' ▸ hE⟩
    exact (keeps_parseBody clang P.site body P.rootFlags s).bind fun Es t _ _ hEs =>
      Discipline.keeps_pure (.sequence hEs)
  · next e =>
    exact (parses_parseExpr clang P.site e P.rootFlags s).bind fun E t _ _ hE =>
      Discipline.keeps_pure ⟨rfl, fun E' hE' => Option.some.inj hE' ▸ hE⟩
  · exact keeps_refuse

theorem keeps_parse : parsing.Keeps (P.parse clang) s fun r t => Results P t.references r := by
  rw [Parser.parse]
  refine keeps_parseBound.bind fun b t _ _ hb => keeps_parseBound.bind fun c u _ hu hc =>
    keeps_parseRoot.bind fun r v hv hv' hr => Discipline.keeps_get <| Discipline.keeps_pure ?_
  have hbegin : ∀ E ∈ b, Accepted P.site v.references E :=
    fun E hE => ((hb.2 E hE).mono hu.1).mono hv'.1
  have hend : ∀ E ∈ c, Accepted P.site v.references E := fun E hE => (hc.2 E hE).mono hv'.1
  constructor
  · rw [Option.isSome_map, hr.1]
  · intro d hd
    obtain ⟨E, hE, rfl⟩ := Option.map_eq_some_iff.mp hd
    exact ⟨rfl, rfl, hv, hr.2 E hE⟩
  · intro use huse
    dsimp only at huse
    split at huse
    · next hsome =>
      obtain rfl := Option.some.inj huse
      exact ⟨rfl, hv, hsome, hbegin, hend⟩
    · cases huse
  · intro hbeginning hending
    rw [← hb.1] at hbeginning
    rw [← hc.1] at hending
    exact ⟨_, by rw [if_pos (.inl hbeginning)]; rfl, hbeginning, hending⟩

/-! ## The three kinds of parsers -/

theorem keeps_parseLocation {filename line count : Expr} :
    parsing.Keeps (parseLocation clang filename line count) s fun _ _ => True := by
  rw [parseLocation]
  refine keeps_parseStringLiteral.bind fun _ t _ _ _ => keeps_parseIntegerLiteral.bind
    fun n u _ _ _ => ?_
  dsimp only
  split
  · exact keeps_refuse.bind (Q := fun _ _ => False) fun _ _ _ _ h => h.elim
  · refine keeps_parseIntegerLiteral.bind fun n u _ _ _ => ?_
    split
    · exact keeps_refuse.bind (Q := fun _ _ => False) fun _ _ _ _ h => h.elim
    · exact Discipline.keeps_pure trivial

theorem keeps_parseContext : parsing.Keeps (parseContext e) s fun _ _ => True := by
  have hnamed (name : String) : parsing.Keeps (parseContext.named name) s fun _ _ => True := by
    unfold parseContext.named
    repeat' split
    all_goals first | exact Discipline.keeps_pure trivial | exact keeps_refuse
  unfold parseContext
  split
  · exact hnamed _
  · exact hnamed _
  · exact keeps_refuse

/-- The parser of an assertion has everything. -/
theorem keeps_assertionParser : parsing.Keeps (assertionParser clang args) s fun P _ =>
    P.id.location.isSome ∧ P.beginning.isSome ∧ P.ending.isSome ∧ P.root.isSome := by
  unfold assertionParser
  split
  · exact keeps_parseStringLiteral.bind fun _ t _ _ _ => keeps_parseLocation.bind
      fun _ u _ _ _ => keeps_parseContext.bind fun _ v _ _ _ =>
        Discipline.keeps_pure ⟨rfl, rfl, rfl, rfl⟩
  · exact keeps_refuse

theorem keeps_automatonParser {body : List Stmt} : parsing.Keeps (automatonParser f body) s
    fun P _ => P.id.location = none ∧ P.beginning = none ∧ P.ending = none ∧ P.root.isSome := by
  unfold automatonParser
  split
  · split
    · split
      · exact Discipline.keeps_pure ⟨rfl, rfl, rfl, rfl⟩
      · exact keeps_refuse
    · exact keeps_refuse
  · exact keeps_refuse

theorem keeps_mappingParser {left : Option Operation × Bool} {body : List Stmt} :
    parsing.Keeps (mappingParser left body) s fun P _ =>
      P.id.location = none ∧ P.beginning.isSome ∧ P.ending.isSome ∧ P.root = none := by
  unfold mappingParser
  split
  · exact keeps_stop nofun
  · split
    · exact keeps_refuse
    · split
      · refine keeps_parseStringLiteral.bind fun name t _ _ _ => ?_
        dsimp only
        split
        · exact keeps_refuse.bind (Q := fun _ _ => False) fun _ _ _ _ h => h.elim
        · split
          · exact keeps_parseContext.bind fun _ v _ _ _ =>
              Discipline.keeps_pure ⟨rfl, rfl, rfl, rfl⟩
          · exact keeps_parseContext.bind fun _ v _ _ _ =>
              Discipline.keeps_pure ⟨rfl, rfl, rfl, rfl⟩
          · exact keeps_refuse.bind (Q := fun _ _ => False) fun _ _ _ _ h => h.elim
      · exact keeps_refuse
  · exact keeps_refuse
  · exact keeps_refuse
  · exact keeps_refuse

end Tesla.Analyser
