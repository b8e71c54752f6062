/-
# `Tesla.Instrumenter.Callee` — hooks in the functions of a module

`FnCalleeInstrumenter::runOnModule` goes through the lifetimes of the manifest and through
the symbols of its root automata, and adds to the instrumentation functions of the module:

    the beginning of a lifetime    `tesla_sunrise`
    the end of a lifetime          `tesla_sunset`
    a symbol                       `tesla_update_state`

An instrumentation function is the chain of what has been added to it, in that order.  It
is called from the function it instruments: at its entry, or at each of its returns.

The beginning and the end of a lifetime are looked at in one body of a loop, and where the
beginning is a function event that this module has no part in, the loop goes on to the next
lifetime.  So the end is hooked in every module that defines its function if and only if
no lifetime is cut short there (`Cut`).
-/
import Tesla.Automata.Language
import Tesla.Automata.Manifest
import Tesla.Instrumenter.Translation

namespace Tesla.Instrumenter

open Automata Lib

/-! ## Modules -/

/-- `llvm::Function`. -/
structure Function where
  name : String
  type : FunctionType
  /-- It has a body. -/
  defined : Bool
  /-- How many return instructions there are. -/
  returns : Nat
deriving DecidableEq

structure Module where
  functions : List Function
  /-- The selectors of message sends whose type is known. -/
  selectors : List String
deriving DecidableEq

/-- `getFunction`. -/
def Module.getFunction (m : Module) (name : String) : Option Function :=
  m.functions.find? fun f => f.name = name

/-- The function to instrument for an event, where it is the callee and defined here. -/
def Module.target (m : Module) (ev : FunctionEvent) : Option Function :=
  if ev.context.getD .caller = .callee then (m.getFunction ev.function).filter (·.defined) else none

/-! ## Instrumentation functions -/

/-- A call of the run-time. -/
inductive Hook where
  | sunrise (l : Lifetime)
  | sunset (l : Lifetime)
  | updateState (context : Context) (automaton : String) (symbol : Nat)
deriving DecidableEq

structure Block where
  label : String
  code : Code
  call : Hook

structure TranslationFn where
  target : String
  direction : Direction
  params : List Ty
  /-- How many calls of it have been inserted. -/
  calls : Nat
  chain : List Block

/-- The instrumentation functions of a module: the maps `Entry` and `Exit`. -/
abbrev Instrumentation := List TranslationFn

namespace Instrumentation

def IsFor (name : String) (direction : Direction) (f : TranslationFn) : Bool :=
  f.target = name ∧ f.direction = direction

/-- `GetOrCreateInstr`. -/
def getOrCreateInstr (F : Function) (ev : FunctionEvent) (I : Instrumentation) :
    Except Failure (TranslationFn × Instrumentation) :=
  let direction := ev.direction.getD .entry
  match I.find? (IsFor ev.function direction) with
  | some f => .ok (f, I)
  | none => do
    let params ← createInstrFn ev F.type
    let calls := match direction with
      | .entry => 1
      | .exit => F.returns
    let f : TranslationFn := ⟨ev.function, direction, params, calls, []⟩
    return (f, I ++ [f])

/-- A block at the end of a chain. -/
def append (name : String) (direction : Direction) (b : Block) : Instrumentation → Instrumentation
  | [] => []
  | f :: fs =>
    if IsFor name direction f then { f with chain := f.chain ++ [b] } :: fs
    else f :: append name direction b fs

/-- An event is translated to a call of the run-time. -/
def hook (F : Function) (ev : FunctionEvent) (label : String) (call : Hook) (I : Instrumentation) :
    Except Failure Instrumentation := do
  let (f, I) ← getOrCreateInstr F ev I
  let code ← addEvent f.params ev
  return I.append ev.function (ev.direction.getD .entry) ⟨label, code, call⟩

/-- All calls of the run-time. -/
def hooks (I : Instrumentation) : List Hook := I.flatMap fun f => f.chain.map (·.call)

end Instrumentation

/-! ## Lifetimes -/

/-- `BuildLifetime`, which needs both bounds and their messages. -/
def buildLifetime (l : Lifetime) : Except Failure Lifetime :=
  match l.init, l.cleanup with
  | some b, some e => if b.hasProtobuf ∧ e.hasProtobuf then .ok l else .error .noProtobuf
  | _, _ => .error .lifetimeBound

def instrumentCleanup (m : Module) (l : Lifetime) (I : Instrumentation) :
    Except Failure Instrumentation :=
  match l.cleanup with
  | some (.fn ev) =>
    match m.target ev with
    | some F => do I.hook F ev "exit_lifetime" (.sunset (← buildLifetime l))
    | none => .ok I
  | _ => .ok I

/-- The body of the loop over lifetimes. -/
def instrumentLifetime (m : Module) (I : Instrumentation) (l : Lifetime) :
    Except Failure Instrumentation :=
  match l.init with
  | some (.fn ev) =>
    match m.target ev with
    | some F => do
      let I ← I.hook F ev "enter_lifetime" (.sunrise (← buildLifetime l))
      instrumentCleanup m l I
    -- `continue`
    | none => .ok I
  | _ => instrumentCleanup m l I

/-! ## Symbols -/

/-- `ObjCInstrumentation::instrument`: nothing is done for a selector that the module does not
send, and there is no code for one that it does. -/
def instrumentMessage (m : Module) (ev : FunctionEvent) (I : Instrumentation) :
    Except Failure Instrumentation :=
  match ev.kind.getD .cCall with
  | .objCInstanceMessage | .objCClassMessage =>
    if ev.function ∈ m.selectors then .error .objectiveC else .ok I
  | .objCSuperMessage | .cCall => .error .objectiveC

/-- The body of the loop over equivalence classes. -/
def instrumentClass (m : Module) (it : Iteration) (a : Automaton) (I : Instrumentation)
    (cls : List Transition × Nat) : Except Failure Instrumentation :=
  match it.head cls.1 with
  | none => .error .emptyClass
  | some head =>
    match head.label with
    | .fn ev =>
      if head.init ∨ head.cleanup then .ok I
      else if ev.kind.getD .cCall ≠ .cCall then instrumentMessage m ev I
      else
        let name := a.assertion.identifier.shortName
        match m.target ev with
        | some F => I.hook F ev name (.updateState a.assertion.context name cls.2)
        | none => .ok I
    | _ => .ok I

def instrumentAutomaton (m : Module) (it : Iteration) (M : Manifest) (I : Instrumentation)
    (use : Usage) : Except Failure Instrumentation :=
  match M.findAutomaton use.identifier with
  | some a => (groupClasses it a.graph.transitions).zipIdx.foldlM (instrumentClass m it a) I
  | none => .error .noAutomaton

/-- `FnCalleeInstrumenter::runOnModule`. -/
def runOnModule (it : Iteration) (M : Manifest) (m : Module) : Except Failure Instrumentation := do
  let I ← M.lifetimes.foldlM (instrumentLifetime m) []
  M.roots.foldlM (instrumentAutomaton m it M) I

/-! ## What is hooked -/

variable {m : Module} {it : Iteration} {M : Manifest} {I I' : Instrumentation} {l : Lifetime}
  {F : Function} {ev : FunctionEvent} {label : String} {call h : Hook}

namespace Instrumentation

theorem hooks_append {name : String} {direction : Direction} {b : Block}
    (hfound : (I.find? (IsFor name direction)).isSome) :
    (I.append name direction b).hooks.count h = I.hooks.count h + if h = b.call then 1 else 0 := by
  induction I with
  | nil => cases hfound
  | cons f fs ih =>
    rw [append]
    split
    · have hcall : [b.call].count h = if h = b.call then 1 else 0 := by
        by_cases heq : h = b.call
        · rw [heq, if_pos rfl, List.count_singleton_self]
        · rw [if_neg heq, List.count_eq_zero, List.mem_singleton]
          exact heq
      simp only [hooks, List.flatMap_cons, List.map_append, List.map_cons, List.map_nil,
        List.count_append, hcall]
      omega
    · next hnot =>
      rw [List.find?_cons_of_neg hnot] at hfound
      have hrest := ih hfound
      simp only [hooks, List.flatMap_cons, List.count_append] at hrest ⊢
      omega

theorem getOrCreateInstr_spec {f : TranslationFn} (hget : I.getOrCreateInstr F ev = .ok (f, I')) :
    I'.hooks = I.hooks ∧ (I'.find? (IsFor ev.function (ev.direction.getD .entry))).isSome := by
  unfold getOrCreateInstr at hget
  cases hfind : I.find? (IsFor ev.function (ev.direction.getD .entry)) with
  | some f' =>
    simp only [hfind] at hget
    cases hget
    exact ⟨rfl, by rw [hfind]; rfl⟩
  | none =>
    simp only [hfind] at hget
    obtain ⟨params, _, hget⟩ := bind_eq_ok.mp hget
    cases hget
    refine ⟨?_, ?_⟩
    · rw [hooks, hooks, List.flatMap_append]
      simp
    · rw [List.find?_append, hfind, Option.none_or]
      simp [IsFor]

/-- One call of the run-time is added. -/
theorem hook_spec (hhook : I.hook F ev label call = .ok I') :
    I'.hooks.count h = I.hooks.count h + if h = call then 1 else 0 := by
  obtain ⟨⟨f, I₁⟩, hget, hhook⟩ := bind_eq_ok.mp hhook
  obtain ⟨code, _, hhook⟩ := bind_eq_ok.mp hhook
  cases hhook
  obtain ⟨heq, hfound⟩ := getOrCreateInstr_spec hget
  rw [hooks_append hfound, heq]

end Instrumentation

/-- The bound is a function event that the module has a part in: the callee is instrumented, and
defined here. -/
def Hookable (m : Module) (bound : Option Label) : Prop :=
  ∃ ev F, bound = some (.fn ev) ∧ ev.context.getD .caller = .callee ∧
    m.getFunction ev.function = some F ∧ F.defined = true

/-- The end of the lifetime is not looked at: its beginning is a function event that the module
has no part in. -/
def Cut (m : Module) (l : Lifetime) : Prop :=
  (∃ ev, l.init = some (.fn ev)) ∧ ¬ Hookable m l.init

theorem target_eq_some : m.target ev = some F ↔ ev.context.getD .caller = .callee ∧
    m.getFunction ev.function = some F ∧ F.defined = true := by
  rw [Module.target]
  split
  · next hcallee => simp [hcallee, Option.filter_eq_some_iff]
  · next hcallee => simp [hcallee]

theorem hookable_fn : Hookable m (some (.fn ev)) ↔ ∃ F, m.target ev = some F := by
  simp only [Hookable, Option.some.injEq, Label.fn.injEq, target_eq_some]
  constructor
  · rintro ⟨_, F, rfl, h⟩
    exact ⟨F, h⟩
  · rintro ⟨F, h⟩
    exact ⟨ev, F, rfl, h⟩

theorem buildLifetime_eq {l' : Lifetime} (hbuild : buildLifetime l = .ok l') : l' = l := by
  unfold buildLifetime at hbuild
  split at hbuild
  · split at hbuild
    · cases hbuild
      rfl
    · cases hbuild
  · cases hbuild

open scoped Classical in
theorem instrumentCleanup_spec (hrun : instrumentCleanup m l I = .ok I') :
    I'.hooks.count h = I.hooks.count h + if h = .sunset l ∧ Hookable m l.cleanup then 1 else 0 := by
  unfold instrumentCleanup at hrun
  split at hrun
  · next ev hev =>
    rw [hev, hookable_fn]
    split at hrun
    · next F hF =>
      obtain ⟨l', hl', hhook⟩ := bind_eq_ok.mp hrun
      obtain rfl := buildLifetime_eq hl'
      rw [Instrumentation.hook_spec hhook]
      simp [hF]
    · next hF =>
      cases hrun
      simp [hF]
  · next hnot =>
    cases hrun
    rw [if_neg, Nat.add_zero]
    rintro ⟨_, ev, F, hev, _⟩
    exact hnot ev hev

open scoped Classical in
/-- What a round of the loop adds. -/
theorem instrumentLifetime_spec (hrun : instrumentLifetime m I l = .ok I') :
    I'.hooks.count h = I.hooks.count h + (if h = .sunrise l ∧ Hookable m l.init then 1 else 0) +
      if h = .sunset l ∧ Hookable m l.cleanup ∧ ¬ Cut m l then 1 else 0 := by
  unfold instrumentLifetime at hrun
  split at hrun
  · next ev hev =>
    split at hrun
    · next F hF =>
      have hhook : Hookable m l.init := by
        rw [hev]
        exact hookable_fn.mpr ⟨F, hF⟩
      have hcut : ¬ Cut m l := fun hcut => hcut.2 hhook
      obtain ⟨l', hl', hrest⟩ := bind_eq_ok.mp hrun
      obtain rfl := buildLifetime_eq hl'
      obtain ⟨I₁, hfirst, hlast⟩ := bind_eq_ok.mp hrest
      rw [instrumentCleanup_spec hlast, Instrumentation.hook_spec hfirst]
      simp [hhook, hcut]
    · next hF =>
      cases hrun
      have hhook : ¬ Hookable m l.init := by
        rw [hev, hookable_fn, hF]
        nofun
      have hcut : Cut m l := ⟨⟨ev, hev⟩, hhook⟩
      simp [hhook, hcut]
  · next hnot =>
    have hhook : ¬ Hookable m l.init := fun ⟨ev, _, hev, _⟩ => hnot ev hev
    have hcut : ¬ Cut m l := fun ⟨⟨ev, hev⟩, _⟩ => hnot ev hev
    rw [instrumentCleanup_spec hrun]
    simp [hhook, hcut]

/-- A class adds nothing, or a call of `tesla_update_state` for its symbol. -/
theorem instrumentClass_cases {a : Automaton} {cls : List Transition × Nat}
    (hrun : instrumentClass m it a I cls = .ok I') : I' = I ∨ ∃ head ev F,
      it.head cls.1 = some head ∧ head.label = .fn ev ∧ (head.init = false ∧ head.cleanup = false) ∧
      m.target ev = some F ∧ I.hook F ev a.assertion.identifier.shortName
        (.updateState a.assertion.context a.assertion.identifier.shortName cls.2) = .ok I' := by
  unfold instrumentClass at hrun
  split at hrun
  · cases hrun
  · next head hhead =>
    split at hrun
    · next ev hev =>
      split at hrun
      · cases hrun
        exact .inl rfl
      · next hbound =>
        split at hrun
        · refine .inl ?_
          unfold instrumentMessage at hrun
          split at hrun
          all_goals first | (split at hrun <;> cases hrun; rfl) | cases hrun
        · split at hrun
          · next F hF =>
            rw [not_or, Bool.not_eq_true, Bool.not_eq_true] at hbound
            exact .inr ⟨head, ev, F, hhead, hev, hbound, hF, hrun⟩
          · cases hrun
            exact .inl rfl
    · cases hrun
      exact .inl rfl

theorem roots_spec (hrun : M.roots.foldlM (instrumentAutomaton m it M) I = .ok I')
    (hh : ∀ context name symbol, h ≠ .updateState context name symbol) :
    I'.hooks.count h = I.hooks.count h := by
  refine foldlM_keeps (P := fun J => J.hooks.count h = I.hooks.count h) ?_ hrun rfl
  intro I₀ use I₁ hkept hstep
  rw [instrumentAutomaton] at hstep
  split at hstep
  · refine foldlM_keeps (P := fun J => J.hooks.count h = I.hooks.count h) ?_ hstep hkept
    intro J cls J' hkept hcls
    obtain rfl | ⟨_, _, _, _, _, _, _, hhook⟩ := instrumentClass_cases hcls
    · exact hkept
    · rw [Instrumentation.hook_spec hhook, if_neg (hh _ _ _), hkept, Nat.add_zero]
  · cases hstep

open scoped Classical in
theorem lifetimes_spec {ls : List Lifetime}
    (hrun : ls.foldlM (instrumentLifetime m) I = .ok I') :
    I'.hooks.count (.sunrise l) = I.hooks.count (.sunrise l) +
        (if Hookable m l.init then ls.count l else 0) ∧
      I'.hooks.count (.sunset l) = I.hooks.count (.sunset l) +
        if Hookable m l.cleanup ∧ ¬ Cut m l then ls.count l else 0 := by
  induction ls generalizing I with
  | nil =>
    cases hrun
    simp
  | cons l' ls ih =>
    rw [List.foldlM_cons] at hrun
    obtain ⟨I₁, hstep, hrun⟩ := bind_eq_ok.mp hrun
    obtain ⟨hrise, hset⟩ := ih hrun
    rw [hrise, hset, instrumentLifetime_spec hstep, instrumentLifetime_spec hstep, List.count_cons]
    by_cases heq : l = l'
    · subst heq
      constructor
      · by_cases hinit : Hookable m l.init <;> simp [hinit]
        omega
      · by_cases hcleanup : Hookable m l.cleanup ∧ ¬ Cut m l <;> simp [hcleanup]
        omega
    · have hne : ¬ l' = l := fun h => heq h.symm
      simp [heq, hne]

/-- Each bound of a lifetime has its one call, just where the module has a part in it. -/
structure Hooked (m : Module) (I : Instrumentation) (l : Lifetime) : Prop where
  sunrise : .sunrise l ∈ I.hooks ↔ Hookable m l.init
  sunset : .sunset l ∈ I.hooks ↔ Hookable m l.cleanup
  once : I.hooks.count (.sunrise l) ≤ 1 ∧ I.hooks.count (.sunset l) ≤ 1

theorem hooked_iff (hnodup : M.lifetimes.Nodup) (hrun : runOnModule it M m = .ok I)
    (hl : l ∈ M.lifetimes) : Hooked m I l ↔ (Cut m l → ¬ Hookable m l.cleanup) := by
  classical
  obtain ⟨I₁, hlifetimes, hroots⟩ := bind_eq_ok.mp hrun
  obtain ⟨hrise, hset⟩ := lifetimes_spec (l := l) hlifetimes
  rw [← roots_spec hroots (h := .sunrise l) fun _ _ _ => nofun] at hrise
  rw [← roots_spec hroots (h := .sunset l) fun _ _ _ => nofun] at hset
  rw [List.count_eq_one_of_mem hnodup hl] at hrise hset
  have hnone : ∀ h : Hook, (List.count h (Instrumentation.hooks [])) = 0 := fun h => rfl
  rw [hnone, Nat.zero_add] at hrise hset
  constructor
  · intro hhooked hcut hcleanup
    have hmem := List.count_pos_iff.mpr (hhooked.sunset.mpr hcleanup)
    rw [hset, if_neg fun h => h.2 hcut] at hmem
    exact hmem.false
  · intro hcut
    have hboth : Hookable m l.cleanup ∧ ¬ Cut m l ↔ Hookable m l.cleanup :=
      ⟨fun h => h.1, fun h => ⟨h, fun hc => hcut hc h⟩⟩
    rw [if_congr hboth rfl rfl] at hset
    refine ⟨?_, ?_, ?_⟩
    · rw [← List.count_pos_iff, hrise]
      split <;> simp [*]
    · rw [← List.count_pos_iff, hset]
      split <;> simp [*]
    · rw [hrise, hset]
      constructor <;> split <;> decide

/-- Over the modules of a program, the bounds of lifetimes are hooked where their functions are
defined, and once, if and only if no lifetime that is cut short in a module has an end there. -/
theorem bounds_hooked_iff {file : ManifestFile} {xorOnly : Bool} {fuel rounds : Nat}
    {program : List (Module × Instrumentation)}
    (hload : file.load xorOnly it fuel rounds = .ok M)
    (hrun : ∀ x ∈ program, runOnModule it M x.1 = .ok x.2) :
    (∀ x ∈ program, ∀ l ∈ M.lifetimes, Hooked x.1 x.2 l) ↔
      ∀ x ∈ program, ∀ l ∈ M.lifetimes, Cut x.1 l → ¬ Hookable x.1 l.cleanup := by
  have hnodup := ManifestFile.load_nodup hload
  refine forall₂_congr fun x hx => forall₂_congr fun l hl => ?_
  exact hooked_iff hnodup (hrun x hx) hl

/-! ## Two modules -/

/-- Within a call, `serve` is called. -/
def servedFile : ManifestFile where
  automaton := [⟨⟨some "served", none⟩, .global, .function (Parser.callTo "serve"), []⟩]
  root := [⟨⟨some "served", none⟩, some (.function (Parser.callTo "enter")),
    some (.function (Parser.callTo "leave"))⟩]

def served : Lifetime :=
  ⟨.global, some (.fn (Parser.callTo "enter")), some (.fn (Parser.callTo "leave"))⟩

/-- A module that defines functions without parameters. -/
def moduleOf (names : List String) : Module where
  functions := names.map fun name => ⟨name, ⟨[], none⟩, true, 1⟩
  selectors := []

/-- The lifetimes and the calls of the run-time, when the manifest is loaded and a module
instrumented. -/
def instrumented (file : ManifestFile) (m : Module) : Option (List Lifetime × List Hook) := do
  let M ← (file.load false .insertion 3 12).toOption
  let I ← (runOnModule .insertion M m).toOption
  return (M.lifetimes, I.hooks)

theorem instrumented_eq_some {file : ManifestFile} {ls : List Lifetime} {hs : List Hook}
    (hall : instrumented file m = some (ls, hs)) :
    ∃ M I, file.load false .insertion 3 12 = .ok M ∧ runOnModule .insertion M m = .ok I ∧
      M.lifetimes = ls ∧ I.hooks = hs := by
  obtain ⟨M, hM, hall⟩ := Option.bind_eq_some_iff.mp hall
  obtain ⟨I, hI, hall⟩ := Option.bind_eq_some_iff.mp hall
  cases hall
  exact ⟨M, I, ok_of_toOption hM, ok_of_toOption hI, rfl, rfl⟩

theorem bounds_hooked_iff_both : ∃ M I, servedFile.load false .insertion 3 12 = .ok M ∧
    runOnModule .insertion M (moduleOf ["enter", "serve", "leave"]) = .ok I ∧
    served ∈ M.lifetimes ∧ Hooked (moduleOf ["enter", "serve", "leave"]) I served := by
  have hall : instrumented servedFile (moduleOf ["enter", "serve", "leave"]) =
      some ([served], [.sunrise served, .sunset served, .updateState .global "served" 1]) := by
    decide +kernel
  obtain ⟨M, I, hload, hrun, hls, _⟩ := instrumented_eq_some hall
  have hmem : served ∈ M.lifetimes := by
    rw [hls]
    exact List.mem_singleton_self _
  have hruns : ∀ x ∈ [(moduleOf ["enter", "serve", "leave"], I)],
      runOnModule .insertion M x.1 = .ok x.2 := by
    rw [List.forall_mem_singleton]
    exact hrun
  refine ⟨M, I, hload, hrun, hmem, ?_⟩
  refine (bounds_hooked_iff hload hruns).mpr ?_ _ (List.mem_singleton_self _) served hmem
  rw [List.forall_mem_singleton, hls, List.forall_mem_singleton]
  intro hcut
  exact absurd ⟨_, _, rfl, rfl, rfl, rfl⟩ hcut.2

/-- One module has the beginning of the lifetime, this one its end: the end is defined here, and
never announced. -/
theorem end_elsewhere_is_not_hooked : ∃ M I, servedFile.load false .insertion 3 12 = .ok M ∧
    runOnModule .insertion M (moduleOf ["serve", "leave"]) = .ok I ∧ served ∈ M.lifetimes ∧
    Hookable (moduleOf ["serve", "leave"]) served.cleanup ∧ .sunset served ∉ I.hooks := by
  have hall : instrumented servedFile (moduleOf ["serve", "leave"]) =
      some ([served], [.updateState .global "served" 1]) := by
    decide +kernel
  obtain ⟨M, I, hload, hrun, hls, hhooks⟩ := instrumented_eq_some hall
  refine ⟨M, I, hload, hrun, ?_, ⟨_, _, rfl, rfl, rfl, rfl⟩, ?_⟩
  · rw [hls]
    exact List.mem_singleton_self _
  · rw [hhooks]
    decide

end Tesla.Instrumenter
