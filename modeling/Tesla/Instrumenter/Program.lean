/-
# `Tesla.Instrumenter.Program` — the instrumented program, and what it tells the library

A moment of the program is the entry to a function, or a return from it.  The instrumentation of
the module makes of it calls of the library, those that the manifest asks for:

    `requests`            a call of the library for an event, in the order of the instrumenter
    `Grants`                the chains of the instrumentation functions are the requests
    `Instrumentation.makes`  what is called at a moment: the requests whose events it matches

For one automaton, these are the beginning and the end of its lifetime, and the symbols of the
letters that the moment matches (`heard`), in the order of the symbols.  So the library is silent
about a run of the program if and only if, between beginning and end, the letters that were heard
are a word of the automaton.
-/
import Tesla.Instrumenter.Verdict

namespace Tesla.Instrumenter

open Automata Lib Tesla.Runtime

variable {m : Module} {it : Iteration} {M : Manifest} {I I' : Instrumentation} {F : Function}
  {ev : FunctionEvent} {label : String} {k : Hook} {a : Automata.Automaton}
  {l : Automata.Lifetime} {use : Usage}

/-! ## Requests -/

/-- A call of the library, at a function event. -/
abbrev Request := FunctionEvent × Hook

/-- The function and the direction that an event is about. -/
def About (name : String) (direction : Direction) (ev : FunctionEvent) : Bool :=
  ev.function = name ∧ ev.direction.getD .entry = direction

/-- The code for an event, in the function that it is about. -/
def Module.code (m : Module) (ev : FunctionEvent) : Option Code :=
  (m.target ev).bind fun F =>
    (addEvent (instrParams (ev.direction.getD .entry) F.type) ev).toOption

def cleanupRequests (m : Module) (l : Automata.Lifetime) : List Request :=
  match l.cleanup with
  | some (.fn ev) => if (m.target ev).isSome then [(ev, .sunset l)] else []
  | _ => []

def lifetimeRequests (m : Module) (l : Automata.Lifetime) : List Request :=
  match l.init with
  | some (.fn ev) =>
    if (m.target ev).isSome then (ev, .sunrise l) :: cleanupRequests m l else []
  | _ => cleanupRequests m l

/-- The event of a class that is no bound, if it is hooked in the module. -/
def classEvent (m : Module) (it : Iteration) (c : List Automata.Transition) :
    Option FunctionEvent :=
  (it.head c).bind fun head =>
    match head.label with
    | .fn ev =>
      if head.init = false ∧ head.cleanup = false ∧ ev.kind.getD .cCall = .cCall ∧
        (m.target ev).isSome then some ev else none
    | _ => none

def classRequests (m : Module) (it : Iteration) (a : Automata.Automaton)
    (cls : List Automata.Transition × Nat) : List Request :=
  (classEvent m it cls.1).toList.map fun ev =>
    (ev, .updateState a.assertion.context a.assertion.identifier.shortName cls.2)

def rootRequests (m : Module) (it : Iteration) (M : Manifest) (use : Usage) : List Request :=
  ((M.findAutomaton use.identifier).map fun a =>
    (groupClasses it a.graph.transitions).zipIdx.flatMap (classRequests m it a)).getD []

/-- All that the manifest asks for. -/
def requests (it : Iteration) (M : Manifest) (m : Module) : List Request :=
  M.lifetimes.flatMap (lifetimeRequests m) ++ M.roots.flatMap (rootRequests m it M)

/-! ## Chains -/

namespace Instrumentation

/-- The chain of the instrumentation function, if there is one. -/
def chainOf (I : Instrumentation) (name : String) (direction : Direction) : List Block :=
  (I.find? (IsFor name direction)).elim [] TranslationFn.chain

theorem find?_append (name : String) (direction : Direction) (b : Block) (name' : String)
    (direction' : Direction) (I : Instrumentation) :
    (I.append name direction b).find? (IsFor name' direction') =
      (I.find? (IsFor name' direction')).map fun f =>
        if name' = name ∧ direction' = direction then { f with chain := f.chain ++ [b] } else f := by
  induction I with
  | nil => rfl
  | cons f fs ih =>
    have hsame : ∀ chain, IsFor name' direction' { f with chain := chain } =
      IsFor name' direction' f := fun _ => rfl
    rw [append]
    by_cases hf : IsFor name direction f
    · rw [if_pos hf, List.find?_cons, List.find?_cons, hsame]
      simp only [IsFor, decide_eq_true_eq] at hf
      cases hf' : IsFor name' direction' f with
      | true =>
        simp only [IsFor, decide_eq_true_eq] at hf'
        simp [← hf.1, ← hf.2, ← hf'.1, ← hf'.2]
      | false =>
        have hne : ¬ (name' = name ∧ direction' = direction) := by
          rintro ⟨rfl, rfl⟩
          simp [IsFor, hf] at hf'
        simp [hne]
    · rw [if_neg hf, List.find?_cons, List.find?_cons]
      cases hf' : IsFor name' direction' f with
      | true =>
        have hne : ¬ (name' = name ∧ direction' = direction) := by
          rintro ⟨rfl, rfl⟩
          exact hf hf'
        simp [hne]
      | false => exact ih

end Instrumentation

/-- A block is what has been made of a request. -/
structure Answers (m : Module) (b : Block) (r : Request) : Prop where
  call : b.call = r.2
  code : m.code r.1 = some b.code

/-- The instrumentation functions do what was asked for, in that order. -/
structure Grants (m : Module) (I : Instrumentation) (rs : List Request) : Prop where
  chains : ∀ name direction, List.Forall₂ (Answers m) (I.chainOf name direction)
    (rs.filter fun r => About name direction r.1)
  params : ∀ name direction, ∀ f ∈ I.find? (Instrumentation.IsFor name direction), ∀ F,
    m.getFunction name = some F → f.params = instrParams direction F.type

theorem Grants.nil (m : Module) : Grants m [] [] :=
  ⟨fun _ _ => .nil, fun _ _ f hf => by cases hf⟩

variable {rs : List Request}

theorem find?_concat (f : TranslationFn) (name : String) (direction : Direction) :
    (I ++ [f]).find? (Instrumentation.IsFor name direction) =
      (I.find? (Instrumentation.IsFor name direction)).or
        (if Instrumentation.IsFor name direction f then some f else none) := by
  rw [List.find?_append, List.find?_singleton]

/-- An instrumentation function that does nothing yet. -/
theorem Grants.concat {f : TranslationFn} (h : Grants m I rs) (hchain : f.chain = [])
    (hparams : ∀ F, m.getFunction f.target = some F → f.params = instrParams f.direction F.type) :
    Grants m (I ++ [f]) rs := by
  refine ⟨fun name direction => ?_, fun name direction f' hf' F hF => ?_⟩
  · have hchains := h.chains name direction
    rw [Instrumentation.chainOf] at hchains ⊢
    rw [find?_concat]
    cases hold : I.find? (Instrumentation.IsFor name direction) with
    | some f' =>
      rw [hold] at hchains
      exact hchains
    | none =>
      rw [hold] at hchains
      rw [Option.none_or]
      split
      · rw [Option.elim_some, hchain]
        exact hchains
      · exact hchains
  · rw [find?_concat] at hf'
    cases hold : I.find? (Instrumentation.IsFor name direction) with
    | some f₀ =>
      rw [hold, Option.some_or] at hf'
      exact h.params name direction f' (hold.trans hf') F hF
    | none =>
      rw [hold, Option.none_or] at hf'
      split at hf'
      · next hfor =>
        obtain rfl := Option.some.inj hf'
        simp only [Instrumentation.IsFor, decide_eq_true_eq] at hfor
        obtain ⟨rfl, rfl⟩ := hfor
        exact hparams F hF
      · cases hf'

theorem Grants.getOrCreateInstr {f : TranslationFn} (h : Grants m I rs) (hF : m.target ev = some F)
    (hget : I.getOrCreateInstr F ev = .ok (f, I')) :
    Grants m I' rs ∧
      I'.find? (Instrumentation.IsFor ev.function (ev.direction.getD .entry)) = some f := by
  obtain ⟨_, hfunction, _⟩ := target_eq_some.mp hF
  unfold Instrumentation.getOrCreateInstr at hget
  cases hfind : I.find? (Instrumentation.IsFor ev.function (ev.direction.getD .entry)) with
  | some f' =>
    simp only [hfind] at hget
    cases hget
    exact ⟨h, hfind⟩
  | none =>
    simp only [hfind] at hget
    obtain ⟨params, hparams, hget⟩ := bind_eq_ok.mp hget
    obtain ⟨hf, hI'⟩ := Prod.mk.inj (Except.ok.inj hget)
    have hnew : params = instrParams (ev.direction.getD .entry) F.type := by
      rw [createInstrFn] at hparams
      split at hparams
      all_goals cases hparams
      rfl
    subst hI'
    refine ⟨h.concat rfl fun F' hF' => ?_, ?_⟩
    · obtain rfl := Option.some.inj (hfunction.symm.trans hF')
      exact hnew
    · rw [find?_concat, hfind, Option.none_or, if_pos (by simp [Instrumentation.IsFor]), hf]

/-- A request more. -/
theorem Grants.hook (h : Grants m I rs) (hF : m.target ev = some F)
    (hhook : I.hook F ev label k = .ok I') : Grants m I' (rs ++ [(ev, k)]) := by
  obtain ⟨⟨f, I₁⟩, hget, hhook⟩ := bind_eq_ok.mp hhook
  obtain ⟨code, hcode, hhook⟩ := bind_eq_ok.mp hhook
  cases hhook
  obtain ⟨hI₁, hfound⟩ := h.getOrCreateInstr hF hget
  obtain ⟨_, hfunction, _⟩ := target_eq_some.mp hF
  have hblock : Answers m ⟨label, code, k⟩ (ev, k) := by
    refine ⟨rfl, ?_⟩
    rw [Module.code, hF, Option.bind_some, ← hI₁.params _ _ f hfound F hfunction, hcode]
    rfl
  refine ⟨fun name direction => ?_, ?_⟩
  · have hchains := hI₁.chains name direction
    rw [Instrumentation.chainOf] at hchains ⊢
    rw [Instrumentation.find?_append, List.filter_append]
    by_cases hsame : name = ev.function ∧ direction = ev.direction.getD .entry
    · obtain ⟨rfl, rfl⟩ := hsame
      rw [hfound] at hchains ⊢
      have hone : [(ev, k)].filter (fun r : Request =>
          About ev.function (ev.direction.getD .entry) r.1) = [(ev, k)] := by simp [About]
      rw [hone, Option.map_some, if_pos ⟨rfl, rfl⟩]
      exact List.rel_append hchains (.cons hblock .nil)
    · have hnone : [(ev, k)].filter (fun r : Request => About name direction r.1) = [] := by
        simp only [List.filter_eq_nil_iff, List.mem_singleton, About, decide_eq_true_eq]
        rintro _ rfl ⟨rfl, rfl⟩
        exact hsame ⟨rfl, rfl⟩
      simp only [hsame, if_false, Option.map_id', hnone, List.append_nil]
      exact hchains
  · intro name direction f' hf' F' hF'
    rw [Instrumentation.find?_append, Option.mem_map] at hf'
    obtain ⟨f₀, hf₀, rfl⟩ := hf'
    have hparams := hI₁.params name direction f₀ hf₀ F' hF'
    split <;> exact hparams

/-- A loop over whatever has requests. -/
theorem Grants.foldlM {α : Type} {f : Instrumentation → α → Except Failure Instrumentation}
    {req : α → List Request} {xs : List α}
    (hstep : ∀ I rs x I', Grants m I rs → f I x = .ok I' → Grants m I' (rs ++ req x))
    (hrun : xs.foldlM f I = .ok I') (h : Grants m I rs) : Grants m I' (rs ++ xs.flatMap req) := by
  induction xs generalizing I rs with
  | nil =>
    cases hrun
    rwa [List.flatMap_nil, List.append_nil]
  | cons x xs ih =>
    rw [List.foldlM_cons] at hrun
    obtain ⟨I₁, hx, hrun⟩ := bind_eq_ok.mp hrun
    rw [List.flatMap_cons, ← List.append_assoc]
    exact ih hrun (hstep I rs x I₁ h hx)

theorem Grants.instrumentCleanup (h : Grants m I rs)
    (hrun : instrumentCleanup m l I = .ok I') : Grants m I' (rs ++ cleanupRequests m l) := by
  rw [Instrumenter.instrumentCleanup] at hrun
  rw [cleanupRequests]
  cases hend : l.cleanup with
  | none =>
    simp only [hend] at hrun
    cases hrun
    exact (List.append_nil rs).symm ▸ h
  | some label =>
    cases label with
    | null | assertSite | fieldAssign | subAutomaton =>
      simp only [hend] at hrun
      cases hrun
      exact (List.append_nil rs).symm ▸ h
    | fn ev =>
      simp only [hend] at hrun
      cases hF : m.target ev with
      | none =>
        simp only [hF] at hrun
        cases hrun
        simpa [hF] using h
      | some F =>
        simp only [hF] at hrun
        obtain ⟨l', hl', hhook⟩ := bind_eq_ok.mp hrun
        obtain rfl := buildLifetime_eq hl'
        simpa [hF] using h.hook hF hhook

theorem Grants.instrumentLifetime (h : Grants m I rs)
    (hrun : instrumentLifetime m I l = .ok I') : Grants m I' (rs ++ lifetimeRequests m l) := by
  rw [Instrumenter.instrumentLifetime] at hrun
  rw [lifetimeRequests]
  cases hbegin : l.init with
  | none =>
    simp only [hbegin] at hrun
    exact h.instrumentCleanup hrun
  | some label =>
    cases label with
    | null | assertSite | fieldAssign | subAutomaton =>
      simp only [hbegin] at hrun
      exact h.instrumentCleanup hrun
    | fn ev =>
      simp only [hbegin] at hrun
      cases hF : m.target ev with
      | none =>
        simp only [hF] at hrun
        cases hrun
        simpa [hF] using h
      | some F =>
        simp only [hF] at hrun
        obtain ⟨l', hl', hrun⟩ := bind_eq_ok.mp hrun
        obtain rfl := buildLifetime_eq hl'
        obtain ⟨I₁, hhook, hrun⟩ := bind_eq_ok.mp hrun
        simp only [hF, Option.isSome_some, if_true]
        rw [← List.singleton_append, ← List.append_assoc]
        exact (h.hook hF hhook).instrumentCleanup hrun

theorem Grants.instrumentClass {cls : List Automata.Transition × Nat} (h : Grants m I rs)
    (hrun : instrumentClass m it a I cls = .ok I') :
    Grants m I' (rs ++ classRequests m it a cls) := by
  rw [Instrumenter.instrumentClass] at hrun
  rw [classRequests, classEvent]
  cases hhead : it.head cls.1 with
  | none =>
    rw [hhead] at hrun
    cases hrun
  | some head =>
    simp only [hhead] at hrun
    rw [Option.bind_some]
    cases hlabel : head.label with
    | null | assertSite | fieldAssign | subAutomaton =>
      simp only [hlabel] at hrun
      cases hrun
      simpa using h
    | fn ev =>
      simp only [hlabel] at hrun
      split at hrun
      · next hbound =>
        cases hrun
        have hnot : ¬ (head.init = false ∧ head.cleanup = false ∧ ev.kind.getD .cCall = .cCall ∧
            (m.target ev).isSome = true) := by
          rintro ⟨hinit, hcleanup, _⟩
          simp [hinit, hcleanup] at hbound
        simpa [hnot] using h
      · next hbound =>
        rw [not_or, Bool.not_eq_true, Bool.not_eq_true] at hbound
        split at hrun
        · next hkind =>
          have hsame : I' = I := by
            unfold instrumentMessage at hrun
            split at hrun
            all_goals first | (split at hrun <;> cases hrun; rfl) | cases hrun
          rw [hsame]
          simpa [hkind] using h
        · next hkind =>
          rw [not_not] at hkind
          cases hF : m.target ev with
          | none =>
            simp only [hF] at hrun
            cases hrun
            simpa [hF] using h
          | some F =>
            simp only [hF] at hrun
            simpa [hbound.1, hbound.2, hkind, hF] using h.hook hF hrun

theorem Grants.instrumentAutomaton (h : Grants m I rs)
    (hrun : instrumentAutomaton m it M I use = .ok I') :
    Grants m I' (rs ++ rootRequests m it M use) := by
  rw [Instrumenter.instrumentAutomaton] at hrun
  rw [rootRequests]
  cases ha : M.findAutomaton use.identifier with
  | none =>
    rw [ha] at hrun
    cases hrun
  | some a =>
    simp only [ha] at hrun
    exact h.foldlM (fun I rs cls I' h hcls => h.instrumentClass hcls) hrun

/-- The instrumenter does what the manifest asks for. -/
theorem grants_of_run (hrun : runOnModule it M m = .ok I) : Grants m I (requests it M m) := by
  obtain ⟨I₁, hlifetimes, hroots⟩ := bind_eq_ok.mp hrun
  refine Grants.foldlM (fun I rs use I' h huse => h.instrumentAutomaton huse) hroots ?_
  rw [← List.nil_append (M.lifetimes.flatMap _)]
  exact (Grants.nil m).foldlM (fun I rs l I' h hl => h.instrumentLifetime hl) hlifetimes

/-! ## Moments -/

/-- The entry to a function, or a return from it. -/
structure Moment where
  function : String
  direction : Direction
  frame : Frame
  /-- What the library finds on its stack, where a sunset makes its key. -/
  junk : Key

/-- What the names and lifetimes of a manifest are at run time. -/
structure Image where
  automaton : String → Ptr
  lifetime : Automata.Lifetime → Runtime.Lifetime

/-- The store that a call is about. -/
def Hook.context : Hook → Context
  | .sunrise l | .sunset l => l.context
  | .updateState context _ _ => context

def Hook.at (im : Image) (junk : Key) : Hook → Key → Call
  | .sunrise l, _ => .sunrise (im.lifetime l)
  | .sunset l, _ => .sunset (im.lifetime l) junk
  | .updateState _ name symbol, key => .updateState (im.automaton name) symbol key

/-- The calls that the instrumentation makes at a moment, for the store of a context. -/
def Instrumentation.makes (im : Image) (context : Context) (I : Instrumentation) (o : Moment) :
    List Call :=
  (((I.find? (IsFor o.function o.direction)).elim [] fun f => f.run o.frame).filter fun r =>
    r.1.context = context).map fun r => r.1.at im o.junk r.2

/-- The key that a moment has for an event, if the moment matches it. -/
def Module.reads (m : Module) (o : Moment) (ev : FunctionEvent) : Option Key :=
  if About o.function o.direction ev then
    ((m.code ev).filter fun code => code.matched o.frame).map fun code => code.key.run o.frame
  else none

/-- What becomes of a request at a moment. -/
def Request.said (im : Image) (context : Context) (m : Module) (o : Moment) (r : Request) :
    Option Call :=
  if r.2.context = context then (m.reads o r.1).map (r.2.at im o.junk) else none

variable {im : Image} {context : Context} {o : Moment}

/-- What is said at a moment is what was asked for at the events that it matches. -/
theorem Grants.makes_eq (h : Grants m I rs) :
    I.makes im context o = rs.filterMap (Request.said im context m o) := by
  have hchains := h.chains o.function o.direction
  have hrun : I.makes im context o =
      ((((I.chainOf o.function o.direction).filter fun b => b.code.matched o.frame).map fun b =>
        (b.call, b.code.key.run o.frame)).filter fun r => r.1.context = context).map
          fun r => r.1.at im o.junk r.2 := by
    rw [Instrumentation.makes, Instrumentation.chainOf]
    cases I.find? (Instrumentation.IsFor o.function o.direction) <;> rfl
  have habout : rs.filterMap (Request.said im context m o) =
      (rs.filter fun r => About o.function o.direction r.1).filterMap
        (Request.said im context m o) := by
    rw [List.filterMap_filter]
    refine List.filterMap_congr fun r _ => ?_
    split
    · rfl
    · next hnot => simp [Request.said, Module.reads, hnot]
  rw [hrun, habout]
  have hall : ∀ r ∈ rs.filter fun r => About o.function o.direction r.1,
      About o.function o.direction r.1 = true := fun r hr => (List.mem_filter.mp hr).2
  generalize rs.filter (fun r => About o.function o.direction r.1) = rs' at hchains hall
  generalize I.chainOf o.function o.direction = bs at hchains
  induction hchains with
  | nil => rfl
  | @cons b r bs rs' hbr _ ih =>
    obtain ⟨hr, hall⟩ := List.forall_mem_cons.mp hall
    rw [List.filterMap_cons, List.filter_cons, Request.said, Module.reads, if_pos hr, hbr.code,
      ← hbr.call, ← ih hall]
    by_cases hmatched : b.code.matched o.frame = true
    · by_cases hcontext : b.call.context = context
      · simp [Option.filter, hmatched, hcontext]
      · simp [hmatched, hcontext]
    · simp [Option.filter, hmatched]

/-! ## Keys -/

/-- The code for a function event leaves no variable free, and binds none if no pattern has an
index. -/
theorem addEvent_key {params : List Ty} {code : Code} (h : addEvent params ev = .ok code) :
    code.key.freeMask = 0 ∧
      ((∀ p ∈ eventPatterns ev, p.index = none) → code.key.mask = 0) := by
  rw [addEvent] at h
  split at h
  · cases h
  · split at h
    · cases h
    · rw [addInstrumentation] at h
      split at h
      · next hlen =>
        obtain ⟨⟨tests, args⟩, hplace, h⟩ := bind_eq_ok.mp h
        obtain ⟨key, hkey, h⟩ := bind_eq_ok.mp h
        cases h
        obtain ⟨_, hmask, hfree⟩ := constructKey_spec hkey
        refine ⟨hfree, fun hindex => BitVec.eq_of_getLsbD_eq fun i _ => ?_⟩
        obtain ⟨hlaid, _⟩ := placePatterns_spec hlen hplace
        have hnone : ∀ slot, args slot = none := by
          intro slot
          cases hslot : args slot with
          | none => rfl
          | some v =>
            obtain hv | ⟨j, p, ty, hp, _, hi, _⟩ := (hlaid.slots slot v).mp hslot
            · cases hv
            · rw [hindex p (List.mem_of_getElem? hp)] at hi
              cases hi
        rw [hmask, List.getElem?_ofFn]
        split
        · rw [hnone]
          simp
        · simp
      · cases h

theorem Module.reads_key {key : Key} (h : m.reads o ev = some key) :
    key.tkFreemask = 0 ∧ ((∀ p ∈ eventPatterns ev, p.index = none) → key.tkMask = 0) := by
  rw [reads] at h
  split at h
  · obtain ⟨code, hcode, rfl⟩ := Option.map_eq_some_iff.mp h
    obtain ⟨hcode, _⟩ := Option.filter_eq_some_iff.mp hcode
    obtain ⟨F, _, hcode⟩ := Option.bind_eq_some_iff.mp hcode
    exact addEvent_key (ok_of_toOption hcode)
  · cases h

/-- The event binds no variable. -/
def unindexed : Label → Bool
  | .fn ev => (eventPatterns ev).all fun p => p.index.isNone
  | _ => true

/-! ## One automaton -/

/-- An event that is heard of an automaton at a moment, its symbol and the key. -/
structure Note where
  ev : FunctionEvent
  symbol : Nat
  key : Key

/-- The events of the automaton that the moment matches, in the order of their symbols; the bounds
are not among them. -/
def heard (m : Module) (it : Iteration) (a : Automata.Automaton) (o : Moment) : List Note :=
  (groupClasses it a.graph.transitions).zipIdx.filterMap fun cls =>
    (classEvent m it cls.1).bind fun ev => (m.reads o ev).map fun key => ⟨ev, cls.2, key⟩

variable {x y : Letter}

theorem symbolOf_of_head {c : List Automata.Transition} {i : Nat} {head : Automata.Transition}
    {b : Letter} (hc : (groupClasses it a.graph.transitions)[i]? = some c)
    (hhead : it.head c = some head) (hb : head.label.letter = some b) :
    symbolOf it a.graph b = i := by
  obtain ⟨hlt, hget⟩ := List.getElem?_eq_some_iff.mp hc
  have hgrouped := grouped it a.graph.transitions
  rw [symbolOf, List.findIdx_eq hlt]
  refine ⟨?_, fun j hj => ?_⟩
  · rw [hget, hhead]
    exact decide_eq_true hb
  · -- a class before it has another letter
    rw [Bool.eq_false_iff]
    intro hany
    obtain ⟨head', hhead', hb'⟩ := (Option.any_eq_true ..).mp hany
    have hapart := List.pairwise_iff_getElem.mp hgrouped.apart j i (hj.trans hlt) hlt hj
    refine hapart head' (Iteration.mem_of_head hhead') head ?_ ((of_decide_eq_true hb').trans hb.symm)
    rw [hget]
    exact Iteration.mem_of_head hhead

/-- What is heard is an event of the automaton that the moment matches, and no bound. -/
theorem heard_spec {h : Note} (hh : h ∈ heard m it a o) :
    Occurs a.graph (.fn h.ev) ∧ h.symbol = symbolOf it a.graph (.fn h.ev) ∧
      m.reads o h.ev = some h.key ∧ ∃ t ∈ a.graph.transitions,
        t.label = .fn h.ev ∧ t.init = false ∧ t.cleanup = false := by
  obtain ⟨⟨c, i⟩, hcls, hnote⟩ := List.mem_filterMap.mp hh
  obtain ⟨ev, hev, hnote⟩ := Option.bind_eq_some_iff.mp hnote
  obtain ⟨key, hkey, rfl⟩ := Option.map_eq_some_iff.mp hnote
  obtain ⟨head, hhead, hev⟩ := Option.bind_eq_some_iff.mp hev
  have hc := List.mk_mem_zipIdx_iff_getElem?.mp hcls
  obtain ⟨o', ho'⟩ := (grouped it a.graph.transitions).classes c (List.mem_of_getElem? hc)
  have hmem := ((ho' head).mp (Iteration.mem_of_head hhead)).1
  cases hlabel : head.label with
  | null | assertSite | fieldAssign | subAutomaton => simp [hlabel] at hev
  | fn ev' =>
    simp only [hlabel] at hev
    split at hev
    · next hplain =>
      obtain rfl := Option.some.inj hev
      have hletter : head.label.letter = some (.fn ev') := by rw [hlabel]; rfl
      exact ⟨⟨head, hmem, hletter⟩, (symbolOf_of_head hc hhead hletter).symm, hkey, head, hmem,
        hlabel, hplain.1, hplain.2.1⟩
    · cases hev

theorem flatMap_concerned {α β γ : Type} {xs : List α} {f : α → List β} {g : β → Option γ}
    {p : γ → Bool} {q : α → Bool}
    (h : ∀ x ∈ xs, q x = false → ∀ b ∈ f x, ∀ c ∈ g b, p c = false) :
    ((xs.flatMap f).filterMap g).filter p = (((xs.filter q).flatMap f).filterMap g).filter p := by
  induction xs with
  | nil => rfl
  | cons x xs ih =>
    obtain ⟨hx, hxs⟩ := List.forall_mem_cons.mp h
    rw [List.flatMap_cons, List.filterMap_append, List.filter_append, ih hxs, List.filter_cons]
    cases hq : q x with
    | true => rw [if_pos rfl, List.flatMap_cons, List.filterMap_append, List.filter_append]
    | false =>
      rw [if_neg Bool.false_ne_true, List.append_left_eq_self, List.filter_eq_nil_iff]
      intro c hc
      obtain ⟨b, hb, hbc⟩ := List.mem_filterMap.mp hc
      rw [hx hq b hb c hbc]
      exact Bool.false_ne_true

/-- At run time the automaton is mistaken for no other one, nor its lifetime for another. -/
structure Sole (it : Iteration) (M : Manifest) (im : Image) (a : Automata.Automaton)
    (use : Usage) : Prop where
  found : M.findAutomaton use.identifier = some a
  root : (M.roots.filter fun u => (M.findAutomaton u.identifier).any fun b =>
    im.automaton b.assertion.identifier.shortName =
      im.automaton a.assertion.identifier.shortName) = [use]
  lifetime : (M.lifetimes.filter fun l =>
    sameLifetime (im.lifetime (a.getLifetime it)) (im.lifetime l)) = [a.getLifetime it]

theorem mem_lifetimeRequests {r : Request} (h : r ∈ lifetimeRequests m l) :
    r.2 = .sunrise l ∨ r.2 = .sunset l := by
  have hcleanup : ∀ r ∈ cleanupRequests m l, r.2 = .sunset l := by
    intro r hr
    rw [cleanupRequests] at hr
    split at hr
    · split at hr
      · rw [List.mem_singleton.mp hr]
      · cases hr
    · cases hr
  rw [lifetimeRequests] at h
  split at h
  · split at h
    · obtain rfl | h := List.mem_cons.mp h
      · exact .inl rfl
      · exact .inr (hcleanup r h)
    · cases h
  · exact .inr (hcleanup r h)

theorem mem_rootRequests {r : Request} (h : r ∈ rootRequests m it M use) :
    ∃ b symbol, M.findAutomaton use.identifier = some b ∧
      r.2 = .updateState b.assertion.context b.assertion.identifier.shortName symbol := by
  rw [rootRequests] at h
  cases hb : M.findAutomaton use.identifier with
  | none =>
    rw [hb] at h
    cases h
  | some b =>
    rw [hb, Option.map_some, Option.getD_some] at h
    obtain ⟨cls, _, hr⟩ := List.mem_flatMap.mp h
    obtain ⟨ev, _, rfl⟩ := List.mem_map.mp hr
    exact ⟨b, cls.2, rfl, rfl⟩

theorem said_of_context (ev : FunctionEvent) {k : Hook} (h : k.context = context) :
    Request.said im context m o (ev, k) = (m.reads o ev).map (k.at im o.junk) := if_pos h

/-- What is said for the symbols of an automaton. -/
theorem said_classes (im : Image) (o : Moment) (cs : List (List Automata.Transition × Nat)) :
    (cs.flatMap (classRequests m it a)).filterMap (Request.said im a.assertion.context m o) =
      (cs.filterMap fun cls => (classEvent m it cls.1).bind fun ev =>
        (m.reads o ev).map fun key => (⟨ev, cls.2, key⟩ : Note)).map fun n =>
          .updateState (im.automaton a.assertion.identifier.shortName) n.symbol n.key := by
  induction cs with
  | nil => rfl
  | cons cls cs ih =>
    rw [List.flatMap_cons, List.filterMap_append, ih, List.filterMap_cons, classRequests]
    cases classEvent m it cls.1 with
    | none => rfl
    | some ev =>
      have hsaid : Request.said im a.assertion.context m o (ev, .updateState a.assertion.context
          a.assertion.identifier.shortName cls.2) = (m.reads o ev).map _ := said_of_context ev rfl
      rw [Option.toList_some, List.map_singleton, List.filterMap_cons, List.filterMap_nil,
        Option.bind_some, hsaid]
      cases m.reads o ev <;> rfl

/-- The calls that a moment makes about the automaton, whose bounds are `evx` and `evy`. -/
def concerns (im : Image) (m : Module) (it : Iteration) (a : Automata.Automaton) (ptr : Ptr)
    (evx evy : FunctionEvent) (o : Moment) : List Call :=
  (m.reads o evx).toList.map (fun _ => .sunrise (im.lifetime (a.getLifetime it))) ++
    (m.reads o evy).toList.map (fun _ => .sunset (im.lifetime (a.getLifetime it)) o.junk) ++
    (heard m it a o).map fun n => .updateState ptr n.symbol n.key

section Sole

variable {ptr : Ptr} {autom : Runtime.Automaton} {evx evy : FunctionEvent}

/-- The calls that are about the automaton. -/
theorem Sole.concerned (hsole : Sole it M im a use) (h : Grants m I (requests it M m))
    (hptr : im.automaton a.assertion.identifier.shortName = ptr)
    (hl : autom.taLifetime = im.lifetime (a.getLifetime it))
    (hx : (a.getLifetime it).init = some (.fn evx)) (hy : (a.getLifetime it).cleanup = some (.fn evy))
    (htx : (m.target evx).isSome) (hty : (m.target evy).isSome) :
    (I.makes im a.assertion.context o).filter (Concerns autom ptr) =
      concerns im m it a ptr evx evy o := by
  subst hptr
  have hothers : ∀ l ∈ M.lifetimes,
      decide (sameLifetime (im.lifetime (a.getLifetime it)) (im.lifetime l) = true) = false →
      ∀ r ∈ lifetimeRequests m l, ∀ k ∈ Request.said im a.assertion.context m o r,
        Concerns autom (im.automaton a.assertion.identifier.shortName) k = false := by
    intro l _ hne r hr k hk
    rw [Request.said] at hk
    split at hk
    · obtain ⟨key, _, rfl⟩ := Option.map_eq_some_iff.mp hk
      have hfalse : sameLifetime autom.taLifetime (im.lifetime l) = false := by
        rw [hl]
        simpa using hne
      obtain hr | hr := mem_lifetimeRequests hr <;> rw [hr] <;> exact hfalse
    · cases hk
  have hothers' : ∀ u ∈ M.roots, ((M.findAutomaton u.identifier).any fun b =>
        im.automaton b.assertion.identifier.shortName =
          im.automaton a.assertion.identifier.shortName) = false →
      ∀ r ∈ rootRequests m it M u, ∀ k ∈ Request.said im a.assertion.context m o r,
        Concerns autom (im.automaton a.assertion.identifier.shortName) k = false := by
    intro u _ hne r hr k hk
    obtain ⟨b, symbol, hb, hr⟩ := mem_rootRequests hr
    rw [Request.said] at hk
    split at hk
    · obtain ⟨key, _, rfl⟩ := Option.map_eq_some_iff.mp hk
      rw [hb, Option.any_some] at hne
      rw [hr]
      exact hne
    · cases hk
  rw [h.makes_eq, requests, List.filterMap_append, List.filter_append,
    flatMap_concerned (q := fun l => sameLifetime (im.lifetime (a.getLifetime it)) (im.lifetime l))
      (by simpa using hothers), flatMap_concerned hothers', hsole.root, hsole.lifetime]
  have hbounds : [a.getLifetime it].flatMap (lifetimeRequests m) =
      [(evx, .sunrise (a.getLifetime it)), (evy, .sunset (a.getLifetime it))] := by
    simp [lifetimeRequests, cleanupRequests, hx, hy, htx, hty]
  have hroot : [use].flatMap (rootRequests m it M) =
      (groupClasses it a.graph.transitions).zipIdx.flatMap (classRequests m it a) := by
    simp [rootRequests, hsole.found]
  have hself : sameLifetime autom.taLifetime (im.lifetime (a.getLifetime it)) = true := by
    rw [hl, sameLifetime, sameEvent_refl, sameEvent_refl]
    rfl
  have hheard : ∀ k ∈ (heard m it a o).map fun n => Call.updateState
      (im.automaton a.assertion.identifier.shortName) n.symbol n.key,
      Concerns autom (im.automaton a.assertion.identifier.shortName) k = true := by
    intro k hk
    obtain ⟨n, _, rfl⟩ := List.mem_map.mp hk
    exact decide_eq_true rfl
  rw [hbounds, hroot, said_classes, ← heard, List.filter_eq_self.mpr hheard]
  refine congrArg (· ++ _) ?_
  have hrise : Request.said im a.assertion.context m o (evx, .sunrise (a.getLifetime it)) =
    (m.reads o evx).map _ := said_of_context evx rfl
  have hset : Request.said im a.assertion.context m o (evy, .sunset (a.getLifetime it)) =
    (m.reads o evy).map _ := said_of_context evy rfl
  rw [List.filterMap_cons, List.filterMap_cons, List.filterMap_nil, hrise, hset]
  cases m.reads o evx <;> cases m.reads o evy <;> simp [Hook.at, Concerns, hself]

end Sole

/-! ## Sessions -/

/-- A stretch of the program between the bounds. -/
structure Session where
  opening : Moment
  within : List Moment
  closing : Moment

namespace Session

def moments (v : Session) : List Moment := v.opening :: (v.within ++ [v.closing])

/-- The letters that are heard within. -/
def word (m : Module) (it : Iteration) (a : Automata.Automaton) (v : Session) : List Letter :=
  v.within.flatMap fun o => (heard m it a o).map fun n => .fn n.ev

/-- The window that the library sees. -/
def span (im : Image) (m : Module) (it : Iteration) (a : Automata.Automaton) (v : Session) : Span :=
  ⟨im.lifetime (a.getLifetime it),
    v.within.flatMap fun o => (heard m it a o).map fun n => (n.symbol, n.key), v.closing.junk⟩

/-- The first moment is the beginning and nothing else, the last one the end and nothing else, and
neither bound is met on the way. -/
structure Proper (m : Module) (it : Iteration) (a : Automata.Automaton) (evx evy : FunctionEvent)
    (v : Session) : Prop where
  opens : (m.reads v.opening evx).isSome
  opensOnly : m.reads v.opening evy = none ∧ (heard m it a v.opening).isEmpty
  within : ∀ o ∈ v.within, m.reads o evx = none ∧ m.reads o evy = none
  closes : (m.reads v.closing evy).isSome
  closesOnly : m.reads v.closing evx = none ∧ (heard m it a v.closing).isEmpty
  junk : v.closing.junk.tkFreemask = 0

end Session

/-- The moment matches some event of the automaton, or a bound. -/
def Relevant (m : Module) (it : Iteration) (a : Automata.Automaton) (evx evy : FunctionEvent)
    (o : Moment) : Bool :=
  (m.reads o evx).isSome || (m.reads o evy).isSome || !(heard m it a o).isEmpty

section Run

variable {ptr : Ptr} {autom : Runtime.Automaton} {evx evy : FunctionEvent} {os : List Moment}
  {vs : List Session} {N : Graph} {descriptions : AutomataMap} {xorOnly : Bool}
  {fuel rounds : Nat} {b e : Expression} {P : Program} {classes instances : UInt32} {s : Store}
  {evs : List Event} {cls : Nat} {c : Runtime.Class}

theorem concerns_irrelevant (h : Relevant m it a evx evy o = false) :
    concerns im m it a ptr evx evy o = [] := by
  simp only [Relevant, Bool.or_eq_false_iff, Option.isSome_eq_false_iff, Option.isNone_iff_eq_none,
    Bool.not_eq_false', List.isEmpty_iff] at h
  obtain ⟨⟨hevx, hevy⟩, hheard⟩ := h
  rw [concerns, hevx, hevy, hheard]
  rfl

/-- A session is a window. -/
theorem concerns_session {v : Session} (h : v.Proper m it a evx evy) :
    v.moments.flatMap (concerns im m it a ptr evx evy) =
      window ptr (v.span im m it a).lifetime (v.span im m it a).events (v.span im m it a).junk := by
  have hopening : concerns im m it a ptr evx evy v.opening =
      [.sunrise (im.lifetime (a.getLifetime it))] := by
    obtain ⟨key, hkey⟩ := Option.isSome_iff_exists.mp h.opens
    rw [concerns, hkey, h.opensOnly.1, List.isEmpty_iff.mp h.opensOnly.2]
    rfl
  have hclosing : concerns im m it a ptr evx evy v.closing =
      [.sunset (im.lifetime (a.getLifetime it)) v.closing.junk] := by
    obtain ⟨key, hkey⟩ := Option.isSome_iff_exists.mp h.closes
    rw [concerns, hkey, h.closesOnly.1, List.isEmpty_iff.mp h.closesOnly.2]
    rfl
  have hwithin : v.within.flatMap (concerns im m it a ptr evx evy) =
      (v.span im m it a).events.map fun e => .updateState ptr e.1 e.2 := by
    rw [Session.span, List.map_flatMap]
    refine List.flatMap_congr fun o ho => ?_
    obtain ⟨hevx, hevy⟩ := h.within o ho
    rw [concerns, hevx, hevy, List.map_map]
    rfl
  rw [Session.moments, List.flatMap_cons, List.flatMap_append, List.flatMap_singleton, hopening,
    hclosing, hwithin]
  rfl

/-- The calls about the automaton, in a run of the program. -/
theorem concerned_windows
    (hmakes : ∀ o, (I.makes im a.assertion.context o).filter (Concerns autom ptr) =
      concerns im m it a ptr evx evy o)
    (hos : os.filter (Relevant m it a evx evy) = vs.flatMap Session.moments)
    (hvs : ∀ v ∈ vs, v.Proper m it a evx evy) :
    (os.flatMap (I.makes im a.assertion.context)).filter (Concerns autom ptr) =
      spanCalls ptr (vs.map (Session.span im m it a)) := by
  have hrelevant : os.flatMap (concerns im m it a ptr evx evy) =
      (os.filter (Relevant m it a evx evy)).flatMap (concerns im m it a ptr evx evy) := by
    clear hos
    induction os with
    | nil => rfl
    | cons o os ih =>
      rw [List.flatMap_cons, List.filter_cons]
      cases ho : Relevant m it a evx evy o with
      | true => rw [if_pos rfl, List.flatMap_cons, ih]
      | false => rw [if_neg Bool.false_ne_true, concerns_irrelevant ho, ih, List.nil_append]
  rw [List.filter_flatMap, List.flatMap_congr fun o _ => hmakes o, hrelevant, hos, List.flatMap_assoc,
    spanCalls, List.flatMap_map]
  exact List.flatMap_congr fun v hv => concerns_session (hvs v hv)

/-- What the instrumentation calls for the symbols of the automaton is ordinary. -/
theorem ordinary_makes {l : Runtime.Lifetime} (hlife : HasLifetime a.graph x y)
    (hindex : ∀ t ∈ a.graph.transitions, unindexed t.label = true)
    (hmakes : (I.makes im a.assertion.context o).filter
      (Concerns (buildAutomatonDescription it a l) ptr) = concerns im m it a ptr evx evy o) :
    ∀ k ∈ I.makes im a.assertion.context o, Ordinary (buildAutomatonDescription it a l) ptr k := by
  intro k hk
  cases k with
  | sunrise | sunset => trivial
  | updateState b symbol key =>
    rintro rfl
    have hmem : Call.updateState b symbol key ∈ concerns im m it a b evx evy o := by
      rw [← hmakes, List.mem_filter]
      exact ⟨hk, decide_eq_true rfl⟩
    rw [concerns, List.mem_append, List.mem_append] at hmem
    obtain (hmem | hmem) | hmem := hmem
    · obtain ⟨_, _, heq⟩ := List.mem_map.mp hmem
      cases heq
    · obtain ⟨_, _, heq⟩ := List.mem_map.mp hmem
      cases heq
    · obtain ⟨n, hn, heq⟩ := List.mem_map.mp hmem
      cases heq
      obtain ⟨hoccurs, hsymbol, hreads, t, ht, hlabel, _, hcleanup⟩ := heard_spec hn
      have hplain : ∀ p ∈ eventPatterns n.ev, p.index = none := by
        simpa [hlabel, unindexed] using hindex t ht
      refine ⟨(Module.reads_key hreads).2 hplain, fun v hv => ?_⟩
      obtain ⟨u, hu, hletter⟩ := hoccurs
      obtain ⟨row, hmem, hrow⟩ := row_of_letter it l hu hletter
      rw [hsymbol, Runtime.Automaton.onSymbol, hrow] at hv
      obtain ⟨u', hu', rfl⟩ := List.mem_map.mp hv
      obtain ⟨hu', hletter'⟩ := (hmem u').mp hu'
      -- the end is another letter
      rw [buildTransition_cleanup, Bool.eq_false_iff, ne_eq, ← hlife.ends u' hu', hletter',
        ← show t.label.letter = some (.fn n.ev) by rw [hlabel]; rfl, hlife.ends t ht, hcleanup]
      exact Bool.false_ne_true

theorem reads_sessions (hvs : ∀ v ∈ vs, v.Proper m it a evx evy) :
    List.Forall₂ (Reads it a.graph) (vs.map (Session.span im m it a))
      (vs.map (Session.word m it a)) := by
  rw [List.forall₂_map_left_iff, List.forall₂_map_right_iff, List.forall₂_same]
  intro v hv
  refine ⟨?_, ?_, ?_, (hvs v hv).junk⟩
  · rw [Session.span, Session.word, List.map_flatMap, List.map_flatMap]
    refine List.flatMap_congr fun o _ => ?_
    rw [List.map_map, List.map_map]
    exact List.map_congr_left fun n hn => (heard_spec hn).2.1
  · intro b hb
    obtain ⟨o, _, hb⟩ := List.mem_flatMap.mp hb
    obtain ⟨n, hn, rfl⟩ := List.mem_map.mp hb
    exact (heard_spec hn).1
  · intro e he
    obtain ⟨o, _, he⟩ := List.mem_flatMap.mp he
    obtain ⟨n, hn, rfl⟩ := List.mem_map.mp he
    exact (Module.reads_key (heard_spec hn).2.2.1).1

/-- A call of the library that finds room. -/
def RoomyStep (P : Program) (a : Ptr) (s : Store) (k : Call) (s' : Store) (evs : List Event) :
    Prop :=
  call P s k = .ok (s', evs) ∧ HasRoom P a s k

end Run

/-! `login`, then `serve`: once as it should be, and once without the login. -/

def loginFile : ManifestFile := sessionFile [Parser.callTo "login", callServe anyValue]

def loginUse : Usage := ⟨⟨some "session", none⟩, some (.function (Parser.callTo "enter")),
  some (.function (Parser.callTo "leave"))⟩

def loginDescription : AutomatonDescription :=
  ⟨⟨some "session", none⟩, .global,
    .sequence [.function (Parser.callTo "login"), .function (callServe anyValue)] 1 1, []⟩

def loginLinked : Graph :=
  ((NFA.link false loginDescription (some loginUse) loginFile.descriptions 3).toOption).getD .empty

def loginAutomaton : Automata.Automaton :=
  ⟨loginDescription, (DFA.convert loginLinked 12).getD .empty⟩

def loginManifest : Manifest :=
  ⟨[loginAutomaton], loginFile.root, [loginAutomaton.getLifetime .insertion]⟩

def loginInstrumentation : Instrumentation :=
  ((runOnModule .insertion loginManifest sessionModule).toOption).getD []

def loginImage : Image := ⟨fun _ => 7, fun _ => callLifetime⟩

def loginProgram : Program :=
  ⟨fun _ => buildAutomatonDescription .insertion loginAutomaton callLifetime, false⟩

def entering (name : String) (args : List Value) : Moment :=
  ⟨name, .entry, ⟨args, zeroMemory, fun _ => 0⟩, Key.zero⟩

def loginSessions : List Session :=
  [⟨entering "enter" [], [entering "login" [], entering "serve" [.int 32 5]], entering "leave" []⟩,
    ⟨entering "enter" [], [entering "serve" [.int 32 5]], entering "leave" []⟩]

end Tesla.Instrumenter
