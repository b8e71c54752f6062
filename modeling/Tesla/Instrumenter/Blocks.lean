/-
# `Tesla.Instrumenter.Blocks` — the blocks of an instrumentation function

`TranslationFn` writes an instrumentation function block by block:

    CreatePreamble (..)         `createPreamble`
    TranslationFn::Create       `BlockFn.create`
    Match (..)                  `BlockFn.matchArgument`
    AddInstrumentation (..)     `BlockFn.addInstrumentation`

The blocks of an event are put in front of the block `exit` by sending every branch to
`exit` to them, and its matchers are put in front of its body in the same way.  What comes
of it is a chain: each body is run if the constants of its patterns match, and the next
event is tried in any case (`addAll_ends`).
-/
import Tesla.Instrumenter.Chain
import Tesla.Lib.Blocks

namespace Tesla.Instrumenter

open Automata Lib Tesla.Runtime

/-! ## Blocks -/

/-- What a conditional branch tests. -/
inductive Condition where
  /-- `tesla_debugging ("tesla.events")` -/
  | debugging
  | matched (t : Test)
deriving DecidableEq

def Condition.holds (fr : Frame) (debugging : Bool) : Condition → Bool
  | .debugging => debugging
  | .matched t => t.holds fr

/-- What a block does; `κ` is what is known of a call of the run-time. -/
inductive Action (κ : Type) where
  | printf
  /-- The key is filled and the run-time is called with it. -/
  | instr (key : KeyCode) (call : κ)

/-- The call of the run-time, with its key. -/
def Action.called (fr : Frame) : Action Hook → Option (Hook × Key)
  | .printf => none
  | .instr key call => some (call, key.run fr)

structure BlockFn (κ : Type) where
  graph : Cfg (Action κ) Condition
  params : List Ty
  entry : Nat
  /-- `End` -/
  exit : Nat

/-! ## What a pattern matches -/

/-- Exact, flags: contains the pattern, mask: contains no more than the pattern. -/
def constantMatches {width : Nat} (how : MatchType) (v p : BitVec width) : Bool :=
  match how with
  | .exact => v = p
  | .flags => v &&& p = p
  | .mask => v &&& p = v

/-- A pattern that is not a constant matches every value. -/
def argumentMatches (v : Value) (p : Argument) : Bool :=
  if p.type = .constant then
    match v with
    | .int width bits => constantMatches p.constantMatch bits (BitVec.ofInt width p.value)
    | .ptr .. | .other => false
  else true

/-! ## Writing blocks -/

namespace BlockFn

variable {κ : Type}

/-- `CreatePreamble`: the graph, its first block and the block to go on from. -/
def createPreamble (suppressDebugPrintf : Bool) : Cfg (Action κ) Condition × Nat × Nat :=
  let g : Cfg (Action κ) Condition := ⟨[]⟩
  let entry := g.fresh
  let g := g.create
  if suppressDebugPrintf then (g, entry, entry) else
    let preamble := g.fresh
    let g := g.create
    let print := g.fresh
    let g := g.create
    let g := g.finish preamble [] (.condBr .debugging print entry)
    (g.finish print [.printf] (.br entry), preamble, entry)

/-- `TranslationFn::Create`. -/
def create (suppressDebugPrintf : Bool) (params : List Ty) : BlockFn κ :=
  let (g, first, entry) := createPreamble suppressDebugPrintf
  let exit := g.fresh
  let g := g.create
  let g := g.finish entry [] (.br exit)
  ⟨g.finish exit [] .ret, params, first, exit⟩

/-- A block in front of `instr` for each test, which goes on to `exit` unless the test holds. -/
def guarded (f : BlockFn κ) (instr : Nat) (tests : List Test) : BlockFn κ :=
  { f with graph := f.graph.guards instr f.exit (tests.map .matched) }

/-- `Match`, for the value of a parameter. -/
def matchArgument (instr i : Nat) (ty : Ty) (p : Argument) (f : BlockFn κ) :
    Except Failure (BlockFn κ) := do
  let tests ← matchPattern i ty p
  return f.guarded instr tests

/-- The loop over the parameters. -/
def matchArguments (instr : Nat) (indirectionRequired : Bool) :
    Nat → List Ty → List Argument → BlockFn κ × KeyArgs → Except Failure (BlockFn κ × KeyArgs)
  | i, ty :: tys, p :: ps, (f, args) => do
    let f ← f.matchArgument instr i ty p
    let args ← placePattern indirectionRequired i ty p args
    matchArguments instr indirectionRequired (i + 1) tys ps (f, args)
  | _, _, _, acc => .ok acc

/-- A call of `AddInstrumentation`, and of the run-time at the place that it returns. -/
structure Added (κ : Type) where
  patterns : List Argument
  indirectionRequired : Bool
  freeMask : Mask
  call : κ

/-- `AddInstrumentation`. -/
def addInstrumentation (f : BlockFn κ) (a : Added κ) : Except Failure (BlockFn κ) :=
  let instr := f.graph.fresh
  let g := f.graph.create
  let g := g.replaceAllUses f.exit instr
  if a.patterns.length = f.params.length then do
    let (f', args) ← matchArguments instr a.indirectionRequired 0 f.params a.patterns
      ({ f with graph := g }, fun _ => none)
    let key ← constructKey (List.ofFn args) a.freeMask
    return { f' with graph := f'.graph.finish instr [.instr key a.call] (.br f'.exit) }
  else .error .patternCount

def addAll (f : BlockFn κ) (as : List (Added κ)) : Except Failure (BlockFn κ) :=
  as.foldlM addInstrumentation f

/-! ## What a call matches -/

/-- All patterns match the values that they are for. -/
def Added.matched (fr : Frame) (a : Added κ) : Bool :=
  a.patterns.zipIdx.all fun p => argumentMatches ((fr.args[p.2]?).getD .other) p.1

/-- The body of a call of `AddInstrumentation`. -/
def Added.body (params : List Ty) (a : Added κ) : Except Failure (Action κ) := do
  let code ← Instrumenter.addInstrumentation params a.patterns a.indirectionRequired a.freeMask
  return .instr code.key a.call

/-! ## Tests and a body -/

/-- The blocks for the code of an event: its body, and a block in front of it for each test. -/
def splice (f : BlockFn κ) (c : Code) (call : κ) : BlockFn κ :=
  let instr := f.graph.fresh
  let g := f.graph.create
  let g := g.replaceAllUses f.exit instr
  let g := g.guards instr f.exit (c.tests.map .matched)
  { f with graph := g.finish instr [.instr c.key call] (.br f.exit) }

variable {f : BlockFn κ} {instr : Nat} {holds : Condition → Bool} {trace : List (Action κ)}

theorem guarded_append {ts us : List Test} :
    f.guarded instr (ts ++ us) = (f.guarded instr ts).guarded instr us := by
  rw [guarded, List.map_append, Cfg.guards_append]
  rfl

theorem matchArguments_eq {indirectionRequired : Bool} {i : Nat} {tys : List Ty}
    {ps : List Argument} {tests : List Test} {args : KeyArgs} :
    matchArguments instr indirectionRequired i tys ps (f.guarded instr tests, args) =
      (placePatterns indirectionRequired i tys ps (tests, args)).map fun r =>
        (f.guarded instr r.1, r.2) := by
  induction tys generalizing i ps tests args with
  | nil => rfl
  | cons ty tys ih =>
    cases ps with
    | nil => rfl
    | cons p ps =>
      rw [matchArguments, placePatterns, matchArgument]
      cases matchPattern i ty p with
      | error e => rfl
      | ok test =>
        cases placePattern indirectionRequired i ty p args with
        | error e => rfl
        | ok args' =>
          change matchArguments instr indirectionRequired (i + 1) tys ps
            ((f.guarded instr tests).guarded instr test, args') = _
          rw [← guarded_append]
          exact ih

theorem addInstrumentation_eq (a : Added κ) : f.addInstrumentation a =
    (Instrumenter.addInstrumentation f.params a.patterns a.indirectionRequired a.freeMask).map
      fun c => f.splice c a.call := by
  rw [addInstrumentation, Instrumenter.addInstrumentation]
  split
  · let f' := { f with graph := f.graph.create.replaceAllUses f.exit f.graph.fresh }
    have hargs : matchArguments f.graph.fresh a.indirectionRequired 0 f.params a.patterns
        (f'.guarded f.graph.fresh [], fun _ => none) =
          (placePatterns a.indirectionRequired 0 f.params a.patterns ([], fun _ => none)).map
            fun r => (f'.guarded f.graph.fresh r.1, r.2) := matchArguments_eq
    rw [guarded, List.map_nil, Cfg.guards, List.foldl_nil] at hargs
    dsimp only
    rw [hargs]
    cases placePatterns a.indirectionRequired 0 f.params a.patterns ([], fun _ => none) with
    | error e => rfl
    | ok r =>
      cases hkey : constructKey (List.ofFn r.2) a.freeMask with
      | error e => simp only [Except.map, bind, Except.bind, hkey]
      | ok key =>
        simp only [Except.map, bind, Except.bind, hkey]
        rfl
  · rfl

/-! ## A chain -/

/-- From the entry the execution gets to `exit`, where it returns. -/
structure Chain (f : BlockFn κ) (holds : Condition → Bool) (trace : List (Action κ)) : Prop where
  exit_lt : f.exit < f.graph.fresh
  exit_ret : f.graph.term f.exit = some .ret
  exit_empty : f.graph.body f.exit = []
  leads : f.graph.Leads holds (· ≠ f.exit) f.entry trace f.exit

/-- An event is added at the end of the chain: the new block takes the place of `exit`, the tests
that of the new block, and both go on to `exit`. -/
theorem Chain.splice (h : f.Chain holds trace) (c : Code) (call : κ) :
    (f.splice c call).Chain holds
      (trace ++ if (c.tests.map .matched).all holds then [.instr c.key call] else []) := by
  have hlt := h.exit_lt
  have hne : f.exit ≠ f.graph.fresh := Nat.ne_of_lt hlt
  let g := f.graph.create.replaceAllUses f.exit f.graph.fresh
  let g' := g.guards f.graph.fresh f.exit (c.tests.map .matched)
  have hfresh : f.graph.fresh < g.fresh := by simp [g]
  have hret : g'.term f.exit = some .ret ∧ g'.body f.exit = [] := by
    have hterm : g.term f.exit = some .ret := by simp [g, h.exit_ret, Terminator.redirect]
    have hbody : g.body f.exit = [] := by simp [g, h.exit_empty]
    have := Cfg.block_guards f.graph.fresh f.exit (c.tests.map .matched)
      (Nat.lt_trans hlt hfresh) (.inr hterm)
    exact ⟨this.1.trans hterm, this.2.trans hbody⟩
  have hopen : g'.term f.graph.fresh = none := by
    have hterm : g.term f.graph.fresh = none := by simp [g, Cfg.term_of_fresh_le]
    exact (Cfg.block_guards _ _ _ hfresh (.inl hterm)).1.trans hterm
  have hinstr : f.graph.fresh < g'.fresh := by
    rw [Cfg.fresh_guards]
    exact Nat.lt_add_right _ hfresh
  have hmoved := (h.leads.avoids (Cfg.term_of_fresh_le (Nat.le_refl _))).create.replaceAllUses
    (x := f.exit) (y := f.graph.fresh) fun hne => hne.1 rfl
  rw [if_pos rfl] at hmoved
  have hguarded := hmoved.guards f.exit (c.tests.map .matched)
    (fun hne => hne.2 rfl) hne fun b hb =>
      ⟨Nat.ne_of_gt (Nat.lt_of_lt_of_le (Nat.lt_trans hlt hfresh) hb),
        Nat.ne_of_gt (Nat.lt_of_lt_of_le hfresh hb)⟩
  rw [if_pos rfl] at hguarded
  have hfinished := (hguarded.mono fun _ hne => hne.1).finish [.instr c.key call]
    (.br f.exit) hopen
  refine ⟨?_, ?_, ?_, ?_⟩
  · exact Nat.lt_of_lt_of_eq (Nat.lt_trans hlt hinstr) Cfg.fresh_finish.symm
  · exact (Cfg.term_finish_of_ne hne).trans hret.1
  · exact (Cfg.body_finish_of_ne hne).trans hret.2
  · change Cfg.Leads _ holds (· ≠ f.exit) f.entry _ f.exit
    split
    · next hall =>
      have hlast : (g'.finish f.graph.fresh [.instr c.key call] (.br f.exit)).next holds
          f.graph.fresh = some f.exit := by
        rw [Cfg.next, Cfg.term_finish_self hinstr]
        rfl
      have hon := Cfg.Leads.last (P := (· ≠ f.exit)) hlast
      rw [Cfg.body_finish_self hinstr] at hon
      rw [if_pos hall] at hfinished
      exact hfinished.trans hne.symm hon
    · next hall =>
      rw [if_neg hall] at hfinished
      rwa [List.append_nil]

theorem Chain.ends (h : f.Chain holds trace) : f.graph.Ends holds f.entry trace f.exit := by
  have := h.leads.ends (Cfg.ends_of_ret h.exit_ret)
  rwa [h.exit_empty, List.append_nil] at this

/-- Of a new function, only the debugging output is run. -/
theorem create_chain (suppressDebugPrintf : Bool) (params : List Ty) :
    (create suppressDebugPrintf params : BlockFn κ).Chain holds
      (if !suppressDebugPrintf && holds .debugging then [.printf] else []) := by
  cases suppressDebugPrintf with
  | true => exact ⟨(by decide : 1 < 2), rfl, rfl, .last rfl⟩
  | false =>
    refine ⟨(by decide : 3 < 4), rfl, rfl, ?_⟩
    have hpreamble : (create false params : BlockFn κ).graph.next holds 1 =
        some (if holds .debugging then 2 else 0) := rfl
    have hentry : (create false params : BlockFn κ).graph.Leads holds (· ≠ 3) 0 [] 3 := .last rfl
    cases hdebugging : holds .debugging with
    | true =>
      rw [hdebugging, if_pos rfl] at hpreamble
      exact .step hpreamble (by decide : 2 ≠ 3) (.step rfl (by decide : 0 ≠ 3) hentry)
    | false =>
      rw [hdebugging, if_neg Bool.false_ne_true] at hpreamble
      exact .step hpreamble (by decide : 0 ≠ 3) hentry

/-! ## What the tests of an event say -/

theorem argumentMatches_of_not_constant {v : Value} {p : Argument} (hp : p.type ≠ .constant) :
    argumentMatches v p = true := by
  unfold argumentMatches
  rw [if_neg hp]

theorem test_matches (fr : Frame) (i : Nat) (p : Argument) (hp : p.type = .constant) :
    (Test.constant i p.constantMatch p.value).holds fr =
      argumentMatches ((fr.args[i]?).getD .other) p := by
  unfold argumentMatches
  rw [Test.holds, Operand.eval, if_pos hp]
  cases (fr.args[i]?).getD .other with
  | int width bits => cases p.constantMatch <;> simp [constantMatches, beq_eq_decide]
  | ptr elem address => rfl
  | other => rfl

theorem matchPattern_matches {fr : Frame} {i : Nat} {ty : Ty} {p : Argument} {tests : List Test}
    (h : matchPattern i ty p = .ok tests) :
    tests.all (Test.holds fr) = argumentMatches ((fr.args[i]?).getD .other) p := by
  obtain ⟨_, rfl⟩ := matchPattern_eq_ok.mp h
  split
  · next hp => rw [List.all_cons, List.all_nil, Bool.and_true, test_matches fr i p hp]
  · next hp => rw [List.all_nil, argumentMatches_of_not_constant hp]

theorem placePatterns_matches {fr : Frame} {indirectionRequired : Bool} {i : Nat} {tys : List Ty}
    {ps : List Argument} {tests tests' : List Test} {args args' : KeyArgs}
    (hlen : ps.length = tys.length)
    (h : placePatterns indirectionRequired i tys ps (tests, args) = .ok (tests', args')) :
    tests'.all (Test.holds fr) = (tests.all (Test.holds fr) &&
      (ps.zipIdx i).all fun p => argumentMatches ((fr.args[p.2]?).getD .other) p.1) := by
  induction ps generalizing i tys tests args with
  | nil =>
    obtain rfl := List.length_eq_zero_iff.mp hlen.symm
    cases h
    exact (Bool.and_true _).symm
  | cons p ps ih =>
    obtain ⟨ty, tys, rfl⟩ := List.exists_cons_of_length_eq_add_one hlen.symm
    rw [placePatterns] at h
    obtain ⟨ts, hts, h⟩ := bind_eq_ok.mp h
    obtain ⟨args₁, _, h⟩ := bind_eq_ok.mp h
    rw [ih (Nat.succ.inj hlen) h, List.all_append, matchPattern_matches hts, List.zipIdx_cons,
      List.all_cons, Bool.and_assoc]

theorem guards_hold {fr : Frame} {debugging : Bool} {c : Code} :
    (c.tests.map .matched).all (Condition.holds fr debugging) = c.matched fr := List.all_map

/-- The tests of an event hold where its patterns match. -/
theorem matched_eq {fr : Frame} {a : Added κ} {params : List Ty} {c : Code}
    (h : Instrumenter.addInstrumentation params a.patterns a.indirectionRequired a.freeMask =
      .ok c) : c.matched fr = a.matched fr := by
  rw [Instrumenter.addInstrumentation] at h
  split at h
  · next hlen =>
    obtain ⟨⟨tests, args⟩, hplace, h⟩ := bind_eq_ok.mp h
    obtain ⟨key, _, h⟩ := bind_eq_ok.mp h
    cases h
    exact placePatterns_matches hlen hplace
  · cases h

/-! ## Any number of events -/

/-- One event: its body is run after what is there, if its patterns match. -/
theorem addInstrumentation_chain {fr : Frame} {debugging : Bool} {f' : BlockFn κ} {a : Added κ}
    (h : f.Chain (Condition.holds fr debugging) trace) (ha : f.addInstrumentation a = .ok f') :
    ∃ body, a.body f.params = .ok body ∧ f'.params = f.params ∧
      f'.Chain (Condition.holds fr debugging) (trace ++ if a.matched fr then [body] else []) := by
  rw [addInstrumentation_eq] at ha
  cases hc : Instrumenter.addInstrumentation f.params a.patterns a.indirectionRequired a.freeMask with
  | error e =>
    rw [hc] at ha
    cases ha
  | ok c =>
    rw [hc] at ha
    cases ha
    refine ⟨.instr c.key a.call, ?_, rfl, ?_⟩
    · rw [Added.body, hc]
      rfl
    · have := h.splice c a.call
      rwa [guards_hold, matched_eq hc] at this

/-- The bodies that are run, out of all. -/
def executed (fr : Frame) (as : List (Added κ)) (bodies : List (Action κ)) : List (Action κ) :=
  ((as.zip bodies).filter fun x => x.1.matched fr).map Prod.snd

theorem executed_cons {fr : Frame} {a : Added κ} {as : List (Added κ)} {body : Action κ}
    {bodies : List (Action κ)} : executed fr (a :: as) (body :: bodies) =
      (if a.matched fr then [body] else []) ++ executed fr as bodies := by
  rw [executed, List.zip_cons_cons, List.filter_cons]
  split <;> rfl

theorem addAll_chain {fr : Frame} {debugging : Bool} {f' : BlockFn κ} {as : List (Added κ)}
    (h : f.Chain (Condition.holds fr debugging) trace) (has : f.addAll as = .ok f') :
    ∃ bodies, List.Forall₂ (fun a body => a.body f.params = .ok body) as bodies ∧
      f'.Chain (Condition.holds fr debugging) (trace ++ executed fr as bodies) := by
  induction as generalizing f trace with
  | nil =>
    cases has
    exact ⟨[], .nil, by rwa [executed, List.zip_nil_left, List.filter_nil, List.map_nil, List.append_nil]⟩
  | cons a as ih =>
    rw [addAll, List.foldlM_cons] at has
    obtain ⟨f₁, ha, has⟩ := bind_eq_ok.mp has
    obtain ⟨body, hbody, hparams, h₁⟩ := addInstrumentation_chain h ha
    obtain ⟨bodies, hbodies, hchain⟩ := ih h₁ has
    rw [hparams] at hbodies
    refine ⟨body :: bodies, .cons hbody hbodies, ?_⟩
    rwa [List.append_assoc, ← executed_cons] at hchain

/-- Whatever events have been added to a function, a call of it ends at its exit, having run the
bodies of those events whose constants all match the values, in the order in which they were added
(and before them the debugging output, where there is any). -/
theorem addAll_ends (suppressDebugPrintf debugging : Bool) (params : List Ty) (as : List (Added κ))
    (f : BlockFn κ) (fr : Frame) (h : (create suppressDebugPrintf params).addAll as = .ok f) :
    ∃ bodies, List.Forall₂ (fun a body => a.body params = .ok body) as bodies ∧
      f.graph.Ends (Condition.holds fr debugging) f.entry
        ((if !suppressDebugPrintf && debugging then [.printf] else []) ++ executed fr as bodies)
        f.exit := by
  obtain ⟨bodies, hbodies, hchain⟩ := addAll_chain (create_chain suppressDebugPrintf params) h
  exact ⟨bodies, hbodies, hchain.ends⟩

/-- `serve (5)`: an event for 5, one for values with the bit 2, and one for any value. -/
def serveEvents : List (Added Hook) :=
  [⟨[theValue 5], true, 0, .updateState .global "session" 1⟩,
    ⟨[.mk .constant none none none (some 2) (some .flags) none none], true, 0,
      .updateState .global "session" 2⟩,
    ⟨[anyValue], true, 0, .updateState .global "session" 3⟩]

theorem addAll_ends_serve : ∃ f bodies, (create false [.int 32]).addAll serveEvents = .ok f ∧
    List.Forall₂ (fun a body => a.body [.int 32] = .ok body) serveEvents bodies ∧
    serveEvents.map (Added.matched serveFive) = [true, false, true] ∧
    f.graph.Ends (Condition.holds serveFive true) f.entry
      ([.printf] ++ executed serveFive serveEvents bodies) f.exit := by
  obtain ⟨f, hf⟩ : ∃ f, (create false [.int 32]).addAll serveEvents = .ok f := ⟨_, rfl⟩
  obtain ⟨bodies, hbodies, hends⟩ := addAll_ends false true [.int 32] serveEvents f serveFive hf
  exact ⟨f, bodies, hf, hbodies, by decide, hends⟩

/-! ## The chain that is run -/

/-- The blocks of an instrumentation function. -/
def ofChain (suppressDebugPrintf : Bool) (f : TranslationFn) : BlockFn Hook :=
  f.chain.foldl (fun g b => g.splice b.code b.call) (create suppressDebugPrintf f.params)

theorem Chain.splices {f : BlockFn Hook} {trace : List (Action Hook)} {fr : Frame}
    {debugging : Bool} (bs : List Block)
    (h : f.Chain (Condition.holds fr debugging) trace) :
    (bs.foldl (fun g b => g.splice b.code b.call) f).Chain (Condition.holds fr debugging) (trace ++
      (bs.filter fun b => b.code.matched fr).map fun b => .instr b.code.key b.call) := by
  induction bs generalizing f trace with
  | nil => rwa [List.filter_nil, List.map_nil, List.append_nil]
  | cons b bs ih =>
    have hone : (if b.code.matched fr then [Action.instr b.code.key b.call] else []) ++
        (bs.filter fun b => b.code.matched fr).map (fun b => .instr b.code.key b.call) =
          ((b :: bs).filter fun b => b.code.matched fr).map fun b => .instr b.code.key b.call := by
      rw [List.filter_cons]
      split <;> rfl
    have hnext := h.splice b.code b.call
    rw [guards_hold] at hnext
    rw [List.foldl_cons, ← hone, ← List.append_assoc]
    exact ih hnext

/-- A call of the blocks calls the run-time as the chain does. -/
theorem ofChain_run (suppressDebugPrintf debugging : Bool) (f : TranslationFn) (fr : Frame) :
    ∃ trace, (ofChain suppressDebugPrintf f).graph.Ends (Condition.holds fr debugging)
        (ofChain suppressDebugPrintf f).entry trace (ofChain suppressDebugPrintf f).exit ∧
      trace.filterMap (Action.called fr) = f.run fr := by
  refine ⟨_, ((create_chain suppressDebugPrintf f.params).splices f.chain).ends, ?_⟩
  have hprintf : List.filterMap (Action.called fr) (if !suppressDebugPrintf && debugging then
      [.printf] else []) = [] := by
    split <;> rfl
  rw [List.filterMap_append, Condition.holds, hprintf, List.nil_append, List.filterMap_map,
    TranslationFn.run]
  exact congrFun List.filterMap_eq_map _

end BlockFn

end Tesla.Instrumenter
