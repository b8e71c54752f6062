/-
# `Tesla.Instrumenter.Fields` — the instrumentation of stores to a field

For a field of a structure, `FieldReferenceInstrumenter` writes one function that is called
before every store to it, with the structure, the new value and a pointer to the field:

    NextInstrBlock (..)            `FieldFn.nextInstrBlock`
    AppendInstrumentation (..)     `FieldFn.appendInstrumentation`
    BuildInstrumentation (..)      `FieldFn.buildInstrumentation`
    the root automata              `FieldFn.buildRoots`

Each automaton has a block `end` of its own, where a store that does not match goes on; but
a store that matches goes on to `exit`, which by then stands for the automata that come
later.  So of the symbols of an automaton a store reaches the first that it matches, and no
other (`buildRoots_reaches`).

Blocks are written into the function as in `Tesla.Instrumenter.Blocks`.
-/
import Tesla.Instrumenter.Blocks

namespace Tesla.Instrumenter

open Automata Lib

/-! ## The function for a field -/

/-- A call of `tesla_update_state`. -/
structure FieldCall where
  automaton : Identifier
  context : Context
  symbol : Nat
deriving DecidableEq

/-- `FieldInstrumentation`.  An automaton, which is a pointer in `NextInstr`, is known by its
identifier. -/
structure FieldFn where
  fn : BlockFn FieldCall
  /-- The type of the field. -/
  ty : Ty
  nextInstr : List (Identifier × Nat)

namespace FieldFn

/-- `StructInstrumentation`. -/
def create (suppressDebugPrintf : Bool) (ty : Ty) : FieldFn :=
  ⟨BlockFn.create suppressDebugPrintf [.ptr .other, ty, .ptr ty], ty, []⟩

/-- `NextInstr.find (A)`. -/
def find (f : FieldFn) (A : Identifier) : Option Nat :=
  (f.nextInstr.find? fun p => p.1 = A).map Prod.snd

/-- `NextInstrBlock`: the block that the symbols of an automaton are put in front of.  No branch
goes to `start`. -/
def nextInstrBlock (A : Identifier) (f : FieldFn) : FieldFn × Nat :=
  match f.find A with
  | some stop => (f, stop)
  | none =>
    let g := f.fn.graph
    let start := g.fresh
    let g := g.create
    let stop := g.fresh
    let g := g.create
    let g := g.replaceAllUses f.fn.exit stop
    let g := g.finish start [] (.br stop)
    let g := g.finish stop [] (.br f.fn.exit)
    ({ f with fn := { f.fn with graph := g }, nextInstr := f.nextInstr ++ [(A, stop)] }, stop)

/-- The blocks for the code of a symbol: a body in front of the block `end` of the automaton, and in
front of the body a block for each test, which goes on to `end` if the test fails. -/
def insertCode (f : FieldFn) (a : Automaton) (symbol : Nat) (c : Code) : FieldFn :=
  let (f, stop) := f.nextInstrBlock a.assertion.identifier
  let instr := f.fn.graph.fresh
  let g := f.fn.graph.create
  let g := g.replaceAllUses stop instr
  let g := g.guards instr stop (c.tests.map .matched)
  let call : FieldCall := ⟨a.assertion.identifier, a.assertion.context, symbol⟩
  -- `UpdateState` is given `Exit` as the next block
  let g := g.finish instr [.instr c.key call] (.br f.fn.exit)
  { f with fn := { f.fn with graph := g } }

/-- `AppendInstrumentation`, for the symbol of a class of an automaton. -/
def appendInstrumentation (a : Automaton) (f : FieldFn) (sym : FieldAssignment × Nat) :
    Except Failure FieldFn := do
  let c ← Instrumenter.appendInstrumentation sym.1 f.ty
  return f.insertCode a sym.2 c

end FieldFn

/-! ## The symbols for a field -/

/-- `CompleteFieldName`. -/
def completeFieldName : StructField → String
  | .mk type _ name _ => type ++ "." ++ name

/-- The classes of an automaton that are assignments to a field. -/
def fieldSymbols (it : Iteration) (field : String) (a : Automaton) : List (FieldAssignment × Nat) :=
  (groupClasses it a.graph.transitions).zipIdx.filterMap fun c =>
    match it.head c.1 with
    | none => none
    | some head =>
      match head.label with
      | .fieldAssign assign =>
        if completeFieldName assign.field = field then some (assign, c.2) else none
      | _ => none

namespace FieldFn

/-- `BuildInstrumentation`, as far as it is about one field. -/
def buildInstrumentation (it : Iteration) (field : String) (f : FieldFn) (a : Automaton) :
    Except Failure FieldFn :=
  (fieldSymbols it field a).foldlM (appendInstrumentation a) f

/-- The function for a field, for the roots of a manifest. -/
def buildRoots (it : Iteration) (field : String) (M : Manifest) (f : FieldFn) :
    Except Failure FieldFn :=
  M.roots.foldlM (fun f use =>
    match M.findAutomaton use.identifier with
    | some a => f.buildInstrumentation it field a
    | none => .error .noAutomaton) f

/-- The calls that a store makes. -/
def Calls (f : FieldFn) (fr : Frame) (debugging : Bool) (calls : List FieldCall) : Prop :=
  ∃ trace, f.fn.graph.Ends (Condition.holds fr debugging) f.fn.entry trace f.fn.exit ∧
    trace.filterMap (fun | .printf => none | .instr _ call => some call) = calls

end FieldFn

/-- Does a store have the expected value?  A variable can have any. -/
def storeMatches (fr : Frame) (assign : FieldAssignment) : Bool :=
  if assign.value.type = .constant then
    (Test.assigned assign.operation assign.value.value).holds fr
  else true

/-! ## The layout of a function -/

/-- What is known of the blocks of a symbol: `back` is how many automata there were when they were
put into the function, which are those that a match is done with. -/
structure FieldSymbol where
  tests : List Test
  instr : Nat
  key : KeyCode
  call : FieldCall
  back : Nat

def FieldSymbol.matched (fr : Frame) (p : FieldSymbol) : Bool := p.tests.all (Test.holds fr)

/-- The blocks of an automaton. -/
structure Segment where
  automaton : Identifier
  stop : Nat
  symbols : List FieldSymbol

namespace Segment

/-- The first symbol that a store matches. -/
def first (fr : Frame) (s : Segment) : Option FieldSymbol := s.symbols.find? (FieldSymbol.matched fr)

/-- Where a store gets in the blocks of an automaton. -/
def target (fr : Frame) (s : Segment) : Nat :=
  match s.first fr with
  | some p => p.instr
  | none => s.stop

/-- The blocks between which a store goes. -/
def nodes (s : Segment) : List Nat := s.stop :: s.symbols.map (·.instr)

end Segment

/-- With one more symbol. -/
def Segment.push (s : Segment) (p : FieldSymbol) : Segment :=
  { s with symbols := s.symbols ++ [p] }

namespace FieldFn

/-- Where a store gets that is done with `i` automata. -/
def dest (f : FieldFn) (fr : Frame) (segs : List Segment) (i : Nat) : Nat :=
  ((segs[i]?).map (Segment.target fr)).getD f.fn.exit

/-- The blocks that are not in front of others. -/
def Inner (f : FieldFn) (segs : List Segment) (b : Nat) : Prop :=
  b ≠ f.fn.exit ∧ ∀ s ∈ segs, b ∉ s.nodes

structure Layout (f : FieldFn) (fr : Frame) (debugging : Bool) (pre : List (Action FieldCall))
    (segs : List Segment) : Prop where
  nextInstr : f.nextInstr = segs.map fun s => (s.automaton, s.stop)
  automata : (segs.map (·.automaton)).Nodup
  exit_lt : f.fn.exit < f.fn.graph.fresh
  exit_ret : f.fn.graph.term f.fn.exit = some .ret
  exit_empty : f.fn.graph.body f.fn.exit = []
  nodes_lt : ∀ s ∈ segs, ∀ b ∈ s.nodes, b < f.fn.graph.fresh
  nodes : (f.fn.exit :: segs.flatMap Segment.nodes).Nodup
  entry : f.fn.graph.Leads (Condition.holds fr debugging) (f.Inner segs) f.fn.entry pre
    (f.dest fr segs 0)
  stops : ∀ (i : Nat) (s : Segment), segs[i]? = some s →
    f.fn.graph.Leads (Condition.holds fr debugging) (f.Inner segs) s.stop [] (f.dest fr segs (i + 1))
  instrs : ∀ (i : Nat) (s : Segment), segs[i]? = some s → ∀ p ∈ s.symbols, i < p.back ∧ p.back ≤ segs.length ∧
    f.fn.graph.Leads (Condition.holds fr debugging) (f.Inner segs) p.instr [.instr p.key p.call]
      (f.dest fr segs p.back)

end FieldFn

variable {f : FieldFn} {fr : Frame} {debugging : Bool} {pre : List (Action FieldCall)}
  {segs l r : List Segment} {s s' : Segment} {p : FieldSymbol} {A : Identifier} {b i : Nat}

theorem Segment.target_mem : s.target fr ∈ s.nodes := by
  rw [target, nodes]
  split
  · next p hp =>
    exact List.mem_cons_of_mem _ (List.mem_map_of_mem (List.mem_of_find?_eq_some hp))
  · exact List.mem_cons_self

theorem Segment.target_eq_stop (hnodup : s.nodes.Nodup) :
    s.target fr = s.stop ↔ s.first fr = none := by
  rw [target]
  split
  · next p hp =>
    constructor
    · intro heq
      have hmem := List.mem_map_of_mem (f := FieldSymbol.instr) (List.mem_of_find?_eq_some hp)
      rw [heq] at hmem
      exact absurd hmem (List.nodup_cons.mp hnodup).1
    · intro hnone
      rw [hp] at hnone
      cases hnone
  · next hp => simp [hp]

theorem Segment.nodes_push : (s.push p).nodes = s.nodes ++ [p.instr] := by
  rw [nodes, nodes, push, List.map_append, List.map_singleton, List.cons_append]

theorem Segment.first_push : (s.push p).first fr =
    (s.first fr).or (if p.matched fr then some p else none) := by
  rw [first, first, push, List.find?_append, List.find?_singleton]

/-- A symbol at the end comes into question if no other matches. -/
theorem Segment.target_push : (s.push p).target fr =
    if s.first fr = none then if p.matched fr then p.instr else s.stop else s.target fr := by
  rw [target, target, push, first, first, List.find?_append]
  cases s.symbols.find? (FieldSymbol.matched fr) with
  | some q => rfl
  | none =>
    rw [Option.none_or, if_pos rfl, List.find?_singleton]
    cases p.matched fr <;> rfl

theorem getElem?_middle {α : Type*} {x y : α} {xs ys : List α} {i : Nat} :
    (xs ++ y :: ys)[i]? = if i = xs.length then some y else (xs ++ x :: ys)[i]? := by
  rw [List.getElem?_append, List.getElem?_append]
  split
  · next hlt => rw [if_neg (Nat.ne_of_lt hlt)]
  · next hge =>
    split
    · next heq => rw [heq, Nat.sub_self, List.getElem?_cons_zero]
    · next hne =>
      obtain ⟨k, hk⟩ : ∃ k, i - xs.length = k + 1 := ⟨i - xs.length - 1, by omega⟩
      rw [hk, List.getElem?_cons_succ, List.getElem?_cons_succ]

theorem mem_of_getElem?_middle {α : Type*} {x y : α} {xs ys : List α} {i : Nat}
    (hi : i ≠ xs.length) (h : (xs ++ x :: ys)[i]? = some y) : y ∈ xs ∨ y ∈ ys := by
  rw [List.getElem?_append] at h
  split at h
  · exact .inl (List.mem_of_getElem? h)
  · obtain ⟨k, hk⟩ : ∃ k, i - xs.length = k + 1 := ⟨i - xs.length - 1, by omega⟩
    rw [hk, List.getElem?_cons_succ] at h
    exact .inr (List.mem_of_getElem? h)

namespace FieldFn

theorem dest_of_length_le (hi : segs.length ≤ i) : f.dest fr segs i = f.fn.exit := by
  rw [dest, List.getElem?_eq_none hi]
  rfl

theorem dest_of_getElem? (hs : segs[i]? = some s) : f.dest fr segs i = s.target fr := by
  rw [dest, hs]
  rfl

/-! ## Insertions -/

/-- The function with the blocks of an automaton that it does not know yet. -/
def newSegment (f : FieldFn) (A : Identifier) : FieldFn :=
  let stop := f.fn.graph.fresh + 1
  let g := (f.fn.graph.create.create.replaceAllUses f.fn.exit stop).finish f.fn.graph.fresh []
    (.br stop)
  { f with
    fn := { f.fn with graph := g.finish stop [] (.br f.fn.exit) }
    nextInstr := f.nextInstr ++ [(A, stop)] }

theorem nextInstrBlock_of_none (hA : f.find A = none) :
    f.nextInstrBlock A = (newSegment f A, f.fn.graph.fresh + 1) := by
  rw [FieldFn.nextInstrBlock, hA, newSegment]
  simp

theorem inner_append : f.Inner (segs ++ [s]) b ↔ f.Inner segs b ∧ b ∉ s.nodes := by
  simp only [Inner, List.forall_mem_append, List.forall_mem_singleton, and_assoc]

/-- The function with the blocks of a symbol in front of `stop`. -/
def newSymbol (f : FieldFn) (stop : Nat) (p : FieldSymbol) : FieldFn :=
  let g := (f.fn.graph.create.replaceAllUses stop p.instr).guards p.instr stop
    (p.tests.map .matched)
  { f with fn := { f.fn with graph := g.finish p.instr [.instr p.key p.call] (.br f.fn.exit) } }

namespace Layout

theorem nodup (h : Layout f fr debugging pre segs) (hs : s ∈ segs) : s.nodes.Nodup :=
  (List.nodup_flatMap.mp (List.nodup_cons.mp h.nodes).2).1 s hs

/-- A block belongs to one automaton. -/
theorem unique (h : Layout f fr debugging pre (l ++ s :: r)) (hs' : s' ∈ l ∨ s' ∈ r)
    (hb : b ∈ s.nodes) : b ∉ s'.nodes := by
  intro hb'
  obtain ⟨_, hright, hleft⟩ := List.pairwise_append.mp
    (List.nodup_flatMap.mp (List.nodup_cons.mp h.nodes).2).2
  rcases hs' with hs' | hs'
  · exact hleft s' hs' s List.mem_cons_self hb' hb
  · exact (List.pairwise_cons.mp hright).1 s' hs' hb hb'

theorem exit_not_mem (h : Layout f fr debugging pre segs) (hs : s ∈ segs) : f.fn.exit ∉ s.nodes :=
  fun hb => (List.nodup_cons.mp h.nodes).1 (List.mem_flatMap.mpr ⟨s, hs, hb⟩)

theorem dest_eq_exit (h : Layout f fr debugging pre segs) :
    f.dest fr segs i = f.fn.exit ↔ segs.length ≤ i := by
  constructor
  · intro hdest
    by_contra hlt
    have hs := List.getElem?_eq_getElem (Nat.lt_of_not_le hlt)
    rw [dest_of_getElem? hs] at hdest
    exact h.exit_not_mem (List.mem_of_getElem? hs) (hdest ▸ Segment.target_mem)
  · exact dest_of_length_le

theorem dest_lt (h : Layout f fr debugging pre segs) : f.dest fr segs i < f.fn.graph.fresh := by
  cases hs : segs[i]? with
  | none =>
    rw [dest_of_length_le (List.getElem?_eq_none_iff.mp hs)]
    exact h.exit_lt
  | some s =>
    rw [dest_of_getElem? hs]
    exact h.nodes_lt s (List.mem_of_getElem? hs) _ Segment.target_mem

/-- Only a store that matches no symbol of an automaton gets to its last block. -/
theorem dest_eq_stop (h : Layout f fr debugging pre (l ++ s :: r)) :
    f.dest fr (l ++ s :: r) i = s.stop ↔ i = l.length ∧ s.first fr = none := by
  have hs : s ∈ l ++ s :: r := List.mem_append_right l List.mem_cons_self
  have hat : (l ++ s :: r)[l.length]? = some s := by simp
  by_cases hi : i = l.length
  · rw [hi, dest_of_getElem? hat, Segment.target_eq_stop (h.nodup hs), and_iff_right rfl]
  · refine iff_of_false (fun hdest => ?_) fun hpair => hi hpair.1
    cases hs' : (l ++ s :: r)[i]? with
    | none =>
      rw [dest_of_length_le (List.getElem?_eq_none_iff.mp hs')] at hdest
      exact h.exit_not_mem hs (hdest ▸ List.mem_cons_self)
    | some s' =>
      rw [dest_of_getElem? hs'] at hdest
      exact h.unique (mem_of_getElem?_middle hi hs') List.mem_cons_self
        (hdest ▸ Segment.target_mem)

/-! ## A new automaton -/

section NewSegment

theorem fresh_newSegment : (newSegment f A).fn.graph.fresh = f.fn.graph.fresh + 2 := by
  simp [newSegment]

theorem newSegment_exit (h : Layout f fr debugging pre segs) :
    (newSegment f A).fn.graph.term f.fn.exit = some .ret ∧
      (newSegment f A).fn.graph.body f.fn.exit = [] := by
  have hlt := h.exit_lt
  have hstart : f.fn.exit ≠ f.fn.graph.fresh := Nat.ne_of_lt hlt
  have hstop : f.fn.exit ≠ f.fn.graph.fresh + 1 := by omega
  rw [newSegment, Cfg.term_finish_of_ne hstop, Cfg.term_finish_of_ne hstart,
    Cfg.body_finish_of_ne hstop, Cfg.body_finish_of_ne hstart]
  simp [h.exit_ret, h.exit_empty, Terminator.redirect]

/-- What led to the exit leads to the new blocks. -/
theorem newSegment_leads {b e : Nat} {trace : List (Action FieldCall)}
    (hleads : f.fn.graph.Leads (Condition.holds fr debugging) (f.Inner segs) b trace e) :
    (newSegment f A).fn.graph.Leads (Condition.holds fr debugging)
      ((newSegment f A).Inner (segs ++ [⟨A, f.fn.graph.fresh + 1, []⟩])) b trace
      (if e = f.fn.exit then f.fn.graph.fresh + 1 else e) := by
  have hopen (b : Nat) (hb : f.fn.graph.fresh ≤ b) : f.fn.graph.term b = none :=
    Cfg.term_of_fresh_le hb
  have hon := (hleads.avoids (hopen _ (Nat.le_succ _))).create.create.replaceAllUses
    (x := f.fn.exit) (y := f.fn.graph.fresh + 1) fun hinner => hinner.1.1 rfl
  refine ((hon.finish _ _ ?_).finish _ _ ?_).mono fun c hc => ?_
  · simp [hopen]
  · rw [Cfg.term_finish_of_ne (by omega)]
    simp [hopen]
  · rw [inner_append]
    exact ⟨hc.1, by simpa [Segment.nodes] using hc.2⟩

theorem newSegment_dest (h : Layout f fr debugging pre segs) (hi : i ≤ segs.length) :
    (if f.dest fr segs i = f.fn.exit then f.fn.graph.fresh + 1 else f.dest fr segs i) =
      (newSegment f A).dest fr (segs ++ [⟨A, f.fn.graph.fresh + 1, []⟩]) i := by
  rcases Nat.lt_or_eq_of_le hi with hlt | rfl
  · rw [if_neg fun hdest => absurd (h.dest_eq_exit.mp hdest) (Nat.not_le_of_lt hlt), dest, dest,
      List.getElem?_append_left hlt]
    rfl
  · rw [if_pos (h.dest_eq_exit.mpr (Nat.le_refl _)), dest_of_getElem? List.getElem?_concat_length]
    rfl

/-- The new blocks end at the exit. -/
theorem newSegment_stop {P : Nat → Prop} :
    (newSegment f A).fn.graph.Leads (Condition.holds fr debugging) P (f.fn.graph.fresh + 1) []
      f.fn.exit := by
  have hlast : (newSegment f A).fn.graph.next (Condition.holds fr debugging)
      (f.fn.graph.fresh + 1) = some f.fn.exit := by
    rw [Cfg.next, newSegment, Cfg.term_finish_self (by simp)]
    rfl
  have hempty : (newSegment f A).fn.graph.body (f.fn.graph.fresh + 1) = [] := by
    rw [newSegment, Cfg.body_finish_self (by simp)]
  have hleads := Cfg.Leads.last (P := P) hlast
  rwa [hempty] at hleads

/-- A segment is one that was there, or the new one. -/
theorem getElem?_newSegment {s' : Segment} (hs : (segs ++ [s'])[i]? = some s) :
    i < segs.length ∧ segs[i]? = some s ∨ i = segs.length ∧ s = s' := by
  rcases Nat.lt_trichotomy i segs.length with hi | rfl | hi
  · rw [List.getElem?_append_left hi] at hs
    exact .inl ⟨hi, hs⟩
  · rw [List.getElem?_concat_length] at hs
    exact .inr ⟨rfl, (Option.some.inj hs).symm⟩
  · rw [List.getElem?_eq_none (by simp; omega)] at hs
    cases hs

/-- The blocks of a new automaton come last. -/
theorem newSegment_layout (h : Layout f fr debugging pre segs) (hA : A ∉ segs.map (·.automaton)) :
    Layout (newSegment f A) fr debugging pre (segs ++ [⟨A, f.fn.graph.fresh + 1, []⟩]) := by
  have hlt := h.exit_lt
  refine ⟨?_, ?_, ?_, h.newSegment_exit.1, h.newSegment_exit.2, ?_, ?_, ?_, ?_, ?_⟩
  · rw [newSegment, List.map_append, ← h.nextInstr]
    rfl
  · rw [List.map_append]
    refine List.nodup_append.mpr ⟨h.automata, List.nodup_singleton A, ?_⟩
    rintro B hB C hC rfl
    rw [List.map_singleton, List.mem_singleton] at hC
    rw [hC] at hB
    exact hA hB
  · exact Nat.lt_of_lt_of_eq (Nat.lt_add_right 2 hlt) fresh_newSegment.symm
  · rw [fresh_newSegment, List.forall_mem_append, List.forall_mem_singleton]
    refine ⟨fun s hs b hb => Nat.lt_add_right 2 (h.nodes_lt s hs b hb), fun b hb => ?_⟩
    obtain rfl : b = f.fn.graph.fresh + 1 := by simpa [Segment.nodes] using hb
    omega
  · rw [List.flatMap_append, ← List.cons_append]
    refine List.nodup_append.mpr ⟨h.nodes, by simp [Segment.nodes], ?_⟩
    rintro b hb c hc rfl
    obtain rfl : b = f.fn.graph.fresh + 1 := by simpa [Segment.nodes] using hc
    rcases List.mem_cons.mp hb with heq | hb
    · exact absurd (heq ▸ hlt) (by omega)
    · obtain ⟨s, hs, hb⟩ := List.mem_flatMap.mp hb
      exact absurd (h.nodes_lt s hs _ hb) (by omega)
  · rw [← h.newSegment_dest (Nat.zero_le _)]
    exact newSegment_leads h.entry
  · intro i s hs
    rcases getElem?_newSegment hs with ⟨hi, hs⟩ | ⟨rfl, rfl⟩
    · rw [← h.newSegment_dest hi]
      exact newSegment_leads (h.stops i s hs)
    · rw [dest_of_length_le (by simp)]
      exact newSegment_stop
  · intro i s hs p hp
    rcases getElem?_newSegment hs with ⟨_, hs⟩ | ⟨rfl, rfl⟩
    · obtain ⟨hback, hle, hleads⟩ := h.instrs i s hs p hp
      rw [← h.newSegment_dest hle]
      exact ⟨hback, by rw [List.length_append]; exact Nat.le_add_right_of_le hle,
        newSegment_leads hleads⟩
    · exact absurd hp List.not_mem_nil

end NewSegment

/-! ## A new symbol -/

section NewSymbol

theorem fresh_newSymbol {stop : Nat} : (newSymbol f stop p).fn.graph.fresh =
    f.fn.graph.fresh + 1 + p.tests.length := by
  simp [newSymbol, Cfg.fresh_guards]

theorem newSymbol_exit (h : Layout f fr debugging pre segs) (hinstr : p.instr = f.fn.graph.fresh)
    (stop : Nat) : (newSymbol f stop p).fn.graph.term f.fn.exit = some .ret ∧
      (newSymbol f stop p).fn.graph.body f.fn.exit = [] := by
  have hlt := h.exit_lt
  have hexit : f.fn.exit ≠ p.instr := by omega
  let g := f.fn.graph.create.replaceAllUses stop p.instr
  have hterm : g.term f.fn.exit = some .ret := by simp [g, h.exit_ret, Terminator.redirect]
  have hbody : g.body f.fn.exit = [] := by simp [g, h.exit_empty]
  have hfresh : f.fn.exit < g.fresh := by simp [g]; omega
  obtain ⟨hterm', hbody'⟩ := Cfg.block_guards p.instr stop (p.tests.map .matched) hfresh (.inr hterm)
  rw [newSymbol, Cfg.term_finish_of_ne hexit, Cfg.body_finish_of_ne hexit]
  exact ⟨hterm'.trans hterm, hbody'.trans hbody⟩

theorem newSymbol_inner (stop : Nat) (hb : f.Inner (l ++ s :: r) b) (hbn : b ≠ p.instr) :
    (newSymbol f stop p).Inner (l ++ s.push p :: r) b := by
  obtain ⟨hbe, hbs⟩ := hb
  rw [List.forall_mem_append, List.forall_mem_cons] at hbs
  refine ⟨hbe, ?_⟩
  rw [List.forall_mem_append, List.forall_mem_cons, Segment.nodes_push]
  refine ⟨hbs.1, ?_, hbs.2.2⟩
  rw [List.mem_append, List.mem_singleton, not_or]
  exact ⟨hbs.2.1, hbn⟩

/-- What led to the last block of the automaton leads to the blocks of the symbol, and back if the
store does not match it. -/
theorem newSymbol_leads (h : Layout f fr debugging pre (l ++ s :: r))
    (hinstr : p.instr = f.fn.graph.fresh) {b e : Nat} {trace : List (Action FieldCall)}
    (he : e < f.fn.graph.fresh)
    (hleads : f.fn.graph.Leads (Condition.holds fr debugging) (f.Inner (l ++ s :: r)) b trace e) :
    (newSymbol f s.stop p).fn.graph.Leads (Condition.holds fr debugging)
      ((newSymbol f s.stop p).Inner (l ++ s.push p :: r)) b trace
      (if e = s.stop then if p.matched fr then p.instr else s.stop else e) := by
  have hs : s ∈ l ++ s :: r := List.mem_append_right l List.mem_cons_self
  have hstop : s.stop < f.fn.graph.fresh := h.nodes_lt s hs _ List.mem_cons_self
  let g := f.fn.graph.create.replaceAllUses s.stop p.instr
  have hfresh : g.fresh = f.fn.graph.fresh + 1 := by simp [g]
  have hopen : (g.guards p.instr s.stop (p.tests.map .matched)).term p.instr = none := by
    have hterm : g.term p.instr = none := by simp [g, Cfg.term_of_fresh_le, hinstr]
    exact (Cfg.block_guards _ _ _ (by omega) (.inl hterm)).1.trans hterm
  have hon := (hleads.avoids (Cfg.term_of_fresh_le (Nat.le_of_eq hinstr.symm))).create.replaceAllUses
    (x := s.stop) (y := p.instr) fun hinner => hinner.1.2 s hs List.mem_cons_self
  have hguarded := hon.guards s.stop (p.tests.map .matched)
    (fun hinner => hinner.2 rfl) (by omega : s.stop ≠ p.instr) fun c hc => by
      rw [Cfg.fresh_replaceAllUses, Cfg.fresh_create] at hc
      refine ⟨⟨by have := h.exit_lt; omega, fun s' hs' hmem => ?_⟩, by omega⟩
      exact absurd (h.nodes_lt s' hs' c hmem) (by omega)
  have hfinished := (hguarded.finish [.instr p.key p.call] (.br f.fn.exit)
    hopen).mono fun c hc => newSymbol_inner s.stop hc.1 hc.2
  by_cases heq : e = s.stop
  · rw [if_pos heq, if_pos rfl, List.all_map] at hfinished
    rw [if_pos heq]
    exact hfinished
  · rw [if_neg heq, if_neg (by omega)] at hfinished
    rw [if_neg heq]
    exact hfinished

theorem newSymbol_dest (h : Layout f fr debugging pre (l ++ s :: r)) (i : Nat) :
    (if f.dest fr (l ++ s :: r) i = s.stop then if p.matched fr then p.instr else s.stop
      else f.dest fr (l ++ s :: r) i) =
      (newSymbol f s.stop p).dest fr (l ++ s.push p :: r) i := by
  have hat : (l ++ s :: r)[l.length]? = some s := by simp
  by_cases hi : i = l.length
  · have hat' : (l ++ s.push p :: r)[i]? = some (s.push p) := by simp [hi]
    rw [dest_of_getElem? hat', Segment.target_push]
    by_cases hfirst : s.first fr = none
    · rw [if_pos (h.dest_eq_stop.mpr ⟨hi, hfirst⟩), if_pos hfirst]
    · rw [if_neg fun hdest => hfirst (h.dest_eq_stop.mp hdest).2, if_neg hfirst, hi,
        dest_of_getElem? hat]
  · rw [if_neg fun hdest => hi (h.dest_eq_stop.mp hdest).1, dest, dest,
      getElem?_middle (x := s) (y := s.push p), if_neg hi]
    rfl

/-- The blocks of the symbol end at the exit as it is by then. -/
theorem newSymbol_instr {stop : Nat} (hinstr : p.instr = f.fn.graph.fresh) {P : Nat → Prop} :
    (newSymbol f stop p).fn.graph.Leads (Condition.holds fr debugging) P p.instr
      [.instr p.key p.call] f.fn.exit := by
  have hlt : p.instr < ((f.fn.graph.create.replaceAllUses stop p.instr).guards p.instr stop
      (p.tests.map .matched)).fresh := by
    rw [Cfg.fresh_guards, Cfg.fresh_replaceAllUses, Cfg.fresh_create]
    omega
  have hlast : (newSymbol f stop p).fn.graph.next (Condition.holds fr debugging) p.instr =
      some f.fn.exit := by
    rw [Cfg.next, newSymbol, Cfg.term_finish_self hlt]
    rfl
  have hbody : (newSymbol f stop p).fn.graph.body p.instr = [.instr p.key p.call] :=
    Cfg.body_finish_self hlt
  rw [← hbody]
  exact .last hlast

/-- A segment is as it was, but that the one of the automaton has the symbol too. -/
theorem getElem?_push (hs' : (l ++ s.push p :: r)[i]? = some s') :
    ∃ s₀, (l ++ s :: r)[i]? = some s₀ ∧ s'.stop = s₀.stop ∧
      ∀ q ∈ s'.symbols, q ∈ s₀.symbols ∨ q = p ∧ i = l.length := by
  by_cases hi : i = l.length
  · have hat : (l ++ s.push p :: r)[i]? = some (s.push p) := by simp [hi]
    rw [hat] at hs'
    cases hs'
    refine ⟨s, by simp [hi], rfl, fun q hq => ?_⟩
    rw [Segment.push, List.mem_append, List.mem_singleton] at hq
    exact hq.imp_right fun heq => ⟨heq, hi⟩
  · rw [getElem?_middle (x := s) (y := s.push p), if_neg hi] at hs'
    exact ⟨s', hs', rfl, fun q hq => .inl hq⟩

theorem newSymbol_nodes_lt (h : Layout f fr debugging pre (l ++ s :: r))
    (hinstr : p.instr = f.fn.graph.fresh) {stop : Nat} :
    ∀ s' ∈ l ++ s.push p :: r, ∀ b ∈ s'.nodes, b < (newSymbol f stop p).fn.graph.fresh := by
  have hold := h.nodes_lt
  rw [List.forall_mem_append, List.forall_mem_cons] at hold
  have hwider {b : Nat} (hb : b < f.fn.graph.fresh) : b < f.fn.graph.fresh + 1 + p.tests.length := by
    omega
  rw [fresh_newSymbol, List.forall_mem_append, List.forall_mem_cons, Segment.nodes_push]
  refine ⟨fun s' hs' b hb => hwider (hold.1 s' hs' b hb), fun b hb => ?_,
    fun s' hs' b hb => hwider (hold.2.2 s' hs' b hb)⟩
  rw [List.mem_append, List.mem_singleton] at hb
  rcases hb with hb | rfl
  · exact hwider (hold.2.1 b hb)
  · omega

theorem newSymbol_nodes (h : Layout f fr debugging pre (l ++ s :: r))
    (hinstr : p.instr = f.fn.graph.fresh) :
    (f.fn.exit :: (l ++ s.push p :: r).flatMap Segment.nodes).Nodup := by
  have hperm : (f.fn.exit :: (l ++ s.push p :: r).flatMap Segment.nodes).Perm
      (p.instr :: f.fn.exit :: (l ++ s :: r).flatMap Segment.nodes) := by
    have hmiddle : (f.fn.exit :: (l.flatMap Segment.nodes ++ s.nodes) ++
        p.instr :: r.flatMap Segment.nodes).Perm (p.instr :: (f.fn.exit ::
          (l.flatMap Segment.nodes ++ s.nodes) ++ r.flatMap Segment.nodes)) := List.perm_middle
    simpa [List.flatMap_append, Segment.nodes_push] using hmiddle
  refine hperm.nodup_iff.mpr (List.nodup_cons.mpr ⟨fun hmem => ?_, h.nodes⟩)
  have hlt := h.exit_lt
  rcases List.mem_cons.mp hmem with heq | hmem
  · omega
  · obtain ⟨s', hs', hmem⟩ := List.mem_flatMap.mp hmem
    exact absurd (h.nodes_lt s' hs' _ hmem) (by omega)

/-- The blocks of a new symbol come last among those of its automaton. -/
theorem newSymbol_layout (h : Layout f fr debugging pre (l ++ s :: r)) (p : FieldSymbol)
    (hinstr : p.instr = f.fn.graph.fresh) (hback : p.back = (l ++ s :: r).length) :
    Layout (newSymbol f s.stop p) fr debugging pre (l ++ s.push p :: r) := by
  have hexit := h.newSymbol_exit hinstr s.stop
  refine ⟨?_, ?_, ?_, hexit.1, hexit.2, h.newSymbol_nodes_lt hinstr, h.newSymbol_nodes hinstr, ?_, ?_,
    ?_⟩
  · rw [newSymbol, h.nextInstr]
    simp [Segment.push]
  · have hdistinct := h.automata
    simpa [Segment.push] using hdistinct
  · rw [fresh_newSymbol]
    exact Nat.lt_add_right _ (Nat.lt_succ_of_lt h.exit_lt)
  · rw [← h.newSymbol_dest 0]
    exact h.newSymbol_leads hinstr h.dest_lt h.entry
  · intro i s' hs'
    obtain ⟨s₀, hs₀, hstop, _⟩ := getElem?_push hs'
    rw [hstop, ← h.newSymbol_dest (i + 1)]
    exact h.newSymbol_leads hinstr h.dest_lt (h.stops i s₀ hs₀)
  · intro i s' hs' q hq
    obtain ⟨s₀, hs₀, _, hsymbols⟩ := getElem?_push hs'
    have hlen : (l ++ s.push p :: r).length = (l ++ s :: r).length := by simp
    rw [hlen]
    rcases hsymbols q hq with hq | ⟨rfl, rfl⟩
    · obtain ⟨hback', hle, hleads⟩ := h.instrs i s₀ hs₀ q hq
      rw [← h.newSymbol_dest q.back]
      exact ⟨hback', hle, h.newSymbol_leads hinstr h.dest_lt hleads⟩
    · rw [hback, dest_of_length_le (Nat.le_of_eq hlen)]
      exact ⟨by simp, Nat.le_refl _, newSymbol_instr hinstr⟩

end NewSymbol

/-! ## The code of a symbol -/

theorem find_eq_none (h : Layout f fr debugging pre segs) :
    f.find A = none ↔ A ∉ segs.map (·.automaton) := by
  rw [FieldFn.find, h.nextInstr, Option.map_eq_none_iff, List.find?_eq_none]
  simp

theorem find_eq_some (h : Layout f fr debugging pre segs) {stop : Nat} (hA : f.find A = some stop) :
    ∃ l s r, segs = l ++ s :: r ∧ s.automaton = A ∧ s.stop = stop := by
  rw [FieldFn.find, h.nextInstr] at hA
  obtain ⟨q, hq, rfl⟩ := Option.map_eq_some_iff.mp hA
  obtain ⟨s, hs, rfl⟩ := List.mem_map.mp (List.mem_of_find?_eq_some hq)
  obtain ⟨l, r, rfl⟩ := List.append_of_mem hs
  have hid := List.find?_some hq
  rw [decide_eq_true_eq] at hid
  exact ⟨l, s, r, rfl, hid, rfl⟩

/-- The blocks of a symbol are put behind those that its automaton has, or begin a new segment. -/
theorem insertCode (h : Layout f fr debugging pre segs) (a : Automaton) (symbol : Nat) (c : Code) :
    ∃ l s r p, (segs = l ++ s :: r ∨
        segs = l ∧ r = [] ∧ s.symbols = [] ∧ a.assertion.identifier ∉ segs.map (·.automaton)) ∧
      s.automaton = a.assertion.identifier ∧ p.tests = c.tests ∧
      p.call = ⟨a.assertion.identifier, a.assertion.context, symbol⟩ ∧
      p.back = (l ++ s :: r).length ∧
      Layout (f.insertCode a symbol c) fr debugging pre (l ++ s.push p :: r) := by
  let call : FieldCall := ⟨a.assertion.identifier, a.assertion.context, symbol⟩
  cases hfind : f.find a.assertion.identifier with
  | some stop =>
    obtain ⟨l, s, r, rfl, hid, rfl⟩ := h.find_eq_some hfind
    let p : FieldSymbol := ⟨c.tests, f.fn.graph.fresh, c.key, call, (l ++ s :: r).length⟩
    have hlayout := h.newSymbol_layout p rfl rfl
    refine ⟨l, s, r, p, .inl rfl, hid, rfl, rfl, rfl, ?_⟩
    rwa [FieldFn.insertCode, FieldFn.nextInstrBlock, hfind]
  | none =>
    have hnew := h.find_eq_none.mp hfind
    let s : Segment := ⟨a.assertion.identifier, f.fn.graph.fresh + 1, []⟩
    let p : FieldSymbol := ⟨c.tests, (newSegment f a.assertion.identifier).fn.graph.fresh, c.key, call,
      (segs ++ [s]).length⟩
    have hlayout := (h.newSegment_layout hnew).newSymbol_layout (l := segs) (s := s) (r := []) p rfl rfl
    refine ⟨segs, s, [], p, .inr ⟨rfl, rfl, rfl, hnew⟩, rfl, rfl, rfl, rfl, ?_⟩
    rwa [FieldFn.insertCode, nextInstrBlock_of_none hfind]

/-! ## A store is done with one automaton after the other -/

theorem ends (h : Layout f fr debugging pre segs)
    (hback : ∀ (i : Nat) (s : Segment), segs[i]? = some s → ∀ p, s.first fr = some p → p.back = i + 1)
    (i : Nat) : f.fn.graph.Ends (Condition.holds fr debugging) (f.dest fr segs i)
      (((segs.drop i).filterMap (Segment.first fr)).map fun p => .instr p.key p.call) f.fn.exit := by
  induction hk : segs.length - i generalizing i with
  | zero =>
    have hend : f.fn.graph.Ends (Condition.holds fr debugging) f.fn.exit
        (f.fn.graph.body f.fn.exit) f.fn.exit := Cfg.ends_of_ret h.exit_ret
    rw [h.exit_empty] at hend
    rwa [dest_of_length_le (by omega), List.drop_eq_nil_of_le (by omega)]
  | succ k ih =>
    have hlt : i < segs.length := by omega
    have hs := List.getElem?_eq_getElem hlt
    have hrest := ih (i + 1) (by omega)
    rw [dest_of_getElem? hs, List.drop_eq_getElem_cons hlt, Segment.target]
    cases hfirst : segs[i].first fr with
    | none =>
      rw [List.filterMap_cons_none hfirst]
      exact (h.stops i _ hs).ends hrest
    | some p =>
      rw [List.filterMap_cons_some hfirst, List.map_cons]
      have hleads := (h.instrs i _ hs p (List.mem_of_find?_eq_some hfirst)).2.2
      rw [hback i _ hs p hfirst] at hleads
      exact hleads.ends hrest

end Layout

/-! ## The symbols of the roots -/

/-- The symbols that have been put into the function, with their automata. -/
abbrev Symbols := List (Automaton × (FieldAssignment × Nat))

/-- The call for a symbol. -/
def callFor (x : Automaton × (FieldAssignment × Nat)) : FieldCall :=
  ⟨x.1.assertion.identifier, x.1.assertion.context, x.2.2⟩

/-- The segments hold the symbols that have been put into the function; of those of an automaton that
a store matches, the first was put there before any other automaton followed. -/
structure Built (M : Manifest) (f : FieldFn) (fr : Frame) (debugging : Bool)
    (pre : List (Action FieldCall)) (done : Symbols) (segs : List Segment) : Prop where
  layout : Layout f fr debugging pre segs
  found : ∀ x ∈ done, M.findAutomaton x.1.assertion.identifier = some x.1
  sound : ∀ s ∈ segs, s.symbols ≠ [] ∧ ∀ p ∈ s.symbols, ∃ x ∈ done,
    x.1.assertion.identifier = s.automaton ∧ p.call = callFor x ∧
      p.matched fr = storeMatches fr x.2.1
  complete : ∀ x ∈ done, ∃ s ∈ segs, s.automaton = x.1.assertion.identifier ∧
    ∃ p ∈ s.symbols, p.matched fr = storeMatches fr x.2.1
  back : ∀ (i : Nat) (s : Segment), segs[i]? = some s → ∀ p, s.first fr = some p → p.back = i + 1

/-- No other automaton follows. -/
def Last (A : Identifier) (segs : List Segment) : Prop := ∀ s ∈ segs.dropLast, s.automaton ≠ A

theorem storeMatches_eq {assign : FieldAssignment} {ty : Ty} {c : Code}
    (h : Instrumenter.appendInstrumentation assign ty = .ok c) :
    c.tests.all (Test.holds fr) = storeMatches fr assign := by
  rw [storeMatches]
  unfold Instrumenter.appendInstrumentation at h
  cases hvalue : assign.value.type with
  | constant =>
    rw [hvalue] at h
    cases ty with
    | int width =>
      obtain ⟨key, _, h⟩ := bind_eq_ok.mp h
      cases h
      rw [List.all_cons, List.all_nil, Bool.and_true, if_pos rfl]
    | ptr elem => cases h
    | other => cases h
  | «variable» =>
    rw [hvalue] at h
    obtain ⟨key, _, h⟩ := bind_eq_ok.mp h
    cases h
    rfl
  | any | indirect | field =>
    rw [hvalue] at h
    cases h

/-- Where a symbol is put: behind those of its automaton, or into a new segment at the end. -/
structure Slot (A : Identifier) (segs l : List Segment) (s : Segment) (r : List Segment) : Prop where
  others : ∀ s', s' ∈ l ∨ s' ∈ r → s' ∈ segs
  known : s ∈ segs ∨ s.symbols = []
  all : ∀ s' ∈ segs, s' ∈ l ∨ s' = s ∨ s' ∈ r
  elsewhere : ∀ (t : Segment) (i : Nat), i ≠ l.length → (l ++ t :: r)[i]? = segs[i]?
  here : s.symbols = [] ∨ segs[l.length]? = some s
  last : Last A segs → r = [] ∧ ∀ s' ∈ l, s'.automaton ≠ A

theorem slot_known (hid : s.automaton = A) : Slot A (l ++ s :: r) l s r where
  others s' hs' := by
    rw [List.mem_append, List.mem_cons]
    exact hs'.imp_right .inr
  known := .inl (List.mem_append_right l List.mem_cons_self)
  all s' hs' := by rwa [List.mem_append, List.mem_cons] at hs'
  elsewhere t i hi := by rw [getElem?_middle (x := s), if_neg hi]
  here := .inr (by simp)
  last hlast := by
    cases r with
    | nil =>
      refine ⟨rfl, fun s' hs' => hlast s' ?_⟩
      rwa [List.dropLast_concat]
    | cons s' r =>
      refine absurd hid (hlast s ?_)
      rw [List.dropLast_append_cons, List.dropLast_cons_cons]
      exact List.mem_append_right l List.mem_cons_self

theorem slot_new (hempty : s.symbols = []) (hnew : A ∉ segs.map (·.automaton)) :
    Slot A segs segs s [] where
  others s' hs' := hs'.resolve_right List.not_mem_nil
  known := .inr hempty
  all s' hs' := .inl hs'
  elsewhere t i hi := by
    rcases Nat.lt_or_gt_of_ne hi with hi | hi
    · rw [List.getElem?_append_left hi]
    · rw [List.getElem?_eq_none (Nat.le_of_lt hi), List.getElem?_eq_none (by simp; omega)]
  here := .inl hempty
  last _ := ⟨rfl, fun s' hs' heq => hnew (List.mem_map.mpr ⟨s', hs', heq⟩)⟩

/-- The first matching symbol of a segment is the one from before, or the new one, and then nothing
in its segment matched before. -/
theorem Slot.first_cases (hslot : Slot A segs l s r) {i : Nat} {s' : Segment} {p q : FieldSymbol}
    (hs' : (l ++ s.push p :: r)[i]? = some s') (hq : s'.first fr = some q) :
    (∃ s₀, segs[i]? = some s₀ ∧ s₀.first fr = some q) ∨
      i = l.length ∧ q = p ∧ p.matched fr = true ∧ s.first fr = none := by
  by_cases hi : i = l.length
  · obtain rfl : s.push p = s' := by simpa [hi] using hs'
    rw [Segment.first_push] at hq
    cases hfirst : s.first fr with
    | some q' =>
      rw [hfirst, Option.some_or] at hq
      cases hq
      rcases hslot.here with hempty | hs
      · rw [Segment.first, hempty] at hfirst
        cases hfirst
      · rw [← hi] at hs
        exact .inl ⟨s, hs, hfirst⟩
    | none =>
      rw [hfirst, Option.none_or] at hq
      split at hq
      · next hp =>
        cases hq
        exact .inr ⟨hi, rfl, hp, rfl⟩
      · cases hq
  · rw [hslot.elsewhere _ i hi] at hs'
    exact .inl ⟨s', hs', hq⟩

/-- A symbol that is there already, in the segment of its automaton, leaves nothing new to match. -/
theorem Built.first_ne_none {M : Manifest} {done : Symbols} {x : Automaton × (FieldAssignment × Nat)}
    (h : Built M f fr debugging pre done segs)
    (hslot : Slot x.1.assertion.identifier segs l s r) (hid : s.automaton = x.1.assertion.identifier)
    (hnodup : ((l ++ s :: r).map (·.automaton)).Nodup) (hx : x ∈ done)
    (hmatches : storeMatches fr x.2.1 = true) : s.first fr ≠ none := by
  intro hnone
  obtain ⟨s₀, hs₀, hid₀, q, hq, hsame⟩ := h.complete x hx
  rw [List.map_append, List.map_cons, List.nodup_middle, List.nodup_cons, ← List.map_append,
    List.mem_map] at hnodup
  have hother : s₀ ∉ l ++ r := fun hmem => hnodup.1 ⟨s₀, hmem, hid₀.trans hid.symm⟩
  rw [List.mem_append, not_or] at hother
  obtain rfl := ((hslot.all s₀ hs₀).resolve_left hother.1).resolve_right hother.2
  refine List.find?_eq_none.mp hnone q hq ?_
  rw [hsame, hmatches]

/-- One symbol: it is there already, or no other automaton has followed its own. -/
theorem Built.append {M : Manifest} {done : Symbols} {f' : FieldFn}
    {x : Automaton × (FieldAssignment × Nat)} (h : Built M f fr debugging pre done segs)
    (hx : M.findAutomaton x.1.assertion.identifier = some x.1)
    (hplace : x ∈ done ∨ Last x.1.assertion.identifier segs)
    (happend : f.appendInstrumentation x.1 x.2 = .ok f') :
    ∃ segs', Built M f' fr debugging pre (done ++ [x]) segs' ∧
      (Last x.1.assertion.identifier segs → Last x.1.assertion.identifier segs') := by
  obtain ⟨c, hc, happend⟩ := bind_eq_ok.mp happend
  cases happend
  obtain ⟨l, s, r, p, hsegs, hid, htests, hcall, hback, hlayout⟩ :=
    h.layout.insertCode x.1 x.2.2 c
  have hslot : Slot x.1.assertion.identifier segs l s r := by
    rcases hsegs with rfl | ⟨rfl, rfl, hempty, hnew⟩
    · exact slot_known hid
    · exact slot_new hempty hnew
  have hmatched : p.matched fr = storeMatches fr x.2.1 := by
    rw [FieldSymbol.matched, htests, storeMatches_eq hc]
  have hmore {y : Automaton × (FieldAssignment × Nat)} (hy : y ∈ done) : y ∈ done ++ [x] :=
    List.mem_append_left [x] hy
  refine ⟨l ++ s.push p :: r, ⟨hlayout, ?_, ?_, ?_, ?_⟩, fun hlast => ?_⟩
  · rw [List.forall_mem_append, List.forall_mem_singleton]
    exact ⟨h.found, hx⟩
  · have hold (s' : Segment) (hs' : s' ∈ segs) (q : FieldSymbol) (hq : q ∈ s'.symbols) :
        ∃ y ∈ done ++ [x], y.1.assertion.identifier = s'.automaton ∧ q.call = callFor y ∧
          q.matched fr = storeMatches fr y.2.1 := by
      obtain ⟨y, hy, hfacts⟩ := (h.sound s' hs').2 q hq
      exact ⟨y, hmore hy, hfacts⟩
    rw [List.forall_mem_append, List.forall_mem_cons]
    refine ⟨fun s' hs' => ⟨(h.sound s' (hslot.others s' (.inl hs'))).1, hold s' (hslot.others s' (.inl hs'))⟩,
      ⟨by simp [Segment.push], fun q hq => ?_⟩,
      fun s' hs' => ⟨(h.sound s' (hslot.others s' (.inr hs'))).1, hold s' (hslot.others s' (.inr hs'))⟩⟩
    rw [Segment.push, List.mem_append, List.mem_singleton] at hq
    rcases hq with hq | rfl
    · rcases hslot.known with hs | hempty
      · exact hold s hs q hq
      · rw [hempty] at hq
        exact absurd hq List.not_mem_nil
    · exact ⟨x, List.mem_append_right done (List.mem_singleton_self x), hid.symm, hcall, hmatched⟩
  · rw [List.forall_mem_append, List.forall_mem_singleton]
    refine ⟨fun y hy => ?_, s.push p, List.mem_append_right l List.mem_cons_self, hid, p,
      List.mem_append_right _ (List.mem_singleton_self p), hmatched⟩
    obtain ⟨s₀, hs₀, hid₀, q, hq, hmatched₀⟩ := h.complete y hy
    rcases hslot.all s₀ hs₀ with hs₀ | rfl | hs₀
    · exact ⟨s₀, List.mem_append_left _ hs₀, hid₀, q, hq, hmatched₀⟩
    · exact ⟨s₀.push p, List.mem_append_right l List.mem_cons_self, hid₀, q,
        List.mem_append_left _ hq, hmatched₀⟩
    · exact ⟨s₀, List.mem_append_right l (List.mem_cons_of_mem _ hs₀), hid₀, q, hq, hmatched₀⟩
  · intro i s' hs' q hq
    rcases hslot.first_cases hs' hq with ⟨s₀, hs₀, hq⟩ | ⟨rfl, rfl, hp, hfirst⟩
    · exact h.back i s₀ hs₀ q hq
    · obtain rfl : r = [] := by
        rcases hplace with hx | hlast
        · -- it is matched by the symbol that is there already
          refine absurd hfirst (h.first_ne_none hslot hid ?_ hx (hmatched.symm.trans hp))
          simpa [Segment.push] using hlayout.automata
        · exact (hslot.last hlast).1
      rw [hback]
      simp
  · obtain ⟨rfl, hl⟩ := hslot.last hlast
    intro s' hs'
    rw [List.dropLast_concat] at hs'
    exact hl s' hs'

/-- The symbols of an automaton, one after the other. -/
theorem Built.appendAll {M : Manifest} {a : Automaton} {syms : List (FieldAssignment × Nat)}
    {done : Symbols} {f' : FieldFn} (h : Built M f fr debugging pre done segs)
    (ha : M.findAutomaton a.assertion.identifier = some a)
    (hplace : (∀ sym ∈ syms, (a, sym) ∈ done) ∨ Last a.assertion.identifier segs)
    (happend : syms.foldlM (appendInstrumentation a) f = .ok f') :
    ∃ segs', Built M f' fr debugging pre (done ++ syms.map fun sym => (a, sym)) segs' := by
  induction syms generalizing f done segs with
  | nil =>
    cases happend
    exact ⟨segs, by rwa [List.map_nil, List.append_nil]⟩
  | cons sym syms ih =>
    rw [List.foldlM_cons] at happend
    obtain ⟨f₁, hhead, happend⟩ := bind_eq_ok.mp happend
    rw [List.forall_mem_cons] at hplace
    obtain ⟨segs₁, h₁, hlast⟩ := h.append (x := (a, sym)) ha (hplace.imp_left And.left) hhead
    obtain ⟨segs₂, h₂⟩ := ih h₁ (hplace.imp (fun hall sym hsym => List.mem_append_left _ (hall.2 sym hsym))
      hlast) happend
    refine ⟨segs₂, ?_⟩
    rwa [List.map_cons, List.append_cons]

/-- The symbols of the roots. -/
def rootSymbols (it : Iteration) (field : String) (M : Manifest) (uses : List Usage) : Symbols :=
  uses.flatMap fun use =>
    match M.findAutomaton use.identifier with
    | some a => (fieldSymbols it field a).map fun sym => (a, sym)
    | none => []

theorem mem_rootSymbols {it : Iteration} {field : String} {M : Manifest} {uses : List Usage}
    {x : Automaton × (FieldAssignment × Nat)} : x ∈ rootSymbols it field M uses ↔
      ∃ use ∈ uses, M.findAutomaton use.identifier = some x.1 ∧ x.2 ∈ fieldSymbols it field x.1 := by
  rw [rootSymbols, List.mem_flatMap]
  refine exists_congr fun use => and_congr_right fun _ => ?_
  cases M.findAutomaton use.identifier with
  | none => simp
  | some a =>
    simp only [List.mem_map, Option.some.injEq]
    constructor
    · rintro ⟨sym, hsym, rfl⟩
      exact ⟨rfl, hsym⟩
    · rintro ⟨rfl, hsym⟩
      exact ⟨x.2, hsym, rfl⟩

theorem Built.roots {it : Iteration} {field : String} {M : Manifest} {uses : List Usage}
    {f' : FieldFn} (before : List Usage) (h : Built M f fr debugging pre (rootSymbols it field M before) segs)
    (hbuild : uses.foldlM (fun f use =>
      match M.findAutomaton use.identifier with
      | some a => f.buildInstrumentation it field a
      | none => .error .noAutomaton) f = .ok f') :
    ∃ segs', Built M f' fr debugging pre (rootSymbols it field M (before ++ uses)) segs' := by
  induction uses generalizing f before segs with
  | nil =>
    cases hbuild
    exact ⟨segs, by rwa [List.append_nil]⟩
  | cons use uses ih =>
    rw [List.foldlM_cons] at hbuild
    obtain ⟨f₁, hhead, hbuild⟩ := bind_eq_ok.mp hbuild
    cases hfind : M.findAutomaton use.identifier with
    | none =>
      rw [hfind] at hhead
      cases hhead
    | some a =>
      rw [hfind] at hhead
      have hid : a.assertion.identifier = use.identifier := by
        have := List.find?_some hfind
        rwa [decide_eq_true_eq] at this
      have hsymbols : rootSymbols it field M (before ++ [use]) =
          rootSymbols it field M before ++ (fieldSymbols it field a).map fun sym => (a, sym) := by
        rw [rootSymbols, List.flatMap_append, List.flatMap_singleton, hfind]
        rfl
      have hplace : (∀ sym ∈ fieldSymbols it field a, (a, sym) ∈ rootSymbols it field M before) ∨
          Last a.assertion.identifier segs := by
        by_cases hbefore : ∃ use' ∈ before, M.findAutomaton use'.identifier = some a
        · obtain ⟨use', huse', hfind'⟩ := hbefore
          exact .inl fun sym hsym => mem_rootSymbols.mpr ⟨use', huse', hfind', hsym⟩
        · refine .inr fun s hs hsid => hbefore ?_
          obtain ⟨hne, hsound⟩ := h.sound s (List.mem_of_mem_dropLast hs)
          obtain ⟨p, hp⟩ := List.exists_mem_of_ne_nil _ hne
          obtain ⟨x, hx, hxid, _⟩ := hsound p hp
          have hxa := h.found x hx
          rw [hxid, hsid, hid, hfind, Option.some_inj] at hxa
          obtain ⟨use', huse', hfind', _⟩ := mem_rootSymbols.mp hx
          exact ⟨use', huse', hxa ▸ hfind'⟩
      obtain ⟨segs₁, h₁⟩ := h.appendAll (hid ▸ hfind) hplace hhead
      rw [← hsymbols] at h₁
      obtain ⟨segs₂, h₂⟩ := ih _ h₁ hbuild
      refine ⟨segs₂, ?_⟩
      rwa [List.append_cons]

theorem create_built (M : Manifest) (suppressDebugPrintf : Bool) (ty : Ty) (fr : Frame)
    (debugging : Bool) : Built M (create suppressDebugPrintf ty) fr debugging
      (if !suppressDebugPrintf && debugging then [.printf] else []) [] [] := by
  have h : (BlockFn.create suppressDebugPrintf [.ptr .other, ty, .ptr ty] : BlockFn FieldCall).Chain
      (Condition.holds fr debugging) (if !suppressDebugPrintf && debugging then [.printf] else []) :=
    BlockFn.create_chain suppressDebugPrintf [.ptr .other, ty, .ptr ty]
  refine ⟨⟨rfl, List.nodup_nil, h.exit_lt, h.exit_ret, h.exit_empty, nofun,
    List.nodup_singleton _, ?_, nofun, nofun⟩, nofun, nofun, nofun, nofun⟩
  exact h.leads.mono fun b hb => ⟨hb, nofun⟩

/-- The calls of a store: of each automaton, the first symbol that it matches. -/
theorem Built.calls {M : Manifest} {done : Symbols} (h : Built M f fr debugging pre done segs)
    (hpre : pre = [] ∨ pre = [.printf]) :
    f.Calls fr debugging ((segs.filterMap (Segment.first fr)).map (·.call)) := by
  refine ⟨_, h.layout.entry.ends (h.layout.ends h.back 0), ?_⟩
  have hnone : pre.filterMap
      (fun | .printf => none | .instr _ call => some call : Action FieldCall → Option FieldCall) = [] := by
    rcases hpre with rfl | rfl <;> rfl
  rw [List.filterMap_append, hnone, List.nil_append, List.drop_zero, List.filterMap_map]
  exact congrFun List.filterMap_eq_map _

theorem mem_calls {c : FieldCall} : c ∈ (segs.filterMap (Segment.first fr)).map (·.call) ↔
    ∃ s ∈ segs, ∃ p, s.first fr = some p ∧ p.call = c := by
  simp only [List.mem_map, List.mem_filterMap]
  constructor
  · rintro ⟨p, ⟨s, hs, hp⟩, hc⟩
    exact ⟨s, hs, p, hp, hc⟩
  · rintro ⟨s, hs, p, hp, hc⟩
    exact ⟨p, ⟨s, hs, hp⟩, hc⟩

/-- Of an automaton, one symbol is called. -/
theorem Built.call_unique {M : Manifest} {done : Symbols} (h : Built M f fr debugging pre done segs)
    {c c' : FieldCall} (hc : c ∈ (segs.filterMap (Segment.first fr)).map (·.call))
    (hc' : c' ∈ (segs.filterMap (Segment.first fr)).map (·.call))
    (hsame : c.automaton = c'.automaton) : c = c' := by
  have hsegment (s : Segment) (hs : s ∈ segs) (p : FieldSymbol) (hp : s.first fr = some p) :
      p.call.automaton = s.automaton := by
    obtain ⟨x, _, hid, hcall, _⟩ := (h.sound s hs).2 p (List.mem_of_find?_eq_some hp)
    rw [hcall]
    exact hid
  obtain ⟨s, hs, p, hp, rfl⟩ := mem_calls.mp hc
  obtain ⟨s', hs', p', hp', rfl⟩ := mem_calls.mp hc'
  rw [hsegment s hs p hp, hsegment s' hs' p' hp'] at hsame
  obtain rfl := List.inj_on_of_nodup_map h.layout.automata hs hs' hsame
  rw [hp] at hp'
  cases hp'
  rfl

/-- A store to a field calls `tesla_update_state` for every symbol of every root automaton that it
matches if and only if it matches no two symbols of one automaton. -/
theorem buildRoots_reaches (it : Iteration) (field : String) (M : Manifest)
    (suppressDebugPrintf debugging : Bool) (ty : Ty) (f : FieldFn) (fr : Frame)
    (h : (create suppressDebugPrintf ty).buildRoots it field M = .ok f) :
    ∃ calls, f.Calls fr debugging calls ∧
      ((∀ use ∈ M.roots, ∀ a, M.findAutomaton use.identifier = some a →
          ∀ sym ∈ fieldSymbols it field a, storeMatches fr sym.1 = true → callFor (a, sym) ∈ calls) ↔
        ∀ use ∈ M.roots, ∀ a, M.findAutomaton use.identifier = some a →
          ∀ sym ∈ fieldSymbols it field a, ∀ sym' ∈ fieldSymbols it field a,
            storeMatches fr sym.1 = true → storeMatches fr sym'.1 = true → sym.2 = sym'.2) := by
  obtain ⟨segs, hbuilt⟩ := (create_built M suppressDebugPrintf ty fr debugging).roots
    [] h
  rw [List.nil_append] at hbuilt
  refine ⟨_, hbuilt.calls (by split <;> simp), ?_, ?_⟩
  · intro hall use huse a ha sym hsym sym' hsym' hm hm'
    have heq := hbuilt.call_unique (hall use huse a ha sym hsym hm) (hall use huse a ha sym' hsym' hm')
      rfl
    exact congrArg FieldCall.symbol heq
  · intro hunique use huse a ha sym hsym hm
    obtain ⟨s, hs, hid, p, hp, hmatched⟩ :=
      hbuilt.complete (a, sym) (mem_rootSymbols.mpr ⟨use, huse, ha, hsym⟩)
    obtain ⟨q, hq⟩ : ∃ q, s.first fr = some q :=
      Option.isSome_iff_exists.mp (List.find?_isSome.mpr ⟨p, hp, hmatched.trans hm⟩)
    obtain ⟨x, hx, hxid, hcall, hxm⟩ := (hbuilt.sound s hs).2 q (List.mem_of_find?_eq_some hq)
    have hxa : x.1 = a := by
      have hfound := hbuilt.found x hx
      rw [hxid, hid, hbuilt.found (a, sym) (mem_rootSymbols.mpr ⟨use, huse, ha, hsym⟩)] at hfound
      exact (Option.some.inj hfound).symm
    obtain ⟨_, _, _, hxsym⟩ := mem_rootSymbols.mp hx
    rw [hxa] at hxsym
    have hsymbol := hunique use huse a ha x.2 hxsym sym hsym
      (hxm.symm.trans (List.find?_some hq)) hm
    refine mem_calls.mpr ⟨s, hs, q, hq, ?_⟩
    rw [hcall, callFor, callFor, hxa, hsymbol]

/-! ## Two references to a structure -/

/-- `p->refs += n`. -/
def increment (base : String) (n : Int) : FieldAssignment where
  field := .mk "object" (.mk .variable (some 0) (some base) none none none none none) "refs" 0
  operation := .plusEqual
  value := theValue n
  strict := none

/-- Two assignments, one after the other. -/
def countingAutomaton (x y : FieldAssignment) : Automaton where
  assertion := ⟨⟨some "counting", none⟩, .global, .nullExpr, []⟩
  graph := ⟨[], [⟨0, 1, .fieldAssign x, false, false, false⟩,
    ⟨1, 2, .fieldAssign y, false, false, false⟩], []⟩

def counting (x y : FieldAssignment) : Manifest where
  automata := [countingAutomaton x y]
  roots := [⟨⟨some "counting", none⟩, none, none⟩]
  lifetimes := []

/-- The field is 0 and becomes 1. -/
def becomesOne : Frame := ⟨[.ptr .other 0, .int 32 1, .ptr (.int 32) 0], zeroMemory, fun _ => 0⟩

/-- `p->refs += 1`, `q->refs += 2`: the store is one of them. -/
theorem buildRoots_reaches_one : ∃ f calls,
    (create true (.int 32)).buildRoots .insertion "object.refs"
      (counting (increment "p" 1) (increment "q" 2)) = .ok f ∧ f.Calls becomesOne false calls ∧
    ∀ use ∈ (counting (increment "p" 1) (increment "q" 2)).roots, ∀ a,
      (counting (increment "p" 1) (increment "q" 2)).findAutomaton use.identifier = some a →
        ∀ sym ∈ fieldSymbols .insertion "object.refs" a, storeMatches becomesOne sym.1 = true →
          callFor (a, sym) ∈ calls := by
  obtain ⟨f, hf⟩ : ∃ f, (create true (.int 32)).buildRoots .insertion "object.refs"
    (counting (increment "p" 1) (increment "q" 2)) = .ok f := ⟨_, rfl⟩
  obtain ⟨calls, hcalls, hiff⟩ := buildRoots_reaches .insertion "object.refs" _ true false (.int 32) f
    becomesOne hf
  refine ⟨f, calls, hf, hcalls, hiff.mpr ?_⟩
  intro use huse a ha sym hsym sym' hsym' hm hm'
  cases List.mem_singleton.mp huse
  cases ha
  have hsymbols : fieldSymbols .insertion "object.refs"
      (countingAutomaton (increment "p" 1) (increment "q" 2)) =
        [(increment "p" 1, 0), (increment "q" 2, 1)] := by decide
  rw [hsymbols] at hsym hsym'
  have honly : ∀ sym ∈ [(increment "p" 1, 0), (increment "q" 2, 1)],
      storeMatches becomesOne sym.1 = true → sym.2 = 0 := by decide
  rw [honly sym hsym hm, honly sym' hsym' hm']

/-- The function for `p->refs += 1` and `q->refs += 1`. -/
def countingFn : FieldFn :=
  ((create true (.int 32)).buildRoots .insertion "object.refs"
    (counting (increment "p" 1) (increment "q" 1))).toOption.getD (create true (.int 32))

/-- The store is both, and the second is not called. -/
theorem buildRoots_skips : ∃ a, (create true (.int 32)).buildRoots .insertion "object.refs"
      (counting (increment "p" 1) (increment "q" 1)) = .ok countingFn ∧
    (counting (increment "p" 1) (increment "q" 1)).findAutomaton ⟨some "counting", none⟩ = some a ∧
    fieldSymbols .insertion "object.refs" a = [(increment "p" 1, 0), (increment "q" 1, 1)] ∧
    storeMatches becomesOne (increment "p" 1) = true ∧
    storeMatches becomesOne (increment "q" 1) = true ∧
    countingFn.Calls becomesOne false [callFor (a, (increment "p" 1, 0))] ∧
    callFor (a, (increment "q" 1, 1)) ∉ [callFor (a, (increment "p" 1, 0))] := by
  refine ⟨countingAutomaton (increment "p" 1) (increment "q" 1), rfl, rfl, by decide, by decide,
    by decide, ?_, by decide⟩
  obtain ⟨r, hr, hexit, hcalls⟩ : ∃ r, countingFn.fn.graph.run (Condition.holds becomesOne false) 9
      countingFn.fn.entry = some r ∧ r.2 = countingFn.fn.exit ∧
        r.1.filterMap (fun | .printf => none | .instr _ call => some call) =
          [callFor (countingAutomaton (increment "p" 1) (increment "q" 1), (increment "p" 1, 0))] :=
    ⟨_, rfl, rfl, rfl⟩
  exact ⟨r.1, hexit ▸ Cfg.ends_of_run hr, hcalls⟩

end FieldFn

end Tesla.Instrumenter
