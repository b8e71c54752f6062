/-
# `Tesla.Instrumenter.Assertion` — the values at an assertion site

Where a function reaches an inline assertion, `AssertionSiteInstrumenter` calls an
instrumentation function with the values of the variables that the automaton refers to:

    ValuesInScope                     `SiteScope.valuesInScope`
    BaseName (..)                     `baseName`
    GetArgumentValue (.., true)       `siteArgumentValue`
    CollectArgs (..)                  `collectArgs`
    AddInstrumentation (Automaton)    `assertionPatterns`, `addAssertion`

The vector of values is sized by a running maximum over the indices of the arguments that
are not free, and filled by index; the patterns are those arguments, one after the other.
The two agree when no free argument comes before one that is not (`FreeLast`), and
otherwise the last value is written behind the end of the vector.
-/
import Tesla.Instrumenter.Translation
import Tesla.Lib.Ensures

namespace Tesla.Instrumenter

open Automata Lib

/-! ## What is in scope -/

/-- An `llvm::Value` at the assertion. -/
inductive SiteValue where
  | global (name : String)
  | param (i : Nat)
  /-- A load from an `alloca` of the entry block. -/
  | load (name : String)
  /-- A load from the field of a structure. -/
  | field (base : SiteValue) (index : Int)
deriving DecidableEq, Repr

/-- The function that an assertion is in, and its module. -/
structure SiteScope where
  globals : List String
  params : List String
  /-- The instructions `alloca` that open the entry block. -/
  allocas : List String

/-- `ValuesInScope`; a name that comes again takes the place of the one before. -/
def SiteScope.valuesInScope (s : SiteScope) : List (String × SiteValue) :=
  s.globals.map (fun n => (n, .global n)) ++ s.params.zipIdx.map (fun p => (p.1, .param p.2)) ++
    s.allocas.map fun n => (n, .load n)

/-- `ValuesInScope.find (Name)`. -/
def SiteScope.find (s : SiteScope) (name : String) : Option SiteValue :=
  (s.valuesInScope.reverse.find? fun p => p.1 = name).map Prod.snd

/-! ## Collecting values -/

inductive SiteFailure where
  | noBaseName
  | nonExistentVariable
  /-- A write outside the vector. -/
  | outside
deriving DecidableEq, Repr

mutual

/-- `BaseName`, which only a variable has in the end. -/
def baseName : Argument → Except SiteFailure String
  | .mk .any .. | .mk .constant .. => .error .noBaseName
  | .mk .variable _ name _ _ _ _ _ => .ok (name.getD "")
  | .mk .indirect _ _ _ _ _ indirection _ => indirectionName indirection
  | .mk .field _ _ _ _ _ _ field => fieldName field

/-- A message that is not there is a constant by default. -/
def indirectionName : Option Argument → Except SiteFailure String
  | none => .error .noBaseName
  | some a => baseName a

def fieldName : Option StructField → Except SiteFailure String
  | none => .error .noBaseName
  | some (.mk _ base _ _) => baseName base

end

mutual

/-- `GetArgumentValue`, at an assertion site. -/
def siteArgumentValue (v : SiteValue) : Argument → SiteValue
  | .mk .constant .. | .mk .any .. | .mk .variable .. | .mk .indirect .. => v
  | .mk .field _ _ _ _ _ _ field => siteFieldValue v field

def siteFieldValue (v : SiteValue) : Option StructField → SiteValue
  | none => .field v 0
  | some (.mk _ base _ index) => .field (siteArgumentValue v base) index

end

/-- The value that an argument describes. -/
def SiteScope.describes (s : SiteScope) (a : Argument) : Except SiteFailure SiteValue := do
  match s.find (← baseName a) with
  | none => throw .nonExistentVariable
  | some v => return siteArgumentValue v a

/-- `Arg.index ()`, with its default. -/
def vectorIndex (a : Argument) : Int := a.index.getD 0

/-- `ArgSize`, from a round of the loop on. -/
def argSize : Int → List Argument → Int
  | size, [] => size
  | size, a :: args => argSize (if a.free then size else max (size + 1) (vectorIndex a)) args

/-- `Args[i] = v`. -/
def writeArg (vs : List (Option SiteValue)) (i : Int) (v : SiteValue) :
    Except SiteFailure (List (Option SiteValue)) :=
  if 0 ≤ i ∧ i < vs.length then .ok (vs.set i.toNat (some v)) else .error .outside

def collectArg (s : SiteScope) (vs : List (Option SiteValue)) (a : Argument) :
    Except SiteFailure (List (Option SiteValue)) :=
  if a.free then .ok vs else do writeArg vs (vectorIndex a) (← s.describes a)

/-- `CollectArgs`. -/
def collectArgs (s : SiteScope) (args : List Argument) : Except SiteFailure (List (Option SiteValue)) :=
  args.foldlM (collectArg s) (List.replicate (argSize 0 args).toNat none)

/-! ## Matching them -/

/-- `Values`, the patterns for an automaton. -/
def assertionPatterns (args : List Argument) : List Argument := args.filter fun a => !a.free

/-- `FreeMask`. -/
def freeMask (args : List Argument) : Runtime.Mask :=
  (args.filter (·.free)).foldl (fun mask a => mask ||| 1#32 <<< (vectorIndex a).toNat) 0

/-- `AddInstrumentation`, of an automaton. -/
def addAssertion (params : List Ty) (args : List Argument) : Except Failure Code :=
  addInstrumentation params (assertionPatterns args) false (freeMask args)

/-! ## Where the vector and the patterns agree -/

/-- The arguments have the indices from `n` on, in order. -/
def InOrder (n : Nat) (args : List Argument) : Prop :=
  ∀ (i : Nat) a, args[i]? = some a → a.index = some ((n + i : Nat) : Int)

/-- Behind a free argument all are free. -/
def FreeLast (args : List Argument) : Prop :=
  args.Pairwise fun a b => a.free → b.free

instance (args : List Argument) : Decidable (FreeLast args) :=
  inferInstanceAs (Decidable (args.Pairwise _))

/-- The variables of the arguments that are not free can be found. -/
def InScope (s : SiteScope) (args : List Argument) : Prop :=
  ∀ a ∈ assertionPatterns args, ∃ v, s.describes a = .ok v

/-- One value for each pattern, and that which it describes. -/
def LinesUp (s : SiteScope) (args : List Argument) : Prop :=
  ∃ values, collectArgs s args = .ok (values.map some) ∧
    List.Forall₂ (fun v p => s.describes p = .ok v) values (assertionPatterns args)

variable {s : SiteScope} {args : List Argument} {a : Argument} {vs ws : List (Option SiteValue)}
  {n : Nat} {size : Int}

theorem InOrder.head (h : InOrder n (a :: args)) : vectorIndex a = n := by
  rw [vectorIndex, h 0 a rfl]
  rfl

theorem InOrder.tail (h : InOrder n (a :: args)) : InOrder (n + 1) args := by
  intro i b hb
  rw [h (i + 1) b (by rwa [List.getElem?_cons_succ]), Nat.add_right_comm, Nat.add_assoc]

theorem patterns_of_free (hfree : a.free = true) :
    assertionPatterns (a :: args) = assertionPatterns args := by
  simp [assertionPatterns, hfree]

theorem patterns_of_bound (hbound : a.free = false) :
    assertionPatterns (a :: args) = a :: assertionPatterns args := by
  simp [assertionPatterns, hbound]

/-- Behind a free argument there is no pattern. -/
theorem FreeLast.patterns (h : FreeLast (a :: args)) (hfree : a.free = true) :
    assertionPatterns args = [] := by
  rw [assertionPatterns, List.filter_eq_nil_iff]
  intro b hb
  simp [(List.pairwise_cons.mp h).1 b hb hfree]

theorem freeLast_cons_of_bound (hbound : a.free = false) :
    FreeLast (a :: args) ↔ FreeLast args := by
  rw [FreeLast, FreeLast, List.pairwise_cons, and_iff_right]
  intro b _ hfree
  rw [hbound] at hfree
  cases hfree

theorem freeLast_of_no_patterns (h : assertionPatterns args = []) : FreeLast args := by
  rw [assertionPatterns, List.filter_eq_nil_iff] at h
  refine List.Pairwise.imp_of_mem (R := fun _ _ => True) ?_ (List.pairwise_of_forall fun _ _ => trivial)
  intro _ b _ hb _ _
  simpa using h b hb

/-! ## The size of the vector -/

theorem argSize_of_no_patterns (h : assertionPatterns args = []) : argSize size args = size := by
  induction args generalizing size with
  | nil => rfl
  | cons a args ih =>
    rw [argSize]
    cases hfree : a.free with
    | true =>
      rw [patterns_of_free hfree] at h
      rw [if_pos rfl]
      exact ih h
    | false =>
      rw [patterns_of_bound hfree] at h
      cases h

theorem argSize_of_freeLast (hin : InOrder n args) (h : FreeLast args) :
    argSize n args = n + (assertionPatterns args).length := by
  induction args generalizing n with
  | nil => exact (Int.add_zero _).symm
  | cons a args ih =>
    rw [argSize]
    cases hfree : a.free with
    | true =>
      have hnone := h.patterns hfree
      rw [if_pos rfl, argSize_of_no_patterns hnone, patterns_of_free hfree, hnone]
      exact (Int.add_zero _).symm
    | false =>
      have hsize : max ((n : Int) + 1) n = ((n + 1 : Nat) : Int) := by omega
      rw [if_neg Bool.false_ne_true, hin.head, hsize,
        ih hin.tail ((freeLast_cons_of_bound hfree).mp h), patterns_of_bound hfree,
        List.length_cons]
      omega

/-- Once an index has been skipped, the size is the last index. -/
theorem argSize_of_skipped (hin : InOrder n args) (hlt : size < n)
    (hsome : assertionPatterns args ≠ []) :
    ∃ a ∈ assertionPatterns args, argSize size args = vectorIndex a := by
  induction args generalizing n size with
  | nil => exact absurd rfl hsome
  | cons a args ih =>
    rw [argSize]
    cases hfree : a.free with
    | true =>
      rw [patterns_of_free hfree] at hsome ⊢
      rw [if_pos rfl]
      exact ih hin.tail (by omega) hsome
    | false =>
      have hsize : max (size + 1) n = (n : Int) := by omega
      rw [patterns_of_bound hfree, if_neg Bool.false_ne_true, hin.head, hsize]
      by_cases hnone : assertionPatterns args = []
      · exact ⟨a, List.mem_cons_self, by rw [argSize_of_no_patterns hnone, hin.head]⟩
      · obtain ⟨b, hb, heq⟩ := ih hin.tail (by omega : (n : Int) < (n + 1 : Nat)) hnone
        exact ⟨b, List.mem_cons_of_mem a hb, heq⟩

theorem argSize_of_not_freeLast (hin : InOrder n args) (h : ¬ FreeLast args) :
    ∃ a ∈ assertionPatterns args, argSize n args = vectorIndex a := by
  induction args generalizing n with
  | nil => exact absurd List.Pairwise.nil h
  | cons a args ih =>
    rw [argSize]
    cases hfree : a.free with
    | true =>
      rw [patterns_of_free hfree, if_pos rfl]
      refine argSize_of_skipped hin.tail (by omega) fun hnone => h ?_
      exact freeLast_of_no_patterns (by rwa [patterns_of_free hfree])
    | false =>
      have hsize : max ((n : Int) + 1) n = ((n + 1 : Nat) : Int) := by omega
      rw [patterns_of_bound hfree, if_neg Bool.false_ne_true, hin.head, hsize]
      obtain ⟨b, hb, heq⟩ := ih hin.tail fun hrest => h ((freeLast_cons_of_bound hfree).mpr hrest)
      exact ⟨b, List.mem_cons_of_mem a hb, heq⟩

/-! ## Filling it -/

theorem collectArg_of_free (hfree : a.free = true) : collectArg s vs a = .ok vs := by
  rw [collectArg, if_pos hfree]

theorem collectArg_of_bound (hbound : a.free = false) :
    collectArg s vs a = s.describes a >>= writeArg vs (vectorIndex a) := by
  rw [collectArg, if_neg (by rw [hbound]; exact Bool.false_ne_true)]

theorem collectArg_of_described {v : SiteValue} (hbound : a.free = false)
    (hv : s.describes a = .ok v) : collectArg s vs a = writeArg vs (vectorIndex a) v := by
  rw [collectArg_of_bound hbound, hv]
  rfl

theorem collect_of_no_patterns (h : assertionPatterns args = []) :
    args.foldlM (collectArg s) vs = .ok vs := by
  induction args with
  | nil => rfl
  | cons a args ih =>
    cases hfree : a.free with
    | true =>
      rw [patterns_of_free hfree] at h
      rw [List.foldlM_cons, collectArg_of_free hfree]
      exact ih h
    | false =>
      rw [patterns_of_bound hfree] at h
      cases h

/-- Every value has been written inside the vector. -/
theorem collected_inside (h : args.foldlM (collectArg s) vs = .ok ws) :
    ∀ a ∈ assertionPatterns args,
      (∃ v, s.describes a = .ok v) ∧ 0 ≤ vectorIndex a ∧ vectorIndex a < vs.length := by
  induction args generalizing vs with
  | nil => exact fun a ha => absurd ha List.not_mem_nil
  | cons a args ih =>
    rw [List.foldlM_cons] at h
    obtain ⟨vs₁, hhead, h⟩ := bind_eq_ok.mp h
    cases hfree : a.free with
    | true =>
      rw [collectArg_of_free hfree] at hhead
      cases hhead
      rw [patterns_of_free hfree]
      exact ih h
    | false =>
      rw [collectArg_of_bound hfree] at hhead
      obtain ⟨v, hv, hwrite⟩ := bind_eq_ok.mp hhead
      rw [writeArg] at hwrite
      split at hwrite
      · next hinside =>
        cases hwrite
        rw [patterns_of_bound hfree, List.forall_mem_cons]
        refine ⟨⟨⟨v, hv⟩, hinside⟩, ?_⟩
        simpa only [List.length_set] using ih h
      · cases hwrite

/-- With every variable in scope, only a write outside the vector ends the collection. -/
theorem collect_of_inScope (vs : List (Option SiteValue)) (hscope : InScope s args) :
    (∃ ws, args.foldlM (collectArg s) vs = .ok ws) ∨
      args.foldlM (collectArg s) vs = .error .outside := by
  induction args generalizing vs with
  | nil => exact .inl ⟨vs, rfl⟩
  | cons a args ih =>
    rw [List.foldlM_cons]
    cases hfree : a.free with
    | true =>
      rw [collectArg_of_free hfree]
      refine ih _ ?_
      rwa [InScope, patterns_of_free hfree] at hscope
    | false =>
      rw [InScope, patterns_of_bound hfree, List.forall_mem_cons] at hscope
      obtain ⟨⟨v, hv⟩, hrest⟩ := hscope
      rw [collectArg_of_described hfree hv, writeArg]
      split
      · exact ih _ hrest
      · exact .inr rfl

/-- The values written so far are followed by as many empty slots as there are patterns to come. -/
theorem collect_of_freeLast (pre : List SiteValue) (hin : InOrder pre.length args)
    (hlast : FreeLast args) (hscope : InScope s args) :
    ∃ values, args.foldlM (collectArg s)
        (pre.map some ++ List.replicate (assertionPatterns args).length none) =
          .ok ((pre ++ values).map some) ∧
      List.Forall₂ (fun v p => s.describes p = .ok v) values (assertionPatterns args) := by
  induction args generalizing pre with
  | nil => exact ⟨[], by simp [assertionPatterns, pure, Except.pure], .nil⟩
  | cons a args ih =>
    rw [List.foldlM_cons]
    cases hfree : a.free with
    | true =>
      have hnone := hlast.patterns hfree
      rw [collectArg_of_free hfree, patterns_of_free hfree, hnone]
      refine ⟨[], ?_, .nil⟩
      rw [List.length_nil, List.replicate_zero, List.append_nil, List.append_nil]
      exact collect_of_no_patterns hnone
    | false =>
      rw [InScope, patterns_of_bound hfree, List.forall_mem_cons] at hscope
      obtain ⟨⟨v, hv⟩, hrest⟩ := hscope
      have hwrite : writeArg (pre.map some ++ List.replicate (assertionPatterns args).length.succ none)
          pre.length v = .ok ((pre ++ [v]).map some ++
            List.replicate (assertionPatterns args).length none) := by
        rw [writeArg, if_pos (by simp)]
        simp [List.replicate_succ]
      have hin' : InOrder (pre ++ [v]).length args := by
        rw [List.length_append]
        exact hin.tail
      obtain ⟨values, hrun, hvalues⟩ := ih _ hin' ((freeLast_cons_of_bound hfree).mp hlast) hrest
      refine ⟨v :: values, ?_, ?_⟩
      · rw [collectArg_of_described hfree hv, hin.head, patterns_of_bound hfree, List.length_cons,
          hwrite, List.append_cons pre v values]
        exact hrun
      · rw [patterns_of_bound hfree]
        exact .cons hv hvalues

/-! ## The whole vector -/

/-- For arguments with the indices `0`, `1`, .. in order, `CollectArgs` returns the value of each
pattern, in the order of the patterns, if and only if their variables are in scope and no free
argument comes before one that is not.  Where the variables are in scope and a free argument does
come before another, it writes outside the vector. -/
theorem collectArgs_linesUp (s : SiteScope) (args : List Argument) (hin : InOrder 0 args) :
    (LinesUp s args ↔ InScope s args ∧ FreeLast args) ∧
      (InScope s args → (collectArgs s args = .error .outside ↔ ¬ FreeLast args)) := by
  have hgood (hscope : InScope s args) (hlast : FreeLast args) : LinesUp s args := by
    obtain ⟨values, hrun, hvalues⟩ := collect_of_freeLast [] hin hlast hscope
    have hsize : argSize 0 args = 0 + (assertionPatterns args).length := argSize_of_freeLast hin hlast
    refine ⟨values, ?_, hvalues⟩
    rw [collectArgs, hsize, Int.zero_add, Int.toNat_natCast]
    exact hrun
  have hbad (ws : List (Option SiteValue)) (hrun : collectArgs s args = .ok ws) : FreeLast args := by
    by_contra hnot
    obtain ⟨a, ha, hsize⟩ := argSize_of_not_freeLast hin hnot
    have hinside := (collected_inside hrun a ha).2
    rw [List.length_replicate] at hinside
    have : argSize 0 args = vectorIndex a := hsize
    omega
  constructor
  · constructor
    · rintro ⟨values, hrun, _⟩
      exact ⟨fun a ha => (collected_inside hrun a ha).1, hbad _ hrun⟩
    · rintro ⟨hscope, hlast⟩
      exact hgood hscope hlast
  · intro hscope
    constructor
    · intro hrun hlast
      obtain ⟨values, hok, _⟩ := hgood hscope hlast
      rw [hrun] at hok
      cases hok
    · intro hnot
      rcases collect_of_inScope (List.replicate (argSize 0 args).toNat none) hscope with
        ⟨ws, hrun⟩ | hrun
      · exact absurd (hbad ws hrun) hnot
      · exact hrun

/-- A variable of the automaton. -/
def variableArg (index : Int) (name : String) (free : Bool) : Argument :=
  .mk .variable (some index) (some name) (some free) none none none none

/-- A function with a parameter and two local variables. -/
def someSite : SiteScope := ⟨["g"], ["p"], ["x", "y"]⟩

/-- The arguments `x`, `y` and a free variable. -/
theorem collectArgs_linesUp_two :
    LinesUp someSite [variableArg 0 "x" false, variableArg 1 "y" false, variableArg 2 "z" true] := by
  refine (collectArgs_linesUp someSite _ ?_).1.mpr ⟨?_, ?_⟩
  · intro i a ha
    match i, ha with
    | 0, ha | 1, ha | 2, ha => cases ha; rfl
  · intro a ha
    change a ∈ [variableArg 0 "x" false, variableArg 1 "y" false] at ha
    rw [List.mem_cons, List.mem_singleton] at ha
    rcases ha with rfl | rfl
    · exact ⟨.load "x", by decide⟩
    · exact ⟨.load "y", by decide⟩
  · decide

/-- A free variable comes first: there is room for one value, which has the index 1. -/
theorem collectArgs_outside : InOrder 0 [variableArg 0 "z" true, variableArg 1 "y" false] ∧
    collectArgs someSite [variableArg 0 "z" true, variableArg 1 "y" false] = .error .outside ∧
    ¬ LinesUp someSite [variableArg 0 "z" true, variableArg 1 "y" false] := by
  have hrun : collectArgs someSite [variableArg 0 "z" true, variableArg 1 "y" false] =
      .error .outside := by decide
  refine ⟨?_, hrun, ?_⟩
  · intro i a ha
    match i, ha with
    | 0, ha | 1, ha => cases ha; rfl
  · rintro ⟨values, hok, _⟩
    rw [hrun] at hok
    cases hok

end Tesla.Instrumenter
