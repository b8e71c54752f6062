/-
# `Tesla.Automata.Meaning` — what expressions stand for, and what is built

Two readings of an expression, both compositional.

`meaning` is the intended language:

    event                          that one letter
    NULL                           the empty word
    XOR                            the union
    sub-automaton                  the language of its expression
    SEQUENCE (e₁ ⋯ eₙ, min, max)   ⋃ (⟦e₁⟧ ⋯ ⟦eₙ⟧)ᵏ,  min ≤ k ≤ max

`Runs` is what the constructed sub-automaton reads: `paths` from its start to its
end, and `back` from its start to its start.  The second is needed because a
sequence starts in the state it was given: a repetition that may be left early
is left from that state, also when its first element has meanwhile come back to
it.  So an early end reads `pathsᵏ · back` where `pathsᵏ` is meant
(`mem_repeated`).
-/
import Tesla.Automata.Parser
import Tesla.Lib.Shuffle

namespace Tesla.Automata

open Lib Computability

variable {α : Type*}

/-! ## Repetition -/

/-- `k` is an allowed number of repetitions. -/
def Repeats (minReps maxReps : Int) (k : ℕ) : Prop :=
  minReps ≤ k ∧ (maxReps = infiniteRepetitions ∨ k ≤ maxReps)

def repeats (L : Language α) (minReps maxReps : Int) : Language α :=
  {w | ∃ k, Repeats minReps maxReps k ∧ w ∈ L ^ k}

theorem repeats_mono {L M : Language α} (h : L ≤ M) (minReps maxReps : Int) :
    repeats L minReps maxReps ≤ repeats M minReps maxReps := by
  rintro w ⟨k, hk, hw⟩
  exact ⟨k, hk, pow_le_pow_left' h k hw⟩

/-- What the sub-automaton of an expression reads; whether it is no automaton at
all but the state it was given; and its letters. -/
structure Runs (α : Type*) where
  paths : Language α
  back : Language α
  idle : Bool
  letters : List α

namespace Runs

def null : Runs α := ⟨1, 1, true, []⟩

def event (a : α) : Runs α := ⟨{[a]}, 1, false, [a]⟩

/-- One after the other.  The start is that of the first with states of its own. -/
def after (r r' : Runs α) : Runs α :=
  ⟨r.paths * r'.paths, if r.idle then r'.back else r.back, r.idle && r'.idle,
    r.letters ++ r'.letters⟩

def choice (r r' : Runs α) : Runs α := ⟨r.paths + r'.paths, 1, false, r.letters ++ r'.letters⟩

/-- The letter `a`, inclusively or `r`. -/
def merge (a : α) (r : Runs α) : Runs α := ⟨inclusive {[a]} r.paths, 1, false, a :: r.letters⟩

def body (rs : List (Runs α)) : Runs α := rs.foldr after null

/-! The repetitions from the `i`-th on, `count` of them. -/

def chainBack (r : Runs α) (looped : ℕ → Bool) : ℕ → ℕ → Language α
  | 0, _ => 1
  | count + 1, i => Piece.roundsOf (looped i) r.paths (chainBack r looped count (i + 1)) * r.back

def chainPaths (r : Runs α) (skipped looped : ℕ → Bool) : ℕ → ℕ → Language α
  | 0, _ => 1
  | count + 1, i =>
    Piece.roundsOf (looped i) r.paths (chainBack r looped count (i + 1)) *
      ((if skipped i then r.back else 0) + r.paths * chainPaths r skipped looped count (i + 1))

def repeated (r : Runs α) (minReps maxReps : Int) : Runs α :=
  let infiniteLoop := maxReps = infiniteRepetitions
  let max := if infiniteLoop then 1 else maxReps
  let skipped : ℕ → Bool := fun i => minReps ≤ i
  let looped : ℕ → Bool := fun i => infiniteLoop || max < i
  let count := (Max.max minReps max).toNat
  ⟨chainPaths r skipped looped count 0, chainBack r looped count 0, false, r.letters⟩

/-! ## Repetitions in closed form -/

/-- What holds of the walks of any sub-automaton: returning to the start first
changes nothing. -/
structure Lawful (r : Runs α) : Prop where
  one_le : 1 ≤ r.back
  back_mul_paths : r.back * r.paths = r.paths

/-- A repetition left early, after its first element has come back to the start.
An infinite loop that has to be entered cannot be left like that. -/
def early (r : Runs α) (minReps maxReps : Int) : Language α :=
  {w | (maxReps = infiniteRepetitions → minReps ≤ 0) ∧
    ∃ k : ℕ, minReps ≤ k ∧ (maxReps = infiniteRepetitions ∨ k < maxReps) ∧
      w ∈ r.paths ^ k * r.back}

variable {r : Runs α} {skipped looped : ℕ → Bool}

theorem Lawful.le_mul_back (hr : r.Lawful) (L : Language α) : L ≤ L * r.back :=
  calc L = L * 1 := (mul_one L).symm
    _ ≤ L * r.back := mul_le_mul_right hr.one_le L

/-- Without loops: up to the last repetition, or an early end. -/
theorem mem_chainPaths_of_not_looped {count i : ℕ} {w : List α}
    (hlooped : ∀ j, i ≤ j → j < i + count → looped j = false) :
    w ∈ chainPaths r skipped looped count i ↔
      (∃ k < count, skipped (i + k) = true ∧ w ∈ r.paths ^ k * r.back) ∨ w ∈ r.paths ^ count := by
  induction count generalizing i w with
  | zero => simp [chainPaths]
  | succ count ih =>
    have ih' : ∀ {w}, w ∈ chainPaths r skipped looped count (i + 1) ↔
        (∃ k < count, skipped (i + 1 + k) = true ∧ w ∈ r.paths ^ k * r.back) ∨
          w ∈ r.paths ^ count :=
      ih fun j hj hj' => hlooped j (by omega) (by omega)
    have hstep : chainPaths r skipped looped (count + 1) i =
        (if skipped i then r.back else 0) + r.paths * chainPaths r skipped looped count (i + 1) := by
      rw [chainPaths, hlooped i le_rfl (by omega), Piece.roundsOf, if_neg (by simp), one_mul]
    rw [hstep, Language.mem_add]
    constructor
    · rintro (hw | hw)
      · split at hw
        · next hs => exact .inl ⟨0, by omega, hs, by rwa [pow_zero, one_mul]⟩
        · exact absurd hw (Language.notMem_zero w)
      · obtain ⟨u, hu, v, hv, rfl⟩ := Language.mem_mul.mp hw
        obtain ⟨k, hk, hs, hv⟩ | hv := ih'.mp hv
        · refine .inl ⟨k + 1, by omega, by rwa [show i + (k + 1) = i + 1 + k by omega], ?_⟩
          rw [pow_succ', mul_assoc]
          exact Language.append_mem_mul hu hv
        · refine .inr ?_
          rw [pow_succ']
          exact Language.append_mem_mul hu hv
    · rintro (⟨k, hk, hs, hw⟩ | hw)
      · cases k with
        | zero =>
          refine .inl ?_
          rw [Nat.add_zero] at hs
          rwa [if_pos hs, ← one_mul r.back, ← pow_zero r.paths]
        | succ k =>
          refine .inr ?_
          rw [pow_succ', mul_assoc] at hw
          obtain ⟨u, hu, v, hv, rfl⟩ := Language.mem_mul.mp hw
          refine Language.append_mem_mul hu (ih'.mpr (.inl ⟨k, by omega, ?_, hv⟩))
          rwa [show i + 1 + k = i + (k + 1) by omega]
      · refine .inr ?_
        rw [pow_succ'] at hw
        obtain ⟨u, hu, v, hv, rfl⟩ := Language.mem_mul.mp hw
        exact Language.append_mem_mul hu (ih'.mpr (.inr hv))

/-- What is read between loops is absorbed by the repetition that follows. -/
theorem chainBack_mul_le (hr : r.Lawful) {m : ℕ} (hm : 1 ≤ m) (count i : ℕ) :
    chainBack r looped count i * (r.paths ^ m * r.paths∗) ≤ r.paths ^ m * r.paths∗ := by
  induction count generalizing i with
  | zero => rw [chainBack, one_mul]
  | succ count ih =>
    have hback : r.back * (r.paths ^ m * r.paths∗) = r.paths ^ m * r.paths∗ := by
      obtain ⟨m, rfl⟩ := Nat.exists_eq_succ_of_ne_zero (by omega : m ≠ 0)
      rw [pow_succ', mul_assoc, ← mul_assoc r.back, hr.back_mul_paths]
    have hround : r.paths * chainBack r looped count (i + 1) * (r.paths ^ m * r.paths∗) ≤
        r.paths ^ m * r.paths∗ :=
      calc r.paths * chainBack r looped count (i + 1) * (r.paths ^ m * r.paths∗)
          = r.paths * (chainBack r looped count (i + 1) * (r.paths ^ m * r.paths∗)) := mul_assoc ..
        _ ≤ r.paths * (r.paths ^ m * r.paths∗) := mul_le_mul_right (ih (i + 1)) _
        _ = r.paths ^ m * (r.paths * r.paths∗) := by rw [← mul_assoc, ← pow_succ', pow_succ, mul_assoc]
        _ ≤ r.paths ^ m * r.paths∗ := mul_le_mul_right mul_kstar_le_kstar _
    rw [chainBack, mul_assoc, hback, Piece.roundsOf]
    split
    · exact kstar_mul_le_self hround
    · rw [one_mul]

/-- Any number of repetitions, or an early end. -/
theorem chainPaths_one (hr : r.Lawful) (hlooped : looped 0 = true) (hskipped : skipped 0 = true) :
    chainPaths r skipped looped 1 0 = r.paths∗ * r.back := by
  rw [chainPaths, chainPaths, chainBack, hlooped, hskipped, Piece.roundsOf, if_pos rfl, if_pos rfl,
    mul_one]
  refine le_antisymm ?_ (mul_le_mul_right le_sup_left _)
  rw [mul_add]
  refine sup_le le_rfl ?_
  calc r.paths∗ * r.paths ≤ r.paths∗ := kstar_mul_le_kstar
    _ ≤ r.paths∗ * r.back := hr.le_mul_back _

theorem one_le_roundsOf (b : Bool) (L M : Language α) : 1 ≤ Piece.roundsOf b L M := by
  rw [Piece.roundsOf]
  split
  · exact one_le_kstar
  · exact le_rfl

/-- With a loop around every repetition and no early end. -/
theorem chainPaths_of_looped (hr : r.Lawful) {count i : ℕ}
    (hlooped : ∀ j, looped j = true) (hskipped : ∀ j, j < i + (count + 1) → skipped j = false) :
    chainPaths r skipped looped (count + 1) i = r.paths ^ (count + 1) * r.paths∗ := by
  induction count generalizing i with
  | zero =>
    rw [chainPaths, chainPaths, chainBack, hlooped, hskipped i (by omega), Piece.roundsOf,
      if_pos rfl, if_neg (by simp), zero_add, mul_one, zero_add, pow_one]
    exact Language.mul_self_kstar_comm r.paths
  | succ count ih =>
    rw [chainPaths, ih fun j hj => hskipped j (by omega), hskipped i (by omega),
      if_neg (by simp), zero_add, ← mul_assoc r.paths, ← pow_succ' r.paths]
    refine le_antisymm ?_ ?_
    · rw [hlooped, Piece.roundsOf, if_pos rfl]
      refine kstar_mul_le_self ?_
      calc r.paths * chainBack r looped (count + 1) (i + 1) * (r.paths ^ (count + 1 + 1) * r.paths∗)
          ≤ r.paths * (r.paths ^ (count + 1 + 1) * r.paths∗) := by
            rw [mul_assoc]
            exact mul_le_mul_right (chainBack_mul_le hr (by omega) _ _) _
        _ = r.paths ^ (count + 1 + 1) * (r.paths * r.paths∗) := by
            rw [← mul_assoc, ← pow_succ', pow_succ, mul_assoc]
        _ ≤ r.paths ^ (count + 1 + 1) * r.paths∗ := mul_le_mul_right mul_kstar_le_kstar _
    · calc r.paths ^ (count + 1 + 1) * r.paths∗ = 1 * (r.paths ^ (count + 1 + 1) * r.paths∗) :=
            (one_mul _).symm
        _ ≤ _ := mul_le_mul_left (one_le_roundsOf ..) _

/-- `SEQUENCE (minReps, maxReps)`: what is meant, and the early ends. -/
theorem repeated_paths (hr : r.Lawful) {minReps maxReps : Int} (hle : minReps ≤ maxReps)
    (hmax : 0 ≤ maxReps) :
    (r.repeated minReps maxReps).paths =
      repeats r.paths minReps maxReps + r.early minReps maxReps := by
  by_cases hinf : maxReps = infiniteRepetitions
  · by_cases hmin : minReps ≤ 0
    · have hcount : (Max.max minReps 1).toNat = 1 := by omega
      simp only [repeated, hinf, if_true, hcount, decide_true, Bool.true_or]
      rw [chainPaths_one hr rfl (by simpa using hmin), Language.kstar_eq_iSup_pow, Language.iSup_mul]
      ext w
      rw [Language.mem_iSup, Language.mem_add]
      constructor
      · rintro ⟨k, hw⟩
        exact .inr ⟨fun _ => hmin, k, by omega, .inl rfl, hw⟩
      · rintro (⟨k, _, hw⟩ | ⟨_, k, _, _, hw⟩)
        · exact ⟨k, hr.le_mul_back _ hw⟩
        · exact ⟨k, hw⟩
    · obtain ⟨n, hn⟩ : ∃ n : ℕ, minReps = n + 1 := ⟨(minReps - 1).toNat, by omega⟩
      have hcount : (Max.max minReps 1).toNat = n + 1 := by omega
      simp only [repeated, hinf, if_true, hcount, decide_true, Bool.true_or]
      rw [chainPaths_of_looped hr (fun _ => rfl) (by simp; omega), Language.kstar_eq_iSup_pow,
        Language.mul_iSup]
      ext w
      rw [Language.mem_iSup, Language.mem_add]
      constructor
      · rintro ⟨k, hw⟩
        rw [← pow_add] at hw
        exact .inl ⟨n + 1 + k, ⟨by push_cast; omega, .inl rfl⟩, hw⟩
      · rintro (⟨k, ⟨hk, _⟩, hw⟩ | ⟨h, _⟩)
        · refine ⟨k - (n + 1), ?_⟩
          rwa [← pow_add, Nat.add_sub_cancel' (by omega)]
        · exact absurd (h rfl) hmin
  · obtain ⟨n, rfl⟩ : ∃ n : ℕ, maxReps = n := ⟨maxReps.toNat, by omega⟩
    have hcount : (Max.max minReps (n : Int)).toNat = n := by omega
    simp only [repeated, hinf, if_false, hcount, decide_false, Bool.false_or]
    ext w
    rw [mem_chainPaths_of_not_looped (by simp; omega), Language.mem_add]
    constructor
    · rintro (⟨k, hk, hskip, hw⟩ | hw)
      · refine .inr ⟨fun h => absurd h hinf, k, ?_, .inr (by omega), hw⟩
        simpa using hskip
      · exact .inl ⟨n, ⟨hle, .inr le_rfl⟩, hw⟩
    · rintro (⟨k, ⟨hk, hk'⟩, hw⟩ | ⟨_, k, hk, hk', hw⟩)
      · have hkn : k ≤ n := by omega
        obtain rfl | hlt := hkn.eq_or_lt
        · exact .inr hw
        · exact .inl ⟨k, hlt, by simpa using hk, hr.le_mul_back _ hw⟩
      · exact .inl ⟨k, by omega, by simpa using hk, hw⟩

/-- An early end that has not come back to the start is meant. -/
theorem early_le_repeats (hback : r.back = 1) (minReps maxReps : Int) :
    r.early minReps maxReps ≤ repeats r.paths minReps maxReps := by
  rintro w ⟨_, k, hmin, hmax, hw⟩
  rw [hback, mul_one] at hw
  exact ⟨k, ⟨hmin, hmax.imp_right le_of_lt⟩, hw⟩

end Runs

/-! ## Expressions -/

/-- The letter of an event. -/
def Expression.event : Expression → Option Letter
  | .assertionSite _ => some .assertSite
  | .function ev => some (.fn ev)
  | .fieldAssign assign => some (.fieldAssign assign)
  | .booleanExpr .. | .sequence .. | .nullExpr | .subAutomaton _ => none

/-- Events that only occur as described; assertion sites need no mark for it. -/
def Letter.strict : Letter → Bool
  | .fn ev => ev.strict.getD true
  | .fieldAssign assign => assign.strict.getD true
  | .assertSite | .subAutomaton _ => true

/-- The language of an expression made of strict events, NULL, XOR, SEQUENCE with
`minReps ≤ maxReps` and sub-automata; `none` for any other, and for sub-automata
nested deeper than `fuel`. -/
def meaning (descriptions : AutomataMap) : ℕ → Expression → Option (Language Letter)
  | 0, _ => none
  | fuel + 1, e =>
    match e with
    | .nullExpr => some 1
    | .booleanExpr .xor lhs rhs => do
      let l ← meaning descriptions fuel lhs
      let r ← meaning descriptions fuel rhs
      return l + r
    | .sequence es minReps maxReps =>
      if minReps ≤ maxReps then do
        let ls ← es.mapM (meaning descriptions fuel)
        return repeats ls.prod minReps maxReps
      else none
    | .subAutomaton id => (descriptions id).bind fun a => meaning descriptions fuel a.expression
    | .booleanExpr .and _ _ | .booleanExpr .or _ _ => none
    | e => e.event.bind fun a => if a.strict then some {[a]} else none

/-! ## Expressions that cannot go wrong -/

/-- Can the sub-automaton come back to its start?  `none` when it has no states of its
own. -/
def Expression.comesBack (descriptions : AutomataMap) : ℕ → Expression → Option Bool
  | 0, _ => none
  | fuel + 1, e =>
    match e with
    | .nullExpr => none
    | .sequence es _ maxReps =>
      some (maxReps = infiniteRepetitions ||
        0 < maxReps && (es.findSome? (comesBack descriptions fuel)).getD false)
    | .subAutomaton id => (descriptions id).bind fun a => comesBack descriptions fuel a.expression
    | .booleanExpr .. | .assertionSite _ | .function _ | .fieldAssign _ => some false

/-- Can a repetition end before its last round? -/
def endsEarly (minReps maxReps : Int) : Bool :=
  if maxReps = infiniteRepetitions then minReps ≤ 0 else max minReps 0 < maxReps

/-- No repetition that can end early begins with what comes back to its start. -/
def Expression.steady (descriptions : AutomataMap) : ℕ → Expression → Bool
  | 0, _ => false
  | fuel + 1, e =>
    match e with
    | .sequence es minReps maxReps =>
      es.all (steady descriptions fuel) && 0 ≤ maxReps &&
        !(endsEarly minReps maxReps && (es.findSome? (comesBack descriptions fuel)).getD false)
    | .booleanExpr _ lhs rhs => steady descriptions fuel lhs && steady descriptions fuel rhs
    | .subAutomaton id => (descriptions id).all fun a => steady descriptions fuel a.expression
    | .nullExpr | .assertionSite _ | .function _ | .fieldAssign _ => true

namespace Parser

/-- The letter of an expression that is a single event, perhaps as a sub-automaton. -/
def single (P : Parser) : ℕ → Expression → Option Letter
  | 0, _ => none
  | fuel + 1, e =>
    match e with
    | .subAutomaton id =>
      if P.subAutomataAllowed then some (.subAutomaton id)
      else (P.descriptions.bind (· id)).bind fun a => P.single fuel a.expression
    | e => e.event

/-- What is built for an expression in which the left operand of every inclusive
OR is a single event. -/
def runs (P : Parser) : ℕ → Expression → Option (Runs Letter)
  | 0, _ => none
  | fuel + 1, e =>
    match e with
    | .nullExpr => some .null
    | .booleanExpr operation lhs rhs => do
      let l ← P.runs fuel lhs
      let r ← P.runs fuel rhs
      match operation, P.suppressInclusiveOr with
      | .xor, _ | .and, _ | .or, true => return l.choice r
      | .or, false => (P.single fuel lhs).map fun a => r.merge a
    | .sequence es minReps maxReps => do
      let rs ← es.mapM (P.runs fuel)
      return (Runs.body rs).repeated minReps maxReps
    | .subAutomaton id =>
      if P.subAutomataAllowed then some (.event (.subAutomaton id))
      else (P.descriptions.bind (· id)).bind fun a => P.runs fuel a.expression
    | e => e.event.map .event

end Parser

end Tesla.Automata
