/-
# `Tesla.Runtime.Scan` — what the scan of a class amounts to

`scanLoop` threads seven variables through the slots.  But a slot is visited
at most once, and what happens to it depends on its own instance only, so
the loop is a map:

    the scan handles the first m slots, and then

      slots      (take m).map outcome ++ drop m           `outcome`
      clones     the forks among them, in order           `forks`
      matched    some of them UPDATEs or FORKs            `advances`
      cleanup    some trigger is flagged CLEANUP          `cleansUp`
      evs        their notifications, in order            `slotEvents`

    and m is the number of slots, unless nothing more was expected or slot m
    is a FORK there is no room for (`scanRounds`).

`scan_spec` says this, and is the only place the loop is unfolded.
-/
import Tesla.Runtime.Store

namespace Tesla.Runtime

variable (d : Delivery)

/-- The action the event asks of an instance. -/
abbrev actionOf (inst : Instance) : Except Abort Action := action inst d.pattern d.trans

/-- What the scan leaves in the slot of `inst`. -/
def outcome (inst : Instance) : Instance :=
  match actionOf d inst with
  | .ok (.update t) => { inst with tiState := t.toState }
  | .ok (.join _) => Instance.zero
  | _ => inst

/-- The instance forks. -/
def isFork (inst : Instance) : Bool :=
  match actionOf d inst with
  | .ok (.fork _) => true
  | _ => false

/-- The instance takes a transition that `matched_something` counts. -/
def advances (inst : Instance) : Bool :=
  match actionOf d inst with
  | .ok (.update _) | .ok (.fork _) => true
  | _ => false

/-- The instance's trigger asks for cleanup. -/
def cleansUp (inst : Instance) : Bool :=
  match actionOf d inst with
  | .ok (.update t) | .ok (.fork t) | .ok (.join t) => t.cleanup
  | _ => false

/-- The instance is one of those `expected` counts. -/
def handled (inst : Instance) : Bool :=
  match actionOf d inst with
  | .ok .ignore | .error _ => false
  | _ => true

/-- The clones noted for the instances, the first of which is in slot `i`. -/
def forks : Nat → List Instance → List Clone
  | _, [] => []
  | i, inst :: insts =>
      match actionOf d inst with
      | .ok (.fork t) => ⟨i, t⟩ :: forks (i + 1) insts
      | _ => forks (i + 1) insts

/-- The notifications about the instance in slot `i`. -/
def instEvents (i : Nat) (inst : Instance) : List Event :=
  match actionOf d inst with
  | .ok .fail => [.badTransition d.cls i inst d.symbol]
  | .ok (.update t) =>
      (if d.haveTransitions then [.transition d.cls i inst t] else []) ++
        (if t.cleanup then [.accept d.cls i { inst with tiState := t.toState }] else [])
  | _ => []

/-- The notifications about the instances, the first of which is in slot `i`. -/
def slotEvents : Nat → List Instance → List Event
  | _, [] => []
  | i, inst :: insts => instEvents d i inst ++ slotEvents (i + 1) insts

variable {d}

/-! ## One slot -/

theorem outcome_of_inactive {inst : Instance} (h : instanceActive inst = false) :
    outcome d inst = inst := by
  simp [outcome, actionOf, action_inactive h]

theorem handled_active {inst : Instance} (h : handled d inst = true) :
    instanceActive inst = true := by
  by_contra hina
  rw [handled, actionOf, action_inactive (by simpa using hina)] at h
  cases h

/-- The slots left alone by the scan: all but those updated or joined. -/
theorem outcome_cases (inst : Instance) :
    outcome d inst = inst ∨
      (∃ t, actionOf d inst = .ok (.update t) ∧
        outcome d inst = { inst with tiState := t.toState }) ∨
      (∃ t, actionOf d inst = .ok (.join t) ∧ outcome d inst = Instance.zero) := by
  unfold outcome
  split
  · rename_i t h; exact Or.inr (Or.inl ⟨t, h, rfl⟩)
  · rename_i t h; exact Or.inr (Or.inr ⟨t, h, rfl⟩)
  · exact Or.inl rfl

/-- An instance is reported when it FAILs, and when it is UPDATEd. -/
theorem instEvents_cases {i : Nat} {inst : Instance} {ev : Event}
    (h : ev ∈ instEvents d i inst) :
    (actionOf d inst = .ok .fail ∧ ev = .badTransition d.cls i inst d.symbol) ∨
      ∃ t, actionOf d inst = .ok (.update t) ∧ (ev = .transition d.cls i inst t ∨
        ev = .accept d.cls i { inst with tiState := t.toState }) := by
  simp only [instEvents] at h
  split at h
  · rename_i hact
    exact Or.inl ⟨hact, List.mem_singleton.mp h⟩
  · rename_i t hact
    refine Or.inr ⟨t, hact, ?_⟩
    rcases List.mem_append.mp h with h | h
    · split at h
      · exact Or.inl (List.mem_singleton.mp h)
      · cases h
    · split at h
      · exact Or.inr (List.mem_singleton.mp h)
      · cases h
  · cases h

/-- One successful round of the scan that does not return. -/
theorem scanSlot_go {i : Nat} {inst : Instance} {s s' : Scan} (hi : s.insts[i]? = some inst)
    (h : scanSlot d i s = .ok s') (hr : s'.returned = s.returned)
    (hfork : isFork d inst = true → s.clones.length < d.maxClones) :
    (∃ a, actionOf d inst = .ok a) ∧
    s'.insts = s.insts.set i (outcome d inst) ∧
    s'.expected = s.expected - (if handled d inst then 1 else 0) ∧
    s'.clones = s.clones ++ forks d i [inst] ∧
    s'.matched = (s.matched || advances d inst) ∧
    s'.cleanup = (s.cleanup || cleansUp d inst) ∧
    s'.evs = s.evs ++ instEvents d i inst := by
  have hset : s.insts.set i inst = s.insts := by
    obtain ⟨hlt, rfl⟩ := List.getElem?_eq_some_iff.mp hi
    exact List.set_getElem_self hlt
  simp only [scanSlot, hi] at h
  unfold outcome handled forks advances cleansUp instEvents
  unfold isFork at hfork
  rcases hact : actionOf d inst with e | a
  · simp only [actionOf] at hact
    rw [hact] at h
    cases h
  · simp only [actionOf] at hact
    rw [hact] at h
    refine ⟨⟨a, rfl⟩, ?_⟩
    cases a with
    | fail => cases h; simp [hset, forks]
    | ignore => cases h; simp [hset, forks]
    | update t => cases h; simp [forks]
    | fork t =>
        simp only [actionOf, hact, true_implies] at hfork
        simp only [applyAction, Nat.not_le.mpr hfork, if_false] at h
        cases h
        simp [hset, forks]
    | join t =>
        simp only [applyAction] at h
        split at h
        · cases h; simp [forks]
        · cases h

/-- A round that returns from the function: a FORK there is no room for. -/
theorem scanSlot_full {i : Nat} {inst : Instance} {s s' : Scan} (hi : s.insts[i]? = some inst)
    (h : scanSlot d i s = .ok s') (hfork : isFork d inst = true)
    (hfull : d.maxClones ≤ s.clones.length) :
    s'.returned = true ∧ s'.insts = s.insts ∧ s'.clones = s.clones ∧
      s'.matched = s.matched ∧ s'.cleanup = s.cleanup ∧
      s'.evs = s.evs ++ [.err d.cls d.symbol .enomem .tooManyClones] := by
  simp only [scanSlot, hi] at h
  unfold isFork at hfork
  split at hfork
  · rename_i t hact
    simp only [actionOf] at hact
    rw [hact] at h
    simp only [applyAction, hfull, if_true] at h
    cases h
    simp
  · cases hfork

/-- A round that has room for its fork does not return. -/
theorem scanSlot_returned {i : Nat} {inst : Instance} {s s' : Scan} (hi : s.insts[i]? = some inst)
    (h : scanSlot d i s = .ok s')
    (hfork : isFork d inst = true → s.clones.length < d.maxClones) :
    s'.returned = s.returned := by
  simp only [scanSlot, hi] at h
  unfold isFork at hfork
  rcases hact : action inst d.pattern d.trans with e | a
  · rw [hact] at h; cases h
  · rw [hact] at h
    cases a with
    | fail => cases h; rfl
    | ignore => cases h; rfl
    | update t => cases h; rfl
    | fork t =>
        simp only [actionOf, hact, true_implies] at hfork
        simp only [applyAction, Nat.not_le.mpr hfork, if_false] at h
        cases h; rfl
    | join t =>
        simp only [applyAction] at h
        split at h
        · cases h; rfl
        · cases h

/-- Whatever a round does, it writes its own slot only. -/
theorem scanSlot_insts {i : Nat} {inst : Instance} {s s' : Scan} (hi : s.insts[i]? = some inst)
    (h : scanSlot d i s = .ok s') : ∃ x, s'.insts = s.insts.set i x := by
  by_cases hfull : isFork d inst = true ∧ d.maxClones ≤ s.clones.length
  · obtain ⟨_, hin, _⟩ := scanSlot_full hi h hfull.1 hfull.2
    obtain ⟨hlt, rfl⟩ := List.getElem?_eq_some_iff.mp hi
    exact ⟨s.insts[i], hin.trans (List.set_getElem_self hlt).symm⟩
  · have hroom : isFork d inst = true → s.clones.length < d.maxClones := fun hf => by
      by_contra hlt
      exact hfull ⟨hf, by omega⟩
    exact ⟨_, (scanSlot_go hi h (scanSlot_returned hi h hroom) hroom).2.1⟩

/-! ## The loop -/

/-- The scan of `rest`, entered in state `s₀` with the slots `pre` behind it,
handled `m` slots and ended in `s`. -/
structure Scanned (d : Delivery) (pre rest : List Instance) (s₀ : Scan) (m : Nat) (s : Scan) :
    Prop where
  le : m ≤ rest.length
  acts : ∀ inst ∈ rest.take m, ∃ a, actionOf d inst = .ok a
  insts : s.insts = pre ++ ((rest.take m).map (outcome d) ++ rest.drop m)
  clones : s.clones = s₀.clones ++ forks d pre.length (rest.take m)
  matched : s.matched = (s₀.matched || (rest.take m).any (advances d))
  cleanup : s.cleanup = (s₀.cleanup || (rest.take m).any (cleansUp d))
  evs : s.evs = s₀.evs ++ (slotEvents d pre.length (rest.take m) ++
    if s.returned then [.err d.cls d.symbol .enomem .tooManyClones] else [])
  stop : (s.returned = true ∧ ∃ inst, rest[m]? = some inst ∧ isFork d inst = true ∧
      d.maxClones ≤ s.clones.length) ∨
    (s.returned = false ∧
      (m = rest.length ∨ s₀.expected ≤ ((rest.take m).countP (handled d) : Nat)))
  go : 0 < m → 0 < s₀.expected
  room : s₀.clones.length ≤ d.maxClones → s.clones.length ≤ d.maxClones

theorem forks_cons (i : Nat) (inst : Instance) (insts : List Instance) :
    forks d i (inst :: insts) = forks d i [inst] ++ forks d (i + 1) insts := by
  simp only [forks]
  split <;> rfl

theorem forks_singleton_length (i : Nat) (inst : Instance) :
    (forks d i [inst]).length = if isFork d inst then 1 else 0 := by
  unfold forks isFork
  cases actionOf d inst with
  | error e => rfl
  | ok a => cases a <;> rfl

/-- A handled slot in front of a scan. -/
theorem Scanned.cons {pre rest : List Instance} {inst : Instance} {s₀ s₁ s : Scan} {m : Nat}
    (h : Scanned d (pre ++ [outcome d inst]) rest s₁ m s)
    (hact : ∃ a, actionOf d inst = .ok a) (hgo : 0 < s₀.expected)
    (hroom : isFork d inst = true → s₀.clones.length < d.maxClones)
    (hexp : s₁.expected = s₀.expected - (if handled d inst then 1 else 0))
    (hcl : s₁.clones = s₀.clones ++ forks d pre.length [inst])
    (hma : s₁.matched = (s₀.matched || advances d inst))
    (hcu : s₁.cleanup = (s₀.cleanup || cleansUp d inst))
    (hev : s₁.evs = s₀.evs ++ instEvents d pre.length inst) :
    Scanned d pre (inst :: rest) s₀ (m + 1) s where
  le := Nat.succ_le_succ h.le
  acts := by
    rw [List.take_succ_cons, List.forall_mem_cons]
    exact ⟨hact, h.acts⟩
  insts := by rw [h.insts]; simp
  clones := by
    rw [h.clones, hcl, List.take_succ_cons, forks_cons _ inst (rest.take m), List.append_assoc]
    simp
  matched := by rw [h.matched, hma]; simp [Bool.or_assoc]
  cleanup := by rw [h.cleanup, hcu]; simp [Bool.or_assoc]
  evs := by
    rw [h.evs, hev, List.take_succ_cons, slotEvents]
    simp
  stop := by
    rcases h.stop with ⟨hr, u, hu, hf, hfull⟩ | ⟨hr, hm | he⟩
    · exact Or.inl ⟨hr, u, by simpa using hu, hf, hfull⟩
    · exact Or.inr ⟨hr, Or.inl (by simp [hm])⟩
    · refine Or.inr ⟨hr, Or.inr ?_⟩
      rw [hexp] at he
      rw [List.take_succ_cons, List.countP_cons]
      split at he <;> rename_i hh
      · simp only [hh, if_true]; omega
      · simp only [hh]; omega
  go := fun _ => hgo
  room := fun hle => h.room <| by
    rw [hcl, List.length_append]
    by_cases hf : isFork d inst = true
    · have := hroom hf
      have := forks_singleton_length (d := d) pre.length inst
      rw [if_pos hf] at this
      omega
    · have := forks_singleton_length (d := d) pre.length inst
      rw [if_neg hf] at this
      omega

/-- A scan that stops at once. -/
theorem Scanned.zero {pre rest : List Instance} {s₀ s : Scan} (hins : s.insts = pre ++ rest)
    (hcl : s.clones = s₀.clones) (hma : s.matched = s₀.matched) (hcu : s.cleanup = s₀.cleanup)
    (hev : s.evs = s₀.evs ++
      if s.returned then [.err d.cls d.symbol .enomem .tooManyClones] else [])
    (hstop : (s.returned = true ∧ ∃ inst, rest[0]? = some inst ∧ isFork d inst = true ∧
        d.maxClones ≤ s.clones.length) ∨
      (s.returned = false ∧ (rest = [] ∨ s₀.expected ≤ 0))) :
    Scanned d pre rest s₀ 0 s where
  le := Nat.zero_le _
  acts := by simp
  insts := by simpa using hins
  clones := by simp [forks, hcl]
  matched := by simp [hma]
  cleanup := by simp [hcu]
  evs := by simpa [slotEvents] using hev
  stop := by
    rcases hstop with h | ⟨hr, rfl | he⟩
    · exact Or.inl h
    · exact Or.inr ⟨hr, Or.inl rfl⟩
    · exact Or.inr ⟨hr, Or.inr (by simpa using he)⟩
  go := fun h => absurd h (Nat.lt_irrefl 0)
  room := fun h => hcl ▸ h

/-- The rounds of the scan that handle their slot. -/
def scanRounds (d : Delivery) : List Nat → Scan → Nat
  | [], _ => 0
  | i :: is, s =>
      if 0 < s.expected ∧ s.returned = false then
        match scanSlot d i s with
        | .error _ => 0
        | .ok s' => if s'.returned then 0 else scanRounds d is s' + 1
      else 0

theorem scanLoop_spec {rest : List Instance} : ∀ {pre : List Instance} {s₀ s : Scan},
    s₀.insts = pre ++ rest → s₀.returned = false →
    scanLoop d (List.range' pre.length rest.length) s₀ = .ok s →
    Scanned d pre rest s₀ (scanRounds d (List.range' pre.length rest.length) s₀) s := by
  induction rest with
  | nil =>
      intro pre s₀ s hins hr h
      cases h
      exact .zero hins rfl rfl rfl (by simp [hr]) (Or.inr ⟨hr, Or.inl rfl⟩)
  | cons inst rest ih =>
      intro pre s₀ s hins hr h
      simp only [List.length_cons, List.range'_succ, scanLoop, scanRounds] at h ⊢
      split at h
      · rename_i hgo
        rw [if_pos hgo]
        have hi : s₀.insts[pre.length]? = some inst := by rw [hins]; simp
        split at h
        · cases h
        · rename_i s₁ hs₁
          by_cases hfull : isFork d inst = true ∧ d.maxClones ≤ s₀.clones.length
          · obtain ⟨hret, hin, hcl, hma, hcu, hev⟩ := scanSlot_full hi hs₁ hfull.1 hfull.2
            -- the source has returned: whatever rounds are left do nothing
            have hs : s = s₁ := by
              cases hl : List.range' (pre.length + 1) rest.length with
              | nil => rw [hl] at h; cases h; rfl
              | cons j js =>
                  rw [hl, scanLoop, if_neg (by simp [hret])] at h
                  cases h; rfl
            subst hs
            simp only [hs₁, hret, if_true]
            refine .zero (hin.trans hins) hcl hma hcu (by simp [hev, hret]) (Or.inl ?_)
            exact ⟨hret, inst, rfl, hfull.1, hcl ▸ hfull.2⟩
          · have hroom : isFork d inst = true → s₀.clones.length < d.maxClones := by
              intro hf
              by_contra hlt
              exact hfull ⟨hf, by omega⟩
            have hret := scanSlot_returned hi hs₁ hroom
            obtain ⟨hact, hin, hexp, hcl, hma, hcu, hev⟩ := scanSlot_go hi hs₁ hret hroom
            have hins₁ : s₁.insts = (pre ++ [outcome d inst]) ++ rest := by
              rw [hin, hins]; simp
            have hlen : (pre ++ [outcome d inst]).length = pre.length + 1 := by simp
            rw [← hlen] at h
            have hm := ih hins₁ (hret.trans hr) h
            rw [hlen] at hm
            simp only [hs₁, hret, hr, Bool.false_eq_true, if_false]
            exact hm.cons hact hgo.1 hroom hexp hcl hma hcu hev
      · rename_i hgo
        rw [if_neg hgo]
        cases h
        have he : s₀.expected ≤ 0 := by
          by_contra hpos
          exact hgo ⟨by omega, hr⟩
        exact .zero hins rfl rfl rfl (by simp [hr]) (Or.inr ⟨hr, Or.inr he⟩)

/-- The scan fails an assertion only in `tesla_action`, or for want of a JOIN
target. -/
theorem scanLoop_error {rest : List Instance} : ∀ {pre : List Instance} {s₀ : Scan} {a : Abort},
    s₀.insts = pre ++ rest →
    scanLoop d (List.range' pre.length rest.length) s₀ = .error a →
    a = .joinTarget ∨ ∃ inst ∈ rest, actionOf d inst = .error a := by
  induction rest with
  | nil => intro pre s₀ a _ h; cases h
  | cons inst rest ih =>
      intro pre s₀ a hins h
      simp only [List.length_cons, List.range'_succ, scanLoop] at h
      split at h
      · have hi : s₀.insts[pre.length]? = some inst := by rw [hins]; simp
        split at h
        · rename_i b hb
          cases h
          simp only [scanSlot, hi] at hb
          split at hb
          · rename_i e he
            cases hb
            exact Or.inr ⟨inst, List.mem_cons_self, he⟩
          · rename_i act hact
            refine Or.inl ?_
            cases act with
            | join t =>
                simp only [applyAction] at hb
                split at hb
                · cases hb
                · cases hb; rfl
            | fork t =>
                simp only [applyAction] at hb
                split at hb <;> cases hb
            | update t => cases hb
            | ignore => cases hb
            | fail => cases hb
        · rename_i s₁ hs₁
          obtain ⟨x, hx⟩ := scanSlot_insts hi hs₁
          have hins₁ : s₁.insts = (pre ++ [x]) ++ rest := by rw [hx, hins]; simp
          have hlen : (pre ++ [x]).length = pre.length + 1 := by simp
          rw [← hlen] at h
          exact (ih hins₁ h).imp_right fun ⟨u, hu, he⟩ => ⟨u, List.mem_cons_of_mem _ hu, he⟩
      · cases h

/-- The scan of a class. -/
theorem scan_spec {c : Class} {evs : List Event} {s : Scan}
    (h : scanLoop d (List.range c.tcLimit) (Scan.start c evs) = .ok s) :
    Scanned d [] c.tcInstances (Scan.start c evs)
      (scanRounds d (List.range c.tcLimit) (Scan.start c evs)) s := by
  have hins : (Scan.start c evs).insts = [] ++ c.tcInstances := rfl
  rw [List.range_eq_range'] at h ⊢
  exact scanLoop_spec hins rfl h

end Tesla.Runtime
