/-
# `Tesla.Lib.Trace` — runs with what is observed of them, and machines that explain them

A step that returns also reports something.  `Trace step s is t os` is a run in the sense
of `Tesla.Lib.Run` with the reports of its steps, in order.

A `Machine` is the other side: a total function of the inputs, with reports of its own.  It
explains a system if, whatever run there is, the state reached and the reports are as the
machine has them; one step and one induction do it (`Trace.explained`).
-/
import Tesla.Lib.Run

namespace Tesla.Lib

variable {σ ι ο τ ω : Type*}

/-- The inputs `is` lead from `s` to a state, and `os` is reported on the way. -/
inductive Trace (step : σ → ι → σ → List ο → Prop) (s : σ) : List ι → σ → List ο → Prop
  | nil : Trace step s [] s []
  | snoc {is : List ι} {t u : σ} {os os' : List ο} (i : ι) :
      Trace step s is t os → step t i u os' → Trace step s (is ++ [i]) u (os ++ os')

/-- A deterministic machine with reports. -/
structure Machine (τ ι ω : Type*) where
  init : τ
  step : τ → ι → τ × List ω

namespace Machine

variable {M : Machine τ ι ω}

/-- From a given state. -/
def runFrom (M : Machine τ ι ω) (x : τ) : List ι → τ × List ω
  | [] => (x, [])
  | i :: is =>
    let r := M.runFrom (M.step x i).1 is
    (r.1, (M.step x i).2 ++ r.2)

def run (M : Machine τ ι ω) (is : List ι) : τ × List ω := M.runFrom M.init is

theorem runFrom_append (x : τ) (is is' : List ι) :
    M.runFrom x (is ++ is') =
      ((M.runFrom (M.runFrom x is).1 is').1,
        (M.runFrom x is).2 ++ (M.runFrom (M.runFrom x is).1 is').2) := by
  induction is generalizing x with
  | nil => rfl
  | cons i is ih =>
    rw [List.cons_append, runFrom, runFrom, ih]
    simp only [List.append_assoc]

theorem runFrom_concat (x : τ) (is : List ι) (i : ι) :
    M.runFrom x (is ++ [i]) =
      ((M.step (M.runFrom x is).1 i).1, (M.runFrom x is).2 ++ (M.step (M.runFrom x is).1 i).2) := by
  rw [runFrom_append]
  simp only [runFrom, List.append_nil]

theorem run_concat (is : List ι) (i : ι) :
    M.run (is ++ [i]) = ((M.step (M.run is).1 i).1, (M.run is).2 ++ (M.step (M.run is).1 i).2) :=
  runFrom_concat M.init is i

/-- What every step keeps. -/
theorem runFrom_keeps {J : τ → Prop} {G : ι → Prop} (hstep : ∀ x i, J x → G i → J (M.step x i).1)
    {x : τ} {is : List ι} (hx : J x) (hG : ∀ i ∈ is, G i) : J (M.runFrom x is).1 := by
  induction is generalizing x with
  | nil => exact hx
  | cons i is ih =>
    obtain ⟨hi, his⟩ := List.forall_mem_cons.mp hG
    exact ih (hstep x i hx hi) his

end Machine

namespace Trace

variable {step step' : σ → ι → σ → List ο → Prop} {s t u : σ} {is is' : List ι} {os os' : List ο}

/-- A trace is a run. -/
theorem run {next : σ → ι → σ → Prop} (hnext : ∀ {t u : σ} {i : ι} {os : List ο}, step t i u os →
    next t i u) (h : Trace step s is t os) : Run next s is t := by
  induction h with
  | nil => exact .nil
  | snoc i _ hs ih => exact .snoc i ih (hnext hs)

theorem append (h : Trace step s is t os) (h' : Trace step t is' u os') :
    Trace step s (is ++ is') u (os ++ os') := by
  induction h' with
  | nil =>
    rw [List.append_nil, List.append_nil]
    exact h
  | snoc i _ hs ih =>
    rw [← List.append_assoc, ← List.append_assoc]
    exact .snoc i ih hs

/-- What every step says of its input. -/
theorem forall_mem {G : ι → Prop} (hstep : ∀ {t u : σ} {i : ι} {os : List ο}, step t i u os → G i)
    (h : Trace step s is t os) : ∀ i ∈ is, G i := by
  induction h with
  | nil => exact List.forall_mem_nil _
  | snoc i _ hs ih => exact List.forall_mem_append.mpr ⟨ih, List.forall_mem_singleton.mpr (hstep hs)⟩

/-- What is so of every input may be asked of every step. -/
theorem restrict {G : ι → Prop} (hstep : ∀ {t u : σ} {i : ι} {os : List ο},
    step t i u os → G i → step' t i u os) (hG : ∀ i ∈ is, G i) (h : Trace step s is t os) :
    Trace step' s is t os := by
  induction h with
  | nil => exact .nil
  | snoc i _ hs ih =>
    obtain ⟨his, hi⟩ := List.forall_mem_append.mp hG
    exact .snoc i (ih his) (hstep hs (List.forall_mem_singleton.mp hi))

/-- A machine explains a system: what relates the states and reports at first and is kept by every
step relates them after every run. -/
theorem explained {M : Machine τ ι ω} {R : List ι → σ → τ → List ο → List ω → Prop}
    (h : Trace step s is t os) (h₀ : R [] s M.init [] [])
    (hstep : ∀ {is : List ι} {t u : σ} {i : ι} {x : τ} {os os' : List ο} {ws : List ω},
      Trace step s is t os → R is t x os ws → step t i u os' →
        R (is ++ [i]) u (M.step x i).1 (os ++ os') (ws ++ (M.step x i).2)) :
    R is t (M.run is).1 os (M.run is).2 := by
  induction h with
  | nil => exact h₀
  | snoc i htrace hs ih =>
    rw [Machine.run_concat]
    exact hstep htrace ih hs

/-- Traces of an executable step are found by executing it. -/
theorem of_exec {f : σ → ι → Option (σ × List ο)}
    (hf : ∀ {s t : σ} {i : ι} {os : List ο}, f s i = some (t, os) → step s i t os) :
    ∀ {is : List ι} {s t : σ} {os₀ os : List ο},
      is.foldlM (fun r i => (f r.1 i).map fun r' => (r'.1, r.2 ++ r'.2)) (s, os₀) = some (t, os) →
      ∃ os', os = os₀ ++ os' ∧ Trace step s is t os' := by
  intro is
  induction is using List.reverseRecOn with
  | nil =>
    intro s t os₀ os h
    cases h
    exact ⟨[], (List.append_nil _).symm, .nil⟩
  | append_singleton is i ih =>
    intro s t os₀ os h
    rw [List.foldlM_append] at h
    obtain ⟨⟨u, osu⟩, hu, h⟩ := Option.bind_eq_some_iff.mp h
    have hi : (f u i).map (fun r' => (r'.1, osu ++ r'.2)) = some (t, os) := by simpa using h
    obtain ⟨⟨t', os'⟩, hf', hpair⟩ := Option.map_eq_some_iff.mp hi
    cases hpair
    obtain ⟨osw, rfl, htrace⟩ := ih hu
    exact ⟨osw ++ os', (List.append_assoc ..), .snoc i htrace (hf hf')⟩

end Trace

end Tesla.Lib
