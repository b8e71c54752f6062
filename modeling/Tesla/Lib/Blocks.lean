/-
# `Tesla.Lib.Blocks` — control-flow graphs that are rewritten in place

Basic blocks are created empty, written once, and inserted in front of other blocks by
redirecting every branch to these:

    create                a new block, without a terminator
    replaceAllUses x y    every branch to `x` goes to `y`
    finish x              the body and the terminator of a block
    guard x stop t        a new block in front of `x` that tests `t`
    run                   execution, up to a return

`Leads` is a path between two blocks, given by what it executes; the blocks inside it have a
property, so that a path can be said to avoid the blocks that are rewritten.  The operations
keep the paths they do not concern, and `replaceAllUses` moves the end of those that end in
the block replaced.
-/
import Mathlib.Data.List.Basic
import Mathlib.Data.Option.Basic

namespace Tesla.Lib

/-! ## Blocks -/

/-- How a block ends. -/
inductive Terminator (τ : Type*) where
  | ret
  | br (target : Nat)
  | condBr (test : τ) (yes no : Nat)

structure BasicBlock (α τ : Type*) where
  body : List α
  /-- None while the block is being written. -/
  term : Option (Terminator τ)

/-- A block is referred to by its position, in the order of creation. -/
structure Cfg (α τ : Type*) where
  blocks : List (BasicBlock α τ)

variable {α τ : Type*}

namespace Terminator

def next (holds : τ → Bool) : Terminator τ → Option Nat
  | ret => none
  | br target => some target
  | condBr test yes no => some (if holds test then yes else no)

def redirect (x y : Nat) : Terminator τ → Terminator τ
  | ret => ret
  | br target => br (if target = x then y else target)
  | condBr test yes no => condBr test (if yes = x then y else yes) (if no = x then y else no)

theorem next_redirect {holds : τ → Bool} {x y : Nat} (t : Terminator τ) :
    (t.redirect x y).next holds = (t.next holds).map fun n => if n = x then y else n := by
  cases t with
  | ret => rfl
  | br target => rfl
  | condBr test yes no =>
    simp only [redirect, next, Option.map_some]
    split <;> rfl

end Terminator

namespace Cfg

/-! ## Rewriting -/

/-- The block that is created next. -/
def fresh (g : Cfg α τ) : Nat := g.blocks.length

def create (g : Cfg α τ) : Cfg α τ := ⟨g.blocks ++ [⟨[], none⟩]⟩

def replaceAllUses (x y : Nat) (g : Cfg α τ) : Cfg α τ :=
  ⟨g.blocks.map fun b => { b with term := b.term.map (Terminator.redirect x y) }⟩

def finish (x : Nat) (body : List α) (t : Terminator τ) (g : Cfg α τ) : Cfg α τ :=
  ⟨g.blocks.set x ⟨body, some t⟩⟩

/-- A new block in front of `x`, which goes on to `stop` unless a test holds. -/
def guard (x stop : Nat) (t : τ) (g : Cfg α τ) : Cfg α τ :=
  (g.create.replaceAllUses x g.fresh).finish g.fresh [] (.condBr t x stop)

def guards (x stop : Nat) (ts : List τ) (g : Cfg α τ) : Cfg α τ :=
  ts.foldl (fun g t => g.guard x stop t) g

/-! ## Execution -/

def body (g : Cfg α τ) (b : Nat) : List α := ((g.blocks[b]?).map (·.body)).getD []

def term (g : Cfg α τ) (b : Nat) : Option (Terminator τ) := (g.blocks[b]?).bind (·.term)

/-- The block that is executed after a block. -/
def next (g : Cfg α τ) (holds : τ → Bool) (b : Nat) : Option Nat :=
  (g.term b).bind (Terminator.next holds)

/-- What is executed from a block on, and the block that returns. -/
def run (g : Cfg α τ) (holds : τ → Bool) : Nat → Nat → Option (List α × Nat)
  | 0, _ => none
  | fuel + 1, b =>
    match g.term b with
    | none => none
    | some .ret => some (g.body b, b)
    | some t =>
      match t.next holds with
      | none => none
      | some b' => (g.run holds fuel b').map fun r => (g.body b ++ r.1, r.2)

/-- The execution from a block ends. -/
def Ends (g : Cfg α τ) (holds : τ → Bool) (b : Nat) (trace : List α) (e : Nat) : Prop :=
  ∃ n, ∀ fuel, n ≤ fuel → g.run holds fuel b = some (trace, e)

/-- A path from a block to another, of which the blocks in between satisfy `P`. -/
inductive Leads (g : Cfg α τ) (holds : τ → Bool) (P : Nat → Prop) : Nat → List α → Nat → Prop
  | last {b e : Nat} : g.next holds b = some e → Leads g holds P b (g.body b) e
  | step {b b' e : Nat} {trace : List α} : g.next holds b = some b' → P b' →
      Leads g holds P b' trace e → Leads g holds P b (g.body b ++ trace) e

/-! ## What rewriting does to a block -/

variable {g : Cfg α τ} {holds : τ → Bool} {P Q : Nat → Prop} {x y b e e' : Nat}
  {trace trace' actions : List α} {t : Terminator τ}

@[simp] theorem fresh_create : g.create.fresh = g.fresh + 1 := by
  simp [fresh, create]

@[simp] theorem fresh_replaceAllUses : (g.replaceAllUses x y).fresh = g.fresh := by
  simp [fresh, replaceAllUses]

@[simp] theorem fresh_finish : (g.finish x actions t).fresh = g.fresh := by
  simp [fresh, finish]

@[simp] theorem term_create : g.create.term b = g.term b := by
  rw [term, term, create, List.getElem?_append]
  split
  · rfl
  · next hlen =>
    rw [List.getElem?_eq_none (by omega : g.blocks.length ≤ b), List.getElem?_singleton]
    split <;> rfl

@[simp] theorem body_create : g.create.body b = g.body b := by
  rw [body, body, create, List.getElem?_append]
  split
  · rfl
  · next hlen =>
    rw [List.getElem?_eq_none (by omega : g.blocks.length ≤ b), List.getElem?_singleton]
    split <;> rfl

@[simp] theorem term_replaceAllUses :
    (g.replaceAllUses x y).term b = (g.term b).map (Terminator.redirect x y) := by
  rw [term, term, replaceAllUses, List.getElem?_map]
  cases g.blocks[b]? <;> rfl

@[simp] theorem body_replaceAllUses : (g.replaceAllUses x y).body b = g.body b := by
  rw [body, body, replaceAllUses, List.getElem?_map]
  cases g.blocks[b]? <;> rfl

theorem term_finish_self (hx : x < g.fresh) : (g.finish x actions t).term x = some t := by
  rw [term, finish, List.getElem?_set_self hx]
  rfl

theorem body_finish_self (hx : x < g.fresh) : (g.finish x actions t).body x = actions := by
  rw [body, finish, List.getElem?_set_self hx]
  rfl

theorem term_finish_of_ne (hne : b ≠ x) : (g.finish x actions t).term b = g.term b := by
  rw [term, term, finish, List.getElem?_set_ne hne.symm]

theorem body_finish_of_ne (hne : b ≠ x) : (g.finish x actions t).body b = g.body b := by
  rw [body, body, finish, List.getElem?_set_ne hne.symm]

@[simp] theorem fresh_guard {stop : Nat} {c : τ} : (g.guard x stop c).fresh = g.fresh + 1 := by
  simp [guard]

theorem term_guard_of_ne {stop : Nat} {c : τ} (hne : b ≠ g.fresh) :
    (g.guard x stop c).term b = (g.term b).map (Terminator.redirect x g.fresh) := by
  rw [guard, term_finish_of_ne hne, term_replaceAllUses, term_create]

theorem body_guard_of_ne {stop : Nat} {c : τ} (hne : b ≠ g.fresh) :
    (g.guard x stop c).body b = g.body b := by
  rw [guard, body_finish_of_ne hne, body_replaceAllUses, body_create]

theorem term_of_fresh_le (hb : g.fresh ≤ b) : g.term b = none := by
  rw [term, List.getElem?_eq_none hb]
  rfl

/-! ## What rewriting does to a path -/

theorem Leads.mono (h : g.Leads holds P b trace e) (hPQ : ∀ c, P c → Q c) :
    g.Leads holds Q b trace e := by
  induction h with
  | last hnext => exact .last hnext
  | step hnext hP _ ih => exact .step hnext (hPQ _ hP) ih

theorem Leads.trans (h : g.Leads holds P b trace e) (hP : P e)
    (h' : g.Leads holds P e trace' e') : g.Leads holds P b (trace ++ trace') e' := by
  induction h with
  | last hnext => exact .step hnext hP h'
  | step hnext hPb _ ih =>
    rw [List.append_assoc]
    exact .step hnext hPb (ih hP h')

theorem Leads.term_ne_none (h : g.Leads holds P b trace e) : g.term b ≠ none := by
  intro hnone
  cases h with
  | last hnext | step hnext _ _ =>
    rw [next, hnone] at hnext
    cases hnext

/-- A block without a terminator is on no path, but as its end. -/
theorem Leads.avoids (h : g.Leads holds P b trace e) (hx : g.term x = none) :
    g.Leads holds (fun c => P c ∧ c ≠ x) b trace e := by
  induction h with
  | last hnext => exact .last hnext
  | step hnext hP htail ih =>
    refine .step hnext ⟨hP, ?_⟩ ih
    rintro rfl
    exact htail.term_ne_none hx

/-- A path is kept where the terminators and the bodies of its blocks are. -/
theorem Leads.congr {g' : Cfg α τ} (h : g.Leads holds P b trace e)
    (hterm : ∀ c, g.term c ≠ none → g'.term c = g.term c ∧ g'.body c = g.body c) :
    g'.Leads holds P b trace e := by
  have hkept (c n : Nat) (hnext : g.next holds c = some n) :
      g'.next holds c = some n ∧ g'.body c = g.body c := by
    have hsome : g.term c ≠ none := by
      intro hnone
      rw [next, hnone] at hnext
      cases hnext
    obtain ⟨hterm, hbody⟩ := hterm c hsome
    exact ⟨by rw [next, hterm, ← next, hnext], hbody⟩
  induction h with
  | last hnext =>
    obtain ⟨hnext, hbody⟩ := hkept _ _ hnext
    rw [← hbody]
    exact .last hnext
  | step hnext hP _ ih =>
    obtain ⟨hnext, hbody⟩ := hkept _ _ hnext
    rw [← hbody]
    exact .step hnext hP ih

theorem Leads.create (h : g.Leads holds P b trace e) : g.create.Leads holds P b trace e :=
  h.congr fun _ _ => ⟨term_create, body_create⟩

theorem Leads.finish (actions : List α) (t : Terminator τ) (h : g.Leads holds P b trace e)
    (hx : g.term x = none) :
    (g.finish x actions t).Leads holds P b trace e := by
  refine h.congr fun c hc => ?_
  have hne : c ≠ x := by
    rintro rfl
    exact hc hx
  exact ⟨term_finish_of_ne hne, body_finish_of_ne hne⟩

/-- Where a path ends in the block replaced, it ends in the other one now. -/
theorem Leads.replaceAllUses (h : g.Leads holds P b trace e) (hx : ¬ P x) :
    (g.replaceAllUses x y).Leads holds P b trace (if e = x then y else e) := by
  have hnext' (c n : Nat) (hnext : g.next holds c = some n) :
      (g.replaceAllUses x y).next holds c = some (if n = x then y else n) := by
    rw [next] at hnext ⊢
    obtain ⟨t, ht, hn⟩ := Option.bind_eq_some_iff.mp hnext
    rw [term_replaceAllUses, ht, Option.map_some, Option.bind_some, Terminator.next_redirect, hn,
      Option.map_some]
  induction h with
  | last hnext =>
    rw [← body_replaceAllUses (x := x) (y := y)]
    exact .last (hnext' _ _ hnext)
  | @step b b' e trace hnext hP _ ih =>
    have hne : b' ≠ x := by
      rintro rfl
      exact hx hP
    rw [← body_replaceAllUses (x := x) (y := y)]
    refine .step ?_ hP ih
    rw [hnext' _ _ hnext, if_neg hne]

/-- A path that ends in the block that is guarded goes on where the test says. -/
theorem Leads.guard (stop : Nat) (c : τ) (h : g.Leads holds P b trace e) (hx : ¬ P x)
    (hfresh : P g.fresh) : (g.guard x stop c).Leads holds P b trace
      (if e = x then if holds c then x else stop else e) := by
  have hlt : g.fresh < (g.create.replaceAllUses x g.fresh).fresh := by simp
  have hopen : (g.create.replaceAllUses x g.fresh).term g.fresh = none := by
    simp [term_of_fresh_le]
  have hmoved := (h.create.replaceAllUses (y := g.fresh) hx).finish [] (.condBr c x stop) hopen
  by_cases he : e = x
  · rw [if_pos he] at hmoved
    have hnext : (g.guard x stop c).next holds g.fresh = some (if holds c then x else stop) := by
      rw [next, Cfg.guard, term_finish_self hlt]
      rfl
    have hon := hmoved.trans hfresh (.last hnext)
    rw [body_finish_self hlt, List.append_nil] at hon
    rwa [if_pos he]
  · rw [if_neg he] at hmoved
    rwa [if_neg he]

theorem guards_append {stop : Nat} {ts us : List τ} :
    g.guards x stop (ts ++ us) = (g.guards x stop ts).guards x stop us := List.foldl_append

theorem fresh_guards {stop : Nat} {ts : List τ} :
    (g.guards x stop ts).fresh = g.fresh + ts.length := by
  induction ts generalizing g with
  | nil => rfl
  | cons c ts ih =>
    rw [guards, List.foldl_cons, ← guards, ih, fresh_guard, List.length_cons]
    omega

/-- A block that goes on to nowhere is left as it is. -/
theorem block_guards (x stop : Nat) (ts : List τ) (hb : b < g.fresh)
    (hend : g.term b = none ∨ g.term b = some .ret) :
    (g.guards x stop ts).term b = g.term b ∧ (g.guards x stop ts).body b = g.body b := by
  induction ts generalizing g with
  | nil => exact ⟨rfl, rfl⟩
  | cons c ts ih =>
    have hterm : (g.guard x stop c).term b = g.term b := by
      rw [term_guard_of_ne (Nat.ne_of_lt hb)]
      rcases hend with hend | hend <;> rw [hend] <;> rfl
    rw [guards, List.foldl_cons, ← guards]
    rw [← hterm] at hend ⊢
    have hbody : (g.guard x stop c).body b = g.body b := body_guard_of_ne (Nat.ne_of_lt hb)
    rw [← hbody]
    exact ih (by simp; omega) hend

/-- With several guards a path goes on where all of them say. -/
theorem Leads.guards (stop : Nat) (ts : List τ) (h : g.Leads holds P b trace e) (hx : ¬ P x)
    (hstop : stop ≠ x) (hfresh : ∀ c, g.fresh ≤ c → P c) : (g.guards x stop ts).Leads holds P b trace
      (if e = x then if ts.all holds then x else stop else e) := by
  induction ts generalizing g e with
  | nil =>
    rw [List.all_nil, if_pos rfl]
    by_cases he : e = x
    · rwa [if_pos he, ← he]
    · rwa [if_neg he]
  | cons c ts ih =>
    have hnext := ih (h.guard stop c hx (hfresh _ (Nat.le_refl _))) fun c hc =>
      hfresh c (by rw [fresh_guard] at hc; omega)
    rw [Cfg.guards, List.foldl_cons, ← Cfg.guards, List.all_cons]
    by_cases he : e = x
    · rw [if_pos he] at hnext ⊢
      cases hc : holds c with
      | true => rwa [hc, if_pos rfl, if_pos rfl] at hnext
      | false => rwa [hc, if_neg Bool.false_ne_true, if_neg hstop] at hnext
    · rw [if_neg he] at hnext ⊢
      rwa [if_neg he] at hnext

/-! ## Execution follows a path -/

theorem run_of_next {fuel : Nat} (hnext : g.next holds b = some e) :
    g.run holds (fuel + 1) b = (g.run holds fuel e).map fun r => (g.body b ++ r.1, r.2) := by
  obtain ⟨t, ht, hn⟩ := Option.bind_eq_some_iff.mp hnext
  rw [run, ht]
  cases t with
  | ret => cases hn
  | br target => simp only [hn]
  | condBr test yes no => simp only [hn]

/-- More fuel makes no difference. -/
theorem ends_of_run {n : Nat} {r : List α × Nat} (h : g.run holds n b = some r) :
    g.Ends holds b r.1 r.2 := by
  refine ⟨n, fun fuel hfuel => ?_⟩
  induction n generalizing b r fuel with
  | zero => cases h
  | succ n ih =>
    obtain ⟨fuel, rfl⟩ := Nat.exists_eq_add_of_le' (Nat.le_trans (Nat.le_add_left 1 n) hfuel)
    rw [run] at h ⊢
    cases hterm : g.term b with
    | none =>
      rw [hterm] at h
      cases h
    | some t =>
      rw [hterm] at h
      cases t with
      | ret => exact h
      | br target =>
        obtain ⟨r', hr', rfl⟩ := Option.map_eq_some_iff.mp h
        exact Option.map_eq_some_iff.mpr ⟨r', ih hr' fuel (Nat.le_of_add_le_add_right hfuel), rfl⟩
      | condBr test yes no =>
        obtain ⟨r', hr', rfl⟩ := Option.map_eq_some_iff.mp h
        exact Option.map_eq_some_iff.mpr ⟨r', ih hr' fuel (Nat.le_of_add_le_add_right hfuel), rfl⟩

theorem ends_of_ret (hret : g.term b = some .ret) : g.Ends holds b (g.body b) b := by
  refine ⟨1, fun fuel hfuel => ?_⟩
  obtain ⟨fuel, rfl⟩ := Nat.exists_eq_add_of_le' hfuel
  rw [run, hret]

theorem Ends.before (hnext : g.next holds b = some e) (h : g.Ends holds e trace e') :
    g.Ends holds b (g.body b ++ trace) e' := by
  obtain ⟨n, hrun⟩ := h
  refine ⟨n + 1, fun fuel hfuel => ?_⟩
  obtain ⟨fuel, rfl⟩ := Nat.exists_eq_add_of_le' (Nat.le_of_add_left_le hfuel)
  rw [run_of_next hnext, hrun fuel (Nat.le_of_add_le_add_right hfuel), Option.map_some]

theorem Leads.ends (h : g.Leads holds P b trace e) (hend : g.Ends holds e trace' e') :
    g.Ends holds b (trace ++ trace') e' := by
  induction h with
  | last hnext => exact hend.before hnext
  | step hnext _ _ ih =>
    rw [List.append_assoc]
    exact (ih hend).before hnext

/-- There is one execution. -/
theorem Ends.unique (h : g.Ends holds b trace e) (h' : g.Ends holds b trace' e') :
    trace = trace' ∧ e = e' := by
  obtain ⟨n, hrun⟩ := h
  obtain ⟨m, hrun'⟩ := h'
  have heq := (hrun (max n m) (Nat.le_max_left n m)).symm.trans (hrun' _ (Nat.le_max_right n m))
  cases heq
  exact ⟨rfl, rfl⟩

end Cfg

end Tesla.Lib
