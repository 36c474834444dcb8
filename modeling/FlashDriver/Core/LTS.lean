import Mathlib

/-!
# Labelled transition systems and their histories

The components of the driver are modelled as machines that take one labelled
step at a time. Two things recur: an invariant that may speak about the
labels taken so far ("the last value written"), and a run whose steps all
meet a side condition on the state before the step.

* `Exec tr s`: `s` is reached from an initial state by the labels `tr`,
  oldest first.
* `Exec.history_inv`: an assertion about labels and state that holds
  initially and is kept by each step holds of every execution.
* `restrict`: the same system with a guard on the state before each step.
* `after`: the runs that go on from a given state.
* `run`: executes a list of labels, for systems whose steps can be computed;
  `Exec.check` makes an execution of it.
-/
namespace FlashDriver.Core

structure LTS (S L : Type*) where
  init : S → Prop
  step : S → L → S → Prop

namespace LTS

variable {S L : Type*} {T : LTS S L}

/-- `Exec T tr s`: the labels `tr` lead from an initial state to `s`. -/
inductive Exec (T : LTS S L) : List L → S → Prop
  | init {s : S} (h : T.init s) : Exec T [] s
  | step {tr : List L} {s s' : S} {l : L} (h : Exec T tr s) (hs : T.step s l s') :
      Exec T (tr ++ [l]) s'

/-- Assertions that hold initially and are kept by each step. -/
structure Inductive (T : LTS S L) (I : S → Prop) : Prop where
  init : ∀ s, T.init s → I s
  step : ∀ s l s', I s → T.step s l s' → I s'

/-- As `Inductive`, for assertions that also mention the labels taken. -/
structure HistInductive (T : LTS S L) (I : List L → S → Prop) : Prop where
  init : ∀ s, T.init s → I [] s
  step : ∀ tr s l s', I tr s → T.step s l s' → I (tr ++ [l]) s'

theorem Exec.history_inv {I : List L → S → Prop} (hI : T.HistInductive I) {tr : List L} {s : S}
    (h : T.Exec tr s) : I tr s := by
  induction h with
  | init h => exact hI.init _ h
  | step _ hs ih => exact hI.step _ _ _ _ ih hs

theorem Exec.inv {I : S → Prop} (hI : T.Inductive I) {tr : List L} {s : S} (h : T.Exec tr s) :
    I s :=
  h.history_inv (I := fun _ => I) ⟨hI.init, fun _ => hI.step⟩

/-- The runs of `T` whose steps are all taken from states allowed by `c`. -/
def restrict (T : LTS S L) (c : S → L → Prop) : LTS S L where
  init := T.init
  step s l s' := T.step s l s' ∧ c s l

theorem Exec.of_restrict {c : S → L → Prop} {tr : List L} {s : S}
    (h : (T.restrict c).Exec tr s) : T.Exec tr s := by
  induction h with
  | init h => exact .init h
  | step _ hs ih => exact .step ih hs.1

/-- The runs of `T` from `s0` on. -/
def after (T : LTS S L) (s0 : S) : LTS S L where
  init s := s = s0
  step := T.step

theorem Exec.append {tr tr' : List L} {s0 s : S} (h0 : T.Exec tr s0)
    (h : (T.after s0).Exec tr' s) : T.Exec (tr ++ tr') s := by
  induction h with
  | init h =>
    cases h
    simpa using h0
  | step _ hs ih =>
    rw [← List.append_assoc]
    exact .step ih hs

/-- Executes the labels in turn, each only where `ok` allows it. -/
def run (step : S → L → Option S) (ok : S → L → Bool) : List L → S → Option S
  | [], s => some s
  | l :: ls, s => if ok s l then (step s l).bind (run step ok ls) else none

theorem run_cons {step : S → L → Option S} {ok : S → L → Bool} {l : L} {ls : List L} {s s' : S}
    (h : run step ok (l :: ls) s = some s') :
    ∃ t, ok s l = true ∧ step s l = some t ∧ run step ok ls t = some s' := by
  rw [run] at h
  split at h
  · rename_i hl
    obtain ⟨t, ht, h⟩ := Option.bind_eq_some_iff.mp h
    exact ⟨t, hl, ht, h⟩
  · cases h

theorem Exec.run {step : S → L → Option S} {ok : S → L → Bool}
    (hT : ∀ s l s', ok s l = true → step s l = some s' → T.step s l s') {ls tr : List L} {s s' : S}
    (h0 : T.Exec tr s) (h : run step ok ls s = some s') : T.Exec (tr ++ ls) s' := by
  induction ls generalizing tr s with
  | nil =>
    cases h
    simpa using h0
  | cons l ls ih =>
    obtain ⟨t, hl, ht, h⟩ := run_cons h
    simpa using ih (h0.step (hT s l t hl ht)) h

theorem Exec.check {step : S → L → Option S} (o : Option S) (c : S → L → Prop)
    [∀ s l, Decidable (c s l)] (ls : List L) (p : S → Prop) [DecidablePred p]
    (hT : ∀ s l s', c s l → step s l = some s' → T.step s l s') (h0 : ∀ s, o = some s → T.init s)
    (h : (o.bind (LTS.run step (fun s l => decide (c s l)) ls)).any (fun s => decide (p s)) = true) :
    ∃ s, T.Exec ls s ∧ p s := by
  obtain ⟨s, hs, hp⟩ := (Option.any_eq_true _ _).mp h
  obtain ⟨s0, h₀, hs⟩ := Option.bind_eq_some_iff.mp hs
  have hrun := Exec.run (fun s l s' hl => hT s l s' (of_decide_eq_true hl)) (.init (h0 s0 h₀)) hs
  exact ⟨s, hrun, of_decide_eq_true hp⟩

end LTS

end FlashDriver.Core
