import Mathlib.Data.List.Basic
import Mathlib.Data.List.Induction
import Mathlib.Data.List.ReduceOption

/-!
# Runs of a step function

A system is a state type `σ`, an event type `ε` and a function
`step : σ → ε → σ`.  Whatever the environment decides (clock readings, results
of system calls, incoming messages) is part of the event, so that a run is
determined by its first state and its list of events.

* `run`: the state after a list of events, oldest event first.
* `StepsMeet P`: every step of the run satisfies `P` in the state before it.
* `Throughout Q`: `Q` holds in every state of the run, the first one included.
* `Since P Q`: some step of the run meets `P`, and none since then meets `Q`.
* `outputs`: what the steps of the run give out.
* `total`: the sum of a number that each step gives out.
* `Reachable`: the states that some run from `init` ends in.
* `opsOf`: the operations that a run performs on one part of the state.

The rules below are the inductions every safety proof repeats.
-/

namespace Runs

universe u v w

section Basic

variable {σ : Type u} {ε : Type v}
variable (step : σ → ε → σ)

/-- The state after `events`, oldest first. -/
def run (s : σ) (events : List ε) : σ :=
  events.foldl step s

@[simp] theorem run_nil (s : σ) :
    run step s [] = s := by
  rfl

@[simp] theorem run_cons
    (s : σ) (e : ε) (events : List ε) :
    run step s (e :: events) =
      run step (step s e) events := by
  rfl

@[simp] theorem run_append
    (s : σ) (before after : List ε) :
    run step s (before ++ after) =
      run step (run step s before) after := by
  simp [run]

/-- Every step of the run satisfies `P` in the state it starts from. -/
def StepsMeet (P : σ → ε → Prop) : σ → List ε → Prop
  | _, [] => True
  | s, e :: events => P s e ∧ StepsMeet P (step s e) events

/-- `Q` holds in every state of the run. -/
def Throughout (Q : σ → Prop) : σ → List ε → Prop
  | s, [] => Q s
  | s, e :: events => Q s ∧ Throughout Q (step s e) events

/-- Some step of the run meets `P`, and no later one meets `Q`. -/
def Since (P Q : σ → ε → Prop) : σ → List ε → Prop
  | _, [] => False
  | s, e :: events =>
      (P s e ∧ StepsMeet step (fun s e => ¬ Q s e) (step s e) events) ∨
        Since P Q (step s e) events

/-- What the steps of the run give out, in order. -/
def outputs {ω : Type w} (out : σ → ε → ω) : σ → List ε → List ω
  | _, [] => []
  | s, e :: events => out s e :: outputs out (step s e) events

/-- The states some run from `init` ends in. -/
def Reachable (init s : σ) : Prop :=
  ∃ events : List ε, run step init events = s

end Basic

section Rules

variable {σ : Type u} {ε : Type v}
variable {step : σ → ε → σ}

theorem stepsMeet_append
    {P : σ → ε → Prop} {s : σ} {before after : List ε} :
    StepsMeet step P s (before ++ after) ↔
      StepsMeet step P s before ∧
        StepsMeet step P (run step s before) after := by
  induction before generalizing s with
  | nil =>
      exact ⟨fun h => ⟨trivial, h⟩, fun h => h.2⟩
  | cons e before ih =>
      simp only [List.cons_append, StepsMeet, run_cons, ih, and_assoc]

theorem outputs_append {ω : Type w} (out : σ → ε → ω) (s : σ)
    (before after : List ε) :
    outputs step out s (before ++ after) =
      outputs step out s before ++
        outputs step out (run step s before) after := by
  induction before generalizing s with
  | nil =>
      rfl
  | cons e before ih =>
      rw [List.cons_append, outputs, outputs, ih, List.cons_append, run_cons]

theorem mem_outputs {ω : Type w} {out : σ → ε → ω} {s : σ}
    {events : List ε} {x : ω} (hx : x ∈ outputs step out s events) :
    ∃ t, ∃ e ∈ events, x = out t e := by
  induction events generalizing s with
  | nil =>
      cases hx
  | cons e events ih =>
      rcases List.mem_cons.mp hx with rfl | hx
      · exact ⟨s, e, List.mem_cons_self, rfl⟩
      · obtain ⟨t, e', he', heq⟩ := ih hx
        exact ⟨t, e', List.mem_cons_of_mem e he', heq⟩

/-- Conditions that agree on the states of an invariant agree on a run. -/
theorem stepsMeet_iff
    {I : σ → Prop} {P Q : σ → ε → Prop}
    (hinv : ∀ s e, I s → I (step s e))
    (hiff : ∀ s e, I s → (P s e ↔ Q s e))
    {s : σ} (hs : I s) (events : List ε) :
    StepsMeet step P s events ↔ StepsMeet step Q s events := by
  induction events generalizing s with
  | nil =>
      rfl
  | cons e events ih =>
      exact and_congr (hiff s e hs) (ih (hinv s e hs))

/-- An invariant of the steps that meet `P` holds after a run of such steps. -/
theorem run_invariant_of_steps
    {I : σ → Prop} {P : σ → ε → Prop}
    (hstep : ∀ s e, I s → P s e → I (step s e))
    {s : σ} (hs : I s) {events : List ε}
    (hmeet : StepsMeet step P s events) :
    I (run step s events) := by
  induction events generalizing s with
  | nil =>
      exact hs
  | cons e events ih =>
      obtain ⟨he, hrest⟩ := hmeet
      exact ih (hstep s e hs he) hrest

theorem stepsMeet_of_events
    {E : ε → Prop} {s : σ} {events : List ε} (hE : ∀ e ∈ events, E e) :
    StepsMeet step (fun _ e => E e) s events := by
  induction events generalizing s with
  | nil =>
      trivial
  | cons e events ih =>
      exact ⟨hE e (by simp),
        ih fun e' hmem => hE e' (List.mem_cons_of_mem e hmem)⟩

/-- An invariant of the steps by events in `E` holds after such events. -/
theorem run_invariant_of_events
    {I : σ → Prop} {E : ε → Prop}
    (hstep : ∀ s e, E e → I s → I (step s e))
    {s : σ} (hs : I s) {events : List ε} (hE : ∀ e ∈ events, E e) :
    I (run step s events) :=
  run_invariant_of_steps (fun s e hs he => hstep s e he hs) hs
    (stepsMeet_of_events hE)

/--
What some event of the run brings about, and no event of the run undoes, is
true at the end.
-/
theorem run_established
    {I P : σ → Prop} {E : ε → Prop}
    (hinv : ∀ s e, E e → I s → I (step s e))
    (hkeep : ∀ s e, E e → I s → P s → P (step s e))
    {e : ε} (hset : ∀ s, I s → P (step s e))
    {s : σ} (hs : I s) {events : List ε} (hE : ∀ e ∈ events, E e)
    (he : e ∈ events) :
    P (run step s events) := by
  obtain ⟨before, after, rfl⟩ := List.append_of_mem he
  have hbefore : I (run step s before) :=
    run_invariant_of_events hinv hs fun e' he' =>
      hE e' (List.mem_append_left _ he')
  have hnext : I (step (run step s before) e) ∧
      P (step (run step s before) e) :=
    ⟨hinv _ e (hE e he) hbefore, hset _ hbefore⟩
  have hend := run_invariant_of_events (I := fun s => I s ∧ P s)
    (fun s e' he' h => ⟨hinv s e' he' h.1, hkeep s e' he' h.1 h.2⟩) hnext
    fun e' he' =>
      hE e' (List.mem_append_right _ (List.mem_cons_of_mem e he'))
  rw [run_append, run_cons]
  exact hend.2

/-- An invariant of every step holds after every run. -/
theorem run_invariant
    {I : σ → Prop}
    (hstep : ∀ s e, I s → I (step s e))
    {s : σ} (hs : I s) (events : List ε) :
    I (run step s events) :=
  run_invariant_of_events (fun s e _ => hstep s e) hs
    (fun _ _ => trivial)

theorem Reachable.invariant
    {I : σ → Prop} {init s : σ}
    (hinit : I init)
    (hstep : ∀ s e, I s → I (step s e))
    (hs : Reachable step init s) :
    I s := by
  obtain ⟨events, rfl⟩ := hs
  exact run_invariant hstep hinit events

theorem Reachable.refl (init : σ) :
    Reachable step init init :=
  ⟨[], rfl⟩

theorem Reachable.next
    {init s : σ} (hs : Reachable step init s) (e : ε) :
    Reachable step init (step s e) := by
  obtain ⟨events, rfl⟩ := hs
  exact ⟨events ++ [e], by simp⟩

/-- `Throughout` spelled out: `Q` holds after every first part of the run. -/
theorem throughout_iff_prefix
    {Q : σ → Prop} {s : σ} {events : List ε} :
    Throughout step Q s events ↔
      ∀ before after, events = before ++ after →
        Q (run step s before) := by
  induction events generalizing s with
  | nil =>
      constructor
      · intro h before after hsplit
        obtain ⟨rfl, rfl⟩ := List.append_eq_nil_iff.mp hsplit.symm
        exact h
      · intro h
        exact h [] [] rfl
  | cons e events ih =>
      constructor
      · rintro ⟨hs, hrest⟩ before after hsplit
        cases before with
        | nil =>
            exact hs
        | cons e' before =>
            obtain ⟨rfl, rfl⟩ := List.cons.inj hsplit
            exact ih.mp hrest before after rfl
      · intro h
        refine ⟨h [] (e :: events) rfl, ih.mpr ?_⟩
        intro before after hsplit
        exact h (e :: before) after (by rw [hsplit]; rfl)

/--
Where a step keeps `Q` exactly when it meets `P`, a run stays within `Q`
exactly when all of its steps meet `P`.  `E` restricts the events, `I` the
states.
-/
theorem throughout_iff_stepsMeet
    {E : ε → Prop} {I Q : σ → Prop} {P : σ → ε → Prop}
    (hinv : ∀ s e, E e → I s → I (step s e))
    (hexact : ∀ s e, E e → I s → Q s → (Q (step s e) ↔ P s e))
    {s : σ} (hs : I s) (hq : Q s)
    {events : List ε} (hE : ∀ e ∈ events, E e) :
    Throughout step Q s events ↔ StepsMeet step P s events := by
  induction events generalizing s with
  | nil =>
      exact ⟨fun _ => trivial, fun _ => hq⟩
  | cons e events ih =>
      have he := hE e (by simp)
      have hrest : ∀ e' ∈ events, E e' :=
        fun e' hmem => hE e' (List.mem_cons_of_mem e hmem)
      constructor
      · rintro ⟨-, hlater⟩
        have hnext : Q (step s e) := by
          cases events with
          | nil => exact hlater
          | cons _ _ => exact hlater.1
        exact ⟨(hexact s e he hs hq).mp hnext,
          (ih (hinv s e he hs) hnext hrest).mp hlater⟩
      · rintro ⟨hmeet, hlater⟩
        have hnext := (hexact s e he hs hq).mpr hmeet
        exact ⟨hq, (ih (hinv s e he hs) hnext hrest).mpr hlater⟩

/--
What is true after a step exactly if the step meets `P`, or it was true and the
step does not meet `Q`, is true after a run exactly if some step met `P` and
none since then met `Q`, or it was true all along.
-/
theorem run_iff_since
    {H : σ → Prop} {P Q : σ → ε → Prop}
    (hexact : ∀ s e, H (step s e) ↔ P s e ∨ (H s ∧ ¬ Q s e))
    (s : σ) (events : List ε) :
    H (run step s events) ↔
      Since step P Q s events ∨
        (H s ∧ StepsMeet step (fun s e => ¬ Q s e) s events) := by
  induction events generalizing s with
  | nil =>
      simp [Since, StepsMeet]
  | cons e events ih =>
      rw [run_cons, ih, hexact s e, Since, StepsMeet]
      tauto

end Rules

section Simulation

variable {σ : Type u} {τ : Type w} {ε δ : Type v}
variable {step : σ → ε → σ} {step' : τ → δ → τ}

/-- A relation every step keeps relates the ends of two runs in lockstep. -/
theorem run_simulates
    {R : σ → τ → Prop} (abs : ε → δ)
    (hstep : ∀ s t e, R s t → R (step s e) (step' t (abs e)))
    {s : σ} {t : τ} (hst : R s t) (events : List ε) :
    R (run step s events) (run step' t (events.map abs)) := by
  induction events generalizing s t with
  | nil =>
      exact hst
  | cons e events ih =>
      exact ih (hstep s t e hst)

/--
Two runs on events that are related one by one: a relation of states that the
steps keep holds at the end, and where it makes the outputs of a step equal,
the runs give out the same.
-/
theorem run_related {ω : Type w} (out : σ → ε → ω)
    {R : σ → σ → Prop} {E : ε → ε → Prop}
    (hstep : ∀ s t e e', R s t → E e e' →
      R (step s e) (step t e') ∧ out s e = out t e')
    {s t : σ} (hst : R s t) {events events' : List ε}
    (hevents : List.Forall₂ E events events') :
    R (run step s events) (run step t events') ∧
      outputs step out s events = outputs step out t events' := by
  induction hevents generalizing s t with
  | nil =>
      exact ⟨hst, rfl⟩
  | cons he hrest ih =>
      obtain ⟨hnext, hout⟩ := hstep s t _ _ hst he
      obtain ⟨hend, houts⟩ := ih hnext
      exact ⟨hend, by rw [outputs, outputs, hout, houts]⟩

/--
Events that keep two related states related and give nothing out can be left
out of a run: the ends are related, and the runs give out the same.
-/
theorem run_filter {ω : Type w} {out : σ → ε → Option ω} {keep : ε → Bool}
    {R : σ → σ → Prop}
    (hkeep : ∀ s t e, R s t → keep e = true →
      R (step s e) (step t e) ∧ out s e = out t e)
    (hdrop : ∀ s t e, R s t → keep e = false →
      R (step s e) t ∧ out s e = none)
    {s t : σ} (hst : R s t) (events : List ε) :
    R (run step s events) (run step t (events.filter keep)) ∧
      (outputs step out s events).reduceOption =
        (outputs step out t (events.filter keep)).reduceOption := by
  induction events generalizing s t with
  | nil =>
      exact ⟨hst, rfl⟩
  | cons e events ih =>
      cases hcase : keep e with
      | true =>
          obtain ⟨hnext, hout⟩ := hkeep s t e hst hcase
          obtain ⟨hend, houts⟩ := ih hnext
          rw [List.filter_cons_of_pos hcase, run_cons, run_cons, outputs,
            outputs, hout]
          refine ⟨hend, ?_⟩
          cases out t e with
          | none =>
              rwa [List.reduceOption_cons_of_none,
                List.reduceOption_cons_of_none]
          | some x =>
              rw [List.reduceOption_cons_of_some,
                List.reduceOption_cons_of_some, houts]
      | false =>
          obtain ⟨hnext, hnone⟩ := hdrop s t e hst hcase
          obtain ⟨hend, houts⟩ := ih hnext
          rw [List.filter_cons_of_neg (by simp [hcase]), run_cons, outputs,
            hnone, List.reduceOption_cons_of_none]
          exact ⟨hend, houts⟩

end Simulation

section Parts

variable {σ : Type u} {τ : Type w} {ε δ : Type v}
variable (step : σ → ε → σ) (op : σ → ε → Option δ)

/-- The operations that the steps of a run perform on a part of the state. -/
def opsOf : σ → List ε → List δ
  | _, [] => []
  | s, e :: events => (op s e).toList ++ opsOf (step s e) events

theorem opsOf_append (s : σ) (before after : List ε) :
    opsOf step op s (before ++ after) =
      opsOf step op s before ++ opsOf step op (run step s before) after := by
  induction before generalizing s with
  | nil =>
      rfl
  | cons e before ih =>
      rw [List.cons_append, opsOf, opsOf, ih, run_cons, List.append_assoc]

variable {step op}

theorem throughout_concat {Q : σ → Prop} {s : σ} {events : List ε} {e : ε} :
    Throughout step Q s (events ++ [e]) ↔
      Throughout step Q s events ∧ Q (step (run step s events) e) := by
  induction events generalizing s with
  | nil =>
      rfl
  | cons e' events ih =>
      rw [List.cons_append, Throughout, Throughout, ih, run_cons, and_assoc]

/--
A part of the state that is there or not, `view`, and that a step changes by
its own operation as long as it is there: while it is there, it is the run of
its own operations.
-/
theorem run_kept {view : σ → Option τ} {act : τ → δ → τ}
    (hpart : ∀ s e t t', view s = some t → view (step s e) = some t' →
      t' = run act t (op s e).toList)
    {s : σ} {t : τ} (ht : view s = some t) {events : List ε}
    (hkept : Throughout step (fun s => (view s).isSome) s events) :
    view (run step s events) = some (run act t (opsOf step op s events)) := by
  induction events generalizing s t with
  | nil =>
      exact ht
  | cons e events ih =>
      obtain ⟨-, hrest⟩ := hkept
      have hnext : (view (step s e)).isSome := by
        cases events with
        | nil => exact hrest
        | cons e' events => exact hrest.1
      obtain ⟨t', ht'⟩ := Option.isSome_iff_exists.mp hnext
      rw [run_cons, ih ht' hrest, opsOf, run_append, hpart s e t t' ht ht']

/--
If such a part is there at the end of a run, it appeared at some event, and is
the run of its own operations since.
-/
theorem run_part {view : σ → Option τ} {act : τ → δ → τ}
    (hpart : ∀ s e t t', view s = some t → view (step s e) = some t' →
      t' = run act t (op s e).toList)
    {s : σ} {t : τ} (hnone : view s = none) (events : List ε)
    (ht : view (run step s events) = some t) :
    ∃ before e after t₀,
      events = before ++ e :: after ∧
      view (run step s before) = none ∧
      view (step (run step s before) e) = some t₀ ∧
      Throughout step (fun s => (view s).isSome)
        (step (run step s before) e) after ∧
      t = run act t₀ (opsOf step op (step (run step s before) e) after) := by
  induction events using List.reverseRecOn generalizing t with
  | nil =>
      rw [run_nil, hnone] at ht
      cases ht
  | append_singleton events e ih =>
      rw [run_append, run_cons, run_nil] at ht
      cases hview : view (run step s events) with
      | none =>
          refine ⟨events, e, [], t, rfl, hview, ht, ?_, rfl⟩
          exact Option.isSome_iff_exists.mpr ⟨t, ht⟩
      | some t' =>
          obtain ⟨before, e', after, t₀, rfl, hbefore, hborn, hkept, hrun⟩ :=
            ih hview
          have hlast : run step (step (run step s before) e') after =
              run step s (before ++ e' :: after) := by
            rw [run_append, run_cons]
          refine ⟨before, e', after ++ [e], t₀, by simp, hbefore, hborn, ?_, ?_⟩
          · rw [throughout_concat]
            refine ⟨hkept, ?_⟩
            rw [hlast]
            exact Option.isSome_iff_exists.mpr ⟨t, ht⟩
          · rw [hpart _ e t' t hview ht, hrun,
              opsOf_append, run_append, hlast]
            simp [opsOf]

end Parts

section Totals

variable {σ : Type u} {ε : Type v}
variable (step : σ → ε → σ)

/-- What the steps of the run give out in total. -/
def total (w : σ → ε → Nat) : σ → List ε → Nat
  | _, [] => 0
  | s, e :: events => w s e + total w (step s e) events

variable {step}

/--
What the steps give out is covered by what they take in, if each of them pays
for the rest from the potential of its state.
-/
theorem total_le_of_potential (potential : σ → Nat) {I : σ → Prop}
    {given taken : σ → ε → Nat} (hinv : ∀ s e, I s → I (step s e))
    (hstep : ∀ s e, I s →
      given s e + potential (step s e) ≤ potential s + taken s e)
    {s : σ} (hs : I s) (events : List ε) :
    total step given s events + potential (run step s events) ≤
      potential s + total step taken s events := by
  induction events generalizing s with
  | nil =>
      exact Nat.le_of_eq (Nat.add_comm _ _)
  | cons e events ih =>
      have hfirst := hstep s e hs
      have hrest := ih (hinv s e hs)
      rw [total, total, run_cons]
      omega

end Totals

end Runs
