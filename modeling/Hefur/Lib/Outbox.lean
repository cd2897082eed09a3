import Mathlib.Data.List.Nodup

/-!
# Outboxes

A queue of messages that are handed to a transport one by one.  The transport
answers every call with an outcome; after a *transient* one the message stays
where it is, after any other it leaves the queue.

The queue is any collection that gives back what was put into it, in whatever
order (`Slist.Lawful`).  A message is kept with its number, so that equal
messages are told apart, and the outbox records all calls.

* `Accounted`: the messages that were pushed are those that are settled and
  those that still wait, each of them once.
* `Sends`: the calls that one round of sending makes, until it returns.

`Accounted` is kept by `push` and by `send`; `Accounted.once` is what it says of
a single message, and `exists_sends` says that sending always returns.
-/

namespace Outboxes

universe u v w

/-- A collection with a front element. -/
structure Slist (α : Type u) (Q : Type v) where
  empty : Q
  push : α → Q → Q
  front : Q → Option α
  pop : Q → Q
  size : Q → Nat

variable {α : Type u} {Q : Type v}

/--
`push` adds one element, `pop` removes the one that `front` returns, and `size`
counts them; `items` lists the elements in any order.
-/
structure Slist.Lawful (P : Slist α Q) (items : Q → List α) : Prop where
  empty : items P.empty = []
  push : ∀ x q, (items (P.push x q)).Perm (x :: items q)
  front : ∀ q, P.front q = none → items q = []
  pop : ∀ q x, P.front q = some x → (items q).Perm (x :: items (P.pop q))
  size : ∀ q, P.size q = (items q).length

/-- The collection that gives back the latest element first. -/
def Slist.stack : Slist α (List α) where
  empty := []
  push := List.cons
  front := List.head?
  pop := List.tail
  size := List.length

theorem Slist.lawful_stack : (Slist.stack : Slist α (List α)).Lawful id where
  empty := rfl
  push := by
    intro x q
    rfl
  front := by
    intro q hfront
    exact List.head?_eq_none_iff.mp hfront
  pop := by
    intro q x hfront
    obtain ⟨rest, rfl⟩ := List.head?_eq_some_iff.mp hfront
    rfl
  size := by
    intro q
    rfl

/--
The queue, the messages pushed so far, oldest first, and the calls to the
transport with their outcomes, latest first.
-/
structure Outbox (μ : Type u) (ρ : Type w) (Q : Type v) where
  queue : Q
  pushed : List μ
  calls : List ((μ × Nat) × ρ)

namespace Outbox

variable {μ : Type u} {ρ : Type w}

section Operations

variable (P : Slist (μ × Nat) Q) (transient : ρ → Bool)

def new : Outbox μ ρ Q where
  queue := P.empty
  pushed := []
  calls := []

/-- Queue a message under the next number. -/
def push (x : μ) (o : Outbox μ ρ Q) : Outbox μ ρ Q :=
  { o with
    queue := P.push (x, o.pushed.length) o.queue
    pushed := o.pushed ++ [x] }

/-- A call for the front element: it stays if the outcome is transient. -/
def attempt (x : μ × Nat) (outcome : ρ) (o : Outbox μ ρ Q) :
    Outbox μ ρ Q :=
  { o with
    queue := if transient outcome then o.queue else P.pop o.queue
    calls := (x, outcome) :: o.calls }

/-- Send until the queue is empty, or an outcome is transient. -/
def send : List ρ → Outbox μ ρ Q → Outbox μ ρ Q
  | [], o => o
  | outcome :: outcomes, o =>
      match P.front o.queue with
      | none => o
      | some x =>
          if transient outcome then o.attempt P transient x outcome
          else send outcomes (o.attempt P transient x outcome)

/-- A round of sending that makes these calls, and where it ends. -/
inductive Sends : Outbox μ ρ Q → List ρ → Outbox μ ρ Q → Prop where
  | empty {o : Outbox μ ρ Q} (hfront : P.front o.queue = none) :
      Sends o [] o
  | transient {o : Outbox μ ρ Q} {x : μ × Nat} {outcome : ρ}
      (hfront : P.front o.queue = some x)
      (htransient : transient outcome = true) :
      Sends o [outcome] (o.attempt P transient x outcome)
  | next {o o' : Outbox μ ρ Q} {x : μ × Nat} {outcome : ρ}
      {outcomes : List ρ}
      (hfront : P.front o.queue = some x)
      (hfinal : transient outcome = false)
      (hrest : Sends (o.attempt P transient x outcome) outcomes o') :
      Sends o (outcome :: outcomes) o'

/-- The messages that left the queue, with the outcome of their last call. -/
def settled (o : Outbox μ ρ Q) : List ((μ × Nat) × ρ) :=
  o.calls.filter fun call => !transient call.2

/-- Every message that was pushed either is settled or waits, once. -/
def Accounted (items : Q → List (μ × Nat)) (o : Outbox μ ρ Q) : Prop :=
  ((o.settled transient).map Prod.fst ++ items o.queue).Perm
    o.pushed.zipIdx

end Operations

section Laws

variable {P : Slist (μ × Nat) Q} {transient : ρ → Bool}
variable {items : Q → List (μ × Nat)} {o o' : Outbox μ ρ Q}

/-- What a round that returns has done is what `send` does. -/
theorem Sends.send_eq {outcomes : List ρ}
    (h : Sends P transient o outcomes o') :
    o.send P transient outcomes = o' := by
  induction h with
  | empty hfront =>
      rfl
  | transient hfront htransient =>
      simp [send, hfront, htransient]
  | next hfront hfinal hrest ih =>
      simp [send, hfront, hfinal, ih]

/-- A transient outcome leaves the queue as it is. -/
theorem queue_send_transient {outcome : ρ} {outcomes : List ρ}
    (htransient : transient outcome = true) :
    (o.send P transient (outcome :: outcomes)).queue = o.queue := by
  unfold send
  split
  · rfl
  · simp [htransient, attempt]

theorem size_attempt (hP : P.Lawful items) {x : μ × Nat} {outcome : ρ}
    (hfront : P.front o.queue = some x)
    (hfinal : transient outcome = false) :
    P.size (o.attempt P transient x outcome).queue + 1 = P.size o.queue := by
  have hpop := (hP.pop o.queue x hfront).length_eq
  rw [hP.size, hP.size, hpop, attempt, hfinal]
  rfl

theorem size_send_le (hP : P.Lawful items) (outcomes : List ρ) :
    ∀ o : Outbox μ ρ Q,
      P.size (o.send P transient outcomes).queue ≤ P.size o.queue := by
  induction outcomes with
  | nil =>
      intro o
      exact Nat.le_refl _
  | cons outcome outcomes ih =>
      intro o
      unfold send
      split
      · exact Nat.le_refl _
      · rename_i x hfront
        split
        · rename_i htransient
          exact Nat.le_of_eq (congrArg P.size (if_pos htransient))
        · rename_i hfinal
          have hsize := size_attempt hP hfront (Bool.eq_false_iff.mpr hfinal)
          have hrest := ih (o.attempt P transient x outcome)
          omega

theorem size_push (hP : P.Lawful items) (x : μ) :
    P.size (o.push P x).queue = P.size o.queue + 1 := by
  rw [hP.size, hP.size, push, (hP.push _ _).length_eq, List.length_cons]

/--
**Sending returns**, whatever the transport answers, after as many calls as
there are messages at most.
-/
theorem exists_sends (hP : P.Lawful items) (o : Outbox μ ρ Q)
    (outcomes : Nat → ρ) :
    ∃ n o', n ≤ P.size o.queue ∧
      Sends P transient o ((List.range n).map outcomes) o' := by
  induction hn : P.size o.queue generalizing o outcomes with
  | zero =>
      have hnone : P.front o.queue = none := by
        cases hfront : P.front o.queue with
        | none => rfl
        | some x =>
            have hpop := (hP.pop o.queue x hfront).length_eq
            rw [hP.size, hpop, List.length_cons] at hn
            omega
      exact ⟨0, o, Nat.le_refl 0, .empty hnone⟩
  | succ n ih =>
      cases hfront : P.front o.queue with
      | none =>
          exact ⟨0, o, Nat.zero_le _, .empty hfront⟩
      | some x =>
          cases houtcome : transient (outcomes 0) with
          | true =>
              exact ⟨1, _, by omega, .transient hfront houtcome⟩
          | false =>
              have hsize := size_attempt hP hfront houtcome
              obtain ⟨k, o', hk, hrest⟩ :=
                ih (o.attempt P transient x (outcomes 0))
                  (fun i => outcomes (i + 1)) (by omega)
              refine ⟨k + 1, o', by omega, ?_⟩
              rw [List.range_succ_eq_map, List.map_cons, List.map_map]
              exact .next hfront houtcome hrest

theorem accounted_new (hP : P.Lawful items) :
    (new P : Outbox μ ρ Q).Accounted transient items := by
  rw [Accounted, new, hP.empty]
  rfl

theorem Accounted.push (h : o.Accounted transient items)
    (hP : P.Lawful items) (x : μ) :
    (o.push P x).Accounted transient items := by
  have hqueue := (hP.push (x, o.pushed.length) o.queue).append_left
    ((o.settled transient).map Prod.fst)
  rw [Accounted, Outbox.push, List.zipIdx_append, List.zipIdx_singleton,
    Nat.zero_add]
  exact (hqueue.trans List.perm_middle).trans
    ((h.cons _).trans (List.perm_append_singleton _ _).symm)

/-- A message that leaves the queue is settled. -/
theorem Accounted.attempt (h : o.Accounted transient items)
    (hP : P.Lawful items) {x : μ × Nat} (hfront : P.front o.queue = some x)
    (outcome : ρ) :
    (o.attempt P transient x outcome).Accounted transient items := by
  cases houtcome : transient outcome with
  | true =>
      have hsettled :
          (o.attempt P transient x outcome).settled transient =
            o.settled transient := by
        simp [settled, Outbox.attempt, houtcome]
      rw [Accounted, hsettled, Outbox.attempt, houtcome, if_pos rfl]
      exact h
  | false =>
      have hsettled :
          (o.attempt P transient x outcome).settled transient =
            (x, outcome) :: o.settled transient := by
        simp [settled, Outbox.attempt, houtcome]
      have hpop := (hP.pop o.queue x hfront).append_left
        ((o.settled transient).map Prod.fst)
      rw [Accounted, hsettled, Outbox.attempt, houtcome,
        if_neg Bool.false_ne_true, List.map_cons]
      exact (List.perm_middle.symm.trans hpop.symm).trans h

theorem Accounted.send (hP : P.Lawful items) (outcomes : List ρ) :
    ∀ {o : Outbox μ ρ Q}, o.Accounted transient items →
      (o.send P transient outcomes).Accounted transient items := by
  induction outcomes with
  | nil =>
      intro o h
      exact h
  | cons outcome outcomes ih =>
      intro o h
      unfold Outbox.send
      split
      · exact h
      · rename_i x hfront
        split
        · exact h.attempt hP hfront outcome
        · exact ih (h.attempt hP hfront outcome)

/-- What becomes of a single message. -/
structure Once (transient : ρ → Bool) (items : Q → List (μ × Nat))
    (o : Outbox μ ρ Q) : Prop where
  settled : ((o.settled transient).map Prod.fst).Nodup
  waiting : (items o.queue).Nodup
  apart : ∀ x ∈ (o.settled transient).map Prod.fst, x ∉ items o.queue
  complete : ∀ x, x ∈ o.pushed.zipIdx ↔
    x ∈ (o.settled transient).map Prod.fst ∨ x ∈ items o.queue

theorem nodup_zipIdx (xs : List μ) : xs.zipIdx.Nodup := by
  apply List.Nodup.of_map Prod.snd
  rw [List.zipIdx_map_snd]
  exact List.nodup_range'

/-- **Every message is settled once at most, and waits until then.** -/
theorem Accounted.once (h : o.Accounted transient items) :
    o.Once transient items := by
  have hnodup := h.nodup_iff.mpr (nodup_zipIdx o.pushed)
  obtain ⟨hsettled, hwaiting, hapart⟩ := List.nodup_append.mp hnodup
  refine ⟨hsettled, hwaiting, ?_, ?_⟩
  · intro x hx hqueue
    exact hapart x hx x hqueue rfl
  · intro x
    rw [← h.mem_iff, List.mem_append]

/-- No message has two calls with an outcome that is a success. -/
theorem Once.success (h : o.Once transient items) {success : ρ → Bool}
    (hfinal : ∀ outcome, success outcome = true →
      transient outcome = false) :
    ((o.calls.filter fun call => success call.2).map Prod.fst).Nodup := by
  have hsublist : (o.calls.filter fun call => success call.2).Sublist
      (o.settled transient) := by
    apply List.monotone_filter_right
    intro call hcall
    simp [hfinal call.2 hcall]
  exact (hsublist.map Prod.fst).nodup h.settled

end Laws

end Outbox

end Outboxes
