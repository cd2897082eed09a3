import Mathlib.Data.Finset.Card
import Mathlib.Data.Finset.Option
import Mathlib.Data.List.Nodup
import Hefur.Lib.Runs

/-!
# Bounded recency queues

A recency queue holds at most one item for each key, in the order in which the
keys were last touched, oldest first.  It has three operations:

* `touch x` drops the item stored under the key of `x` and puts `x` at the back;
* `forget k` drops the item stored under `k`;
* `expire dead` pops the front as long as it is `dead`, and stops at the first
  item that is not.

A bounded queue comes with a test `full` on the number of items, and pops its
front once whenever a touch leaves a number of items that is `full`.

Main results:

* `act_length_le`: a queue that pops at `n + 1` items never keeps more than `n`;
* `run_survives`: if only more than `n` items are `full`, an item stays in the
  queue as long as its key is not named, no expiry finds it dead, and fewer
  than `n` distinct other keys are named;
* `run_survives_of_room`: the same without counting keys, when no touch ever
  leaves too many items;
* `run_absent`: a key that is not in the queue and is not touched stays out;
* `items_run_sublist`: the items after a run are among those that were touched,
  in the order of the touches;
* `dropWhile_eq_filter`: an expiry that stops at the first live item drops all
  dead ones, if no dead item stands behind a live one;
* `filterMap_latestFirst`: the items, newest first, are what an index of the
  queue holds under the keys that were named, the latest first.
-/

namespace Recency

set_option linter.unusedSectionVars false

universe u v

section Items

variable {α : Type u} {κ : Type v} [DecidableEq κ]
variable (key : α → κ)

/-- The items stored under other keys than `k`. -/
def without (k : κ) (items : List α) : List α :=
  items.filter (fun x => key x ≠ k)

@[simp] theorem without_append
    (k : κ) (xs ys : List α) :
    without key k (xs ++ ys) =
      without key k xs ++ without key k ys := by
  simp [without]

@[simp] theorem mem_without
    {k : κ} {items : List α} {x : α} :
    x ∈ without key k items ↔ x ∈ items ∧ key x ≠ k := by
  simp [without]

theorem without_cons_of_ne
    {k : κ} {x : α} (hx : key x ≠ k) (items : List α) :
    without key k (x :: items) = x :: without key k items := by
  simp [without, hx]

theorem without_eq_self
    {k : κ} {items : List α}
    (hk : ∀ x ∈ items, key x ≠ k) :
    without key k items = items := by
  rw [without, List.filter_eq_self]
  intro x hx
  simpa using hk x hx

theorem without_sublist (k : κ) (items : List α) :
    (without key k items).Sublist items :=
  List.filter_sublist

/-- Dropping the key of the head of a queue leaves its tail. -/
theorem without_head
    {x : α} {items : List α}
    (hnodup : ((x :: items).map key).Nodup) :
    without key (key x) (x :: items) = items := by
  rw [List.map_cons, List.nodup_cons] at hnodup
  have htail : without key (key x) items = items := by
    apply without_eq_self
    intro y hy heq
    exact hnodup.1 (heq ▸ List.mem_map_of_mem hy)
  rw [← htail]
  simp [without]

/-- A queue is the item under a key together with the items under others. -/
theorem perm_cons_without
    {x : α} {items : List α}
    (hx : x ∈ items) (hnodup : (items.map key).Nodup) :
    items.Perm (x :: without key (key x) items) := by
  induction items with
  | nil =>
      cases hx
  | cons y items ih =>
      rcases List.mem_cons.mp hx with rfl | hx
      · rw [without_head key hnodup]
      · rw [List.map_cons, List.nodup_cons] at hnodup
        have hne : key y ≠ key x := by
          intro heq
          exact hnodup.1 (heq ▸ List.mem_map_of_mem hx)
        rw [without_cons_of_ne key hne]
        exact ((ih hx hnodup.2).cons y).trans (List.Perm.swap x y _)

theorem nodup_keys_sublist
    {xs ys : List α} (hsub : xs.Sublist ys)
    (hnodup : (ys.map key).Nodup) :
    (xs.map key).Nodup :=
  (hsub.map key).nodup hnodup

/-- The back of a touched queue is the only item under its key. -/
theorem nodup_keys_touch
    (x : α) {items : List α}
    (hnodup : (items.map key).Nodup) :
    ((without key (key x) items ++ [x]).map key).Nodup := by
  rw [List.map_append, List.nodup_append]
  refine ⟨nodup_keys_sublist key (without_sublist key _ _) hnodup,
    by simp, ?_⟩
  intro k hk k' hk'
  obtain ⟨y, hy, rfl⟩ := List.mem_map.mp hk
  simp only [List.map_cons, List.map_nil, List.mem_singleton] at hk'
  subst hk'
  exact ((mem_without key).mp hy).2

end Items

section Queues

variable {α : Type u} {κ : Type v} [DecidableEq κ]

/-- Items oldest first, at most one under each key. -/
structure Queue (key : α → κ) where
  items : List α
  nodup : (items.map key).Nodup

variable {key : α → κ}

namespace Queue

def empty (key : α → κ) : Queue key where
  items := []
  nodup := by simp

def forget (k : κ) (q : Queue key) : Queue key where
  items := without key k q.items
  nodup := nodup_keys_sublist key (without_sublist key _ _) q.nodup

def touch (x : α) (q : Queue key) : Queue key where
  items := without key (key x) q.items ++ [x]
  nodup := nodup_keys_touch key x q.nodup

def expire (dead : α → Bool) (q : Queue key) : Queue key where
  items := q.items.dropWhile dead
  nodup := nodup_keys_sublist key (List.dropWhile_sublist _) q.nodup

def pop (q : Queue key) : Queue key where
  items := q.items.tail
  nodup := nodup_keys_sublist key (List.tail_sublist _) q.nodup

/-- Pop the front when there are too many items. -/
def trim (full : Nat → Bool) (q : Queue key) : Queue key :=
  if full q.items.length then q.pop else q

end Queue

/-- The operations on a queue. -/
inductive Act (α : Type u) (κ : Type v) where
  | touch (x : α)
  | forget (k : κ)
  | expire (dead : α → Bool)

/-- The key an operation names. -/
def Act.key? (key : α → κ) : Act α κ → Option κ
  | .touch x => some (key x)
  | .forget k => some k
  | .expire _ => none

/-- One operation on a bounded queue. -/
def act (full : Nat → Bool) (q : Queue key) : Act α κ → Queue key
  | .touch x => (q.touch x).trim full
  | .forget k => q.forget k
  | .expire dead => q.expire dead

/-- The distinct keys that a list of operations names. -/
def namedKeys (key : α → κ) (acts : List (Act α κ)) : Finset κ :=
  (acts.filterMap (Act.key? key)).toFinset

/-- `x` is in the queue, and everything behind it has a key in `S`. -/
def HeldBefore (x : α) (S : Finset κ) (q : Queue key) : Prop :=
  ∃ front back : List α,
    q.items = front ++ x :: back ∧ ∀ y ∈ back, key y ∈ S

theorem HeldBefore.mem
    {x : α} {S : Finset κ} {q : Queue key}
    (h : HeldBefore x S q) : x ∈ q.items := by
  obtain ⟨front, back, hq, -⟩ := h
  simp [hq]

theorem HeldBefore.mono
    {x : α} {S T : Finset κ} {q : Queue key}
    (hsub : S ⊆ T) (h : HeldBefore x S q) :
    HeldBefore x T q := by
  obtain ⟨front, back, hq, hback⟩ := h
  exact ⟨front, back, hq, fun y hy => hsub (hback y hy)⟩

/-- A freshly touched item is at the back. -/
theorem heldBefore_touch (x : α) (q : Queue key) :
    HeldBefore x ∅ (q.touch x) :=
  ⟨without key (key x) q.items, [], rfl, by simp⟩

/-- Every item is held before the keys of the queue. -/
theorem heldBefore_of_mem
    {x : α} {q : Queue key} (hx : x ∈ q.items) :
    HeldBefore x (q.items.map key).toFinset q := by
  obtain ⟨front, back, hq⟩ := List.append_of_mem hx
  refine ⟨front, back, hq, ?_⟩
  intro y hy
  rw [List.mem_toFinset, hq]
  exact List.mem_map_of_mem (by simp [hy])

theorem heldBefore_touch_other
    {x y : α} {S : Finset κ} {q : Queue key}
    (hxy : key x ≠ key y) (h : HeldBefore x S q) :
    HeldBefore x (insert (key y) S) (q.touch y) := by
  obtain ⟨front, back, hq, hback⟩ := h
  refine ⟨without key (key y) front,
    without key (key y) back ++ [y], ?_, ?_⟩
  · show without key (key y) q.items ++ [y] = _
    rw [hq, without_append, without_cons_of_ne key hxy]
    simp
  · intro z hz
    rcases List.mem_append.mp hz with hz | hz
    · have hmem := ((mem_without key).mp hz).1
      exact Finset.mem_insert_of_mem (hback z hmem)
    · rw [List.mem_singleton.mp hz]
      exact Finset.mem_insert_self _ _

theorem heldBefore_forget_other
    {x : α} {k : κ} {S : Finset κ} {q : Queue key}
    (hxk : key x ≠ k) (h : HeldBefore x S q) :
    HeldBefore x S (q.forget k) := by
  obtain ⟨front, back, hq, hback⟩ := h
  refine ⟨without key k front, without key k back, ?_, ?_⟩
  · show without key k q.items = _
    rw [hq, without_append, without_cons_of_ne key hxk]
  · intro z hz
    exact hback z ((mem_without key).mp hz).1

/-- An expiry that does not find `x` dead stops at `x` or before it. -/
theorem heldBefore_expire
    {x : α} {dead : α → Bool} {S : Finset κ} {q : Queue key}
    (hx : dead x = false) (h : HeldBefore x S q) :
    HeldBefore x S (q.expire dead) := by
  obtain ⟨front, back, hq, hback⟩ := h
  refine ⟨front.dropWhile dead, back, ?_, hback⟩
  show q.items.dropWhile dead = _
  rw [hq, List.dropWhile_append]
  split
  · rename_i hempty
    rw [List.isEmpty_iff.mp hempty]
    simp [List.dropWhile, hx]
  · rfl

/-- The items behind `x` have distinct keys, all of them in `S`. -/
theorem back_length_le
    {x : α} {front back : List α} {S : Finset κ} {q : Queue key}
    (hq : q.items = front ++ x :: back)
    (hback : ∀ y ∈ back, key y ∈ S) :
    back.length ≤ S.card := by
  have hsub : back.Sublist q.items := by
    rw [hq]
    exact (List.sublist_cons_self x back).trans
      (List.sublist_append_right front _)
  have hnodup : (back.map key).Nodup :=
    nodup_keys_sublist key hsub q.nodup
  calc back.length
      = (back.map key).toFinset.card := by
        rw [List.toFinset_card_of_nodup hnodup, List.length_map]
    _ ≤ S.card := by
        apply Finset.card_le_card
        intro k hk
        obtain ⟨y, hy, rfl⟩ := List.mem_map.mp (List.mem_toFinset.mp hk)
        exact hback y hy

/-- Trimming pops `x` only when the queue is too long and `x` is its front. -/
theorem heldBefore_trim
    {x : α} {S : Finset κ} {full : Nat → Bool} {q : Queue key}
    (hroom : full q.items.length = true → S.card + 1 < q.items.length)
    (h : HeldBefore x S q) :
    HeldBefore x S (q.trim full) := by
  unfold Queue.trim
  split
  · rename_i hfull
    obtain ⟨front, back, hq, hback⟩ := h
    cases front with
    | nil =>
        exfalso
        have hlong := hroom hfull
        have hlen := back_length_le hq hback
        have htotal : q.items.length = back.length + 1 := by
          simp [hq]
        omega
    | cons y front =>
        refine ⟨front, back, ?_, hback⟩
        show q.items.tail = _
        rw [hq]
        rfl
  · exact h

theorem length_touch_le (x : α) (q : Queue key) :
    (q.touch x).items.length ≤ q.items.length + 1 := by
  have hsub := (without_sublist key (key x) q.items).length_le
  simp only [Queue.touch, List.length_append, List.length_singleton]
  omega

/-- A touched queue has as many items as there are distinct keys. -/
theorem length_touch (x : α) (q : Queue key) :
    (q.touch x).items.length =
      (insert (key x) (q.items.map key).toFinset).card := by
  have hkeys :
      ((q.touch x).items.map key).toFinset =
        insert (key x) (q.items.map key).toFinset := by
    ext k
    simp only [Queue.touch, List.map_append, List.map_cons, List.map_nil,
      List.mem_toFinset, List.mem_append, List.mem_map, mem_without,
      List.mem_singleton, Finset.mem_insert]
    constructor
    · rintro (⟨y, ⟨hy, -⟩, rfl⟩ | rfl)
      · exact Or.inr ⟨y, hy, rfl⟩
      · exact Or.inl rfl
    · rintro (rfl | ⟨y, hy, rfl⟩)
      · exact Or.inr rfl
      · by_cases hyx : key y = key x
        · exact Or.inr hyx
        · exact Or.inl ⟨y, ⟨hy, hyx⟩, rfl⟩
  rw [← hkeys, List.toFinset_card_of_nodup (q.touch x).nodup,
    List.length_map]

/-- With room for it, a touch of a new key puts its item at the back. -/
theorem items_act_touch_fresh
    {full : Nat → Bool} {x : α} {q : Queue key}
    (hfresh : ∀ y ∈ q.items, key y ≠ key x)
    (hroom : full (q.items.length + 1) = false) :
    (act full q (.touch x)).items = q.items ++ [x] := by
  have htouch : (q.touch x).items = q.items ++ [x] := by
    show without key (key x) q.items ++ [x] = q.items ++ [x]
    rw [without_eq_self key hfresh]
  have hlength : full (q.touch x).items.length = false := by
    rw [htouch, List.length_append]
    exact hroom
  rw [act, Queue.trim, hlength, if_neg Bool.false_ne_true, htouch]

/-- A queue that pops at `n + 1` items never keeps more than `n`. -/
theorem act_length_le
    {n : Nat} {full : Nat → Bool} (hfull : full (n + 1) = true)
    {q : Queue key} (hq : q.items.length ≤ n) (a : Act α κ) :
    (act full q a).items.length ≤ n := by
  cases a with
  | touch x =>
      have htouch := length_touch_le x q
      simp only [act, Queue.trim]
      split
      · simp only [Queue.pop, List.length_tail]
        omega
      · rename_i hkeep
        by_contra hlong
        have hlen : (q.touch x).items.length = n + 1 := by omega
        rw [hlen] at hkeep
        exact hkeep hfull
  | forget k =>
      exact (without_sublist key k q.items).length_le.trans hq
  | expire dead =>
      exact (List.dropWhile_sublist _).length_le.trans hq

end Queues

section RunRules

variable {α : Type u} {κ : Type v} [DecidableEq κ]
variable {key : α → κ}

theorem namedKeys_cons
    (a : Act α κ) (acts : List (Act α κ)) :
    namedKeys key (a :: acts) =
      (a.key? key).toFinset ∪ namedKeys key acts := by
  ext k
  cases ha : a.key? key with
  | none =>
      simp [namedKeys, ha]
  | some k' =>
      simp [namedKeys, ha]

theorem mem_namedKeys_of_touch
    {x : α} {acts : List (Act α κ)} (hx : .touch x ∈ acts) :
    key x ∈ namedKeys key acts := by
  rw [namedKeys, List.mem_toFinset, List.mem_filterMap]
  exact ⟨_, hx, rfl⟩

theorem not_mem_namedKeys_cons
    {a : Act α κ} {acts : List (Act α κ)} {k : κ}
    (hk : k ∉ namedKeys key (a :: acts)) :
    a.key? key ≠ some k ∧ k ∉ namedKeys key acts := by
  rw [namedKeys_cons, Finset.mem_union, not_or] at hk
  exact ⟨fun ha => hk.1 (by simp [ha]), hk.2⟩

/-- No expiry among the operations finds `x` dead. -/
def NeverDead (x : α) (acts : List (Act α κ)) : Prop :=
  ∀ dead, Act.expire dead ∈ acts → dead x = false

/-- No touch of the run leaves too many items. -/
def HasRoom (full : Nat → Bool) : Queue key → List (Act α κ) → Prop :=
  Runs.StepsMeet (act full)
    (fun (q : Queue key) a => ∀ x, a = .touch x →
      full (q.touch x).items.length = false)

/--
The step both survival theorems share: an operation that does not name `x`
keeps it, and adds at most the key it names behind it.
-/
theorem act_keeps
    {x : α} {S : Finset κ} {full : Nat → Bool} {q : Queue key}
    {a : Act α κ}
    (hname : a.key? key ≠ some (key x))
    (hlive : ∀ dead, a = .expire dead → dead x = false)
    (hroom : ∀ y, a = .touch y →
      full (q.touch y).items.length = true →
        (insert (key y) S).card + 1 < (q.touch y).items.length)
    (h : HeldBefore x S q) :
    HeldBefore x (S ∪ (a.key? key).toFinset) (act full q a) := by
  cases a with
  | touch y =>
      have hxy : key x ≠ key y := by
        intro heq
        exact hname (by simp [Act.key?, heq])
      have hheld := heldBefore_touch_other hxy h
      have htrim := heldBefore_trim (hroom y rfl) hheld
      refine htrim.mono ?_
      intro k hk
      simpa [Act.key?, or_comm] using hk
  | forget k =>
      have hxk : key x ≠ k := by
        intro heq
        exact hname (by simp [Act.key?, heq])
      exact (heldBefore_forget_other hxk h).mono Finset.subset_union_left
  | expire dead =>
      exact (heldBefore_expire (hlive dead rfl) h).mono
        Finset.subset_union_left

/--
An item stays while fewer than `n` other keys are named, and only these come
behind it.
-/
theorem run_keeps
    {x : α} {n : Nat} {full : Nat → Bool}
    (hfull : ∀ len, full len = true → n < len)
    (acts : List (Act α κ)) :
    ∀ {S : Finset κ} {q : Queue key},
      HeldBefore x S q →
      key x ∉ namedKeys key acts →
      NeverDead x acts →
      (S ∪ namedKeys key acts).card < n →
      HeldBefore x (S ∪ namedKeys key acts)
        (Runs.run (act full) q acts) := by
  induction acts with
  | nil =>
      intro S q hheld _ _ _
      exact hheld.mono Finset.subset_union_left
  | cons a acts ih =>
      intro S q hheld hname hdead hcard
      obtain ⟨hfresh, hrest⟩ := not_mem_namedKeys_cons hname
      rw [namedKeys_cons] at hcard ⊢
      have hstep :
          HeldBefore x (S ∪ (a.key? key).toFinset) (act full q a) := by
        apply act_keeps hfresh _ _ hheld
        · intro dead ha
          exact hdead dead (by simp [ha])
        · intro y ha hlong
          have hsub :
              insert (key y) S ⊆
                S ∪ ((a.key? key).toFinset ∪ namedKeys key acts) := by
            subst ha
            intro k hk
            rcases Finset.mem_insert.mp hk with rfl | hk
            · simp [Act.key?]
            · exact Finset.mem_union_left _ hk
          have hfew := Finset.card_le_card hsub
          have hmany := hfull _ hlong
          omega
      rw [← Finset.union_assoc] at hcard ⊢
      exact ih hstep hrest
        (fun dead hmem => hdead dead (List.mem_cons_of_mem _ hmem)) hcard

/-- An item survives while fewer than `n` other keys are named. -/
theorem run_survives
    {x : α} {n : Nat} {full : Nat → Bool}
    (hfull : ∀ len, full len = true → n < len)
    (acts : List (Act α κ)) {S : Finset κ} {q : Queue key}
    (hheld : HeldBefore x S q) (hname : key x ∉ namedKeys key acts)
    (hdead : NeverDead x acts) (hcard : (S ∪ namedKeys key acts).card < n) :
    x ∈ (Runs.run (act full) q acts).items :=
  (run_keeps hfull acts hheld hname hdead hcard).mem

/--
Of the selected items, the newest first, an item is among the first `n` if fewer
than `n` keys of selected items can come behind it.
-/
theorem HeldBefore.mem_take
    {x : α} {S : Finset κ} {q : Queue key} (h : HeldBefore x S q)
    {f : α → Bool} (hx : f x = true) {T : Finset κ}
    (hT : ∀ y, f y = true → key y ∈ S → key y ∈ T)
    {n : Nat} (hn : T.card < n) :
    x ∈ (q.items.reverse.filter f).take n := by
  obtain ⟨front, back, hq, hback⟩ := h
  have hnodup : ((back.filter f).map key).Nodup := by
    have hsub : (back.filter f).Sublist q.items := by
      rw [hq]
      exact List.filter_sublist.trans
        ((List.sublist_cons_self x back).trans
          (List.sublist_append_right front (x :: back)))
    exact nodup_keys_sublist key hsub q.nodup
  have hfew : (back.filter f).length ≤ T.card := by
    rw [← List.length_map key, ← List.toFinset_card_of_nodup hnodup]
    apply Finset.card_le_card
    intro k hk
    obtain ⟨y, hy, rfl⟩ := List.mem_map.mp (List.mem_toFinset.mp hk)
    obtain ⟨hmem, hf⟩ := List.mem_filter.mp hy
    exact hT y hf (hback y hmem)
  have hsplit : q.items.reverse.filter f =
      ((back.filter f).reverse ++ [x]) ++
        front.reverse.filter f := by
    rw [hq, List.reverse_append, List.reverse_cons, List.filter_append,
      List.filter_append, List.filter_reverse, List.filter_singleton, hx]
    rfl
  have hlen : ((back.filter f).reverse ++ [x]).length ≤ n := by
    rw [List.length_append, List.length_reverse, List.length_singleton]
    omega
  rw [hsplit, List.take_append, List.take_of_length_le hlen]
  exact List.mem_append_left _
    (List.mem_append_right _ (List.mem_singleton_self x))

/-- An item survives a run in which no touch overfills the queue. -/
theorem run_survives_of_room
    {x : α} {full : Nat → Bool} (acts : List (Act α κ)) :
    ∀ {q : Queue key},
      x ∈ q.items →
      key x ∉ namedKeys key acts →
      NeverDead x acts →
      HasRoom full q acts →
      x ∈ (Runs.run (act full) q acts).items := by
  induction acts with
  | nil =>
      intro q hx _ _ _
      exact hx
  | cons a acts ih =>
      intro q hx hname hdead hroom
      obtain ⟨hfresh, hrest⟩ := not_mem_namedKeys_cons hname
      have hstep : HeldBefore x _ (act full q a) := act_keeps hfresh
        (fun dead ha => hdead dead (by simp [ha]))
        (fun y ha hlong => by
          rw [hroom.1 y ha] at hlong
          cases hlong)
        (heldBefore_of_mem hx)
      exact ih hstep.mem hrest
        (fun dead hmem => hdead dead (List.mem_cons_of_mem _ hmem))
        hroom.2

/-- An operation keeps no item that it names, and adds only the touched one. -/
theorem mem_act
    {full : Nat → Bool} {q : Queue key} {a : Act α κ} {x : α}
    (hx : x ∈ (act full q a).items) :
    (x ∈ q.items ∧ a.key? key ≠ some (key x)) ∨ a = .touch x := by
  cases a with
  | touch y =>
      have hmem : x ∈ (q.touch y).items := by
        simp only [act, Queue.trim] at hx
        split at hx
        · exact List.mem_of_mem_tail hx
        · exact hx
      rcases List.mem_append.mp hmem with hmem | hmem
      · obtain ⟨hold, hne⟩ := (mem_without key).mp hmem
        exact Or.inl ⟨hold, fun heq => hne (Option.some.inj heq).symm⟩
      · rw [List.mem_singleton.mp hmem]
        exact Or.inr rfl
  | forget k =>
      obtain ⟨hold, hne⟩ := (mem_without key).mp hx
      exact Or.inl ⟨hold, fun heq => hne (Option.some.inj heq).symm⟩
  | expire dead =>
      exact Or.inl ⟨(List.dropWhile_sublist _).subset hx, by simp [Act.key?]⟩

/-- No operation but a touch brings a key into the queue. -/
theorem act_absent
    {k : κ} {full : Nat → Bool} {q : Queue key} {a : Act α κ}
    (hq : ∀ x ∈ q.items, key x ≠ k)
    (ha : ∀ x, a = .touch x → key x ≠ k) :
    ∀ x ∈ (act full q a).items, key x ≠ k := by
  intro x hx
  rcases mem_act hx with ⟨hold, -⟩ | htouch
  · exact hq x hold
  · exact ha x htouch

theorem run_absent
    {k : κ} {full : Nat → Bool} (acts : List (Act α κ)) :
    ∀ {q : Queue key},
      (∀ x ∈ q.items, key x ≠ k) →
      (∀ x, Act.touch x ∈ acts → key x ≠ k) →
      ∀ x ∈ (Runs.run (act full) q acts).items, key x ≠ k := by
  induction acts with
  | nil =>
      intro q hq _
      exact hq
  | cons a acts ih =>
      intro q hq hacts
      apply ih
      · exact act_absent hq (fun x ha => hacts x (by simp [ha]))
      · intro x hx
        exact hacts x (List.mem_cons_of_mem _ hx)

end RunRules

section Order

variable {α : Type u} {κ : Type v} [DecidableEq κ]
variable {key : α → κ}

/-- The distinct keys of a list, in the order of their last occurrence. -/
def latestFirst (keys : List κ) : List κ :=
  keys.dedup.reverse

theorem dedup_concat (keys : List κ) (k : κ) :
    (keys ++ [k]).dedup = keys.dedup.filter (· ≠ k) ++ [k] := by
  induction keys with
  | nil =>
      simp
  | cons a keys ih =>
      by_cases hmem : a ∈ keys
      · rw [List.cons_append, List.dedup_cons_of_mem (by simp [hmem]), ih,
          List.dedup_cons_of_mem hmem]
      · by_cases hak : a = k
        · subst hak
          rw [List.cons_append, List.dedup_cons_of_mem (by simp), ih,
            List.dedup_cons_of_notMem hmem, List.filter_cons_of_neg (by simp)]
        · rw [List.cons_append,
            List.dedup_cons_of_notMem (by simp [hmem, hak]), ih,
            List.dedup_cons_of_notMem hmem,
            List.filter_cons_of_pos (by simp [hak]), List.cons_append]

/-- The queue is ordered by the last occurrences of its keys. -/
def OrderedBy (keys : List κ) (q : Queue key) : Prop :=
  (q.items.map key).Sublist keys.dedup

theorem orderedBy_empty : OrderedBy [] (Queue.empty key) :=
  List.Sublist.refl _

theorem OrderedBy.sublist {keys : List κ} {q q' : Queue key}
    (hsub : q'.items.Sublist q.items) (h : OrderedBy keys q) :
    OrderedBy keys q' :=
  (hsub.map key).trans h

theorem OrderedBy.without {keys : List κ} {q : Queue key} (k : κ)
    (h : OrderedBy keys q) :
    ((without key k q.items).map key).Sublist
      (keys.dedup.filter (· ≠ k)) := by
  have hmap : (Recency.without key k q.items).map key =
      (q.items.map key).filter (· ≠ k) := by
    rw [Recency.without, List.filter_map]
    rfl
  rw [hmap]
  exact h.filter _

/-- An operation moves the key that it names to the end of the order. -/
theorem orderedBy_act (full : Nat → Bool) {keys : List κ} {q : Queue key}
    (h : OrderedBy keys q) (a : Act α κ) :
    OrderedBy (keys ++ (a.key? key).toList) (act full q a) := by
  cases a with
  | touch x =>
      have htouch : OrderedBy (keys ++ [key x]) (q.touch x) := by
        rw [OrderedBy, dedup_concat, Queue.touch, List.map_append]
        exact (h.without (key x)).append (List.Sublist.refl _)
      apply htouch.sublist
      simp only [act, Queue.trim]
      split
      · exact List.tail_sublist _
      · exact List.Sublist.refl _
  | forget k =>
      rw [OrderedBy]
      simp only [Act.key?, Option.toList_some, dedup_concat]
      exact (h.without k).trans (List.sublist_append_left _ _)
  | expire dead =>
      simp only [Act.key?, Option.toList_none, List.append_nil]
      exact h.sublist (List.dropWhile_sublist _)

/-- A queue is ordered by the keys that its operations have named. -/
theorem orderedBy_run (full : Nat → Bool) (acts : List (Act α κ)) :
    ∀ {keys : List κ} {q : Queue key}, OrderedBy keys q →
      OrderedBy (keys ++ acts.filterMap (Act.key? key))
        (Runs.run (act full) q acts) := by
  induction acts with
  | nil =>
      intro keys q h
      simpa using h
  | cons a acts ih =>
      intro keys q h
      have hstep := ih (orderedBy_act full h a)
      cases hkey : a.key? key with
      | none => simpa [hkey] using hstep
      | some k => simpa [hkey] using hstep

/-- An index read along an order of its keys gives its items in that order. -/
theorem filterMap_eq_of_sublist {index : κ → Option α} {keys : List κ}
    {items : List α} (hnodup : keys.Nodup)
    (hsub : (items.map key).Sublist keys)
    (hindex : ∀ k ∈ keys, ∀ x,
      index k = some x ↔ x ∈ items ∧ key x = k) :
    keys.filterMap index = items := by
  induction keys generalizing items with
  | nil =>
      rw [List.sublist_nil, List.map_eq_nil_iff] at hsub
      rw [hsub]
      rfl
  | cons k keys ih =>
      rw [List.nodup_cons] at hnodup
      have hrest : ∀ k' ∈ keys, k' ≠ k := fun k' hk' heq =>
        hnodup.1 (heq ▸ hk')
      have hhere := hindex k (by simp)
      rcases List.sublist_cons_iff.mp hsub with hlater | ⟨rest, hcons, hlater⟩
      · -- nothing is stored under `k`
        have hnone : index k = none := by
          cases hk : index k with
          | none =>
              rfl
          | some x =>
              obtain ⟨hx, hkey⟩ := (hhere x).mp hk
              have hmem := hlater.subset (List.mem_map_of_mem (f := key) hx)
              exact (hnodup.1 (hkey ▸ hmem)).elim
        rw [List.filterMap_cons_none hnone]
        exact ih hnodup.2 hlater fun k' hk' =>
          hindex k' (List.mem_cons_of_mem k hk')
      · -- the first item is the one under `k`
        obtain ⟨x, items, rfl, hkey, rfl⟩ := List.map_eq_cons_iff.mp hcons
        rw [List.filterMap_cons_some
          ((hhere x).mpr ⟨List.mem_cons_self, hkey⟩)]
        congr 1
        apply ih hnodup.2 hlater
        intro k' hk' y
        rw [hindex k' (List.mem_cons_of_mem k hk') y, List.mem_cons]
        constructor
        · rintro ⟨rfl | hy, hkey'⟩
          · exact (hrest k' hk' (hkey'.symm.trans hkey)).elim
          · exact ⟨hy, hkey'⟩
        · rintro ⟨hy, hkey'⟩
          exact ⟨Or.inr hy, hkey'⟩

/-- **The items, newest first, are what the index holds in latest order.** -/
theorem filterMap_latestFirst {index : κ → Option α} {keys : List κ}
    {q : Queue key} (h : OrderedBy keys q)
    (hindex : ∀ k x, index k = some x ↔ x ∈ q.items ∧ key x = k) :
    (latestFirst keys).filterMap index = q.items.reverse := by
  rw [latestFirst, List.filterMap_reverse,
    filterMap_eq_of_sublist keys.nodup_dedup h fun k _ => hindex k]

end Order

section Expiry

variable {α : Type u} {κ : Type v} [DecidableEq κ]
variable {key : α → κ}

/-- The item an operation brings. -/
def Act.item? : Act α κ → Option α
  | .touch x => some x
  | _ => none

theorem Act.item?_eq_some {a : Act α κ} {x : α} :
    a.item? = some x ↔ a = .touch x := by
  cases a <;> simp [Act.item?]

/-- An operation removes items, and puts the one that it brings at the back. -/
theorem items_act_sublist (full : Nat → Bool) (q : Queue key) (a : Act α κ) :
    (act full q a).items.Sublist (q.items ++ a.item?.toList) := by
  cases a with
  | touch x =>
      have htouch : (q.touch x).items.Sublist (q.items ++ [x]) :=
        (without_sublist key (key x) q.items).append (List.Sublist.refl _)
      simp only [act, Queue.trim]
      split
      · exact (List.tail_sublist _).trans htouch
      · exact htouch
  | forget k =>
      simp only [Act.item?, Option.toList_none, List.append_nil]
      exact without_sublist key k q.items
  | expire dead =>
      simp only [Act.item?, Option.toList_none, List.append_nil]
      exact List.dropWhile_sublist _

/-- **A queue holds some of the touched items, in the order of the touches.** -/
theorem items_run_sublist (full : Nat → Bool) (acts : List (Act α κ)) :
    ∀ q : Queue key,
      (Runs.run (act full) q acts).items.Sublist
        (q.items ++ acts.filterMap Act.item?) := by
  induction acts with
  | nil =>
      intro q
      simp
  | cons a acts ih =>
      intro q
      have hstep := (items_act_sublist full q a).append
        (List.Sublist.refl (acts.filterMap Act.item?))
      refine (ih (act full q a)).trans ?_
      cases hitem : a.item? with
      | none => simpa [hitem] using hstep
      | some x => simpa [hitem] using hstep

/-- Where no dead item stands behind a live one, an expiry drops all of them. -/
theorem dropWhile_eq_filter {dead : α → Bool} {items : List α}
    (hordered : items.Pairwise (fun x y => dead y = true → dead x = true)) :
    items.dropWhile dead = items.filter (fun x => !dead x) := by
  induction items with
  | nil =>
      rfl
  | cons x items ih =>
      rw [List.pairwise_cons] at hordered
      cases hx : dead x with
      | true =>
          rw [List.dropWhile_cons_of_pos hx,
            List.filter_cons_of_neg (by simp [hx])]
          exact ih hordered.2
      | false =>
          have hlive : ∀ y ∈ x :: items, (!dead y) = true := by
            intro y hy
            rcases List.mem_cons.mp hy with rfl | hy
            · simp [hx]
            · have hdead := hordered.1 y hy
              rw [hx] at hdead
              simpa using hdead
          rw [List.dropWhile_cons_of_neg (by simp [hx]),
            List.filter_eq_self.mpr hlive]

end Expiry

end Recency
