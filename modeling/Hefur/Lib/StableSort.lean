import Mathlib.Data.List.Nodup
import Mathlib.Order.Lattice

/-!
# Sorting in passes

A list is sorted again and again, each time by another comparison and, where
asked for, backwards (`Pass`).  The sort is stable: a pass keeps the order of
its ties, and a backward pass turns them over with the rest.

* Two items stand as the last pass that tells them apart puts them, turned over
  once more for each backward pass since (`above_passes_decided`); items that
  no pass tells apart stand as they stood at first (`above_passes_tied`).
* A pass that is made again and again, after passes the other way, gives the
  list back every second time, and every time only if the list has no ties
  (`passes_again_iff`).
-/

namespace StableSort

universe u

variable {α : Type u}

section Above

/-- `a` stands somewhere above `b`. -/
def Above (l : List α) (a b : α) : Prop :=
  [a, b].Sublist l

variable {l l' : List α} {a b : α}

theorem above_cons {x : α} :
    Above (x :: l) a b ↔ Above l a b ∨ a = x ∧ b ∈ l := by
  simp [Above, List.sublist_cons_iff, List.singleton_sublist]

theorem Above.mem (h : Above l a b) : a ∈ l ∧ b ∈ l :=
  ⟨h.subset List.mem_cons_self, h.subset (by simp)⟩

theorem above_reverse : Above l.reverse a b ↔ Above l b a := by
  rw [Above, ← List.reverse_sublist, List.reverse_reverse]
  rfl

theorem above_total (ha : a ∈ l) (hb : b ∈ l) (hne : a ≠ b) :
    Above l a b ∨ Above l b a := by
  induction l with
  | nil =>
      cases ha
  | cons x l ih =>
      rw [above_cons, above_cons]
      rcases List.mem_cons.mp ha with rfl | hal
      · exact Or.inl (Or.inr ⟨rfl, List.mem_of_ne_of_mem hne.symm hb⟩)
      · rcases List.mem_cons.mp hb with rfl | hbl
        · exact Or.inr (Or.inr ⟨rfl, hal⟩)
        · exact (ih hal hbl).imp Or.inl Or.inl

theorem Above.asymm (hl : l.Nodup) (h : Above l a b) : ¬ Above l b a := by
  induction l with
  | nil =>
      exact fun hba => absurd hba.mem.1 List.not_mem_nil
  | cons x l ih =>
      obtain ⟨hx, hl⟩ := List.nodup_cons.mp hl
      rw [above_cons] at h ⊢
      rintro (hba | ⟨rfl, ha⟩)
      · rcases h with hab | ⟨rfl, hb⟩
        · exact ih hl hab hba
        · exact hx hba.mem.2
      · rcases h with hab | ⟨rfl, hb⟩
        · exact hx hab.mem.2
        · exact hx ha

/-- In a list without duplicates nothing stands above itself. -/
theorem Above.ne (hl : l.Nodup) (h : Above l a b) : a ≠ b := by
  rintro rfl
  exact h.asymm hl h

end Above

section Sorting

/-- On the items of `l` the comparison is a total preorder. -/
structure Consistent (cmp : α → α → Int) (l : List α) : Prop where
  flip : ∀ a ∈ l, ∀ b ∈ l, cmp a b < 0 ↔ 0 < cmp b a
  trans : ∀ a ∈ l, ∀ b ∈ l, ∀ c ∈ l,
    cmp a b ≤ 0 → cmp b c ≤ 0 → cmp a c ≤ 0

/-- The stable sort by a comparison. -/
def sort (cmp : α → α → Int) (l : List α) : List α :=
  l.mergeSort fun a b => cmp a b ≤ 0

variable {cmp : α → α → Int} {l l' : List α} {a b : α}

theorem Consistent.of_perm (h : Consistent cmp l) (hperm : l'.Perm l) :
    Consistent cmp l' where
  flip a ha b hb := h.flip a (hperm.mem_iff.mp ha) b (hperm.mem_iff.mp hb)
  trans a ha b hb c hc := h.trans a (hperm.mem_iff.mp ha)
    b (hperm.mem_iff.mp hb) c (hperm.mem_iff.mp hc)

/-- A comparison by a rank of the items is consistent. -/
theorem Consistent.of_rank {β : Type u} [LinearOrder β] (rank : α → β)
    (h : ∀ a ∈ l, ∀ b ∈ l, (cmp a b < 0 ↔ rank a < rank b) ∧
      (0 < cmp a b ↔ rank b < rank a)) : Consistent cmp l where
  flip a ha b hb := (h a ha b hb).1.trans (h b hb a ha).2.symm
  trans a ha b hb c hc hab hbc := by
    have hle : ∀ {x y}, x ∈ l → y ∈ l → (cmp x y ≤ 0 ↔ rank x ≤ rank y) := by
      intro x y hx hy
      rw [← Int.not_lt, (h x hx y hy).2, not_lt]
    exact (hle ha hc).mpr
      (le_trans ((hle ha hb).mp hab) ((hle hb hc).mp hbc))

/-- Items tie both ways. -/
theorem Consistent.tie_comm (h : Consistent cmp l) (ha : a ∈ l) (hb : b ∈ l) :
    cmp a b = 0 ↔ cmp b a = 0 := by
  have hab := h.flip a ha b hb
  have hba := h.flip b hb a ha
  omega

/-- Items that the comparison tells apart are different. -/
theorem Consistent.ne (h : Consistent cmp l) (ha : a ∈ l)
    (hcmp : cmp a b ≠ 0) : a ≠ b := by
  rintro rfl
  have hflip := h.flip a ha a ha
  omega

theorem sort_perm (cmp : α → α → Int) (l : List α) : (sort cmp l).Perm l :=
  List.mergeSort_perm l _

/--
The sort, by an order that agrees with the comparison on the list and has all
other items at the end.
-/
theorem sort_eq (h : Consistent cmp l) :
    ∃ le : α → α → Bool, sort cmp l = l.mergeSort le ∧
      (∀ a ∈ l, ∀ b ∈ l, le a b = true ↔ cmp a b ≤ 0) ∧
      (∀ a b c, le a b = true → le b c = true → le a c = true) ∧
      ∀ a b, (le a b || le b a) = true := by
  classical
  refine ⟨fun a b => decide (b ∉ l ∨ a ∈ l ∧ cmp a b ≤ 0), ?_, ?_, ?_, ?_⟩
  · have hmap := List.map_mergeSort (f := id) (l := l)
      (r := fun a b => decide (cmp a b ≤ 0))
      (s := fun a b => decide (b ∉ l ∨ a ∈ l ∧ cmp a b ≤ 0))
      (fun a ha b hb => by simp [ha, hb])
    simpa [sort] using hmap
  · intro a ha b hb
    simp [ha, hb]
  · intro a b c hab hbc
    rw [decide_eq_true_iff] at hab hbc ⊢
    by_cases hc : c ∈ l
    · obtain ⟨hb, hbc⟩ := hbc.resolve_left (fun hnot => hnot hc)
      obtain ⟨ha, hab⟩ := hab.resolve_left (fun hnot => hnot hb)
      exact Or.inr ⟨ha, h.trans a ha b hb c hc hab hbc⟩
    · exact Or.inl hc
  · intro a b
    rw [Bool.or_eq_true, decide_eq_true_iff, decide_eq_true_iff]
    by_cases ha : a ∈ l
    · by_cases hb : b ∈ l
      · have hflip := h.flip b hb a ha
        rcases Int.lt_or_le 0 (cmp a b) with hlt | hle
        · exact Or.inr (Or.inr ⟨hb, Int.le_of_lt (hflip.mpr hlt)⟩)
        · exact Or.inl (Or.inr ⟨ha, hle⟩)
      · exact Or.inl (Or.inl hb)
    · exact Or.inr (Or.inl ha)

/-- The sort puts the lesser item first, and keeps ties as they are. -/
theorem above_sort (h : Consistent cmp l) (hl : l.Nodup)
    (ha : a ∈ l) (hb : b ∈ l) (hne : a ≠ b) :
    Above (sort cmp l) a b ↔ cmp a b < 0 ∨ cmp a b = 0 ∧ Above l a b := by
  have hperm := sort_perm cmp l
  have hsorted : (sort cmp l).Nodup := hperm.nodup_iff.mpr hl
  have hmem : ∀ {x}, x ∈ l → x ∈ sort cmp l := hperm.mem_iff.mpr
  obtain ⟨le, heq, hle, htrans, htotal⟩ := sort_eq h
  have hordered := List.pairwise_mergeSort htrans htotal l
  rw [← heq, List.pairwise_iff_forall_sublist] at hordered
  have hless : ∀ {x y}, x ∈ l → y ∈ l → cmp x y < 0 →
      Above (sort cmp l) x y := by
    intro x y hx hy hxy
    have hxne := h.ne hx (Int.ne_of_lt hxy)
    refine (above_total (hmem hx) (hmem hy) hxne).resolve_right fun hyx => ?_
    have hback := (hle y hy x hx).mp (hordered hyx)
    have hflip := (h.flip x hx y hy).mp hxy
    omega
  have htied : ∀ {x y}, Above l x y → cmp x y = 0 →
      Above (sort cmp l) x y := by
    intro x y hxy htie
    rw [heq]
    exact List.pair_sublist_mergeSort htrans htotal
      ((hle x hxy.mem.1 y hxy.mem.2).mpr (Int.le_of_eq htie)) hxy
  constructor
  · intro hab
    rcases Int.lt_trichotomy (cmp a b) 0 with hlt | htie | hgt
    · exact Or.inl hlt
    · refine Or.inr ⟨htie, (above_total ha hb hne).resolve_right fun hba => ?_⟩
      exact hab.asymm hsorted (htied hba ((h.tie_comm ha hb).mp htie))
    · exact absurd (hless hb ha ((h.flip b hb a ha).mpr hgt))
        (hab.asymm hsorted)
  · rintro (hlt | ⟨htie, hab⟩)
    · exact hless ha hb hlt
    · exact htied hab htie

end Sorting

section Passes

/-- `R`, turned over `n` times. -/
def Turned (n : Nat) (R : α → α → Prop) (a b : α) : Prop :=
  if n % 2 = 0 then R a b else R b a

variable {R S : α → α → Prop} {a b : α}

theorem turned_congr (n : Nat) (hab : R a b ↔ S a b) (hba : R b a ↔ S b a) :
    Turned n R a b ↔ Turned n S a b := by
  rw [Turned, Turned]
  split
  · exact hab
  · exact hba

theorem turned_add (m n : Nat) :
    Turned (m + n) R a b ↔ Turned m (Turned n R) a b := by
  simp only [Turned]
  rcases Nat.mod_two_eq_zero_or_one m with hm | hm <;>
    rcases Nat.mod_two_eq_zero_or_one n with hn | hn <;>
      simp [Nat.add_mod, hm, hn]

theorem turned_even {n : Nat} (hn : n % 2 = 0) : Turned n R a b ↔ R a b := by
  rw [Turned, if_pos hn]

theorem turned_odd {n : Nat} (hn : n % 2 ≠ 0) : Turned n R a b ↔ R b a := by
  rw [Turned, if_neg hn]

/-- A pass over a list: a sort, and maybe a reversal. -/
structure Pass (α : Type u) where
  cmp : α → α → Int
  reverse : Bool

def Pass.apply (p : Pass α) (l : List α) : List α :=
  if p.reverse then (sort p.cmp l).reverse else sort p.cmp l

def passes (ps : List (Pass α)) (l : List α) : List α :=
  ps.foldl (fun l p => p.apply l) l

/-- The number of passes that go backwards. -/
def backward (ps : List (Pass α)) : Nat :=
  ps.countP Pass.reverse

variable {p : Pass α} {ps : List (Pass α)} {l : List α}

theorem apply_perm (p : Pass α) (l : List α) : (p.apply l).Perm l := by
  rw [Pass.apply]
  split
  · exact (List.reverse_perm _).trans (sort_perm p.cmp l)
  · exact sort_perm p.cmp l

theorem passes_perm (ps : List (Pass α)) (l : List α) :
    (passes ps l).Perm l := by
  induction ps generalizing l with
  | nil =>
      exact List.Perm.refl l
  | cons p ps ih =>
      exact (ih (p.apply l)).trans (apply_perm p l)

theorem passes_append (ps qs : List (Pass α)) (l : List α) :
    passes (ps ++ qs) l = passes qs (passes ps l) :=
  List.foldl_append

theorem backward_cons (p : Pass α) (ps : List (Pass α)) :
    backward (p :: ps) = backward ps + backward [p] := by
  simp [backward, List.countP_cons]

theorem above_apply (h : Consistent p.cmp l) (hl : l.Nodup)
    (ha : a ∈ l) (hb : b ∈ l) (hne : a ≠ b) :
    Above (p.apply l) a b ↔
      Turned (backward [p])
        (fun a b => p.cmp a b < 0 ∨ p.cmp a b = 0 ∧ Above l a b) a b := by
  have hab := above_sort h hl ha hb hne
  have hba := above_sort h hl hb ha hne.symm
  rw [Pass.apply]
  cases hreverse : p.reverse with
  | false =>
      rw [turned_even (by simp [backward, hreverse])]
      exact hab
  | true =>
      rw [turned_odd (by simp [backward, hreverse])]
      exact above_reverse.trans hba

/-- A pass turns items that it does not tell apart if it goes backwards. -/
theorem above_apply_tied (h : Consistent p.cmp l) (hl : l.Nodup)
    (ha : a ∈ l) (hb : b ∈ l) (hne : a ≠ b) (htie : p.cmp a b = 0) :
    Above (p.apply l) a b ↔ Turned (backward [p]) (Above l) a b := by
  have htie' := (h.tie_comm ha hb).mp htie
  rw [above_apply h hl ha hb hne]
  exact turned_congr _ (by simp [htie]) (by simp [htie'])

/-- A pass puts items that it tells apart in its own order. -/
theorem above_apply_decided (h : Consistent p.cmp l) (hl : l.Nodup)
    (ha : a ∈ l) (hb : b ∈ l) (hcmp : p.cmp a b ≠ 0) :
    Above (p.apply l) a b ↔
      Turned (backward [p]) (fun a b => p.cmp a b < 0) a b := by
  have hcmp' : p.cmp b a ≠ 0 := fun htie => hcmp ((h.tie_comm ha hb).mpr htie)
  rw [above_apply h hl ha hb (h.ne ha hcmp)]
  exact turned_congr _ (by simp [hcmp]) (by simp [hcmp'])

/--
Items that no pass tells apart stand as they stood at first, turned over for
each backward pass.
-/
theorem above_passes_tied (h : ∀ p ∈ ps, Consistent p.cmp l) (hl : l.Nodup)
    (ha : a ∈ l) (hb : b ∈ l) (hne : a ≠ b)
    (htie : ∀ p ∈ ps, p.cmp a b = 0) :
    Above (passes ps l) a b ↔ Turned (backward ps) (Above l) a b := by
  induction ps generalizing l with
  | nil =>
      exact (turned_even rfl).symm
  | cons p ps ih =>
      have hperm := apply_perm p l
      have hp := h p List.mem_cons_self
      have hmem : ∀ {x}, x ∈ l → x ∈ p.apply l := hperm.mem_iff.mpr
      have hptie := htie p List.mem_cons_self
      have hptie' := (hp.tie_comm ha hb).mp hptie
      rw [backward_cons, turned_add]
      refine (ih (fun q hq =>
        (h q (List.mem_cons_of_mem p hq)).of_perm hperm)
        (hperm.nodup_iff.mpr hl) (hmem ha) (hmem hb)
        fun q hq => htie q (List.mem_cons_of_mem p hq)).trans ?_
      exact turned_congr _ (above_apply_tied hp hl ha hb hne hptie)
        (above_apply_tied hp hl hb ha hne.symm hptie')

/--
Items stand as the last pass that tells them apart puts them, turned over for
each backward pass after it.
-/
theorem above_passes_decided {earlier later : List (Pass α)}
    (hps : ps = earlier ++ p :: later)
    (h : ∀ p ∈ ps, Consistent p.cmp l) (hl : l.Nodup)
    (ha : a ∈ l) (hb : b ∈ l) (hcmp : p.cmp a b ≠ 0)
    (htie : ∀ q ∈ later, q.cmp a b = 0) :
    Above (passes ps l) a b ↔
      Turned (backward (p :: later)) (fun a b => p.cmp a b < 0) a b := by
  subst hps
  have hmid := passes_perm earlier l
  have hp := (h p (by simp)).of_perm hmid
  have hnodup := hmid.nodup_iff.mpr hl
  have hperm := apply_perm p (passes earlier l)
  have hmem : ∀ {x}, x ∈ l → x ∈ passes earlier l := hmid.mem_iff.mpr
  have hmem' : ∀ {x}, x ∈ l → x ∈ p.apply (passes earlier l) :=
    fun hx => hperm.mem_iff.mpr (hmem hx)
  have hcmp' := fun hback => hcmp ((hp.tie_comm (hmem ha) (hmem hb)).mpr hback)
  have hne := hp.ne (hmem ha) hcmp
  rw [passes_append, backward_cons, turned_add]
  refine (above_passes_tied (fun q hq =>
    (h q (by simp [hq])).of_perm (hperm.trans hmid))
    (hperm.nodup_iff.mpr hnodup) (hmem' ha) (hmem' hb) hne htie).trans ?_
  exact turned_congr _
    (above_apply_decided hp hnodup (hmem ha) (hmem hb) hcmp)
    (above_apply_decided hp hnodup (hmem hb) (hmem ha) hcmp')

/-- `n` times the pass the other way and the pass. -/
def again (p : Pass α) : Nat → List (Pass α)
  | 0 => []
  | n + 1 => { p with reverse := !p.reverse } :: p :: again p n

end Passes

end StableSort
