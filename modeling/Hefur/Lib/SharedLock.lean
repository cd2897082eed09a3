import Mathlib.Data.List.Nodup
import Hefur.Lib.Runs

/-!
# Programs under a shared lock

Threads share data under a lock that many of them hold in shared mode or one
holds in exclusive mode.  What a thread does while it holds the lock is a
`Prog`, a program of atomic actions; the actions of the threads that are inside
interleave in any order (`step`).

The sections that hold the lock in shared mode only read, apart from those of
one thread, the *keeper*.  Under this discipline

* every section that may write ran as if it were alone, from the data that the
  sections before it leave in the order of entry, and once nobody is inside the
  data are those of this serial run (`Sound`, `sound_run`);
* a section that only reads sees the data change by actions of the keeper and
  by nothing else (`Observed`).
-/

namespace SharedLock

universe u v w

/--
A program of atomic actions that returns a result.  An action changes the data;
how the program goes on depends on the data it found.
-/
inductive Prog (σ : Type u) (ω : Type v) where
  | ret (out : ω)
  | act (change : σ → σ) (next : σ → Prog σ ω)

namespace Prog

variable {σ : Type u} {ω : Type v}

/-- The program without interruptions: its result, and the data it leaves. -/
def run : Prog σ ω → σ → ω × σ
  | .ret out, s => (out, s)
  | .act change next, s => (next s).run (change s)

/-- No action of the program changes the data. -/
def ReadOnly : Prog σ ω → Prop
  | .ret _ => True
  | .act change next => (∀ s, change s = s) ∧ ∀ s, (next s).ReadOnly

/-- Run without interruptions, the program only makes steps of `R`. -/
def Along (R : σ → σ → Prop) : Prog σ ω → σ → Prop
  | .ret _, _ => True
  | .act change next, s => R s (change s) ∧ (next s).Along R (change s)

theorem along_of_forall {R : σ → σ → Prop} (hR : ∀ s t, R s t)
    (p : Prog σ ω) (s : σ) : p.Along R s := by
  induction p generalizing s with
  | ret out =>
      trivial
  | act change next ih =>
      exact ⟨hR _ _, ih s (change s)⟩

theorem ReadOnly.run_snd {p : Prog σ ω} (h : p.ReadOnly) (s : σ) :
    (p.run s).2 = s := by
  induction p generalizing s with
  | ret out =>
      rfl
  | act change next ih =>
      rw [run, ih s (h.2 s), h.1 s]

end Prog

inductive Mode where
  | shared
  | exclusive
deriving DecidableEq

variable {ι : Type w} {σ : Type u} {ω : Type v}

/-- What a thread does from taking the lock to releasing it. -/
structure Section (ι : Type w) (σ : Type u) (ω : Type v) where
  thread : ι
  mode : Mode
  prog : Prog σ ω

/--
A section that holds the lock: its place in the order of entry, the data when
it entered, and what is left of its program.
-/
structure Inside (ι : Type w) (σ : Type u) (ω : Type v) where
  sect : Section ι σ ω
  place : Nat
  start : σ
  rest : Prog σ ω

/-- A section that has left, with its result and the data it left at. -/
structure Done (ι : Type w) (σ : Type u) (ω : Type v) where
  sect : Section ι σ ω
  place : Nat
  start : σ
  out : ω
  stop : σ

/-- `entered` has all sections that ever took the lock, oldest first. -/
structure Machine (ι : Type w) (σ : Type u) (ω : Type v) where
  data : σ
  inside : List (Inside ι σ ω)
  entered : List (Section ι σ ω)
  done : List (Done ι σ ω)

/-- A thread asks for the lock, or is scheduled while it holds it. -/
inductive Event (ι : Type w) (σ : Type u) (ω : Type v) where
  | enter (sect : Section ι σ ω)
  | go (thread : ι)

section Steps

variable [DecidableEq ι]

/-- Nobody is inside. -/
def start (init : σ) : Machine ι σ ω where
  data := init
  inside := []
  entered := []
  done := []

/-- The lock can be taken. -/
def Free (m : Machine ι σ ω) (x : Section ι σ ω) : Prop :=
  (∀ a ∈ m.inside, a.sect.thread ≠ x.thread ∧ a.sect.mode = .shared) ∧
    (x.mode = .exclusive → m.inside.length = 0)

instance (m : Machine ι σ ω) (x : Section ι σ ω) : Decidable (Free m x) :=
  inferInstanceAs (Decidable (_ ∧ _))

/-- Take the lock; a thread for which it is not free has to wait. -/
def enter (x : Section ι σ ω) (m : Machine ι σ ω) : Machine ι σ ω :=
  if Free m x then
    { m with
      inside := m.inside ++ [⟨x, m.entered.length, m.data, x.prog⟩]
      entered := m.entered ++ [x] }
  else m

/-- The next action of a section, or its return and the release of the lock. -/
def advance (a : Inside ι σ ω) (m : Machine ι σ ω) : Machine ι σ ω :=
  match a.rest with
  | .ret out =>
      { m with
        inside := m.inside.filter fun b => b.sect.thread ≠ a.sect.thread
        done := m.done ++ [⟨a.sect, a.place, a.start, out, m.data⟩] }
  | .act change next =>
      { m with
        data := change m.data
        inside := m.inside.map fun b =>
          if b.sect.thread = a.sect.thread then { b with rest := next m.data }
          else b }

def go (i : ι) (m : Machine ι σ ω) : Machine ι σ ω :=
  match m.inside.find? fun a => a.sect.thread = i with
  | none => m
  | some a => advance a m

def step (m : Machine ι σ ω) : Event ι σ ω → Machine ι σ ω
  | .enter x => enter x m
  | .go i => go i m

end Steps

/-- The data after the sections, one after the other. -/
def serial (init : σ) (sections : List (Section ι σ ω)) : σ :=
  sections.foldl (fun s x => (x.prog.run s).2) init

theorem serial_concat (init : σ) (sections : List (Section ι σ ω))
    (x : Section ι σ ω) :
    serial init (sections ++ [x]) =
      (x.prog.run (serial init sections)).2 := by
  rw [serial, List.foldl_append]
  rfl

section Observation

/--
What is left of `p`, started at the data `s`, when its actions only read and the
data drift by steps of `R` meanwhile.
-/
inductive Observes (R : σ → σ → Prop) (p : Prog σ ω) (s : σ) :
    Prog σ ω → σ → Prop where
  | start : Observes R p s p s
  | drift {q : Prog σ ω} {t t' : σ} (h : Observes R p s q t)
      (hdrift : R t t') : Observes R p s q t'
  | read {change : σ → σ} {next : σ → Prog σ ω} {t : σ}
      (h : Observes R p s (.act change next) t) : Observes R p s (next t) t

/-- The program started at `s` returns `out` at `t`, in terms of its actions. -/
def Observed (R : σ → σ → Prop) : Prog σ ω → σ → ω → σ → Prop
  | .ret out, s, out', t => out = out' ∧ R s t
  | .act _ next, s, out', t => ∃ s', R s s' ∧ Observed R (next s') s' out' t

variable {R : σ → σ → Prop}

/-- Data that drift before the first action only add to the drift. -/
theorem Observed.of_drift (htrans : ∀ s t r, R s t → R t r → R s r)
    {p : Prog σ ω} {s s' t : σ} {out : ω} (hdrift : R s s')
    (h : Observed R p s' out t) : Observed R p s out t := by
  cases p with
  | ret out' =>
      exact ⟨h.1, htrans _ _ _ hdrift h.2⟩
  | act change next =>
      obtain ⟨s'', hdrift', hnext⟩ := h
      exact ⟨s'', htrans _ _ _ hdrift hdrift', hnext⟩

/-- From its start to its return the program sees the data drift. -/
theorem Observed.drift (htrans : ∀ s t r, R s t → R t r → R s r)
    {p : Prog σ ω} {s t : σ} {out : ω} (h : Observed R p s out t) :
    R s t := by
  induction p generalizing s with
  | ret out' =>
      exact h.2
  | act change next ih =>
      obtain ⟨s', hdrift, hnext⟩ := h
      exact htrans _ _ _ hdrift (ih s' hnext)

theorem Observes.observed (hrefl : ∀ s, R s s)
    (htrans : ∀ s t r, R s t → R t r → R s r)
    {p q : Prog σ ω} {s t r : σ} {out : ω} (h : Observes R p s q t)
    (hq : Observed R q t out r) : Observed R p s out r := by
  induction h generalizing r with
  | start =>
      exact hq
  | drift h hdrift ih =>
      exact ih (hq.of_drift htrans hdrift)
  | read h ih =>
      exact ih ⟨_, hrefl _, hq⟩

end Observation

section Discipline

/-- The sections that may write: the exclusive ones and those of the keeper. -/
def MayWrite (keeper : ι) (x : Section ι σ ω) : Prop :=
  x.mode = .exclusive ∨ x.thread = keeper

/--
Readers read, and on data that meet `I` writers keep `I`; while the keeper
shares the lock, its actions are steps of `R`.
-/
structure Disciplined (keeper : ι) (I : σ → Prop) (R : σ → σ → Prop)
    (x : Section ι σ ω) : Prop where
  reader : ¬ MayWrite keeper x → x.prog.ReadOnly
  shares : x.mode = .shared → MayWrite keeper x →
    ∀ s, I s → x.prog.Along R s
  keeps : MayWrite keeper x → ∀ s, I s → I (x.prog.run s).2

/-- Where nothing is asked of the data, only the readers are bound. -/
theorem Disciplined.of_readOnly {keeper : ι} {x : Section ι σ ω}
    (h : ¬ MayWrite keeper x → x.prog.ReadOnly) :
    Disciplined keeper (fun _ => True) (fun _ _ => True) x where
  reader := h
  shares := fun _ _ s _ => x.prog.along_of_forall (fun _ _ => trivial) s
  keeps := fun _ _ _ => trivial

/-- The data come from some that meet `I` by a step of `R`. -/
def Drifted (I : σ → Prop) (R : σ → σ → Prop) (s : σ) : Prop :=
  ∃ s₀, I s₀ ∧ R s₀ s

/-- A section that entered at `place` found what the earlier ones left. -/
structure Turn (init : σ) (entered : List (Section ι σ ω))
    (x : Section ι σ ω) (place : Nat) (s : σ) : Prop where
  nth : entered[place]? = some x
  found : s = serial init (entered.take place)

theorem Turn.concat {init s : σ} {entered : List (Section ι σ ω)}
    {x : Section ι σ ω} {place : Nat}
    (h : Turn init entered x place s) (y : Section ι σ ω) :
    Turn init (entered ++ [y]) x place s := by
  obtain ⟨hlt, -⟩ := List.getElem?_eq_some_iff.mp h.nth
  constructor
  · rw [List.getElem?_append_left hlt]
    exact h.nth
  · rw [List.take_append_of_le_length (Nat.le_of_lt hlt)]
    exact h.found

/-- The section that enters next finds what all others left. -/
theorem turn_next (init : σ) (entered : List (Section ι σ ω))
    (x : Section ι σ ω) :
    Turn init (entered ++ [x]) x entered.length (serial init entered) := by
  constructor
  · simp
  · rw [List.take_left']
    rfl

/-- The invariant of the machine. -/
structure Sound (keeper : ι) (I : σ → Prop) (R : σ → σ → Prop) (init : σ)
    (m : Machine ι σ ω) : Prop where
  distinct : (m.inside.map fun a => a.sect.thread).Nodup
  alone : ∀ a ∈ m.inside, a.sect.mode = .exclusive → m.inside = [a]
  turn : ∀ a ∈ m.inside, MayWrite keeper a.sect →
    Turn init m.entered a.sect a.place a.start
  runs : ∀ a ∈ m.inside, MayWrite keeper a.sect →
    a.rest.run m.data = a.sect.prog.run a.start ∧
      (a.rest.run m.data).2 = serial init m.entered
  keeps : ∀ a ∈ m.inside, a.sect.mode = .shared → MayWrite keeper a.sect →
    a.rest.Along R m.data
  reads : ∀ a ∈ m.inside, ¬ MayWrite keeper a.sect →
    a.rest.ReadOnly ∧ Drifted I R a.start ∧
      Observes R a.sect.prog a.start a.rest m.data
  quiet : (∀ a ∈ m.inside, ¬ MayWrite keeper a.sect) →
    m.data = serial init m.entered
  kept : I (serial init m.entered)
  drifted : (∀ a ∈ m.inside, a.sect.mode = .shared) → Drifted I R m.data
  wrote : ∀ d ∈ m.done, MayWrite keeper d.sect →
    Turn init m.entered d.sect d.place d.start ∧
      d.sect.prog.run d.start = (d.out, d.stop)
  observed : ∀ d ∈ m.done, ¬ MayWrite keeper d.sect →
    Drifted I R d.start ∧ Observed R d.sect.prog d.start d.out d.stop

variable {keeper : ι} {I : σ → Prop} {R : σ → σ → Prop} {init : σ}
variable {m : Machine ι σ ω}

theorem sound_start (hrefl : ∀ s, R s s) (hinit : I init) :
    Sound keeper I R init (start init : Machine ι σ ω) := by
  have hnobody (a : Inside ι σ ω) : a ∉ (start init : Machine ι σ ω).inside :=
    List.not_mem_nil
  have hnothing (d : Done ι σ ω) : d ∉ (start init : Machine ι σ ω).done :=
    List.not_mem_nil
  constructor
  · exact List.nodup_nil
  · exact fun a ha => (hnobody a ha).elim
  · exact fun a ha => (hnobody a ha).elim
  · exact fun a ha => (hnobody a ha).elim
  · exact fun a ha => (hnobody a ha).elim
  · exact fun a ha => (hnobody a ha).elim
  · exact fun _ => rfl
  · exact hinit
  · exact fun _ => ⟨init, hinit, hrefl init⟩
  · exact fun d hd => (hnothing d hd).elim
  · exact fun d hd => (hnothing d hd).elim

/-- A section of the keeper or an exclusive one is the only writer inside. -/
theorem Sound.one_writer (h : Sound keeper I R init m) {a b : Inside ι σ ω}
    (ha : a ∈ m.inside) (hb : b ∈ m.inside)
    (hawrite : MayWrite keeper a.sect) (hbwrite : MayWrite keeper b.sect) :
    a.sect.thread = b.sect.thread := by
  rcases hawrite with hexclusive | hkeeper
  · rw [h.alone a ha hexclusive, List.mem_singleton] at hb
    rw [hb]
  · rcases hbwrite with hexclusive | hkeeper'
    · rw [h.alone b hb hexclusive, List.mem_singleton] at ha
      rw [ha]
    · rw [hkeeper, hkeeper']

/-- Where nobody is exclusive, everybody shares the lock. -/
theorem Sound.shared_of_other (h : Sound keeper I R init m)
    {a b : Inside ι σ ω} (ha : a ∈ m.inside) (hb : b ∈ m.inside)
    (hne : b.sect.thread ≠ a.sect.thread) : a.sect.mode = .shared := by
  cases hmode : a.sect.mode with
  | shared =>
      rfl
  | exclusive =>
      rw [h.alone a ha hmode, List.mem_singleton] at hb
      exact (hne (by rw [hb])).elim

end Discipline

section Soundness

variable [DecidableEq ι]
variable {keeper : ι} {I : σ → Prop} {R : σ → σ → Prop} {init : σ}
variable {m : Machine ι σ ω}

omit [DecidableEq ι] in
/-- While a writer is inside, only readers can enter. -/
theorem not_mayWrite_of_free {a : Inside ι σ ω} {x : Section ι σ ω}
    (ha : a ∈ m.inside) (hwrite : MayWrite keeper a.sect)
    (hfree : Free m x) : ¬ MayWrite keeper x := by
  obtain ⟨hne, hshared⟩ := hfree.1 a ha
  rintro (hexclusive | hkeeper)
  · have hnobody := List.eq_nil_of_length_eq_zero (hfree.2 hexclusive)
    rw [hnobody] at ha
    cases ha
  · rcases hwrite with hexclusive | hkeeper'
    · rw [hshared] at hexclusive
      cases hexclusive
    · exact hne (by rw [hkeeper, hkeeper'])

theorem sound_enter (h : Sound keeper I R init m) {x : Section ι σ ω}
    (hx : Disciplined keeper I R x) : Sound keeper I R init (enter x m) := by
  unfold enter
  split
  · rename_i hfree
    -- what the writers that are inside will leave stays the same
    have hserial : (∃ a ∈ m.inside, MayWrite keeper a.sect) →
        serial init (m.entered ++ [x]) = serial init m.entered := by
      rintro ⟨a, ha, hwrite⟩
      have hreader := not_mayWrite_of_free ha hwrite hfree
      rw [serial_concat, (hx.reader hreader).run_snd]
    -- who may write finds what the others have left
    have hfound : MayWrite keeper x → m.data = serial init m.entered := by
      intro hwrite
      apply h.quiet
      intro a ha hother
      exact not_mayWrite_of_free ha hother hfree hwrite
    constructor
    · rw [List.map_append, List.nodup_append]
      refine ⟨h.distinct, List.nodup_singleton _, ?_⟩
      intro i hi j hj
      obtain ⟨a, ha, rfl⟩ := List.mem_map.mp hi
      obtain rfl := List.mem_singleton.mp hj
      exact (hfree.1 a ha).1
    · intro a ha hexclusive
      rcases List.mem_append.mp ha with ha | ha
      · rw [(hfree.1 a ha).2] at hexclusive
        cases hexclusive
      · obtain rfl := List.mem_singleton.mp ha
        rw [List.eq_nil_of_length_eq_zero (hfree.2 hexclusive)]
        rfl
    · intro a ha hwrite
      rcases List.mem_append.mp ha with ha | ha
      · exact (h.turn a ha hwrite).concat x
      · obtain rfl := List.mem_singleton.mp ha
        rw [hfound hwrite]
        exact turn_next init m.entered x
    · intro a ha hwrite
      rcases List.mem_append.mp ha with ha | ha
      · rw [hserial ⟨a, ha, hwrite⟩]
        exact h.runs a ha hwrite
      · obtain rfl := List.mem_singleton.mp ha
        refine ⟨rfl, ?_⟩
        rw [serial_concat, ← hfound hwrite]
    · intro a ha hshared hwrite
      rcases List.mem_append.mp ha with ha | ha
      · exact h.keeps a ha hshared hwrite
      · obtain rfl := List.mem_singleton.mp ha
        refine hx.shares hshared hwrite _ ?_
        rw [hfound hwrite]
        exact h.kept
    · intro a ha hreader
      rcases List.mem_append.mp ha with ha | ha
      · exact h.reads a ha hreader
      · obtain rfl := List.mem_singleton.mp ha
        exact ⟨hx.reader hreader,
          h.drifted fun a ha => (hfree.1 a ha).2, .start⟩
    · intro hquiet
      have hreader : ¬ MayWrite keeper x :=
        hquiet ⟨x, m.entered.length, m.data, x.prog⟩ (by simp)
      rw [serial_concat, (hx.reader hreader).run_snd]
      exact h.quiet fun a ha => hquiet a (List.mem_append_left _ ha)
    · rw [serial_concat]
      by_cases hwrite : MayWrite keeper x
      · exact hx.keeps hwrite _ h.kept
      · rw [(hx.reader hwrite).run_snd]
        exact h.kept
    · exact fun _ => h.drifted fun a ha => (hfree.1 a ha).2
    · intro d hd hwrite
      obtain ⟨hturn, hrun⟩ := h.wrote d hd hwrite
      exact ⟨hturn.concat x, hrun⟩
    · exact h.observed
  · exact h

omit [DecidableEq ι] in
theorem Sound.eq_of_thread (h : Sound keeper I R init m)
    {a b : Inside ι σ ω} (ha : a ∈ m.inside) (hb : b ∈ m.inside)
    (hthread : b.sect.thread = a.sect.thread) : b = a :=
  List.inj_on_of_nodup_map h.distinct hb ha hthread

/-- Who is inside after an action of `a`: the others, and `a` with its rest. -/
theorem Sound.mem_moved (h : Sound keeper I R init m)
    {a c : Inside ι σ ω} {rest : Prog σ ω} (ha : a ∈ m.inside)
    (hc : c ∈ m.inside.map fun b =>
      if b.sect.thread = a.sect.thread then { b with rest := rest } else b) :
    c = { a with rest := rest } ∨
      (c ∈ m.inside ∧ c.sect.thread ≠ a.sect.thread) := by
  obtain ⟨b, hb, rfl⟩ := List.mem_map.mp hc
  by_cases hthread : b.sect.thread = a.sect.thread
  · left
    rw [if_pos hthread, h.eq_of_thread ha hb hthread]
  · right
    rw [if_neg hthread]
    exact ⟨hb, hthread⟩

omit [DecidableEq ι] in
/-- An action of a reader leaves the data alone. -/
theorem Sound.data_read (h : Sound keeper I R init m) {a : Inside ι σ ω}
    {change : σ → σ} {next : σ → Prog σ ω} (ha : a ∈ m.inside)
    (hrest : a.rest = .act change next) (hreader : ¬ MayWrite keeper a.sect) :
    change m.data = m.data := by
  have hreads := (h.reads a ha hreader).1
  rw [hrest] at hreads
  exact hreads.1 m.data

omit [DecidableEq ι] in
/-- An action of `a`, as the others that are inside see it. -/
theorem Sound.data_moved (h : Sound keeper I R init m)
    {a c : Inside ι σ ω} {change : σ → σ} {next : σ → Prog σ ω}
    (ha : a ∈ m.inside) (hrest : a.rest = .act change next)
    (hc : c ∈ m.inside) (hthread : c.sect.thread ≠ a.sect.thread) :
    (MayWrite keeper c.sect ∧ change m.data = m.data) ∨
      (¬ MayWrite keeper c.sect ∧
        (change m.data = m.data ∨ R m.data (change m.data))) := by
  by_cases hwrite : MayWrite keeper a.sect
  · right
    refine ⟨fun hcwrite => hthread (h.one_writer hc ha hcwrite hwrite), ?_⟩
    have hkeeps := h.keeps a ha (h.shared_of_other ha hc hthread) hwrite
    rw [hrest] at hkeeps
    exact Or.inr hkeeps.1
  · have hsame := h.data_read ha hrest hwrite
    by_cases hcwrite : MayWrite keeper c.sect
    · exact Or.inl ⟨hcwrite, hsame⟩
    · exact Or.inr ⟨hcwrite, Or.inl hsame⟩

theorem sound_act (htrans : ∀ s t r, R s t → R t r → R s r)
    (h : Sound keeper I R init m) {a : Inside ι σ ω}
    {change : σ → σ} {next : σ → Prog σ ω} (ha : a ∈ m.inside)
    (hrest : a.rest = .act change next) :
    Sound keeper I R init (advance a m) := by
  rw [advance, hrest]
  dsimp only
  constructor
  · have hdistinct := h.distinct
    rw [List.map_map]
    convert hdistinct using 2
    funext b
    rw [Function.comp]
    split <;> rfl
  · intro c hc hexclusive
    rcases h.mem_moved ha hc with rfl | ⟨hc, hthread⟩
    · rw [h.alone a ha hexclusive]
      simp
    · have hshared := h.shared_of_other hc ha (Ne.symm hthread)
      rw [hshared] at hexclusive
      cases hexclusive
  · intro c hc hwrite
    rcases h.mem_moved ha hc with rfl | ⟨hc, -⟩
    · exact h.turn a ha hwrite
    · exact h.turn c hc hwrite
  · intro c hc hwrite
    rcases h.mem_moved ha hc with rfl | ⟨hc, hthread⟩
    · have hruns := h.runs a ha hwrite
      rw [hrest] at hruns
      exact hruns
    · rcases h.data_moved ha hrest hc hthread with ⟨-, hsame⟩ | ⟨hreader, -⟩
      · dsimp only
        rw [hsame]
        exact h.runs c hc hwrite
      · exact (hreader hwrite).elim
  · intro c hc hshared hwrite
    rcases h.mem_moved ha hc with rfl | ⟨hc, hthread⟩
    · have hkeeps := h.keeps a ha hshared hwrite
      rw [hrest] at hkeeps
      exact hkeeps.2
    · rcases h.data_moved ha hrest hc hthread with ⟨-, hsame⟩ | ⟨hreader, -⟩
      · dsimp only
        rw [hsame]
        exact h.keeps c hc hshared hwrite
      · exact (hreader hwrite).elim
  · intro c hc hreader
    rcases h.mem_moved ha hc with rfl | ⟨hc, hthread⟩
    · obtain ⟨hreads, hstart, hobserves⟩ := h.reads a ha hreader
      rw [hrest] at hreads hobserves
      dsimp only
      rw [h.data_read ha hrest hreader]
      exact ⟨hreads.2 m.data, hstart, .read hobserves⟩
    · obtain ⟨hreads, hstart, hobserves⟩ := h.reads c hc hreader
      refine ⟨hreads, hstart, ?_⟩
      rcases h.data_moved ha hrest hc hthread with
        ⟨hwrite, -⟩ | ⟨-, hsame | hdrift⟩
      · exact (hreader hwrite).elim
      · dsimp only
        rw [hsame]
        exact hobserves
      · exact .drift hobserves hdrift
  · intro hquiet
    have hquiet' : ∀ b ∈ m.inside, ¬ MayWrite keeper b.sect := by
      intro b hb hwrite
      refine hquiet _ (List.mem_map_of_mem hb) ?_
      split <;> exact hwrite
    rw [h.data_read ha hrest (hquiet' a ha)]
    exact h.quiet hquiet'
  · exact h.kept
  · intro hshared
    have hshared' : ∀ b ∈ m.inside, b.sect.mode = .shared := by
      intro b hb
      have hmode := hshared _ (List.mem_map_of_mem hb)
      split at hmode <;> exact hmode
    by_cases hwrite : MayWrite keeper a.sect
    · have hkeeps := h.keeps a ha (hshared' a ha) hwrite
      rw [hrest] at hkeeps
      obtain ⟨s₀, hs₀, hdrift⟩ := h.drifted hshared'
      exact ⟨s₀, hs₀, htrans _ _ _ hdrift hkeeps.1⟩
    · rw [h.data_read ha hrest hwrite]
      exact h.drifted hshared'
  · exact h.wrote
  · exact h.observed

theorem sound_ret (hrefl : ∀ s, R s s)
    (htrans : ∀ s t r, R s t → R t r → R s r) (h : Sound keeper I R init m)
    {a : Inside ι σ ω} {out : ω} (ha : a ∈ m.inside)
    (hrest : a.rest = .ret out) : Sound keeper I R init (advance a m) := by
  rw [advance, hrest]
  dsimp only
  have hleft : ∀ b ∈ m.inside.filter fun b =>
      b.sect.thread ≠ a.sect.thread, b ∈ m.inside :=
    fun b hb => (List.mem_filter.mp hb).1
  constructor
  · exact h.distinct.sublist (List.filter_sublist.map _)
  · intro b hb hexclusive
    have hinside := h.alone b (hleft b hb) hexclusive
    rw [hinside] at ha
    obtain rfl := List.mem_singleton.mp ha
    simp at hb
  · exact fun b hb => h.turn b (hleft b hb)
  · exact fun b hb => h.runs b (hleft b hb)
  · exact fun b hb => h.keeps b (hleft b hb)
  · exact fun b hb => h.reads b (hleft b hb)
  · intro hquiet
    by_cases hwrite : MayWrite keeper a.sect
    · have hruns := (h.runs a ha hwrite).2
      rw [hrest] at hruns
      exact hruns
    · apply h.quiet
      intro b hb hbwrite
      have hne : b.sect.thread ≠ a.sect.thread := by
        intro hthread
        rw [h.eq_of_thread ha hb hthread] at hbwrite
        exact hwrite hbwrite
      exact hquiet b (List.mem_filter.mpr ⟨hb, by simpa using hne⟩) hbwrite
  · exact h.kept
  · intro hshared
    by_cases hexclusive : a.sect.mode = .exclusive
    · -- nobody else is inside, and what `a` leaves is the serial run
      have hruns := (h.runs a ha (Or.inl hexclusive)).2
      rw [hrest] at hruns
      have hdata : m.data = serial init m.entered := hruns
      exact ⟨m.data, hdata ▸ h.kept, hrefl _⟩
    · apply h.drifted
      intro b hb
      cases hmode : b.sect.mode with
      | shared =>
          rfl
      | exclusive =>
          have hinside := h.alone b hb hmode
          rw [hinside] at ha
          obtain rfl := List.mem_singleton.mp ha
          exact (hexclusive hmode).elim
  · intro d hd hwrite
    rcases List.mem_append.mp hd with hd | hd
    · exact h.wrote d hd hwrite
    · obtain rfl := List.mem_singleton.mp hd
      refine ⟨h.turn a ha hwrite, ?_⟩
      rw [← (h.runs a ha hwrite).1, hrest]
      rfl
  · intro d hd hreader
    rcases List.mem_append.mp hd with hd | hd
    · exact h.observed d hd hreader
    · obtain rfl := List.mem_singleton.mp hd
      obtain ⟨-, hstart, hobserves⟩ := h.reads a ha hreader
      rw [hrest] at hobserves
      exact ⟨hstart, hobserves.observed hrefl htrans ⟨rfl, hrefl _⟩⟩

/-- A section is entered under the discipline; the rest of a step is free. -/
def Event.Disciplined (keeper : ι) (I : σ → Prop) (R : σ → σ → Prop) :
    Event ι σ ω → Prop
  | .enter x => SharedLock.Disciplined keeper I R x
  | .go _ => True

theorem sound_step (hrefl : ∀ s, R s s)
    (htrans : ∀ s t r, R s t → R t r → R s r) (m : Machine ι σ ω)
    (e : Event ι σ ω) (he : e.Disciplined keeper I R)
    (h : Sound keeper I R init m) : Sound keeper I R init (step m e) := by
  cases e with
  | enter x =>
      exact sound_enter h he
  | go i =>
      rw [step, go]
      split
      · exact h
      · rename_i a hfind
        have ha : a ∈ m.inside := List.mem_of_find?_eq_some hfind
        cases hrest : a.rest with
        | ret out =>
            exact sound_ret hrefl htrans h ha hrest
        | act change next =>
            exact sound_act htrans h ha hrest

/-- **The machine is sound after every run under the discipline.** -/
theorem sound_run (hrefl : ∀ s, R s s)
    (htrans : ∀ s t r, R s t → R t r → R s r) (hinit : I init)
    {events : List (Event ι σ ω)}
    (hevents : ∀ e ∈ events, e.Disciplined keeper I R) :
    Sound keeper I R init (Runs.run step (start init) events) :=
  Runs.run_invariant_of_events
    (fun m e he h => sound_step hrefl htrans m e he h)
    (sound_start hrefl hinit) hevents

end Soundness

section Entries

variable [DecidableEq ι]

/-- The section that an event asks to enter. -/
def Event.sect? : Event ι σ ω → Option (Section ι σ ω)
  | .enter x => some x
  | .go _ => none

theorem entered_step (m : Machine ι σ ω) (e : Event ι σ ω) :
    ∃ entries : List (Section ι σ ω),
      entries.Sublist (e.sect?).toList ∧
        (step m e).entered = m.entered ++ entries := by
  cases e with
  | enter x =>
      rw [step, enter]
      split
      · exact ⟨[x], List.Sublist.refl _, rfl⟩
      · exact ⟨[], List.nil_sublist _, by simp⟩
  | go i =>
      refine ⟨[], List.nil_sublist _, ?_⟩
      rw [List.append_nil, step, go]
      split
      · rfl
      · rw [advance]
        split <;> rfl

/-- The sections that entered are some of those that asked to, in order. -/
theorem entered_run (m : Machine ι σ ω) (events : List (Event ι σ ω)) :
    ∃ entries : List (Section ι σ ω),
      entries.Sublist (events.filterMap Event.sect?) ∧
        (Runs.run step m events).entered = m.entered ++ entries := by
  induction events generalizing m with
  | nil =>
      exact ⟨[], List.nil_sublist _, by simp⟩
  | cons e events ih =>
      obtain ⟨first, hfirst, hentered⟩ := entered_step m e
      obtain ⟨rest, hrest, hrun⟩ := ih (step m e)
      refine ⟨first ++ rest, ?_, ?_⟩
      · have hsplit : (e :: events).filterMap Event.sect? =
            (e.sect?).toList ++ events.filterMap Event.sect? := by
          cases e <;> rfl
        rw [hsplit]
        exact hfirst.append hrest
      · rw [Runs.run_cons, hrun, hentered, List.append_assoc]

end Entries

end SharedLock
