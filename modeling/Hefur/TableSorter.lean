import Mathlib.Data.List.Lex
import Hefur.Lib.StableSort
import Hefur.ScriptNumbers
import Hefur.StatPage

/-!
# The tables of the pages

The model of `table-sorter.js`, with the table of `stat.html`.  How the script
reads numbers is in `ScriptNumbers`.

A click on the head of a column sorts the rows by it; a second click in a row
sorts them the other way.  The sort of the language is stable, so that each
click breaks its ties by the order it finds, and a sort the other way turns the
ties over as well.

* `clicks_follow` says where two rows stand after any clicks, and `stat_table`
  says it of the stat page of a reachable tracker.
* Two more clicks on a column give the table back only if no rows tie in it;
  four always do (`clicks_cycle`).
-/

namespace Hefur
namespace TableSorter

open Bytes StableSort

section Comparisons

def units (s : JsString) : List Nat :=
  s.map UInt16.toNat

def sortStr (a b : JsString) : Option Int :=
  if units a > units b then some 1
  else if a = b then some 0
  else some (-1)

def sortInt (a b : JsString) : Option Int :=
  minus (parseInt a) (parseInt b)

def sortByte (a b : JsString) : Option Int :=
  minus (parseByteSize a) (parseByteSize b)

end Comparisons

section Tables

inductive Order where
  | sortStr
  | sortInt
  | sortByte
deriving DecidableEq

/--
The rows of a table: the texts of their cells, and the comparison that a click
on the head of a column asks for.
-/
structure Layout (ρ : Type) where
  cell : ρ → Nat → JsString
  onClick : Nat → Option Order

variable {ρ : Type}

def Order.lt : Order → JsString → JsString → Option Int
  | .sortStr => TableSorter.sortStr
  | .sortInt => TableSorter.sortInt
  | .sortByte => TableSorter.sortByte

/-- Compare two rows by a column; `sort` takes `NaN` for zero. -/
def Order.cmp (L : Layout ρ) (lt : Order) (col : Nat) (a b : ρ) : Int :=
  (lt.lt (L.cell a col) (L.cell b col)).getD 0

def sortTbody2 (L : Layout ρ) (rows : List ρ) (col : Nat) (lt : Order)
    (reverse : Bool) : List ρ :=
  let rows := sort (lt.cmp L col) rows
  if reverse then rows.reverse else rows

/-- A table body with what the script keeps in it. -/
structure Tbody (ρ : Type) where
  rows : List ρ
  tableSorterCol : Option Nat
  tableSorterReverse : Bool

def sortTbody (L : Layout ρ) (col : Nat) (lt : Order) (tbody : Tbody ρ) :
    Tbody ρ :=
  let reverse :=
    if tbody.tableSorterCol = some col then !tbody.tableSorterReverse
    else false
  { rows := sortTbody2 L tbody.rows col lt reverse
    tableSorterCol := some col
    tableSorterReverse := reverse }

/-- The table of a page, which sorts it by `col` when it is opened. -/
def opened (L : Layout ρ) (col : Nat) (rows : List ρ) : Tbody ρ where
  rows := sortTbody2 L rows col .sortStr false
  tableSorterCol := none
  tableSorterReverse := false

/-- A click on the head of a column. -/
def click (L : Layout ρ) (tbody : Tbody ρ) (col : Nat) : Tbody ρ :=
  match L.onClick col with
  | none => tbody
  | some lt => sortTbody L col lt tbody

/-- The cells of the columns of numbers are numbers. -/
def Reads (L : Layout ρ) (rows : List ρ) : Prop :=
  ∀ col, ∀ a ∈ rows,
    (L.onClick col = some .sortInt → parseInt (L.cell a col) ≠ none) ∧
      (L.onClick col = some .sortByte → parseByteSize (L.cell a col) ≠ none)

/-- The comparison of a column; nothing sorts by a column without one. -/
def compare (L : Layout ρ) (col : Nat) (a b : ρ) : Int :=
  match L.onClick col with
  | none => 0
  | some lt => lt.cmp L col a b

/-- The pass over the rows that a click makes. -/
def passOf (L : Layout ρ) (tbody : Tbody ρ) (col : Nat) : Pass ρ where
  cmp := compare L col
  reverse := (L.onClick col).isSome &&
    decide (tbody.tableSorterCol = some col) && !tbody.tableSorterReverse

/-- How often the clicks sort the table the other way. -/
def turns (L : Layout ρ) (tbody : Tbody ρ) (cols : List Nat) : Nat :=
  backward (Runs.outputs (click L) (passOf L) tbody cols)

/--
Where the rows stand after clicks on the columns `cols`, oldest first: the last
column that tells two rows apart decides, and each sort the other way from then
on turns them over.
-/
structure Follows (L : Layout ρ) (tbody : Tbody ρ) (cols : List Nat)
    (rows : List ρ) : Prop where
  perm : rows.Perm tbody.rows
  decided : ∀ earlier col later, cols = earlier ++ col :: later →
    ∀ a ∈ rows, ∀ b ∈ rows, compare L col a b ≠ 0 →
      (∀ c ∈ later, compare L c a b = 0) →
      (Above rows a b ↔
        Turned
          (turns L (Runs.run (click L) tbody earlier) (col :: later))
          (fun a b => compare L col a b < 0) a b)
  tied : ∀ a ∈ rows, ∀ b ∈ rows, a ≠ b →
    (∀ c ∈ cols, compare L c a b = 0) →
    (Above rows a b ↔ Turned (turns L tbody cols) (Above tbody.rows) a b)

end Tables

section Clicks

variable {ρ : Type} {L : Layout ρ}

theorem units_injective : Function.Injective units :=
  List.map_injective_iff.mpr fun _ _ => UInt16.toNat_inj.mp

theorem sortStr_getD (a b : JsString) :
    ((sortStr a b).getD 0 < 0 ↔ units a < units b) ∧
      (0 < (sortStr a b).getD 0 ↔ units b < units a) := by
  rw [sortStr]
  split
  · rename_i hgt
    exact ⟨by simpa using le_of_lt hgt, by simpa using hgt⟩
  · rename_i hle
    split
    · rename_i heq
      simp [heq]
    · rename_i hne
      have hlt := lt_of_le_of_ne (not_lt.mp hle)
        fun hsame => hne (units_injective hsame)
      exact ⟨by simpa using hlt, by simpa using le_of_lt hlt⟩

/-- Differences of what a reading gives compare by what is read. -/
theorem minus_read {read : JsString → Option Int} {a b : JsString}
    (hread : ∀ {s n}, read s = some n → InRange n)
    (ha : read a ≠ none) (hb : read b ≠ none) :
    ((minus (read a) (read b)).getD 0 < 0 ↔
        (read a).getD 0 < (read b).getD 0) ∧
      (0 < (minus (read a) (read b)).getD 0 ↔
        (read b).getD 0 < (read a).getD 0) := by
  obtain ⟨x, hx⟩ := Option.ne_none_iff_exists'.mp ha
  obtain ⟨y, hy⟩ := Option.ne_none_iff_exists'.mp hb
  rw [hx, hy]
  exact minus_getD (hread hx) (hread hy)

theorem compare_eq {col : Nat} {lt : Order} (h : L.onClick col = some lt)
    (a b : ρ) : compare L col a b = lt.cmp L col a b := by
  rw [compare, h]

theorem consistent_compare {rows : List ρ} (h : Reads L rows) (col : Nat) :
    Consistent (compare L col) rows := by
  cases honClick : L.onClick col with
  | none =>
      refine .of_rank (fun _ => 0) fun a _ b _ => ?_
      simp [compare, honClick]
  | some lt =>
      cases lt with
      | sortStr =>
          refine .of_rank (fun a => units (L.cell a col)) fun a _ b _ => ?_
          rw [compare_eq honClick]
          exact sortStr_getD (L.cell a col) (L.cell b col)
      | sortInt =>
          refine .of_rank (fun a => (parseInt (L.cell a col)).getD 0)
            fun a ha b hb => ?_
          rw [compare_eq honClick]
          exact minus_read inRange_parseInt ((h col a ha).1 honClick)
            ((h col b hb).1 honClick)
      | sortByte =>
          refine .of_rank (fun a => (parseByteSize (L.cell a col)).getD 0)
            fun a ha b hb => ?_
          rw [compare_eq honClick]
          exact minus_read inRange_parseByteSize ((h col a ha).2 honClick)
            ((h col b hb).2 honClick)

theorem rows_click (L : Layout ρ) (tbody : Tbody ρ) (col : Nat) :
    (click L tbody col).rows = (passOf L tbody col).apply tbody.rows := by
  cases honClick : L.onClick col with
  | none =>
      have hcmp : compare L col = fun _ _ => 0 := by
        funext a b
        rw [compare, honClick]
      have hsame : sort (fun _ _ => 0) tbody.rows = tbody.rows :=
        List.mergeSort_of_pairwise
          (List.pairwise_iff_forall_sublist.mpr fun _ => by simp)
      rw [click, honClick, Pass.apply, passOf, honClick, hcmp]
      exact hsame.symm
  | some lt =>
      have hcmp : compare L col = lt.cmp L col :=
        funext fun a => funext fun b => compare_eq honClick a b
      rw [click, honClick, Pass.apply, passOf, honClick, hcmp]
      by_cases hcol : tbody.tableSorterCol = some col
      · simp [sortTbody, sortTbody2, hcol]
      · simp [sortTbody, sortTbody2, hcol]

/-- A run of clicks makes their passes. -/
theorem rows_run (L : Layout ρ) (tbody : Tbody ρ) (cols : List Nat) :
    (Runs.run (click L) tbody cols).rows =
      passes (Runs.outputs (click L) (passOf L) tbody cols) tbody.rows := by
  induction cols generalizing tbody with
  | nil =>
      rfl
  | cons col cols ih =>
      rw [Runs.run_cons, ih, rows_click]
      rfl

variable {tbody : Tbody ρ}

/--
**Clicks on a table.**  After any clicks the table has the rows that it had, in
the order that `Follows` describes.
-/
theorem clicks_follow (hread : Reads L tbody.rows) (hrows : tbody.rows.Nodup)
    (cols : List Nat) :
    Follows L tbody cols (Runs.run (click L) tbody cols).rows := by
  rw [rows_run]
  have hperm := passes_perm
    (Runs.outputs (click L) (passOf L) tbody cols) tbody.rows
  have hconsistent : ∀ p ∈ Runs.outputs (click L) (passOf L) tbody cols,
      Consistent p.cmp tbody.rows := by
    intro p hp
    obtain ⟨_, col, _, rfl⟩ := Runs.mem_outputs hp
    exact consistent_compare hread col
  constructor
  · exact hperm
  · intro earlier col later hcols a ha b hb hcmp htie
    have houtputs : Runs.outputs (click L) (passOf L) tbody cols =
        Runs.outputs (click L) (passOf L) tbody earlier ++
          Runs.outputs (click L) (passOf L)
            (Runs.run (click L) tbody earlier) (col :: later) := by
      rw [hcols, Runs.outputs_append]
    refine above_passes_decided houtputs hconsistent hrows
      (hperm.mem_iff.mp ha) (hperm.mem_iff.mp hb) hcmp fun q hq => ?_
    obtain ⟨_, c, hc, rfl⟩ := Runs.mem_outputs hq
    exact htie c hc
  · intro a ha b hb hne htie
    refine above_passes_tied hconsistent hrows (hperm.mem_iff.mp ha)
      (hperm.mem_iff.mp hb) hne fun p hp => ?_
    obtain ⟨_, c, hc, rfl⟩ := Runs.mem_outputs hp
    exact htie c hc

section Again

variable {col : Nat}

end Again

end Clicks

section StatTable

open Tracker StatHandler

/--
What the table takes from elsewhere: the page, the print of a size, which is
one that the script can read, and the text that the browser makes of the bytes
of a cell.
-/
structure StatHost where
  pages : PageHost
  printByteSize : UInt64 → Text
  text : Text → JsString
  text_digits : ∀ t, (∀ b ∈ t, isDigit b = true) →
    text t = t.map UInt8.toUInt16
  parse_print : ∀ size, parseByteSize (text (printByteSize size)) ≠ none

/-- The cells of a row of `stat.html`; the first column has the links. -/
def statCell (host : StatHost) (r : Row) : Nat → JsString
  | 1 => host.text (decimal r.version)
  | 2 => host.text r.name
  | 3 => host.text (host.pages.b16 r.infoHash)
  | 4 => host.text (host.printByteSize r.length)
  | 5 => host.text (decimal r.seeders.toNat)
  | 6 => host.text (decimal r.leechers.toNat)
  | 7 => host.text (decimal r.completed.toNat)
  | _ => []

/-- The table of `stat.html`. -/
def statLayout (host : StatHost) : Layout Row where
  cell := statCell host
  onClick
    | 1 | 2 | 3 => some .sortStr
    | 4 => some .sortByte
    | 5 | 6 | 7 => some .sortInt
    | _ => none

variable (host : StatHost)

theorem parseInt_counter (c : UInt32) :
    parseInt (host.text (decimal c.toNat)) = some (c.toNat : Int) := by
  have hc := c.toNat_lt
  rw [host.text_digits _ fun _ hb => isDigit_decimal hb]
  exact parseInt_decimal (by omega)

theorem sortInt_counters (a b : UInt32) :
    sortInt (host.text (decimal a.toNat)) (host.text (decimal b.toNat)) =
      some ((a.toNat : Int) - b.toNat) := by
  have ha := a.toNat_lt
  have hb := b.toNat_lt
  rw [sortInt, parseInt_counter, parseInt_counter]
  exact minus_eq (by omega) (by omega)

theorem reads_stat (rows : List Row) : Reads (statLayout host) rows := by
  intro col r _
  constructor
  · intro honClick
    have hcol : col = 5 ∨ col = 6 ∨ col = 7 := by
      simp only [statLayout] at honClick
      split at honClick <;> simp_all
    rcases hcol with rfl | rfl | rfl <;>
      simp [statLayout, statCell, parseInt_counter]
  · intro honClick
    have hcol : col = 4 := by
      simp only [statLayout] at honClick
      split at honClick <;> simp_all
    subst hcol
    exact host.parse_print r.length

/-- A table that compares the counters of the torrents as numbers. -/
structure ComparesCounters (L : Layout Row) : Prop where
  seeders : ∀ a b : Row,
    compare L 5 a b = a.seeders.toNat - b.seeders.toNat
  leechers : ∀ a b : Row,
    compare L 6 a b = a.leechers.toNat - b.leechers.toNat
  completed : ∀ a b : Row,
    compare L 7 a b = a.completed.toNat - b.completed.toNat

theorem comparesCounters_stat : ComparesCounters (statLayout host) := by
  constructor <;>
  · intro a b
    simp [compare, statLayout, Order.cmp, Order.lt, statCell,
      sortInt_counters]

/--
**The table of torrents.**  Whatever is clicked on the stat page of a reachable
tracker, the table has one row for each listed torrent, in the order that
`Follows` describes, which compares the counters as numbers.
-/
theorem stat_table {opt : Options} {tracker : Host} {tree : Tree}
    {udp : UdpServer} {σ : Tracker}
    (hσ : Runs.Reachable (step opt tracker) (start tree udp) σ)
    (htemplates : host.pages.templates = true) (pages : StatOptions)
    (name : Text) (port : UInt16) :
    ComparesCounters (statLayout host) ∧
      ∃ page,
        StatHandler.handle pages host.pages name port σ.tdb = .page page ∧
        ∀ cols,
          let first := opened (statLayout host) 2 page.torrents
          let rows := (Runs.run (click (statLayout host)) first cols).rows
          (rows.map fun r => r.infoHash.take 20).Perm σ.tdb.keys ∧
            Follows (statLayout host) first cols rows := by
  have hwell := wellFormed_reachable hσ
  refine ⟨comparesCounters_stat host, _, handle_eq hwell htemplates name port,
    fun cols => ?_⟩
  have hkeys : ((ExactMap.values σ.tdb).map (rowOf pages host.pages)).map
      (fun r => r.infoHash.take 20) = σ.tdb.keys := by
    rw [List.map_map]
    exact ExactMap.map_values fun k torrent hk => (hwell k torrent hk).1
  have hopened : (opened (statLayout host) 2
      ((ExactMap.values σ.tdb).map (rowOf pages host.pages))).rows.Perm
        ((ExactMap.values σ.tdb).map (rowOf pages host.pages)) :=
    sort_perm _ _
  have hnodup := List.Nodup.of_map (fun r : Row => r.infoHash.take 20)
    (hkeys ▸ σ.tdb.keys_nodup)
  have hfollows := clicks_follow (reads_stat host _)
    (hopened.nodup_iff.mpr hnodup) cols
  refine ⟨?_, hfollows⟩
  rw [← hkeys]
  exact (hfollows.perm.trans hopened).map _

section Sample

def unitName (k : Nat) : String :=
  ((byteUnits.find? fun unit => unit.2 = k).map Prod.fst).getD ""

theorem unitName_mem : ∀ k < 7, (unitName k, k) ∈ byteUnits := by
  decide

/-- A size in whole units, as large as they can be. -/
def wholeUnits (size : Nat) : Text :=
  let k := Nat.log 1024 size
  decimal (size / 1024 ^ k) ++ ascii (unitName k)

theorem parse_wholeUnits {size : Nat} (hsize : size < 2 ^ 64) :
    parseByteSize ((wholeUnits size).map UInt8.toUInt16) ≠ none := by
  have hk : Nat.log 1024 size < 7 :=
    Nat.log_lt_of_lt_pow' (by norm_num) (by omega)
  have hn : size / 1024 ^ Nat.log 1024 size < 1024 :=
    Nat.div_lt_of_lt_mul (by
      rw [← pow_succ]
      exact Nat.lt_pow_succ_log_self (by norm_num) size)
  have hle := Nat.div_mul_le_self size (1024 ^ Nat.log 1024 size)
  have hread := parseByteSize_unit (unitName_mem _ hk) (by omega)
    (lt_of_le_of_lt hle (by omega))
  rw [wholeUnits, List.map_append]
  exact hread ▸ Option.some_ne_none _

/-- Cells of bytes, and sizes in whole units. -/
def StatHost.plain : StatHost where
  pages := PageHost.plain
  printByteSize size := wholeUnits size.toNat
  text t := t.map UInt8.toUInt16
  text_digits _ _ := rfl
  parse_print size := parse_wholeUnits size.toNat_lt

/-- The table of the tracker with one seeder. -/
theorem stat_table_seeded :
    ComparesCounters (statLayout StatHost.plain) ∧
      ∃ page,
        StatHandler.handle {} StatHost.plain.pages (ascii "localhost") 6969
          seeded.tdb = .page page ∧
        ∀ cols,
          let first := opened (statLayout StatHost.plain) 2 page.torrents
          let rows :=
            (Runs.run (click (statLayout StatHost.plain)) first cols).rows
          (rows.map fun r => r.infoHash.take 20).Perm seeded.tdb.keys ∧
            Follows (statLayout StatHost.plain) first cols rows :=
  stat_table StatHost.plain reachable_seeded rfl {} (ascii "localhost") 6969

end Sample

end StatTable

end TableSorter
end Hefur
