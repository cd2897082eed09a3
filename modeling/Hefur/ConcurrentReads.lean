import Hefur.Concurrency

/-!
# What the pages read while the cleanup runs

A scrape, the stat page, the peers page and the file page hold the lock of the
database in shared mode, and so does the cleanup.  They do not take the lock of a torrent,
so that they read a torrent while the cleanup changes it.

* A scrape (`scrape_concurrent`) and the stat page (`stat_concurrent`) are dirty
  but bounded: every counter lies between its values at the entry and at the
  exit.  The totals of the stat page are read after the rows and do not exceed
  them.
* The peers page (`peers_concurrent`) shows the torrent as it was at one moment,
  or it uses a peer that has left the list.  The latter only happens if the
  cleanup took a peer out meanwhile.
* The file page (`file_concurrent`) does not notice the cleanup.
-/

namespace Hefur
namespace Concurrency

open Bytes SharedLock

section Loads

variable {s t : TorrentDb} {out : Out} {k : List UInt8}

/-- A read by a pointer sees the torrent as the cleanup has left it so far. -/
theorem observed_load {α : Type} {read : Torrent → α} {next : α → Program}
    {torrent : Torrent}
    (h : Observed Shrinks (load k read next) s out t)
    (hk : s.lookup k = some torrent) :
    ∃ s' torrent', Shrinks s s' ∧ s'.lookup k = some torrent' ∧
      ShrinksTo torrent torrent' ∧
      Observed Shrinks (next (read torrent')) s' out t := by
  obtain ⟨s', hshrink, hnext⟩ := h
  obtain ⟨torrent', hk', hshrinks⟩ := hshrink.torrents k torrent hk
  simp only [hk'] at hnext
  exact ⟨s', torrent', hshrink, hk', hshrinks, hnext⟩

theorem observed_shrinks {p : Program} (h : Observed Shrinks p s out t) :
    Shrinks s t :=
  h.drift fun _ _ _ h h' => h.trans h'

/-- Counters that were read one by one lie between two states. -/
structure Between (torrent torrent' : Torrent)
    (leechers seeders completed : UInt32) : Prop where
  atMostLeechers : leechers ≤ torrent.leechers
  atMostSeeders : seeders ≤ torrent.seeders
  atLeastLeechers : torrent'.leechers ≤ leechers
  atLeastSeeders : torrent'.seeders ≤ seeders
  completed : completed = torrent.completed

theorem observed_loadCounters {next : UInt32 → UInt32 → UInt32 → Program}
    {torrent : Torrent}
    (h : Observed Shrinks (loadCounters k next) s out t)
    (hk : s.lookup k = some torrent) :
    ∃ s' torrent' leechers seeders completed,
      Shrinks s s' ∧ s'.lookup k = some torrent' ∧
      ShrinksTo torrent torrent' ∧
      Between torrent torrent' leechers seeders completed ∧
      Observed Shrinks (next leechers seeders completed) s' out t := by
  obtain ⟨s₁, t₁, hs₁, hk₁, ht₁, h₁⟩ := observed_load h hk
  obtain ⟨s₂, t₂, hs₂, hk₂, ht₂, h₂⟩ := observed_load h₁ hk₁
  obtain ⟨s₃, t₃, hs₃, hk₃, ht₃, h₃⟩ := observed_load h₂ hk₂
  refine ⟨s₃, t₃, t₁.leechers, t₂.seeders, t₃.completed,
    (hs₁.trans hs₂).trans hs₃, hk₃, (ht₁.trans ht₂).trans ht₃, ?_, h₃⟩
  exact
    { atMostLeechers := ht₁.leechers
      atMostSeeders := (ht₁.trans ht₂).seeders
      atLeastLeechers := (ht₂.trans ht₃).leechers
      atLeastSeeders := ht₃.seeders
      completed := ((ht₁.trans ht₂).trans ht₃).completed }

end Loads

section Scrape

open ScrapeResponse

/-- The items of one torrent, the counters of `i` not above those of `j`. -/
structure AtMost (i j : Item) : Prop where
  infoHash : i.infoHash = j.infoHash
  nleechers : i.nleechers ≤ j.nleechers
  nseeders : i.nseeders ≤ j.nseeders
  ndownloaded : i.ndownloaded = j.ndownloaded

variable {opt : Options} {s₀ s t : TorrentDb} {out : Out}

theorem scrapeItem_of_some {db : TorrentDb} {h : InfoHash} {torrent : Torrent}
    (hk : db.lookup h.bytes = some torrent) :
    db.scrapeItem h = some
      { infoHash := h
        nleechers := torrent.leechers
        nseeders := torrent.seeders
        ndownloaded := torrent.completed } := by
  rw [TorrentDb.scrapeItem, hk]
  rfl

theorem scrapeItem_of_none {db : TorrentDb} {h : InfoHash}
    (hk : db.lookup h.bytes = none) : db.scrapeItem h = none := by
  rw [TorrentDb.scrapeItem, hk]
  rfl

/-- The loop of a scrape adds an item for every torrent that is there. -/
theorem observed_scrapeLoop {hashes : List InfoHash} {items : List Item}
    (hstart : Shrinks s₀ s)
    (h : Observed Shrinks (scrapeLoop opt hashes items) s out t) :
    ∃ more : List Item,
      out = .scraped
        { error := false
          errorMsg := []
          interval := opt.scrapeInterval * 60
          items := items ++ more } ∧
      List.Forall₂ AtMost more (hashes.filterMap s₀.scrapeItem) ∧
      List.Forall₂ AtMost (hashes.filterMap t.scrapeItem) more := by
  induction hashes generalizing items s with
  | nil =>
      exact ⟨[], by rw [List.append_nil]; exact h.1.symm, .nil, .nil⟩
  | cons hash rest ih =>
      obtain ⟨s₁, hs₁, h₁⟩ := h
      have hstart₁ := hstart.trans hs₁
      cases hk₀ : s₀.lookup hash.bytes with
      | none =>
          have hk₁ := hstart₁.lookup_none hk₀
          simp only [hk₁] at h₁
          have hkt := (hstart₁.trans (observed_shrinks h₁)).lookup_none hk₀
          obtain ⟨more, hout, hbelow, habove⟩ := ih hstart₁ h₁
          refine ⟨more, hout, ?_, ?_⟩
          · rwa [List.filterMap_cons_none (scrapeItem_of_none hk₀)]
          · rwa [List.filterMap_cons_none (scrapeItem_of_none hkt)]
      | some torrent =>
          obtain ⟨t₁, hk₁, ht₁⟩ := hstart₁.torrents _ _ hk₀
          simp only [hk₁] at h₁
          obtain ⟨s₂, t₂, leechers, seeders, completed, hs₂, hk₂, ht₂,
            hbetween, h₂⟩ := observed_loadCounters h₁ hk₁
          obtain ⟨tt, hkt, htt⟩ := (observed_shrinks h₂).torrents _ _ hk₂
          obtain ⟨more, hout, hbelow, habove⟩ := ih (hstart₁.trans hs₂) h₂
          rw [List.append_assoc] at hout
          refine ⟨_, hout, ?_, ?_⟩
          · rw [List.filterMap_cons_some (scrapeItem_of_some hk₀)]
            refine .cons ⟨rfl, ?_, ?_, ?_⟩ hbelow
            · exact UInt32.le_trans hbetween.atMostLeechers ht₁.leechers
            · exact UInt32.le_trans hbetween.atMostSeeders ht₁.seeders
            · exact hbetween.completed.trans ht₁.completed
          · rw [List.filterMap_cons_some (scrapeItem_of_some hkt)]
            refine .cons ⟨rfl, ?_, ?_, ?_⟩ habove
            · exact UInt32.le_trans htt.leechers hbetween.atLeastLeechers
            · exact UInt32.le_trans htt.seeders hbetween.atLeastSeeders
            · exact ((htt.completed.trans ht₂.completed).trans
                hbetween.completed.symm)

variable {cfg : Config}

/-- What is known of a finished section that shared the lock. -/
theorem observed_done (hmax : cfg.opt.maxPeers.toNat < 2 ^ 32 - 1)
    {events : List Event} {d : Done Thread TorrentDb Out}
    (hd : d ∈ (machine cfg events).done) {n : Nat} {c : Call}
    (hmode : c.mode = .shared) (hsect : d.sect = (Task.call n c).sect cfg) :
    Drifted (Good cfg.opt) Shrinks d.start ∧
      Observed Shrinks (c.prog cfg) d.start d.out d.stop := by
  have hreader : ¬ MayWrite Thread.cleanup d.sect := by
    rw [hsect]
    rintro (hexclusive | hthread)
    · exact Mode.noConfusion (hmode.symm.trans hexclusive)
    · cases hthread
  have hobserved := (sound_machine cfg hmax events).observed d hd hreader
  rw [hsect] at hobserved
  exact hobserved

/--
**A scrape while the cleanup runs.**  The items are those of the hashes that
were listed at the entry; each counter lies between its value at the exit and
its value at the entry.
-/
theorem scrape_concurrent (hmax : cfg.opt.maxPeers.toNat < 2 ^ 32 - 1)
    {events : List Event} {d : Done Thread TorrentDb Out}
    (hd : d ∈ (machine cfg events).done) {n : Nat} {request : ScrapeRequest}
    (hsect : d.sect = (Task.call n (.scrape request)).sect cfg) :
    ∃ response : ScrapeResponse, d.out = .scraped response ∧
      response =
        { d.start.scrape cfg.opt request with items := response.items } ∧
      List.Forall₂ AtMost response.items
        (d.start.scrape cfg.opt request).items ∧
      List.Forall₂ AtMost (d.stop.scrape cfg.opt request).items
        response.items := by
  obtain ⟨-, hobserved⟩ := observed_done hmax hd rfl hsect
  obtain ⟨more, hout, hbelow, habove⟩ :=
    observed_scrapeLoop (.refl _) hobserved
  exact ⟨_, hout, rfl, hbelow, habove⟩

/-- A scrape that reads the seeders after the cleanup has removed one. -/
theorem scrape_concurrent_cleaned :
    ∃ d ∈ (machine sampleConfig
        (cleanedUnder (.scrape ⟨[sampleHash]⟩) ++
          List.replicate 3 (.go (.worker 2)))).done,
      ∃ response : ScrapeResponse, d.out = .scraped response ∧
        response = { d.start.scrape sampleConfig.opt ⟨[sampleHash]⟩ with
          items := response.items } ∧
        List.Forall₂ AtMost response.items
          (d.start.scrape sampleConfig.opt ⟨[sampleHash]⟩).items ∧
        List.Forall₂ AtMost
          (d.stop.scrape sampleConfig.opt ⟨[sampleHash]⟩).items
          response.items := by
  have hsect : ((machine sampleConfig
      (cleanedUnder (.scrape ⟨[sampleHash]⟩) ++
        List.replicate 3 (.go (.worker 2)))).done[3]?).map Done.sect =
      some ((Task.call 2 (.scrape ⟨[sampleHash]⟩)).sect sampleConfig) := by
    rfl
  obtain ⟨d, hd, hd'⟩ := Option.map_eq_some_iff.mp hsect
  have hmem := List.mem_of_getElem? hd
  exact ⟨d, hmem, scrape_concurrent (by decide) hmem hd'⟩

end Scrape

section Stat

open StatHandler

/-- Rows of one torrent, the counters of `r` not above those of `r'`. -/
structure RowAtMost (r r' : Row) : Prop where
  same : r = { r' with leechers := r.leechers, seeders := r.seeders }
  leechers : r.leechers ≤ r'.leechers
  seeders : r.seeders ≤ r'.seeders

variable {opt : StatOptions} {host : PageHost}

/-- The rows of the page if it were made at once. -/
def rowsOf (opt : StatOptions) (host : PageHost) (keys : List (List UInt8))
    (db : TorrentDb) : List Row :=
  keys.filterMap fun k => (db.lookup k).map (rowOf opt host)

theorem rowOf_of_version {torrent : Torrent} {version : Nat}
    (hversion : torrent.version = some version) :
    rowOf opt host torrent = row opt host version torrent := by
  rw [rowOf, hversion]
  rfl

theorem version_of_identity {torrent torrent' : Torrent}
    (hid : torrent'.identity = torrent.identity) :
    torrent'.version = torrent.version := by
  have hhash : torrent'.infoHash = torrent.infoHash := congrArg Prod.fst hid
  rw [Torrent.version, Torrent.version, hhash]

/-- A row with other counters, of a torrent as it was at another time. -/
theorem row_withCounters {torrent torrent' : Torrent} {version : Nat}
    (hid : torrent'.identity = torrent.identity)
    (leechers seeders completed : UInt32) :
    row opt host version
        (withCounters leechers seeders completed torrent') =
      { row opt host version torrent with
        leechers := leechers
        seeders := seeders
        completed := completed } := by
  simp only [Torrent.identity, Prod.mk.injEq] at hid
  obtain ⟨hhash, hname, -, hlength⟩ := hid
  simp only [row, withCounters, magnetKey, Torrent.key, hhash, hname, hlength]

/-- What is read later of a torrent is not above what was read before. -/
theorem rowAtMost_withCounters {torrent s s' : Torrent} {version : Nat}
    {leechers seeders completed leechers' seeders' completed' : UInt32}
    (hs : s.identity = torrent.identity) (hs' : s'.identity = torrent.identity)
    (hleechers : leechers' ≤ leechers) (hseeders : seeders' ≤ seeders)
    (hcompleted : completed' = completed) :
    RowAtMost
      (row opt host version (withCounters leechers' seeders' completed' s'))
      (row opt host version (withCounters leechers seeders completed s)) := by
  rw [row_withCounters hs, row_withCounters hs', hcompleted]
  exact ⟨rfl, hleechers, hseeders⟩

variable {s₀ s t : TorrentDb} {out : Out}

/-- The loop of the page reads a row, and then reads it once more. -/
theorem observed_statLoop {keys : List (List UInt8)} {rows rows' : List Row}
    {totals : Totals} (hstart : Shrinks s₀ s)
    (hlisted : ∀ k ∈ keys, ∃ torrent version,
      s₀.lookup k = some torrent ∧ torrent.version = some version)
    (hsum : SumUp rows' totals)
    (h : Observed Shrinks (statLoop opt host keys rows totals) s out t) :
    ∃ more more' totals', out = .stat (rows ++ more) totals' ∧
      SumUp (rows' ++ more') totals' ∧
      List.Forall₂ RowAtMost more (rowsOf opt host keys s₀) ∧
      List.Forall₂ RowAtMost more' more ∧
      List.Forall₂ RowAtMost (rowsOf opt host keys t) more' := by
  induction keys generalizing s rows rows' totals with
  | nil =>
      refine ⟨[], [], totals, ?_, ?_, .nil, .nil, .nil⟩
      · rw [List.append_nil]
        exact h.1.symm
      · rw [List.append_nil]
        exact hsum
  | cons k keys ih =>
      obtain ⟨t₀, version, hk₀, hversion⟩ := hlisted k List.mem_cons_self
      obtain ⟨t', hk', ht'⟩ := hstart.torrents _ _ hk₀
      obtain ⟨s₁, t₁, hs₁, hk₁, ht₁, h₁⟩ := observed_load h hk'
      have hid₁ := (ht'.trans ht₁).identity
      simp only [id, version_of_identity hid₁, hversion] at h₁
      obtain ⟨s₂, t₂, l₂, d₂, c₂, hs₂, hk₂, ht₂, hread₂, h₂⟩ :=
        observed_loadCounters h₁ hk₁
      obtain ⟨s₃, t₃, l₃, d₃, c₃, hs₃, hk₃, ht₃, hread₃, h₃⟩ :=
        observed_loadCounters h₂ hk₂
      obtain ⟨tt, hkt, htt⟩ := (observed_shrinks h₃).torrents _ _ hk₃
      have hstart₃ := ((hstart.trans hs₁).trans hs₂).trans hs₃
      have hsum' := hsum.add opt host (withCounters l₃ d₃ c₃ t₁)
      have hrow₃ : rowOf opt host (withCounters l₃ d₃ c₃ t₁) =
          row opt host version (withCounters l₃ d₃ c₃ t₁) :=
        rowOf_of_version ((version_of_identity hid₁).trans hversion)
      obtain ⟨more, more', totals', hout, hsums, hmore, hmore', hlast⟩ :=
        ih hstart₃ (fun k hk => hlisted k (List.mem_cons_of_mem _ hk))
          hsum' h₃
      rw [List.append_assoc] at hout hsums
      have hid_last : tt.identity = t₀.identity :=
        (((ht'.trans ht₁).trans ht₂).trans ht₃ |>.trans htt).identity
      have hrows₀ : rowsOf opt host (k :: keys) s₀ =
          row opt host version (withCounters t₀.leechers t₀.seeders
            t₀.completed t₀) :: rowsOf opt host keys s₀ := by
        simp only [rowsOf, List.filterMap_cons, hk₀, Option.map_some,
          rowOf_of_version hversion]
        rfl
      have hrows : rowsOf opt host (k :: keys) t =
          row opt host version (withCounters tt.leechers tt.seeders
            tt.completed tt) :: rowsOf opt host keys t := by
        simp only [rowsOf, List.filterMap_cons, hkt, Option.map_some,
          rowOf_of_version ((version_of_identity hid_last).trans hversion)]
        rfl
      refine ⟨_, _, totals', hout, hsums, ?_, ?_, ?_⟩
      · rw [hrows₀]
        refine .cons (rowAtMost_withCounters rfl hid₁ ?_ ?_ ?_) hmore
        · exact UInt32.le_trans hread₂.atMostLeechers
            (ht'.trans ht₁).leechers
        · exact UInt32.le_trans hread₂.atMostSeeders (ht'.trans ht₁).seeders
        · exact hread₂.completed.trans (ht'.trans ht₁).completed
      · rw [hrow₃]
        refine .cons (rowAtMost_withCounters hid₁ hid₁ ?_ ?_ ?_) hmore'
        · exact UInt32.le_trans hread₃.atMostLeechers hread₂.atLeastLeechers
        · exact UInt32.le_trans hread₃.atMostSeeders hread₂.atLeastSeeders
        · exact (hread₃.completed.trans ht₂.completed).trans
            hread₂.completed.symm
      · rw [hrows, hrow₃]
        refine .cons (rowAtMost_withCounters hid₁ hid_last ?_ ?_ ?_) hlast
        · exact UInt32.le_trans htt.leechers hread₃.atLeastLeechers
        · exact UInt32.le_trans htt.seeders hread₃.atLeastSeeders
        · exact (htt.completed.trans ht₃.completed).trans
            hread₃.completed.symm

variable {cfg : Config}

/--
**The stat page while the cleanup runs.**  The page is always made.  Its rows
are those of the torrents, and its totals are the sums of rows that were read
once more; each reading is not above the one before it.
-/
theorem stat_concurrent (hmax : cfg.opt.maxPeers.toNat < 2 ^ 32 - 1)
    {events : List Event} {d : Done Thread TorrentDb Out}
    (hd : d ∈ (machine cfg events).done) {n : Nat}
    (hsect : d.sect = (Task.call n .stat).sect cfg) :
    ∃ rows rows' totals, d.out = .stat rows totals ∧ SumUp rows' totals ∧
      List.Forall₂ RowAtMost rows
        ((ExactMap.values d.start).map (rowOf cfg.pages cfg.host)) ∧
      List.Forall₂ RowAtMost rows' rows ∧
      List.Forall₂ RowAtMost
        ((ExactMap.values d.stop).map (rowOf cfg.pages cfg.host)) rows' := by
  obtain ⟨⟨db, hgood, hdrift⟩, hobserved⟩ := observed_done hmax hd rfl hsect
  obtain ⟨s, hs, hloop⟩ := hobserved
  have hlisted : ∀ k ∈ s.keys, ∃ torrent version,
      d.start.lookup k = some torrent ∧ torrent.version = some version := by
    intro k hk
    rw [hs.keys, hdrift.keys, ← AList.mem_keys, ← AList.lookup_isSome] at hk
    obtain ⟨t₀, hk₀⟩ := Option.isSome_iff_exists.mp hk
    obtain ⟨torrent, hk', hshrink⟩ := hdrift.torrents k t₀ hk₀
    obtain ⟨version, hversion⟩ := Option.ne_none_iff_exists'.mp
      (version_ne_none (hgood.wellFormed k t₀ hk₀).2)
    exact ⟨torrent, version, hk',
      (version_of_identity hshrink.identity).trans hversion⟩
  obtain ⟨rows, rows', totals, hout, hsum, hrows, hrows', hlast⟩ :=
    observed_statLoop hs hlisted sumUp_nil hloop
  have hvalues : ∀ db : TorrentDb, db.keys = s.keys →
      rowsOf cfg.pages cfg.host s.keys db =
        (ExactMap.values db).map (rowOf cfg.pages cfg.host) := by
    intro db hkeys
    rw [rowsOf, ← hkeys, ExactMap.values_eq, List.map_filterMap]
  rw [hvalues _ hs.keys.symm] at hrows
  rw [hvalues _ (observed_shrinks hloop).keys] at hlast
  exact ⟨rows, rows', totals, hout, hsum, hrows, hrows', hlast⟩

/-- A stat page that a cleanup interrupts. -/
theorem stat_concurrent_cleaned :
    ∃ d ∈ (machine sampleConfig
        (cleanedUnder .stat ++ List.replicate 7 (.go (.worker 2)))).done,
      ∃ rows rows' totals, d.out = .stat rows totals ∧ SumUp rows' totals ∧
        List.Forall₂ RowAtMost rows
          ((ExactMap.values d.start).map (rowOf {} PageHost.plain)) ∧
        List.Forall₂ RowAtMost rows' rows ∧
        List.Forall₂ RowAtMost
          ((ExactMap.values d.stop).map (rowOf {} PageHost.plain)) rows' := by
  have hsect : ((machine sampleConfig
      (cleanedUnder .stat ++ List.replicate 7 (.go (.worker 2)))).done[3]?).map
        Done.sect = some ((Task.call 2 .stat).sect sampleConfig) := by
    rfl
  obtain ⟨d, hd, hd'⟩ := Option.map_eq_some_iff.mp hsect
  have hmem := List.mem_of_getElem? hd
  exact ⟨d, hmem, stat_concurrent (by decide) hmem hd'⟩

end Stat

section Peers

variable {s₀ s t : TorrentDb} {out : Out} {k : List UInt8} {t₀ : Torrent}
variable {net : Inet} {peer : Ptr} {pre post : List Ptr}

/-- Where the reader finds its peer, after the cleanup has shrunk the list. -/
theorem linked_of_shrinks (hk₀ : s₀.lookup k = some t₀)
    (hs : Shrinks s₀ s) (peer : Ptr) :
    ∃ t₁, s.lookup k = some t₁ ∧ ShrinksTo t₀ t₁ ∧
      linked k peer s = if peer ∈ t₁.timeouts then some t₁ else none := by
  obtain ⟨t₁, hk₁, ht₁⟩ := hs.torrents k t₀ hk₀
  refine ⟨t₁, hk₁, ht₁, ?_⟩
  rw [linked, hk₁]

/-- The peers after a peer that is still in the list are all still there. -/
theorem timeouts_from {t₁ : Torrent} (hnodup : t₀.timeouts.Nodup)
    (hlist : t₀.timeouts = pre ++ peer :: post) (h : ShrinksTo t₀ t₁)
    (hpeer : peer ∈ t₁.timeouts) :
    ∃ pre', t₁.timeouts = pre' ++ peer :: post ∧ peer ∉ pre' := by
  obtain ⟨gone, hgone⟩ := h.timeouts
  rw [← hgone] at hnodup
  have hapart := (List.nodup_append.mp hnodup).2.2
  rw [hlist, List.append_eq_append_iff] at hgone
  have hsplit : ∃ pre', t₁.timeouts = pre' ++ peer :: post := by
    rcases hgone with ⟨pre', -, hrest⟩ | ⟨more, hmore, hrest⟩
    · exact ⟨pre', hrest⟩
    · cases more with
      | nil =>
          exact ⟨[], hrest.symm⟩
      | cons p more =>
          obtain ⟨rfl, -⟩ := List.cons.inj hrest
          exact (hapart peer (by rw [hmore]; simp) peer hpeer rfl).elim
  obtain ⟨pre', hpre'⟩ := hsplit
  have hnodup₁ := (List.nodup_append.mp hnodup).2.1
  rw [hpre'] at hnodup₁
  exact ⟨pre', hpre', fun hmem =>
    (List.nodup_append.mp hnodup₁).2.2 peer hmem peer (by simp) rfl⟩

theorem nextPeer_eq {t₁ : Torrent} {pre' : List Ptr}
    (hlist : t₁.timeouts = pre' ++ peer :: post) (hpeer : peer ∉ pre') :
    nextPeer peer t₁ = post.head? := by
  have hskip : ∀ p ∈ pre', (decide (p ≠ peer)) = true := by
    intro p hp
    simpa using fun hsame : p = peer => hpeer (hsame ▸ hp)
  rw [nextPeer, hlist, List.dropWhile_append_of_pos hskip,
    List.dropWhile_cons_of_neg (by simp)]
  rfl

/-- The list at the exit has lost a peer that the reader was to visit. -/
theorem evicted_of_unlinked {t₁ : Torrent} (hk₁ : s.lookup k = some t₁)
    (hpeer₀ : peer ∈ t₀.timeouts) (hpeer : peer ∉ t₁.timeouts)
    (hs : Shrinks s t) :
    ∃ t', t.lookup k = some t' ∧ t'.timeouts ≠ t₀.timeouts := by
  obtain ⟨t', hk', ht'⟩ := hs.torrents k t₁ hk₁
  refine ⟨t', hk', fun hsame => hpeer ?_⟩
  rw [← hsame] at hpeer₀
  exact ht'.timeouts.subset hpeer₀

/-- Some peer of the list is no longer there, and the page fails. -/
def Failed (k : List UInt8) (t₀ : Torrent) (out : Out) (t : TorrentDb) : Prop :=
  out = .fault ∧ ∃ t', t.lookup k = some t' ∧ t'.timeouts ≠ t₀.timeouts

/-- What is read of a peer is what it was in the list at the start. -/
theorem observed_loadPeer {α : Type} {read : Peer → α} {next : α → Program}
    (hk₀ : s₀.lookup k = some t₀) (hpeer : peer ∈ t₀.timeouts)
    (hstart : Shrinks s₀ s)
    (h : Observed Shrinks (loadPeer k peer read next) s out t) :
    Failed k t₀ out t ∨
      ∃ s', Shrinks s₀ s' ∧
        Observed Shrinks (next (read (t₀.mem peer))) s' out t := by
  obtain ⟨s₁, hs₁, h₁⟩ := h
  obtain ⟨t₁, hk₁, ht₁, hlinked⟩ :=
    linked_of_shrinks hk₀ (hstart.trans hs₁) peer
  by_cases hpeer₁ : peer ∈ t₁.timeouts
  · right
    rw [if_pos hpeer₁] at hlinked
    simp only [hlinked, ht₁.mem peer hpeer₁] at h₁
    exact ⟨s₁, hstart.trans hs₁, h₁⟩
  · left
    rw [if_neg hpeer₁] at hlinked
    simp only [hlinked] at h₁
    exact ⟨h₁.1.symm, evicted_of_unlinked hk₁ hpeer hpeer₁ h₁.2⟩

/-- So is the row of a peer. -/
theorem observed_loadRow {next : PeersHandler.Row → Program}
    (hk₀ : s₀.lookup k = some t₀) (hpeer : peer ∈ t₀.timeouts)
    (hstart : Shrinks s₀ s)
    (h : Observed Shrinks (loadRow net k peer next) s out t) :
    Failed k t₀ out t ∨
      ∃ s', Shrinks s₀ s' ∧
        Observed Shrinks (next (PeersHandler.row net (t₀.mem peer)))
          s' out t := by
  rcases observed_loadPeer hk₀ hpeer hstart h with hfail | ⟨s₁, hs₁, h₁⟩
  · exact Or.inl hfail
  rcases observed_loadPeer hk₀ hpeer hs₁ h₁ with hfail | ⟨s₂, hs₂, h₂⟩
  · exact Or.inl hfail
  rcases observed_loadPeer hk₀ hpeer hs₂ h₂ with hfail | ⟨s₃, hs₃, h₃⟩
  · exact Or.inl hfail
  rcases observed_loadPeer hk₀ hpeer hs₃ h₃ with hfail | ⟨s₄, hs₄, h₄⟩
  · exact Or.inl hfail
  rcases observed_loadPeer hk₀ hpeer hs₄ h₄ with hfail | ⟨s₅, hs₅, h₅⟩
  · exact Or.inl hfail
  exact Or.inr ⟨s₅, hs₅, h₅⟩

/--
The loop of the page, at `peer` of the list at its start: it shows that whole
list, or a peer of the list has gone.
-/
theorem observed_peersFrom {n : Nat} {rows : List PeersHandler.Row}
    (hk₀ : s₀.lookup k = some t₀) (hnodup : t₀.timeouts.Nodup)
    (hlist : t₀.timeouts = pre ++ peer :: post)
    (hrows : rows = pre.map fun p => PeersHandler.row net (t₀.mem p))
    (hfuel : post.length < n) (hstart : Shrinks s₀ s)
    (h : Observed Shrinks (peersFrom net k n peer rows) s out t) :
    out = .peers (some (PeersHandler.peers net t₀)) ∨
      Failed k t₀ out t := by
  induction n generalizing s peer rows pre post with
  | zero =>
      omega
  | succ n ih =>
      have hpeer₀ : peer ∈ t₀.timeouts := by rw [hlist]; simp
      rcases observed_loadRow hk₀ hpeer₀ hstart h with
        hfail | ⟨s₁, hs₁, s₂, hs₂, h₂⟩
      · exact Or.inr hfail
      have hstart₂ := hs₁.trans hs₂
      obtain ⟨t₂, hk₂, ht₂, hlinked₂⟩ := linked_of_shrinks hk₀ hstart₂ peer
      by_cases hpeer₂ : peer ∈ t₂.timeouts
      · -- the next peer is still in the list as well
        obtain ⟨pre', hlist₂, hpre'⟩ := timeouts_from hnodup hlist ht₂ hpeer₂
        rw [if_pos hpeer₂] at hlinked₂
        simp only [hlinked₂, nextPeer_eq hlist₂ hpre'] at h₂
        cases post with
        | nil =>
            left
            rw [← h₂.1, hrows, PeersHandler.peers, hlist, List.map_append]
            rfl
        | cons next post =>
            have hlist' : t₀.timeouts = (pre ++ [peer]) ++ next :: post := by
              rw [hlist, List.append_assoc]
              rfl
            have hrows' : rows ++ [PeersHandler.row net (t₀.mem peer)] =
                (pre ++ [peer]).map
                  fun p => PeersHandler.row net (t₀.mem p) := by
              rw [hrows, List.map_append]
              rfl
            rw [List.length_cons] at hfuel
            exact ih hlist' hrows' (by omega) hstart₂ h₂
      · right
        rw [if_neg hpeer₂] at hlinked₂
        simp only [hlinked₂] at h₂
        exact ⟨h₂.1.symm, evicted_of_unlinked hk₂ hpeer₀ hpeer₂ h₂.2⟩

variable {cfg : Config}

/--
**The peers page while the cleanup runs.**  The torrent was not listed; or the
rows are those of the torrent at one moment of the section; or the page used a
peer that had left the list, and then the cleanup has taken peers out of the
torrent meanwhile.
-/
theorem peers_concurrent (hmax : cfg.opt.maxPeers.toNat < 2 ^ 32 - 1)
    {events : List Event} {d : Done Thread TorrentDb Out}
    (hd : d ∈ (machine cfg events).done) {n : Nat}
    (hsect : d.sect = (Task.call n (.peers k)).sect cfg) :
    (d.start.lookup k = none ∧ d.out = .peers none) ∨
      (∃ db torrent, Shrinks d.start db ∧ Shrinks db d.stop ∧
        db.lookup k = some torrent ∧
        d.out = .peers (some (PeersHandler.peers cfg.host.net torrent))) ∨
      (d.out = .fault ∧ ∃ torrent torrent',
        d.start.lookup k = some torrent ∧ d.stop.lookup k = some torrent' ∧
        torrent'.timeouts <:+ torrent.timeouts ∧
        torrent'.timeouts ≠ torrent.timeouts) := by
  obtain ⟨⟨db, hgood, hdrift⟩, hobserved⟩ := observed_done hmax hd rfl hsect
  have hshrinks := observed_shrinks hobserved
  obtain ⟨s, hs, h⟩ := hobserved
  cases hk : d.start.lookup k with
  | none =>
      left
      simp only [hs.lookup_none hk] at h
      exact ⟨rfl, h.1.symm⟩
  | some torrent =>
      right
      obtain ⟨t₁, hk₁, -⟩ := hs.torrents k torrent hk
      simp only [hk₁] at h
      obtain ⟨s₀, hs₀, h₀⟩ := h
      obtain ⟨t₀, hk₀, ht₀⟩ := (hs.trans hs₀).torrents k torrent hk
      simp only [hk₀] at h₀
      -- a good database lists no peer twice, nor does what is left of it
      have hnodup : t₀.timeouts.Nodup := by
        obtain ⟨t', hk', ht'⟩ : ∃ t', db.lookup k = some t' ∧
            ShrinksTo t' torrent := by
          cases hdb : db.lookup k with
          | none =>
              rw [hdrift.lookup_none hdb] at hk
              cases hk
          | some t' =>
              obtain ⟨t'', hk'', ht''⟩ := hdrift.torrents k t' hdb
              rw [hk] at hk''
              obtain rfl := Option.some.inj hk''
              exact ⟨t', rfl, ht''⟩
        exact (hgood.steady k t' hk').rep.nodup.sublist
          (ht'.trans ht₀).timeouts.sublist
      have hsnapshot : ∀ {rows}, Shrinks s₀ d.stop →
          rows = PeersHandler.peers cfg.host.net t₀ →
          d.out = .peers (some rows) →
          ∃ db torrent, Shrinks d.start db ∧ Shrinks db d.stop ∧
            db.lookup k = some torrent ∧
            d.out = .peers
              (some (PeersHandler.peers cfg.host.net torrent)) := by
        intro rows hstop hrows hout
        exact ⟨s₀, t₀, hs.trans hs₀, hstop, hk₀, by rw [hout, hrows]⟩
      cases hlist : t₀.timeouts with
      | nil =>
          simp only [hlist] at h₀
          refine Or.inl (hsnapshot h₀.2 ?_ h₀.1.symm)
          rw [PeersHandler.peers, hlist]
          rfl
      | cons peer post =>
          simp only [hlist] at h₀
          have hlist' : t₀.timeouts = [] ++ peer :: post := hlist
          rcases observed_peersFrom hk₀ hnodup hlist' rfl (by simp)
              (.refl s₀) h₀ with hout | ⟨hfault, t', hk', hne⟩
          · exact Or.inl (hsnapshot (observed_shrinks h₀) rfl hout)
          · obtain ⟨torrent', hkstop, hstop⟩ :=
              hshrinks.torrents k torrent hk
            rw [hkstop] at hk'
            obtain rfl := Option.some.inj hk'
            refine Or.inr ⟨hfault, torrent, torrent', rfl, hkstop,
              hstop.timeouts, fun hsame => hne ?_⟩
            -- the list at the exit is between the other two
            obtain ⟨t'', hk'', ht''⟩ :=
              (observed_shrinks h₀).torrents k t₀ hk₀
            rw [hkstop] at hk''
            obtain rfl := Option.some.inj hk''
            have hlength := ht''.timeouts.length_le
            rw [hsame] at hlength ⊢
            exact (ht₀.timeouts.eq_of_length_le hlength).symm

/-- The page stands on a peer while the cleanup deletes it. -/
def racing : List Event :=
  cleanedUnder (.peers sampleHash.bytes) ++ List.replicate 2 (.go (.worker 2))

theorem peers_concurrent_racing :
    ∃ d ∈ (machine sampleConfig racing).done,
      (d.start.lookup sampleHash.bytes = none ∧ d.out = .peers none) ∨
      (∃ db torrent, Shrinks d.start db ∧ Shrinks db d.stop ∧
        db.lookup sampleHash.bytes = some torrent ∧
        d.out = .peers (some (PeersHandler.peers Inet.plain torrent))) ∨
      (d.out = .fault ∧ ∃ torrent torrent',
        d.start.lookup sampleHash.bytes = some torrent ∧
        d.stop.lookup sampleHash.bytes = some torrent' ∧
        torrent'.timeouts <:+ torrent.timeouts ∧
        torrent'.timeouts ≠ torrent.timeouts) := by
  have hsect : ((machine sampleConfig racing).done[3]?).map Done.sect =
      some ((Task.call 2 (.peers sampleHash.bytes)).sect sampleConfig) := by
    rfl
  obtain ⟨d, hd, hd'⟩ := Option.map_eq_some_iff.mp hsect
  have hmem := List.mem_of_getElem? hd
  exact ⟨d, hmem, peers_concurrent (by decide) hmem hd'⟩

/-- The page does use a peer that was deleted. -/
example :
    ((machine sampleConfig racing).done[3]?).map Done.out = some .fault := by
  rfl

end Peers

section Files

variable {cfg : Config} {k : List UInt8}

/-- The file page finds the same file as if the cleanup did not run. -/
theorem file_concurrent (hmax : cfg.opt.maxPeers.toNat < 2 ^ 32 - 1)
    {events : List Event} {d : Done Thread TorrentDb Out}
    (hd : d ∈ (machine cfg events).done) {n : Nat}
    (hsect : d.sect = (Task.call n (.file k)).sect cfg) :
    d.out = .file ((d.start.lookup k).map Torrent.path) := by
  obtain ⟨-, s, hs, h⟩ := observed_done hmax hd rfl hsect
  cases hk : d.start.lookup k with
  | none =>
      simp only [hs.lookup_none hk] at h
      exact h.1.symm
  | some torrent =>
      obtain ⟨t₁, hk₁, ht₁⟩ := hs.torrents k torrent hk
      simp only [hk₁] at h
      obtain ⟨s₂, t₂, -, -, ht₂, hout, -⟩ := observed_load h hk₁
      have hpath : t₂.path = torrent.path :=
        congrArg (fun identity => identity.2.2.1) (ht₁.trans ht₂).identity
      rw [Option.map_some, ← hpath]
      exact hout.symm

end Files

end Concurrency
end Hefur
