import Hefur.TrackerHistory
import Hefur.WhiteListRuns

/-!
# The white list settles

A round of `loopScan` can un-list a file that was moved, since the database
remembers the path at which it first found a hash.  The loss does not last.
While nobody changes the files, the check of one round followed by the scan of
the next brings the white list to rest (`white_list_settles`): every torrent
file that the walk finds is listed, and no further scan or check changes
anything, in whatever order the rest of the tracker works meanwhile.

What remains wrong are the v2 torrents of files that were deleted before.
-/

namespace Hefur
namespace Tracker

open Bytes
open FsTreeWhiteList
open TorrentDb (WellFormed torrentKey)

section Listings

/-- The same torrents are listed, whatever has happened to their peers. -/
def SameListing (db db' : TorrentDb) : Prop :=
  ∀ k, (db'.lookup k).map Torrent.identity =
    (db.lookup k).map Torrent.identity

variable {db db' db'' : TorrentDb}

theorem SameListing.refl (db : TorrentDb) : SameListing db db :=
  fun _ => rfl

theorem SameListing.trans (h : SameListing db db')
    (h' : SameListing db' db'') : SameListing db db'' :=
  fun k => (h' k).trans (h k)

theorem SameListing.symm (h : SameListing db db') : SameListing db' db :=
  fun k => (h k).symm

theorem SameListing.lookup (h : SameListing db db')
    {k : List UInt8} {t' : Torrent} (hk : db'.lookup k = some t') :
    ∃ t, db.lookup k = some t ∧ t.identity = t'.identity := by
  have hid := h k
  rw [hk, Option.map_some] at hid
  exact Option.map_eq_some_iff.mp hid.symm

theorem sameListing_announce (opt : Options) (now : Int)
    (request : AnnounceRequest) (db : TorrentDb) :
    SameListing db (db.announce opt now request).2 := by
  intro k
  rw [TorrentDb.lookup_announce]
  split
  · rw [Option.map_map]
    exact Option.map_congr fun t _ =>
      Torrent.identity_announce opt now request t
  · rfl

theorem sameListing_cleanup (now : List UInt8 → Int) (db : TorrentDb) :
    SameListing db (db.cleanup now) := by
  intro k
  rw [TorrentDb.lookup_cleanup, Option.map_map]
  exact Option.map_congr fun t _ => Torrent.identity_cleanup (now k) t

/-- The work of the white list. -/
def Event.ofWhiteList : Event → Bool
  | .visit _ => true
  | .check => true
  | _ => false

/-- Only the white list changes what is listed. -/
theorem sameListing_step {opt : Options} {host : Host} (σ : Tracker)
    {e : Event} (he : e.ofWhiteList = false) :
    SameListing σ.tdb (step opt host σ e).tdb := by
  cases hrq : announced opt host σ e with
  | some a =>
      have hstep := tdb_step opt host σ e
      rw [hrq] at hstep
      rw [hstep]
      exact sameListing_announce opt a.1 a.2 σ.tdb
  | none =>
      cases e with
      | changeTree tree => exact SameListing.refl σ.tdb
      | visit path => cases he
      | check => cases he
      | cleanup now => exact sameListing_cleanup now σ.tdb
      | accept channel remoteAddr => exact SameListing.refl σ.tdb
      | request channel rq now raw =>
          rw [tdb_step_request_of_none hrq]
          exact SameListing.refl σ.tdb
      | close channel => exact SameListing.refl σ.tdb
      | udp e =>
          rw [tdb_step_udp_of_none hrq]
          exact SameListing.refl σ.tdb

end Listings

section Stale

variable {root : Path} {tree : Tree} {db db' : TorrentDb}

/-- What identifies a stale torrent meets `R`, with its key. -/
def StaleMeet (root : Path) (tree : Tree)
    (R : List UInt8 → InfoHash × Text × Text × UInt64 → Prop)
    (db : TorrentDb) : Prop :=
  ∀ k t, db.lookup k = some t → stale root tree t = true → R k t.identity

/-- No torrent with a 20-byte hash is stale. -/
def NoStaleV1 (root : Path) (tree : Tree) (db : TorrentDb) : Prop :=
  StaleMeet root tree (fun _ identity => identity.1.kind ≠ .sha1) db

theorem stale_congr {t t' : Torrent} (hid : t.identity = t'.identity) :
    stale root tree t = stale root tree t' := by
  have hpath : t.path = t'.path := congrArg (fun i => i.2.2.1) hid
  rw [stale, stale, hpath]

theorem StaleMeet.sameListing
    {R : List UInt8 → InfoHash × Text × Text × UInt64 → Prop}
    (h : StaleMeet root tree R db) (hsame : SameListing db db') :
    StaleMeet root tree R db' := by
  intro k t' hk' hstale
  obtain ⟨t, hk, hid⟩ := hsame.lookup hk'
  rw [← hid]
  exact h k t hk ((stale_congr hid).trans hstale)

/-- A tracker makes no torrent stale unless files are removed. -/
theorem staleMeet_step {opt : Options} {host : Host} {σ : Tracker}
    {R : List UInt8 → InfoHash × Text × Text × UInt64 → Prop}
    (h : StaleMeet root σ.tree R σ.tdb) (e : Event) :
    StaleMeet root σ.tree R (step opt host σ e).tdb := by
  apply tdb_step_induction (P := StaleMeet root σ.tree R) _ _ _ _ h
  · intro now request _ h
    exact h.sameListing (sameListing_announce opt now request σ.tdb)
  · intro path h k t hk hstale
    rcases lookup_visit_cases hk with hk | hfound
    · exact h k t hk hstale
    · simp [stale, hfound] at hstale
  · intro h k t hk
    exact h k t (lookup_of_lookup_check hk)
  · intro now h
    exact h.sameListing (sameListing_cleanup now σ.tdb)

theorem noStaleV1_check (h : WellFormed db) :
    NoStaleV1 root tree (check root tree db) := by
  intro k t hk hstale hsha1
  have hdb := lookup_of_lookup_check hk
  rw [lookup_check h root tree hdb, if_pos ⟨hstale, hsha1⟩] at hk
  cases hk

theorem removeAll_eq_self {keys : List (List UInt8)}
    (hkeys : ∀ key ∈ keys, db.lookup key = none) :
    keys.foldl (fun db key => db.removeTorrent key) db = db := by
  induction keys with
  | nil =>
      rfl
  | cons key keys ih =>
      rw [List.foldl_cons, TorrentDb.removeTorrent,
        ExactMap.erase_of_none (hkeys key (by simp))]
      exact ih fun key' hkey' => hkeys key' (List.mem_cons_of_mem key hkey')

/-- The erasures of the stale torrents with a 32-byte hash do nothing. -/
theorem check_eq_self (h : WellFormed db) (hv1 : NoStaleV1 root tree db) :
    check root tree db = db := by
  refine removeAll_eq_self fun key hkey => ?_
  obtain ⟨s, hs, rfl⟩ := List.mem_map.mp hkey
  obtain ⟨hs, hstale⟩ := List.mem_filter.mp hs
  obtain ⟨k, hk⟩ := ExactMap.mem_values_iff.mp hs
  rw [Option.eq_none_iff_forall_ne_some]
  intro t ht
  have hlen : s.key.length = 20 := h.length_key ht
  rw [Torrent.key, InfoHash.length_bytes] at hlen
  cases hkind : s.infoHash.kind with
  | none => exact (h k s hk).2 hkind
  | sha1 => exact hv1 k s hk hstale hkind
  | sha256 =>
      rw [hkind] at hlen
      cases hlen

end Stale

section Files

variable {walker : Walker} {tree : Tree} {db db' : TorrentDb} {path : Path}

/-- Both hashes of the torrent file at `path` are listed, if it is one. -/
def FileListed (walker : Walker) (tree : Tree) (path : Path)
    (db : TorrentDb) : Prop :=
  isTorrentPath path = true → ∀ desc,
    parseFile walker tree path = some desc →
      (∃ t, db.lookup (hashKey (.ofSha1 desc.infoHashV1)) = some t) ∧
        ∃ t, db.lookup (hashKey (.ofSha256 desc.infoHashV2)) = some t

theorem FileListed.mono (h : FileListed walker tree path db)
    (hkeys : ∀ k t, db.lookup k = some t → ∃ t', db'.lookup k = some t') :
    FileListed walker tree path db' := by
  intro hpath desc hdesc
  obtain ⟨⟨t, ht⟩, ⟨t', ht'⟩⟩ := h hpath desc hdesc
  exact ⟨hkeys _ t ht, hkeys _ t' ht'⟩

theorem FileListed.sameListing (h : FileListed walker tree path db)
    (hsame : SameListing db db') : FileListed walker tree path db' := by
  apply h.mono
  intro k t hk
  obtain ⟨t', hk', -⟩ := hsame.symm.lookup hk
  exact ⟨t', hk'⟩

theorem fileListed_visit (db : TorrentDb) :
    FileListed walker tree path (visit walker tree path db) :=
  fun hpath _ hdesc => visit_adds db hpath hdesc

/-- `addTorrent` refuses the hashes of a file that is listed. -/
theorem visit_eq_self (h : FileListed walker tree path db) :
    visit walker tree path db = db := by
  unfold visit
  split
  · rename_i hpath
    split
    · rfl
    · rename_i desc hdesc
      obtain ⟨⟨t, ht⟩, ⟨t', ht'⟩⟩ := h hpath desc hdesc
      have hv1 : db.addTorrent (torrentV1 path desc) = db :=
        ExactMap.insertNew_of_some ht
      rw [hv1]
      exact ExactMap.insertNew_of_some ht'
  · rfl

theorem fileListed_step {opt : Options} {host : Host} {σ : Tracker}
    (hwell : WellFormed σ.tdb)
    (hv1 : NoStaleV1 opt.torrentDir σ.tree σ.tdb)
    (h : FileListed host.walker σ.tree path σ.tdb) (e : Event) :
    FileListed host.walker σ.tree path (step opt host σ e).tdb := by
  apply tdb_step_induction
    (P := FileListed host.walker σ.tree path) _ _ _ _ h
  · intro now request _ h
    exact h.sameListing (sameListing_announce opt now request σ.tdb)
  · intro path' h
    exact h.mono fun k t hk => ⟨t, lookup_visit_of_some path' hk⟩
  · intro h
    rw [check_eq_self hwell hv1]
    exact h
  · intro now h
    exact h.sameListing (sameListing_cleanup now σ.tdb)

end Files

section Settling

/-- While nobody changes the files, a scan visits what the walk finds. -/
def Undisturbed (opt : Options) (host : Host) (tree : Tree) : Event → Prop
  | .changeTree _ => False
  | .visit path => path ∈ host.walker.find tree opt.torrentDir opt.maxScanDepth
  | _ => True

/-- The end of a round of `loopScan` and the scan of the next round. -/
def rescan (opt : Options) (host : Host) (tree : Tree) : List Event :=
  .check ::
    (host.walker.find tree opt.torrentDir opt.maxScanDepth).map Event.visit

theorem undisturbed_round (opt : Options) (host : Host) (tree : Tree) :
    ∀ e ∈ round opt host tree, Undisturbed opt host tree e := by
  intro e he
  rcases List.mem_append.mp he with he | he
  · obtain ⟨path, hpath, rfl⟩ := List.mem_map.mp he
    exact hpath
  · rw [List.mem_singleton.mp he]
    trivial

theorem filter_round (opt : Options) (host : Host) (tree : Tree) :
    (round opt host tree).filter (fun e => !e.ofWhiteList) = [] := by
  rw [List.filter_eq_nil_iff]
  intro e he
  rcases List.mem_append.mp he with he | he
  · obtain ⟨path, -, rfl⟩ := List.mem_map.mp he
    simp [Event.ofWhiteList]
  · rw [List.mem_singleton.mp he]
    simp [Event.ofWhiteList]

/-- Two rounds are enough. -/
theorem rescan_sublist_rounds (opt : Options) (host : Host) (tree : Tree) :
    (rescan opt host tree).Sublist
      (round opt host tree ++ round opt host tree) := by
  have hcheck : [Event.check].Sublist (round opt host tree) :=
    List.sublist_append_right _ _
  exact hcheck.append (List.sublist_append_left _ _)

/-- The white list has nothing left to do. -/
structure Settled (opt : Options) (host : Host) (tree : Tree)
    (db : TorrentDb) : Prop where
  noStaleV1 : NoStaleV1 opt.torrentDir tree db
  fileListed : ∀ path ∈ host.walker.find tree opt.torrentDir opt.maxScanDepth,
    FileListed host.walker tree path db

/-- The states of a run in which the files stay those of `tree`. -/
structure Steady (tree : Tree) (σ : Tracker) : Prop where
  tree_eq : σ.tree = tree
  wellFormed : WellFormed σ.tdb

variable {opt : Options} {host : Host} {tree : Tree} {σ : Tracker}
  {e : Event}

theorem Steady.step (h : Steady tree σ) (he : Undisturbed opt host tree e) :
    Steady tree (Tracker.step opt host σ e) := by
  refine ⟨?_, wellFormed_step h.wellFormed e⟩
  rw [← h.tree_eq]
  cases e with
  | changeTree tree => exact he.elim
  | visit path =>
      simp only [Tracker.step]
      split <;> rfl
  | check =>
      simp only [Tracker.step]
      split <;> rfl
  | request channel rq now raw =>
      simp only [Tracker.step]
      split <;> rfl
  | _ => rfl

theorem Steady.staleMeet_step
    {R : List UInt8 → InfoHash × Text × Text × UInt64 → Prop}
    (h : Steady tree σ) (hmeet : StaleMeet opt.torrentDir tree R σ.tdb)
    (e : Event) :
    StaleMeet opt.torrentDir tree R (Tracker.step opt host σ e).tdb := by
  have htree := h.tree_eq
  subst htree
  exact Tracker.staleMeet_step hmeet e

theorem Steady.fileListed_step {path : Path} (h : Steady tree σ)
    (hv1 : NoStaleV1 opt.torrentDir tree σ.tdb)
    (hlisted : FileListed host.walker tree path σ.tdb) (e : Event) :
    FileListed host.walker tree path (Tracker.step opt host σ e).tdb := by
  have htree := h.tree_eq
  subst htree
  exact Tracker.fileListed_step h.wellFormed hv1 hlisted e

theorem Settled.step (h : Steady tree σ)
    (hsettled : Settled opt host tree σ.tdb) (e : Event) :
    Settled opt host tree (Tracker.step opt host σ e).tdb where
  noStaleV1 := h.staleMeet_step hsettled.noStaleV1 e
  fileListed := fun path hpath =>
    h.fileListed_step hsettled.noStaleV1 (hsettled.fileListed path hpath) e

/-- A white list that has settled does nothing. -/
theorem Settled.step_eq_self (h : Steady tree σ)
    (hsettled : Settled opt host tree σ.tdb)
    (he : Undisturbed opt host tree e) (hlist : e.ofWhiteList = true) :
    Tracker.step opt host σ e = σ := by
  have htree := h.tree_eq
  subst htree
  cases e with
  | visit path =>
      rw [Tracker.step, visit_eq_self (hsettled.fileListed path he), ite_self]
  | check =>
      rw [Tracker.step, check_eq_self h.wellFormed hsettled.noStaleV1,
        ite_self]
  | _ => cases hlist

theorem Steady.run (h : Steady tree σ) {events : List Event}
    (hevents : ∀ e ∈ events, Undisturbed opt host tree e) :
    Steady tree (Runs.run (Tracker.step opt host) σ events) := by
  have hstep : ∀ σ e, Undisturbed opt host tree e → Steady tree σ →
      Steady tree (Tracker.step opt host σ e) :=
    fun σ e he h => h.step he
  exact Runs.run_invariant_of_events hstep h hevents

theorem Steady.run_staleMeet
    {R : List UInt8 → InfoHash × Text × Text × UInt64 → Prop}
    (h : Steady tree σ) (hmeet : StaleMeet opt.torrentDir tree R σ.tdb)
    {events : List Event}
    (hevents : ∀ e ∈ events, Undisturbed opt host tree e) :
    StaleMeet opt.torrentDir tree R
      (Runs.run (Tracker.step opt host) σ events).tdb := by
  have hstep : ∀ σ e, Undisturbed opt host tree e →
      Steady tree σ ∧ StaleMeet opt.torrentDir tree R σ.tdb →
      Steady tree (Tracker.step opt host σ e) ∧
        StaleMeet opt.torrentDir tree R (Tracker.step opt host σ e).tdb :=
    fun σ e he h => ⟨h.1.step he, h.1.staleMeet_step h.2 e⟩
  exact (Runs.run_invariant_of_events hstep ⟨h, hmeet⟩ hevents).2

theorem noStaleV1_established (hdir : opt.torrentDir ≠ [])
    (h : Steady tree σ) {events : List Event}
    (hevents : ∀ e ∈ events, Undisturbed opt host tree e)
    (hcheck : Event.check ∈ events) :
    NoStaleV1 opt.torrentDir tree (Runs.run (step opt host) σ events).tdb := by
  have hstep : ∀ σ e, Undisturbed opt host tree e → Steady tree σ →
      Steady tree (step opt host σ e) :=
    fun σ e he h => h.step he
  have hkeep : ∀ σ e, Undisturbed opt host tree e → Steady tree σ →
      NoStaleV1 opt.torrentDir tree σ.tdb →
        NoStaleV1 opt.torrentDir tree (step opt host σ e).tdb :=
    fun σ e _ h hmeet => h.staleMeet_step hmeet e
  have hset : ∀ σ, Steady tree σ →
      NoStaleV1 opt.torrentDir tree (step opt host σ .check).tdb := by
    intro σ h
    rw [step, if_neg hdir, h.tree_eq]
    exact noStaleV1_check h.wellFormed
  exact Runs.run_established (P := fun σ =>
    NoStaleV1 opt.torrentDir tree σ.tdb) hstep hkeep hset h hevents hcheck

theorem fileListed_established (hdir : opt.torrentDir ≠ [])
    (h : Steady tree σ) (hv1 : NoStaleV1 opt.torrentDir tree σ.tdb)
    {events : List Event}
    (hevents : ∀ e ∈ events, Undisturbed opt host tree e)
    {path : Path} (hvisit : Event.visit path ∈ events) :
    FileListed host.walker tree path
      (Runs.run (step opt host) σ events).tdb := by
  let Before (σ : Tracker) : Prop :=
    Steady tree σ ∧ NoStaleV1 opt.torrentDir tree σ.tdb
  have hstep : ∀ σ e, Undisturbed opt host tree e → Before σ →
      Before (step opt host σ e) :=
    fun σ e he h => ⟨h.1.step he, h.1.staleMeet_step h.2 e⟩
  have hkeep : ∀ σ e, Undisturbed opt host tree e → Before σ →
      FileListed host.walker tree path σ.tdb →
        FileListed host.walker tree path (step opt host σ e).tdb :=
    fun σ e _ h hlisted => h.1.fileListed_step h.2 hlisted e
  have hset : ∀ σ, Before σ →
      FileListed host.walker tree path
        (step opt host σ (.visit path)).tdb := by
    intro σ h
    rw [step, if_neg hdir, h.1.tree_eq]
    exact fileListed_visit σ.tdb
  exact Runs.run_established (P := fun σ =>
    FileListed host.walker tree path σ.tdb) hstep hkeep hset ⟨h, hv1⟩ hevents
      hvisit

/-- A check and then a scan settle the white list. -/
theorem settled_established (hdir : opt.torrentDir ≠ [])
    (h : Steady tree σ) {events : List Event}
    (hevents : ∀ e ∈ events, Undisturbed opt host tree e)
    (hrescan : (rescan opt host tree).Sublist events) :
    Settled opt host tree (Runs.run (step opt host) σ events).tdb := by
  obtain ⟨before, after, rfl, hcheck, hvisits⟩ :=
    List.append_sublist_iff.mp
      (show ([Event.check] ++ _).Sublist events from hrescan)
  have hbefore : ∀ e ∈ before, Undisturbed opt host tree e :=
    fun e he => hevents e (List.mem_append_left after he)
  have hafter : ∀ e ∈ after, Undisturbed opt host tree e :=
    fun e he => hevents e (List.mem_append_right before he)
  have hv1 := noStaleV1_established hdir h hbefore
    (List.singleton_sublist.mp hcheck)
  have hmid := h.run hbefore
  rw [Runs.run_append]
  constructor
  · exact hmid.run_staleMeet hv1 hafter
  · intro path hpath
    exact fileListed_established hdir hmid hv1 hafter
      (hvisits.subset (List.mem_map_of_mem hpath))

/-- From then on the white list might as well not run. -/
theorem Settled.run (h : Steady tree σ)
    (hsettled : Settled opt host tree σ.tdb) {events : List Event}
    (hevents : ∀ e ∈ events, Undisturbed opt host tree e) :
    Runs.run (Tracker.step opt host) σ events =
        Runs.run (Tracker.step opt host) σ
          (events.filter fun e => !e.ofWhiteList) ∧
      SameListing σ.tdb (Runs.run (Tracker.step opt host) σ events).tdb := by
  induction events generalizing σ with
  | nil =>
      exact ⟨rfl, SameListing.refl σ.tdb⟩
  | cons e events ih =>
      have he := hevents e (by simp)
      obtain ⟨hrun, hsame⟩ := ih (h.step he) (hsettled.step h e)
        fun e' he' => hevents e' (List.mem_cons_of_mem e he')
      cases hlist : e.ofWhiteList with
      | true =>
          rw [hsettled.step_eq_self h he hlist] at hrun hsame
          rw [List.filter_cons_of_neg (by simp [hlist]), Runs.run_cons,
            hsettled.step_eq_self h he hlist]
          exact ⟨hrun, hsame⟩
      | false =>
          rw [List.filter_cons_of_pos (by simp [hlist]), Runs.run_cons,
            Runs.run_cons]
          exact ⟨hrun, (sameListing_step σ hlist).trans hsame⟩

/--
**The white list settles.**  From any reachable tracker, while nobody changes
the files, and whatever else the tracker does meanwhile: after a check and then
a scan both hashes of every torrent file that the walk finds are listed; the
stale torrents are v2 torrents that were listed before; and from then on no
visit and no check changes anything, and the same torrents stay listed.
-/
theorem white_list_settles
    {tree₀ : Tree} {udp : UdpServer} {σ : Tracker}
    (hσ : Runs.Reachable (step opt host) (start tree₀ udp) σ)
    (hdir : opt.torrentDir ≠ [])
    {events : List Event}
    (hevents : ∀ e ∈ events, Undisturbed opt host σ.tree e)
    (hrescan : (rescan opt host σ.tree).Sublist events) :
    let σ' := Runs.run (step opt host) σ events
    Settled opt host σ.tree σ'.tdb ∧
      (∀ k t, σ'.tdb.lookup k = some t →
        stale opt.torrentDir σ.tree t = true →
          t.infoHash.kind = .sha256 ∧
            (σ.tdb.lookup k).map Torrent.identity = some t.identity) ∧
      ∀ later : List Event,
        (∀ e ∈ later, Undisturbed opt host σ.tree e) →
          Runs.run (step opt host) σ' later =
              Runs.run (step opt host) σ'
                (later.filter fun e => !e.ofWhiteList) ∧
            SameListing σ'.tdb (Runs.run (step opt host) σ' later).tdb := by
  intro σ'
  have h : Steady σ.tree σ := ⟨rfl, wellFormed_reachable hσ⟩
  let Before (k : List UInt8) (identity : InfoHash × Text × Text × UInt64) :
      Prop := (σ.tdb.lookup k).map Torrent.identity = some identity
  have hbefore : StaleMeet opt.torrentDir σ.tree Before σ.tdb :=
    fun k t hk _ => congrArg (Option.map Torrent.identity) hk
  have hsteady := h.run hevents
  have hkept := h.run_staleMeet hbefore hevents
  have hsettled : Settled opt host σ.tree σ'.tdb :=
    settled_established hdir h hevents hrescan
  refine ⟨hsettled, ?_, fun later hlater => hsettled.run hsteady hlater⟩
  intro k t hk hstale
  refine ⟨?_, hkept k t hk hstale⟩
  cases hkind : t.infoHash.kind with
  | none => exact ((hsteady.wellFormed k t hk).2 hkind).elim
  | sha1 => exact (hsettled.noStaleV1 k t hk hstale hkind).elim
  | sha256 => rfl

/-- The file that the first round un-lists is listed by the second one. -/
theorem white_list_settles_moved :
    let round := round sampleOptions sampleHost moved.tree
    let σ' := Runs.run (step sampleOptions sampleHost) moved (round ++ round)
    Settled sampleOptions sampleHost moved.tree σ'.tdb ∧
      Runs.run (step sampleOptions sampleHost) σ' round = σ' := by
  intro round σ'
  have hround := undisturbed_round sampleOptions sampleHost moved.tree
  obtain ⟨hsettled, -, hlater⟩ := white_list_settles reachable_moved
    (by decide)
    (fun e he => (List.mem_append.mp he).elim (hround e) (hround e))
    (rescan_sublist_rounds sampleOptions sampleHost moved.tree)
  obtain ⟨hrun, -⟩ := hlater round hround
  rw [filter_round, Runs.run_nil] at hrun
  exact ⟨hsettled, hrun⟩

end Settling

end Tracker
end Hefur
