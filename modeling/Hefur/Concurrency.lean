import Hefur.Lib.SharedLock
import Hefur.StatPage

/-!
# The threads of the tracker

The threads of the tracker share the database under `torrents_lock_`.  An
announce, the changes of the white list and a removal take the lock in exclusive
mode.  A scrape, the stat page, the peers page and the file page share it, and
so does the cleanup, which deletes peers under the lock of their torrent: the
readers do not take that lock, so that they run between the actions of the
cleanup.

The model has one action for each access to a field of a torrent or a peer, in
the order of the source; it does not model torn accesses.  Pointers to torrents
stay valid while the lock is held.  `removePeer` unlinks a peer two actions
before it deletes it.  Since a reader cannot go on from a peer that has left the
list, every use of such a peer is the outcome `fault`, whether its memory is
freed already or not.

`serializable`: every announce is answered, and the database at rest is, as if
the sections had run one after the other, in the order in which they took the
lock.
-/

namespace Hefur
namespace Concurrency

open Bytes SharedLock

section Programs

inductive Thread where
  | cleanup
  | worker (n : Nat)
deriving DecidableEq

/-- What a section hands over; `none` if a page finds no torrent. -/
inductive Out where
  | done
  | announced (response : AnnounceResponse)
  | scraped (response : ScrapeResponse)
  | peers (rows : Option (List PeersHandler.Row))
  | file (path : Option Path)
  | stat (rows : List StatHandler.Row) (totals : StatHandler.Totals)
  | terminated
  | fault

abbrev Program := Prog TorrentDb Out

/-- A section that nobody can interrupt. -/
def atomic (f : TorrentDb → Out × TorrentDb) : Program :=
  .act (fun db => (f db).2) fun db => .ret (f db).1

/-- Read from a torrent through the pointer that was found under `k`. -/
def load {α : Type} (k : List UInt8) (read : Torrent → α)
    (next : α → Program) : Program :=
  .act id fun db =>
    match db.lookup k with
    | none => .ret .fault
    | some torrent => next (read torrent)

section Cleanup

/-- The four changes of `removePeer`, in order. -/
def uncount (peer : Ptr) (t : Torrent) : Torrent :=
  t.decrement (t.mem peer).left

def unlink (peer : Ptr) (t : Torrent) : Torrent :=
  { t with timeouts := t.timeouts.erase peer }

def unindex (peer : Ptr) (t : Torrent) : Torrent :=
  { t with peers := t.peers.erase (t.mem peer).key }

def delete (peer : Ptr) (t : Torrent) : Torrent :=
  t.write peer Peer.default

def removePeer (k : List UInt8) (peer : Ptr) (rest : Program) : Program :=
  .act (ExactMap.modify k (uncount peer)) fun _ =>
    .act (ExactMap.modify k (unlink peer)) fun _ =>
      .act (ExactMap.modify k (unindex peer)) fun _ =>
        .act (ExactMap.modify k (delete peer)) fun _ => rest

/-- The loop of `Torrent::cleanup`; it ends with the peers, at the latest. -/
def popExpired (k : List UInt8) (now : Int) (rest : Program) :
    Nat → Program
  | 0 => rest
  | n + 1 =>
      .act id fun db =>
        match db.lookup k with
        | none => rest
        | some t =>
            match t.timeouts with
            | [] => rest
            | peer :: _ =>
                if (t.mem peer).timeoutTs > now then rest
                else removePeer k peer (popExpired k now rest n)

/-- `Torrent::cleanup` of one torrent after the other. -/
def sweep (now : List UInt8 → Int) : List (List UInt8) → Program
  | [] => .ret .done
  | k :: keys =>
      .act id fun db =>
        match db.lookup k with
        | none => sweep now keys
        | some t =>
            popExpired k (now k) (sweep now keys) t.timeouts.length

/-- `TorrentDb::cleanup`. -/
def cleanup (now : List UInt8 → Int) : Program :=
  .act id fun db => sweep now db.keys

end Cleanup

section Readers

/-- Read the counters of a torrent, one after the other. -/
def loadCounters (k : List UInt8)
    (next : UInt32 → UInt32 → UInt32 → Program) : Program :=
  load k Torrent.leechers fun leechers =>
    load k Torrent.seeders fun seeders =>
      load k Torrent.completed fun completed =>
        next leechers seeders completed

/-- The loop of `TorrentDb::scrape`. -/
def scrapeLoop (opt : Options) :
    List InfoHash → List ScrapeResponse.Item → Program
  | [], items =>
      .ret (.scraped
        { error := false
          errorMsg := []
          interval := opt.scrapeInterval * 60
          items := items })
  | h :: rest, items =>
      .act id fun db =>
        match db.lookup h.bytes with
        | none => scrapeLoop opt rest items
        | some _ =>
            loadCounters h.bytes fun nleechers nseeders ndownloaded =>
              scrapeLoop opt rest
                (items ++
                  [{ infoHash := h
                     nleechers := nleechers
                     nseeders := nseeders
                     ndownloaded := ndownloaded }])

/-- A torrent with counters that were read one by one. -/
def withCounters (leechers seeders completed : UInt32) (t : Torrent) :
    Torrent :=
  { t with leechers := leechers, seeders := seeders, completed := completed }

/--
The loop of the stat page.  It reads the counters for the row, and then once
more for the totals.
-/
def statLoop (opt : StatOptions) (host : PageHost) :
    List (List UInt8) → List StatHandler.Row → StatHandler.Totals → Program
  | [], rows, totals => .ret (.stat rows totals)
  | k :: keys, rows, totals =>
      load k id fun t =>
        match t.version with
        | none => .ret .terminated
        | some version =>
            loadCounters k fun leechers seeders completed =>
              loadCounters k fun leechers' seeders' completed' =>
                statLoop opt host keys
                  (rows ++
                    [StatHandler.row opt host version
                      (withCounters leechers seeders completed t)])
                  (totals.add (withCounters leechers' seeders' completed' t))

def stat (opt : StatOptions) (host : PageHost) : Program :=
  .act id fun db => statLoop opt host db.keys [] .zero

/-- The torrent under `k`, if the peer is still in its list. -/
def linked (k : List UInt8) (peer : Ptr) (db : TorrentDb) : Option Torrent :=
  match db.lookup k with
  | none => none
  | some t => if peer ∈ t.timeouts then some t else none

/-- The peer after `peer` in the list. -/
def nextPeer (peer : Ptr) (t : Torrent) : Option Ptr :=
  (t.timeouts.dropWhile fun p => p ≠ peer).tail.head?

/-- Read from a peer of the list. -/
def loadPeer {α : Type} (k : List UInt8) (peer : Ptr) (read : Peer → α)
    (next : α → Program) : Program :=
  .act id fun db =>
    match linked k peer db with
    | none => .ret .fault
    | some t => next (read (t.mem peer))

/-- Read the fields of a row, one after the other. -/
def loadRow (net : Inet) (k : List UInt8) (peer : Ptr)
    (next : PeersHandler.Row → Program) : Program :=
  loadPeer k peer (fun p => p.addr.str net) fun address =>
    loadPeer k peer Peer.peerid fun peerid =>
      loadPeer k peer Peer.downloaded fun downloaded =>
        loadPeer k peer Peer.uploaded fun uploaded =>
          loadPeer k peer Peer.left fun left =>
            next
              { address := address
                peerid := peerid
                downloaded := downloaded
                uploaded := uploaded
                left := left }

/--
The loop of the peers page over the list: the row of a peer, and then the step
to the next one, which the peer itself points to.  The list has at most as many
peers as at the start.
-/
def peersFrom (net : Inet) (k : List UInt8) :
    Nat → Ptr → List PeersHandler.Row → Program
  | 0, _, _ => .ret .fault
  | n + 1, peer, rows =>
      loadRow net k peer fun row =>
        .act id fun db =>
          match linked k peer db with
          | none => .ret .fault
          | some t =>
              match nextPeer peer t with
              | none => .ret (.peers (some (rows ++ [row])))
              | some peer => peersFrom net k n peer (rows ++ [row])

/-- The peers page, from its lookup to the last row. -/
def peers (net : Inet) (k : List UInt8) : Program :=
  .act id fun db =>
    match db.lookup k with
    | none => .ret (.peers none)
    | some _ =>
        .act id fun db =>
          match db.lookup k with
          | none => .ret .fault
          | some t =>
              match t.timeouts with
              | [] => .ret (.peers (some []))
              | peer :: _ => peersFrom net k t.timeouts.length peer []

/-- The file page, from its lookup to the path of the file. -/
def file (k : List UInt8) : Program :=
  .act id fun db =>
    match db.lookup k with
    | none => .ret (.file none)
    | some _ => load k Torrent.path fun path => .ret (.file (some path))

end Readers

end Programs

section Tasks

/-- The options and what the handlers take from their libraries. -/
structure Config where
  opt : Options
  pages : StatOptions
  host : PageHost

/-- What a thread other than the cleanup thread does under the lock. -/
inductive Call where
  | announce (now : Int) (request : AnnounceRequest)
  | scrape (request : ScrapeRequest)
  | addV1 (path : Path) (desc : TorrentDesc)
  | addV2 (path : Path) (desc : TorrentDesc)
  | removeTorrent (infoHash : List UInt8)
  | check (tree : Tree)
  | stat
  | peers (infoHash : List UInt8)
  | file (infoHash : List UInt8)

inductive Task where
  | call (n : Nat) (c : Call)
  | cleanup (now : List UInt8 → Int)

variable (cfg : Config)

namespace Call

/-- The reply and the effect of a call that has the lock for itself. -/
def alone (db : TorrentDb) : Call → Out × TorrentDb
  | .announce now request =>
      let (response, db) := db.announce cfg.opt now request
      (.announced response, db)
  | .addV1 path desc =>
      (.done, db.addTorrent (FsTreeWhiteList.torrentV1 path desc))
  | .addV2 path desc =>
      (.done, db.addTorrent (FsTreeWhiteList.torrentV2 path desc))
  | .removeTorrent infoHash => (.done, db.removeTorrent infoHash)
  | .check tree =>
      (.done, FsTreeWhiteList.check cfg.opt.torrentDir tree db)
  | _ => (.done, db)

/-- The sections under a `ReadLocker`. -/
def mode : Call → Mode
  | .scrape _ => .shared
  | .stat => .shared
  | .peers _ => .shared
  | .file _ => .shared
  | _ => .exclusive

def prog (c : Call) : Program :=
  match c with
  | .scrape request => scrapeLoop cfg.opt request.infoHashs []
  | .stat => Concurrency.stat cfg.pages cfg.host
  | .peers infoHash => Concurrency.peers cfg.host.net infoHash
  | .file infoHash => Concurrency.file infoHash
  | c => atomic fun db => c.alone cfg db

end Call

/-- The section of a task; only the cleanup thread cleans up. -/
def Task.sect : Task → Section Thread TorrentDb Out
  | .call n c => ⟨.worker n, c.mode, c.prog cfg⟩
  | .cleanup now => ⟨.cleanup, .shared, Concurrency.cleanup now⟩

/-- The atomic effect of a task. -/
def Task.step (db : TorrentDb) : Task → TorrentDb
  | .call _ c => (c.alone cfg db).2
  | .cleanup now => db.cleanup now

/-- A thread asks for the lock, or runs on under it. -/
inductive Event where
  | enter (task : Task)
  | go (thread : Thread)

def Event.lock : Event → SharedLock.Event Thread TorrentDb Out
  | .enter task => .enter (task.sect cfg)
  | .go thread => .go thread

/-- The threads and the database after a run. -/
def machine (events : List Event) : Machine Thread TorrentDb Out :=
  Runs.run SharedLock.step (SharedLock.start ∅) (events.map (Event.lock cfg))

end Tasks

section CleanupRuns

theorem removePeer_eq (peer : Ptr) (t : Torrent) :
    delete peer (unindex peer (unlink peer (uncount peer t))) =
      t.removePeer peer := by
  rfl

theorem removePeer_run (k : List UInt8) (peer : Ptr) (rest : Program)
    (db : TorrentDb) :
    (removePeer k peer rest).run db =
      rest.run (ExactMap.modify k (Torrent.removePeer peer) db) := by
  simp only [removePeer, Prog.run, ExactMap.modify_modify, removePeer_eq]

/-- With fuel for all peers the loop is the cleanup of the torrent. -/
theorem popExpired_run (k : List UInt8) (now : Int) (rest : Program)
    {n : Nat} {db : TorrentDb} {t : Torrent} (hk : db.lookup k = some t)
    (hn : t.timeouts.length ≤ n) :
    (popExpired k now rest n).run db =
      rest.run (ExactMap.modify k (Torrent.cleanup now) db) := by
  induction n generalizing db t with
  | zero =>
      have hnil := List.eq_nil_of_length_eq_zero (Nat.le_zero.mp hn)
      rw [popExpired, ExactMap.modify_eq_self]
      intro t' hk'
      rw [hk] at hk'
      obtain rfl := Option.some.inj hk'
      exact Torrent.cleanup_of_nil hnil
  | succ n ih =>
      have hself : t.cleanup now = t →
          ExactMap.modify k (Torrent.cleanup now) db = db := by
        intro hsame
        apply ExactMap.modify_eq_self
        intro t' hk'
        rw [hk] at hk'
        obtain rfl := Option.some.inj hk'
        exact hsame
      simp only [popExpired, Prog.run, id, hk]
      cases hlist : t.timeouts with
      | nil =>
          rw [hself (Torrent.cleanup_of_nil hlist)]
      | cons peer others =>
          dsimp only
          by_cases hlive : (t.mem peer).timeoutTs > now
          · rw [if_pos hlive, hself]
            rw [Torrent.cleanup_of_cons hlist, if_pos hlive]
          · have hshort : (t.removePeer peer).timeouts.length ≤ n := by
              rw [Torrent.timeouts_removePeer_front hlist]
              rw [hlist, List.length_cons] at hn
              omega
            rw [if_neg hlive, removePeer_run,
              ih (ExactMap.lookup_modify_self hk) hshort,
              ExactMap.modify_modify]
            congr 1
            apply ExactMap.modify_congr
            intro t' hk'
            rw [hk] at hk'
            obtain rfl := Option.some.inj hk'
            rw [Torrent.cleanup_of_cons hlist, if_neg hlive]

theorem sweep_run (now : List UInt8 → Int) (keys : List (List UInt8))
    (db : TorrentDb) :
    (sweep now keys).run db =
      (.done, keys.foldl
        (fun db k => ExactMap.modify k (Torrent.cleanup (now k)) db) db) := by
  induction keys generalizing db with
  | nil =>
      rfl
  | cons k keys ih =>
      simp only [sweep, Prog.run, id, List.foldl_cons]
      cases hk : db.lookup k with
      | none =>
          have hself : ExactMap.modify k (Torrent.cleanup (now k)) db = db := by
            apply ExactMap.modify_eq_self
            intro t hk'
            rw [hk] at hk'
            cases hk'
          rw [ih, hself]
      | some t =>
          rw [popExpired_run k (now k) _ hk le_rfl, ih]

/-- Without interruption the cleanup is that of the atomic model. -/
theorem cleanup_run (now : List UInt8 → Int) (db : TorrentDb) :
    (cleanup now).run db = (.done, db.cleanup now) := by
  rw [cleanup, Prog.run, id, sweep_run, TorrentDb.cleanup]
  exact congrArg (Prod.mk Out.done)
    (ExactMap.foldl_modify_keys (fun k => Torrent.cleanup (now k)) db)

end CleanupRuns

section Shrinking

/-- What the cleanup can have made of a torrent, in the middle of its work. -/
structure ShrinksTo (t t' : Torrent) : Prop where
  identity : t'.identity = t.identity
  leechers : t'.leechers ≤ t.leechers
  seeders : t'.seeders ≤ t.seeders
  completed : t'.completed = t.completed
  timeouts : t'.timeouts <:+ t.timeouts
  mem : ∀ peer ∈ t'.timeouts, t'.mem peer = t.mem peer

namespace ShrinksTo

theorem refl (t : Torrent) : ShrinksTo t t where
  identity := rfl
  leechers := UInt32.le_refl _
  seeders := UInt32.le_refl _
  completed := rfl
  timeouts := List.suffix_refl _
  mem := fun _ _ => rfl

theorem trans {t t' t'' : Torrent} (h : ShrinksTo t t')
    (h' : ShrinksTo t' t'') : ShrinksTo t t'' where
  identity := h'.identity.trans h.identity
  leechers := UInt32.le_trans h'.leechers h.leechers
  seeders := UInt32.le_trans h'.seeders h.seeders
  completed := h'.completed.trans h.completed
  timeouts := h'.timeouts.trans h.timeouts
  mem := fun peer hpeer => (h'.mem peer hpeer).trans
    (h.mem peer (h'.timeouts.subset hpeer))

end ShrinksTo

/-- The same for the database; while it is shared nobody adds or removes. -/
structure Shrinks (db db' : TorrentDb) : Prop where
  keys : db'.keys = db.keys
  torrents : ∀ k t, db.lookup k = some t →
    ∃ t', db'.lookup k = some t' ∧ ShrinksTo t t'

namespace Shrinks

theorem refl (db : TorrentDb) : Shrinks db db where
  keys := rfl
  torrents := fun _ t hk => ⟨t, hk, .refl t⟩

theorem trans {db db' db'' : TorrentDb} (h : Shrinks db db')
    (h' : Shrinks db' db'') : Shrinks db db'' where
  keys := h'.keys.trans h.keys
  torrents := by
    intro k t hk
    obtain ⟨t', hk', hshrink⟩ := h.torrents k t hk
    obtain ⟨t'', hk'', hshrink'⟩ := h'.torrents k t' hk'
    exact ⟨t'', hk'', hshrink.trans hshrink'⟩

theorem lookup_none {db db' : TorrentDb} (h : Shrinks db db')
    {k : List UInt8} (hk : db.lookup k = none) : db'.lookup k = none := by
  rw [AList.lookup_eq_none, AList.mem_keys] at hk ⊢
  rw [h.keys]
  exact hk

/-- A change of one torrent. -/
theorem modify {db : TorrentDb} {k : List UInt8} {f : Torrent → Torrent}
    (hf : ∀ t, db.lookup k = some t → ShrinksTo t (f t)) :
    Shrinks db (ExactMap.modify k f db) where
  keys := ExactMap.keys_modify k f db
  torrents := by
    intro k' t hk'
    by_cases hsame : k' = k
    · subst hsame
      exact ⟨f t, ExactMap.lookup_modify_self hk', hf t hk'⟩
    · refine ⟨t, ?_, .refl t⟩
      rw [ExactMap.lookup_modify, if_neg hsame]
      exact hk'

end Shrinks

section Removal

open Torrent

variable {opt : Options} {t : Torrent} {peer : Ptr} {rest : List Ptr}

theorem pos_of_front (h : Steady opt t) (hfront : t.timeouts = peer :: rest) :
    if (t.mem peer).left = 0 then 0 < t.seeders.toNat
    else 0 < t.leechers.toNat := by
  have hagree := h.peersAgree
  split
  · rename_i hseeder
    rw [hagree.seeders, hfront, List.countP_pos_iff]
    exact ⟨peer, List.mem_cons_self, by simpa using hseeder⟩
  · rename_i hleecher
    rw [hagree.leechers, hfront, List.countP_pos_iff]
    refine ⟨peer, List.mem_cons_self, ?_⟩
    simpa [UInt64.pos_iff_ne_zero] using hleecher

theorem sub_one_le {w : UInt32} (hw : 0 < w.toNat) : w - 1 ≤ w := by
  rw [UInt32.le_iff_toNat_le, UInt32.toNat_sub_of_le]
  · omega
  · rw [UInt32.le_iff_toNat_le]
    exact hw

/-- A counter that counts the front peer can be decremented. -/
theorem shrinksTo_uncount (h : Steady opt t)
    (hfront : t.timeouts = peer :: rest) : ShrinksTo t (uncount peer t) := by
  have hpos := pos_of_front h hfront
  unfold uncount decrement
  by_cases hseeder : (t.mem peer).left = 0
  · rw [if_pos hseeder] at hpos ⊢
    exact { ShrinksTo.refl t with seeders := sub_one_le hpos }
  · rw [if_neg hseeder] at hpos ⊢
    exact { ShrinksTo.refl t with leechers := sub_one_le hpos }

theorem shrinksTo_unlink {s : Torrent} (hfront : s.timeouts = peer :: rest) :
    ShrinksTo s (unlink peer s) := by
  have htimeouts : (unlink peer s).timeouts = rest := by
    simp [unlink, hfront]
  have hsuffix : (unlink peer s).timeouts <:+ s.timeouts := by
    rw [htimeouts, hfront]
    exact List.suffix_cons peer rest
  exact { ShrinksTo.refl s with
    timeouts := hsuffix
    mem := fun _ _ => rfl }

theorem shrinksTo_unindex (s : Torrent) : ShrinksTo s (unindex peer s) :=
  { ShrinksTo.refl s with }

theorem shrinksTo_delete {s : Torrent} (hpeer : peer ∉ s.timeouts) :
    ShrinksTo s (delete peer s) :=
  { ShrinksTo.refl s with
    mem := by
      intro p hp
      have hne : p ≠ peer := by
        rintro rfl
        exact hpeer hp
      exact Function.update_of_ne hne _ _ }

theorem steady_removePeer (h : Steady opt t)
    (hpeer : peer ∈ t.timeouts) : Steady opt (t.removePeer peer) := by
  have hmax := opt.maxPeers.toNat_lt
  have hbounded := h.bounded
  refine ⟨rep_removePeer h.rep hpeer, ?_, ?_⟩
  · rw [swarm_removePeer h.rep hpeer]
    exact le_trans (Recency.without_sublist _ _ _).length_le h.bounded
  · rw [underflow_removePeer h.rep hpeer (by omega), h.noUnderflow]

end Removal

/-- The databases between the sections. -/
structure Good (opt : Options) (db : TorrentDb) : Prop where
  steady : db.All (Torrent.Steady opt)
  wellFormed : TorrentDb.WellFormed db

variable {opt : Options} {db : TorrentDb} {k : List UInt8} {peer : Ptr}
variable {t : Torrent} {rest : Program}

theorem Good.removePeer (h : Good opt db) (hk : db.lookup k = some t)
    (hpeer : peer ∈ t.timeouts) :
    Good opt (ExactMap.modify k (Torrent.removePeer peer) db) := by
  have hcases : ∀ k' t',
      (ExactMap.modify k (Torrent.removePeer peer) db).lookup k' = some t' →
        db.lookup k' = some t' ∨
          (k' = k ∧ t' = t.removePeer peer) := by
    intro k' t' hk'
    rw [ExactMap.lookup_modify] at hk'
    split at hk'
    · rename_i hsame
      subst hsame
      rw [hk] at hk'
      exact Or.inr ⟨rfl, (Option.some.inj hk').symm⟩
    · exact Or.inl hk'
  constructor
  · intro k' t' hk'
    rcases hcases k' t' hk' with hk' | ⟨-, rfl⟩
    · exact h.steady k' t' hk'
    · exact steady_removePeer (h.steady k t hk) hpeer
  · apply h.wellFormed.mapped
    intro k' t' hk'
    rcases hcases k' t' hk' with hk' | ⟨rfl, rfl⟩
    · exact ⟨t', hk', rfl⟩
    · exact ⟨t, hk, Torrent.identity_removePeer peer t⟩

/-- Removing the front peer shrinks the database action by action. -/
theorem along_removePeer (h : Good opt db) (hk : db.lookup k = some t)
    {others : List Ptr} (hfront : t.timeouts = peer :: others)
    (hrest : rest.Along Shrinks
      (ExactMap.modify k (Torrent.removePeer peer) db)) :
    (removePeer k peer rest).Along Shrinks db := by
  have hsteady := h.steady k t hk
  have honly : ∀ {m : TorrentDb} {s : Torrent} {f : Torrent → Torrent},
      m.lookup k = some s → ShrinksTo s (f s) →
        Shrinks m (ExactMap.modify k f m) := by
    intro m s f hs hf
    apply Shrinks.modify
    intro s' hs'
    rw [hs] at hs'
    obtain rfl := Option.some.inj hs'
    exact hf
  have hfront' : (uncount peer t).timeouts = peer :: others := by
    rw [uncount, Torrent.decrement_timeouts]
    exact hfront
  have hunlinked :
      peer ∉ (unindex peer (unlink peer (uncount peer t))).timeouts := by
    have hnodup := hsteady.rep.nodup
    rw [hfront] at hnodup
    simp only [unindex, unlink, hfront', List.erase_cons_head]
    exact (List.nodup_cons.mp hnodup).1
  have huncounted := ExactMap.lookup_modify_self (f := uncount peer) hk
  have hunlinked' := ExactMap.lookup_modify_self (f := unlink peer) huncounted
  have hunindexed := ExactMap.lookup_modify_self (f := unindex peer) hunlinked'
  refine ⟨honly hk (shrinksTo_uncount hsteady hfront),
    honly huncounted (shrinksTo_unlink hfront'),
    honly hunlinked' (shrinksTo_unindex _),
    honly hunindexed (shrinksTo_delete hunlinked), ?_⟩
  simp only [ExactMap.modify_modify, removePeer_eq]
  exact hrest

theorem along_popExpired (now : Int)
    (hrest : ∀ db, Good opt db → rest.Along Shrinks db) (n : Nat)
    (h : Good opt db) : (popExpired k now rest n).Along Shrinks db := by
  induction n generalizing db with
  | zero =>
      exact hrest db h
  | succ n ih =>
      refine ⟨.refl db, ?_⟩
      dsimp only [id]
      cases hk : db.lookup k with
      | none =>
          exact hrest db h
      | some t =>
          cases hfront : t.timeouts with
          | nil =>
              simp only [hfront]
              exact hrest db h
          | cons peer others =>
              simp only [hfront]
              split
              · exact hrest db h
              · exact along_removePeer h hk hfront
                  (ih (h.removePeer hk (by rw [hfront]; simp)))

theorem along_sweep (now : List UInt8 → Int) (keys : List (List UInt8))
    (h : Good opt db) : (sweep now keys).Along Shrinks db := by
  induction keys generalizing db with
  | nil =>
      trivial
  | cons k keys ih =>
      refine ⟨.refl db, ?_⟩
      dsimp only [id]
      cases hk : db.lookup k with
      | none =>
          exact ih h
      | some t =>
          exact along_popExpired (now k) (fun db h => ih h) _ h

end Shrinking

section Discipline

variable (cfg : Config)

theorem readOnly_load {α : Type} (k : List UInt8) (read : Torrent → α)
    {next : α → Program} (hnext : ∀ a, (next a).ReadOnly) :
    (load k read next).ReadOnly := by
  refine ⟨fun _ => rfl, fun db => ?_⟩
  dsimp only
  split
  · trivial
  · exact hnext _

theorem readOnly_loadCounters (k : List UInt8)
    {next : UInt32 → UInt32 → UInt32 → Program}
    (hnext : ∀ leechers seeders completed,
      (next leechers seeders completed).ReadOnly) :
    (loadCounters k next).ReadOnly :=
  readOnly_load _ _ fun _ => readOnly_load _ _ fun _ =>
    readOnly_load _ _ fun _ => hnext _ _ _

theorem readOnly_scrapeLoop (opt : Options) (hashes : List InfoHash)
    (items : List ScrapeResponse.Item) :
    (scrapeLoop opt hashes items).ReadOnly := by
  induction hashes generalizing items with
  | nil =>
      trivial
  | cons h rest ih =>
      refine ⟨fun _ => rfl, fun db => ?_⟩
      dsimp only
      split
      · exact ih items
      · exact readOnly_loadCounters _ fun _ _ _ => ih _

theorem readOnly_statLoop (opt : StatOptions) (host : PageHost)
    (keys : List (List UInt8)) (rows : List StatHandler.Row)
    (totals : StatHandler.Totals) :
    (statLoop opt host keys rows totals).ReadOnly := by
  induction keys generalizing rows totals with
  | nil =>
      trivial
  | cons k keys ih =>
      apply readOnly_load
      intro t
      split
      · trivial
      · exact readOnly_loadCounters _ fun _ _ _ =>
          readOnly_loadCounters _ fun _ _ _ => ih _ _

theorem readOnly_loadPeer {α : Type} (k : List UInt8) (peer : Ptr)
    (read : Peer → α) {next : α → Program} (hnext : ∀ a, (next a).ReadOnly) :
    (loadPeer k peer read next).ReadOnly := by
  refine ⟨fun _ => rfl, fun db => ?_⟩
  dsimp only
  split
  · trivial
  · exact hnext _

theorem readOnly_loadRow (net : Inet) (k : List UInt8) (peer : Ptr)
    {next : PeersHandler.Row → Program} (hnext : ∀ row, (next row).ReadOnly) :
    (loadRow net k peer next).ReadOnly :=
  readOnly_loadPeer _ _ _ fun _ => readOnly_loadPeer _ _ _ fun _ =>
    readOnly_loadPeer _ _ _ fun _ => readOnly_loadPeer _ _ _ fun _ =>
      readOnly_loadPeer _ _ _ fun _ => hnext _

theorem readOnly_peersFrom (net : Inet) (k : List UInt8) (n : Nat)
    (peer : Ptr) (rows : List PeersHandler.Row) :
    (peersFrom net k n peer rows).ReadOnly := by
  induction n generalizing peer rows with
  | zero =>
      trivial
  | succ n ih =>
      apply readOnly_loadRow
      intro row
      refine ⟨fun _ => rfl, fun db => ?_⟩
      dsimp only
      split
      · trivial
      · split
        · trivial
        · exact ih _ _

theorem readOnly_peers (net : Inet) (k : List UInt8) :
    (peers net k).ReadOnly := by
  refine ⟨fun _ => rfl, fun db => ?_⟩
  dsimp only
  split
  · trivial
  · refine ⟨fun _ => rfl, fun db => ?_⟩
    dsimp only
    split
    · trivial
    · split
      · trivial
      · exact readOnly_peersFrom _ _ _ _ _

theorem readOnly_file (k : List UInt8) : (file k).ReadOnly := by
  refine ⟨fun _ => rfl, fun db => ?_⟩
  dsimp only
  split
  · trivial
  · exact readOnly_load _ _ fun _ => trivial

/-- The calls that share the lock only read. -/
theorem readOnly_call {c : Call} (hmode : c.mode ≠ .exclusive) :
    (c.prog cfg).ReadOnly := by
  cases c with
  | scrape request => exact readOnly_scrapeLoop _ _ _
  | stat =>
      exact ⟨fun _ => rfl, fun db => readOnly_statLoop _ _ _ _ _⟩
  | peers infoHash => exact readOnly_peers _ _
  | file infoHash => exact readOnly_file _
  | _ => exact (hmode rfl).elim

/-- Every call keeps the databases good. -/
theorem good_alone {db : TorrentDb}
    (hmax : cfg.opt.maxPeers.toNat < 2 ^ 32 - 1) (h : Good cfg.opt db)
    (c : Call) : Good cfg.opt (c.alone cfg db).2 := by
  have hnew : ∀ infoHash name path length,
      Torrent.Steady cfg.opt (Torrent.new infoHash name path length) :=
    fun infoHash name path length =>
      Torrent.steady_run hmax infoHash name path length []
  cases c with
  | announce now request =>
      refine ⟨h.steady.announce ?_,
        TorrentDb.wellFormed_announce h.wellFormed _ _ _⟩
      exact fun t hk => Torrent.steady_step hmax (h.steady _ t hk)
        (.announce now request)
  | addV1 path desc =>
      exact ⟨h.steady.addTorrent (hnew _ _ _ _),
        TorrentDb.wellFormed_addTorrent h.wellFormed (by
          simp [FsTreeWhiteList.torrentV1, Torrent.new, InfoHash.ofSha1])⟩
  | addV2 path desc =>
      exact ⟨h.steady.addTorrent (hnew _ _ _ _),
        TorrentDb.wellFormed_addTorrent h.wellFormed (by
          simp [FsTreeWhiteList.torrentV2, Torrent.new, InfoHash.ofSha256])⟩
  | removeTorrent infoHash =>
      have hkept : ∀ k t, (db.removeTorrent infoHash).lookup k = some t →
          db.lookup k = some t := by
        intro k t hk
        rw [TorrentDb.removeTorrent, ExactMap.lookup_erase] at hk
        split at hk
        · cases hk
        · exact hk
      exact ⟨fun k t hk => h.steady k t (hkept k t hk),
        fun k t hk => h.wellFormed k t (hkept k t hk)⟩
  | check tree =>
      exact ⟨FsTreeWhiteList.all_check h.steady _ _,
        FsTreeWhiteList.wellFormed_check h.wellFormed _ _⟩
  | scrape request => exact h
  | stat => exact h
  | peers infoHash => exact h
  | file infoHash => exact h

theorem good_cleanup {db : TorrentDb}
    (hmax : cfg.opt.maxPeers.toNat < 2 ^ 32 - 1) (h : Good cfg.opt db)
    (now : List UInt8 → Int) : Good cfg.opt (db.cleanup now) :=
  ⟨h.steady.cleanup now fun _ now ht =>
      Torrent.steady_step hmax ht (.cleanup now),
    TorrentDb.wellFormed_cleanup h.wellFormed now⟩

/-- A call that has the lock for itself runs in one action. -/
theorem run_prog {c : Call} (hmode : c.mode = .exclusive) (db : TorrentDb) :
    (c.prog cfg).run db = c.alone cfg db := by
  cases c with
  | scrape request => cases hmode
  | stat => cases hmode
  | peers infoHash => cases hmode
  | file infoHash => cases hmode
  | _ => rfl

/-- A section that must not write reads. -/
theorem readOnly_sect (task : Task)
    (hreader : ¬ MayWrite Thread.cleanup (task.sect cfg)) :
    (task.sect cfg).prog.ReadOnly := by
  cases task with
  | call n c => exact readOnly_call cfg fun hmode => hreader (Or.inl hmode)
  | cleanup now => exact (hreader (Or.inr rfl)).elim

theorem disciplined_sect (hmax : cfg.opt.maxPeers.toNat < 2 ^ 32 - 1)
    (task : Task) :
    Disciplined Thread.cleanup (Good cfg.opt) Shrinks (task.sect cfg) := by
  refine ⟨readOnly_sect cfg task, ?_, ?_⟩
  · cases task with
    | call n c =>
        rintro hshared (hexclusive | hthread)
        · rw [hshared] at hexclusive
          cases hexclusive
        · cases hthread
    | cleanup now =>
        intro _ _ db hdb
        exact ⟨.refl db, along_sweep now _ hdb⟩
  · cases task with
    | call n c =>
        rintro (hexclusive | hthread) db hdb
        · rw [Task.sect, run_prog cfg hexclusive]
          exact good_alone cfg hmax hdb c
        · cases hthread
    | cleanup now =>
        intro _ db hdb
        rw [Task.sect, cleanup_run]
        exact good_cleanup cfg hmax hdb now

theorem good_empty : Good cfg.opt ∅ :=
  ⟨TorrentDb.all_empty, TorrentDb.wellFormed_empty⟩

/-- The threads of the tracker keep the invariant of the lock. -/
theorem sound_machine (hmax : cfg.opt.maxPeers.toNat < 2 ^ 32 - 1)
    (events : List Event) :
    Sound Thread.cleanup (Good cfg.opt) Shrinks ∅ (machine cfg events) := by
  apply sound_run Shrinks.refl (fun _ _ _ h h' => h.trans h')
    (good_empty cfg)
  intro e he
  obtain ⟨e, -, rfl⟩ := List.mem_map.mp he
  cases e with
  | enter task => exact disciplined_sect cfg hmax task
  | go thread => trivial

end Discipline

section Serializability

variable (cfg : Config)

/-- The task that an event asks the lock for. -/
def Event.task? : Event → Option Task
  | .enter task => some task
  | .go _ => none

/-- The lock alone, whatever the sections keep. -/
theorem sound_lock (events : List Event) :
    Sound Thread.cleanup (fun _ => True) (fun _ _ => True) ∅
      (machine cfg events) := by
  apply sound_run (fun _ => trivial) (fun _ _ _ _ _ => trivial) trivial
  intro e he
  obtain ⟨e, -, rfl⟩ := List.mem_map.mp he
  cases e with
  | enter task => exact .of_readOnly (readOnly_sect cfg task)
  | go thread => trivial

theorem sect?_lock (events : List Event) :
    (events.map (Event.lock cfg)).filterMap SharedLock.Event.sect? =
      (events.filterMap Event.task?).map (Task.sect cfg) := by
  rw [List.filterMap_map, List.map_filterMap]
  congr 1
  funext e
  cases e <;> rfl

theorem run_sect (task : Task) (db : TorrentDb) :
    ((task.sect cfg).prog.run db).2 = task.step cfg db := by
  cases task with
  | call n c =>
      cases hmode : c.mode with
      | exclusive =>
          exact congrArg Prod.snd (run_prog cfg hmode db)
      | shared =>
          have hread : (c.prog cfg).ReadOnly :=
            readOnly_call cfg (by rw [hmode]; exact Mode.noConfusion)
          have hsame : (c.alone cfg db).2 = db := by
            cases c <;> first | rfl | cases hmode
          exact hread.run_snd db |>.trans hsame.symm
  | cleanup now =>
      exact congrArg Prod.snd (cleanup_run now db)

theorem serial_eq (tasks : List Task) (db : TorrentDb) :
    serial db (tasks.map (Task.sect cfg)) =
      Runs.run (Task.step cfg) db tasks := by
  induction tasks generalizing db with
  | nil =>
      rfl
  | cons task tasks ih =>
      rw [Runs.run_cons, ← run_sect, ← ih]
      rfl

/--
At rest the database is what `tasks` make of it one after the other, and every
announce and every change of the white list that has finished found the database
of this order and had its reply.
-/
def SerialOrder (m : Machine Thread TorrentDb Out) (tasks : List Task) :
    Prop :=
  (m.inside = [] → m.data = Runs.run (Task.step cfg) ∅ tasks) ∧
    ∀ d ∈ m.done, d.sect.mode = .exclusive →
      ∃ n c, tasks[d.place]? = some (.call n c) ∧
        d.sect = (Task.call n c).sect cfg ∧
        (d.out, d.stop) = c.alone cfg
          (Runs.run (Task.step cfg) ∅ (tasks.take d.place))

/--
**The threads are serializable.**  The order is that in which the tasks took the
lock.
-/
theorem serializable (events : List Event) :
    ∃ tasks : List Task, tasks.Sublist (events.filterMap Event.task?) ∧
      SerialOrder cfg (machine cfg events) tasks := by
  obtain ⟨entries, hentries, hentered⟩ :=
    entered_run (SharedLock.start ∅) (events.map (Event.lock cfg))
  rw [sect?_lock, List.sublist_map_iff] at hentries
  obtain ⟨tasks, htasks, rfl⟩ := hentries
  have hall : (machine cfg events).entered = tasks.map (Task.sect cfg) :=
    hentered
  have hsound := sound_lock cfg events
  refine ⟨tasks, htasks, ?_, ?_⟩
  · intro hrest
    rw [← serial_eq, ← hall]
    apply hsound.quiet
    intro a ha
    rw [hrest] at ha
    cases ha
  · intro d hd hexclusive
    obtain ⟨⟨hnth, hfound⟩, hrun⟩ := hsound.wrote d hd (Or.inl hexclusive)
    rw [hall, List.getElem?_map, Option.map_eq_some_iff] at hnth
    obtain ⟨task, htask, hsect⟩ := hnth
    rw [hall, ← List.map_take, serial_eq] at hfound
    cases task with
    | cleanup now =>
        rw [← hsect] at hexclusive
        cases hexclusive
    | call n c =>
        refine ⟨n, c, htask, hsect.symm, ?_⟩
        rw [← hsect] at hexclusive hrun
        rw [← hrun, hfound]
        exact run_prog cfg hexclusive _

section Sample

open Tracker (sampleOptions sampleDesc pathA)

def sampleConfig : Config where
  opt := sampleOptions
  pages := {}
  host := PageHost.plain

def sampleHash : InfoHash :=
  .ofSha1 sampleDesc.infoHashV1

/-- A torrent is listed, and a seeder announces itself. -/
def seeding : List Event :=
  [.enter (.call 0 (.addV1 pathA sampleDesc)),
    .go (.worker 0), .go (.worker 0),
    .enter (.call 1 (.announce 0
      { AnnounceRequest.plain .none 0 (.inet sampleIp 1) with
        infoHash := sampleHash })),
    .go (.worker 1), .go (.worker 1)]

/-- A call runs until its third action; then a cleanup finds no live peer. -/
def cleanedUnder (c : Call) : List Event :=
  seeding ++ [.enter (.call 2 c), .go (.worker 2), .go (.worker 2),
    .enter (.cleanup fun _ => 10 * 60 * minute)] ++
    List.replicate 8 (.go .cleanup)

end Sample

end Serializability

end Concurrency
end Hefur
