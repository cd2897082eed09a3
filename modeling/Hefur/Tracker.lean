import Hefur.FsTreeWhiteList
import Hefur.LogHandler
import Hefur.UdpDiscipline

/-!
# The tracker as a whole

The threads of the tracker share the torrent database: the scan of the torrent
directory, the cleanup loop, the HTTP connections and the UDP loop.  Each of
them takes the lock of the database for one operation at a time, so that a run
of the tracker is a sequence of such operations in any order (`step`).

An HTTP request goes through `LogHandler`, which may change the remote address
of its connection, and then to the handler of its location.  A connection is
closed after an announce or a scrape.

`announced` is the internal request by which an event reaches the database, if
it is an announce; `tdb_step` says what an event does to the database.
-/

namespace Hefur

open Bytes

/-- What the tracker takes from its libraries. -/
structure Host where
  net : Inet
  walker : Walker

structure Tracker where
  tree : Tree
  tdb : TorrentDb
  udp : UdpServer
  channels : ExactMap Nat Sockaddr

namespace Tracker

/--
The events of a run.  `changeTree` is whatever others do to the files; `visit`
is one path that a scan visits.
-/
inductive Event where
  | changeTree (tree : Tree)
  | visit (path : Path)
  | check
  | cleanup (now : List UInt8 → Int)
  | accept (channel : Nat) (remoteAddr : Sockaddr)
  | request (channel : Nat) (rq : HttpRequest) (now : Int) (raw : Block 18)
  | close (channel : Nat)
  | udp (e : UdpServer.Event)

section Steps

variable (opt : Options) (host : Host)

/-- The dispatch of a request on its location. -/
def serve (remoteAddr : Sockaddr) (rq : HttpRequest) (now : Int)
    (raw : Block 18) (tdb : TorrentDb) : Reply × TorrentDb :=
  if rq.location = ascii "/announce" then
    AnnounceHandler.handle opt host.net now raw remoteAddr rq.query tdb
  else if rq.location = ascii "/scrape" then
    (ScrapeHandler.handle opt rq.query tdb, tdb)
  else (.unhandled, tdb)

/-- One event; the white list only runs with a torrent directory. -/
def step (σ : Tracker) : Event → Tracker
  | .changeTree tree => { σ with tree := tree }
  | .visit path =>
      if opt.torrentDir = [] then σ
      else
        { σ with
          tdb := FsTreeWhiteList.visit host.walker σ.tree path σ.tdb }
  | .check =>
      if opt.torrentDir = [] then σ
      else
        { σ with
          tdb := FsTreeWhiteList.check opt.torrentDir σ.tree σ.tdb }
  | .cleanup now => { σ with tdb := σ.tdb.cleanup now }
  | .accept channel remoteAddr =>
      { σ with channels := σ.channels.insert channel remoteAddr }
  | .request channel rq now raw =>
      match σ.channels.lookup channel with
      | none => σ
      | some remoteAddr =>
          let remoteAddr :=
            LogHandler.handle opt host.net raw remoteAddr rq.headers
          let (reply, tdb) := serve opt host remoteAddr rq now raw σ.tdb
          { σ with
            tdb := tdb
            channels :=
              if reply.closes then σ.channels.erase channel
              else σ.channels.insert channel remoteAddr }
  | .close channel => { σ with channels := σ.channels.erase channel }
  | .udp e =>
      let st := UdpServer.step opt (σ.udp, σ.tdb) e
      { σ with udp := st.1, tdb := st.2 }

/-- A tracker that was just started. -/
def start (tree : Tree) (udp : UdpServer) : Tracker where
  tree := tree
  tdb := ∅
  udp := udp
  channels := ∅

/-- The internal request of an HTTP announce on an open connection. -/
def httpAnnounced (σ : Tracker) (channel : Nat) (rq : HttpRequest)
    (raw : Block 18) : Option AnnounceRequest :=
  (σ.channels.lookup channel).bind fun remoteAddr =>
    if rq.location = ascii "/announce" then
      AnnounceHandler.request opt host.net raw
        (LogHandler.handle opt host.net raw remoteAddr rq.headers) rq.query
    else none

/-- The announce that reaches the database, with its clock reading. -/
def announced (σ : Tracker) : Event → Option (Int × AnnounceRequest)
  | .request channel rq now raw =>
      (httpAnnounced opt host σ channel rq raw).map fun request =>
        (now, request)
  | .udp (.recvfrom d) =>
      (UdpServer.announced opt σ.udp d).map fun request => (d.now, request)
  | _ => none

/-- The response of the database to the announce of an event. -/
def answer (σ : Tracker) (e : Event) : Option AnnounceResponse :=
  (announced opt host σ e).map fun a => (σ.tdb.announce opt a.1 a.2).1

end Steps

section Channels

variable {opt : Options} {host : Host}

/-- Where the remote address of an open connection comes from. -/
theorem lookup_channels_step {σ : Tracker} {e : Event}
    {c : Nat} {remoteAddr : Sockaddr}
    (hc : (step opt host σ e).channels.lookup c = some remoteAddr) :
    σ.channels.lookup c = some remoteAddr ∨
      e = .accept c remoteAddr ∨
      ∃ rq now raw addr, e = .request c rq now raw ∧
        σ.channels.lookup c = some addr ∧
        remoteAddr = LogHandler.handle opt host.net raw addr rq.headers := by
  cases e with
  | changeTree tree => exact Or.inl hc
  | visit path =>
      simp only [step] at hc
      split at hc <;> exact Or.inl hc
  | check =>
      simp only [step] at hc
      split at hc <;> exact Or.inl hc
  | cleanup now => exact Or.inl hc
  | accept channel addr =>
      simp only [step, ExactMap.lookup_insert] at hc
      split at hc
      · rename_i hsame
        exact Or.inr (Or.inl (by rw [hsame, Option.some.inj hc]))
      · exact Or.inl hc
  | request channel rq now raw =>
      simp only [step] at hc
      split at hc
      · exact Or.inl hc
      · rename_i addr haddr
        split at hc
        · rw [ExactMap.lookup_erase] at hc
          split at hc
          · cases hc
          · exact Or.inl hc
        · rw [ExactMap.lookup_insert] at hc
          split at hc
          · rename_i hsame
            subst hsame
            exact Or.inr (Or.inr ⟨rq, now, raw, addr, rfl, haddr,
              (Option.some.inj hc).symm⟩)
          · exact Or.inl hc
  | close channel =>
      simp only [step, ExactMap.lookup_erase] at hc
      split at hc
      · cases hc
      · exact Or.inl hc
  | udp e => exact Or.inl hc

end Channels

section Database

variable (opt : Options) (host : Host)

open TorrentDb (WellFormed)

theorem tdb_serve (remoteAddr : Sockaddr) (rq : HttpRequest) (now : Int)
    (raw : Block 18) (tdb : TorrentDb) :
    (serve opt host remoteAddr rq now raw tdb).2 =
      match (if rq.location = ascii "/announce" then
          AnnounceHandler.request opt host.net raw remoteAddr rq.query
        else none) with
      | some request => (tdb.announce opt now request).2
      | none => tdb := by
  unfold serve
  split
  · rw [AnnounceHandler.handle, AnnounceHandler.announce]
    cases AnnounceHandler.request opt host.net raw remoteAddr rq.query with
    | none =>
        rfl
    | some request =>
        dsimp only [Option.map_some]
        split <;> rfl
  · split <;> rfl

/-- An HTTP request changes the database by its announce, if at all. -/
theorem tdb_step_request (σ : Tracker) (channel : Nat) (rq : HttpRequest)
    (now : Int) (raw : Block 18) :
    (step opt host σ (.request channel rq now raw)).tdb =
      match httpAnnounced opt host σ channel rq raw with
      | some request => (σ.tdb.announce opt now request).2
      | none => σ.tdb := by
  unfold httpAnnounced
  simp only [step]
  cases σ.channels.lookup channel with
  | none =>
      rfl
  | some remoteAddr =>
      exact tdb_serve opt host _ rq now raw σ.tdb

/-- What an event does to the database. -/
theorem tdb_step (σ : Tracker) (e : Event) :
    match announced opt host σ e with
    | some (now, request) =>
        (step opt host σ e).tdb = (σ.tdb.announce opt now request).2
    | none =>
        (step opt host σ e).tdb = σ.tdb ∨
        (∃ path, (step opt host σ e).tdb =
          FsTreeWhiteList.visit host.walker σ.tree path σ.tdb) ∨
        (step opt host σ e).tdb =
          FsTreeWhiteList.check opt.torrentDir σ.tree σ.tdb ∨
        ∃ now, (step opt host σ e).tdb = σ.tdb.cleanup now := by
  cases e with
  | changeTree tree => exact Or.inl rfl
  | visit path =>
      by_cases hdir : opt.torrentDir = []
      · exact Or.inl (by simp [step, hdir])
      · exact Or.inr (Or.inl ⟨path, by simp [step, hdir]⟩)
  | check =>
      by_cases hdir : opt.torrentDir = []
      · exact Or.inl (by simp [step, hdir])
      · exact Or.inr (Or.inr (Or.inl (by simp [step, hdir])))
  | cleanup now => exact Or.inr (Or.inr (Or.inr ⟨now, rfl⟩))
  | accept channel remoteAddr => exact Or.inl rfl
  | request channel rq now raw =>
      have hstep := tdb_step_request opt host σ channel rq
        now raw
      simp only [announced]
      cases hrq : httpAnnounced opt host σ channel rq raw with
      | none =>
          rw [hrq] at hstep
          exact Or.inl hstep
      | some request =>
          rw [hrq] at hstep
          exact hstep
  | close channel => exact Or.inl rfl
  | udp e =>
      cases e with
      | genSecret now rnd => exact Or.inl rfl
      | sendto now result => exact Or.inl rfl
      | recvfrom d =>
          have hstep := UdpServer.tdb_receiveDatagram opt d σ.udp σ.tdb
          simp only [announced]
          cases hrq : UdpServer.announced opt σ.udp d with
          | none =>
              rw [hrq] at hstep
              exact Or.inl hstep
          | some request =>
              rw [hrq] at hstep
              exact hstep

variable {opt host}

/-- What the operations of the database keep is kept by every event. -/
theorem tdb_step_induction {P : TorrentDb → Prop} {σ : Tracker} {e : Event}
    (hannounce : ∀ now request,
      announced opt host σ e = some (now, request) → P σ.tdb →
        P (σ.tdb.announce opt now request).2)
    (hvisit : ∀ path, P σ.tdb →
      P (FsTreeWhiteList.visit host.walker σ.tree path σ.tdb))
    (hcheck : P σ.tdb →
      P (FsTreeWhiteList.check opt.torrentDir σ.tree σ.tdb))
    (hcleanup : ∀ now, P σ.tdb → P (σ.tdb.cleanup now))
    (hσ : P σ.tdb) :
    P (step opt host σ e).tdb := by
  have hcases := tdb_step opt host σ e
  cases hrq : announced opt host σ e with
  | some a =>
      obtain ⟨now, request⟩ := a
      rw [hrq] at hcases
      rw [hcases]
      exact hannounce now request hrq hσ
  | none =>
      rw [hrq] at hcases
      rcases hcases with hsame | ⟨path, hstep⟩ | hstep | ⟨now, hstep⟩
      · rw [hsame]
        exact hσ
      · rw [hstep]
        exact hvisit path hσ
      · rw [hstep]
        exact hcheck hσ
      · rw [hstep]
        exact hcleanup now hσ

theorem wellFormed_step {σ : Tracker} (hσ : WellFormed σ.tdb) (e : Event) :
    WellFormed (step opt host σ e).tdb :=
  tdb_step_induction
    (fun now request _ h => TorrentDb.wellFormed_announce h opt now request)
    (fun path h => FsTreeWhiteList.wellFormed_visit h path)
    (fun h => FsTreeWhiteList.wellFormed_check h _ _)
    (fun now h => TorrentDb.wellFormed_cleanup h now) hσ

/-- The database of every reachable tracker is well formed. -/
theorem wellFormed_reachable {tree : Tree} {udp : UdpServer} {σ : Tracker}
    (hσ : Runs.Reachable (step opt host) (start tree udp) σ) :
    WellFormed σ.tdb :=
  hσ.invariant (I := fun σ => WellFormed σ.tdb) TorrentDb.wellFormed_empty
    (fun _ e h => wellFormed_step h e)

end Database

section Sample

/-- A torrent file with both hashes. -/
def sampleDesc : TorrentDesc where
  infoHashV1 := ⟨List.replicate 20 1, rfl⟩
  infoHashV2 := ⟨List.replicate 32 2, rfl⟩
  name := ascii "sample"
  length := 1

def pathA : Path := ascii "/t/a.torrent"

def pathB : Path := ascii "/t/b.torrent"

/-- A walk that knows two paths, and a parser that accepts every file. -/
def sampleHost : Host where
  net := Inet.plain
  walker :=
    { find := fun tree _ _ =>
        [pathA, pathB].filter fun path => (tree.file path).isSome
      parse := fun _ => some sampleDesc }

def sampleOptions : Options :=
  { torrentDir := ascii "/t" }

/-- The tree with one file. -/
def treeWith (path : Path) : Tree :=
  Tree.ofFiles [(path, [])]

/-- The tracker after it has found the file at `pathA`. -/
def listed : Tracker :=
  Runs.run (step sampleOptions sampleHost)
    (start (treeWith pathA) UdpServer.new) [.visit pathA, .check]

theorem reachable_listed :
    Runs.Reachable (step sampleOptions sampleHost)
      (start (treeWith pathA) UdpServer.new) listed :=
  ⟨[.visit pathA, .check], rfl⟩

def sampleClient : Sockaddr :=
  .inet ⟨6881, sampleIp⟩

/-- The announce of a seeder of the sample torrent. -/
def sampleAnnounce : HttpRequest where
  location := ascii "/announce"
  query :=
    [(ascii "peer_id", ascii "-XX0001-000000000001"),
      (ascii "info_hash", sampleDesc.infoHashV1.val),
      (ascii "port", ascii "6881"),
      (ascii "left", ascii "0")]
  headers := []

/-- The tracker after a seeder has announced itself. -/
def seeded : Tracker :=
  Runs.run (step sampleOptions sampleHost) listed
    [.accept 0 sampleClient, .request 0 sampleAnnounce 0 (zeros 18)]

theorem reachable_seeded :
    Runs.Reachable (step sampleOptions sampleHost)
      (start (treeWith pathA) UdpServer.new) seeded :=
  (reachable_listed.next (.accept 0 sampleClient)).next
    (.request 0 sampleAnnounce 0 (zeros 18))

end Sample

end Tracker

end Hefur
