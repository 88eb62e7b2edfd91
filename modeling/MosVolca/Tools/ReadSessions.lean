import MosVolca.Fs.Handles
import MosVolca.Tools.ServedTree

/-!
# Clients that read

Runs of the file server on an image of the formatter in which the clients only read: they open paths,
get blocks inside of the files, mark blocks dirty, close and write back, and map and unmap the pages that
they were sent, in any order. An open that succeeds gets the file of the host, and later, under its
identifier, its bytes.

## Main definitions

* `MosVolca.ReadsOnly` — the events of clients that read.
* `MosVolca.Serving` — the state of the server in such runs.
* `MosVolca.ReadSession` — an open in such a run, and what comes after it.

## Main results

* `MosVolca.Serving.step`, `MosVolca.Serving.run` — one event, and a run.
* `MosVolca.readSession_formatDisk` — what an open and a request for a block get.
-/

namespace MosVolca

variable {n depth i q k off : ℕ} {c c' : Blocks} {t t0 t' : BlockCache} {s s' : FileServer}
  {f g : FilePtr} {d args : HostDir} {x : HostNode} {b : ℕ} {envid fileid omode offset r : Word}
  {path : List Char8} {elems : List (List Char8)} {e : FsEvent} {events : List FsEvent}

/-! ## Nodes that are open -/

/-- The words of a structure show the type and the size of the node. -/
def HostNode.Shows : HostNode → (ℕ → Word) → Prop
  | .file data, words => words 33 = ftypeReg ∧ words 32 = BitVec.ofNat 32 data.length
  | .link target, words => words 33 = ftypeLnk ∧ words 32 = BitVec.ofNat 32 target.length
  | .dir children, words =>
    words 33 = ftypeDir ∧ words 32 = BitVec.ofNat 32 (4096 * blocksFor children.count)

/-- The size that a node shows. -/
lemma HostNode.Shows.size_eq {words words' : ℕ → Word} (h : x.Shows words) (h' : x.Shows words') :
    words 32 = words' 32 := by
  cases x <;> exact h.2.trans h'.2.symm

/-- Only the words of the type and of the size are looked at. -/
lemma HostNode.Shows.congr {words words' : ℕ → Word} (h : x.Shows words)
    (hsame : ∀ k < 34, words' k = words k) : x.Shows words' := by
  have htype := hsame 33 (by decide)
  have hsize := hsame 32 (by decide)
  cases x <;> exact ⟨htype.trans h.1, hsize.trans h.2⟩

namespace IsNode

lemma shows (h : IsNode c f x) : x.Shows fun k => c f.block (f.word + k) := by
  cases x with
  | file data => exact ⟨h.1, h.2.1⟩
  | link target => exact ⟨h.1, h.2.1.1⟩
  | dir children => exact ⟨h.type, h.size⟩

/-- The bytes of the file are in blocks. -/
lemma exists_holds (h : IsNode c f x) (hoff : off < (wordAt c f.size).toNat) :
    ∃ b, Holds c f (.data (off / 4096)) b := by
  have hdata : ∀ data, HasData c f data → ∃ b, Holds c f (.data (off / 4096)) b := by
    rintro data ⟨hsize, hbytes⟩
    rw [hsize, BitVec.toNat_ofNat] at hoff
    obtain ⟨b, hb, -⟩ := hbytes off (hoff.trans_le (Nat.mod_le _ _))
    rw [Nat.zero_add] at hb
    exact ⟨b, blockOf_eq_some.mp hb⟩
  cases x with
  | file data => exact hdata data h.2
  | link target => exact hdata target h.2.1
  | dir children =>
    apply HoldsDir.exists_holds h
    have hsize := HoldsDir.size h
    rw [hsize, BitVec.toNat_ofNat] at hoff
    rw [sizeBlocksOf, hsize, BitVec.toNat_ofNat]
    omega

/-- The bytes of a page of a file. -/
lemma page {data : List Char8} (h : IsNode c f (.file data)) (hold : Holds c f (.data q) b) (hk : k < 4096)
    (hlen : 4096 * q + k < data.length) :
    ByteWords.get (c b) k = data.getD (4096 * q + k) 0 := by
  obtain ⟨b', hb', hget⟩ := h.2.2 (4096 * q + k) hlen
  rw [show 0 + (4096 * q + k) / 4096 = q by omega] at hb'
  rw [show (4096 * q + k) % 4096 = k by omega] at hget
  obtain rfl := Option.some.inj ((blockOf_eq_some.mpr hold).symm.trans hb')
  exact hget

end IsNode

/-- The structure of an open file is one of a node of the host, in the cache, and so is its directory. -/
structure OpenNode (t0 t : BlockCache) (f : FilePtr) : Prop where
  isFile : IsFile t0.content f
  mapped : t.mapped f.block = true
  dir : DirCached t f
  node : ∃ x, IsNode t0.content f x

/-- **The state of a server whose clients only read**: the tree is still the one after the start, and the
open files are nodes of it. -/
structure Serving (t0 : BlockCache) (s : FileServer) : Prop where
  visits : Visits t0 s.cache
  root : DirCached s.cache FilePtr.root
  files : ∀ i f, (s.opentab i).file = some f → OpenNode t0 s.cache f
  ids : ∀ i < maxopen, (s.opentab i).fileid.toNat % maxopen = i

/-- The events of clients that read. A block is asked for only inside of the file. -/
def ReadsOnly (s : FileServer) : FsEvent → Prop
  | .request _ (.openFile path omode) => (0 : Char8) ∉ path ∧ omode &&& oCreat = 0 ∧ omode &&& oMkdir = 0
  | .request _ (.openat _ path _) => (0 : Char8) ∉ path
  | .request _ (.map fileid offset) =>
    OnFile s fileid fun f => offset.toNat < (s.cache.load f.size).toNat
  | .request _ (.close _) | .request _ (.dirty _ _) | .request _ .sync => True
  | .request _ (.setSize _ _) | .request _ (.remove _) => False
  | .share _ _ | .memory _ => True
  | .store _ _ _ => False

/-- The event is an open. -/
def FsEvent.isOpen : FsEvent → Bool
  | .request _ (.openFile _ _) | .request _ (.openat _ _ _) => true
  | _ => false

/-! ## One event -/

/-- The entry is as it was, up to what clients do with its page. -/
def SameEntry (s s' : FileServer) (i : ℕ) : Prop :=
  (s'.opentab i).file = (s.opentab i).file ∧ (s'.opentab i).fileid = (s.opentab i).fileid

lemma sameEntry_of_eq (h : s'.opentab i = s.opentab i) : SameEntry s s' i :=
  ⟨congrArg Open.file h, congrArg Open.fileid h⟩

/-- The mappings of its page are no part of an entry. -/
lemma sameEntry_share (s : FileServer) (i : ℕ) (n : ℕ) (j : ℕ) :
    SameEntry s (s.setOpen i { s.opentab i with pageref := n }) j := by
  by_cases hj : j = i
  · unfold SameEntry
    rw [hj, setOpen_self]
    exact ⟨rfl, rfl⟩
  · exact sameEntry_of_eq (setOpen_of_ne hj)

/-- What an event does to the table: an entry changes with its identifier only. -/
structure ReadStep (t0 : BlockCache) (s : FileServer) (taken : Bool) (s' : FileServer) : Prop where
  serving : Serving t0 s'
  entry : ∀ i, SameEntry s s' i ∨
    taken = true ∧ (s'.opentab i).fileid = (s.opentab i).fileid + 1024

lemma OpenNode.keep (h : OpenNode t0 t f) (hv : Visits t t') (hk : KeepsDirs t t') : OpenNode t0 t' f :=
  ⟨h.isFile, hv.same.mapped _ h.mapped, hk f h.mapped h.dir, h.node⟩

namespace Serving

variable (hs : Serving t0 s)

include hs in
/-- The cache changes, the table does not. -/
lemma setCache (hv : Visits s.cache s'.cache) (hk : KeepsDirs s.cache s'.cache)
    (htab : ∀ i, SameEntry s s' i) : Serving t0 s' where
  visits := hs.visits.trans hv
  root := hk _ hs.visits.inv.root.mapped hs.root
  files i f hf := (hs.files i f ((htab i).1 ▸ hf)).keep hv hk
  ids i hi := by
    rw [(htab i).2]
    exact hs.ids i hi

include hs in
/-- A request that only reads, and sends its result. -/
lemma loads {reply : Reply} {taken : Bool} (hl : Loads s.cache t) :
    ReadStep t0 s taken (FileServer.ipcSend { s with cache := t } reply) where
  serving := hs.setCache (hl.visits hs.visits.inv) hl.keepsDirs fun _ => ⟨rfl, rfl⟩
  entry _ := .inl ⟨rfl, rfl⟩

include hs in
/-- `open_alloc` takes an entry, whose file stays. -/
lemma openAlloc : Loads s.cache (MosVolca.openAlloc s).2.2.cache ∧
    Serving t0 (MosVolca.openAlloc s).2.2 ∧
    ∀ i, ((MosVolca.openAlloc s).2.2.opentab i).file = (s.opentab i).file ∧
      (SameEntry s (MosVolca.openAlloc s).2.2 i ∨ (MosVolca.openAlloc s).2.1 = some i ∧
        ((MosVolca.openAlloc s).2.2.opentab i).fileid = (s.opentab i).fileid + 1024) := by
  have hl : Loads s.cache (MosVolca.openAlloc s).2.2.cache := by
    unfold MosVolca.openAlloc
    split
    · exact .refl _
    · simp only
      split_ifs
      · exact .refl _
      · exact ⟨rfl, fun _ hb => hb, rfl, rfl⟩
      · exact ⟨rfl, fun _ hb => hb, rfl, rfl⟩
  have hv := hl.visits hs.visits.inv
  rcases openAlloc_cases s with ⟨-, ht⟩ | ⟨j, hj, -, hsome, ht⟩
  · have hsame : ∀ i, SameEntry s (MosVolca.openAlloc s).2.2 i := fun i =>
      sameEntry_of_eq (congrFun ht i)
    exact ⟨hl, hs.setCache hv hl.keepsDirs hsame, fun i => ⟨(hsame i).1, .inl (hsame i)⟩⟩
  · have hother : ∀ i, i ≠ j → (MosVolca.openAlloc s).2.2.opentab i = s.opentab i := fun i hi => by
      rw [ht, Function.update_of_ne hi]
    have hself : ((MosVolca.openAlloc s).2.2.opentab j).file = (s.opentab j).file ∧
        ((MosVolca.openAlloc s).2.2.opentab j).fileid = (s.opentab j).fileid + 1024 := by
      rw [ht, Function.update_self]
      exact ⟨rfl, rfl⟩
    have hfile : ∀ i, ((MosVolca.openAlloc s).2.2.opentab i).file = (s.opentab i).file := by
      intro i
      by_cases hi : i = j
      · rw [hi, hself.1]
      · rw [hother i hi]
    refine ⟨hl, ⟨hs.visits.trans hv, hl.keepsDirs _ hs.visits.inv.root.mapped hs.root, ?_, ?_⟩, ?_⟩
    · intro i f hf
      exact (hs.files i f (hfile i ▸ hf)).keep hv hl.keepsDirs
    · intro i hi
      by_cases hij : i = j
      · subst hij
        have hid := hs.ids i hi
        rw [hself.2, BitVec.toNat_add]
        unfold maxopen at hid ⊢
        show ((s.opentab i).fileid.toNat + 1024) % 2 ^ 32 % 1024 = i
        omega
      · rw [hother i hij]
        exact hs.ids i hi
    · intro i
      refine ⟨hfile i, ?_⟩
      by_cases hij : i = j
      · subst hij
        exact .inr ⟨hsome, hself.2⟩
      · exact .inl (sameEntry_of_eq (hother i hij))

/-- An entry that has just been filled: the fields of its page. -/
structure FilledEntry (o : Open) (omode : Word) : Prop where
  devId : o.ff.devId = devfileId
  offset : o.ff.offset = 0
  omode : o.ff.omode = omode
  fileid : o.ff.fileid = o.fileid
  pageref : o.pageref = 1

/-- An open ends with an answer: an error, or the page of an entry with a node of the host, which shows
the type and the size of the node. -/
def OpenAnswer (t0 : BlockCache) (omode : Word) (P : HostNode → Prop) (s' : FileServer) : Prop :=
  ∀ envid i, s'.replies.getLast? = some (.filefd envid i) → i < maxopen ∧
    FilledEntry (s'.opentab i) omode ∧ ∃ f x, (s'.opentab i).file = some f ∧
      IsNode t0.content f x ∧ P x ∧ x.Shows (s'.opentab i).ff.file

include hs in
/-- The end of an open. -/
lemma finishOpen {o : Option ℕ} {file : Option FilePtr} {P : HostNode → Prop}
    (ho : ∀ i, o = some i → i < maxopen ∧ (s.opentab i).ff = Filefd.zero ∧ (s.opentab i).pageref = 1)
    (hf : ∀ f, file = some f → OpenNode t0 s.cache f ∧ ∃ x, IsNode t0.content f x ∧ P x)
    (h : finishOpen s envid omode o file = .ok s') :
    Serving t0 s' ∧ OpenAnswer t0 omode P s' ∧ ∀ i, o ≠ some i → SameEntry s s' i := by
  have hcache := finishOpen_cache h
  obtain ⟨j, f, rfl, rfl, hreply, hother, hfile, hid, hffid, href⟩ := finishOpen_cases h
  obtain ⟨hopen, x, hx, hP⟩ := hf f rfl
  obtain ⟨hj, hzero, hone⟩ := ho j rfl
  have hfilled : FilledEntry (s'.opentab j) omode := by
    have hfields : (s'.opentab j).ff.devId = devfileId ∧
        (s'.opentab j).ff.offset = (s.opentab j).ff.offset ∧ (s'.opentab j).ff.omode = omode := by
      unfold MosVolca.finishOpen at h
      obtain ⟨g, -, h1⟩ := bind_eq_ok.mp h
      obtain rfl := Except.ok.inj h1
      simp [FileServer.ipcSend, FileServer.setOpen]
    exact ⟨hfields.1, hfields.2.1.trans (congrArg Filefd.offset hzero), hfields.2.2, hffid.trans hid.symm,
      href.trans hone⟩
  have hwords : ∀ k < 34, (s'.opentab j).ff.file k = t0.content f.block (f.word + k) := by
    intro k hk
    unfold MosVolca.finishOpen at h
    obtain ⟨g, hg, h1⟩ := bind_eq_ok.mp h
    cases hg
    obtain rfl := Except.ok.inj h1
    show ((s.setOpen j _).opentab j).ff.file k = _
    rw [setOpen_self]
    show (if k < 64 then s.cache.mem f.block (f.word + k) else 0) = _
    rw [if_pos (by omega), ← content_of_mapped hopen.mapped]
    exact hs.visits.browses.head f hopen.isFile.dirent k hk
  refine ⟨⟨hcache ▸ hs.visits, hcache ▸ hs.root, fun i g hg => ?_, fun i hi => ?_⟩, ?_, fun i hi => ?_⟩
  · by_cases hij : i = j
    · subst hij
      rw [hfile] at hg
      cases hg
      exact hcache ▸ hopen
    · rw [hother i hij] at hg
      exact hcache ▸ hs.files i g hg
  · by_cases hij : i = j
    · rw [hij, hid, ← hij]
      exact hs.ids i hi
    · rw [hother i hij]
      exact hs.ids i hi
  · intro envid' i hl
    obtain ⟨-, rfl⟩ : envid = envid' ∧ j = i := by simpa using hreply.symm.trans hl
    exact ⟨hj, hfilled, f, x, hfile, hx, hP, hx.shows.congr hwords⟩
  · exact sameEntry_of_eq (hother i fun heq => hi (congrArg some heq.symm))

/-- The entry that `open_alloc` takes. -/
lemma openAlloc_taken (h : (MosVolca.openAlloc s).2.1 = some i) : i < maxopen ∧
    ((MosVolca.openAlloc s).2.2.opentab i).ff = Filefd.zero ∧
      ((MosVolca.openAlloc s).2.2.opentab i).pageref = 1 := by
  rcases openAlloc_cases s with ⟨hnone, -⟩ | ⟨j, hj, -, hsome, ht⟩
  · exact nomatch hnone.symm.trans h
  · rw [hsome] at h
    cases h
    rw [ht, Function.update_self]
    exact ⟨hj, rfl, rfl⟩

/-- The state in which an open is answered: an entry is taken, and the walk has been made. -/
structure Walked (t0 : BlockCache) (s t : FileServer) (file : Option FilePtr) (P : HostNode → Prop) :
    Prop where
  serving : Serving t0 t
  table : t.opentab = (MosVolca.openAlloc s).2.2.opentab
  found : ∀ f, file = some f → OpenNode t0 t.cache f ∧ ∃ x, IsNode t0.content f x ∧ P x

include hs in
/-- The answer to an open is an error. -/
lemma Walked.failed {file : Option FilePtr} {P : HostNode → Prop} {t : FileServer}
    (hw : Walked t0 s t file P) (h : s' = t.ipcSend (.value envid r)) :
    ReadStep t0 s true s' ∧ OpenAnswer t0 omode P s' := by
  subst h
  obtain ⟨-, -, hentry⟩ := hs.openAlloc
  refine ⟨⟨⟨hw.serving.visits, hw.serving.root, hw.serving.files, hw.serving.ids⟩, fun i => ?_⟩, ?_⟩
  · have htab : (t.ipcSend (.value envid r)).opentab = (MosVolca.openAlloc s).2.2.opentab := hw.table
    unfold SameEntry
    rw [htab]
    exact (hentry i).2.imp_right fun h => ⟨rfl, h.2⟩
  · intro envid' i hl
    exact absurd hl (sentNoFile_value _ _ _ envid' i)

include hs in
/-- The answer to an open is the page of an entry. -/
lemma Walked.finished {file : Option FilePtr} {P : HostNode → Prop} {t : FileServer}
    (hw : Walked t0 s t file P)
    (h : MosVolca.finishOpen t envid omode (MosVolca.openAlloc s).2.1 file = .ok s') :
    ReadStep t0 s true s' ∧ OpenAnswer t0 omode P s' := by
  obtain ⟨-, -, hentry⟩ := hs.openAlloc
  obtain ⟨hserving, hanswer, hother⟩ :=
    hw.serving.finishOpen (fun i hi => hw.table ▸ openAlloc_taken hi) hw.found h
  refine ⟨⟨hserving, fun i => ?_⟩, hanswer⟩
  by_cases hi : (MosVolca.openAlloc s).2.1 = some i
  · -- the entry that is filled
    right
    refine ⟨rfl, ?_⟩
    obtain ⟨j, f, hj, -, -, -, -, hid, -⟩ := finishOpen_cases h
    rw [hj] at hi
    cases hi
    rw [hid, hw.table]
    rcases openAlloc_cases s with ⟨hnone, -⟩ | ⟨k, -, -, hk, ht⟩
    · exact nomatch hnone.symm.trans hj
    · rw [hk] at hj
      cases hj
      rw [ht, Function.update_self]
  · have hsame := hother i hi
    unfold SameEntry at hsame ⊢
    rw [hw.table] at hsame
    rcases (hentry i).2 with h0 | ⟨h0, -⟩
    · exact .inl ⟨hsame.1.trans h0.1, hsame.2.trans h0.2⟩
    · exact absurd h0 hi

/-- The walk has been made in the cache. -/
lemma walked {file : Option FilePtr} {P : HostNode → Prop} {t : FileServer} (hs : Serving t0 s)
    (htab : t.opentab = (MosVolca.openAlloc s).2.2.opentab)
    (hv : Visits (MosVolca.openAlloc s).2.2.cache t.cache)
    (hk : KeepsDirs (MosVolca.openAlloc s).2.2.cache t.cache)
    (hfound : ∀ f, file = some f → OpenNode t0 t.cache f ∧ ∃ x, IsNode t0.content f x ∧ P x) :
    Walked t0 s t file P := by
  obtain ⟨-, hs1, -⟩ := hs.openAlloc
  exact ⟨hs1.setCache hv hk fun i => sameEntry_of_eq (congrFun htab i), htab, hfound⟩

/-- **`serve_open`** of a path that is only read. -/
theorem serveOpen (ht : ServesTree d t0) (hs : Serving t0 s) (hp : (0 : Char8) ∉ path)
    (hcreat : omode &&& oCreat = 0) (hmkdir : omode &&& oMkdir = 0)
    (h : serveOpen s depth envid path omode = .ok s') :
    ReadStep t0 s true s' ∧ OpenAnswer t0 omode (fun x => d.follow depth path = some (some x)) s' := by
  obtain ⟨-, hs1, -⟩ := hs.openAlloc
  unfold MosVolca.serveOpen at h
  simp only [sendError_cache] at h
  obtain ⟨⟨r, file, c⟩, hopen, h1⟩ := bind_eq_ok.mp h
  unfold fileOpen at hopen
  obtain ⟨⟨w, c'⟩, hwalk, h2⟩ := bind_eq_ok.mp hopen
  cases h2
  obtain ⟨hv, hfound, r', hfollow, hanswer⟩ :=
    walkPath_answers ht.tree ht.small hs1.visits hp hwalk
  have hi := (ht.tree.intact ht.small).of_visits hs1.visits
  obtain ⟨hk, hdirs⟩ := hs1.visits.inv.walkPath_dirs hi hp hs1.root hwalk
  have hw : ∀ t : FileServer, t.opentab = (MosVolca.openAlloc s).2.2.opentab → t.cache = c →
      Walked t0 s t w.file (fun x => d.follow depth path = some (some x)) := by
    rintro t htab rfl
    apply walked hs htab hv hk
    intro f hf
    have hfile := hanswer.file
    cases r' with
    | none => exact nomatch hfile.symm.trans hf
    | some x =>
      obtain ⟨g, hg, hx⟩ := hfile
      obtain rfl := Option.some.inj (hg.symm.trans hf)
      exact ⟨⟨(hfound g hf).2, (hfound g hf).1, hdirs g hf, x, hx⟩, x, hx, hfollow⟩
  simp only at h1
  split_ifs at h1 with hr
  · -- nothing is there, and nothing is made
    have hmiss : openMissing c depth path omode w.code w.file = .ok (w.code, w.file, c) := by
      unfold openMissing
      rw [if_neg (not_not_intro hcreat), if_neg (not_not_intro hmkdir)]
      rfl
    rw [hmiss, ok_bind] at h1
    simp only [if_pos hr] at h1
    refine Walked.failed hs (hw _ ?_ ?_) (Except.ok.inj h1).symm
    · exact sendError_opentab _ _ _
    · rfl
  · rw [pure_eq_ok, ok_bind] at h1
    simp only [if_neg hr] at h1
    refine Walked.finished hs (hw _ ?_ ?_) h1
    · exact sendError_opentab _ _ _
    · rfl

/-- **`serve_openat`**, which follows no links. -/
theorem serveOpenat {y : HostNode} (ht : ServesTree d t0) (hs : Serving t0 s) (hp : (0 : Char8) ∉ path)
    (hdirs : ∀ j f, openLookup (MosVolca.openAlloc s).2.2 fileid = some j →
      (s.opentab j).file = some f → IsNode t0.content f y)
    (h : serveOpenat s envid fileid path omode = .ok s') :
    ReadStep t0 s true s' ∧
      OpenAnswer t0 omode (fun x => y.resolve (pathElems path) = some x) s' := by
  obtain ⟨-, hs1, hentry⟩ := hs.openAlloc
  unfold MosVolca.serveOpenat at h
  have hlook : ∀ r, openLookup (sendError (MosVolca.openAlloc s).2.2 envid r) fileid =
      openLookup (MosVolca.openAlloc s).2.2 fileid := by
    intro r
    unfold openLookup
    rw [sendError_opentab]
  simp only [hlook, sendError_cache, sendError_opentab] at h
  split at h
  · -- the identifier of the directory is refused
    refine Walked.failed hs (t := sendError _ envid _) (?_ : Walked t0 s _ none _) (Except.ok.inj h).symm
    apply walked hs (sendError_opentab _ _ _)
    · rw [sendError_cache]
      exact (Loads.refl _).visits hs1.visits.inv
    · rw [sendError_cache]
      exact (Loads.refl _).keepsDirs
    · intro f hf
      exact nomatch hf
  · rename_i j hj
    obtain ⟨dir, hderef, h1⟩ := bind_eq_ok.mp h
    have hdir : ((MosVolca.openAlloc s).2.2.opentab j).file = some dir := by
      cases hfile : ((MosVolca.openAlloc s).2.2.opentab j).file with
      | none =>
        rw [hfile] at hderef
        cases hderef
      | some g =>
        rw [hfile] at hderef
        cases hderef
        rfl
    obtain ⟨⟨r, file, c⟩, hopen, h2⟩ := bind_eq_ok.mp h1
    unfold fileOpenat walkPathAt at hopen
    obtain ⟨⟨w, c'⟩, hwalk, h3⟩ := bind_eq_ok.mp hopen
    cases h3
    obtain ⟨hisfile, hmapped, hcached, -⟩ := hs1.files j dir hdir
    have hy := hdirs j dir hj ((hentry j).1 ▸ hdir)
    have hnames := isName_pathElems hp
    have hi := (ht.tree.intact ht.small).of_visits hs1.visits
    have hisfile' := hs1.visits.isFile_iff.mpr hisfile
    obtain ⟨hv, hw, hmap⟩ := hs1.visits.inv.walkElems_whole hi.whole hisfile' hmapped hnames hwalk
    obtain ⟨hk, hcached'⟩ :=
      hs1.visits.inv.walkElems_dirs hi.small hi.whole hisfile' hmapped hnames hcached hwalk
    rw [hs1.visits.browses.walkOf hisfile hnames] at hw
    have hwalks : LeadsTo t0.content (walkOf t0.content none dir (pathElems path))
        (y.resolve (pathElems path)) := hy.walkOf_resolve hnames
    rw [← hw] at hwalks
    have hwalked : ∀ t : FileServer, t.opentab = (MosVolca.openAlloc s).2.2.opentab → t.cache = c →
        Walked t0 s t w.file (fun x => y.resolve (pathElems path) = some x) := by
      rintro t htab rfl
      apply walked hs htab hv hk
      intro f hf
      cases hres : y.resolve (pathElems path) with
      | none =>
        rw [hres] at hwalks
        exact nomatch hwalks.2.symm.trans hf
      | some x =>
        rw [hres] at hwalks
        obtain ⟨-, g, hg, hx⟩ := hwalks
        obtain rfl := Option.some.inj (hg.symm.trans hf)
        refine ⟨⟨?_, hmap g hf, hcached' g hf, x, hx⟩, x, hx, rfl⟩
        rw [hw] at hf
        exact walkOf_isFile hisfile hnames hf
    simp only at h2
    split_ifs at h2 with hr
    · refine Walked.failed hs (hwalked _ ?_ ?_) (Except.ok.inj h2).symm <;> rfl
    · refine Walked.finished hs (hwalked _ ?_ ?_) h2 <;> rfl

include hs in
/-- The identifier is refused. -/
lemma refused {taken : Bool} (h : s' = s.ipcSend (.value envid r)) : ReadStep t0 s taken s' := by
  subst h
  exact hs.loads (t := s.cache) (.refl _)

include hs in
/-- The size of an open file. -/
lemma load_size (hf : (s.opentab i).file = some f) :
    s.cache.load f.size = wordAt t0.content f.size := by
  obtain ⟨hisfile, hmapped, -⟩ := hs.files i f hf
  rw [load_eq (p := f.size) hmapped]
  exact hs.visits.browses.head f hisfile.dirent 32 (by decide)

include hs in
/-- A block inside of an open file. -/
lemma held (hf : (s.opentab i).file = some f) (hlt : off < (wordAt t0.content f.size).toNat) :
    ∃ b, Holds t0.content f (.data (off / 4096)) b ∧ Holds s.cache.content f (.data (off / 4096)) b := by
  obtain ⟨hisfile, -, -, x, hx⟩ := hs.files i f hf
  obtain ⟨b, hold⟩ := hx.exists_holds hlt
  exact ⟨b, hold, hs.visits.browses.kept f _ b hisfile.dirent hold⟩

include hs in
/-- **`serve_map`** of a block inside of an open file. -/
theorem serveMap (hi : openLookup s fileid = some i) (hf : (s.opentab i).file = some f)
    (hlt : offset.toNat < (wordAt t0.content f.size).toNat)
    (h : serveMap s envid fileid offset = .ok s') :
    ∃ b c, Holds t0.content f (.data (offset.toNat / 4096)) b ∧ Loads s.cache c ∧
      c.mapped b = true ∧ s' = FileServer.ipcSend { s with cache := c } (.block envid b) := by
  obtain ⟨b, hold, hold'⟩ := hs.held hf hlt
  unfold MosVolca.serveMap serveBlock serveFile at h
  rw [if_neg (Nat.not_le.mpr hold.lt_nindirect), hi] at h
  simp only [hf, derefFile, pure_eq_ok, ok_bind] at h
  obtain ⟨⟨y, c⟩, hget, h1⟩ := bind_eq_ok.mp h
  obtain ⟨rfl, hload, hb, -⟩ := fileGetBlock_held (hs.files i f hf).mapped hold' hget
  exact ⟨b, c, hold, hload, hb, (Except.ok.inj h1).symm⟩

include hs in
/-- With pages for the cache it returns. -/
lemma serveMap_granted (ht : ServesTree d t0) (hpages : HasPages s.cache)
    (hi : openLookup s fileid = some i) (hf : (s.opentab i).file = some f)
    (hlt : offset.toNat < (wordAt t0.content f.size).toNat) :
    ∃ s', MosVolca.serveMap s envid fileid offset = .ok s' ∧ HasPages s'.cache := by
  obtain ⟨b, hold, hold'⟩ := hs.held hf hlt
  obtain ⟨hisfile, hmapped, -⟩ := hs.files i f hf
  obtain ⟨c, hget, hpages'⟩ := hs.visits.inv.fileGetBlock_granted hpages
    (hs.visits.nblocks.trans_le ht.small) (hs.visits.isFile_iff.mpr hisfile).dirent hmapped hold'
  unfold MosVolca.serveMap serveBlock serveFile
  rw [if_neg (Nat.not_le.mpr hold.lt_nindirect), hi]
  simp only [hf, derefFile, pure_eq_ok, ok_bind, hget]
  exact ⟨_, rfl, hpages'⟩

include hs in
/-- A block of a file in the cache has the bytes of the image. -/
lemma mem_block {data : List Char8} (hf : (s.opentab i).file = some f)
    (hx : IsNode t0.content f (.file data)) (hold : Holds t0.content f (.data q) b)
    (hload : Loads s.cache t) (hb : t.mapped b = true) : t.mem b = t0.content b := by
  have hplain : wordAt t0.content f.type ≠ ftypeDir := by
    rw [hx.1]
    decide
  have hv := hs.visits.trans (hload.visits hs.visits.inv)
  rw [← content_of_mapped hb]
  funext k
  exact hv.browses.data f q b (hs.files i f hf).isFile.dirent hplain hold k

/-- **One event** of clients that read. -/
theorem step (ht : ServesTree d t0) (hs : Serving t0 s) (hread : ReadsOnly s e)
    (h : fsStep depth s e = .ok s') : ReadStep t0 s e.isOpen s' := by
  cases e with
  | request envid req =>
    cases req with
    | openFile path omode => exact (serveOpen ht hs hread.1 hread.2.1 hread.2.2 h).1
    | openat dirFileid path omode =>
      obtain ⟨y, hy⟩ : ∃ y, ∀ j f, openLookup (MosVolca.openAlloc s).2.2 dirFileid = some j →
          (s.opentab j).file = some f → IsNode t0.content f y := by
        by_cases hex : ∃ j f, openLookup (MosVolca.openAlloc s).2.2 dirFileid = some j ∧
            (s.opentab j).file = some f
        · obtain ⟨j, f, hj, hf⟩ := hex
          obtain ⟨y, hy⟩ := (hs.files j f hf).node
          refine ⟨y, fun j' f' hj' hf' => ?_⟩
          obtain rfl := Option.some.inj (hj.symm.trans hj')
          obtain rfl := Option.some.inj (hf.symm.trans hf')
          exact hy
        · exact ⟨.file [], fun j f hj hf => absurd ⟨j, f, hj, hf⟩ hex⟩
      exact (serveOpenat ht hs hread hy h).1
    | map fileid offset =>
      rw [fsStep, serveRequest] at h
      rcases serveBlock_cases (show serveBlock _ _ _ _ _ = _ from h) with hr | ⟨i, f, hi, hf, -⟩
      · exact hs.refused hr
      · obtain ⟨b, c, -, hload, -, rfl⟩ := hs.serveMap hi hf (hs.load_size hf ▸ hread i f hi hf) h
        exact hs.loads hload
    | setSize fileid size => exact hread.elim
    | remove path => exact hread.elim
    | close fileid =>
      rw [fsStep, serveRequest, serveClose] at h
      rcases serveFile_cases h with hr | ⟨i, f, -, hf, hwork⟩
      · exact hs.refused hr
      · obtain ⟨c, hclose, h1⟩ := bind_eq_ok.mp hwork
        obtain rfl := Except.ok.inj h1
        obtain ⟨-, hmapped, hdir, -⟩ := hs.files i f hf
        exact hs.loads (fileClose_loads hdir hmapped hclose)
    | dirty fileid offset =>
      rw [fsStep, serveRequest, serveDirty] at h
      rcases serveBlock_cases h with hr | ⟨i, f, -, -, hwork⟩
      · exact hs.refused hr
      · obtain ⟨⟨r, c⟩, hdirty, h1⟩ := bind_eq_ok.mp hwork
        obtain rfl := Except.ok.inj h1
        exact hs.loads (fileDirty_loads hdirty)
    | sync =>
      obtain ⟨c, hsync, h1⟩ := bind_eq_ok.mp h
      obtain rfl := Except.ok.inj h1
      exact hs.loads (fsSync_loads hsync)
  | share i n =>
    obtain rfl := Except.ok.inj h
    exact ⟨hs.setCache ((Loads.refl _).visits hs.visits.inv) (Loads.refl _).keepsDirs
      (sameEntry_share s i n), fun j => .inl (sameEntry_share s i n j)⟩
  | store b k w => exact hread.elim
  | memory grants =>
    obtain rfl := Except.ok.inj h
    have hload : Loads s.cache { s.cache with grants := grants } := ⟨rfl, fun _ hb => hb, rfl, rfl⟩
    exact ⟨hs.setCache (hload.visits hs.visits.inv) hload.keepsDirs fun _ => ⟨rfl, rfl⟩,
      fun _ => .inl ⟨rfl, rfl⟩⟩

end Serving

/-! ## Runs -/

/-- The number of opens in a run. -/
def opensIn (events : List FsEvent) : ℕ := events.countP FsEvent.isOpen

/-- The entry was taken at most `m` times, and every time its identifier has become another one. -/
def TakenUpTo (m : ℕ) (s s' : FileServer) (i : ℕ) : Prop :=
  ∃ k ≤ m, (s'.opentab i).fileid = (s.opentab i).fileid + BitVec.ofNat 32 (1024 * k) ∧
    (k = 0 → (s'.opentab i).file = (s.opentab i).file)

lemma TakenUpTo.step {m : ℕ} {s1 : FileServer} {taken : Bool} (h : TakenUpTo m s s1 i)
    (hstep : SameEntry s1 s' i ∨
      taken = true ∧ (s'.opentab i).fileid = (s1.opentab i).fileid + 1024) :
    TakenUpTo (m + taken.toNat) s s' i := by
  obtain ⟨k, hk, hid, hfile⟩ := h
  rcases hstep with ⟨hfile', hid'⟩ | ⟨rfl, hid'⟩
  · refine ⟨k, by omega, hid'.trans hid, fun h0 => hfile'.trans (hfile h0)⟩
  · refine ⟨k + 1, Nat.succ_le_succ hk, ?_, fun h0 => absurd h0 (Nat.succ_ne_zero k)⟩
    rw [hid', hid, Nat.mul_succ, BitVec.ofNat_add, BitVec.add_assoc]
    rfl

/-- Below 2 ^ 22 opens an identifier does not come back, and the entry still has its file. -/
lemma TakenUpTo.same {m : ℕ} (h : TakenUpTo m s s' i) (hm : m < 2 ^ 22)
    (hid : (s'.opentab i).fileid = (s.opentab i).fileid) :
    (s'.opentab i).file = (s.opentab i).file := by
  obtain ⟨k, hk, hid', hfile⟩ := h
  apply hfile
  have hnat := congrArg BitVec.toNat (hid'.symm.trans hid)
  rw [BitVec.toNat_add, BitVec.toNat_ofNat] at hnat
  have hlt := (s.opentab i).fileid.isLt
  omega

/-- **A run** of clients that read. -/
theorem Serving.run (ht : ServesTree d t0) (hs : Serving t0 s)
    (hread : RunAll ReadsOnly depth s events) (h : fsRun depth s events = .ok s') :
    Serving t0 s' ∧ ∀ i, TakenUpTo (opensIn events) s s' i := by
  induction events using List.reverseRecOn generalizing s' with
  | nil =>
    obtain rfl := Except.ok.inj h
    exact ⟨hs, fun i => ⟨0, le_rfl, (BitVec.add_zero _).symm, fun _ => rfl⟩⟩
  | append_singleton events e ih =>
    obtain ⟨s1, hrun, hlast⟩ := fsRun_prefix h
    obtain ⟨hpre, hlastread⟩ := runAll_append hread hrun
    obtain ⟨hs1, htaken⟩ := ih hpre hrun
    have hstep : fsStep depth s1 e = .ok s' := by
      rw [fsRun, List.foldlM_cons] at hlast
      obtain ⟨s2, hstep, h2⟩ := bind_eq_ok.mp hlast
      exact Except.ok.inj h2 ▸ hstep
    have hread := hs1.step ht hlastread.1 hstep
    refine ⟨hread.serving, fun i => ?_⟩
    have hcount : opensIn (events ++ [e]) = opensIn events + e.isOpen.toNat := by
      unfold opensIn
      rw [List.countP_append, List.countP_singleton]
      cases e.isOpen <;> rfl
    rw [hcount]
    exact (htaken i).step (hread.entry i)

/-! ## Sessions -/

/-- What `open_lookup` finds has the identifier. -/
lemma openLookup_some (h : openLookup s fileid = some i) :
    i = fileid.toNat % maxopen ∧ (s.opentab i).fileid = fileid := by
  unfold openLookup at h
  simp only at h
  split_ifs at h with hno
  cases h
  exact ⟨rfl, not_not.mp (not_or.mp hno).2⟩

/-- **A session**: after any run that only reads, an open of the path is answered with entry `i`, in the
state `s`, and after another such run the server is in the state `s'`. -/
def ReadSession (depth : ℕ) (t : BlockCache) (path : List Char8) (i : ℕ) (s s' : FileServer) : Prop :=
  ∃ pre post envid omode s1,
    RunAll ReadsOnly depth (serveInit t) (pre ++ .request envid (.openFile path omode) :: post) ∧
    fsRun depth (serveInit t) pre = .ok s1 ∧ serveOpen s1 depth envid path omode = .ok s ∧
    s.replies.getLast? = some (.filefd envid i) ∧ fsRun depth s post = .ok s' ∧
    opensIn post < 2 ^ 22 - 1

/-- What a request for a block gets with an identifier of the node: the block, with the bytes of the
file, or an error if the identifier is not in use any more. -/
def MapAnswers (x : HostNode) (s : FileServer) (envid fileid offset : Word) : Prop :=
  (HasPages s.cache → ∃ s', serveMap s envid fileid offset = .ok s') ∧
    ∀ s', serveMap s envid fileid offset = .ok s' →
      (openLookup s fileid = none ∧ s' = s.ipcSend (.value envid (-eInval))) ∨
        openLookup s fileid ≠ none ∧ ∃ b, s'.replies.getLast? = some (.block envid b) ∧
          ∀ data, x = .file data → ∀ k < 4096, 4096 * (offset.toNat / 4096) + k < data.length →
            ByteWords.get (s'.cache.mem b) k = data.getD (4096 * (offset.toNat / 4096) + k) 0

lemma serving_serveInit (ht : ServesTree d t0) : Serving t0 (serveInit t0) where
  visits := (Loads.refl t0).visits ht.inv
  root := ht.root
  files i f hf := nomatch hf
  ids i hi := by
    show (BitVec.ofNat 32 i).toNat % maxopen = i
    unfold maxopen at hi ⊢
    rw [BitVec.toNat_ofNat]
    omega

/-- The state of a session: the node that the open got, and the entry as long as it has the
identifier. -/
lemma ReadSession.opened (ht : ServesTree d t0) (h : ReadSession depth t0 path i s s') :
    Serving t0 s' ∧ ∃ f x, IsNode t0.content f x ∧ d.follow depth path = some (some x) ∧
      x.Shows (s.opentab i).ff.file ∧
      ∀ j u, (u = s' ∨ u = (openAlloc s').2.2) → openLookup u (s.opentab i).fileid = some j →
        (s'.opentab j).file = some f := by
  obtain ⟨pre, post, envid, omode, s1, hreads, hpre, hopen, hreply, hpost, hfew⟩ := h
  obtain ⟨hread1, hread2, hreads2⟩ := runAll_append hreads hpre
  obtain ⟨hs1, -⟩ := (serving_serveInit ht).run ht hread1 hpre
  obtain ⟨hstep, hanswer⟩ := Serving.serveOpen ht hs1 hread2.1 hread2.2.1 hread2.2.2 hopen
  obtain ⟨hi, -, f, x, hfile, hx, hfollow, hshows⟩ := hanswer envid i hreply
  have hs := hstep.serving
  obtain ⟨hs', htaken⟩ := hs.run ht (hreads2 s hopen) hpost
  refine ⟨hs', f, x, hx, hfollow, hshows, fun j u hu hj => ?_⟩
  obtain ⟨hmod, hid⟩ := openLookup_some hj
  rw [hs.ids i hi] at hmod
  subst hmod
  rw [← hfile]
  obtain ⟨-, -, hentry⟩ := hs'.openAlloc
  rcases hu with rfl | rfl
  · exact (htaken j).same (by omega) hid
  · -- `serve_openat` has taken an entry
    have htwice : TakenUpTo (opensIn post + true.toNat) s (openAlloc s').2.2 j :=
      (htaken j).step ((hentry j).2.imp_right fun h => ⟨rfl, h.2⟩)
    rw [← (hentry j).1]
    exact htwice.same (by show opensIn post + 1 < 2 ^ 22; omega) hid

/-- **What a session reads.** -/
theorem ReadSession.mapAnswers (ht : ServesTree d t0) (h : ReadSession depth t0 path i s s') :
    ∃ x, d.follow depth path = some (some x) ∧ x.Shows (s.opentab i).ff.file ∧
      ∀ envid offset, offset.toNat < ((s.opentab i).ff.file 32).toNat →
        MapAnswers x s' envid (s.opentab i).fileid offset := by
  obtain ⟨hs', f, x, hx, hfollow, hshows, hentry⟩ := h.opened ht
  refine ⟨x, hfollow, hshows, fun envid offset hlt => ?_⟩
  have hsize : (s.opentab i).ff.file 32 = wordAt t0.content f.size := hshows.size_eq hx.shows
  rw [hsize] at hlt
  constructor
  · intro hpages
    cases hj : openLookup s' (s.opentab i).fileid with
    | none =>
      unfold serveMap serveBlock serveFile
      rw [hj]
      split_ifs <;> exact ⟨_, rfl⟩
    | some j =>
      obtain ⟨s4, hmap, -⟩ := hs'.serveMap_granted ht hpages hj (hentry j s' (.inl rfl) hj) hlt
      exact ⟨s4, hmap⟩
  · intro s4 hmap
    cases hj : openLookup s' (s.opentab i).fileid with
    | none =>
      left
      refine ⟨rfl, ?_⟩
      unfold serveMap serveBlock serveFile at hmap
      rw [hj] at hmap
      split_ifs at hmap <;> exact (Except.ok.inj hmap).symm
    | some j =>
      right
      have hf := hentry j s' (.inl rfl) hj
      obtain ⟨b, c, hold, hload, hb, rfl⟩ := hs'.serveMap hj hf hlt hmap
      refine ⟨Option.some_ne_none j, b, ipcSend_getLast _ _, ?_⟩
      rintro data rfl k hk hlen
      show ByteWords.get (c.mem b) k = _
      rw [hs'.mem_block hf hx hold hload hb]
      exact hx.page hold hk hlen

/-- **What a session opens** below the node, with `openat`. -/
theorem ReadSession.openat {elemsPath : List Char8} {s4 : FileServer} {j : ℕ} (ht : ServesTree d t0)
    (h : ReadSession depth t0 path i s s') (hp : (0 : Char8) ∉ elemsPath)
    (hopen : serveOpenat s' envid (s.opentab i).fileid elemsPath omode = .ok s4)
    (hreply : s4.replies.getLast? = some (.filefd envid j)) :
    ∃ x y, d.follow depth path = some (some x) ∧ x.resolve (pathElems elemsPath) = some y ∧
      y.Shows (s4.opentab j).ff.file := by
  obtain ⟨hs', f, x, hx, hfollow, -, hentry⟩ := h.opened ht
  have hdirs : ∀ k g, openLookup (openAlloc s').2.2 (s.opentab i).fileid = some k →
      (s'.opentab k).file = some g → IsNode t0.content g x := by
    intro k g hk hg
    obtain rfl := Option.some.inj ((hentry k _ (.inr rfl) hk).symm.trans hg)
    exact hx
  obtain ⟨-, hanswer⟩ := Serving.serveOpenat ht hs' hp hdirs hopen
  obtain ⟨-, -, g, y, -, -, hres, hshows⟩ := hanswer envid j hreply
  exact ⟨x, y, hfollow, hres, hshows⟩

/-- **What clients read from an image of the formatter.** Whatever was read before, an open gets the node
of the host at its path. Later, a request for a block inside of a file gets the bytes of the file, and an
`openat` gets what the host has below the node, as long as the identifier is in use. -/
theorem readSession_formatDisk (n : ℕ) (args : HostDir) (hn : 4 ≤ n) (hmax : n ≤ 0x40000)
    (hdvd : ¬ 32768 ∣ n) (hfits : FitsInto n args) (hshort : args.Short) (hnames : args.CNames) :
    ∃ image t, formatDisk n args = .ok image ∧
      fsInit (BlockCache.off image.disk fun _ => true) = .ok t ∧
      ∀ depth path i s s', ReadSession depth t path i s s' →
        ∃ x, args.follow depth path = some (some x) ∧ x.Shows (s.opentab i).ff.file ∧
          (∀ envid offset, offset.toNat < ((s.opentab i).ff.file 32).toNat →
            MapAnswers x s' envid (s.opentab i).fileid offset) ∧
          ∀ envid below omode s4 j, (0 : Char8) ∉ below →
            serveOpenat s' envid (s.opentab i).fileid below omode = .ok s4 →
            s4.replies.getLast? = some (.filefd envid j) →
            ∃ y, x.resolve (pathElems below) = some y ∧ y.Shows (s4.opentab j).ff.file := by
  obtain ⟨image, t, hrun, hinit, -, ht⟩ := hfits.served hshort hnames hn hmax hdvd
  refine ⟨image, t, hrun, hinit, fun depth path i s s' h => ?_⟩
  obtain ⟨x, hfollow, hshows, hmap⟩ := h.mapAnswers ht
  refine ⟨x, hfollow, hshows, hmap, fun envid below omode s4 j hp hopen hreply => ?_⟩
  obtain ⟨x', y, hfollow', hres, hshows'⟩ := h.openat ht hp hopen hreply
  obtain rfl := Option.some.inj (Option.some.inj (hfollow.symm.trans hfollow'))
  exact ⟨y, hres, hshows'⟩

/-- For a disk of the default size with a file, a link and a directory. -/
theorem readSession_formatDisk_nblock :
    ∃ image t, formatDisk nblock smallTree = .ok image ∧
      fsInit (BlockCache.off image.disk fun _ => true) = .ok t ∧
      ∀ depth path i s s', ReadSession depth t path i s s' →
        ∃ x, smallTree.follow depth path = some (some x) ∧ x.Shows (s.opentab i).ff.file ∧
          (∀ envid offset, offset.toNat < ((s.opentab i).ff.file 32).toNat →
            MapAnswers x s' envid (s.opentab i).fileid offset) ∧
          ∀ envid below omode s4 j, (0 : Char8) ∉ below →
            serveOpenat s' envid (s.opentab i).fileid below omode = .ok s4 →
            s4.replies.getLast? = some (.filefd envid j) →
            ∃ y, x.resolve (pathElems below) = some y ∧ y.Shows (s4.opentab j).ff.file :=
  readSession_formatDisk nblock smallTree (by decide) (by decide) (by decide)
    (smallTree_fits (by decide)) smallTree_short smallTree_cNames

end MosVolca
