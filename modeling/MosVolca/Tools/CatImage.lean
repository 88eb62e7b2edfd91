import MosVolca.Fs.Replies
import MosVolca.Tools.ReadSessions
import MosVolca.User.Cat
import MosVolca.User.FileTruncate
import MosVolca.User.OpenReports

/-!
# `cat` of a file of the image

A program opens a file of an image of the formatter and shows it with `cat`. All parts are there: the
formatter on the host, the start of the file server, the server and the descriptors of the program, the
loop of `cat`, and the console. What the console shows is the file of the host.

## Main definitions

* `MosVolca.Frames` — the pages of the blocks and of the open files.
* `MosVolca.CatReady` — a program with a buffer and a console.

## Main results

* `MosVolca.Serving.openPage`, `MosVolca.Serving.mapPage` — what the program gets from the server.
* `MosVolca.Serving.mapPages` — the loop that maps the pages of a file.
* `MosVolca.Serving.openAP` — the program opens the file.
* `MosVolca.cat_formatDisk` — what `cat` shows.
-/

namespace MosVolca

variable {depth i j q n a k off : ℕ} {t t0 : BlockCache} {s s' s1 : FileServer} {f : FilePtr}
  {d args : HostDir} {x : HostNode} {envid fileid omode offset r : Word} {path : List Char8}
  {frame ffFrame : ℕ → ℕ} {g : FsPage} {c c' c1 : Client FileServer} {data : List Char8}

/-- The pages of the blocks are different, and they are not those of the open files. -/
structure Frames (frame ffFrame : ℕ → ℕ) : Prop where
  inj : Function.Injective frame
  apart : ∀ b i, frame b ≠ ffFrame i

/-! ## The answers of the server -/

/-- A path that leads somewhere leads somewhere before the last link is followed. -/
lemma HostDir.resolve_isSome_of_follow (h : d.follow depth path = some (some x)) :
    (d.resolve (pathElems path)).isSome := by
  cases depth with
  | zero => cases h
  | succ depth =>
    rw [HostDir.follow] at h
    cases hr : d.resolve (pathElems path) with
    | none =>
      rw [hr] at h
      cases h
    | some y => rfl

/-- `open_alloc` takes an entry. -/
lemma AllocOk.taken (h : AllocOk s) (hpages : HasPages s.cache) :
    (openAlloc s).1.slt 0 = false ∧ (∃ i, (openAlloc s).2.1 = some i) ∧
      HasPages (openAlloc s).2.2.cache := by
  obtain ⟨i, hfind, hpage, hneg⟩ := h
  have hrest : HasPages { s.cache with grants := fun n => s.cache.grants (n + 1) } := fun n =>
    hpages (n + 1)
  unfold openAlloc
  rw [hfind]
  by_cases h1 : (s.opentab i).pageref = 1
  · simp only [if_pos h1]
    exact ⟨hneg, ⟨i, rfl⟩, hpages⟩
  · simp only [if_neg h1, if_pos (hpages 0)]
    exact ⟨hneg, ⟨i, rfl⟩, hrest⟩

/-- The page `g` of the entry `i`, which an open has been answered with: it shows the node `x` of the
host, and the identifier in it leads to the entry. -/
structure SendsEntry (t0 : BlockCache) (ffFrame : ℕ → ℕ) (omode : Word) (x : HostNode) (s' : FileServer)
    (g : FsPage) (i : ℕ) (f : FilePtr) : Prop where
  serving : Serving t0 s'
  pages : HasPages s'.cache
  page : g.page = ffFrame i
  devId : g.words 0 = devfileId
  offset : g.words 1 = 0
  omode : g.words 2 = omode
  size : g.words 36 = wordAt t0.content f.size
  lookup : openLookup s' (g.words 3) = some i
  file : (s'.opentab i).file = some f
  node : IsNode t0.content f x

namespace Serving

/-- The server only counts a mapping of the page of an entry. -/
lemma shareOpen (hs : Serving t0 s) (i : ℕ) : Serving t0 (shareOpen s i) :=
  hs.setCache ((Loads.refl s.cache).visits hs.visits.inv) (Loads.refl s.cache).keepsDirs
    (sameEntry_share s i _)

variable (ht : ServesTree d t0) (hs : Serving t0 s) (hpages : HasPages s.cache)

include ht hs hpages

/-- **An open** of something that the host has is answered with the page of an entry. -/
lemma openPage (halloc : AllocOk s) (hp : (0 : Char8) ∉ path) (hcreat : omode &&& oCreat = 0)
    (hmkdir : omode &&& oMkdir = 0) (hfollow : d.follow depth path = some (some x)) :
    ∃ g s' i f, (fileServer depth envid frame ffFrame).page s (.openFile path omode) = .ok (.ok g, s') ∧
      SendsEntry t0 ffFrame omode x s' g i f := by
  obtain ⟨hneg, ⟨i, hi⟩, hpages1⟩ := halloc.taken hpages
  obtain ⟨-, hs1, -⟩ := hs.openAlloc
  have hret := walkPath_total depth ht.tree ht.small hs1.visits hpages1 hp
  rw [hfollow] at hret
  obtain ⟨w, t', hwalk, hpages'⟩ := hret
  obtain ⟨-, -, r, hfollow', hanswer⟩ := walkPath_answers ht.tree ht.small hs1.visits hp hwalk
  obtain rfl := Option.some.inj (hfollow.symm.trans hfollow')
  have hcode : w.code = 0 := hanswer.code.mpr (HostDir.resolve_isSome_of_follow hfollow)
  obtain ⟨f', hf', -⟩ := hanswer.file
  have hserve : ∃ s2, MosVolca.serveOpen s depth envid path omode = .ok s2 ∧ HasPages s2.cache ∧
      s2.replies = s.replies ++ [.filefd envid i] := by
    unfold MosVolca.serveOpen fileOpen
    simp only [sendError_cache, hwalk, ok_bind, pure_eq_ok, hcode, hf', hi,
      show (0 : Word).slt 0 = false by decide, Bool.false_eq_true, if_false]
    refine ⟨_, rfl, hpages', ?_⟩
    show (sendError (MosVolca.openAlloc s).2.2 envid (MosVolca.openAlloc s).1).replies ++ _ = _
    rw [sendError_replies, openAlloc_replies, hneg, if_neg Bool.false_ne_true, List.append_nil]
  obtain ⟨s2, hs2, hpages2, hreplies⟩ := hserve
  have hfirst : firstReply s s2 = some (.filefd envid i) := by
    unfold firstReply
    rw [hreplies, List.getElem?_append_right le_rfl, Nat.sub_self]
    rfl
  -- what the page shows
  obtain ⟨hstep, hlast⟩ := serveOpen ht hs hp hcreat hmkdir hs2
  obtain ⟨hlt, hfilled, f, y, hfile, hy, hfollow', hshows⟩ :=
    hlast envid i (by rw [hreplies, List.getLast?_concat])
  obtain rfl := Option.some.inj (Option.some.inj (hfollow.symm.trans hfollow'))
  have hentry : (MosVolca.shareOpen s2 i).opentab i =
      { s2.opentab i with pageref := (s2.opentab i).pageref + 1 } := setOpen_self _ _ _
  refine ⟨⟨ffFrame i, (s2.opentab i).ff.word⟩, MosVolca.shareOpen s2 i, i, f, ?_,
    hstep.serving.shareOpen i, hpages2, rfl, hfilled.devId, hfilled.offset, hfilled.omode,
    hshows.size_eq hy.shows, ?_, ?_, hy⟩
  · show (MosVolca.serveOpen s depth envid path omode >>= _) = _
    rw [hs2, ok_bind, hfirst]
    rfl
  · show openLookup _ (s2.opentab i).ff.fileid = some i
    unfold openLookup
    simp only [hfilled.fileid, hstep.serving.ids i hlt, hentry, hfilled.pageref]
    simp
  · rw [hentry]
    exact hfile

/-- **A request for a block** of a file is answered with its page, which has the bytes of the image. -/
lemma mapPage (hj : openLookup s fileid = some j) (hf : (s.opentab j).file = some f)
    (hx : IsNode t0.content f (.file data)) (hlt : 4096 * k < (wordAt t0.content f.size).toNat) :
    ∃ b s', (fileServer depth envid frame ffFrame).page s (.map fileid (BitVec.ofNat 32 (4096 * k))) =
        .ok (.ok ⟨frame b, t0.content b⟩, s') ∧ Holds t0.content f (.data k) b ∧ Serving t0 s' ∧
      HasPages s'.cache ∧ s'.opentab = s.opentab := by
  have hoff : (BitVec.ofNat 32 (4096 * k)).toNat = 4096 * k := by
    have := (wordAt t0.content f.size).isLt
    rw [BitVec.toNat_ofNat]
    omega
  rw [← hoff] at hlt
  obtain ⟨s', hserve, hpages'⟩ : ∃ s', MosVolca.serveMap s envid fileid (BitVec.ofNat 32 (4096 * k)) =
      .ok s' ∧ HasPages s'.cache := hs.serveMap_granted ht hpages hj hf hlt
  obtain ⟨b, cache, hold, hload, hb, rfl⟩ := hs.serveMap hj hf hlt hserve
  rw [hoff, Nat.mul_div_cancel_left k (by decide)] at hold
  have hbytes := hs.mem_block hf hx hold hload hb
  have hstep : ReadStep t0 s false
      (FileServer.ipcSend { s with cache := cache } (.block envid b)) := hs.loads hload
  refine ⟨b, FileServer.ipcSend { s with cache := cache } (.block envid b), ?_, hold, hstep.serving,
    hpages', rfl⟩
  show (MosVolca.serveMap s envid _ _ >>= _) = _
  rw [hserve, ok_bind, firstReply_ipcSend, ← hbytes]
  rfl

end Serving

/-! ## The pages of a file -/

/-- The pages `a`, ..., `a + n - 1` of the file have been mapped for descriptor `i`, and nothing else. -/
structure MapsFile (t0 : BlockCache) (f : FilePtr) (frame : ℕ → ℕ) (i : ℕ) (ks : List ℕ)
    (c c' : Client FileServer) : Prop where
  inside : ∀ k ∈ ks, ∃ b, Holds t0.content f (.data k) b ∧
    c'.map (dataVpn i k) = some ⟨frame b, pteD ||| pteLibrary ||| pteV⟩ ∧ c'.mem (frame b) = t0.content b
  outside : ∀ v, (∀ k ∈ ks, v ≠ dataVpn i k) → c'.map v = c.map v
  blocks : ∀ b, c.mem (frame b) = t0.content b → c'.mem (frame b) = t0.content b
  mem : ∀ q, (∀ b, q ≠ frame b) → c'.mem q = c.mem q

/-- **The loop that maps the pages** of a file, with the file server itself.
**Proof sketch.** Induction on the pages: the server sends each page with the bytes of the image, and
stays in a state in which the identifier leads to the file. -/
lemma Serving.mapPages (ht : ServesTree d t0) (hs : Serving t0 s) (hpages : HasPages s.cache)
    (hframes : Frames frame ffFrame) (hi : i < 31) (hserver : c.server = some s)
    (hj : openLookup s fileid = some j) (hf : (s.opentab j).file = some f)
    (hx : IsNode t0.content f (.file data)) (hroom : ¬ c.NoRoom (dataVpn i 0)) {ks : List ℕ}
    (hks : ∀ k ∈ ks, 4096 * k < (wordAt t0.content f.size).toNat ∧ k < 1024) :
    ∃ c', c.eachPage (Client.fsipcMap (fileServer depth envid frame ffFrame) fileid
      (index2data (BitVec.ofNat 32 i))) ks = .ok (0, c') ∧ MapsFile t0 f frame i ks c c' := by
  induction ks generalizing c s with
  | nil => exact ⟨c, rfl, fun k hk => absurd hk List.not_mem_nil, fun _ _ => rfl, fun _ h => h, fun _ _ => rfl⟩
  | cons k ks ih =>
    obtain ⟨hlt, hk⟩ := hks k List.mem_cons_self
    have hv : vpn (windowAddr (index2data (BitVec.ofNat 32 i)) k) = dataVpn i k :=
      vpn_windowAddr_data (by omega) (by omega)
    have hlegal : isIllegalVa (windowAddr (index2data (BitVec.ofNat 32 i)) k) = false := by
      have haddr := windowAddr_data_toNat (i := i) (k := k) (by omega) (by omega)
      unfold dataVpn at haddr
      exact isIllegalVa_eq_false (by omega) (by omega)
    have hroom' : ¬ c.NoRoom (vpn (windowAddr (index2data (BitVec.ofNat 32 i)) k)) := by
      rw [hv, Client.NoRoom, Client.dataVpn_table hk]
      exact hroom
    obtain ⟨b, s1, hpage, hold, hs1, hpages1, htab⟩ := hs.mapPage ht hpages hj hf hx hlt
    obtain ⟨c1, h1, hrec⟩ := Client.fsipcPage_ok hserver hpage hlegal hroom'
    rw [hv] at hrec
    have hroom1 : ¬ c1.NoRoom (dataVpn i 0) := by
      rw [Client.NoRoom, hrec.table, ← Client.dataVpn_table hk, Function.update_self]
      simp
    have hj1 : openLookup s1 fileid = some j := by
      unfold openLookup at hj ⊢
      rw [htab]
      exact hj
    obtain ⟨c', hrest, hmaps⟩ := ih hs1 hpages1 hrec.server hj1 (htab ▸ hf) hroom1
      fun l hl => hks l (List.mem_cons_of_mem k hl)
    have hhere : c1.mem (frame b) = t0.content b := by
      rw [hrec.mem]
      exact Function.update_self ..
    refine ⟨c', ?_, fun l hl => ?_, fun v hne => ?_, fun b' hb' => ?_, fun q hq => ?_⟩
    · rw [Client.eachPage, Client.fsipcMap, h1, ok_bind]
      exact hrest
    · by_cases hlks : l ∈ ks
      · exact hmaps.inside l hlks
      · obtain rfl := (List.mem_cons.mp hl).resolve_right hlks
        refine ⟨b, hold, ?_, hmaps.blocks b hhere⟩
        have hother : ∀ m ∈ ks, dataVpn i l ≠ dataVpn i m := by
          intro m hm he
          have hlm : l = m := by
            unfold dataVpn at he
            omega
          exact hlks (hlm ▸ hm)
        rw [hmaps.outside _ hother, hrec.map, Function.update_self]
        rfl
    · rw [hmaps.outside v fun m hm => hne m (List.mem_cons_of_mem k hm), hrec.map,
        Function.update_of_ne (hne k List.mem_cons_self)]
    · apply hmaps.blocks
      by_cases hbb : b' = b
      · rw [hbb, hhere]
      · rw [hrec.mem, Function.update_of_ne (hframes.inj.ne hbb), hb']
    · rw [hmaps.mem q hq, hrec.mem, Function.update_of_ne (hq b)]

/-! ## The open -/

/-- A file on the disk has at most 1024 blocks. -/
lemma IsNode.length_le (h : IsNode t0.content f (.file data)) :
    (wordAt t0.content f.size).toNat = data.length ∧ data.length ≤ 0x400000 := by
  obtain ⟨-, hsize, hbytes⟩ := h
  have hle : data.length ≤ 0x400000 := by
    by_contra hgt
    obtain ⟨b, hb, -⟩ := hbytes 0x400000 (by omega)
    rw [Nat.zero_add] at hb
    have := (blockOf_eq_some.mp hb).lt_nindirect
    unfold nindirect at this
    omega
  refine ⟨?_, hle⟩
  rw [hsize, BitVec.toNat_ofNat]
  omega

/-- The pages of a file, where a program has them. -/
def filePages (t0 : BlockCache) (frame : ℕ → ℕ) (f : FilePtr) (k : ℕ) : ℕ :=
  frame ((blockOf t0.content f k).getD 0)

/-- The page of an entry as the program has it. -/
def entryPage (ffFrame : ℕ → ℕ) (e : ℕ) : UserPage := ⟨ffFrame e, pteD ||| pteLibrary ||| pteV⟩

/-- The end of `openAP`, when the page of the descriptor has been received. -/
lemma mapFile_received {svc : FileService FileServer} (hi : i < 32)
    (h : Client.Receives c c1 (fdVpn i) g s1) : c1.mapFile svc (index2fd (BitVec.ofNat 32 i)) =
      (c1.eachPage (Client.fsipcMap svc (g.words 3) (index2data (BitVec.ofNat 32 i)))
        (pagesTo (g.words 36)) >>= fun x =>
          if x.1.slt 0 then pure x else pure (BitVec.ofNat 32 i, x.2)) := by
  have hq : c1.map (fdVpn i) = some (replyPage g) := by
    rw [h.map, Function.update_self]
  have hwords : c1.mem (replyPage g).page = g.words := by
    rw [h.mem]
    exact Function.update_self ..
  have hload : ∀ {w : Word}, w.toNat < 4096 → c1.load (index2fd (BitVec.ofNat 32 i) + w) =
      .ok (g.words (w.toNat / 4), c1) := by
    intro w hw
    rw [Client.load_field hi hq hw, hwords]
  have hfileid : c1.load (fdFileid (index2fd (BitVec.ofNat 32 i))) = .ok (g.words 3, c1) :=
    hload (by decide)
  have hfsize : c1.load (fdSize (index2fd (BitVec.ofNat 32 i))) = .ok (g.words 36, c1) :=
    hload (by decide)
  rw [Client.mapFile, hfileid, ok_bind]
  simp only
  rw [hfsize, ok_bind, fd2data_index2fd hi, fd2num_index2fd hi]

/-- There is room for the window of a descriptor when its page has been received. -/
lemma room_of_receives (hroom : ∀ k, c.grants k ≠ none) (h : Client.Receives c c1 (fdVpn i) g s1) :
    ¬ c1.NoRoom n := by
  rintro ⟨-, hnone⟩
  rw [h.grants] at hnone
  unfold Client.grantsAfter at hnone
  split_ifs at hnone
  · exact hroom 0 hnone
  · exact hroom 1 hnone

/-- The pages of the loop. -/
lemma lt_of_mem_pagesTo {size : Word} (hsize : size.toNat ≤ 0x400000) (hk : k ∈ pagesTo size) :
    4096 * k < size.toNat ∧ k < 1024 := by
  unfold pagesTo at hk
  rw [List.mem_range] at hk
  omega

/-- **What `openAP` has done** to the memory of the program. -/
structure OpensHost (t0 : BlockCache) (frame ffFrame : ℕ → ℕ) (c c' : Client FileServer) (i e : ℕ)
    (f : FilePtr) (data : List Char8) : Prop where
  reads : ∀ console : Console, Program.Reads ⟨c', console⟩ {i} (entryPage ffFrame e)
    (filePages t0 frame f) ⟨data, 0⟩
  free : c.map (fdVpn i) = none
  map : ∀ v < 0x60000, v ≠ fdVpn i → c'.map v = c.map v
  mem : ∀ q, (∀ b, q ≠ frame b) → q ≠ ffFrame e → c'.mem q = c.mem q

/-- A file that is open, with its pages mapped, is the file of the host. -/
lemma MapsFile.reads {e : ℕ} (hframes : Frames frame ffFrame) (hi : i < 31)
    (hx : IsNode t0.content f (.file data)) (hfd : c.map (fdVpn i) = some (entryPage ffFrame e))
    (hpage : c.mem (ffFrame e) = g.words) (hdev : g.words 0 = devfileId) (hoff : g.words 1 = 0)
    (hmode : g.words 2 = oRdonly) (hsize : g.words 36 = wordAt t0.content f.size)
    (h : MapsFile t0 f frame i (pagesTo (wordAt t0.content f.size)) c c') (console : Console) :
    Program.Reads ⟨c', console⟩ {i} (entryPage ffFrame e) (filePages t0 frame f) ⟨data, 0⟩ := by
  obtain ⟨hlen, hmax⟩ := hx.length_le
  have hwords : c'.mem (ffFrame e) = g.words := by
    rw [h.mem _ fun b => (hframes.apart b e).symm, hpage]
  have hmem : ∀ k, 4096 * k < data.length → k ∈ pagesTo (wordAt t0.content f.size) := by
    intro k hk
    unfold pagesTo
    rw [List.mem_range, hlen]
    omega
  have hblock : ∀ k b, Holds t0.content f (.data k) b → filePages t0 frame f k = frame b := by
    intro k b hold
    unfold filePages
    rw [blockOf_eq_some.mpr hold]
    rfl
  constructor
  · rintro j rfl
    refine ⟨by unfold maxfd; omega, ?_, ?_⟩
    · show c'.map (fdVpn j) = _
      rw [h.outside _ fun k _ => by unfold fdVpn dataVpn; omega, hfd]
    · show c'.mem (ffFrame e) 0 = devfileId
      rw [hwords, hdev]
  · rintro j rfl k hk
    have hfs : (Client.fileSize c' (entryPage ffFrame e)).toNat = data.length := by
      show (c'.mem (ffFrame e) 36).toNat = _
      rw [hwords, hsize, hlen]
    have hk : 4096 * k < (Client.fileSize c' (entryPage ffFrame e)).toNat := hk
    obtain ⟨b, hold, hmap, -⟩ := h.inside k (hmem k (by omega))
    refine ⟨by unfold dataVpn; omega, pteD ||| pteLibrary ||| pteV, by decide, ?_⟩
    rw [hblock k b hold]
    exact hmap
  · show (c'.mem (ffFrame e) 36).toNat = data.length
    rw [hwords, hsize, hlen]
  · intro y hy
    have hy : y < data.length := hy
    obtain ⟨b, hold, -, hbytes⟩ := h.inside (y / 4096) (hmem _ (by omega))
    show ByteWords.get (c'.mem (filePages t0 frame f (y / 4096))) (y % 4096) = data.getD y 0
    have hbyte := hx.page hold (Nat.mod_lt y (by decide)) (by omega)
    rw [hblock _ b hold, hbytes, hbyte, Nat.div_add_mod]
  · show (c'.mem (ffFrame e) 1).toNat = 0
    rw [hwords, hoff]
    rfl
  · show c'.mem (ffFrame e) 2 &&& oAccmode ≠ oWronly
    rw [hwords, hmode]
    decide
  · show (pteD ||| pteLibrary ||| pteV) &&& pteD ≠ 0
    decide
  · intro k hk
    exact hframes.apart _ e
  · exact hmax

/-- **`openAP`** of a file that the host has, for reading. -/
theorem Serving.openAP (ht : ServesTree d t0) (hs : Serving t0 s) (hpages : HasPages s.cache)
    (hframes : Frames frame ffFrame) (hserver : c.server = some s) (hroom : ∀ k, c.grants k ≠ none)
    (halloc : AllocOk s) (hfd : c.fdAlloc ≠ none) (hp : (0 : Char8) ∉ path)
    (hshort : path.length < maxpathlen) (hfollow : d.follow depth path = some (some (.file data))) :
    ∃ i e f c', c.openAP (fileServer depth envid frame ffFrame) path oRdonly =
        .ok (BitVec.ofNat 32 i, c') ∧ i < 31 ∧ OpensHost t0 frame ffFrame c c' i e f data := by
  obtain ⟨fd, hfd⟩ := Option.ne_none_iff_exists'.mp hfd
  obtain ⟨i, hi, rfl, hfree, -⟩ := Client.fdAlloc_eq_some_iff.mp hfd
  obtain ⟨g, s1, e, f, hpage, hsent⟩ : ∃ g s1 e f, (fileServer depth envid frame ffFrame).page s
      (.openFile path oRdonly) = .ok (.ok g, s1) ∧
        SendsEntry t0 ffFrame oRdonly (.file data) s1 g e f :=
    hs.openPage ht hpages halloc hp (by decide) (by decide) hfollow
  obtain ⟨c1, h1, hrec⟩ := Client.fsipcPage_ok hserver hpage (legal_index2fd (i := i) (by omega))
    fun h => hroom 0 h.2
  rw [vpn_index2fd (by omega)] at hrec
  have hq : c1.map (fdVpn i) = some (entryPage ffFrame e) := by
    rw [hrec.map, Function.update_self, replyPage, hsent.page]
    rfl
  have hwords : c1.mem (ffFrame e) = g.words := by
    rw [hrec.mem, ← hsent.page]
    exact Function.update_self ..
  obtain ⟨hlen, hmax⟩ := hsent.node.length_le
  obtain ⟨c', hloop, hmaps⟩ : ∃ c', c1.eachPage (Client.fsipcMap (fileServer depth envid frame ffFrame)
      (g.words 3) (index2data (BitVec.ofNat 32 i))) (pagesTo (wordAt t0.content f.size)) = .ok (0, c') ∧
        MapsFile t0 f frame i (pagesTo (wordAt t0.content f.size)) c1 c' :=
    hsent.serving.mapPages ht hsent.pages hframes hi hrec.server hsent.lookup hsent.file hsent.node
      (room_of_receives hroom hrec) fun k hk => lt_of_mem_pagesTo (hlen.trans_le hmax) hk
  refine ⟨i, e, f, c', ?_, hi, ?_, hfree, ?_, ?_⟩
  · rw [Client.openAP, hfd]
    simp only
    rw [Client.fsipcOpen, if_neg (Nat.not_le.mpr hshort), h1, ok_bind]
    simp only [show (0 : Word).slt 0 = false by decide, Bool.false_eq_true, if_false]
    rw [mapFile_received (by omega) hrec, hsent.size, hloop, ok_bind]
    rfl
  · exact hmaps.reads hframes hi hsent.node hq hwords hsent.devId hsent.offset hsent.omode hsent.size
  · intro v hv hne
    rw [hmaps.outside v fun k _ => by unfold dataVpn; omega, hrec.map, Function.update_of_ne hne]
  · intro q hq' hne
    rw [hmaps.mem q hq', hrec.mem, hsent.page, Function.update_of_ne hne]

/-! ## `cat` -/

/-- **A program that can run `cat`**: its buffer is below the descriptors, descriptor 1 is the console, and
the pages of both are its own. -/
structure CatReady (c : Client FileServer) (frame ffFrame : ℕ → ℕ) (buf : Word) (q : UserPage) :
    Prop where
  below : buf.toNat + catSize.toNat ≤ fdtable.toNat
  buffer : ∀ j < catSize.toNat, ∃ u, c.map (vpn (buf + BitVec.ofNat 32 j)) = some u ∧
    u.perm &&& pteD ≠ 0 ∧ u.page ≠ q.page ∧ (∀ b, u.page ≠ frame b) ∧ ∀ e, u.page ≠ ffFrame e
  inj : ∀ j < catSize.toNat, ∀ k < catSize.toNat, c.placeAt (buf + BitVec.ofNat 32 j) =
    c.placeAt (buf + BitVec.ofNat 32 k) → j = k
  console : c.map (fdVpn 1) = some q
  dev : c.mem q.page 0 = 0x63
  mode : c.mem q.page 2 &&& oAccmode ≠ oRdonly
  writable : q.perm &&& pteD ≠ 0
  blocks : ∀ b, q.page ≠ frame b
  entries : ∀ e, q.page ≠ ffFrame e

/-- The program is still ready when the file is open. -/
lemma OpensHost.ready {e : ℕ} {buf : Word} {u : UserPage} (h : OpensHost t0 frame ffFrame c c' i e f data)
    (hready : CatReady c frame ffFrame buf u) (console : Console) :
    Program.Buffer ⟨c', console⟩ (entryPage ffFrame e) (filePages t0 frame f) data.length buf
        catSize.toNat ∧
      Program.Screen ⟨c', console⟩ (entryPage ffFrame e) (filePages t0 frame f) data.length buf
        catSize.toNat u := by
  have hbelow := hready.below
  have hsize : catSize.toNat = 8192 := rfl
  rw [fdtable_toNat, hsize] at hbelow
  have hmap : ∀ j < catSize.toNat, c'.map (vpn (buf + BitVec.ofNat 32 j)) =
      c.map (vpn (buf + BitVec.ofNat 32 j)) := by
    intro j hj
    have hj : j < 8192 := hj
    have hv : vpn (buf + BitVec.ofNat 32 j) < 0x5fc00 := by
      rw [vpn_eq_div, BitVec.toNat_add, BitVec.toNat_ofNat]
      omega
    apply h.map _ (by omega)
    unfold fdVpn
    omega
  have hplace : ∀ j < catSize.toNat, c'.placeAt (buf + BitVec.ofNat 32 j) =
      c.placeAt (buf + BitVec.ofNat 32 j) := by
    intro j hj
    unfold Client.placeAt
    rw [hmap j hj]
  have hfd : c'.map (fdVpn 1) = some u := by
    rw [h.map _ (by decide), hready.console]
    intro he
    have hc := hready.console
    rw [he, h.free] at hc
    exact nomatch hc
  have hmem : c'.mem u.page = c.mem u.page := h.mem _ hready.blocks (hready.entries e)
  constructor
  · constructor
    · rw [hsize, utop_toNat]
      omega
    · intro j hj
      obtain ⟨v, hv, hperm, -, hblocks, hentries⟩ := hready.buffer j hj
      exact ⟨v, (hmap j hj).trans hv, hperm, hentries e, fun k _ => hblocks _⟩
    · intro j hj k hk he
      rw [hplace j hj, hplace k hk] at he
      exact hready.inj j hj k hk he
  · constructor
    · exact hfd
    · show c'.mem u.page 0 = 0x63
      rw [hmem, hready.dev]
    · show c'.mem u.page 2 &&& oAccmode ≠ oRdonly
      rw [hmem]
      exact hready.mode
    · exact hready.writable
    · exact hready.entries e
    · exact fun k _ => hready.blocks _
    · intro j hj
      obtain ⟨v, hv, -, hne, -⟩ := hready.buffer j hj
      show (c'.placeAt (buf + BitVec.ofNat 32 j)).1 ≠ u.page
      rw [hplace j hj, Client.placeAt_of_map hv]
      exact hne

/-- **`cat` shows the files of the host.** The server has started with an image of the formatter, has
served programs that read, and has an entry and pages left. If the host has a file at the path, then
`openAP` for reading returns a descriptor and `cat` returns, and the console shows the bytes of the file,
once and in order, and nothing else. -/
theorem cat_formatDisk (n : ℕ) (args : HostDir) (hn : 4 ≤ n) (hmax : n ≤ 0x40000)
    (hdvd : ¬ 32768 ∣ n) (hfits : FitsInto n args) (hshort : args.Short) (hnames : args.CNames) :
    ∃ image t, formatDisk n args = .ok image ∧
      fsInit (BlockCache.off image.disk fun _ => true) = .ok t ∧
      ∀ depth events s, RunAll ReadsOnly depth (serveInit t) events →
        fsRun depth (serveInit t) events = .ok s → AllocOk s → HasPages s.cache →
      ∀ (c : Client FileServer) envid frame ffFrame buf u path data, c.server = some s →
        Frames frame ffFrame → CatReady c frame ffFrame buf u → (∀ k, c.grants k ≠ none) →
        c.fdAlloc ≠ none → (0 : Char8) ∉ path → path.length < maxpathlen →
        args.follow depth path = some (some (.file data)) →
        ∃ r c', c.openAP (fileServer depth envid frame ffFrame) path oRdonly = .ok (r, c') ∧
          r.slt 0 = false ∧ ∀ pipe console fuel, data.length ≤ 8192 * fuel →
            ∃ s', Program.cat (fileServer depth envid frame ffFrame) pipe buf (fuel + 1)
                ⟨c', console⟩ r = .ok s' ∧
              s'.console = { console with shown := console.shown ++ data } := by
  obtain ⟨image, t, hrun, hinit, -, ht⟩ := hfits.served hshort hnames hn hmax hdvd
  refine ⟨image, t, hrun, hinit, ?_⟩
  intro depth events s hreads hevents halloc hpages c envid frame ffFrame buf u path data hserver hframes
    hready hroom hfd hp hlong hfollow
  obtain ⟨hs, -⟩ := (serving_serveInit ht).run ht hreads hevents
  obtain ⟨i, e, f, c', hopen, hi, hopens⟩ :=
    hs.openAP ht hpages hframes hserver hroom halloc hfd hp hlong hfollow
  refine ⟨BitVec.ofNat 32 i, c', hopen, Client.ofNat_not_neg (by omega), fun pipe console fuel hfuel => ?_⟩
  obtain ⟨hbuffer, hscreen⟩ := hopens.ready hready console
  obtain ⟨s', hcat, hshown, -⟩ := (hopens.reads console).cat (fileServer depth envid frame ffFrame) pipe
    (Set.mem_singleton i) hbuffer hscreen (Nat.zero_le _) (by
      show data.length - 0 ≤ 8192 * fuel
      omega)
  refine ⟨s', hcat, ?_⟩
  rw [hshown]
  rfl

/-! ## A file with three bytes -/

/-- A program with the console as descriptor 1, and two pages for the buffer. -/
def catClient (s : FileServer) : Client FileServer where
  map := fun n =>
    if n = fdVpn 1 then some ⟨7, pteD ||| pteV⟩
    else if n = 0x400 then some ⟨8, pteD ||| pteV⟩
    else if n = 0x401 then some ⟨9, pteD ||| pteV⟩
    else none
  table := fun n => n == 383 || n == 1
  mem := fun q k => if q = 7 ∧ k = 0 then 0x63 else if q = 7 ∧ k = 2 then oWronly else 0
  grants := fun _ => some 6
  server := some s
  tables := fun n hn => by
    split_ifs at hn with h1 h2 h3
    · rw [h1]
      rfl
    · rw [h2]
      rfl
    · rw [h3]
      rfl
    · exact absurd rfl hn

/-- The pages of the blocks have even numbers, and those of the entries odd ones. -/
lemma frames_even_odd : Frames (fun b => 2 * b + 10) fun e => 2 * e + 11 where
  inj := fun b b' h => by
    have h : 2 * b + 10 = 2 * b' + 10 := h
    omega
  apart := fun b e h => by
    have h : 2 * b + 10 = 2 * e + 11 := h
    omega

/-- Where byte `j` of the buffer is. -/
lemma catClient_buffer (s : FileServer) (hj : j < 8192) :
    (catClient s).map (vpn (0x400000 + BitVec.ofNat 32 j)) = some ⟨8 + j / 4096, pteD ||| pteV⟩ ∧
      (catClient s).placeAt (0x400000 + BitVec.ofNat 32 j) = (8 + j / 4096, j % 4096) := by
  have haddr : (0x400000 + BitVec.ofNat 32 j : Word).toNat = 0x400000 + j := by
    rw [BitVec.toNat_add, BitVec.toNat_ofNat, show (0x400000 : Word).toNat = 0x400000 from rfl]
    omega
  have hmap : (catClient s).map (vpn (0x400000 + BitVec.ofNat 32 j)) =
      some ⟨8 + j / 4096, pteD ||| pteV⟩ := by
    rw [vpn_eq_div, haddr]
    unfold catClient fdVpn
    have hcases : j / 4096 = 0 ∨ j / 4096 = 1 := by omega
    rcases hcases with h | h
    · simp [show (0x400000 + j) / 4096 = 0x400 by omega, h]
    · simp [show (0x400000 + j) / 4096 = 0x401 by omega, h]
  refine ⟨hmap, ?_⟩
  rw [Client.placeAt_of_map hmap, haddr]
  congr 1
  omega

/-- The client has a buffer and a console. -/
lemma catClient_ready (s : FileServer) :
    CatReady (catClient s) (fun b => 2 * b + 10) (fun e => 2 * e + 11) 0x400000 ⟨7, pteD ||| pteV⟩ where
  below := by decide
  buffer := fun j hj => by
    have hj : j < 8192 := hj
    have hperm : (pteD ||| pteV) &&& pteD ≠ 0 := by decide
    refine ⟨_, (catClient_buffer s hj).1, hperm, ?_, fun b => ?_, fun e => ?_⟩ <;>
      simp only [ne_eq] <;> omega
  inj := fun j hj k hk h => by
    have hj : j < 8192 := hj
    have hk : k < 8192 := hk
    rw [(catClient_buffer s hj).2, (catClient_buffer s hk).2, Prod.mk.injEq] at h
    omega
  console := rfl
  dev := rfl
  mode := by
    show oWronly &&& oAccmode ≠ oRdonly
    decide
  writable := by decide
  blocks := fun b => by
    simp only [ne_eq]
    omega
  entries := fun e => by
    simp only [ne_eq]
    omega

/-- Descriptor 0 is free. -/
lemma catClient_fdAlloc (s : FileServer) : (catClient s).fdAlloc = some (index2fd 0) :=
  Client.fdAlloc_eq_some_iff.mpr ⟨0, by decide, rfl, rfl, fun j hj => absurd hj (Nat.not_lt_zero j)⟩

/-- The server has an entry when it has started, and a page for it. -/
lemma allocOk_serveInit (h : HasPages t) : AllocOk (serveInit t) := by
  refine ⟨0, ?_, .inr (h 0), ?_⟩
  · unfold findOpen
    rw [show maxopen = 1023 + 1 from rfl, List.range'_succ, List.find?_cons_of_pos]
    rfl
  · show ((0 : Word) + 1024).slt 0 = false
    decide

/-- The theorem for the file `a`: the console shows `hi!`. -/
theorem cat_formatDisk_greeting : ∃ image t r c', formatDisk nblock smallTree = .ok image ∧
    fsInit (BlockCache.off image.disk fun _ => true) = .ok t ∧
    (catClient (serveInit t)).openAP (fileServer 1 0 (fun b => 2 * b + 10) fun e => 2 * e + 11)
      [0x2f, 0x61] oRdonly = .ok (r, c') ∧
    ∀ pipe, ∃ s', Program.cat (fileServer 1 0 (fun b => 2 * b + 10) fun e => 2 * e + 11) pipe 0x400000 2
        ⟨c', ⟨[], [], false⟩⟩ r = .ok s' ∧
      s'.console = ⟨[], [0x68, 0x69, 0x21], false⟩ := by
  obtain ⟨image, t, himage, hinit, h⟩ := cat_formatDisk nblock smallTree (by decide) (by decide)
    (by decide) (smallTree_fits (by decide)) smallTree_short smallTree_cNames
  have hpages := (started_of_fsInit hinit).pages
  obtain ⟨r, c', hopen, -, hcat⟩ := h 1 [] (serveInit t) trivial rfl (allocOk_serveInit hpages) hpages
    (catClient (serveInit t)) 0 _ _ _ _ [0x2f, 0x61] _ rfl frames_even_odd (catClient_ready _)
    (fun k => nofun)
    (by rw [catClient_fdAlloc]; exact nofun) (by decide) (by decide) rfl
  exact ⟨image, t, r, c', himage, hinit, hopen, fun pipe => hcat pipe ⟨[], [], false⟩ 1 (by decide)⟩

end MosVolca
