import MosVolca.Fs.PathCases
import MosVolca.Fs.Serv

/-!
# Every block has one owner

The runs of the file server: requests in any order, stores of the clients to the pages that the
server has sent them, changes of `pageref`, and any answers of the kernel to allocations. A freed
block stays in the cache, and `map_block` does not clear its page, so `alloc_block` can hand out a
block of old data. Where that block becomes an indirect block or a block of a directory, the old
data are read as block pointers. Apart from that every block that a file holds is a block for data
that is in use, and no other file holds it.

## Main definitions

* `MosVolca.Harmless` — the events that do not run into the old data of a block.
* `MosVolca.BlocksOwned` — each block has one owner.

## Main results

* `MosVolca.blocksOwned_of_run` — if all events are harmless, each block has one owner.
* `MosVolca.stale_indirect` — a run in which two files share a block.
-/

namespace MosVolca

variable {s s' s1 : FileServer} {c c' : BlockCache} {f g : FilePtr} {i depth : ℕ}
  {envid fileid omode r w : Word} {path : List Char8}

/-- **Each block has one owner**: what a block pointer of a file points to is a block for data that
is in use, and no other block pointer of a file points to it. -/
structure BlocksOwned (c : Blocks) : Prop where
  usable : ∀ {f p b}, Live c f → Holds c f p b → Usable c b
  once : ∀ {f p g q b}, Live c f → Live c g → Holds c f p b → Holds c g q b → f = g ∧ p = q

lemma Consistent.blocksOwned {c : Blocks} (h : Consistent c) : BlocksOwned c where
  usable := fun hf => h.usable hf.entry
  once := fun hf hg => h.once hf.entry hg.entry

/-! ## Harmless events -/

/-- What a file needs to become a directory: the blocks that it has hold zeros. -/
def TypeClean (c : BlockCache) (f : FilePtr) : Prop :=
  ∀ i b, i < sizeBlocksOf c.content f → Holds c.content f (.data i) b → Blank c.content b

/-- What a directory needs to get a bigger size: the blocks that it has there hold zeros. -/
def SizeClean (c : BlockCache) (f : FilePtr) (size : Word) : Prop :=
  ∀ i b, wordAt c.content f.type = ftypeDir → sizeBlocksOf c.content f ≤ i →
    i < size.toNat / 4096 → Holds c.content f (.data i) b → Blank c.content b

/-- What `serve_open` needs. -/
def OpenClean (c : BlockCache) (depth : ℕ) (path : List Char8) (omode : Word) : Prop :=
  PathClean c path depth ∧ ∀ r f c1, fileOpen c depth path = .ok (r, f, c1) → r.slt 0 = true →
    omode &&& oCreat ≠ 0 ∨ omode &&& oMkdir ≠ 0 → CreateClean c1 depth path ∧
      (omode &&& oCreat = 0 → ∀ r' f' c2, fileCreate c1 depth path = .ok (r', some f', c2) →
        TypeClean c2 f')

/-- The block has neither a word of an entry nor the bitmap in it. -/
def PlainBlock (c : Blocks) (b : ℕ) : Prop :=
  firstData c ≤ b ∧ ∀ f, Dirent c f → f.block ≠ b ∧ ¬ Holds c f .indirect b

/-- The entries hold what they held after a store to a block that is neither. -/
lemma PlainBlock.agrees {c : Blocks} {b i : ℕ} {f : FilePtr} {w : Word} (h : PlainBlock c b)
    (hf : Dirent c f) : Agrees c (putWord c ⟨b, i⟩ w) f := by
  refine Consistent.agrees_of_ne fun x _ hx he => ?_
  cases x with
  | head k => exact (h.2 f hf).1 (congrArg WordPtr.block he)
  | far k =>
    have hind : (wordAt c f.indirect).toNat = b := congrArg WordPtr.block he
    exact (h.2 f hf).2 (hind ▸ holds_indirect (hasField_far.mp hx).2.2)

/-- The file that an identifier of an open file leads to has the property. -/
def OpenFile (s : FileServer) (fileid : Word) (P : FilePtr → Prop) : Prop :=
  ∀ i f, openLookup s fileid = some i → (s.opentab i).file = some f →
    Dirent s.cache.content f ∧ P f

/-- **The event is harmless**: where the request makes a block an indirect block or a block of a
directory, that block holds zeros or is not in the cache; the structure of an open file is still in
a block of a directory; and the clients store to blocks that are neither. -/
def Harmless (depth : ℕ) (s : FileServer) : FsEvent → Prop
  | .request _ (.openFile path omode) => OpenClean (openAlloc s).2.2.cache depth path omode
  | .request _ (.map fileid offset) =>
    OpenFile s fileid fun f => MapClean s.cache f (offset.toNat / 4096)
  | .request _ (.setSize fileid size) => OpenFile s fileid fun f => SizeClean s.cache f size
  | .request _ (.remove path) => PathClean s.cache path depth
  | .request _ (.openat dirFileid path _) =>
    OpenFile (openAlloc s).2.2 dirFileid fun dir =>
      ElemsClean (openAlloc s).2.2.cache dir (pathElems path)
  | .request _ (.close _) | .request _ (.dirty _ _) | .request _ .sync => True
  | .store b _ _ => PlainBlock s.cache.content b
  | .share _ _ | .memory _ => True

/-- All events of a run are harmless. -/
def HarmlessRun (depth : ℕ) (s : FileServer) : List FsEvent → Prop
  | [] => True
  | e :: es => Harmless depth s e ∧ ∀ s1, fsStep depth s e = .ok s1 → HarmlessRun depth s1 es

/-! ## One event -/

/-- What the server relies on between two requests. -/
structure ServerInv (s : FileServer) : Prop where
  cache : CacheInv s.cache
  files : ∀ i f, (s.opentab i).file = some f → s.cache.mapped f.block = true

namespace ServerInv

/-- The cache changes, the open files do not. -/
lemma setCache (hs : ServerInv s) (hc : CacheInv s'.cache)
    (hm : ∀ b, s.cache.mapped b = true → s'.cache.mapped b = true)
    (ho : ∀ i, (s'.opentab i).file = (s.opentab i).file) : ServerInv s' where
  cache := hc
  files := fun i f hf => hm _ (hs.files i f (ho i ▸ hf))

/-- A reply changes no file. -/
lemma ipcSend {reply : Reply} (hs : ServerInv s) : ServerInv (s.ipcSend reply) := ⟨hs.cache, hs.files⟩

/-- `open_alloc` leaves the file system alone. -/
lemma openAlloc (hs : ServerInv s) : ServerInv (openAlloc s).2.2 := by
  have hset : ∀ (c : BlockCache) i (o : Open), Loads s.cache c → o.file = (s.opentab i).file →
      ServerInv ({ s with cache := c }.setOpen i o) := by
    intro c i o hl ho
    refine hs.setCache (hl.inv hs.cache) hl.mapped fun j => ?_
    by_cases hj : j = i
    · rw [hj, setOpen_self, ho]
    · rw [setOpen_of_ne hj]
  have hrest : Loads s.cache { s.cache with grants := fun n => s.cache.grants (n + 1) } :=
    ⟨rfl, fun _ hb => hb, rfl, rfl⟩
  unfold MosVolca.openAlloc
  split
  · exact hs
  · simp only
    split_ifs
    · exact hset s.cache _ _ (Loads.refl _) rfl
    · exact hset _ _ _ hrest rfl
    · exact hs.setCache (hrest.inv hs.cache) hrest.mapped fun _ => rfl

/-- An error reply changes no file. -/
lemma sendError (hs : ServerInv s) : ServerInv (sendError s envid r) := by
  unfold MosVolca.sendError
  split_ifs
  · exact hs.ipcSend
  · exact hs

/-- The entry of an open file is filled with a file in the cache. -/
lemma finishOpen {o : Option ℕ} {file : Option FilePtr} (hs : ServerInv s)
    (hf : ∀ f, file = some f → s.cache.mapped f.block = true)
    (h : finishOpen s envid omode o file = .ok s') : ServerInv s' := by
  unfold MosVolca.finishOpen at h
  split at h
  · simp at h
  · rename_i i
    obtain ⟨f, hfile, h1⟩ := bind_eq_ok.mp h
    obtain rfl := Except.ok.inj h1
    refine ServerInv.ipcSend ⟨hs.cache, fun j g hg => ?_⟩
    by_cases hj : j = i
    · rw [hj, setOpen_self] at hg
      obtain rfl := Option.some.inj hg
      cases file with
      | none => simp [derefFile] at hfile
      | some f' =>
        obtain rfl := Except.ok.inj hfile
        exact hf _ rfl
    · rw [setOpen_of_ne hj] at hg
      exact hs.files j g hg

/-- The file could not be opened. -/
lemma openMissing {file file' : Option FilePtr} {r r' : Word} (hc : CacheInv c)
    (hfile : file = none) (h : openMissing c depth path omode r file = .ok (r', file', c'))
    (hclean : omode &&& oCreat ≠ 0 ∨ omode &&& oMkdir ≠ 0 → CreateClean c depth path ∧
      (omode &&& oCreat = 0 → ∀ r f c1, fileCreate c depth path = .ok (r, some f, c1) →
        TypeClean c1 f)) :
    CacheInv c' ∧ (∀ b, c.mapped b = true → c'.mapped b = true) ∧
      ∀ f, file' = some f → c'.mapped f.block = true := by
  subst hfile
  unfold MosVolca.openMissing at h
  by_cases hcreat : omode &&& oCreat ≠ 0
  · rw [if_pos hcreat] at h
    obtain ⟨⟨r1, f1, c1⟩, hcr, h1⟩ := bind_eq_ok.mp h
    obtain ⟨hc1, hm1, hf1⟩ := hc.fileCreate hcr (hclean (.inl hcreat)).1
    simp only [pure_eq_ok, Except.ok.injEq, Prod.mk.injEq, Option.or_none] at h1
    obtain ⟨-, rfl, rfl⟩ := h1
    exact ⟨hc1, hm1, fun f hf => (hf1 f hf).mapped⟩
  · rw [if_neg hcreat] at h
    by_cases hmk : omode &&& oMkdir ≠ 0
    · rw [if_pos hmk] at h
      obtain ⟨⟨r1, f1, c1⟩, hcr, h1⟩ := bind_eq_ok.mp h
      obtain ⟨hclean1, htype⟩ := hclean (.inr hmk)
      obtain ⟨hc1, hm1, hf1⟩ := hc.fileCreate hcr hclean1
      obtain ⟨f, hderef, h2⟩ := bind_eq_ok.mp h1
      simp only [pure_eq_ok, Except.ok.injEq, Prod.mk.injEq] at h2
      obtain ⟨-, rfl, rfl⟩ := h2
      cases f1 with
      | none => simp [derefFile] at hderef
      | some g =>
        obtain rfl := Except.ok.inj hderef
        have hg := hf1 _ rfl
        refine ⟨hc1.setType hg.dirent hg.mapped (htype (by simpa using hcreat) r1 _ c1 hcr), hm1, ?_⟩
        exact fun f hf => Option.some.inj hf ▸ hg.mapped
    · rw [if_neg hmk] at h
      simp only [pure_eq_ok, Except.ok.injEq, Prod.mk.injEq] at h
      obtain ⟨-, rfl, rfl⟩ := h
      exact ⟨hc, fun _ hb => hb, fun f hf => absurd hf (by simp)⟩

/-- The results of `file_open`: an error comes without a file. -/
lemma fileOpen {file : Option FilePtr} (hc : CacheInv c)
    (h : fileOpen c depth path = .ok (r, file, c')) (hclean : PathClean c path depth) :
    CacheInv c' ∧ (∀ b, c.mapped b = true → c'.mapped b = true) ∧
      (∀ f, file = some f → c'.mapped f.block = true) ∧ (r.slt 0 = true → file = none) := by
  unfold MosVolca.fileOpen at h
  obtain ⟨⟨x, c1⟩, hwalk, h1⟩ := bind_eq_ok.mp h
  simp only [pure_eq_ok, Except.ok.injEq, Prod.mk.injEq] at h1
  obtain ⟨rfl, rfl, rfl⟩ := h1
  obtain ⟨hc1, hg, hres, -⟩ := hc.walkPath hwalk hclean
  refine ⟨hc1, hg.mapped, fun f hf => (hres.file f hf).mapped, fun hr => hres.none fun h0 => ?_⟩
  rw [h0] at hr
  exact absurd hr (by decide)

/-- `serve_open`. -/
lemma serveOpen (hs : ServerInv s) (h : serveOpen s depth envid path omode = .ok s')
    (hclean : OpenClean (MosVolca.openAlloc s).2.2.cache depth path omode) : ServerInv s' := by
  have hs1 := hs.openAlloc
  unfold MosVolca.serveOpen at h
  rcases hoa : MosVolca.openAlloc s with ⟨r0, o, s1⟩
  rw [hoa] at h hs1 hclean
  have hs2 : ServerInv (MosVolca.sendError s1 envid r0) := hs1.sendError
  have hcache : (MosVolca.sendError s1 envid r0).cache = s1.cache := by
    unfold MosVolca.sendError
    split_ifs <;> rfl
  -- the reply, and the rest of the function
  have hfinish : ∀ {r : Word} {f : Option FilePtr} {c : BlockCache}, CacheInv c →
      (∀ b, s1.cache.mapped b = true → c.mapped b = true) →
      (∀ g, f = some g → c.mapped g.block = true) →
      (if r.slt 0 = true then
        pure (({ MosVolca.sendError s1 envid r0 with cache := c } : FileServer).ipcSend
          (.value envid r))
        else MosVolca.finishOpen { MosVolca.sendError s1 envid r0 with cache := c } envid omode o f)
        = .ok s' → ServerInv s' := by
    intro r f c hc hm hf h3
    have hs3 : ServerInv { MosVolca.sendError s1 envid r0 with cache := c } :=
      hs2.setCache hc (hcache ▸ hm) fun _ => rfl
    split_ifs at h3
    · exact Except.ok.inj h3 ▸ hs3.ipcSend
    · exact hs3.finishOpen hf h3
  simp only [hcache] at h
  obtain ⟨⟨r, f, c⟩, hopen, h1⟩ := bind_eq_ok.mp h
  obtain ⟨hc, hm, hf, hnone⟩ := fileOpen hs1.cache hopen hclean.1
  simp only at h1
  split_ifs at h1 with hr
  · obtain ⟨⟨r', f', c'⟩, hmiss, h2⟩ := bind_eq_ok.mp h1
    obtain ⟨hc', hm', hf'⟩ := openMissing hc (hnone hr) hmiss (hclean.2 r f c hopen hr)
    exact hfinish hc' (fun b hb => hm' b (hm b hb)) hf' h2
  · rw [pure_eq_ok, ok_bind] at h1
    exact hfinish hc hm hf h1

/-- The file of an identifier of an open file. -/
lemma openFile {P : FilePtr → Prop} (hs : ServerInv s) (h : OpenFile s fileid P)
    (hi : openLookup s fileid = some i) (hf : derefFile (s.opentab i).file = .ok f) :
    InCache s.cache f ∧ P f := by
  cases hfile : (s.opentab i).file with
  | none =>
    rw [hfile] at hf
    simp [derefFile] at hf
  | some g =>
    rw [hfile] at hf
    obtain rfl := Except.ok.inj hf
    obtain ⟨hd, hp⟩ := h i _ hi hfile
    exact ⟨⟨hd, hs.files i _ hfile⟩, hp⟩

/-- `serve_openat`. -/
lemma serveOpenat (hs : ServerInv s) (h : serveOpenat s envid fileid path omode = .ok s')
    (hclean : OpenFile (MosVolca.openAlloc s).2.2 fileid fun dir =>
      ElemsClean (MosVolca.openAlloc s).2.2.cache dir (pathElems path)) : ServerInv s' := by
  have hs1 := hs.openAlloc
  unfold MosVolca.serveOpenat at h
  rcases hoa : MosVolca.openAlloc s with ⟨r0, o, s1⟩
  rw [hoa] at h hs1 hclean
  have hs2 : ServerInv (MosVolca.sendError s1 envid r0) := hs1.sendError
  have hcache : (MosVolca.sendError s1 envid r0).cache = s1.cache ∧
      (MosVolca.sendError s1 envid r0).opentab = s1.opentab := by
    unfold MosVolca.sendError
    split_ifs <;> exact ⟨rfl, rfl⟩
  have hlook : openLookup (MosVolca.sendError s1 envid r0) fileid = openLookup s1 fileid := by
    unfold openLookup
    rw [hcache.2]
  simp only [hlook, hcache.1, hcache.2] at h
  split at h
  · exact Except.ok.inj h ▸ hs2.ipcSend
  · rename_i i hi
    obtain ⟨dir, hderef, h1⟩ := bind_eq_ok.mp h
    obtain ⟨⟨r, f, c⟩, hopen, h2⟩ := bind_eq_ok.mp h1
    obtain ⟨hdir, helems⟩ := hs1.openFile hclean hi hderef
    unfold fileOpenat walkPathAt at hopen
    obtain ⟨⟨x, c1⟩, hwalk, h3⟩ := bind_eq_ok.mp hopen
    simp only [pure_eq_ok, Except.ok.injEq, Prod.mk.injEq] at h3
    obtain ⟨rfl, rfl, rfl⟩ := h3
    obtain ⟨hc1, hg, hres, -⟩ := hs1.cache.walkElems hdir (fun g hg => absurd hg (by simp)) hwalk helems
    have hs3 : ServerInv ⟨c1, s1.opentab, (MosVolca.sendError s1 envid r0).replies⟩ :=
      hs1.setCache hc1 hg.mapped fun _ => rfl
    simp only at h2
    split_ifs at h2
    · exact Except.ok.inj h2 ▸ hs3.ipcSend
    · exact hs3.finishOpen (fun g hg => (hres.file g hg).mapped) h2

/-- A request on an open file keeps the invariant if its work does. -/
lemma serveFile {work : FileServer → FilePtr → Kernel FileServer}
    (hs : ServerInv s) (h : serveFile s envid fileid work = .ok s')
    (hwork : ∀ i f, openLookup s fileid = some i → derefFile (s.opentab i).file = .ok f →
      work s f = .ok s' → ServerInv s') : ServerInv s' := by
  unfold MosVolca.serveFile at h
  split at h
  · exact Except.ok.inj h ▸ hs.ipcSend
  · rename_i i hi
    obtain ⟨f, hderef, h1⟩ := bind_eq_ok.mp h
    exact hwork i f hi hderef h1

/-- A request for a block does to the invariant what its work does. -/
lemma serveBlock {work : FileServer → FilePtr → Kernel FileServer} {bno : ℕ}
    (hs : ServerInv s) (h : serveBlock s envid fileid bno work = .ok s')
    (hwork : ∀ i f, openLookup s fileid = some i → derefFile (s.opentab i).file = .ok f →
      work s f = .ok s' → ServerInv s') : ServerInv s' := by
  unfold MosVolca.serveBlock at h
  split_ifs at h
  · exact Except.ok.inj h ▸ hs.ipcSend
  · exact hs.serveFile h hwork

/-- One request. -/
theorem request {req : FsRequest} (hs : ServerInv s)
    (h : serveRequest s depth envid req = .ok s') (hclean : Harmless depth s (.request envid req)) :
    ServerInv s' := by
  cases req with
  | openFile path omode => exact hs.serveOpen h hclean
  | openat dirFileid path omode => exact hs.serveOpenat h hclean
  | map fileid offset =>
    simp only [serveRequest, serveMap] at h
    refine hs.serveBlock h fun i f hi hf hw => ?_
    obtain ⟨hin, hmap⟩ := hs.openFile hclean hi hf
    obtain ⟨⟨x, c⟩, hget, h1⟩ := bind_eq_ok.mp hw
    obtain ⟨hc, hg, -⟩ := hs.cache.fileGetBlock hin.dirent hin.mapped hget hmap
    have hs1 : ServerInv { s with cache := c } := hs.setCache hc hg.mapped fun _ => rfl
    cases x with
    | error r => exact Except.ok.inj h1 ▸ hs1.ipcSend
    | ok blk => exact Except.ok.inj h1 ▸ hs1.ipcSend
  | setSize fileid size =>
    simp only [serveRequest, serveSetSize] at h
    refine hs.serveFile h fun i f hi hf hw => ?_
    obtain ⟨hin, hsize⟩ := hs.openFile hclean hi hf
    obtain ⟨⟨r, c⟩, hset, h1⟩ := bind_eq_ok.mp hw
    obtain ⟨hc, hm⟩ := hs.cache.fileSetSize hin hsize hset
    have hs1 : ServerInv { s with cache := c } := hs.setCache hc hm fun _ => rfl
    exact Except.ok.inj h1 ▸ hs1.ipcSend
  | close fileid =>
    simp only [serveRequest, serveClose] at h
    refine hs.serveFile h fun i f hi hf hw => ?_
    obtain ⟨c, hclose, h1⟩ := bind_eq_ok.mp hw
    unfold fileClose at hclose
    obtain ⟨c1, hflush, h2⟩ := bind_eq_ok.mp hclose
    obtain ⟨c2, hdir, h3⟩ := bind_eq_ok.mp h2
    have hl1 := fileFlush_loads hflush
    obtain ⟨hc2, hm2⟩ := (hl1.inv hs.cache).fileFlushDir hdir
    have hl3 := (writeBlock_loads h3).2.2
    have hs1 : ServerInv { s with cache := c } := hs.setCache (hl3.inv hc2)
      (fun b hb => hl3.mapped b (hm2 b (hl1.mapped b hb))) fun _ => rfl
    exact Except.ok.inj h1 ▸ hs1.ipcSend
  | dirty fileid offset =>
    simp only [serveRequest, serveDirty] at h
    refine hs.serveBlock h fun i f hi hf hw => ?_
    obtain ⟨⟨r, c⟩, hdirty, h1⟩ := bind_eq_ok.mp hw
    have hl := fileDirty_loads hdirty
    have hs1 : ServerInv { s with cache := c } :=
      hs.setCache (hl.inv hs.cache) hl.mapped fun _ => rfl
    exact Except.ok.inj h1 ▸ hs1.ipcSend
  | remove path =>
    obtain ⟨⟨r, c⟩, hrem, h1⟩ := bind_eq_ok.mp h
    obtain ⟨hc, hm⟩ := hs.cache.fileRemove hrem hclean
    have hs1 : ServerInv { s with cache := c } := hs.setCache hc hm fun _ => rfl
    exact Except.ok.inj h1 ▸ hs1.ipcSend
  | sync =>
    obtain ⟨c, hsync, h1⟩ := bind_eq_ok.mp h
    have hl := fsSync_loads hsync
    have hs1 : ServerInv { s with cache := c } :=
      hs.setCache (hl.inv hs.cache) hl.mapped fun _ => rfl
    exact Except.ok.inj h1 ▸ hs1.ipcSend

/-- A store of a client to a block that is neither in the bitmap nor of an entry. -/
lemma store {b j : ℕ} (hs : ServerInv s) (hm : s.cache.mapped b = true)
    (hb : PlainBlock s.cache.content b) :
    ServerInv { s with cache := s.cache.store ⟨b, j⟩ w } := by
  have hcon : (s.cache.store ⟨b, j⟩ w).content = putWord s.cache.content ⟨b, j⟩ w := content_store hm
  have hmap : SameMap s.cache.content (putWord s.cache.content ⟨b, j⟩ w) :=
    sameMap_putWord (.inr hb.1)
  have hc : Consistent (putWord s.cache.content ⟨b, j⟩ w) := by
    exact hs.cache.consistent.congr hmap.nblocks (fun _ => hmap.isFree_iff.mp) fun f hf =>
      hb.agrees hf
  refine hs.setCache ⟨hs.cache.super, hs.cache.bitmap, fun x hx hlt => hs.cache.map x hx ?_, ?_⟩
    (fun _ hx => hx) fun _ => rfl
  · rwa [hcon, firstData, hmap.nblocks] at hlt
  · rw [hcon]
    exact hc

/-- **One event.** -/
theorem step {e : FsEvent} (hs : ServerInv s) (h : fsStep depth s e = .ok s')
    (hharm : Harmless depth s e) : ServerInv s' := by
  cases e with
  | request envid req => exact hs.request h hharm
  | share i n =>
    obtain rfl := Except.ok.inj h
    refine hs.setCache hs.cache (fun _ hb => hb) fun j => ?_
    by_cases hj : j = i
    · rw [hj, setOpen_self]
    · rw [setOpen_of_ne hj]
  | store b i w =>
    simp only [fsStep] at h
    split_ifs at h with hm
    exact Except.ok.inj h ▸ hs.store hm hharm
  | memory grants =>
    obtain rfl := Except.ok.inj h
    have hl : Loads s.cache { s.cache with grants := grants } := ⟨rfl, fun _ hb => hb, rfl, rfl⟩
    exact ⟨hl.inv hs.cache, hs.files⟩

/-- A run of harmless events. -/
theorem run {events : List FsEvent} (hs : ServerInv s) (h : fsRun depth s events = .ok s')
    (hharm : HarmlessRun depth s events) : ServerInv s' := by
  induction events generalizing s with
  | nil => exact Except.ok.inj h ▸ hs
  | cons e events ih =>
    rw [fsRun, List.foldlM_cons] at h
    obtain ⟨s1, hstep, h1⟩ := bind_eq_ok.mp h
    exact ih (hs.step hstep hharm.1) h1 (hharm.2 s1 hstep)

end ServerInv

/-! ## Runs from an image -/

/-- **Every block has one owner.** From a consistent image, after any run of harmless events, the
block pointers of the files point to blocks for data that are in use, and no two of them point to
the same block. -/
theorem blocksOwned_of_run {disk : Blocks} {grants : ℕ → Bool} {cache : BlockCache}
    {events : List FsEvent} (hd : Consistent disk)
    (hinit : fsInit (BlockCache.off disk grants) = .ok cache)
    (h : fsRun depth (serveInit cache) events = .ok s)
    (hharm : HarmlessRun depth (serveInit cache) events) : BlocksOwned s.cache.content := by
  have hs : ServerInv (serveInit cache) := ⟨CacheInv.fsInit hd hinit, fun i f hf => absurd hf (by
    simp [serveInit])⟩
  exact (hs.run h hharm).cache.consistent.blocksOwned

/-! ## An image -/

/-- An image of 1024 blocks with the files `a` (block 4) and `b` (block 5) in the root (block 3).
Word 10 of the data of `a` is 3. -/
def twoFiles : Blocks := fun b i =>
  if b = 1 then
    if i = 0 then fsMagic else if i = 1 then 1024 else if i = 2 then 0x2F
    else if i = 34 then 4096 else if i = 35 then ftypeDir else if i = 36 then 3 else 0
  else if b = 2 then if i = 0 then 0xFFFFFFC0 else if i < 32 then 0xFFFFFFFF else 0
  else if b = 3 then
    if i = 0 then 0x61 else if i = 32 then 4096 else if i = 34 then 4
    else if i = 64 then 0x62 else if i = 96 then 4096 else if i = 98 then 5 else 0
  else if b = 4 then if i = 10 then 3 else 0
  else 0

lemma twoFiles_flat : FlatImage twoFiles 2 where
  root := ⟨by decide, by decide⟩
  plain := by decide
  entry := by decide
  first := rfl
  blocks := by decide
  used := by decide

lemma twoFiles_consistent : Consistent twoFiles := twoFiles_flat.consistent

/-! ## A shared block -/

/-- A client opens `a` and maps its block, removes `a`, opens `b` and maps its block 10. -/
def staleRun : List FsEvent :=
  [.request 7 (.openFile [0x2F, 0x61] 0), .share 0 2, .request 7 (.map 1024 0),
    .request 7 (.remove [0x2F, 0x61]), .request 7 (.openFile [0x2F, 0x62] 0), .share 1 2,
    .request 7 (.map 1025 40960)]

/-- The run from the image of two files. -/
def staleEnd : Kernel FileServer := do
  let cache ← fsInit (BlockCache.off twoFiles fun _ => true)
  fsRun 1 (serveInit cache) staleRun

/-- The words of the server that tell which blocks the root and `b` have. -/
def sharesBlock (s : FileServer) : Bool :=
  let c := s.cache.content
  wordAt c FilePtr.root.type == ftypeDir && wordAt c FilePtr.root.size == 4096 &&
    wordAt c (FilePtr.root.direct 0) == 3 && (c 3 64).setWidth 8 == (0x62 : Char8) &&
    wordAt c (FilePtr.entry 3 1).indirect == 4 && c 4 10 == 3

lemma staleEnd_shares : ∃ s, staleEnd = .ok s ∧ sharesBlock s = true := by
  have h : (match staleEnd with | .ok s => sharesBlock s | .error _ => false) = true := by rfl
  cases hs : staleEnd with
  | error e =>
    rw [hs] at h
    exact absurd h Bool.false_ne_true
  | ok s => exact ⟨s, rfl, by rwa [hs] at h⟩

/-- **Two block pointers to one block.** The freed block 4 becomes the indirect block of `b`, and
its old word 10 is taken for a block pointer: block 10 of `b` is the block of the root. -/
theorem stale_indirect : Consistent twoFiles ∧
    ∃ cache s, fsInit (BlockCache.off twoFiles fun _ => true) = .ok cache ∧
      fsRun 1 (serveInit cache) staleRun = .ok s ∧ ¬ BlocksOwned s.cache.content := by
  refine ⟨twoFiles_consistent, ?_⟩
  obtain ⟨s, hs, hw⟩ := staleEnd_shares
  obtain ⟨cache, hinit, hrun⟩ := bind_eq_ok.mp hs
  refine ⟨cache, s, hinit, hrun, fun h => ?_⟩
  simp only [sharesBlock, Bool.and_eq_true, beq_iff_eq] at hw
  obtain ⟨⟨⟨⟨⟨htype, hsize⟩, hroot⟩, hname⟩, hind⟩, hfar⟩ := hw
  have hold : Holds s.cache.content FilePtr.root (.data 0) 3 :=
    ⟨(by decide : 34 + 0 < 64), fun h0 => absurd (hroot.symm.trans h0) (by decide),
      congrArg BitVec.toNat hroot⟩
  have hlive : Live s.cache.content (FilePtr.entry 3 1) := by
    refine .child .root ⟨htype, 0, ?_, hold⟩ (by decide) ?_
    · rw [sizeBlocksOf, hsize]
      decide
    · exact fun h0 => absurd (hname.symm.trans h0) (by decide)
  have hold' : Holds s.cache.content (FilePtr.entry 3 1) (.data 10) 3 := by
    have hplace : placeOf s.cache.content (FilePtr.entry 3 1) (Slot.data 10).field = ⟨4, 10⟩ := by
      change (⟨(wordAt s.cache.content (FilePtr.entry 3 1).indirect).toNat, 10⟩ : WordPtr) = ⟨4, 10⟩
      rw [hind]
      rfl
    unfold Holds
    rw [hplace]
    refine ⟨hasField_far.mpr ⟨by decide, by decide, ?_⟩, fun h0 => ?_, congrArg BitVec.toNat hfar⟩
    · rw [hind]
      decide
    · exact absurd (hfar.symm.trans h0) (by decide)
  exact absurd (h.once .root hlive hold hold').1 (by decide)

/-! ## A harmless run -/

/-- The removal of `a` fills no hole: the root has its block. -/
lemma pathClean_of_root {c : BlockCache} (hsize : c.sizeBlocks FilePtr.root = 1)
    (hroot : c.load (FilePtr.root.direct 0) = 3) : PathClean c [0x2F, 0x61] 1 := by
  refine ⟨?_, fun _ _ _ _ _ _ _ _ _ _ _ => trivial⟩
  rw [show pathElems [0x2F, 0x61] = [[0x61]] from rfl]
  refine fun _ _ => ⟨?_, fun _ _ _ => trivial⟩
  rw [hsize]
  refine ⟨⟨fun h => absurd h (by decide), fun ptr s1 hw h0 => ?_⟩, fun _ _ _ _ => trivial⟩
  rcases fileBlockWalk_cases hw with ⟨-, hptr, rfl⟩ | ⟨h, -⟩ | ⟨h, -⟩
  · obtain rfl := Except.ok.inj hptr
    exact absurd (hroot.symm.trans h0) (by decide)
  · exact absurd h (by decide)
  · exact absurd h (by decide)

/-- The removal of `a` from the image of two files. -/
lemma removeRun_checks : ∃ cache s, fsInit (BlockCache.off twoFiles fun _ => true) = .ok cache ∧
    fsRun 1 (serveInit cache) [.request 7 (.remove [0x2F, 0x61])] = .ok s ∧
      HarmlessRun 1 (serveInit cache) [.request 7 (.remove [0x2F, 0x61])] := by
  have h : (match fsInit (BlockCache.off twoFiles fun _ => true) with
      | .ok c => c.sizeBlocks FilePtr.root == 1 && c.load (FilePtr.root.direct 0) == 3 &&
        (match fsRun 1 (serveInit c) [.request 7 (.remove [0x2F, 0x61])] with
          | .ok _ => true | .error _ => false)
      | .error _ => false) = true := by rfl
  cases hc : fsInit (BlockCache.off twoFiles fun _ => true) with
  | error e =>
    rw [hc] at h
    exact absurd h Bool.false_ne_true
  | ok c =>
    rw [hc] at h
    simp only [Bool.and_eq_true, beq_iff_eq] at h
    obtain ⟨⟨hsize, hroot⟩, hrun⟩ := h
    cases hs : fsRun 1 (serveInit c) [.request 7 (.remove [0x2F, 0x61])] with
    | error e =>
      rw [hs] at hrun
      exact absurd hrun Bool.false_ne_true
    | ok s => exact ⟨c, s, rfl, hs, pathClean_of_root hsize hroot, fun _ _ => trivial⟩

/-- The blocks after the removal of `a`. -/
theorem blocksOwned_of_run_remove : ∃ cache s,
    fsInit (BlockCache.off twoFiles fun _ => true) = .ok cache ∧
      fsRun 1 (serveInit cache) [.request 7 (.remove [0x2F, 0x61])] = .ok s ∧
      BlocksOwned s.cache.content := by
  obtain ⟨c, s, hc, hs, hharm⟩ := removeRun_checks
  exact ⟨c, s, hc, hs, blocksOwned_of_run twoFiles_consistent hc hs hharm⟩

end MosVolca
