import MosVolca.User.FdCases

/-!
# An `ftruncate` that fails

`ftruncate` stores the new size in the descriptor before it asks the server, and no exit takes it
back. So an `ftruncate` that the server refuses leaves the new size in the descriptor; if the request
that is refused is one for a page, the pages before it stay mapped as well.

The program runs against the file server itself.

## Main definitions

* `MosVolca.fileServer` — the file server as a service: its answer is the first message that it sends
  back.
* `MosVolca.Client.SameFile` — what an `ftruncate` that fails should leave as it is.

## Main results

* `MosVolca.Client.OpenFile.ftruncate_error_iff` — when it leaves that as it is.
* `MosVolca.ftruncate_keeps_new_size` — a disk that is full.
-/

namespace MosVolca

/-- The first message that the server has sent since the state `s`. -/
def firstReply (s s1 : FileServer) : Option Reply := s1.replies[s.replies.length]?

/-- The words of a `struct Filefd`. -/
def Filefd.word (ff : Filefd) : ℕ → Word
  | 0 => ff.devId
  | 1 => ff.offset
  | 2 => ff.omode
  | 3 => ff.fileid
  | k + 4 => ff.file k

/-- The environment has mapped the page of an `o_ff` that it has received. -/
def shareOpen (s : FileServer) (i : ℕ) : FileServer :=
  s.setOpen i { s.opentab i with pageref := (s.opentab i).pageref + 1 }

/-- The file server, for the environment `envid`. The page of block `b` is `frame b`, and that of the
`o_ff` of entry `i` is `ffFrame i`. -/
def fileServer (depth : ℕ) (envid : Word) (frame ffFrame : ℕ → ℕ) : FileService FileServer where
  page := fun s req => do
    let s1 ← serveRequest s depth envid req
    match firstReply s s1 with
    | some (.block _ b) => pure (.ok ⟨frame b, s1.cache.mem b⟩, s1)
    | some (.filefd _ i) => pure (.ok ⟨ffFrame i, (s1.opentab i).ff.word⟩, shareOpen s1 i)
    | some (.value _ r) =>
      if h : r.slt 0 = true then pure (.error ⟨r, h⟩, s1) else throw (.panic "no page")
    | none => throw (.panic "no reply")
  value := fun s req => do
    let s1 ← serveRequest s depth envid req
    match firstReply s s1 with
    | some (.value _ r) => pure (r, s1)
    | some _ => pure (0, s1)
    | none => throw (.panic "no reply")

/-- The size that the server has for an open file. -/
def serverSize (s : FileServer) (fileid : Word) : Option Word :=
  (s.opentab (fileid.toNat % maxopen)).file.map fun f => s.cache.load f.size

variable {depth : ℕ} {envid fileid size r : Word} {frame ffFrame : ℕ → ℕ} {s s1 : FileServer}

lemma firstReply_ipcSend (s : FileServer) (c : BlockCache) (reply : Reply) :
    firstReply s ({ s with cache := c }.ipcSend reply) = some reply := by
  simp [firstReply, FileServer.ipcSend]

/-- `file_set_size` does not fail. -/
lemma fileSetSize_result {c c' : BlockCache} {f : FilePtr} (h : fileSetSize c f size = .ok (r, c')) :
    r = 0 := by
  have hfinish : ∀ c1 : BlockCache, (do let c ← fileFlushDir c1 f; pure (0, c)) = .ok (r, c') →
      r = 0 := fun c1 h => by
    obtain ⟨c2, -, h⟩ := bind_eq_ok.mp h
    cases h
    rfl
  unfold fileSetSize at h
  dsimp only at h
  split_ifs at h
  · obtain ⟨c1, -, h⟩ := bind_eq_ok.mp h
    exact hfinish _ h
  · exact hfinish _ h

/-- A `set_size` that the server refuses has changed no file. -/
lemma fileServer_setSize_refused
    (h : (fileServer depth envid frame ffFrame).value s (.setSize fileid size) = .ok (r, s1))
    (hr : r.slt 0 = true) : serverSize s1 fileid = serverSize s fileid := by
  obtain ⟨s2, hs2, h⟩ := bind_eq_ok.mp h
  change serveSetSize s envid fileid size = .ok s2 at hs2
  unfold serveSetSize serveFile at hs2
  cases hlook : openLookup s fileid with
  | none =>
    rw [hlook, pure_eq_ok, Except.ok.injEq] at hs2
    rw [← hs2, firstReply_ipcSend s s.cache] at h
    cases h
    rfl
  | some i =>
    rw [hlook] at hs2
    obtain ⟨f, -, hs2⟩ := bind_eq_ok.mp hs2
    obtain ⟨⟨r1, c⟩, hset, hs2⟩ := bind_eq_ok.mp hs2
    rw [fileSetSize_result hset] at hs2
    cases hs2
    rw [firstReply_ipcSend] at h
    cases h
    exact absurd hr (by decide)

/-- The page that the server sends for a request of a block is the page of a block. -/
lemma fileServer_map_page {offset : Word} {g : FsPage}
    (h : (fileServer depth envid frame ffFrame).page s (.map fileid offset) = .ok (.ok g, s1)) :
    ∃ b, g.page = frame b := by
  obtain ⟨s2, hs2, h⟩ := bind_eq_ok.mp h
  change serveMap s envid fileid offset = .ok s2 at hs2
  have hreply : (∃ r, firstReply s s2 = some (.value envid r)) ∨
      ∃ b, firstReply s s2 = some (.block envid b) := by
    unfold serveMap serveBlock at hs2
    split_ifs at hs2
    · cases hs2
      exact .inl ⟨_, firstReply_ipcSend s s.cache _⟩
    unfold serveFile at hs2
    cases hlook : openLookup s fileid with
    | none =>
      rw [hlook] at hs2
      cases hs2
      exact .inl ⟨_, firstReply_ipcSend s s.cache _⟩
    | some i =>
      rw [hlook] at hs2
      obtain ⟨f, -, hs2⟩ := bind_eq_ok.mp hs2
      obtain ⟨⟨r1, c⟩, -, hs2⟩ := bind_eq_ok.mp hs2
      cases r1 with
      | error r =>
        cases hs2
        exact .inl ⟨_, firstReply_ipcSend s c _⟩
      | ok b =>
        cases hs2
        exact .inr ⟨_, firstReply_ipcSend s c _⟩
  rcases hreply with ⟨r, hr⟩ | ⟨b, hb⟩
  · rw [hr] at h
    dsimp only at h
    split_ifs at h
    cases h
  · rw [hb] at h
    cases h
    exact ⟨b, rfl⟩

namespace Client

variable {c c' : Client FileServer} {i : ℕ} {p : UserPage}

/-- The size in the descriptor, the size that the server has and the pages in the window of the
descriptor are the same. -/
structure SameFile (c c' : Client FileServer) (i : ℕ) (p : UserPage) : Prop where
  size : c'.fileSize p = c.fileSize p
  server : c'.server.bind (serverSize · (c.fileId p)) = c.server.bind (serverSize · (c.fileId p))
  pages : ∀ k < 1024, c'.map (dataVpn i k) = c.map (dataVpn i k)

/-- An `ftruncate` to the size before fails only if `set_size` is refused. -/
lemma ftruncatePages_same {fd : Word} {svc : FileService FileServer}
    (h : c.ftruncatePages svc fd fileid size size = .ok (r, c')) (hr : r.slt 0 = true) :
    ∃ s1, (∃ s, c.server = some s ∧ svc.value s (.setSize fileid size) = .ok (r, s1)) ∧
      c' = c.setServer (some s1) := by
  have hnone : pagesBetween size size = [] := by
    rw [pagesBetween, Nat.sub_self]
    rfl
  obtain ⟨⟨r1, c1⟩, h1, h⟩ := bind_eq_ok.mp h
  obtain ⟨s, s1, hs, hv, rfl⟩ := fsipcValue_ok_iff.mp h1
  rw [hnone] at h
  dsimp only at h
  split_ifs at h with hneg
  · cases h
    exact ⟨s1, ⟨s, hs, hv⟩, rfl⟩
  · cases h
    exact absurd hr (by decide)

/-- **An `ftruncate` that fails** changes nothing exactly if the size is too large or the one before,
or if the server refuses none of its requests and it does not fail. -/
theorem OpenFile.ftruncate_error_iff (ho : c.OpenFile i p)
    (hframe : ∀ b, frame b ≠ p.page)
    (h : c.ftruncate (fileServer depth envid frame ffFrame) (BitVec.ofNat 32 i) size =
      .ok (r, c')) :
    (r.slt 0 = true → SameFile c c' i p) ↔
      size > maxfilesize ∨ size = c.fileSize p ∨
        ∃ s, c.server = some s ∧ (fileServer depth envid frame ffFrame).sizeRefusal (c.fileId p)
          (c.fileSize p) size s = .ok none := by
  rcases ho.ftruncate_iff.mp h with ⟨hmax, rfl, rfl⟩ | ⟨hmax, -, hrun⟩
  · exact iff_of_true (fun _ => ⟨rfl, rfl, fun _ _ => rfl⟩) (.inl hmax)
  obtain ⟨s, hs, href, -⟩ := ftruncatePages_refusal hrun
  have hsize : c'.fileSize p = size :=
    (congrFun (ftruncatePages_mem (fun s k g s1 hg => by
      obtain ⟨b, hb⟩ := fileServer_map_page hg
      exact hb ▸ hframe b) hrun) 36).trans (TwoLevel.write_same ..)
  constructor
  · intro hsame
    by_cases hneg : r.slt 0 = true
    · exact .inr (.inl (hsize.symm.trans (hsame hneg).size))
    · rw [if_neg hneg] at href
      exact .inr (.inr ⟨s, hs, href⟩)
  · rintro (hlarge | heq | ⟨s', hs', hnone⟩) hneg
    · exact absurd hlarge hmax
    · rw [heq] at hrun
      obtain ⟨s1, hv, hc'⟩ := ftruncatePages_same hrun hneg
      refine ⟨hsize.trans heq, ?_, fun _ _ => hc' ▸ rfl⟩
      obtain ⟨s2, hs2, hv⟩ := hv
      obtain rfl : s2 = s := Option.some.inj (hs2.symm.trans hs)
      rw [hc', show c.server = some s2 from hs]
      exact fileServer_setSize_refused hv hneg
    · rw [Option.some.inj (hs.symm.trans hs'), hnone, if_pos hneg] at href
      cases href

end Client

/-! ## A disk that is full -/

/-- An image of three blocks, with an empty root directory and no free block. -/
def emptyRootDisk : TwoLevel.Store Word := fun b k =>
  if b = 1 ∧ k = 0 then fsMagic
  else if b = 1 ∧ k = 1 then 3
  else if (⟨b, k⟩ : WordPtr) = FilePtr.root.type then ftypeDir
  else 0

/-- A program that has nothing mapped. -/
def freshClient (s : FileServer) : Client FileServer where
  map := fun _ => none
  table := fun n => n == 383 || n == 384
  mem := fun _ _ => 0
  grants := fun _ => none
  server := some s
  tables := fun _ h => absurd rfl h

/-- The program opens the root directory. -/
def openEmptyRoot : Kernel (Word × Client FileServer) := do
  let cache ← fsInit (BlockCache.off emptyRootDisk fun _ => true)
  (freshClient (serveInit cache)).openAP (fileServer 1 7 (· + 100) (· + 10)) [0x2F] 0

/-- The program changes the size of the root directory. -/
def growRoot (size : Word) : Kernel (Client FileServer × Word × Client FileServer) := do
  let (_, c) ← openEmptyRoot
  let (r, c') ← c.ftruncate (fileServer 1 7 (· + 100) (· + 10)) 0 size
  pure (c, r, c')

/-- The page of its `struct Filefd`. -/
def rootPage : UserPage := ⟨10, pteD ||| pteLibrary ||| pteV⟩

/-- The root directory is open, and it cannot be made larger. -/
lemma growRoot_fails : ∃ c r c', growRoot 4096 = .ok (c, r, c') ∧ c.OpenFile 0 rootPage ∧
    c.ftruncate (fileServer 1 7 (· + 100) (· + 10)) (BitVec.ofNat 32 0) 4096 = .ok (r, c') ∧
    r.slt 0 = true ∧ c'.fileSize rootPage ≠ c.fileSize rootPage := by
  have heval : (match growRoot 4096 with
      | .ok (c, r, c') => c.map (fdVpn 0) == some rootPage && c.mem rootPage.page 0 == devfileId &&
        r.slt 0 && c'.fileSize rootPage != c.fileSize rootPage
      | .error _ => false) = true := by rfl
  cases hrun : growRoot 4096 with
  | error e =>
    rw [hrun] at heval
    exact absurd heval Bool.false_ne_true
  | ok x =>
    obtain ⟨c, r, c'⟩ := x
    rw [hrun] at heval
    simp only [Bool.and_eq_true, beq_iff_eq, bne_iff_ne] at heval
    obtain ⟨⟨⟨hpage, hdev⟩, hneg⟩, hne⟩ := heval
    obtain ⟨⟨fd, c1⟩, -, h⟩ := bind_eq_ok.mp hrun
    obtain ⟨⟨r1, c2⟩, htrunc, h⟩ := bind_eq_ok.mp h
    cases h
    exact ⟨c, r, c', rfl, ⟨by decide, hpage, hdev⟩, htrunc, hneg, hne⟩

/-- The theorem for the directory that is made larger. -/
theorem ftruncate_error_iff_growRoot : ∃ c r c', growRoot 4096 = .ok (c, r, c') ∧
    ((r.slt 0 = true → Client.SameFile c c' 0 rootPage) ↔
      (4096 : Word) > maxfilesize ∨ 4096 = c.fileSize rootPage ∨
        ∃ s, c.server = some s ∧ (fileServer 1 7 (· + 100) (· + 10)).sizeRefusal (c.fileId rootPage)
          (c.fileSize rootPage) 4096 s = .ok none) := by
  obtain ⟨c, r, c', hrun, ho, htrunc, -⟩ := growRoot_fails
  refine ⟨c, r, c', hrun, ho.ftruncate_error_iff (fun b => ?_) htrunc⟩
  change b + 100 ≠ 10
  omega

/-- **A disk that is full.** The program opens the root directory, which is empty, and asks for a size
of 4096 bytes. There is no block for it, so `ftruncate` fails, but the new size stays in the
descriptor. -/
theorem ftruncate_keeps_new_size : ∃ c r c', growRoot 4096 = .ok (c, r, c') ∧ r.slt 0 = true ∧
    ¬ Client.SameFile c c' 0 rootPage := by
  obtain ⟨c, r, c', hrun, -, -, hneg, hne⟩ := growRoot_fails
  exact ⟨c, r, c', hrun, hneg, fun h => hne h.size⟩

end MosVolca
