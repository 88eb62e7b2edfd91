import MosVolca.Fs.BlockOwner
import MosVolca.Fs.NameSets
import MosVolca.Fs.OpenFiles

/-!
# What an open file denotes

`opentab` holds a pointer to the structure of an open file in a block of a directory. `file_remove`
does not look at `opentab`: it empties the structure, and `dir_alloc_file` gives the first empty
structure to the next new file. From then on the requests on the old identifier act on the new file.

## Main definitions

* `MosVolca.OwnFile` — a request that acts on its own file.
* `MosVolca.HandleOn` — the open that an identifier comes from.
* `MosVolca.Spares` — the events that do not remove an open file.
* `MosVolca.HandlesOwn` — every request on an open file acts on its own file.

## Main results

* `MosVolca.HandleInv.handleStep` — a request on an open file acts on that file.
* `MosVolca.HandleInv.step` — the open files stay files if none is removed.
-/

namespace MosVolca

/-- A request on the open file of an identifier. -/
inductive OnHandle (fileid : Word) : FsRequest → Prop
  | map (offset : Word) : OnHandle fileid (.map fileid offset)
  | setSize (size : Word) : OnHandle fileid (.setSize fileid size)
  | close : OnHandle fileid (.close fileid)
  | dirty (offset : Word) : OnHandle fileid (.dirty fileid offset)

/-- The request from `s` to `s'` acts on `f` only: it changes the contents that belong to `f`, sends
blocks of `f`, and marks blocks of `f` as dirty. -/
structure ActsOnFile (s s' : FileServer) (f : FilePtr) : Prop where
  contents : ActsOn f s.cache.content s'.cache.content
  sent : ∀ envid b, s'.replies.getLast? = some (.block envid b) →
    ∃ q, Holds s'.cache.content f q b
  dirtied : ∀ b, s'.cache.dirty b = true →
    s.cache.dirty b = true ∨ ∃ q, Holds s.cache.content f q b
  table : s'.opentab = s.opentab

/-- The request from `s` to `s'` leaves `g` alone: its words stay, its blocks stay in use, and none
of them is sent. -/
structure LeavesAlone (s s' : FileServer) (g : FilePtr) : Prop where
  word : ∀ x, HasField s.cache.content g x →
    wordAt s'.cache.content (placeOf s.cache.content g x) =
      wordAt s.cache.content (placeOf s.cache.content g x)
  used : ∀ q b, Holds s.cache.content g q b → ¬ IsFree s'.cache.content b
  unsent : ∀ envid q b, Holds s.cache.content g q b →
    s'.replies.getLast? ≠ some (.block envid b)

/-- The file `g` of `s` was made after the state `s2`: at some time since then it was no file. -/
def MadeSince (depth : ℕ) (s2 : FileServer) (post : List FsEvent) (s : FileServer) (g : FilePtr) :
    Prop :=
  IsFile s.cache.content g ∧ ∃ mid rest t, post = mid ++ rest ∧ fsRun depth s2 mid = .ok t ∧
    ¬ IsFile t.cache.content g

/-- **The request acts on its own file**, which was opened in `s2`, before the events `post`: it acts
on `f` only, and leaves the files alone that were made later. -/
structure OwnFile (depth : ℕ) (s2 : FileServer) (post : List FsEvent) (s s' : FileServer)
    (f : FilePtr) : Prop where
  acts : ActsOnFile s s' f
  later : ∀ g, MadeSince depth s2 post s g → LeavesAlone s s' g

/-- The entry `i` is still the one that was taken in `s2`: a client maps its page, or is about to. -/
structure StaysOpen (s2 t : FileServer) (i : ℕ) : Prop where
  identifier : (t.opentab i).fileid = (s2.opentab i).fileid
  shared : 2 ≤ (t.opentab i).pageref ∨ ∃ envid, t.replies.getLast? = some (.filefd envid i)

/-- **The identifier of the entry `i` comes from an open of `f`**: the open leads to `s2`, and the
entry stays open in the events `post` that follow it. -/
structure HandleOn (depth : ℕ) (s0 : FileServer) (events : List FsEvent) (s : FileServer) (i : ℕ)
    (f : FilePtr) (s2 : FileServer) (post : List FsEvent) : Prop where
  opened : ∃ pre envid req s1, events = pre ++ .request envid req :: post ∧
    fsRun depth s0 pre = .ok s1 ∧ serveRequest s1 depth envid req = .ok s2 ∧
    Opens depth s1 envid req s2 i (s2.opentab i).fileid f
  run : fsRun depth s2 post = .ok s
  stays : ∀ mid rest t, post = mid ++ rest → fsRun depth s2 mid = .ok t → StaysOpen s2 t i

/-- **Every request on an open file acts on its own file**, in the runs of the events that have the
property `P`. -/
def HandlesOwn (P : FileServer → FsEvent → Prop) (depth : ℕ) (s0 : FileServer) : Prop :=
  ∀ events s i f s2 post envid req s', fsRun depth s0 events = .ok s → RunAll P depth s0 events →
    HandleOn depth s0 events s i f s2 post → 2 ≤ (s.opentab i).pageref →
    OnHandle (s.opentab i).fileid req → P s (.request envid req) →
    serveRequest s depth envid req = .ok s' → OwnFile depth s2 post s s' f

/-! ## The condition -/

/-- The file of an entry that a client has mapped. -/
def IsOpen (s : FileServer) (g : FilePtr) : Prop :=
  ∃ i < maxopen, 2 ≤ (s.opentab i).pageref ∧ (s.opentab i).file = some g

/-- The file that an identifier leads to has the property. -/
def OnFile (s : FileServer) (fileid : Word) (P : FilePtr → Prop) : Prop :=
  ∀ i f, openLookup s fileid = some i → (s.opentab i).file = some f → P f

/-- **The event spares the open files.** A removal removes neither an open file nor a directory above
one, and no directory above an open file is made smaller. The directory of a file that is written
back is in the cache, and the event runs into no old data of blocks. A path has no character 0. -/
def Spares (depth : ℕ) (s : FileServer) : FsEvent → Prop
  | .request _ (.openFile path omode) =>
    (0 : Char8) ∉ path ∧ OpenClean (openAlloc s).2.2.cache depth path omode
  | .request _ (.openat dirFileid path _) => (0 : Char8) ∉ path ∧
    OnFile (openAlloc s).2.2 dirFileid fun dir =>
      ElemsClean (openAlloc s).2.2.cache dir (pathElems path)
  | .request _ (.map fileid offset) =>
    OnFile s fileid fun f => MapClean s.cache f (offset.toNat / 4096)
  | .request _ (.setSize fileid size) => OnFile s fileid fun f =>
    SizeClean s.cache f size ∧ DirCached s.cache f ∧
      (size.toNat < (wordAt s.cache.content f.size).toNat → ∀ g, IsOpen s g →
        ¬ Below s.cache.content f g)
  | .request _ (.close fileid) => OnFile s fileid fun f => DirCached s.cache f
  | .request _ (.remove path) => (0 : Char8) ∉ path ∧ PathClean s.cache path depth ∧
    ∀ x c f, walkPath s.cache path depth = .ok (x, c) → x.file = some f →
      DirCached c f ∧ ∀ g, IsOpen s g → g ≠ f ∧ ¬ Below c.content f g
  | .request _ (.dirty _ _) | .request _ .sync => True
  | .store b _ _ => PlainBlock s.cache.content b
  | .share i n => LegalShare s i n
  | .memory _ => True

variable {s s' s0 s1 s2 t : FileServer} {c c' : BlockCache} {f g : FilePtr} {i j depth : ℕ}
  {envid fileid omode r w : Word} {path : List Char8} {req : FsRequest} {e : FsEvent}
  {events post : List FsEvent}

/-! ## Opens -/

/-- The entry is mapped by a client, or its page has just been sent. -/
def InUse (s : FileServer) (i : ℕ) : Prop :=
  2 ≤ (s.opentab i).pageref ∨ ∃ envid, s.replies.getLast? = some (.filefd envid i)

/-- **What the open files are**: the structure of every entry in use is a file, an entry without a
page has no file, and an identifier leads to its entry. -/
structure HandleInv (s : FileServer) : Prop where
  server : ServerInv s
  untaken : ∀ i, (s.opentab i).pageref = 0 → (s.opentab i).file = none
  ids : ∀ i < maxopen, (s.opentab i).fileid.toNat % maxopen = i
  files : ∀ i < maxopen, InUse s i → ∀ f, (s.opentab i).file = some f → IsFile s.cache.content f

/-- The files of the open entries stay files. -/
def KeepsOpen (s s' : FileServer) : Prop :=
  ∀ g, IsOpen s g → IsFile s.cache.content g → IsFile s'.cache.content g

/-- `file_open` keeps the files, and what it finds is a file. -/
lemma fileOpen_keepsFiles {file : Option FilePtr} (hc : CacheInv c) (hp : (0 : Char8) ∉ path)
    (h : fileOpen c depth path = .ok (r, file, c')) (hclean : PathClean c path depth) :
    KeepsFiles c.content c'.content ∧ ∀ f, file = some f → IsFile c'.content f := by
  unfold fileOpen at h
  obtain ⟨⟨x, c1⟩, hwalk, h1⟩ := bind_eq_ok.mp h
  simp only [pure_eq_ok, Except.ok.injEq, Prod.mk.injEq] at h1
  obtain ⟨-, rfl, rfl⟩ := h1
  obtain ⟨hkeep, hres⟩ := hc.walkPath_keepsFiles hp hwalk hclean
  exact ⟨hkeep, hres.file⟩

/-- The file could not be opened: what is made is a file. -/
lemma openMissing_keepsFiles {file' : Option FilePtr} {r' : Word} (hc : CacheInv c)
    (hp : (0 : Char8) ∉ path) (h : openMissing c depth path omode r none = .ok (r', file', c'))
    (hclean : omode &&& oCreat ≠ 0 ∨ omode &&& oMkdir ≠ 0 → CreateClean c depth path) :
    KeepsFiles c.content c'.content ∧ ∀ f, file' = some f → IsFile c'.content f := by
  unfold openMissing at h
  by_cases hcreat : omode &&& oCreat ≠ 0
  · rw [if_pos hcreat] at h
    obtain ⟨⟨r1, f1, c1⟩, hcr, h1⟩ := bind_eq_ok.mp h
    simp only [pure_eq_ok, Except.ok.injEq, Prod.mk.injEq, Option.or_none] at h1
    obtain ⟨-, rfl, rfl⟩ := h1
    exact hc.fileCreate_keepsFiles hp hcr (hclean (.inl hcreat))
  · rw [if_neg hcreat] at h
    by_cases hmk : omode &&& oMkdir ≠ 0
    · rw [if_pos hmk] at h
      obtain ⟨⟨r1, f1, c1⟩, hcr, h1⟩ := bind_eq_ok.mp h
      obtain ⟨hkeep, hfile⟩ := hc.fileCreate_keepsFiles hp hcr (hclean (.inr hmk))
      obtain ⟨hc1, -, hin⟩ := hc.fileCreate hcr (hclean (.inr hmk))
      obtain ⟨f, hderef, h2⟩ := bind_eq_ok.mp h1
      simp only [pure_eq_ok, Except.ok.injEq, Prod.mk.injEq] at h2
      obtain ⟨-, rfl, rfl⟩ := h2
      cases f1 with
      | none => simp [derefFile] at hderef
      | some g =>
        obtain rfl := Except.ok.inj hderef
        have htype := hc1.setType_keepsFiles (hin _ rfl)
        exact ⟨hkeep.trans htype, fun f hf => Option.some.inj hf ▸ htype _ (hfile _ rfl)⟩
    · rw [if_neg hmk] at h
      simp only [pure_eq_ok, Except.ok.injEq, Prod.mk.injEq] at h
      obtain ⟨-, rfl, rfl⟩ := h
      exact ⟨fun _ => id, fun f hf => absurd hf (by simp)⟩

/-- `open_alloc` leaves the contents as they are. -/
lemma openAlloc_content (s : FileServer) : (openAlloc s).2.2.cache.content = s.cache.content := by
  unfold openAlloc
  split
  · rfl
  · simp only
    split_ifs <;> rfl

/-- The end of an open leaves the cache as it is. -/
lemma finishOpen_cache {o : Option ℕ} {file : Option FilePtr}
    (h : finishOpen s envid omode o file = .ok s') : s'.cache = s.cache := by
  unfold finishOpen at h
  split at h
  · simp at h
  · obtain ⟨f, -, h1⟩ := bind_eq_ok.mp h
    obtain rfl := Except.ok.inj h1
    rfl

/-- What an open leaves behind: the files stay, and the file that it sends is one. -/
structure OpenKeeps (s s' : FileServer) : Prop where
  keeps : KeepsFiles s.cache.content s'.cache.content
  sent : ∀ envid i f, s'.replies.getLast? = some (.filefd envid i) → (s'.opentab i).file = some f →
    IsFile s'.cache.content f

/-- The end of an open. -/
lemma finishOpen_keeps {o : Option ℕ} {file : Option FilePtr}
    (hk : KeepsFiles s.cache.content t.cache.content)
    (hf : ∀ f, file = some f → IsFile t.cache.content f)
    (h : finishOpen t envid omode o file = .ok s') : OpenKeeps s s' := by
  have hcache := finishOpen_cache h
  obtain ⟨j, f, -, rfl, hreply, -, hfile, -⟩ := finishOpen_cases h
  refine ⟨hcache ▸ hk, fun envid' i f' hl hf' => ?_⟩
  obtain ⟨-, rfl⟩ : envid = envid' ∧ j = i := by simpa using hreply.symm.trans hl
  rw [hcache]
  exact hf f' (hfile.symm.trans hf')

/-- An open that fails. -/
lemma ipcSend_keeps (hk : KeepsFiles s.cache.content t.cache.content) :
    OpenKeeps s (t.ipcSend (.value envid r)) where
  keeps := hk
  sent := fun envid' i _ hl => absurd hl (sentNoFile_value t envid r envid' i)

/-- **`serve_open`** keeps the files, and the file that it sends is one. -/
theorem serveOpen_keeps (hs : ServerInv s) (hp : (0 : Char8) ∉ path)
    (hclean : OpenClean (openAlloc s).2.2.cache depth path omode)
    (h : serveOpen s depth envid path omode = .ok s') : OpenKeeps s s' := by
  have hs1 := hs.openAlloc
  have hcon := openAlloc_content s
  unfold serveOpen at h
  simp only [sendError_cache] at h
  obtain ⟨⟨r, f, c⟩, hopen, h1⟩ := bind_eq_ok.mp h
  obtain ⟨hc, -, -, hnone⟩ := ServerInv.fileOpen hs1.cache hopen hclean.1
  obtain ⟨hkeep, hfile⟩ := fileOpen_keepsFiles hs1.cache hp hopen hclean.1
  rw [hcon] at hkeep
  simp only at h1
  split_ifs at h1 with hr
  · obtain ⟨⟨r', f', c'⟩, hmiss, h2⟩ := bind_eq_ok.mp h1
    obtain rfl := hnone hr
    obtain ⟨hkeep', hfile'⟩ := openMissing_keepsFiles hc hp hmiss
      fun ho => (hclean.2 r _ c hopen hr ho).1
    simp only at h2
    split_ifs at h2
    · rw [← Except.ok.inj h2]
      exact ipcSend_keeps (hkeep.trans hkeep')
    · exact finishOpen_keeps (hkeep.trans hkeep') hfile' h2
  · rw [pure_eq_ok, ok_bind] at h1
    simp only [if_neg hr] at h1
    exact finishOpen_keeps hkeep hfile h1

/-- **`serve_openat`** keeps the files, and the file that it sends is one. -/
theorem serveOpenat_keeps (hs : ServerInv s) (hp : (0 : Char8) ∉ path)
    (hdir : ∀ i dir, openLookup (openAlloc s).2.2 fileid = some i →
      ((openAlloc s).2.2.opentab i).file = some dir → IsFile s.cache.content dir ∧
        ElemsClean (openAlloc s).2.2.cache dir (pathElems path))
    (h : serveOpenat s envid fileid path omode = .ok s') : OpenKeeps s s' := by
  have hs1 := hs.openAlloc
  have hcon := openAlloc_content s
  unfold serveOpenat at h
  have hlook : ∀ r, openLookup (sendError (openAlloc s).2.2 envid r) fileid =
      openLookup (openAlloc s).2.2 fileid := by
    intro r
    unfold openLookup
    rw [sendError_opentab]
  simp only [hlook, sendError_cache, sendError_opentab] at h
  split at h
  · rw [← Except.ok.inj h]
    refine ipcSend_keeps ?_
    rw [sendError_cache, hcon]
    exact fun _ => id
  · rename_i i hi
    obtain ⟨dir, hderef, h1⟩ := bind_eq_ok.mp h
    obtain ⟨⟨r, f, c⟩, hopen, h2⟩ := bind_eq_ok.mp h1
    have hfile : ((openAlloc s).2.2.opentab i).file = some dir := by
      cases hf : ((openAlloc s).2.2.opentab i).file with
      | none =>
        rw [hf] at hderef
        simp [derefFile] at hderef
      | some d =>
        rw [hf] at hderef
        exact congrArg some (Except.ok.inj hderef)
    obtain ⟨hisfile, helems⟩ := hdir i dir hi hfile
    rw [← hcon] at hisfile
    unfold fileOpenat walkPathAt at hopen
    obtain ⟨⟨x, c1⟩, hwalk, h3⟩ := bind_eq_ok.mp hopen
    simp only [pure_eq_ok, Except.ok.injEq, Prod.mk.injEq] at h3
    obtain ⟨rfl, rfl, rfl⟩ := h3
    obtain ⟨hkeep, hres⟩ := hs1.cache.walkElems_keepsFiles ⟨hisfile.dirent, hs1.files i dir hfile⟩
      hisfile (fun g hg => absurd hg (by simp)) (isName_pathElems hp) hwalk
      helems
    rw [hcon] at hkeep
    simp only at h2
    split_ifs at h2
    · rw [← Except.ok.inj h2]
      exact ipcSend_keeps hkeep
    · exact finishOpen_keeps hkeep hres.file h2

/-! ## Requests on open files -/

/-- A request on an open file: the identifier is refused, or its file is used. -/
lemma serveFile_cases {work : FileServer → FilePtr → Kernel FileServer}
    (h : serveFile s envid fileid work = .ok s') :
    s' = s.ipcSend (.value envid (-eInval)) ∨ ∃ i f, openLookup s fileid = some i ∧
      (s.opentab i).file = some f ∧ work s f = .ok s' := by
  unfold serveFile at h
  split at h
  · exact .inl (Except.ok.inj h).symm
  · rename_i i hi
    obtain ⟨f, hderef, h1⟩ := bind_eq_ok.mp h
    refine .inr ⟨i, f, hi, ?_, h1⟩
    cases hf : (s.opentab i).file with
    | none =>
      rw [hf] at hderef
      simp [derefFile] at hderef
    | some d =>
      rw [hf] at hderef
      exact congrArg some (Except.ok.inj hderef)

lemma serveBlock_cases {work : FileServer → FilePtr → Kernel FileServer} {bno : ℕ}
    (h : serveBlock s envid fileid bno work = .ok s') :
    s' = s.ipcSend (.value envid (-eInval)) ∨ ∃ i f, openLookup s fileid = some i ∧
      (s.opentab i).file = some f ∧ work s f = .ok s' := by
  unfold serveBlock at h
  split_ifs at h
  · exact .inl (Except.ok.inj h).symm
  · exact serveFile_cases h

/-- The request acts on `f` only, the open files stay files, and no open file is sent. -/
structure HandleStep (s s' : FileServer) (f : FilePtr) : Prop where
  acts : ActsOnFile s s' f
  keeps : KeepsOpen s s'
  sent : SentNoFile s'

/-- The work on the file has changed the cache, and its result is sent. -/
lemma handleStep_value (hact : ActsOn f s.cache.content c.content)
    (hmark : ∀ b, c.dirty b = true → s.cache.dirty b = true ∨ ∃ q, Holds s.cache.content f q b)
    (hkeep : ∀ g, IsOpen s g → IsFile s.cache.content g → IsFile c.content g) :
    HandleStep s (FileServer.ipcSend { s with cache := c } (.value envid r)) f where
  acts := ⟨hact, fun envid' b hl => absurd hl (by simp), hmark, rfl⟩
  keeps := hkeep
  sent := sentNoFile_value _ _ _

/-- The work on the file has only read. -/
lemma handleStep_loads (hl : Loads s.cache c)
    (hmark : ∀ b, c.dirty b = true → s.cache.dirty b = true ∨ ∃ q, Holds s.cache.content f q b) :
    HandleStep s (FileServer.ipcSend { s with cache := c } (.value envid r)) f := by
  refine handleStep_value ?_ hmark fun g _ hg => hl.keepsFiles g hg
  rw [hl.content]
  exact (Trims.refl f _).actsOn

namespace HandleInv

/-- What an identifier leads to is in use. -/
lemma lookup (hs : HandleInv s) (hi : openLookup s fileid = some i)
    (hf : (s.opentab i).file = some f) :
    i < maxopen ∧ 2 ≤ (s.opentab i).pageref ∧ IsFile s.cache.content f := by
  unfold openLookup at hi
  simp only at hi
  split_ifs at hi with hbad
  obtain rfl := Option.some.inj hi
  rw [not_or, not_not] at hbad
  have hlt : fileid.toNat % maxopen < maxopen := Nat.mod_lt _ (by decide)
  have hne : (s.opentab (fileid.toNat % maxopen)).pageref ≠ 0 := fun h0 =>
    absurd ((hs.untaken _ h0).symm.trans hf) (by simp)
  have htwo : 2 ≤ (s.opentab (fileid.toNat % maxopen)).pageref := by
    have := hbad.1
    omega
  exact ⟨hlt, htwo, hs.files _ hlt (.inl htwo) f hf⟩

/-- The identifier of an entry that is in use leads to it. -/
lemma lookup_self (hs : HandleInv s) (hi : i < maxopen) (htwo : 2 ≤ (s.opentab i).pageref) :
    openLookup s (s.opentab i).fileid = some i := by
  unfold openLookup
  simp only [hs.ids i hi]
  rw [if_neg]
  rintro (h1 | h1)
  · omega
  · exact h1 rfl

/-- `open_alloc`. -/
lemma openAlloc (hs : HandleInv s) : HandleInv (openAlloc s).2.2 := by
  have hreplies : (MosVolca.openAlloc s).2.2.replies = s.replies := by
    unfold MosVolca.openAlloc
    split
    · rfl
    · simp only
      split_ifs <;> rfl
  have hcon := openAlloc_content s
  rcases openAlloc_cases s with ⟨-, ht⟩ | ⟨j, -, -, -, ht⟩
  · refine ⟨hs.server.openAlloc, ht ▸ hs.untaken, ht ▸ hs.ids, fun i hi hu => ?_⟩
    rw [hcon, ht]
    refine hs.files i hi ?_
    unfold InUse at hu ⊢
    rwa [hreplies, ht] at hu
  · refine ⟨hs.server.openAlloc, fun i h0 => ?_, fun i hi => ?_, fun i hi hu f hf => ?_⟩
    · rw [ht] at h0 ⊢
      by_cases hij : i = j
      · rw [hij, Function.update_self] at h0
        simp at h0
      · rw [Function.update_of_ne hij] at h0 ⊢
        exact hs.untaken i h0
    · rw [ht]
      by_cases hij : i = j
      · subst hij
        rw [Function.update_self]
        have hid := hs.ids i hi
        unfold maxopen at hid ⊢
        rw [BitVec.toNat_add]
        change ((s.opentab i).fileid.toNat + 1024) % 2 ^ 32 % 1024 = i
        omega
      · rw [Function.update_of_ne hij]
        exact hs.ids i hi
    · unfold InUse at hu
      rw [hreplies, ht] at hu
      rw [ht] at hf
      rw [hcon]
      by_cases hij : i = j
      · subst hij
        rw [Function.update_self] at hu hf
        refine hs.files i hi (.inr (hu.resolve_left (by simp))) f hf
      · rw [Function.update_of_ne hij] at hu hf
        exact hs.files i hi hu f hf

/-- An event that spares the open files is harmless. -/
lemma harmless (hs : HandleInv s) (h : Spares depth s e) : Harmless depth s e := by
  have hfile : ∀ {s : FileServer} {fileid : Word} {P Q : FilePtr → Prop}, HandleInv s →
      OnFile s fileid P → (∀ f, P f → Q f) → OpenFile s fileid Q := by
    intro s fileid P Q hs hP hPQ i f hi hf
    exact ⟨(hs.lookup hi hf).2.2.dirent, hPQ f (hP i f hi hf)⟩
  cases e with
  | request envid req =>
    cases req with
    | openFile path omode => exact h.2
    | map fileid offset => exact hfile hs h fun _ => id
    | setSize fileid size => exact hfile hs h fun _ hf => hf.1
    | close fileid => trivial
    | dirty fileid offset => trivial
    | remove path => exact h.2.1
    | sync => trivial
    | openat dirFileid path omode => exact hfile hs.openAlloc h.2 fun _ => id
  | share i n => trivial
  | store b i w => exact h
  | memory grants => trivial

/-- **A request on an open file** acts on that file. -/
theorem handleStep (hs : HandleInv s) (hon : OnHandle fileid req)
    (hsp : Spares depth s (.request envid req)) (h : serveRequest s depth envid req = .ok s') :
    s' = s.ipcSend (.value envid (-eInval)) ∨ ∃ i f, openLookup s fileid = some i ∧
      (s.opentab i).file = some f ∧ HandleStep s s' f := by
  have hin : ∀ {i f}, openLookup s fileid = some i → (s.opentab i).file = some f →
      InCache s.cache f := fun hi hf =>
    ⟨(hs.lookup hi hf).2.2.dirent, hs.server.files _ _ hf⟩
  cases hon with
  | map offset =>
    rw [serveRequest, serveMap] at h
    refine (serveBlock_cases h).imp id ?_
    rintro ⟨i, f, hi, hf, hw⟩
    refine ⟨i, f, hi, hf, ?_⟩
    obtain ⟨⟨x, c⟩, hget, h1⟩ := bind_eq_ok.mp hw
    have hfc := hin hi hf
    have hclean := hsp i f hi hf
    have hext := hs.server.cache.fileGetBlock_extends hfc.dirent hfc.mapped hget hclean
    have hmark := fileGetBlock_marksNone hget
    have hkeep := hs.server.cache.fileGetBlock_keepsFiles hfc.dirent hfc.mapped hget hclean
    obtain ⟨-, -, hold⟩ := hs.server.cache.fileGetBlock hfc.dirent hfc.mapped hget hclean
    cases x with
    | error r =>
      rw [← Except.ok.inj h1]
      exact handleStep_value hext.toActsOn (fun b hb => .inl (hmark b hb)) fun g _ hg => hkeep g hg
    | ok blk =>
      rw [← Except.ok.inj h1]
      refine ⟨⟨hext.toActsOn, fun envid' b hl => ?_, fun b hb => .inl (hmark b hb), rfl⟩,
        fun g _ hg => hkeep g hg, fun envid' j => by simp⟩
      obtain ⟨-, rfl⟩ : envid = envid' ∧ blk = b := by simpa using hl
      exact ⟨_, (hold blk rfl).1⟩
  | setSize size =>
    rw [serveRequest, serveSetSize] at h
    refine (serveFile_cases h).imp id ?_
    rintro ⟨i, f, hi, hf, hw⟩
    refine ⟨i, f, hi, hf, ?_⟩
    obtain ⟨⟨r, c⟩, hset, h1⟩ := bind_eq_ok.mp hw
    have hfc := hin hi hf
    obtain ⟨-, hdir, hbelow⟩ := hsp i f hi hf
    obtain ⟨htrim, hdirent⟩ := hs.server.cache.fileSetSize_trims hfc hdir hset
    rw [← Except.ok.inj h1]
    refine handleStep_value htrim.actsOn (fun b hb => .inl (fileSetSize_marksNone hset b hb))
      fun g hopen hg => ?_
    exact htrim.actsOn.isFile hs.server.cache.consistent hfc.dirent hg
      (hdirent g hg.dirent fun hlt => hbelow hlt g hopen)
  | close =>
    rw [serveRequest, serveClose] at h
    refine (serveFile_cases h).imp id ?_
    rintro ⟨i, f, hi, hf, hw⟩
    refine ⟨i, f, hi, hf, ?_⟩
    obtain ⟨c, hclose, h1⟩ := bind_eq_ok.mp hw
    rw [← Except.ok.inj h1]
    exact handleStep_loads (fileClose_loads (hsp i f hi hf) (hin hi hf).mapped hclose)
      fun b hb => .inl (fileClose_marksNone hclose b hb)
  | dirty offset =>
    rw [serveRequest, serveDirty] at h
    refine (serveBlock_cases h).imp id ?_
    rintro ⟨i, f, hi, hf, hw⟩
    refine ⟨i, f, hi, hf, ?_⟩
    obtain ⟨⟨r, c⟩, hdirty, h1⟩ := bind_eq_ok.mp hw
    rw [← Except.ok.inj h1]
    exact handleStep_loads (fileDirty_loads hdirty)
      fun b hb => hs.server.cache.fileDirty_marks (hin hi hf) hdirty hb

end HandleInv

/-! ## One event -/

/-- What a request leaves behind: the open files stay files, and a file that it sends is one. -/
structure RequestKeeps (s s' : FileServer) : Prop where
  keeps : KeepsOpen s s'
  sent : ∀ envid i f, s'.replies.getLast? = some (.filefd envid i) → (s'.opentab i).file = some f →
    IsFile s'.cache.content f

/-- What opening keeps, every request may rely on. -/
lemma OpenKeeps.request (h : OpenKeeps s s') : RequestKeeps s s' := ⟨fun g _ hg => h.keeps g hg, h.sent⟩

/-- A request that only reads and sends its result. -/
lemma requestKeeps_loads (hl : Loads s.cache c) :
    RequestKeeps s (FileServer.ipcSend { s with cache := c } (.value envid r)) where
  keeps := fun g _ hg => hl.keepsFiles g hg
  sent := fun envid' i _ h => absurd h (sentNoFile_value _ _ _ envid' i)

namespace HandleInv

/-- **A request that spares the open files** keeps them. -/
theorem requestKeeps (hs : HandleInv s) (hsp : Spares depth s (.request envid req))
    (h : serveRequest s depth envid req = .ok s') : RequestKeeps s s' := by
  have hhandle : ∀ fileid, OnHandle fileid req → RequestKeeps s s' := by
    intro fileid hon
    rcases hs.handleStep hon hsp h with rfl | ⟨i, f, -, -, hstep⟩
    · exact requestKeeps_loads (Loads.refl s.cache)
    · exact ⟨hstep.keeps, fun envid' i f hl => absurd hl (hstep.sent envid' i)⟩
  cases req with
  | openFile path omode => exact (serveOpen_keeps hs.server hsp.1 hsp.2 h).request
  | openat dirFileid path omode =>
    refine (serveOpenat_keeps hs.server hsp.1 (fun i dir hi hdir => ?_) h).request
    have hfile := (hs.openAlloc.lookup hi hdir).2.2
    rw [openAlloc_content] at hfile
    exact ⟨hfile, hsp.2 i dir hi hdir⟩
  | map fileid offset => exact hhandle fileid (.map offset)
  | setSize fileid size => exact hhandle fileid (.setSize size)
  | close fileid => exact hhandle fileid .close
  | dirty fileid offset => exact hhandle fileid (.dirty offset)
  | remove path =>
    obtain ⟨⟨r, c⟩, hrem, h1⟩ := bind_eq_ok.mp h
    obtain ⟨hp, hclean, hrest⟩ := hsp
    rw [← Except.ok.inj h1]
    refine ⟨fun g hopen hg => ?_, fun envid' i f hl => absurd hl (sentNoFile_value _ _ _ envid' i)⟩
    exact hs.server.cache.fileRemove_isFile hp hrem hclean
      (fun x c1 f hw hf => (hrest x c1 f hw hf).1) hg fun x c1 f hw hf => (hrest x c1 f hw hf).2 g hopen
  | sync =>
    obtain ⟨c, hsync, h1⟩ := bind_eq_ok.mp h
    rw [← Except.ok.inj h1]
    exact requestKeeps_loads (fsSync_loads hsync)

/-- The entries of the table after a request: the open ones stay as they are. -/
lemma request_table (h : serveRequest s depth envid req = .ok s') :
    (∀ i, 2 ≤ (s'.opentab i).pageref → s'.opentab i = s.opentab i) ∧
      (∀ i, (s'.opentab i).pageref = 0 → s'.opentab i = s.opentab i) ∧
      ∀ i, (s'.opentab i).fileid = (s.opentab i).fileid ∨
        (s'.opentab i).fileid = (s.opentab i).fileid + 1024 ∧ (s'.opentab i).pageref = 1 := by
  have halloc : ∀ i, (MosVolca.openAlloc s).2.2.opentab i = s.opentab i ∨
      ((MosVolca.openAlloc s).2.2.opentab i).fileid = (s.opentab i).fileid + 1024 ∧
        ((MosVolca.openAlloc s).2.2.opentab i).pageref = 1 := by
    intro i
    rcases openAlloc_cases s with ⟨-, ht⟩ | ⟨j, -, -, -, ht⟩
    · exact .inl (congrFun ht i)
    · rw [ht]
      by_cases hij : i = j
      · subst hij
        rw [Function.update_self]
        exact .inr ⟨rfl, rfl⟩
      · exact .inl (Function.update_of_ne hij _ _)
  have hentry : ∀ i, s'.opentab i = s.opentab i ∨
      (s'.opentab i).fileid = (s.opentab i).fileid + 1024 ∧ (s'.opentab i).pageref = 1 := by
    intro i
    cases serveRequest_table h with
    | same ht hsent => exact .inl (congrFun ht i)
    | taken ht hsent => exact ht ▸ halloc i
    | @opened k f hk hopens hother href =>
      by_cases hik : i = k
      · subst hik
        rw [hopens.identifier, href]
        rcases openAlloc_cases s with ⟨hnone, -⟩ | ⟨j, -, -, hj, ht⟩
        · exact absurd (hnone.symm.trans hk) (by simp)
        · obtain rfl : j = i := by simpa using hj.symm.trans hk
          rw [ht, Function.update_self]
          exact .inr ⟨rfl, rfl⟩
      · rw [hother i hik]
        exact halloc i
  refine ⟨fun i hi => (hentry i).resolve_right fun h1 => ?_, fun i hi => (hentry i).resolve_right
    fun h1 => ?_, fun i => (hentry i).imp (fun h1 => by rw [h1]) id⟩
  · rw [h1.2] at hi
    omega
  · rw [h1.2] at hi
    omega

/-- **One event** that spares the open files. -/
theorem step (hs : HandleInv s) (hsp : Spares depth s e) (h : fsStep depth s e = .ok s') :
    HandleInv s' := by
  have hserver := hs.server.step h (hs.harmless hsp)
  -- the contents change, the table does not
  have hkeep : s'.opentab = s.opentab → s'.replies = s.replies →
      KeepsFiles s.cache.content s'.cache.content → HandleInv s' := by
    intro ht hr hk
    refine ⟨hserver, ht ▸ hs.untaken, ht ▸ hs.ids, fun i hi hu f hf => hk f ?_⟩
    rw [ht] at hf
    refine hs.files i hi ?_ f hf
    unfold InUse at hu ⊢
    rwa [ht, hr] at hu
  cases e with
  | request envid req =>
    obtain ⟨hopen, hzero, hid⟩ := request_table h
    obtain ⟨hkeeps, hsent⟩ := hs.requestKeeps hsp h
    refine ⟨hserver, fun i h0 => ?_, fun i hi => ?_, fun i hi hu f hf => ?_⟩
    · have ht := hzero i h0
      rw [ht] at h0 ⊢
      exact hs.untaken i h0
    · have hold := hs.ids i hi
      rcases hid i with h1 | ⟨h1, -⟩
      · rw [h1]
        exact hold
      · rw [h1]
        unfold maxopen at hold ⊢
        rw [BitVec.toNat_add]
        change ((s.opentab i).fileid.toNat + 1024) % 2 ^ 32 % 1024 = i
        omega
    · rcases hu with htwo | ⟨envid', hl⟩
      · have ht := hopen i htwo
        rw [ht] at hf htwo
        exact hkeeps f ⟨i, hi, htwo, hf⟩ (hs.files i hi (.inl htwo) f hf)
      · exact hsent envid' i f hl hf
  | share i n =>
    obtain rfl := Except.ok.inj h
    have hsame : ∀ j, ((s.setOpen i { s.opentab i with pageref := n }).opentab j).file =
        (s.opentab j).file ∧ ((s.setOpen i { s.opentab i with pageref := n }).opentab j).fileid =
        (s.opentab j).fileid := by
      intro j
      by_cases hj : j = i
      · rw [hj, setOpen_self]
        exact ⟨rfl, rfl⟩
      · rw [setOpen_of_ne hj]
        exact ⟨rfl, rfl⟩
    have hlegal : LegalShare s i n := hsp
    refine ⟨hserver, fun j h0 => ?_, fun j hj => ?_, fun j hj hu f hf => ?_⟩
    · rw [(hsame j).1]
      refine hs.untaken j ?_
      by_cases hji : j = i
      · subst hji
        rw [setOpen_self] at h0
        have hserver := hlegal.server
        simp only at h0
        omega
      · rwa [setOpen_of_ne hji] at h0
    · rw [(hsame j).2]
      exact hs.ids j hj
    · rw [(hsame j).1] at hf
      refine hs.files j hj ?_ f hf
      rcases hu with htwo | hl
      · by_cases hji : j = i
        · subst hji
          rw [setOpen_self] at htwo
          exact hlegal.clients htwo
        · rw [setOpen_of_ne hji] at htwo
          exact .inl htwo
      · exact .inr hl
  | store b i w =>
    simp only [fsStep] at h
    split_ifs at h with hm
    obtain rfl := Except.ok.inj h
    refine hkeep rfl rfl ?_
    have hplain : PlainBlock s.cache.content b := hsp
    have hcon : (s.cache.store ⟨b, i⟩ w).content = putWord s.cache.content ⟨b, i⟩ w :=
      content_store hm
    have hne : ∀ g, Dirent s.cache.content g → ∀ x, HasField s.cache.content g x →
        placeOf s.cache.content g x ≠ ⟨b, i⟩ := by
      intro g hg x hx he
      cases x with
      | head k => exact (hplain.2 g hg).1 (congrArg WordPtr.block he)
      | far k =>
        have hind : (wordAt s.cache.content g.indirect).toNat = b := congrArg WordPtr.block he
        exact (hplain.2 g hg).2 (hind ▸ holds_indirect (hasField_far.mp hx).2.2)
    rw [hcon]
    refine keepsFiles_of (fun g hg => ?_) fun g hg => wordAt_putWord_of_ne
      (hne g hg (.head 0) (by decide : 0 < 64))
    exact (Consistent.entry_iff fun d hd => Consistent.agrees_of_ne fun x _ hx =>
      hne d hd x hx).mpr hg
  | memory grants =>
    obtain rfl := Except.ok.inj h
    exact hkeep rfl rfl fun _ => id

/-- **A run** of events that spare the open files. -/
theorem run (hs : HandleInv s) (hsp : RunAll (Spares depth) depth s events)
    (h : fsRun depth s events = .ok s') : HandleInv s' := by
  induction events generalizing s with
  | nil => exact Except.ok.inj h ▸ hs
  | cons e events ih =>
    rw [fsRun, List.foldlM_cons] at h
    obtain ⟨s1, hstep, h1⟩ := bind_eq_ok.mp h
    exact ih (hs.step hsp.1 hstep) (hsp.2 s1 hstep) h1

end HandleInv

/-! ## Runs -/

/-- A run in two parts. -/
lemma fsRun_append {es : List FsEvent} (h : fsRun depth s events = .ok s1) :
    fsRun depth s (events ++ es) = fsRun depth s1 es := by
  unfold fsRun at h ⊢
  rw [List.foldlM_append, h, ok_bind]

/-- What holds along a run holds along its parts. -/
lemma runAll_append {P : FileServer → FsEvent → Prop} {es : List FsEvent}
    (h : RunAll P depth s (events ++ es)) (hrun : fsRun depth s events = .ok s1) :
    RunAll P depth s events ∧ RunAll P depth s1 es := by
  induction events generalizing s with
  | nil =>
    obtain rfl := Except.ok.inj hrun
    exact ⟨trivial, h⟩
  | cons e events ih =>
    rw [fsRun, List.foldlM_cons] at hrun
    obtain ⟨t, hstep, hrest⟩ := bind_eq_ok.mp hrun
    obtain ⟨he, hall⟩ := h
    refine ⟨⟨he, fun t' ht' => ?_⟩, (ih (hall t hstep) hrest).2⟩
    obtain rfl := Except.ok.inj (hstep.symm.trans ht')
    exact (ih (hall _ hstep) hrest).1

/-- A run reaches a state after every part of its events. -/
lemma fsRun_prefix {es : List FsEvent} (h : fsRun depth s (events ++ es) = .ok s') :
    ∃ t, fsRun depth s events = .ok t ∧ fsRun depth t es = .ok s' := by
  unfold fsRun at h ⊢
  rw [List.foldlM_append] at h
  exact bind_eq_ok.mp h

/-- An entry that stays open keeps its file. -/
lemma file_of_stays (hfile : (s2.opentab i).file = some f)
    (hrun : fsRun depth s2 post = .ok s)
    (hstays : ∀ mid rest t, post = mid ++ rest → fsRun depth s2 mid = .ok t → StaysOpen s2 t i) :
    (s.opentab i).file = some f := by
  induction post using List.reverseRecOn generalizing s with
  | nil => exact Except.ok.inj hrun ▸ hfile
  | append_singleton post e ih =>
    obtain ⟨t, hpre, hlast⟩ := fsRun_prefix hrun
    have hf := ih hpre fun mid rest t ht =>
      hstays mid (rest ++ [e]) t (by rw [ht, List.append_assoc])
    have hstay := hstays post [e] t rfl hpre
    have hstay' := hstays (post ++ [e]) [] s (by rw [List.append_nil]) hrun
    rw [fsRun, List.foldlM_cons] at hlast
    obtain ⟨s1, hstep, hend⟩ := bind_eq_ok.mp hlast
    obtain rfl := Except.ok.inj hend
    have hsame : s1.opentab = t.opentab → (s1.opentab i).file = some f := fun ht => by rw [ht, hf]
    cases e with
    | request envid req =>
      obtain ⟨hopen, -, hid⟩ := HandleInv.request_table hstep
      -- the entry is not taken, so a client has mapped it
      have hone : (s1.opentab i).fileid = (t.opentab i).fileid :=
        hstay'.identifier.trans hstay.identifier.symm
      rcases hstay'.shared with htwo | ⟨envid', hl⟩
      · rw [hopen i htwo, hf]
      · cases serveRequest_table hstep with
        | same ht hsent => exact hsame ht
        | taken ht hsent => exact absurd hl (hsent envid' i)
        | @opened k g hk hopens hother href =>
          obtain ⟨-, rfl⟩ : envid = envid' ∧ k = i := by simpa using hopens.reply.symm.trans hl
          rcases openAlloc_cases t with ⟨hnone, -⟩ | ⟨j, -, -, hj, ht⟩
          · exact absurd (hnone.symm.trans hk) (by simp)
          · obtain rfl : j = k := by simpa using hj.symm.trans hk
            rw [hopens.identifier, ht, Function.update_self] at hone
            have h1024 : (t.opentab j).fileid + 1024 = (t.opentab j).fileid := hone
            exact absurd h1024 (by simp)
    | share j n =>
      obtain rfl := Except.ok.inj hstep
      by_cases hij : i = j
      · rw [hij, setOpen_self]
        exact hij ▸ hf
      · rw [setOpen_of_ne hij]
        exact hf
    | store b k w =>
      simp only [fsStep] at hstep
      split_ifs at hstep
      obtain rfl := Except.ok.inj hstep
      exact hf
    | memory grants =>
      obtain rfl := Except.ok.inj hstep
      exact hf

end MosVolca
