import MosVolca.Fs.Serv

/-!
# The table of open files

What a request does to `opentab`, and what an identifier of an open file stands for. `open_lookup`
refuses an entry whose `struct Filefd` is mapped by the server alone; it does not refuse an entry
that no open has ever taken, whose identifier is its number.

## Main definitions

* `MosVolca.OpensOn` — the file that an open finds or makes.
* `MosVolca.Opens`, `MosVolca.OpenedAs` — the opens that have returned an identifier.
* `MosVolca.LegalShare` — how the mappings of the clients change.
* `MosVolca.NeverTaken` — the identifiers of the entries that no open has taken.

## Main results

* `MosVolca.serveRequest_table` — what a request does to the table.
* `MosVolca.openLookup_iff` — which identifiers `open_lookup` is right about.
* `MosVolca.lookup_without_open` — a request that uses a file that was never opened.
-/

namespace MosVolca

/-! ## Opens -/

/-- The file that `serve_open` or `serve_openat` finds or makes for the request. -/
inductive OpensOn (depth : ℕ) (s : FileServer) : FsRequest → FilePtr → Prop
  | found {path : List Char8} {omode r : Word} {f : FilePtr} {c : BlockCache} :
    fileOpen (openAlloc s).2.2.cache depth path = .ok (r, some f, c) → r.slt 0 = false →
      OpensOn depth s (.openFile path omode) f
  | made {path : List Char8} {omode r r' : Word} {file : Option FilePtr} {f : FilePtr}
      {c c' : BlockCache} :
    fileOpen (openAlloc s).2.2.cache depth path = .ok (r, file, c) → r.slt 0 = true →
      openMissing c depth path omode r file = .ok (r', some f, c') → r'.slt 0 = false →
      OpensOn depth s (.openFile path omode) f
  | foundAt {dirFileid omode r : Word} {path : List Char8} {i : ℕ} {dir f : FilePtr}
      {c : BlockCache} :
    openLookup (openAlloc s).2.2 dirFileid = some i →
      ((openAlloc s).2.2.opentab i).file = some dir →
      fileOpenat (openAlloc s).2.2.cache dir path = .ok (r, some f, c) → r.slt 0 = false →
      OpensOn depth s (.openat dirFileid path omode) f

/-- The request from `s` to `s'` is an open of `f` that succeeds and returns `fileid`, in the page
of the entry `i`. -/
structure Opens (depth : ℕ) (s : FileServer) (envid : Word) (req : FsRequest) (s' : FileServer)
    (i : ℕ) (fileid : Word) (f : FilePtr) : Prop where
  on : OpensOn depth s req f
  reply : s'.replies.getLast? = some (.filefd envid i)
  file : (s'.opentab i).file = some f
  identifier : (s'.opentab i).fileid = fileid
  sent : (s'.opentab i).ff.fileid = fileid

/-- In the run there is an open of `f` that has returned `fileid`. -/
def OpenedAs (depth : ℕ) (s : FileServer) (events : List FsEvent) (i : ℕ) (fileid : Word)
    (f : FilePtr) : Prop :=
  ∃ pre envid req post s1 s2, events = pre ++ .request envid req :: post ∧
    fsRun depth s pre = .ok s1 ∧ serveRequest s1 depth envid req = .ok s2 ∧
    Opens depth s1 envid req s2 i fileid f

/-- **How the mappings of the clients change**: an entry without a page has no mappings, the server
keeps its own mapping, and the clients cannot map a page that none of them has, unless it has just
been sent. -/
structure LegalShare (s : FileServer) (i n : ℕ) : Prop where
  absent : (s.opentab i).pageref = 0 → n = 0
  server : 1 ≤ (s.opentab i).pageref → 1 ≤ n
  clients : 2 ≤ n → 2 ≤ (s.opentab i).pageref ∨ ∃ envid, s.replies.getLast? = some (.filefd envid i)

/-- The events of the clients are legal. -/
def LegalEvent (s : FileServer) : FsEvent → Prop
  | .share i n => LegalShare s i n
  | _ => True

/-- No open has taken the entry of the identifier, which is its number. -/
def NeverTaken (s : FileServer) (fileid : Word) : Prop :=
  fileid.toNat < maxopen ∧ (s.opentab fileid.toNat).pageref = 0

/-! ## What a request does to the table -/

variable {s s' s1 t : FileServer} {c c' : BlockCache} {f : FilePtr} {i j depth : ℕ}
  {envid fileid omode r : Word} {path : List Char8} {o : Option ℕ} {file : Option FilePtr}
  {req : FsRequest} {events : List FsEvent}

/-- `open_alloc` either leaves the table alone or takes an entry that no client has mapped. -/
lemma openAlloc_cases (s : FileServer) :
    (openAlloc s).2.1 = none ∧ (openAlloc s).2.2.opentab = s.opentab ∨
      ∃ i < maxopen, (s.opentab i).pageref ≤ 1 ∧ (openAlloc s).2.1 = some i ∧
        (openAlloc s).2.2.opentab = Function.update s.opentab i
          { s.opentab i with
            fileid := (s.opentab i).fileid + 1024, ff := Filefd.zero, pageref := 1 } := by
  unfold openAlloc
  cases hf : findOpen s with
  | none => exact .inl ⟨rfl, rfl⟩
  | some i =>
    have hmem := List.mem_of_find?_eq_some hf
    have hle : (s.opentab i).pageref ≤ 1 := by simpa using List.find?_some hf
    have hi : i < maxopen := by
      rw [List.mem_range'_1] at hmem
      omega
    simp only
    split_ifs
    · exact .inr ⟨i, hi, hle, rfl, rfl⟩
    · exact .inr ⟨i, hi, hle, rfl, rfl⟩
    · exact .inl ⟨rfl, rfl⟩

@[simp] lemma sendError_opentab (s : FileServer) (envid r : Word) :
    (sendError s envid r).opentab = s.opentab := by
  unfold sendError
  split_ifs <;> rfl

@[simp] lemma sendError_cache (s : FileServer) (envid r : Word) :
    (sendError s envid r).cache = s.cache := by
  unfold sendError
  split_ifs <;> rfl

@[simp] lemma ipcSend_getLast (s : FileServer) (reply : Reply) :
    (s.ipcSend reply).replies.getLast? = some reply :=
  List.getLast?_concat

/-- The last reply sends no page of an open file. -/
def SentNoFile (s : FileServer) : Prop :=
  ∀ envid i, s.replies.getLast? ≠ some (.filefd envid i)

lemma sentNoFile_value (s : FileServer) (envid r : Word) : SentNoFile (s.ipcSend (.value envid r)) := by
  intro envid' i
  simp

/-- The end of an open fills the entry and sends its page. -/
lemma finishOpen_cases (h : finishOpen s envid omode o file = .ok s') :
    ∃ i f, o = some i ∧ file = some f ∧ s'.replies.getLast? = some (.filefd envid i) ∧
      (∀ j, j ≠ i → s'.opentab j = s.opentab j) ∧
      (s'.opentab i).file = some f ∧ (s'.opentab i).fileid = (s.opentab i).fileid ∧
      (s'.opentab i).ff.fileid = (s.opentab i).fileid ∧
      (s'.opentab i).pageref = (s.opentab i).pageref := by
  unfold finishOpen at h
  cases o with
  | none => simp at h
  | some i =>
    obtain ⟨f, hderef, h1⟩ := bind_eq_ok.mp h
    obtain rfl := Except.ok.inj h1
    cases file with
    | none => simp [derefFile] at hderef
    | some g =>
      obtain rfl := Except.ok.inj hderef
      refine ⟨i, _, rfl, rfl, ipcSend_getLast _ _, fun j hj => setOpen_of_ne hj, ?_⟩
      simp [FileServer.ipcSend, FileServer.setOpen]

/-- What a request does to the table: nothing but `open_alloc`, and no page of an open file is sent,
or it is an open that succeeds and fills the entry that `open_alloc` has taken. -/
inductive TableStep (depth : ℕ) (s : FileServer) (envid : Word) (req : FsRequest)
    (s' : FileServer) : Prop
  | same (htab : s'.opentab = s.opentab) (hsent : SentNoFile s')
  | taken (htab : s'.opentab = (openAlloc s).2.2.opentab) (hsent : SentNoFile s')
  | opened {i : ℕ} {f : FilePtr} (hi : (openAlloc s).2.1 = some i)
    (hopens : Opens depth s envid req s' i ((openAlloc s).2.2.opentab i).fileid f)
    (hother : ∀ j, j ≠ i → s'.opentab j = (openAlloc s).2.2.opentab j)
    (href : (s'.opentab i).pageref = ((openAlloc s).2.2.opentab i).pageref)

/-- How `serve_open` and `serve_openat` end: an error is sent, or the entry is filled. `t` is the
state after `open_alloc` and the work on the file. -/
inductive OpenEnd (depth : ℕ) (s : FileServer) (envid : Word) (req : FsRequest)
    (s' : FileServer) : Prop
  | failed {t : FileServer} {r : Word} (h : s' = t.ipcSend (.value envid r))
    (ht : t.opentab = (openAlloc s).2.2.opentab)
    (hr : t.replies = (sendError (openAlloc s).2.2 envid (openAlloc s).1).replies)
  | finished {t : FileServer} {omode : Word} {file : Option FilePtr}
    (h : finishOpen t envid omode (openAlloc s).2.1 file = .ok s')
    (ht : t.opentab = (openAlloc s).2.2.opentab)
    (hr : t.replies = (sendError (openAlloc s).2.2 envid (openAlloc s).1).replies)
    (hon : ∀ f, file = some f → OpensOn depth s req f)

/-- `serve_open`. -/
lemma serveOpen_end (h : serveOpen s depth envid path omode = .ok s') :
    OpenEnd depth s envid (.openFile path omode) s' := by
  unfold serveOpen at h
  simp only [sendError_cache] at h
  obtain ⟨⟨r, f, c⟩, hopen, h1⟩ := bind_eq_ok.mp h
  simp only at h1
  split_ifs at h1 with hr
  · obtain ⟨⟨r', f', c'⟩, hmiss, h2⟩ := bind_eq_ok.mp h1
    simp only at h2
    split_ifs at h2 with hr'
    · exact .failed (Except.ok.inj h2).symm (sendError_opentab _ _ _) rfl
    · refine .finished h2 (sendError_opentab _ _ _) rfl fun g hg => ?_
      subst hg
      exact .made hopen hr hmiss (by simpa using hr')
  · rw [pure_eq_ok, ok_bind] at h1
    simp only [if_neg hr] at h1
    refine .finished h1 (sendError_opentab _ _ _) rfl fun g hg => ?_
    subst hg
    exact .found hopen (by simpa using hr)

/-- `serve_openat`. -/
lemma serveOpenat_end (h : serveOpenat s envid fileid path omode = .ok s') :
    OpenEnd depth s envid (.openat fileid path omode) s' := by
  unfold serveOpenat at h
  have hlook : ∀ r, openLookup (sendError (openAlloc s).2.2 envid r) fileid =
      openLookup (openAlloc s).2.2 fileid := by
    intro r
    unfold openLookup
    rw [sendError_opentab]
  simp only [hlook, sendError_cache, sendError_opentab] at h
  split at h
  · exact .failed (Except.ok.inj h).symm (sendError_opentab _ _ _) rfl
  · rename_i i hi
    obtain ⟨dir, hderef, h1⟩ := bind_eq_ok.mp h
    obtain ⟨⟨r, f, c⟩, hopen, h2⟩ := bind_eq_ok.mp h1
    simp only at h2
    split_ifs at h2 with hr
    · exact .failed (Except.ok.inj h2).symm rfl rfl
    · refine .finished h2 rfl rfl fun g hg => ?_
      subst hg
      refine .foundAt hi ?_ hopen (by simpa using hr)
      cases hfile : ((openAlloc s).2.2.opentab i).file with
      | none =>
        rw [hfile] at hderef
        simp [derefFile] at hderef
      | some d =>
        rw [hfile] at hderef
        exact congrArg some (Except.ok.inj hderef)

/-- An open fills the entry that `open_alloc` has taken, or leaves it empty. -/
lemma OpenEnd.table (h : OpenEnd depth s envid req s') : TableStep depth s envid req s' := by
  cases h with
  | failed h ht hr =>
    subst h
    exact .taken ht (sentNoFile_value _ _ _)
  | finished h ht hr hon =>
    obtain ⟨i, f, ho, rfl, hreply, hother, hfile, hid, hsent, href⟩ := finishOpen_cases h
    rw [ht] at hid hsent href
    exact .opened ho ⟨hon f rfl, hreply, hfile, hid, hsent⟩ (fun j hj => ht ▸ hother j hj) href

/-- A request on an open file does nothing to the table if its work does nothing. -/
lemma serveFile_table {work : FileServer → FilePtr → Kernel FileServer}
    (h : serveFile s envid fileid work = .ok s')
    (hwork : ∀ f, work s f = .ok s' → s'.opentab = s.opentab ∧ SentNoFile s') :
    TableStep depth s envid req s' := by
  unfold serveFile at h
  split at h
  · obtain rfl := Except.ok.inj h
    exact .same rfl (sentNoFile_value _ _ _)
  · obtain ⟨f, -, h1⟩ := bind_eq_ok.mp h
    exact .same (hwork f h1).1 (hwork f h1).2

lemma serveBlock_table {work : FileServer → FilePtr → Kernel FileServer} {bno : ℕ}
    (h : serveBlock s envid fileid bno work = .ok s')
    (hwork : ∀ f, work s f = .ok s' → s'.opentab = s.opentab ∧ SentNoFile s') :
    TableStep depth s envid req s' := by
  unfold serveBlock at h
  split_ifs at h
  · obtain rfl := Except.ok.inj h
    exact .same rfl (sentNoFile_value _ _ _)
  · exact serveFile_table h hwork

/-- **What a request does to the table.** -/
theorem serveRequest_table (h : serveRequest s depth envid req = .ok s') :
    TableStep depth s envid req s' := by
  cases req with
  | openFile path omode => exact (serveOpen_end h).table
  | openat dirFileid path omode => exact (serveOpenat_end h).table
  | map fileid offset =>
    refine serveBlock_table h fun f hf => ?_
    obtain ⟨⟨x, c⟩, -, h1⟩ := bind_eq_ok.mp hf
    cases x with
    | error r =>
      obtain rfl := Except.ok.inj h1
      exact ⟨rfl, sentNoFile_value _ _ _⟩
    | ok blk =>
      obtain rfl := Except.ok.inj h1
      exact ⟨rfl, fun envid i => by simp⟩
  | setSize fileid size =>
    rw [serveRequest, serveSetSize] at h
    refine serveFile_table h fun f hf => ?_
    obtain ⟨⟨r, c⟩, -, h1⟩ := bind_eq_ok.mp hf
    obtain rfl := Except.ok.inj h1
    exact ⟨rfl, sentNoFile_value _ _ _⟩
  | close fileid =>
    rw [serveRequest, serveClose] at h
    refine serveFile_table h fun f hf => ?_
    obtain ⟨c, -, h1⟩ := bind_eq_ok.mp hf
    obtain rfl := Except.ok.inj h1
    exact ⟨rfl, sentNoFile_value _ _ _⟩
  | dirty fileid offset =>
    refine serveBlock_table h fun f hf => ?_
    obtain ⟨⟨r, c⟩, -, h1⟩ := bind_eq_ok.mp hf
    obtain rfl := Except.ok.inj h1
    exact ⟨rfl, sentNoFile_value _ _ _⟩
  | remove path =>
    obtain ⟨⟨r, c⟩, -, h1⟩ := bind_eq_ok.mp h
    obtain rfl := Except.ok.inj h1
    exact .same rfl (sentNoFile_value _ _ _)
  | sync =>
    obtain ⟨c, -, h1⟩ := bind_eq_ok.mp h
    obtain rfl := Except.ok.inj h1
    exact .same rfl (sentNoFile_value _ _ _)

/-! ## What an identifier stands for -/

variable {s0 : FileServer} {e : FsEvent}

/-- An open stays in the run. -/
lemma OpenedAs.append (h : OpenedAs depth s0 events i fileid f) (es : List FsEvent) :
    OpenedAs depth s0 (events ++ es) i fileid f := by
  obtain ⟨pre, envid, req, post, s1, s2, rfl, hrun, hreq, hopens⟩ := h
  exact ⟨pre, envid, req, post ++ es, s1, s2, by simp, hrun, hreq, hopens⟩

/-- **The table of open files** after the events of a run: an entry that is mapped by a client is
that of an open, and an entry without a page has its number as its identifier. -/
structure TableInv (depth : ℕ) (s0 : FileServer) (events : List FsEvent) (s : FileServer) :
    Prop where
  untaken : ∀ i < maxopen, (s.opentab i).pageref = 0 → (s.opentab i).fileid = BitVec.ofNat 32 i
  shared : ∀ i < maxopen, 2 ≤ (s.opentab i).pageref → ∃ f, (s.opentab i).file = some f ∧
    OpenedAs depth s0 events i (s.opentab i).fileid f

/-- What the last reply says: it has sent the page of an open. -/
def LastSent (depth : ℕ) (s0 : FileServer) (events : List FsEvent) (s : FileServer) : Prop :=
  ∀ envid i, s.replies.getLast? = some (.filefd envid i) → ∃ f, (s.opentab i).file = some f ∧
    OpenedAs depth s0 events i (s.opentab i).fileid f

namespace TableInv

/-- The invariant depends on the table only, and events can follow. -/
lemma congr (h : TableInv depth s0 events s) (ht : s'.opentab = s.opentab) (es : List FsEvent) :
    TableInv depth s0 (events ++ es) s' where
  untaken := by
    intro i hi hp
    rw [ht] at hp ⊢
    exact h.untaken i hi hp
  shared := by
    intro i hi hp
    rw [ht] at hp ⊢
    obtain ⟨f, hf, ho⟩ := h.shared i hi hp
    exact ⟨f, hf, ho.append es⟩

/-- `open_alloc`. -/
lemma openAlloc (h : TableInv depth s0 events s) : TableInv depth s0 events (openAlloc s).2.2 := by
  rcases openAlloc_cases s with ⟨-, ht⟩ | ⟨j, -, -, -, ht⟩
  · have hc := h.congr ht []
    rwa [List.append_nil] at hc
  · constructor
    · intro i hi hp
      rw [ht] at hp ⊢
      by_cases hij : i = j
      · rw [hij, Function.update_self] at hp
        simp at hp
      · rw [Function.update_of_ne hij] at hp ⊢
        exact h.untaken i hi hp
    · intro i hi hp
      rw [ht] at hp ⊢
      by_cases hij : i = j
      · rw [hij, Function.update_self] at hp
        simp at hp
      · rw [Function.update_of_ne hij] at hp ⊢
        exact h.shared i hi hp

/-- One request. -/
lemma request (h : TableInv depth s0 events s) (hpre : fsRun depth s0 events = .ok s)
    (hreq : serveRequest s depth envid req = .ok s') :
    TableInv depth s0 (events ++ [.request envid req]) s' ∧
      LastSent depth s0 (events ++ [.request envid req]) s' := by
  cases serveRequest_table hreq with
  | same ht hsent => exact ⟨h.congr ht _, fun envid i hl => absurd hl (hsent envid i)⟩
  | taken ht hsent =>
    exact ⟨h.openAlloc.congr ht _, fun envid i hl => absurd hl (hsent envid i)⟩
  | @opened i f hi hopens hother href =>
    have hopened : OpenedAs depth s0 (events ++ [.request envid req]) i (s'.opentab i).fileid f := by
      rw [hopens.identifier]
      exact ⟨events, envid, req, [], s, s', rfl, hpre, hreq, hopens⟩
    have hone : (s'.opentab i).pageref = 1 := by
      rcases openAlloc_cases s with ⟨hnone, -⟩ | ⟨j, -, -, hj, ht⟩
      · rw [hnone] at hi
        exact absurd hi (by simp)
      · obtain rfl : j = i := by simpa using hj.symm.trans hi
        rw [href, ht, Function.update_self]
    have hmid := h.openAlloc
    refine ⟨⟨fun j hj hp => ?_, fun j hj hp => ?_⟩, fun envid' j hl => ?_⟩
    · have hne : j ≠ i := by
        rintro rfl
        omega
      rw [hother j hne] at hp ⊢
      exact hmid.untaken j hj hp
    · have hne : j ≠ i := by
        rintro rfl
        omega
      rw [hother j hne] at hp ⊢
      obtain ⟨g, hg, ho⟩ := hmid.shared j hj hp
      exact ⟨g, hg, ho.append _⟩
    · obtain ⟨-, rfl⟩ : envid = envid' ∧ i = j := by simpa using hopens.reply.symm.trans hl
      exact ⟨f, hopens.file, hopened⟩

/-- **One event.** -/
theorem step (h : TableInv depth s0 events s) (hl : LastSent depth s0 events s)
    (hpre : fsRun depth s0 events = .ok s) (hlegal : LegalEvent s e)
    (hstep : fsStep depth s e = .ok s') :
    TableInv depth s0 (events ++ [e]) s' ∧ LastSent depth s0 (events ++ [e]) s' := by
  have hkeep : s'.opentab = s.opentab → s'.replies = s.replies →
      TableInv depth s0 (events ++ [e]) s' ∧ LastSent depth s0 (events ++ [e]) s' := by
    intro ht hr
    refine ⟨h.congr ht _, fun envid i hlast => ?_⟩
    rw [hr] at hlast
    obtain ⟨f, hf, ho⟩ := hl envid i hlast
    rw [ht]
    exact ⟨f, hf, ho.append _⟩
  cases e with
  | request envid req => exact h.request hpre hstep
  | store b i w =>
    simp only [fsStep] at hstep
    split_ifs at hstep
    obtain rfl := Except.ok.inj hstep
    exact hkeep rfl rfl
  | memory grants =>
    obtain rfl := Except.ok.inj hstep
    exact hkeep rfl rfl
  | share i n =>
    obtain rfl := Except.ok.inj hstep
    -- only the number of mappings of the entry changes
    have hfile : ∀ j, ((s.setOpen i { s.opentab i with pageref := n }).opentab j).file =
        (s.opentab j).file ∧ ((s.setOpen i { s.opentab i with pageref := n }).opentab j).fileid =
        (s.opentab j).fileid := by
      intro j
      by_cases hj : j = i
      · rw [hj, setOpen_self]
        exact ⟨rfl, rfl⟩
      · rw [setOpen_of_ne hj]
        exact ⟨rfl, rfl⟩
    refine ⟨⟨fun j hj hp => ?_, fun j hj hp => ?_⟩, fun envid j hlast => ?_⟩
    · rw [(hfile j).2]
      by_cases hji : j = i
      · subst hji
        rw [setOpen_self] at hp
        have hserver := hlegal.server
        exact h.untaken j hj (by simp at hp; omega)
      · rw [setOpen_of_ne hji] at hp
        exact h.untaken j hj hp
    · rw [(hfile j).1, (hfile j).2]
      by_cases hji : j = i
      · subst hji
        rw [setOpen_self] at hp
        rcases hlegal.clients hp with hold | ⟨envid, hlast⟩
        · obtain ⟨f, hf, ho⟩ := h.shared j hj hold
          exact ⟨f, hf, ho.append _⟩
        · obtain ⟨f, hf, ho⟩ := hl envid j hlast
          exact ⟨f, hf, ho.append _⟩
      · rw [setOpen_of_ne hji] at hp
        obtain ⟨f, hf, ho⟩ := h.shared j hj hp
        exact ⟨f, hf, ho.append _⟩
    · rw [(hfile j).1, (hfile j).2]
      obtain ⟨f, hf, ho⟩ := hl envid j hlast
      exact ⟨f, hf, ho.append _⟩

/-- **A run.** -/
theorem run {es : List FsEvent} (h : TableInv depth s0 events s) (hl : LastSent depth s0 events s)
    (hpre : fsRun depth s0 events = .ok s) (hlegal : RunAll LegalEvent depth s es)
    (hrun : fsRun depth s es = .ok s') : TableInv depth s0 (events ++ es) s' := by
  induction es generalizing s events with
  | nil =>
    obtain rfl := Except.ok.inj hrun
    rwa [List.append_nil]
  | cons e es ih =>
    rw [fsRun, List.foldlM_cons] at hrun
    obtain ⟨s1, hstep, hrest⟩ := bind_eq_ok.mp hrun
    obtain ⟨h1, hl1⟩ := h.step hl hpre hlegal.1 hstep
    have hpre1 : fsRun depth s0 (events ++ [e]) = .ok s1 := by
      rw [fsRun, List.foldlM_append]
      refine bind_eq_ok.mpr ⟨s, hpre, ?_⟩
      rw [List.foldlM_cons]
      exact bind_eq_ok.mpr ⟨s1, hstep, rfl⟩
    have hres := ih h1 hl1 hpre1 (hlegal.2 s1 hstep) hrest
    rwa [List.append_assoc, List.singleton_append] at hres

end TableInv

/-- It holds after `serve_init`. -/
lemma tableInv_serveInit (c : BlockCache) : TableInv depth (serveInit c) [] (serveInit c) where
  untaken := fun _ _ _ => rfl
  shared := by
    intro i _ hp
    simp [serveInit] at hp

/-- **Which identifiers `open_lookup` is right about.** In every reachable state, and after
`open_alloc` where `serve_openat` looks up: an identifier that `open_lookup` accepts was returned by
an open, a client maps its page, and `o_file` is the file of that open, exactly if it is not the
number of an entry that no open has taken. -/
theorem openLookup_iff {cache : BlockCache} (hrun : fsRun depth (serveInit cache) events = .ok s)
    (hlegal : RunAll LegalEvent depth (serveInit cache) events)
    (ht : t = s ∨ t = (openAlloc s).2.2) (fileid : Word) :
    (∀ i, openLookup t fileid = some i → ∃ f, (t.opentab i).file = some f ∧
      2 ≤ (t.opentab i).pageref ∧ OpenedAs depth (serveInit cache) events i fileid f) ↔
      ¬ NeverTaken t fileid := by
  have hs : TableInv depth (serveInit cache) events s :=
    (tableInv_serveInit cache).run (fun _ _ hl => absurd hl (by simp [serveInit])) rfl hlegal hrun
  have hinv : TableInv depth (serveInit cache) events t := by
    rcases ht with rfl | rfl
    · exact hs
    · exact hs.openAlloc
  constructor
  · rintro h ⟨hlt, hzero⟩
    have hmod : fileid.toNat % maxopen = fileid.toNat := Nat.mod_eq_of_lt hlt
    have hid : (t.opentab fileid.toNat).fileid = fileid := by
      rw [hinv.untaken _ hlt hzero, BitVec.ofNat_toNat, BitVec.setWidth_eq]
    have hlook : openLookup t fileid = some fileid.toNat := by
      unfold openLookup
      simp [hmod, hid, hzero]
    obtain ⟨f, -, htwo, -⟩ := h _ hlook
    omega
  · intro hnot i hi
    unfold openLookup at hi
    simp only at hi
    split_ifs at hi with hbad
    obtain rfl := Option.some.inj hi
    rw [not_or, not_not] at hbad
    obtain ⟨hone, hid⟩ := hbad
    have hlt : fileid.toNat % maxopen < maxopen := Nat.mod_lt _ (by decide)
    have hzero : (t.opentab (fileid.toNat % maxopen)).pageref ≠ 0 := by
      intro hz
      have hnum : fileid = BitVec.ofNat 32 (fileid.toNat % maxopen) :=
        hid.symm.trans (hinv.untaken _ hlt hz)
      have hsmall : fileid.toNat = fileid.toNat % maxopen := by
        have h1 := congrArg BitVec.toNat hnum
        rwa [BitVec.toNat_ofNat, Nat.mod_eq_of_lt (hlt.trans (by decide))] at h1
      exact hnot ⟨hsmall ▸ hlt, hsmall ▸ hz⟩
    have htwo : 2 ≤ (t.opentab (fileid.toNat % maxopen)).pageref := by omega
    obtain ⟨f, hf, ho⟩ := hinv.shared _ hlt htwo
    rw [hid] at ho
    exact ⟨f, hf, htwo, ho⟩

/-! ## The start -/

/-- An empty file system. -/
def emptyDisk : TwoLevel.Store Word := fun b i =>
  if b = 1 then if i = 0 then fsMagic else if i = 1 then 1024 else if i = 35 then ftypeDir else 0
  else if b = 2 then if i = 0 then 0xFFFFFFF8 else 0xFFFFFFFF
  else 0

lemma fsInit_emptyDisk : ∃ cache, fsInit (BlockCache.off emptyDisk fun _ => true) = .ok cache := by
  have h : (match fsInit (BlockCache.off emptyDisk fun _ => true) with
      | .ok _ => true | .error _ => false) = true := by rfl
  cases hc : fsInit (BlockCache.off emptyDisk fun _ => true) with
  | error e =>
    rw [hc] at h
    exact absurd h Bool.false_ne_true
  | ok cache => exact ⟨cache, rfl⟩

/-- The root is opened, and the client maps its page. -/
def openRoot : List FsEvent := [.request 0x800#32 (.openFile [] 0), .share 0 2]

/-- The root of the empty file system is opened. -/
theorem openLookup_iff_openRoot : ∃ cache s,
    fsInit (BlockCache.off emptyDisk fun _ => true) = .ok cache ∧
      fsRun 4 (serveInit cache) openRoot = .ok s ∧
      ((∀ i, openLookup s 1024 = some i → ∃ f, (s.opentab i).file = some f ∧
        2 ≤ (s.opentab i).pageref ∧ OpenedAs 4 (serveInit cache) openRoot i 1024 f) ↔
          ¬ NeverTaken s 1024) := by
  have h : (match fsInit (BlockCache.off emptyDisk fun _ => true) with
      | .ok c => (match fsStep 4 (serveInit c) (.request 0x800#32 (.openFile [] 0)) with
        | .ok s => (s.opentab 0).pageref == 1 && (match s.replies.getLast? with
          | some (.filefd _ 0) => true | _ => false)
        | .error _ => false)
      | .error _ => false) = true := by rfl
  cases hc : fsInit (BlockCache.off emptyDisk fun _ => true) with
  | error e =>
    rw [hc] at h
    exact absurd h Bool.false_ne_true
  | ok cache =>
    rw [hc] at h
    simp only at h
    cases hs : fsStep 4 (serveInit cache) (.request 0x800#32 (.openFile [] 0)) with
    | error e =>
      rw [hs] at h
      exact absurd h Bool.false_ne_true
    | ok s1 =>
      rw [hs] at h
      simp only [Bool.and_eq_true, beq_iff_eq] at h
      obtain ⟨hone, hlast⟩ := h
      have hrun : fsRun 4 (serveInit cache) openRoot =
          .ok (s1.setOpen 0 { s1.opentab 0 with pageref := 2 }) := by
        rw [fsRun, openRoot, List.foldlM_cons, hs]
        rfl
      refine ⟨cache, _, rfl, hrun, openLookup_iff hrun ?_ (.inl rfl) 1024⟩
      refine ⟨trivial, fun s2 h2 => ⟨?_, fun _ _ => trivial⟩⟩
      obtain rfl := Except.ok.inj (hs.symm.trans h2)
      refine ⟨fun h0 => absurd (hone.symm.trans h0) (by decide), fun _ => by decide, fun _ => ?_⟩
      right
      split at hlast
      · rename_i envid heq
        exact ⟨envid, heq⟩
      · exact absurd hlast Bool.false_ne_true

/-- **A file that was never opened**: when the server starts, the identifier 5 is accepted, no open
has returned it, and a request for its first block uses a null pointer. -/
theorem lookup_without_open : ∃ cache,
    fsInit (BlockCache.off emptyDisk fun _ => true) = .ok cache ∧
      (¬ ∀ i, openLookup (serveInit cache) 5 = some i → ∃ f,
        ((serveInit cache).opentab i).file = some f ∧
          2 ≤ ((serveInit cache).opentab i).pageref ∧
            OpenedAs 4 (serveInit cache) [] i 5 f) ∧
      fsRun 4 (serveInit cache) [.request 0x800#32 (.map 5 0)] = .error .nullAccess := by
  obtain ⟨cache, hinit⟩ := fsInit_emptyDisk
  refine ⟨cache, hinit, fun h => ?_, rfl⟩
  obtain ⟨f, hf, -⟩ := h 5 rfl
  exact absurd hf (by simp [serveInit])

end MosVolca
