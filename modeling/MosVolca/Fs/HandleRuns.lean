import MosVolca.Fs.Handles

/-!
# Open files denote their own files

If no open file is removed, the requests on an identifier act on the file that it was returned for.
If one is, they act on the next file that gets its structure.

## Main results

* `MosVolca.handlesOwn_of_spares` — in the runs where no open file is removed.
* `MosVolca.handle_of_removed` — a run in which the size of another file is set.
-/

namespace MosVolca

variable {s s' s0 s1 s2 t : FileServer} {c : BlockCache} {f g : FilePtr} {i depth : ℕ}
  {envid r : Word} {req : FsRequest} {e : FsEvent} {events post : List FsEvent}

/-! ## Runs that are checked -/

/-- Every state of a run passes the check, together with the event that follows. -/
def checkRun (check : FileServer → Option FsEvent → Bool) (depth : ℕ) (s : FileServer) :
    List FsEvent → Bool
  | [] => check s none
  | e :: es => check s (some e) && match fsStep depth s e with
    | .ok s1 => checkRun check depth s1 es
    | .error _ => false

lemma runAll_of_checkRun {check : FileServer → Option FsEvent → Bool}
    {P : FileServer → FsEvent → Prop} (hP : ∀ s e, check s (some e) = true → P s e)
    (h : checkRun check depth s events = true) : RunAll P depth s events := by
  induction events generalizing s with
  | nil => trivial
  | cons e events ih =>
    rw [checkRun, Bool.and_eq_true] at h
    refine ⟨hP s e h.1, fun s1 hs1 => ih ?_⟩
    rw [hs1] at h
    exact h.2

/-- A check of a run checks every state on the way. -/
lemma prefix_of_checkRun {check : FileServer → Option FsEvent → Bool} {mid rest : List FsEvent}
    (h : checkRun check depth s (mid ++ rest) = true) (hmid : fsRun depth s mid = .ok t) :
    ∃ o, check t o = true := by
  induction mid generalizing s with
  | nil =>
    obtain rfl := Except.ok.inj hmid
    cases rest with
    | nil => exact ⟨none, h⟩
    | cons e rest =>
      rw [List.nil_append, checkRun, Bool.and_eq_true] at h
      exact ⟨some e, h.1⟩
  | cons e mid ih =>
    rw [fsRun, List.foldlM_cons] at hmid
    obtain ⟨s1, hstep, hrest⟩ := bind_eq_ok.mp hmid
    rw [List.cons_append, checkRun, Bool.and_eq_true, hstep] at h
    exact ih h.2 hrest

/-- The page of the entry has just been sent. -/
def justSent (s : FileServer) (i : ℕ) : Bool :=
  match s.replies.getLast? with
  | some (.filefd _ j) => j == i
  | _ => false

lemma justSent_iff (h : justSent s i = true) :
    ∃ envid, s.replies.getLast? = some (.filefd envid i) := by
  unfold justSent at h
  split at h
  · rename_i envid j hl
    obtain rfl := beq_iff_eq.mp h
    exact ⟨envid, hl⟩
  · exact absurd h Bool.false_ne_true

/-- The entry 0 is open with the identifier 1024, and the next event is legal. -/
def openCheck (s : FileServer) (e : Option FsEvent) : Bool :=
  (s.opentab 0).fileid == 1024 && (decide (2 ≤ (s.opentab 0).pageref) || justSent s 0) &&
    match e with
    | some (.share i n) => decide ((s.opentab i).pageref = 1) && decide (n = 2) && justSent s i
    | _ => true

/-- What passes the check is legal. -/
lemma openCheck_legal (h : openCheck s (some e) = true) : LegalEvent s e := by
  unfold openCheck at h
  rw [Bool.and_eq_true] at h
  cases e with
  | share i n =>
    have hshare := h.2
    simp only [Bool.and_eq_true, decide_eq_true_eq] at hshare
    obtain ⟨⟨hone, rfl⟩, hsent⟩ := hshare
    exact ⟨fun h0 => absurd (hone.symm.trans h0) (by decide), fun _ => by decide,
      fun _ => .inr (justSent_iff hsent)⟩
  | request envid req => trivial
  | store b i w => trivial
  | memory grants => trivial

lemma openCheck_stays {o : Option FsEvent} (h : openCheck s o = true) :
    (s.opentab 0).fileid = 1024 ∧ InUse s 0 := by
  unfold openCheck at h
  rw [Bool.and_eq_true, Bool.and_eq_true, Bool.or_eq_true, beq_iff_eq, decide_eq_true_eq] at h
  exact ⟨h.1.1, h.1.2.imp id justSent_iff⟩

/-- `a` is found, and it is the structure 0 of block 3. -/
def findsA (cache : BlockCache) : Bool :=
  match fileOpen (openAlloc (serveInit cache)).2.2.cache 1 [0x2F, 0x61] with
  | .ok (r, some f, _) => r == 0 && f == FilePtr.entry 3 0
  | _ => false

/-- The open of `a` in the image of two files is an open of the structure 0 of block 3. -/
lemma opens_a {cache : BlockCache} (hfinds : findsA cache = true)
    (hreply : s2.replies.getLast? = some (.filefd 7 0))
    (hfile : (s2.opentab 0).file = some (FilePtr.entry 3 0))
    (hff : (s2.opentab 0).ff.fileid = (s2.opentab 0).fileid) :
    Opens 1 (serveInit cache) 7 (.openFile [0x2F, 0x61] 0) s2 0 (s2.opentab 0).fileid
      (FilePtr.entry 3 0) := by
  refine ⟨?_, hreply, hfile, rfl, hff⟩
  unfold findsA at hfinds
  split at hfinds
  · rename_i r f c hfo
    simp only [Bool.and_eq_true, beq_iff_eq] at hfinds
    obtain ⟨rfl, rfl⟩ := hfinds
    exact .found hfo (by decide)
  · exact absurd hfinds Bool.false_ne_true

/-- Only a directory has something below it. -/
lemma Below.type {c : Blocks} (h : Below c f g) : wordAt c f.type = ftypeDir := by
  induction h with
  | child hb _ => exact hb.1
  | deeper _ _ _ ih => exact ih

/-- What the states show before the size of `a` is set with its own identifier. -/
def keptCheck (cache : BlockCache) (s2 s : FileServer) : Bool :=
  let a := FilePtr.entry 3 0
  let c0 := (openAlloc (serveInit cache)).2.2.cache
  c0.sizeBlocks FilePtr.root == 1 && c0.load (FilePtr.root.direct 0) == 3 &&
    (s2.opentab 0).file == some a && (s2.opentab 0).ff.fileid == 1024 &&
    (match s2.replies.getLast? with | some (.filefd 7 0) => true | _ => false) &&
    checkRun openCheck 1 s2 [.share 0 2] && decide ((s.opentab 0).pageref = 2) &&
    (s.opentab 0).file == some a && wordAt s.cache.content a.type == 0 &&
    match FilePtr.ofAddr (s.cache.load a.dir) with
    | some d => s.cache.mapped d.block
    | none => true

/-- The run: `/a` is opened, its page is shared, and its size is set. -/
lemma kept_checks : ∃ cache s2 s s', fsInit (BlockCache.off twoFiles fun _ => true) = .ok cache ∧
    serveRequest (serveInit cache) 1 7 (.openFile [0x2F, 0x61] 0) = .ok s2 ∧
    fsRun 1 s2 [.share 0 2] = .ok s ∧ serveRequest s 1 7 (.setSize 1024 0) = .ok s' ∧
    findsA cache = true ∧ keptCheck cache s2 s = true := by
  have h : (fsInit (BlockCache.off twoFiles fun _ => true)).toOption.any (fun cache =>
      findsA cache && match serveRequest (serveInit cache) 1 7 (.openFile [0x2F, 0x61] 0) with
        | .ok s2 => (match fsRun 1 s2 [.share 0 2] with
          | .ok s => keptCheck cache s2 s && (match serveRequest s 1 7 (.setSize 1024 0) with
            | .ok _ => true | .error _ => false)
          | .error _ => false)
        | .error _ => false) = true := by rfl
  cases hc : fsInit (BlockCache.off twoFiles fun _ => true) with
  | error e =>
    rw [hc] at h
    exact absurd h Bool.false_ne_true
  | ok cache =>
    rw [hc] at h
    simp only [Except.toOption, Option.any_some, Bool.and_eq_true] at h
    obtain ⟨hfinds, h⟩ := h
    cases hs2 : serveRequest (serveInit cache) 1 7 (.openFile [0x2F, 0x61] 0) with
    | error e =>
      rw [hs2] at h
      exact absurd h Bool.false_ne_true
    | ok s2 =>
      rw [hs2] at h
      simp only at h
      cases hs : fsRun 1 s2 [.share 0 2] with
      | error e =>
        rw [hs] at h
        exact absurd h Bool.false_ne_true
      | ok s =>
        rw [hs] at h
        simp only [Bool.and_eq_true] at h
        cases hs' : serveRequest s 1 7 (.setSize 1024 0) with
        | error e =>
          rw [hs'] at h
          exact absurd h.2 Bool.false_ne_true
        | ok s' => exact ⟨cache, s2, s, s', rfl, hs2, hs, hs', hfinds, h.1⟩

/-! ## Open files denote their own files -/

/-- A request that acts on `f` leaves the other files alone. -/
lemma ActsOnFile.leavesAlone (h : ActsOnFile s s' f) (hc : Consistent s.cache.content)
    (hf : Dirent s.cache.content f) (hg : Dirent s.cache.content g) (hne : g ≠ f) :
    LeavesAlone s s' g where
  word := fun x hx => h.contents.field hc hf hg hx (.inl hne)
  used := fun q b hq => h.contents.used hc hf hg hne hq
  unsent := by
    intro envid q b hq hl
    obtain ⟨y, hy⟩ := h.sent envid b hl
    rcases h.contents.taken y b hy with hy | hfree
    · exact hne (hc.once hg hf hq hy).1
    · exact (hc.usable hg hq).used hfree

/-- A request that is refused. -/
lemma ownFile_refused (hc : Consistent s.cache.content) :
    OwnFile depth s2 post s (s.ipcSend (.value envid r)) f where
  acts := ⟨(Trims.refl f _).actsOn, fun envid' b hl => absurd hl (by simp), fun b hb => .inl hb, rfl⟩
  later := fun g hg => ⟨fun _ _ => rfl, fun q b hq => (hc.usable hg.1.dirent hq).used,
    fun envid' q b _ hl => absurd hl (by simp)⟩

/-- An open takes an entry of the table. -/
lemma Opens.lt {fid : Word} (h : serveRequest s depth envid req = .ok s')
    (ho : Opens depth s envid req s' i fid f) : i < maxopen := by
  cases serveRequest_table h with
  | same ht hsent => exact absurd ho.reply (hsent envid i)
  | taken ht hsent => exact absurd ho.reply (hsent envid i)
  | @opened k g hk hopens hother href =>
    obtain rfl : k = i := by simpa using hopens.reply.symm.trans ho.reply
    rcases openAlloc_cases s with ⟨hnone, -⟩ | ⟨j, hlt, -, hj, -⟩
    · exact absurd (hnone.symm.trans hk) (by simp)
    · obtain rfl : j = k := by simpa using hj.symm.trans hk
      exact hlt

/-- The start. -/
lemma handleInv_serveInit {disk : Blocks} {grants : ℕ → Bool} (hd : Consistent disk)
    (hinit : fsInit (BlockCache.off disk grants) = .ok c) : HandleInv (serveInit c) where
  server := ⟨CacheInv.fsInit hd hinit, fun i f hf => absurd hf (by simp [serveInit])⟩
  untaken := fun _ _ => rfl
  ids := by
    intro i hi
    have hi : i < 1024 := hi
    change (BitVec.ofNat 32 i).toNat % 1024 = i
    rw [BitVec.toNat_ofNat]
    omega
  files := fun i _ _ f hf => absurd hf (by simp [serveInit])

/-- **Open files denote their own files.** In the runs from a consistent image whose events spare the
open files, every request on the identifier of an open file acts on the file that was opened, and
leaves the files alone that were made later. -/
theorem handlesOwn_of_spares {disk : Blocks} {grants : ℕ → Bool} (hd : Consistent disk)
    (hinit : fsInit (BlockCache.off disk grants) = .ok c) (depth : ℕ) :
    HandlesOwn (Spares depth) depth (serveInit c) := by
  intro events s i f s2 post envid req s' hrun hall hon htwo hreqon hsp hreq
  obtain ⟨⟨pre, envid0, req0, s1, rfl, hpre, hopen, hopens⟩, hpost, hstays⟩ := hon
  -- the states before and after the open
  obtain ⟨hall1, hall2⟩ := runAll_append hall hpre
  have hs1 := (handleInv_serveInit hd hinit).run hall1 hpre
  have hs2 := hs1.step hall2.1 hopen
  have hall3 := hall2.2 s2 hopen
  -- the file has been the same all the time
  have hmid : ∀ mid rest t, post = mid ++ rest → fsRun depth s2 mid = .ok t →
      HandleInv t ∧ (t.opentab i).file = some f ∧ IsFile t.cache.content f := by
    rintro mid rest t rfl ht
    have hallm := (runAll_append hall3 ht).1
    have hst : ∀ mid' rest' t', mid = mid' ++ rest' → fsRun depth s2 mid' = .ok t' →
        StaysOpen s2 t' i := fun mid' rest' t' he =>
      hstays mid' (rest' ++ rest) t' (by rw [he, List.append_assoc])
    have hfile := file_of_stays hopens.file ht hst
    have hinv := hs2.run hallm ht
    exact ⟨hinv, hfile, hinv.files i (hopens.lt hopen) (hstays mid rest t rfl ht).shared f hfile⟩
  obtain ⟨hs, hfile, hisfile⟩ := hmid post [] s (List.append_nil post).symm hpost
  have hlook := hs.lookup_self (hopens.lt hopen) htwo
  rcases hs.handleStep hreqon hsp hreq with rfl | ⟨k, g, hk, hg, hstep⟩
  · exact ownFile_refused hs.server.cache.consistent
  · obtain rfl : i = k := by simpa using hlook.symm.trans hk
    obtain rfl : f = g := by simpa using hfile.symm.trans hg
    refine ⟨hstep.acts, fun g ⟨hgfile, mid, rest, t, hsplit, ht, hnot⟩ => ?_⟩
    have hne : g ≠ f := by
      rintro rfl
      exact hnot (hmid mid rest t hsplit ht).2.2
    exact hstep.acts.leavesAlone hs.server.cache.consistent hisfile.dirent hgfile.dirent hne

/-- The size of `a` is set with its own identifier. -/
theorem handlesOwn_of_spares_setSize : ∃ cache s2 s s',
    fsInit (BlockCache.off twoFiles fun _ => true) = .ok cache ∧
      serveRequest (serveInit cache) 1 7 (.openFile [0x2F, 0x61] 0) = .ok s2 ∧
      fsRun 1 s2 [.share 0 2] = .ok s ∧ serveRequest s 1 7 (.setSize 1024 0) = .ok s' ∧
      OwnFile 1 s2 [.share 0 2] s s' (FilePtr.entry 3 0) := by
  obtain ⟨cache, s2, s, s', hinit, hopen, hshare, hset, hfinds, hcheck⟩ := kept_checks
  refine ⟨cache, s2, s, s', hinit, hopen, hshare, hset, ?_⟩
  simp only [keptCheck, Bool.and_eq_true, beq_iff_eq, decide_eq_true_eq] at hcheck
  obtain ⟨⟨⟨⟨⟨⟨⟨⟨⟨hsize, hroot⟩, hfile⟩, hff⟩, hsent⟩, hrun⟩, htwo⟩, hfile'⟩, htype⟩, hdir⟩ := hcheck
  have hreply : s2.replies.getLast? = some (.filefd 7 0) := by
    split at hsent
    · assumption
    · exact absurd hsent Bool.false_ne_true
  have hstays : ∀ mid rest t, [FsEvent.share 0 2] = mid ++ rest → fsRun 1 s2 mid = .ok t →
      (t.opentab 0).fileid = 1024 ∧ InUse t 0 := by
    intro mid rest t he ht
    rw [he] at hrun
    obtain ⟨o, ho⟩ := prefix_of_checkRun hrun ht
    exact openCheck_stays ho
  have hid2 := (hstays [] [.share 0 2] s2 rfl rfl).1
  have hid := (hstays [.share 0 2] [] s rfl hshare).1
  have hon : HandleOn 1 (serveInit cache) [.request 7 (.openFile [0x2F, 0x61] 0), .share 0 2] s 0
      (FilePtr.entry 3 0) s2 [.share 0 2] := by
    refine ⟨⟨[], 7, _, serveInit cache, rfl, rfl, hopen, opens_a hfinds hreply hfile
      (hff.trans hid2.symm)⟩, hshare, fun mid rest t he ht => ?_⟩
    obtain ⟨h1, h2⟩ := hstays mid rest t he ht
    exact ⟨h1.trans hid2.symm, h2⟩
  have hfirst : fsRun 1 (serveInit cache) [.request 7 (.openFile [0x2F, 0x61] 0), .share 0 2] =
      .ok s := by
    rw [fsRun, List.foldlM_cons]
    exact bind_eq_ok.mpr ⟨s2, hopen, hshare⟩
  have hlegal : LegalShare s2 0 2 := by
    refine openCheck_legal (e := .share 0 2) ?_
    rw [checkRun, Bool.and_eq_true] at hrun
    exact hrun.1
  have hspares : RunAll (Spares 1) 1 (serveInit cache)
      [.request 7 (.openFile [0x2F, 0x61] 0), .share 0 2] := by
    refine ⟨⟨by decide, pathClean_of_root hsize hroot, fun r f c1 _ _ ho => ?_⟩, fun s3 h3 => ?_⟩
    · exact absurd ho (by decide)
    · obtain rfl := Except.ok.inj (hopen.symm.trans h3)
      exact ⟨hlegal, fun _ _ => trivial⟩
  have hown : Spares 1 s (.request 7 (.setSize 1024 0)) := by
    intro i f hi hf
    have hi0 : i = 0 := by
      unfold openLookup at hi
      simp only at hi
      split_ifs at hi
      exact (Option.some.inj hi).symm
    subst hi0
    obtain rfl : f = FilePtr.entry 3 0 := by simpa using hf.symm.trans hfile'
    have hnodir : wordAt s.cache.content (FilePtr.entry 3 0).type ≠ ftypeDir := by
      rw [htype]
      decide
    refine ⟨fun i b ht => absurd ht hnodir, fun _ d hd => ?_, fun _ g _ hb => hnodir hb.type⟩
    rw [hd] at hdir
    exact hdir
  exact handlesOwn_of_spares twoFiles_consistent hinit 1 _ s 0 _ s2 [.share 0 2] 7 (.setSize 1024 0)
    s' hfirst hspares hon (by omega) (hid ▸ .setSize 0) hown hset

/-! ## A structure that is used again -/

/-- The client maps the page of `a`, removes `a`, makes `c`, maps its page and sets its size. -/
def reuseRun : List FsEvent :=
  [.share 0 2, .request 7 (.remove [0x2F, 0x61]), .request 7 (.openFile [0x2F, 0x63] oCreat),
    .share 1 2, .request 7 (.setSize 1025 8192)]

/-- The states after the open of `a`, after its removal, after the run, and after the size is set
with the identifier of `a`. -/
def reuseStates (cache : BlockCache) : Kernel (FileServer × FileServer × FileServer × FileServer) := do
  let s2 ← serveRequest (serveInit cache) 1 7 (.openFile [0x2F, 0x61] 0)
  let t ← fsRun 1 s2 (reuseRun.take 2)
  let s ← fsRun 1 t (reuseRun.drop 2)
  let s' ← serveRequest s 1 7 (.setSize 1024 0)
  pure (s2, t, s, s')

/-- What the states show: the structure of `a` loses its name, it becomes that of `c`, and the size
of `c` goes from 8192 to 0. -/
def reuseCheck (x : FileServer × FileServer × FileServer × FileServer) : Bool :=
  let (s2, t, s, s') := x
  let a := FilePtr.entry 3 0
  let c := s.cache.content
  (s2.opentab 0).file == some a && (s2.opentab 0).ff.fileid == 1024 &&
    (match s2.replies.getLast? with | some (.filefd 7 0) => true | _ => false) &&
    checkRun openCheck 1 s2 reuseRun && decide ((s.opentab 0).pageref = 2) &&
    ((t.cache.content 3 0).setWidth 8 == (0 : Char8)) &&
    wordAt c FilePtr.root.type == ftypeDir && wordAt c FilePtr.root.size == 4096 &&
    wordAt c (FilePtr.root.direct 0) == 3 && ((c 3 0).setWidth 8 == (0x63 : Char8)) &&
    wordAt c a.size == 8192 && wordAt s'.cache.content a.size == 0

/-- The run in which an identifier is reused. -/
lemma reuse_checks : ∃ cache x, fsInit (BlockCache.off twoFiles fun _ => true) = .ok cache ∧
    reuseStates cache = .ok x ∧ findsA cache = true ∧ reuseCheck x = true := by
  have h : (fsInit (BlockCache.off twoFiles fun _ => true)).toOption.any (fun cache =>
      findsA cache && (match reuseStates cache with
        | .ok x => reuseCheck x | .error _ => false)) = true := by rfl
  cases hc : fsInit (BlockCache.off twoFiles fun _ => true) with
  | error e =>
    rw [hc] at h
    exact absurd h Bool.false_ne_true
  | ok cache =>
    rw [hc] at h
    simp only [Except.toOption, Option.any_some, Bool.and_eq_true] at h
    cases hx : reuseStates cache with
    | error e =>
      rw [hx] at h
      exact absurd h.2 Bool.false_ne_true
    | ok x =>
      rw [hx] at h
      exact ⟨cache, x, rfl, hx, h.1, h.2⟩

/-- **An identifier that acts on another file.** A client opens `a` and removes it, then makes `c`,
which gets the structure of `a`. The size that it sets with the identifier of `a` is that of `c`, and
the blocks of `c` are set free. -/
theorem handle_of_removed : Consistent twoFiles ∧ ∃ cache,
    fsInit (BlockCache.off twoFiles fun _ => true) = .ok cache ∧
      ¬ HandlesOwn LegalEvent 1 (serveInit cache) := by
  refine ⟨twoFiles_consistent, ?_⟩
  obtain ⟨cache, ⟨s2, t, s, s'⟩, hinit, hstates, hfinds, hcheck⟩ := reuse_checks
  refine ⟨cache, hinit, fun hown => ?_⟩
  -- the run
  obtain ⟨s2, hopen, h1⟩ := bind_eq_ok.mp hstates
  obtain ⟨t, hremove, h2⟩ := bind_eq_ok.mp h1
  obtain ⟨s, hrest, h3⟩ := bind_eq_ok.mp h2
  obtain ⟨s', hset, h4⟩ := bind_eq_ok.mp h3
  simp only [pure_eq_ok, Except.ok.injEq, Prod.mk.injEq] at h4
  obtain ⟨rfl, rfl, rfl, rfl⟩ := h4
  have hpost : fsRun 1 s2 reuseRun = .ok s := (fsRun_append hremove).trans hrest
  -- what the states show
  simp only [reuseCheck, Bool.and_eq_true, beq_iff_eq, decide_eq_true_eq] at hcheck
  obtain ⟨⟨⟨⟨⟨⟨⟨⟨⟨⟨⟨hfile, hff⟩, hsent⟩, hrun⟩, htwo⟩, hgone⟩, htype⟩, hsize⟩, hroot⟩, hname⟩, hbig⟩,
    hzero⟩ := hcheck
  have hreply : s2.replies.getLast? = some (.filefd 7 0) := by
    split at hsent
    · assumption
    · exact absurd hsent Bool.false_ne_true
  have hstays : ∀ mid rest t, reuseRun = mid ++ rest → fsRun 1 s2 mid = .ok t →
      (t.opentab 0).fileid = 1024 ∧ InUse t 0 := by
    intro mid rest t he ht
    rw [he] at hrun
    obtain ⟨o, ho⟩ := prefix_of_checkRun hrun ht
    exact openCheck_stays ho
  have hid2 := (hstays [] reuseRun s2 rfl rfl).1
  have hid := (hstays reuseRun [] s (List.append_nil _).symm hpost).1
  have hopens := opens_a hfinds hreply hfile (hff.trans hid2.symm)
  have hon : HandleOn 1 (serveInit cache) (.request 7 (.openFile [0x2F, 0x61] 0) :: reuseRun) s 0
      (FilePtr.entry 3 0) s2 reuseRun := by
    refine ⟨⟨[], 7, _, serveInit cache, rfl, rfl, hopen, hopens⟩, hpost, fun mid rest t he ht => ?_⟩
    obtain ⟨h1, h2⟩ := hstays mid rest t he ht
    exact ⟨h1.trans hid2.symm, h2⟩
  have hall : RunAll LegalEvent 1 (serveInit cache)
      (.request 7 (.openFile [0x2F, 0x61] 0) :: reuseRun) := by
    refine ⟨trivial, fun s3 h3 => ?_⟩
    obtain rfl := Except.ok.inj (hopen.symm.trans h3)
    exact runAll_of_checkRun (fun _ _ => openCheck_legal) hrun
  have hfirst : fsRun 1 (serveInit cache) (.request 7 (.openFile [0x2F, 0x61] 0) :: reuseRun) =
      .ok s := by
    rw [fsRun, List.foldlM_cons]
    exact bind_eq_ok.mpr ⟨s2, hopen, hpost⟩
  have hres := hown _ s 0 _ s2 reuseRun 7 (.setSize 1024 0) s' hfirst hall hon (by omega)
    (hid ▸ .setSize 0) trivial hset
  -- the structure is that of a file that was made after the removal
  have hmade : MadeSince 1 s2 reuseRun s (FilePtr.entry 3 0) := by
    refine ⟨.inr ⟨.child .root ⟨htype, 0, ?_, ?_⟩ (by decide), fun h0 => ?_⟩,
      reuseRun.take 2, reuseRun.drop 2, t, rfl, hremove, ?_⟩
    · rw [sizeBlocksOf, hsize]
      decide
    · exact ⟨(by decide : 34 + 0 < 64), fun h0 => absurd (hroot.symm.trans h0) (by decide),
        congrArg BitVec.toNat hroot⟩
    · exact absurd (hname.symm.trans h0) (by decide)
    · rintro (h0 | ⟨-, h0⟩)
      · exact absurd h0 (by decide)
      · exact h0 hgone
  have hword := (hres.later _ hmade).word (.head 32) (by decide : 32 < 64)
  exact absurd (hzero.symm.trans (hword.trans hbig)) (by decide)

end MosVolca
