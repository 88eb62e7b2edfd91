import MosVolca.User.FdCases

/-!
# What `open` reports

`openAP` and `openat` take the first descriptor whose page is not mapped; the reply of the server maps
it. A descriptor should be returned only if the server has opened the file and all of its pages are
mapped, and otherwise the descriptor should be free again. Neither function unmaps the page when a
later request fails, and `openat` does not look at the answer to its first request.

## Main definitions

* `MosVolca.Client.HasRoom` — the kernel can map pages one after the other.
* `MosVolca.Client.OpenReports` — what the two functions should report.
* `MosVolca.Client.Refuses`, `MosVolca.Client.Grants` — the answers of the server.

## Main results

* `MosVolca.Client.openAP_iff`, `MosVolca.Client.openat_iff` — when they report that.
* `MosVolca.openat_refused` — a directory that is not there.
-/

namespace MosVolca

namespace Client

variable {σ : Type} {svc : FileService σ} {c c' c1 : Client σ} {i j k n a : ℕ} {p : UserPage}
  {s s1 : σ} {g : FsPage} {r fileid size fd : Word} {req : FsRequest} {ks : List ℕ}

/-! ## The table of descriptors -/

lemma pdx_of_vpn {va : Word} (h : vpn va = n) : pdx va = n / 1024 := by
  rw [pdx_eq, ← h, vpn_eq_div]
  omega

/-- A descriptor is free exactly if its page is not mapped. -/
lemma fdFree_iff (hi : i < 32) : c.fdFree i = true ↔ c.map (fdVpn i) = none := by
  unfold fdFree
  dsimp only
  rw [pdx_of_vpn (vpn_index2fd hi), vpn_index2fd hi, Bool.or_eq_true, Bool.not_eq_true',
    Option.isNone_iff_eq_none]
  refine or_iff_right_of_imp fun ht => ?_
  by_contra hne
  rw [c.tables _ hne] at ht
  exact Bool.noConfusion ht

/-- `fd_alloc` finds a descriptor exactly if it is the first that is not in use. -/
lemma fdAlloc_eq_some_iff : c.fdAlloc = some fd ↔ ∃ i < 31, fd = index2fd (BitVec.ofNat 32 i) ∧
    c.map (fdVpn i) = none ∧ ∀ j < i, c.map (fdVpn j) ≠ none := by
  unfold fdAlloc
  rw [Option.map_eq_some_iff, show maxfd - 1 = 31 from rfl]
  refine exists_congr fun i => ?_
  rw [List.find?_range_eq_some]
  constructor
  · rintro ⟨⟨hfree, hmem, hbefore⟩, rfl⟩
    rw [List.mem_range] at hmem
    refine ⟨hmem, rfl, (fdFree_iff (by omega)).mp hfree, fun j hj h0 => ?_⟩
    have := hbefore j hj
    rw [(fdFree_iff (by omega)).mpr h0] at this
    exact Bool.noConfusion this
  · rintro ⟨hlt, rfl, hnone, hbefore⟩
    refine ⟨⟨(fdFree_iff (by omega)).mpr hnone, List.mem_range.mpr hlt, fun j hj => ?_⟩, rfl⟩
    rw [Bool.not_eq_true', ← Bool.not_eq_true, fdFree_iff (by omega)]
    exact hbefore j hj

/-- `fd_alloc` looks at the pages of the descriptors only. -/
lemma fdAlloc_congr (h : ∀ i < 31, c'.map (fdVpn i) = c.map (fdVpn i)) : c'.fdAlloc = c.fdAlloc := by
  refine Option.ext fun fd => ?_
  rw [fdAlloc_eq_some_iff, fdAlloc_eq_some_iff]
  refine exists_congr fun i => and_congr_right fun hi => and_congr_right fun _ => ?_
  rw [h i hi]
  exact and_congr_right fun _ => forall_congr' fun j => imp_congr_right fun hj => by
    rw [h j (hj.trans hi)]

lemma index2fd_inj (hi : i < 32) (hj : j < 32)
    (h : index2fd (BitVec.ofNat 32 i) = index2fd (BitVec.ofNat 32 j)) : i = j := by
  have hto := congrArg BitVec.toNat h
  rw [index2fd_toNat hi, index2fd_toNat hj, fdVpn, fdVpn] at hto
  omega

/-- The page of the descriptor that `fd_alloc` finds is not mapped. -/
lemma fdAlloc_free (hi : i < 32) (h : c.fdAlloc = some (index2fd (BitVec.ofNat 32 i))) :
    c.map (fdVpn i) = none := by
  obtain ⟨j, hj, hij, hnone, -⟩ := fdAlloc_eq_some_iff.mp h
  obtain rfl := index2fd_inj hi (by omega) hij
  exact hnone

/-! ## The loop that maps the pages of a file -/

/-- The kernel can map the pages one after the other: each has a page table, or there is a page for
the table. -/
def HasRoom : (ℕ → Bool) → (ℕ → Option ℕ) → List ℕ → Prop
  | _, _, [] => True
  | table, grants, v :: vs =>
    if table (v / 1024) then HasRoom table grants vs
    else grants 0 ≠ none ∧
      HasRoom (Function.update table (v / 1024) true) (fun k => grants (k + 1)) vs

lemma hasRoom_cons {v : ℕ} {vs : List ℕ} : HasRoom c.table c.grants (v :: vs) ↔
    ¬ c.NoRoom v ∧ HasRoom (Function.update c.table (v / 1024) true) (c.grantsAfter v) vs := by
  rw [HasRoom, NoRoom, grantsAfter]
  cases ht : c.table (v / 1024) with
  | true =>
    rw [if_pos rfl, if_pos rfl, ← ht, Function.update_eq_self]
    exact (and_iff_right fun h => by simp [ht] at h).symm
  | false => simp

lemma Receives.hasRoom {v : ℕ} {vs : List ℕ} (h : Receives c c1 v g s1) :
    HasRoom c.table c.grants (v :: vs) ↔ HasRoom c1.table c1.grants vs := by
  rw [hasRoom_cons, h.table, h.grants, and_iff_right h.room]

/-- No page below `FILEBASE` is mapped by the loop, and none is unmapped. -/
structure OnlyMaps (c c' : Client σ) : Prop where
  below : ∀ v < 0x60000, c'.map v = c.map v
  keeps : ∀ v, c.map v ≠ none → c'.map v ≠ none

/-- **The loop over consecutive pages of a file**, if it does not fail: all of them are mapped
exactly if there is room for them. -/
theorem eachPage_range (hi : i < 32) (ha : dataVpn i a ≤ 0x7f400) (hs : c.server = some s)
    (h : eachPage (fsipcMap svc fileid (index2data (BitVec.ofNat 32 i))) (List.range' a n) c =
      .ok (r, c')) :
    OnlyMaps c c' ∧ (r.slt 0 = false →
      (HasRoom c.table c.grants ((List.range' a n).map (dataVpn i)) ↔
        ∀ k ∈ List.range' a n, c'.map (dataVpn i k) ≠ none)) := by
  induction n generalizing a c s with
  | zero =>
    cases h
    exact ⟨⟨fun _ _ => rfl, fun _ hv => hv⟩, fun _ => iff_of_true trivial (by simp)⟩
  | succ n ih =>
    rw [List.range'_succ] at h ⊢
    obtain ⟨⟨r1, c1⟩, h1, h⟩ := bind_eq_ok.mp h
    have hto : (windowAddr (index2data (BitVec.ofNat 32 i)) a).toNat = 4096 * dataVpn i a :=
      windowAddr_data_toNat hi (by unfold dataVpn at ha; omega)
    have hv : vpn (windowAddr (index2data (BitVec.ofNat 32 i)) a) = dataVpn i a :=
      vpn_of_toNat (m := 0) hto (by decide)
    -- at `UTOP` the program panics
    have hlt : dataVpn i a < 0x7f400 := by
      refine lt_of_le_of_ne ha fun he => ?_
      have hutop : windowAddr (index2data (BitVec.ofNat 32 i)) a = utop :=
        BitVec.eq_of_toNat_eq (by rw [hto, he, utop_toNat])
      rw [fsipcMap, fsipcPage, hs, hutop] at h1
      simp only [if_pos (show utop ≠ 0 ∧ isIllegalVa utop = true by decide)] at h1
      cases h1
    have hstep : dataVpn i (a + 1) ≤ 0x7f400 := by
      unfold dataVpn at hlt ⊢
      omega
    have hge : 0x60000 ≤ dataVpn i a := by
      unfold dataVpn
      omega
    rcases fsipcPage_cases h1 hs with ⟨e, s1, -, rfl, rfl⟩ | ⟨g, s1, -, rfl, hrec | hlost⟩
    · simp only [e.neg, if_true] at h
      cases h
      exact ⟨⟨fun _ _ => rfl, fun _ hv => hv⟩, fun hneg => absurd e.neg (by rw [hneg]; decide)⟩
    · rw [hv] at hrec
      obtain ⟨honly, hall⟩ := ih hstep hrec.server h
      refine ⟨⟨fun v hlow => ?_, fun v hne => ?_⟩, fun hneg => ?_⟩
      · rw [honly.below v hlow, hrec.map, Function.update_of_ne (by omega)]
      · refine honly.keeps v ?_
        rw [hrec.map]
        by_cases he : v = dataVpn i a
        · rw [he, Function.update_self]
          exact Option.some_ne_none _
        · rwa [Function.update_of_ne he]
      · rw [List.map_cons, hrec.hasRoom, hall hneg, List.forall_mem_cons]
        refine (and_iff_right (honly.keeps _ ?_)).symm
        rw [hrec.map, Function.update_self]
        exact Option.some_ne_none _
    · rw [hv] at hlost
      -- the server is gone, so this was the last page
      cases n with
      | zero =>
        cases h
        refine ⟨⟨fun v _ => by rw [hlost.map], fun v hne => by rwa [hlost.map]⟩, fun _ => ?_⟩
        refine iff_of_false (fun hroom => (hasRoom_cons.mp hroom).1 hlost.room) fun hall => ?_
        have hne := hall a List.mem_cons_self
        rw [hlost.map] at hne
        have ht := c.tables _ hne
        rw [hlost.room.1] at ht
        exact Bool.noConfusion ht
      | succ n =>
        rw [List.range'_succ] at h
        simp [eachPage, fsipcMap, fsipcPage, hlost.server] at h

/-- The result of the functions is not an error. -/
lemma ofNat_not_neg (hi : i < 32) : (BitVec.ofNat 32 i).slt 0 = false := by
  have h : ∀ i < 32, (BitVec.ofNat 32 i).slt 0 = false := by decide
  exact h i hi

lemma ofNat_inj (hi : i < 32) (hj : j < 32) (h : BitVec.ofNat 32 i = BitVec.ofNat 32 j) : i = j := by
  have := congrArg BitVec.toNat h
  rw [BitVec.toNat_ofNat, BitVec.toNat_ofNat] at this
  omega

/-- The pages of the file of a descriptor that has been received. -/
lemma mapFile_cases (hi : i < 32) (hp : c.map (fdVpn i) = some p) (hs : c.server = some s)
    (h : c.mapFile svc (index2fd (BitVec.ofNat 32 i)) = .ok (r, c')) :
    OnlyMaps c c' ∧
      svc.mapRefusal (c.fileId p) (pagesTo (c.fileSize p)) s =
        .ok (if r.slt 0 then some r else none) ∧
      (r.slt 0 = true ∨ r = BitVec.ofNat 32 i ∧
        (HasRoom c.table c.grants ((pagesTo (c.fileSize p)).map (dataVpn i)) ↔
          ∀ k ∈ pagesTo (c.fileSize p), c'.map (dataVpn i k) ≠ none)) := by
  have hid : c.load (fdFileid (index2fd (BitVec.ofNat 32 i))) = .ok (c.fileId p, c) :=
    load_field hi hp (by decide)
  have hsize : c.load (fdSize (index2fd (BitVec.ofNat 32 i))) = .ok (c.fileSize p, c) :=
    load_field hi hp (by decide)
  have ha : dataVpn i 0 ≤ 0x7f400 := by
    unfold dataVpn
    omega
  rw [mapFile, hid, ok_bind, fd2data_index2fd hi, fd2num_index2fd hi] at h
  dsimp only at h
  rw [hsize, ok_bind] at h
  obtain ⟨⟨r1, c1⟩, h1, h⟩ := bind_eq_ok.mp h
  obtain ⟨href, hr1⟩ := eachPage_map h1 hs
  rw [pagesTo, List.range_eq_range'] at h1 href ⊢
  obtain ⟨honly, hall⟩ := eachPage_range hi ha hs h1
  dsimp only at h
  split_ifs at h with hneg
  · cases h
    exact ⟨honly, href, .inl hneg⟩
  · cases h
    rw [if_neg hneg] at href
    rw [ofNat_not_neg hi, if_neg (by decide)]
    exact ⟨honly, href, .inr ⟨rfl, hall (by simpa using hneg)⟩⟩

/-- A page that the program gets by touching it. -/
lemma load_unmapped (hn : c.map (vpn fd) = none) {w : Word} (h : c.load fd = .ok (w, c')) :
    w = 0 ∧ ∃ q, c'.map = Function.update c.map (vpn fd) (some ⟨q, pteD ||| pteV⟩) ∧
      c'.mem q = 0 := by
  obtain ⟨⟨p, c1⟩, h1, h⟩ := bind_eq_ok.mp h
  unfold touch at h1
  rw [hn] at h1
  dsimp only at h1
  split_ifs at h1
  cases hg : c.grants 0 with
  | none =>
    rw [hg] at h1
    cases h1
  | some q =>
    rw [hg] at h1
    dsimp only at h1
    split_ifs at h1 with hr
    rcases pageInsert_cases (c.next.setMem (TwoLevel.fill c.mem q 0)) (vpn fd) ⟨q, pteD ||| pteV⟩ with
      ⟨-, -, hm⟩ | ⟨hno, -⟩
    · have hp : p = ⟨q, pteD ||| pteV⟩ := by cases h1; rfl
      have hc1 : c1 = ((c.next.setMem (TwoLevel.fill c.mem q 0)).pageInsert (vpn fd)
          ⟨q, pteD ||| pteV⟩).2 := by cases h1; rfl
      have hmem : c1.mem q = 0 := by
        rw [hc1, hm.mem]
        exact funext fun k => TwoLevel.fill_same ..
      cases h
      rw [hp]
      refine ⟨?_, q, ?_, hmem⟩
      · rw [hmem]
        rfl
      · rw [hc1, hm.map]
        rfl
    · rw [hno] at hr
      exact absurd hr (by decide)

/-- A descriptor whose page has not been received: the program touches the page. -/
lemma mapFile_unmapped (hi : i < 32) (hn : c.map (fdVpn i) = none)
    (h : c.mapFile svc (index2fd (BitVec.ofNat 32 i)) = .ok (r, c')) :
    r = BitVec.ofNat 32 i ∧ ∃ q, c'.map (fdVpn i) = some ⟨q, pteD ||| pteV⟩ := by
  obtain ⟨⟨fileid, c1⟩, h1, h⟩ := bind_eq_ok.mp h
  have hv : vpn (fdFileid (index2fd (BitVec.ofNat 32 i))) = fdVpn i := vpn_field hi (by decide)
  obtain ⟨-, q, hmap, hmem⟩ := load_unmapped (by rw [hv]; exact hn) h1
  rw [hv] at hmap
  have hp : c1.map (fdVpn i) = some ⟨q, pteD ||| pteV⟩ := by rw [hmap, Function.update_self]
  have hsize : c1.load (fdSize (index2fd (BitVec.ofNat 32 i))) = .ok (0, c1) := by
    have hload := load_field (w := 144#32) hi hp (by decide)
    rw [hmem] at hload
    exact hload
  dsimp only at h
  rw [hsize, ok_bind, fd2num_index2fd hi] at h
  dsimp only at h
  rw [show pagesTo 0 = [] by decide] at h
  cases h
  exact ⟨rfl, q, hp⟩

/-! ## The reports -/

/-- What `openAP` and `openat` should report: a descriptor that the server has opened and whose pages
are all mapped, or an error, with the table of descriptors as before. -/
def OpenReports (svc : FileService σ) (c c' : Client σ) (req : FsRequest) (r : Word) : Prop :=
  (∃ i < 31, ∃ s g s1, r = BitVec.ofNat 32 i ∧ c.server = some s ∧
    svc.page s req = .ok (.ok g, s1) ∧ c'.map (fdVpn i) = some (replyPage g) ∧
    svc.mapRefusal (g.words 3) (pagesTo (g.words 36)) s1 = .ok none ∧
    ∀ k ∈ pagesTo (g.words 36), c'.map (dataVpn i k) ≠ none) ∨
  (r.slt 0 = true ∧ c'.fdAlloc = c.fdAlloc)

/-- The server refuses a request. -/
def Refuses (svc : FileService σ) (c : Client σ) (req : FsRequest) : Prop :=
  ∃ s e s1, c.server = some s ∧ svc.page s req = .ok (.error e, s1)

/-- The server opens the file for descriptor `i` and grants every request for a page, and the kernel
can map them. -/
def Grants (svc : FileService σ) (c : Client σ) (i : ℕ) (req : FsRequest) : Prop :=
  ∃ s g s1, c.server = some s ∧ svc.page s req = .ok (.ok g, s1) ∧
    svc.mapRefusal (g.words 3) (pagesTo (g.words 36)) s1 = .ok none ∧
    HasRoom c.table c.grants (fdVpn i :: (pagesTo (g.words 36)).map (dataVpn i))

/-- A descriptor whose page is not the one that the server has sent is not reported as it should. -/
lemma not_opened (hi : i < 32) {q : ℕ} (hq : c'.map (fdVpn i) = some ⟨q, pteD ||| pteV⟩) :
    ¬ OpenReports svc c c' req (BitVec.ofNat 32 i) := by
  rintro (⟨j, hj, s, g, s1, hij, -, -, hmap, -⟩ | ⟨hneg, -⟩)
  · obtain rfl := ofNat_inj hi (by omega) hij
    rw [hq] at hmap
    have hperm : pteD ||| pteV = pteD ||| pteLibrary ||| pteV :=
      congrArg UserPage.perm (Option.some.inj hmap)
    exact absurd hperm (by decide)
  · rw [ofNat_not_neg hi] at hneg
    exact Bool.noConfusion hneg

/-- **A file that the server has opened.** -/
theorem openReports_iff_grants (hi : i < 31) (hfd : c.fdAlloc = some (index2fd (BitVec.ofNat 32 i)))
    (hs : c.server = some s) (hp : svc.page s req = .ok (.ok g, s1))
    (hrec : Receives c c1 (fdVpn i) g s1 ∨ Loses c c1 (fdVpn i) g)
    (h : c1.mapFile svc (index2fd (BitVec.ofNat 32 i)) = .ok (r, c')) :
    OpenReports svc c c' req r ↔ Grants svc c i req := by
  have hi32 : i < 32 := by omega
  rcases hrec with hrec | hlost
  · have hq : c1.map (fdVpn i) = some (replyPage g) := by rw [hrec.map, Function.update_self]
    have hmem : c1.mem (replyPage g).page = g.words := by rw [hrec.mem]; exact Function.update_self ..
    obtain ⟨honly, href, hr⟩ := mapFile_cases hi32 hq hrec.server h
    rw [fileId, fileSize, hmem] at href
    rw [fileSize, hmem] at hr
    have hq' : c'.map (fdVpn i) = some (replyPage g) := by
      rw [honly.below _ (by unfold fdVpn; omega), hq]
    rcases hr with hneg | ⟨rfl, hroom⟩
    · -- a page is refused, and the descriptor stays mapped
      rw [if_pos hneg] at href
      refine iff_of_false ?_ ?_
      · rintro (⟨j, hj, -, -, -, rfl, -⟩ | ⟨-, hsame⟩)
        · rw [ofNat_not_neg (by omega)] at hneg
          exact Bool.noConfusion hneg
        · rw [fdAlloc_free hi32 (hsame.trans hfd)] at hq'
          cases hq'
      · rintro ⟨s', g', s1', hs', hp', hnone, -⟩
        obtain rfl : s' = s := Option.some.inj (hs'.symm.trans hs)
        rw [hp] at hp'
        cases hp'
        rw [href] at hnone
        cases hnone
    · rw [ofNat_not_neg hi32, if_neg (by decide)] at href
      constructor
      · rintro (⟨j, hj, s', g', s1', hij, hs', hp', -, hnone, hall⟩ | ⟨hneg, -⟩)
        · obtain rfl := ofNat_inj hi32 (by omega) hij
          obtain rfl : s' = s := Option.some.inj (hs'.symm.trans hs)
          rw [hp] at hp'
          cases hp'
          exact ⟨s', g, s1, hs', hp, hnone, hrec.hasRoom.mpr (hroom.mpr hall)⟩
        · rw [ofNat_not_neg hi32] at hneg
          exact Bool.noConfusion hneg
      · rintro ⟨s', g', s1', hs', hp', hnone, hall⟩
        obtain rfl : s' = s := Option.some.inj (hs'.symm.trans hs)
        rw [hp] at hp'
        cases hp'
        exact .inl ⟨i, hi, s', g, s1, rfl, hs', hp, hq', hnone, hroom.mp (hrec.hasRoom.mp hall)⟩
  · -- the page of the descriptor could not be mapped
    obtain ⟨rfl, q, hq⟩ := mapFile_unmapped hi32 (by rw [hlost.map, fdAlloc_free hi32 hfd]) h
    refine iff_of_false (not_opened hi32 hq) ?_
    rintro ⟨-, g', -, -, -, -, hroom⟩
    exact (hasRoom_cons.mp hroom).1 hlost.room

/-- `openAP` reports what it should exactly if there is no descriptor, or the path is too long, or the
server refuses to open the file, or it grants everything. -/
theorem openAP_iff {path : List Char8} {mode : Word} (h : c.openAP svc path mode = .ok (r, c')) :
    OpenReports svc c c' (.openFile path mode) r ↔
      c.fdAlloc = none ∨ path.length ≥ maxpathlen ∨ Refuses svc c (.openFile path mode) ∨
        ∃ i < 31, c.fdAlloc = some (index2fd (BitVec.ofNat 32 i)) ∧
          Grants svc c i (.openFile path mode) := by
  unfold openAP at h
  cases hfd : c.fdAlloc with
  | none =>
    rw [hfd] at h
    cases h
    exact iff_of_true (.inr ⟨by decide, rfl⟩) (.inl rfl)
  | some fd =>
    obtain ⟨i, hi, rfl, -⟩ := fdAlloc_eq_some_iff.mp hfd
    rw [hfd] at h
    obtain ⟨⟨r1, c1⟩, h1, h⟩ := bind_eq_ok.mp h
    unfold fsipcOpen at h1
    split_ifs at h1 with hlong
    · cases h1
      cases h
      exact iff_of_true (.inr ⟨by decide, rfl⟩) (.inr (.inl hlong))
    cases hs : c.server with
    | none => simp [fsipcPage, hs] at h1
    | some s =>
      rcases fsipcPage_cases h1 hs with ⟨e, s1, hp, rfl, rfl⟩ | ⟨g, s1, hp, rfl, hrec⟩
      · simp only [e.neg, if_true] at h
        cases h
        exact iff_of_true (.inr ⟨e.neg, fdAlloc_congr fun _ _ => rfl⟩)
          (.inr (.inr (.inl ⟨s, e, s1, hs, hp⟩)))
      · rw [vpn_index2fd (by omega)] at hrec
        rw [openReports_iff_grants hi hfd hs hp hrec h]
        constructor
        · exact fun hgrants => .inr (.inr (.inr ⟨i, hi, rfl, hgrants⟩))
        · rintro (hnone | hlong' | ⟨s', e, s1', hs', hp'⟩ | ⟨j, hj, hij, hgrants⟩)
          · cases hnone
          · exact absurd hlong' hlong
          · rw [Option.some.inj (hs'.symm.trans hs), hp] at hp'
            cases hp'
          · obtain rfl := index2fd_inj (by omega) (by omega) (Option.some.inj hij)
            exact hgrants

/-! ## `openat` -/

lemma index2fd_aligned (w : Word) : (index2fd w).toNat % 4096 = 0 := by
  rw [index2fd, BitVec.toNat_add, BitVec.toNat_mul, fdtable_toNat,
    show (4096 : Word).toNat = 4096 from rfl]
  omega

/-- A descriptor that `fd_lookup` finds. -/
lemma fdLookup_some {fdnum : Word} (h : c.fdLookup fdnum = .ok (some fd, c')) :
    fd = index2fd fdnum ∧ c' = c ∧ ∃ q, c.map (vpn fd) = some q := by
  unfold fdLookup at h
  split_ifs at h with hlt
  case neg => cases h
  obtain ⟨⟨pte, c1⟩, h1, h⟩ := bind_eq_ok.mp h
  cases pte with
  | none => cases h
  | some q =>
    unfold vpt at h1
    split_ifs at h1
    · simp only [pure_eq_ok, Except.ok.injEq, Prod.mk.injEq, Option.map_some, Option.some.injEq] at h1 h
      obtain ⟨rfl, rfl⟩ := h
      exact ⟨rfl, h1.2.symm, q, h1.1⟩
    · cases hg : c.grants 0 with
      | none =>
        rw [hg] at h1
        cases h1
      | some q =>
        rw [hg] at h1
        cases h1

/-- The identifier of an open directory. -/
lemma load_dirid {w : Word} (h : c.map (vpn (index2fd w)) = some p) :
    c.load (fdFileid (index2fd w)) = .ok (c.fileId p, c) := by
  have halign := index2fd_aligned w
  have hto : (fdFileid (index2fd w)).toNat = 4096 * vpn (index2fd w) + 12 := by
    rw [fdFileid, BitVec.toNat_add, vpn_eq_div, show (12 : Word).toNat = 12 from rfl]
    have := (index2fd w).isLt
    omega
  rw [load_mapped (by rw [vpn_of_toNat hto (by decide), h]), hto, Nat.mul_add_mod]
  rfl

/-- `openat` reports what it should exactly if there is no descriptor, or the server opens the file and
grants everything. -/
theorem openat_iff {dirfd mode : Word} {path : List Char8}
    (h : c.openat svc dirfd path mode = .ok (r, c')) :
    ∃ q, c.map (vpn (index2fd dirfd)) = some q ∧
      (OpenReports svc c c' (.openat (c.fileId q) path mode) r ↔
        c.fdAlloc = none ∨ path.length < maxpathlen ∧
          ∃ i < 31, c.fdAlloc = some (index2fd (BitVec.ofNat 32 i)) ∧
            Grants svc c i (.openat (c.fileId q) path mode)) := by
  obtain ⟨⟨dir, c1⟩, hlook, hopen⟩ := bind_eq_ok.mp h
  cases dir with
  | none => cases hopen
  | some dir =>
  obtain ⟨rfl, rfl, q, hq⟩ := fdLookup_some hlook
  refine ⟨q, hq, ?_⟩
  dsimp only at hopen
  rw [load_dirid hq, ok_bind] at hopen
  dsimp only at hopen
  cases hfd : c1.fdAlloc with
  | none =>
    rw [hfd] at hopen
    cases hopen
    exact iff_of_true (.inr ⟨by decide, rfl⟩) (.inl rfl)
  | some fd =>
    obtain ⟨i, hi, rfl, hfree, -⟩ := fdAlloc_eq_some_iff.mp hfd
    have hi32 : i < 32 := by omega
    rw [hfd] at hopen
    obtain ⟨⟨r1, c2⟩, h1, hmap⟩ := bind_eq_ok.mp hopen
    unfold fsipcOpenat at h1
    split_ifs at h1 with hlong
    · cases h1
      obtain ⟨rfl, q', hq'⟩ := mapFile_unmapped hi32 hfree hmap
      refine iff_of_false (not_opened hi32 hq') ?_
      rintro (hnone | ⟨hlt, -⟩)
      · cases hnone
      · omega
    cases hs : c1.server with
    | none => simp [fsipcPage, hs] at h1
    | some s =>
      rcases fsipcPage_cases h1 hs with ⟨e, s1, hp, rfl, rfl⟩ | ⟨g, s1, hp, rfl, hrec⟩
      · -- the error is lost, and the page of the descriptor is touched
        obtain ⟨rfl, q', hq'⟩ := mapFile_unmapped (c := c1.setServer (some s1)) hi32 hfree hmap
        refine iff_of_false (not_opened hi32 hq') ?_
        rintro (hnone | ⟨-, j, -, -, s', g, s1', hs', hp', -⟩)
        · cases hnone
        · rw [Option.some.inj (hs'.symm.trans hs), hp] at hp'
          cases hp'
      · rw [vpn_index2fd hi32] at hrec
        rw [openReports_iff_grants hi hfd hs hp hrec hmap]
        constructor
        · exact fun hgrants => .inr ⟨by omega, i, hi, rfl, hgrants⟩
        · rintro (hnone | ⟨-, j, hj, hij, hgrants⟩)
          · cases hnone
          · obtain rfl := index2fd_inj hi32 (by omega) (Option.some.inj hij)
            exact hgrants

/-- **What `open` reports.** -/
theorem openReports_iff :
    (∀ (path : List Char8) (mode r : Word) c', c.openAP svc path mode = .ok (r, c') →
      (OpenReports svc c c' (.openFile path mode) r ↔
        c.fdAlloc = none ∨ path.length ≥ maxpathlen ∨ Refuses svc c (.openFile path mode) ∨
          ∃ i < 31, c.fdAlloc = some (index2fd (BitVec.ofNat 32 i)) ∧
            Grants svc c i (.openFile path mode))) ∧
    ∀ (dirfd : Word) (path : List Char8) (mode r : Word) c',
      c.openat svc dirfd path mode = .ok (r, c') →
      ∃ q, c.map (vpn (index2fd dirfd)) = some q ∧
        (OpenReports svc c c' (.openat (c.fileId q) path mode) r ↔
          c.fdAlloc = none ∨ path.length < maxpathlen ∧
            ∃ i < 31, c.fdAlloc = some (index2fd (BitVec.ofNat 32 i)) ∧
              Grants svc c i (.openat (c.fileId q) path mode)) :=
  ⟨fun _ _ _ _ h => openAP_iff h, fun _ _ _ _ _ h => openat_iff h⟩

end Client

/-! ## A server that refuses -/

/-- A program with an open directory, with descriptor 0. -/
def dirClient : Client Unit where
  map := fun n => if n = fdVpn 0 then some ⟨7, pteD ||| pteLibrary ||| pteV⟩ else none
  table := fun n => n == 383 || n == 384
  mem := fun _ k => if k = 0 then devfileId else 0
  grants := fun _ => some 20
  server := some ()
  tables := fun n hn => by
    split_ifs at hn with he
    · rw [he]
      rfl
    · exact absurd rfl hn

/-- A server that opens a file of one page, but does not send the page, and refuses `openat`. -/
def openingOnly : FileService Unit where
  page := fun s req =>
    match req with
    | .openFile _ _ => pure (.ok ⟨9, fun k => if k = 36 then 4096 else 0⟩, s)
    | _ => pure (.error ⟨-eNotFound, by decide⟩, s)
  value := fun s _ => pure (0, s)

lemma dirClient_fdAlloc : dirClient.fdAlloc = some (index2fd (BitVec.ofNat 32 1)) := by decide

/-- The theorem for this program and this server. -/
theorem openReports_iff_dirClient :
    (∃ r c', dirClient.openAP openingOnly [0x2F] 0 = .ok (r, c') ∧
      (Client.OpenReports openingOnly dirClient c' (.openFile [0x2F] 0) r ↔
        dirClient.fdAlloc = none ∨ [(0x2F : Char8)].length ≥ maxpathlen ∨
          Client.Refuses openingOnly dirClient (.openFile [0x2F] 0) ∨
          ∃ i < 31, dirClient.fdAlloc = some (index2fd (BitVec.ofNat 32 i)) ∧
            Client.Grants openingOnly dirClient i (.openFile [0x2F] 0))) := by
  have heval : (match dirClient.openAP openingOnly [0x2F] 0 with
      | .ok _ => true
      | .error _ => false) = true := by rfl
  cases hrun : dirClient.openAP openingOnly [0x2F] 0 with
  | error e =>
    rw [hrun] at heval
    exact absurd heval Bool.false_ne_true
  | ok x => exact ⟨x.1, x.2, rfl, Client.openReports_iff.1 _ _ _ _ hrun⟩

/-- **Errors that are not reported.** `openAP` fails when the server does not send the page of the file,
and the descriptor stays in use; `openat` returns a descriptor although the server has not opened the
file. -/
theorem openat_refused :
    (∃ r c', dirClient.openAP openingOnly [0x2F] 0 = .ok (r, c') ∧
      ¬ Client.OpenReports openingOnly dirClient c' (.openFile [0x2F] 0) r) ∧
    ∃ r c', dirClient.openat openingOnly 0 [0x61] 0 = .ok (r, c') ∧
      ¬ Client.OpenReports openingOnly dirClient c' (.openat 0 [0x61] 0) r := by
  constructor
  · have heval : (match dirClient.openAP openingOnly [0x2F] 0 with
        | .ok (r, c') => r.slt 0 && (c'.map (fdVpn 1)).isSome
        | .error _ => false) = true := by rfl
    cases hrun : dirClient.openAP openingOnly [0x2F] 0 with
    | error e =>
      rw [hrun] at heval
      exact absurd heval Bool.false_ne_true
    | ok x =>
      obtain ⟨r, c'⟩ := x
      rw [hrun] at heval
      simp only [Bool.and_eq_true] at heval
      refine ⟨r, c', rfl, ?_⟩
      rintro (⟨i, hi, -, -, -, rfl, -⟩ | ⟨-, hsame⟩)
      · rw [Client.ofNat_not_neg (by omega)] at heval
        exact Bool.noConfusion heval.1
      · rw [Client.fdAlloc_free (by decide) (hsame.trans dirClient_fdAlloc)] at heval
        exact Bool.noConfusion heval.2
  · have heval : (match dirClient.openat openingOnly 0 [0x61] 0 with
        | .ok (r, _) => r == 1
        | .error _ => false) = true := by rfl
    cases hrun : dirClient.openat openingOnly 0 [0x61] 0 with
    | error e =>
      rw [hrun] at heval
      exact absurd heval Bool.false_ne_true
    | ok x =>
      obtain ⟨r, c'⟩ := x
      rw [hrun] at heval
      obtain rfl : r = 1 := by simpa using heval
      refine ⟨1, c', rfl, ?_⟩
      rintro (⟨i, -, s, g, s1, -, -, hp, -⟩ | ⟨hneg, -⟩)
      · cases hp
      · exact absurd hneg (by decide)

end MosVolca
