import MosVolca.User.OpenReports

/-!
# The pages that `dup` maps

`dup` closes the new descriptor, maps the data pages of the old one page by page, and its descriptor
last. `close` unmaps the pages up to the size of the file, which may be too few: a file that the
server refuses to close keeps its pages, and so does a device without data; or too many, if the file is
larger than the window. And the old descriptor is gone if it is the new one.

## Main definitions

* `MosVolca.Client.OpenDesc` — a descriptor that is in use.
* `MosVolca.Client.CloseUnmaps` — the data pages that `close` unmaps.
* `MosVolca.Client.DupHolds` — what `dup` should do.
* `MosVolca.Client.KeepsOthers`, `MosVolca.Client.LeavesNothing` — the two conditions on the pages.

## Main results

* `MosVolca.Client.close_unmapped` — what `close` does to the pages.
* `MosVolca.Client.eachPage_dup` — what the loop of `dup` maps.
* `MosVolca.Client.OpenDesc.dup_iff` — when `dup` does what it should.
* `MosVolca.dup_self` — a descriptor that is duplicated to itself.
-/

namespace MosVolca

/-- The server marks page `k` of a file. -/
def FileService.dirtyPage {σ : Type} (svc : FileService σ) (fileid : Word) (s : σ) (k : ℕ) :
    Kernel σ := do
  let (_, s) ← svc.value s (.dirty fileid (BitVec.ofNat 32 (4096 * k)))
  pure s

/-- Whether the server closes a file, after the requests for its pages. -/
def FileService.closes {σ : Type} (svc : FileService σ) (fileid size : Word) (s : σ) :
    Kernel Bool := do
  let s ← (pagesTo size).foldlM (svc.dirtyPage fileid) s
  let (r, _) ← svc.value s (.close fileid)
  pure (!r.slt 0)

namespace Client

variable {σ : Type} {svc : FileService σ} {c c' c1 : Client σ} {i j k n a old new : ℕ}
  {p q : UserPage} {s s1 : σ} {r fileid size fd : Word} {U V : ℕ → Prop} {d : Dev}

/-! ## Pages that are unmapped -/

/-- The pages `U` have been unmapped. -/
structure Unmapped (c c' : Client σ) (U : ℕ → Prop) : Prop where
  gone : ∀ v, U v → c'.map v = none
  map : ∀ v, ¬ U v → c'.map v = c.map v
  table : c'.table = c.table
  mem : c'.mem = c.mem

lemma Unmapped.none (h : c'.map = c.map) (ht : c'.table = c.table) (hm : c'.mem = c.mem) :
    Unmapped c c' fun _ => False :=
  ⟨fun _ h => h.elim, fun v _ => congrFun h v, ht, hm⟩

lemma Unmapped.trans (h : Unmapped c c1 U) (h' : Unmapped c1 c' V) :
    Unmapped c c' fun v => U v ∨ V v where
  gone := fun v hv => by
    by_cases hV : V v
    · exact h'.gone v hV
    · rw [h'.map v hV, h.gone v (hv.resolve_right hV)]
  map := fun v hv => by
    obtain ⟨hU, hV⟩ := not_or.mp hv
    rw [h'.map v hV, h.map v hU]
  table := h'.table.trans h.table
  mem := h'.mem.trans h.mem

lemma Unmapped.congr (h : Unmapped c c' U) (hUV : ∀ v, V v ↔ U v) : Unmapped c c' V where
  gone := fun v hv => h.gone v ((hUV v).mp hv)
  map := fun v hv => h.map v fun hU => hv ((hUV v).mpr hU)
  table := h.table
  mem := h.mem

lemma erasePage_unmapped (c : Client σ) (n : ℕ) : Unmapped c (c.erasePage n) (· = n) where
  gone := fun v hv => by
    rw [hv]
    exact Function.update_self ..
  map := fun v hv => Function.update_of_ne hv ..
  table := rfl
  mem := rfl

lemma memUnmap_legal {va : Word} (hva : isIllegalVa va = false) :
    c.memUnmap va = (0, c.erasePage (vpn va)) := by
  rw [memUnmap, hva]
  rfl

lemma unmap_legal {va : Word} (hva : isIllegalVa va = false) : c.unmap va = c.erasePage (vpn va) := by
  rw [unmap, memUnmap_legal hva]

lemma unmap_unmapped {va : Word} (hva : isIllegalVa va = false) (hn : vpn va = n) :
    Unmapped c (c.unmap va) (· = n) := by
  rw [unmap_legal hva, hn]
  exact erasePage_unmapped c n

/-- The loop that unmaps the pages of a file goes on up to `UTOP`. -/
lemma eachPage_unmap (hi : i < 32) (ha : dataVpn i a ≤ 0x7f400)
    (h : eachPage (unmapPage (index2data (BitVec.ofNat 32 i))) (List.range' a n) c = .ok (r, c')) :
    Unmapped c c' fun v => ∃ k ∈ List.range' a n, v = dataVpn i k ∧ v < 0x7f400 := by
  induction n generalizing a c with
  | zero =>
    cases h
    exact (Unmapped.none rfl rfl rfl).congr fun v => by simp
  | succ n ih =>
    rw [List.range'_succ] at h ⊢
    have hto : (windowAddr (index2data (BitVec.ofNat 32 i)) a).toNat = 4096 * dataVpn i a :=
      windowAddr_data_toNat hi (by unfold dataVpn at ha; omega)
    rcases Nat.lt_or_eq_of_le ha with hlt | heq
    · have hlegal : isIllegalVa (windowAddr (index2data (BitVec.ofNat 32 i)) a) = false :=
        isIllegalVa_eq_false (by rw [hto]; unfold dataVpn; omega) (by omega)
      have hv : vpn (windowAddr (index2data (BitVec.ofNat 32 i)) a) = dataVpn i a :=
        vpn_of_toNat (m := 0) hto (by decide)
      have hround : unmapPage (index2data (BitVec.ofNat 32 i)) c a =
          .ok (0, c.erasePage (dataVpn i a)) := by
        rw [unmapPage, memUnmap_legal hlegal, hv]
        rfl
      rw [eachPage_cons_ok hround (by decide)] at h
      have hle : dataVpn i (a + 1) ≤ 0x7f400 := by
        unfold dataVpn at hlt ⊢
        omega
      refine ((erasePage_unmapped c _).trans (ih hle h)).congr fun v => ?_
      simp only [List.mem_cons, or_and_right, exists_or, exists_eq_left]
      exact or_congr_left ⟨fun hv => hv.1, fun hv => ⟨hv, hv ▸ hlt⟩⟩
    · have hill : isIllegalVa (windowAddr (index2data (BitVec.ofNat 32 i)) a) = true := by
        have hutop : windowAddr (index2data (BitVec.ofNat 32 i)) a = utop :=
          BitVec.eq_of_toNat_eq (by rw [hto, heq, utop_toNat])
        rw [hutop]
        decide
      have hround : unmapPage (index2data (BitVec.ofNat 32 i)) c a = .ok (-eInval, c) := by
        rw [unmapPage, memUnmap, if_pos hill]
        rfl
      rw [eachPage_cons_error hround (by decide)] at h
      cases h
      refine (Unmapped.none rfl rfl rfl).congr fun v => iff_of_false ?_ not_false
      rintro ⟨k, hk, rfl, hlt⟩
      have hak : a ≤ k := by
        rcases List.mem_cons.mp hk with rfl | hk
        · exact le_rfl
        · exact (Nat.le_succ a).trans (List.mem_range'_1.mp hk).1
      unfold dataVpn at heq hlt
      omega

/-! ## `close` -/

lemma fdVpn_ne (hij : i ≠ j) : fdVpn i ≠ fdVpn j := fun h => hij (Nat.add_left_cancel h)

/-- No page of a window is the page of a descriptor. -/
lemma fdVpn_ne_dataVpn (hi : i < 32) : fdVpn i ≠ dataVpn j k := by
  unfold fdVpn dataVpn
  omega

/-- The requests for the pages of a file change the server only. -/
lemma dirtyPages_run {ks : List ℕ} (hs : c'.server = some s)
    (h : ks.foldlM (fun c k => do
      let (_, c) ← c.fsipcValue svc (.dirty fileid (BitVec.ofNat 32 (4096 * k)))
      pure c) c = .ok c') :
    ∃ s0, c.server = some s0 ∧ ks.foldlM (svc.dirtyPage fileid) s0 = .ok s ∧
      c' = c.setServer (some s) := by
  induction ks generalizing c with
  | nil =>
    cases h
    exact ⟨s, hs, rfl, by rw [setServer, ← hs]⟩
  | cons k ks ih =>
    rw [List.foldlM_cons] at h
    obtain ⟨c1, h1, h⟩ := bind_eq_ok.mp h
    obtain ⟨⟨r, c2⟩, h2, h1⟩ := bind_eq_ok.mp h1
    obtain ⟨s0, s1, hs0, hv, rfl⟩ := fsipcValue_ok_iff.mp h2
    cases h1
    obtain ⟨s2, hs2, hrun, rfl⟩ := ih h
    obtain rfl := Option.some.inj hs2
    refine ⟨s0, hs0, ?_, rfl⟩
    rw [List.foldlM_cons, FileService.dirtyPage, hv]
    exact hrun

/-- The data pages that `close` unmaps with descriptor `n`. -/
def CloseUnmaps (svc : FileService σ) (c : Client σ) (n v : ℕ) : Prop :=
  ∃ p, c.map (fdVpn n) = some p ∧
    ((devLookup (c.mem p.page 0) = some .pipe ∧ v = dataVpn n 0) ∨
      (devLookup (c.mem p.page 0) = some .file ∧
        (∃ s, c.server = some s ∧ svc.closes (c.fileId p) (c.fileSize p) s = .ok true) ∧
        ∃ k ∈ pagesTo (c.fileSize p), v = dataVpn n k ∧ v < 0x7f400))

lemma closeUnmaps_iff {v : ℕ} (hp : c.map (fdVpn n) = some p) : CloseUnmaps svc c n v ↔
    (devLookup (c.mem p.page 0) = some .pipe ∧ v = dataVpn n 0) ∨
      (devLookup (c.mem p.page 0) = some .file ∧
        (∃ s, c.server = some s ∧ svc.closes (c.fileId p) (c.fileSize p) s = .ok true) ∧
        ∃ k ∈ pagesTo (c.fileSize p), v = dataVpn n k ∧ v < 0x7f400) := by
  constructor
  · rintro ⟨q, hq, h⟩
    rwa [Option.some.inj (hp.symm.trans hq)]
  · exact fun h => ⟨p, hp, h⟩

/-- A descriptor that is not in use has no data pages to unmap. -/
lemma not_closeUnmaps {v : ℕ} (hp : c.map (fdVpn n) = none) : ¬ CloseUnmaps svc c n v := by
  rintro ⟨q, hq, -⟩
  rw [hp] at hq
  cases hq

lemma not_closeUnmaps_fdVpn (hi : i < 32) : ¬ CloseUnmaps svc c n (fdVpn i) := by
  rintro ⟨p, -, ⟨-, hv⟩ | ⟨-, -, k, -, hv, -⟩⟩
  · exact fdVpn_ne_dataVpn hi hv
  · exact fdVpn_ne_dataVpn hi hv

/-- The pages of a file are unmapped if the server closes it. -/
lemma fileClose_unmapped (hn : n < 32) (hp : c.map (fdVpn n) = some p)
    (h : c.fileClose svc (index2fd (BitVec.ofNat 32 n)) = .ok (r, c')) :
    Unmapped c c' fun v =>
      (∃ s, c.server = some s ∧ svc.closes (c.fileId p) (c.fileSize p) s = .ok true) ∧
        ∃ k ∈ pagesTo (c.fileSize p), v = dataVpn n k ∧ v < 0x7f400 := by
  have hid : c.load (fdFileid (index2fd (BitVec.ofNat 32 n))) = .ok (c.fileId p, c) :=
    load_field hn hp (by decide)
  have hsize : c.load (fdSize (index2fd (BitVec.ofNat 32 n))) = .ok (c.fileSize p, c) :=
    load_field hn hp (by decide)
  rw [fileClose, hid, ok_bind] at h
  dsimp only at h
  rw [hsize, ok_bind] at h
  dsimp only at h
  split_ifs at h
  obtain ⟨c1, hdirty, h⟩ := bind_eq_ok.mp h
  obtain ⟨⟨r1, c2⟩, hclose, h⟩ := bind_eq_ok.mp h
  obtain ⟨s1, s2, hs1, hv, rfl⟩ := fsipcValue_ok_iff.mp hclose
  obtain ⟨s, hs, hrun, rfl⟩ := dirtyPages_run hs1 hdirty
  have hcloses : svc.closes (c.fileId p) (c.fileSize p) s = .ok (!r1.slt 0) := by
    rw [FileService.closes, hrun, ok_bind, hv]
    rfl
  have hsame : Unmapped c ((c.setServer (some s1)).setServer (some s2)) fun _ => False :=
    Unmapped.none rfl rfl rfl
  dsimp only at h
  split_ifs at h with hneg
  · cases h
    refine hsame.congr fun v => iff_of_false ?_ not_false
    rintro ⟨⟨s', hs', htrue⟩, -⟩
    rw [← Option.some.inj (hs.symm.trans hs'), hcloses, hneg] at htrue
    cases htrue
  · have hle : dataVpn n 0 ≤ 0x7f400 := by
      unfold dataVpn
      omega
    rw [fd2data_index2fd hn, pagesTo, List.range_eq_range'] at h
    rw [pagesTo, List.range_eq_range']
    refine (hsame.trans (eachPage_unmap hn hle h)).congr fun v => ?_
    rw [false_or]
    refine and_iff_right ⟨s, hs, ?_⟩
    rw [hcloses, Bool.eq_false_of_not_eq_true hneg]
    rfl

lemma fdClose_unmapped (hn : n < 32) :
    Unmapped c (c.unmap (index2fd (BitVec.ofNat 32 n))) (· = fdVpn n) :=
  unmap_unmapped (legal_index2fd hn) (vpn_index2fd hn)

lemma pipeClose_unmapped (hn : n < 32) :
    Unmapped c (c.pipeClose (index2fd (BitVec.ofNat 32 n))).2 fun v =>
      v = fdVpn n ∨ v = dataVpn n 0 := by
  have hto := index2data_toNat hn
  have hge : 0x60000 ≤ dataVpn n 0 ∧ dataVpn n 0 < 0x68000 := by
    unfold dataVpn
    omega
  have hlegal : isIllegalVa (index2data (BitVec.ofNat 32 n)) = false :=
    isIllegalVa_eq_false (by omega) (by omega)
  rw [pipeClose, fd2data_index2fd hn]
  exact (fdClose_unmapped hn).trans (unmap_unmapped hlegal (vpn_of_toNat (m := 0) hto (by decide)))

/-- `dev_close` and the `fd_close` that follows unmap the page of the descriptor and its data. -/
lemma devClose_unmapped (hn : n < 32) (hp : c.map (fdVpn n) = some p)
    (hd : devLookup (c.mem p.page 0) = some d)
    (h : c.devClose svc d (index2fd (BitVec.ofNat 32 n)) = .ok (r, c1)) :
    Unmapped c (c1.unmap (index2fd (BitVec.ofNat 32 n))) fun v =>
      v = fdVpn n ∨ CloseUnmaps svc c n v := by
  cases d with
  | file =>
    refine ((fileClose_unmapped hn hp h).trans (fdClose_unmapped hn)).congr fun v => ?_
    rw [closeUnmaps_iff hp, hd]
    simp only [reduceCtorEq, Option.some.injEq, false_and, false_or, true_and]
    exact or_comm
  | cons =>
    cases h
    refine (fdClose_unmapped hn).congr fun v => or_iff_left ?_
    rw [closeUnmaps_iff hp, hd]
    simp
  | pipe =>
    have hc1 : c1 = (c.pipeClose (index2fd (BitVec.ofNat 32 n))).2 := by
      cases h
      rfl
    rw [hc1]
    refine ((pipeClose_unmapped hn).trans (fdClose_unmapped hn)).congr fun v => ?_
    rw [closeUnmaps_iff hp, hd]
    simp only [reduceCtorEq, Option.some.injEq, false_and, or_false, true_and]
    tauto

/-- The descriptors have one page table. -/
lemma fdVpn_div (hi : i < 32) : fdVpn i / 1024 = 383 := by
  unfold fdVpn
  omega

/-- The pages that `close` unmaps: those of the data, and that of the descriptor if its device is
known. -/
def Closed (svc : FileService σ) (c : Client σ) (n v : ℕ) : Prop :=
  (v = fdVpn n ∧ ∃ p d, c.map (fdVpn n) = some p ∧ devLookup (c.mem p.page 0) = some d) ∨
    CloseUnmaps svc c n v

/-- **What `close` does to the pages**. -/
theorem close_unmapped (hn : n < 32) (ht : c.table 383 = true)
    (h : c.close svc (BitVec.ofNat 32 n) = .ok (r, c')) :
    Unmapped c c' (Closed svc c n) := by
  obtain ⟨⟨fd, c1⟩, hlook, h⟩ := bind_eq_ok.mp h
  cases hp : c.map (fdVpn n) with
  | none =>
    have hvpt : c.fdLookup (BitVec.ofNat 32 n) = .ok (none, c) := by
      rw [fdLookup, if_pos (fdnum_slt hn), vpn_index2fd hn, vpt, fdVpn_div hn, if_pos ht, hp]
      rfl
    rw [hvpt] at hlook
    cases hlook
    cases h
    refine (Unmapped.none rfl rfl rfl).congr fun v => iff_of_false ?_ not_false
    rintro (⟨-, p, d, hsome, -⟩ | hv)
    · rw [hp] at hsome
      cases hsome
    · exact not_closeUnmaps hp hv
  | some p =>
    rw [fdLookup_mapped hn hp] at hlook
    cases hlook
    have hdev : c.load (fdDevId (index2fd (BitVec.ofNat 32 n))) = .ok (c.mem p.page 0, c) := by
      have h0 := load_field (w := 0#32) hn hp (by decide)
      rw [BitVec.add_zero] at h0
      exact h0
    dsimp only at h
    rw [hdev, ok_bind] at h
    dsimp only at h
    cases hd : devLookup (c.mem p.page 0) with
    | none =>
      rw [hd] at h
      cases h
      refine (Unmapped.none rfl rfl rfl).congr fun v => iff_of_false ?_ not_false
      rw [Closed, closeUnmaps_iff hp, hd]
      rintro (⟨-, q, d, hq, hsome⟩ | ⟨hsome, -⟩ | ⟨hsome, -⟩)
      · rw [← Option.some.inj (hp.symm.trans hq), hd] at hsome
        cases hsome
      · cases hsome
      · cases hsome
    | some d =>
      rw [hd] at h
      obtain ⟨⟨r1, c1⟩, h1, h⟩ := bind_eq_ok.mp h
      cases h
      refine (devClose_unmapped hn hp hd h1).congr fun v => or_congr_left (and_iff_left ?_)
      exact ⟨p, d, hp, hd⟩

/-! ## The loop of `dup` -/

/-- A page as `dup` maps it. -/
def dupCopy (p : UserPage) : UserPage := ⟨p.page, p.perm &&& (pteD ||| pteLibrary) ||| pteV⟩

/-- Page `k` of the window of the new descriptor, when the loop has been there. -/
def dupTo (c : Client σ) (old new k : ℕ) : Option UserPage :=
  (c.map (dataVpn old k)).elim (c.map (dataVpn new k)) fun p => some (dupCopy p)

lemma legal_data (hi : i < 32) (hk : k < 1024) :
    isIllegalVa (windowAddr (index2data (BitVec.ofNat 32 i)) k) = false := by
  have hto := windowAddr_data_toNat hi (k := k) (by omega)
  have hge : 0x60000 ≤ dataVpn i k ∧ dataVpn i k < 0x68000 := by
    unfold dataVpn
    omega
  exact isIllegalVa_eq_false (by omega) (by omega)

lemma memMap_mapped {src dst perm : Word} (hsrc : isIllegalVa src = false)
    (hdst : isIllegalVa dst = false) (hp : c.map (vpn src) = some p) :
    c.memMap src dst perm = c.pageInsert (vpn dst) ⟨p.page, perm ||| pteV⟩ := by
  rw [memMap, hsrc, hdst, Bool.or_self, if_neg Bool.false_ne_true, hp]

/-- The page table of a page is that of its window. -/
lemma dataVpn_div (hk : k < 1024) : dataVpn i k / 1024 = 384 + i := by
  unfold dataVpn
  omega

/-- One round of the loop: the page is mapped, unless there is no page table for it. -/
lemma dupPage_cases (ho : old < 32) (hn : new < 32) (hk : k < 1024)
    (ht : c.table (384 + old) = true)
    (h : dupPage (index2data (BitVec.ofNat 32 old)) (index2data (BitVec.ofNat 32 new)) c k =
      .ok (r, c')) :
    (∀ t, c.table t = true → c'.table t = true) ∧ c'.mem = c.mem ∧
      ((r = 0 ∧ c'.map = Function.update c.map (dataVpn new k) (dupTo c old new k)) ∨
        r.slt 0 = true ∧ c'.map = c.map ∧ c.table (384 + new) = false) := by
  have hsrc : vpn (windowAddr (index2data (BitVec.ofNat 32 old)) k) = dataVpn old k :=
    vpn_windowAddr_data ho (by omega)
  have hdst : vpn (windowAddr (index2data (BitVec.ofNat 32 new)) k) = dataVpn new k :=
    vpn_windowAddr_data hn (by omega)
  have hvpt : c.vpt (dataVpn old k) = .ok (c.map (dataVpn old k), c) := by
    rw [vpt, dataVpn_div hk, if_pos ht]
    rfl
  rw [dupPage, hsrc, hvpt, ok_bind] at h
  dsimp only at h
  cases hp : c.map (dataVpn old k) with
  | none =>
    rw [hp] at h
    cases h
    refine ⟨fun _ h => h, rfl, .inl ⟨rfl, ?_⟩⟩
    rw [dupTo, hp]
    exact (Function.update_eq_self ..).symm
  | some p =>
    rw [hp] at h
    dsimp only at h
    rw [memMap_mapped (legal_data ho hk) (legal_data hn hk) (by rw [hsrc]; exact hp), hdst] at h
    have hres : c.pageInsert (dataVpn new k) (dupCopy p) = (r, c') := Except.ok.inj h
    have hto : dupTo c old new k = some (dupCopy p) := by
      rw [dupTo, hp]
      rfl
    have hcases := pageInsert_cases c (dataVpn new k) (dupCopy p)
    rw [hres] at hcases
    rcases hcases with ⟨h0, -, hm⟩ | ⟨h0, hno, hc⟩
    · refine ⟨fun t ht' => ?_, hm.mem, .inl ⟨h0, by rw [hto]; exact hm.map⟩⟩
      rw [hm.table]
      by_cases he : t = dataVpn new k / 1024
      · rw [he, Function.update_self]
      · rwa [Function.update_of_ne he]
    · rw [NoRoom, dataVpn_div hk] at hno
      refine ⟨fun t ht' => ?_, ?_, .inr ⟨?_, ?_, hno.1⟩⟩
      · rwa [show c' = c.next from hc]
      · rw [show c' = c.next from hc]
        rfl
      · rw [show r = -eNoMem from h0]
        decide
      · rw [show c' = c.next from hc]
        rfl

/-- What the loop leaves in the tables. -/
structure DupLoop (c c' : Client σ) (old new : ℕ) (ks : List ℕ) (r : Word) : Prop where
  table : ∀ t, c.table t = true → c'.table t = true
  mem : c'.mem = c.mem
  frame : ∀ v, (∀ k ∈ ks, v ≠ dataVpn new k) → c'.map v = c.map v
  copied : r.slt 0 = false → ∀ k ∈ ks, c'.map (dataVpn new k) = dupTo c old new k
  failed : r.slt 0 = true → c.table (384 + new) = false

lemma dataVpn_inj (h : dataVpn i j = dataVpn i k) : j = k := Nat.add_left_cancel h

lemma dataVpn_ne (hij : i ≠ j) {k l : ℕ} (hk : k < 1024) (hl : l < 1024) :
    dataVpn i k ≠ dataVpn j l := by
  unfold dataVpn
  omega

/-- **The loop of `dup`**, between two descriptors. -/
theorem eachPage_dup {ks : List ℕ} (ho : old < 32) (hn : new < 32) (hne : old ≠ new)
    (hks : ∀ k ∈ ks, k < 1024) (hnodup : ks.Nodup) (ht : c.table (384 + old) = true)
    (h : eachPage (dupPage (index2data (BitVec.ofNat 32 old)) (index2data (BitVec.ofNat 32 new)))
      ks c = .ok (r, c')) :
    DupLoop c c' old new ks r := by
  induction ks generalizing c with
  | nil =>
    cases h
    exact ⟨fun _ h => h, rfl, fun _ _ => rfl, fun _ k hk => absurd hk List.not_mem_nil,
      fun h => absurd h (by decide)⟩
  | cons k ks ih =>
    obtain ⟨hk, hks⟩ := List.forall_mem_cons.mp hks
    obtain ⟨hnot, hnodup⟩ := List.nodup_cons.mp hnodup
    obtain ⟨⟨r1, c1⟩, h1, -⟩ := bind_eq_ok.mp h
    obtain ⟨htable, hmem, ⟨rfl, hmap⟩ | ⟨hneg, hmap, hfail⟩⟩ := dupPage_cases ho hn hk ht h1
    · rw [eachPage_cons_ok h1 (by decide)] at h
      obtain hloop := ih hks hnodup (htable _ ht) h
      refine ⟨fun t ht' => hloop.table t (htable t ht'), hloop.mem.trans hmem, fun v hv => ?_,
        fun hpos => ?_, fun hneg => ?_⟩
      · obtain ⟨hvk, hvs⟩ := List.forall_mem_cons.mp hv
        rw [hloop.frame v hvs, hmap, Function.update_of_ne hvk]
      · refine List.forall_mem_cons.mpr ⟨?_, fun l hl => ?_⟩
        · rw [hloop.frame (dataVpn new k) fun l hl he => hnot (dataVpn_inj he ▸ hl), hmap,
            Function.update_self]
        · rw [hloop.copied hpos l hl, dupTo, dupTo, hmap,
            Function.update_of_ne (dataVpn_ne hne (hks l hl) hk),
            Function.update_of_ne fun he => hnot ((dataVpn_inj he : l = k) ▸ hl)]
      · by_contra hsome
        have hnone := hloop.failed hneg
        rw [htable _ (by simpa using hsome)] at hnone
        exact Bool.noConfusion hnone
    · rw [eachPage_cons_error h1 hneg] at h
      cases h
      exact ⟨htable, hmem, fun v _ => by rw [hmap], fun hpos => absurd hneg (by rw [hpos]; decide),
        fun _ => hfail⟩

/-- The part after `err` unmaps the new descriptor and its window. -/
lemma dupErr_unmapped (hn : n < 32) :
    Unmapped c (c.dupErr (index2fd (BitVec.ofNat 32 n)) (index2data (BitVec.ofNat 32 n))) fun v =>
      v = fdVpn n ∨ ∃ k < 1024, v = dataVpn n k := by
  have hfold : ∀ {ks : List ℕ} {c : Client σ}, (∀ k ∈ ks, k < 1024) →
      Unmapped c (ks.foldl (fun c k => c.unmap (windowAddr (index2data (BitVec.ofNat 32 n)) k)) c)
        fun v => ∃ k ∈ ks, v = dataVpn n k := by
    intro ks
    induction ks with
    | nil => exact fun _ => (Unmapped.none rfl rfl rfl).congr fun v => by simp
    | cons k ks ih =>
      intro c hks
      obtain ⟨hk, hks⟩ := List.forall_mem_cons.mp hks
      rw [List.foldl_cons]
      have hround := unmap_unmapped (c := c) (legal_data hn hk) (vpn_windowAddr_data hn (by omega))
      refine (hround.trans (ih hks)).congr fun v => ?_
      simp only [List.mem_cons, or_and_right, exists_or, exists_eq_left]
  rw [dupErr]
  refine ((fdClose_unmapped hn).trans (hfold fun k hk => List.mem_range.mp hk)).congr fun v => ?_
  simp only [List.mem_range]

/-! ## `dup` -/

/-- A descriptor that is in use, the page of its `struct Fd` and its device. -/
structure OpenDesc (c : Client σ) (i : ℕ) (p : UserPage) (d : Dev) : Prop where
  lt : i < maxfd
  page : c.map (fdVpn i) = some p
  dev : devLookup (c.mem p.page 0) = some d

/-- What a page and its entry share with a page that `dup` makes of it. -/
def shared (p : UserPage) : ℕ × Word := (p.page, p.perm &&& (pteD ||| pteLibrary))

/-- The pages of descriptor `i` are mapped as before. -/
def SameDesc (c c' : Client σ) (i : ℕ) : Prop :=
  c'.map (fdVpn i) = c.map (fdVpn i) ∧ ∀ k < 1024, c'.map (dataVpn i k) = c.map (dataVpn i k)

/-- What `dup` should do. -/
def DupHolds (c c' : Client σ) (old new : ℕ) (r : Word) : Prop :=
  (∀ j < maxfd, j = old ∨ j ≠ new → SameDesc c c' j) ∧ c'.mem = c.mem ∧
    ((r = BitVec.ofNat 32 new ∧
        (c'.map (fdVpn new)).map shared = (c'.map (fdVpn old)).map shared ∧
        ∀ k < 1024, (c'.map (dataVpn new k)).map shared = (c'.map (dataVpn old k)).map shared) ∨
      r.slt 0 = true ∧ c'.map (fdVpn new) = none ∧ ∀ k < 1024, c'.map (dataVpn new k) = none)

/-- The loop of `dup`, which is left out if the old descriptor has no page table for its window. -/
lemma dupLoop_run (ho : old < 32) (hn : new < 32) (hne : old ≠ new)
    (h : c.dupLoop (index2data (BitVec.ofNat 32 old)) (index2data (BitVec.ofNat 32 new)) =
      .ok (r, c')) :
    DupLoop c c' old new windowPages r := by
  have hpdx : pdx (index2data (BitVec.ofNat 32 old)) = 384 + old := by
    rw [pdx_of_vpn (vpn_of_toNat (m := 0) (index2data_toNat ho) (by decide))]
    exact dataVpn_div (by decide)
  rw [dupLoop, hpdx] at h
  split_ifs at h with ht
  · exact eachPage_dup ho hn hne (fun k hk => List.mem_range.mp hk) List.nodup_range ht h
  · cases h
    refine ⟨fun _ h => h, rfl, fun _ _ => rfl, fun _ k hk => ?_, fun h => absurd h (by decide)⟩
    have hnone : c.map (dataVpn old k) = none := by
      by_contra hsome
      have htable := c.tables _ hsome
      rw [dataVpn_div (List.mem_range.mp hk)] at htable
      exact ht htable
    rw [dupTo, hnone]
    rfl

/-- The page of the descriptor is mapped as the pages of the data are. -/
lemma dupFd_mapped (ho : old < 32) (hn : new < 32) (hp : c.map (fdVpn old) = some p) :
    c.dupFd (index2fd (BitVec.ofNat 32 old)) (index2fd (BitVec.ofNat 32 new)) =
      .ok (c.pageInsert (fdVpn new) (dupCopy p)) := by
  rw [dupFd, vpn_index2fd ho, vpt_mapped hp, ok_bind]
  dsimp only
  rw [memMap_mapped (legal_index2fd ho) (legal_index2fd hn) (by rw [vpn_index2fd ho]; exact hp),
    vpn_index2fd hn]
  rfl

/-- What `dup` does with two descriptors. -/
theorem OpenDesc.dup_cases (ho : OpenDesc c old p d) (hn : new < 32) (hne : old ≠ new)
    (h : c.dup svc (BitVec.ofNat 32 old) (BitVec.ofNat 32 new) = .ok (r, c')) :
    ∃ c1 c2 r2, Unmapped c c1 (Closed svc c new) ∧ DupLoop c1 c2 old new windowPages r2 ∧
      ((r2.slt 0 = false ∧ r = BitVec.ofNat 32 new ∧ Maps c2 c' (fdVpn new) (dupCopy p)) ∨
        r2.slt 0 = true ∧ r = r2 ∧ Unmapped c2 c' fun v =>
          v = fdVpn new ∨ ∃ k < 1024, v = dataVpn new k) := by
  unfold dup at h
  rw [fdLookup_mapped ho.lt ho.page, ok_bind] at h
  dsimp only at h
  rw [fd2data_index2fd ho.lt, fd2data_index2fd hn] at h
  obtain ⟨⟨r1, c1⟩, hclose, h⟩ := bind_eq_ok.mp h
  obtain ⟨⟨r2, c2⟩, hrun, h⟩ := bind_eq_ok.mp h
  have hclosed := close_unmapped hn (fdVpn_div ho.lt ▸ c.tables _ (by simp [ho.page])) hclose
  have hloop := dupLoop_run ho.lt hn hne hrun
  refine ⟨c1, c2, r2, hclosed, hloop, ?_⟩
  dsimp only at h
  split_ifs at h with hneg
  · cases h
    exact .inr ⟨hneg, rfl, dupErr_unmapped hn⟩
  · have hp : c2.map (fdVpn old) = some p := by
      rw [hloop.frame _ fun k _ => fdVpn_ne_dataVpn ho.lt, hclosed.map, ho.page]
      rintro (⟨he, -⟩ | hv)
      · exact fdVpn_ne hne he
      · exact not_closeUnmaps_fdVpn ho.lt hv
    rw [dupFd_mapped ho.lt hn hp, ok_bind] at h
    rcases pageInsert_cases c2 (fdVpn new) (dupCopy p) with ⟨h0, -, hm⟩ | ⟨-, hno, -⟩
    · rw [h0, if_neg (by decide)] at h
      cases h
      exact .inl ⟨by simpa using hneg, rfl, hm⟩
    · -- the table of the descriptors is there
      have ht := c2.tables (fdVpn old) (by simp [hp])
      rw [fdVpn_div ho.lt] at ht
      rw [NoRoom, fdVpn_div hn, ht] at hno
      exact Bool.noConfusion hno.1

lemma vpt_ok {x : Option UserPage} (h : c.vpt n = .ok (x, c')) : x = c.map n ∧ c'.map = c.map := by
  unfold vpt at h
  split_ifs at h with ht
  · cases h
    exact ⟨rfl, rfl⟩
  · cases hg : c.grants 0 with
    | none =>
      rw [hg] at h
      cases h
    | some q =>
      rw [hg] at h
      cases h
      refine ⟨?_, rfl⟩
      by_contra hne
      exact ht (c.tables n (Ne.symm hne))

/-- `syscall_mem_map` maps one page. -/
lemma memMap_map {src dst perm : Word} {v : ℕ} (hv : v ≠ vpn dst)
    (h : c.memMap src dst perm = (r, c')) : c'.map v = c.map v := by
  unfold memMap at h
  split_ifs at h
  · cases h
    rfl
  cases hp : c.map (vpn src) with
  | none =>
    rw [hp] at h
    cases h
    rfl
  | some p =>
    rw [hp] at h
    dsimp only at h
    have hcases := pageInsert_cases c (vpn dst) ⟨p.page, perm ||| pteV⟩
    rw [h] at hcases
    rcases hcases with ⟨-, -, hm⟩ | ⟨-, -, hc⟩
    · rw [hm.map, Function.update_of_ne hv]
    · rw [show c' = c.next from hc]
      rfl

/-- The loop does not touch the pages of the descriptors. -/
lemma dupPage_fd (hi : i < 32) (hj : j < 32) (hk : k < 1024) {ova : Word}
    (h : dupPage ova (index2data (BitVec.ofNat 32 i)) c k = .ok (r, c')) :
    c'.map (fdVpn j) = c.map (fdVpn j) := by
  obtain ⟨⟨x, c1⟩, hvpt, h⟩ := bind_eq_ok.mp h
  obtain ⟨-, hmap⟩ := vpt_ok hvpt
  rw [← hmap]
  cases x with
  | none =>
    cases h
    rfl
  | some p =>
    refine memMap_map ?_ (Except.ok.inj h)
    rw [vpn_windowAddr_data hi (by omega)]
    exact fdVpn_ne_dataVpn hj

/-- A descriptor that is not in use cannot be mapped. -/
lemma dupFd_unmapped {fd newfd : Word} (hp : c.map (vpn fd) = none)
    (h : c.dupFd fd newfd = .ok (r, c')) : r.slt 0 = true ∧ c'.map = c.map := by
  obtain ⟨⟨x, c1⟩, hvpt, h⟩ := bind_eq_ok.mp h
  obtain ⟨-, hmap⟩ := vpt_ok hvpt
  have hres := Except.ok.inj h
  unfold memMap at hres
  rw [hmap, hp] at hres
  split_ifs at hres <;> cases hres <;> exact ⟨by decide, hmap⟩

/-- A descriptor that is duplicated to itself is gone. -/
theorem OpenDesc.dup_same (ho : OpenDesc c old p d)
    (h : c.dup svc (BitVec.ofNat 32 old) (BitVec.ofNat 32 old) = .ok (r, c')) :
    c'.map (fdVpn old) = none := by
  unfold dup at h
  rw [fdLookup_mapped ho.lt ho.page, ok_bind] at h
  dsimp only at h
  rw [fd2data_index2fd ho.lt] at h
  obtain ⟨⟨r1, c1⟩, hclose, h⟩ := bind_eq_ok.mp h
  obtain ⟨⟨r2, c2⟩, hrun, h⟩ := bind_eq_ok.mp h
  have hclosed := close_unmapped ho.lt (fdVpn_div ho.lt ▸ c.tables _ (by simp [ho.page])) hclose
  have hnone : c1.map (fdVpn old) = none := hclosed.gone _ (.inl ⟨rfl, p, d, ho.page, ho.dev⟩)
  have hloop : c2.map (fdVpn old) = none := by
    unfold dupLoop at hrun
    split_ifs at hrun
    · exact eachPage_invariant (I := fun x => x.map (fdVpn old) = none)
        (fun k hk x r x' hx hround =>
          (dupPage_fd ho.lt ho.lt (List.mem_range.mp hk) hround).trans hx) hnone hrun
    · cases hrun
      exact hnone
  have herr : ∀ x : Client σ, (x.dupErr (index2fd (BitVec.ofNat 32 old))
      (index2data (BitVec.ofNat 32 old))).map (fdVpn old) = none := fun x =>
    (dupErr_unmapped ho.lt).gone _ (.inl rfl)
  dsimp only at h
  split_ifs at h
  · cases h
    exact herr c2
  · obtain ⟨⟨r3, c3⟩, hfd, h⟩ := bind_eq_ok.mp h
    obtain ⟨hneg, -⟩ := dupFd_unmapped (by rw [vpn_index2fd ho.lt]; exact hloop) hfd
    dsimp only at h
    rw [if_pos hneg] at h
    cases h
    exact herr c3

/-- No page that `close` unmaps with descriptor `new` is a page of another descriptor. -/
def KeepsOthers (svc : FileService σ) (c : Client σ) (new : ℕ) : Prop :=
  ∀ j < maxfd, j ≠ new → ∀ k < 1024, CloseUnmaps svc c new (dataVpn j k) →
    c.map (dataVpn j k) = none

/-- A page in the window of `new` is unmapped by `close`, or a page of `old` takes its place. -/
def LeavesNothing (svc : FileService σ) (c : Client σ) (old new : ℕ) : Prop :=
  ∀ k < 1024, c.map (dataVpn new k) ≠ none →
    CloseUnmaps svc c new (dataVpn new k) ∨ c.map (dataVpn old k) ≠ none

/-- The copy of a page is shared exactly if the page is. -/
lemma shared_dupCopy (p : UserPage) : shared (dupCopy p) = shared p := by
  have h : ∀ w : Word, (w &&& (pteD ||| pteLibrary) ||| pteV) &&& (pteD ||| pteLibrary) =
      w &&& (pteD ||| pteLibrary) := by
    intro w
    apply BitVec.eq_of_getLsbD_eq
    intro b hb
    have hbit : ∀ b < 32, pteV.getLsbD b = true → (pteD ||| pteLibrary).getLsbD b = false := by decide
    have hb' := hbit b hb
    rw [BitVec.getLsbD_and, BitVec.getLsbD_or, BitVec.getLsbD_and]
    cases hV : pteV.getLsbD b with
    | false => rw [Bool.or_false, Bool.and_assoc, Bool.and_self]
    | true => rw [hb' hV, Bool.and_false, Bool.and_false]
  exact congrArg (Prod.mk p.page) (h p.perm)

lemma closed_data_iff (hn : new < 32) :
    Closed svc c new (dataVpn j k) ↔ CloseUnmaps svc c new (dataVpn j k) :=
  or_iff_right fun h => fdVpn_ne_dataVpn hn h.1.symm

/-- A data page that `close` leaves is as before. -/
lemma Unmapped.data_same_iff (hc : Unmapped c c1 (Closed svc c new)) (hn : new < 32) :
    c1.map (dataVpn j k) = c.map (dataVpn j k) ↔
      (CloseUnmaps svc c new (dataVpn j k) → c.map (dataVpn j k) = Option.none) := by
  rw [← closed_data_iff hn]
  constructor
  · intro he hv
    rw [← he, hc.gone _ hv]
  · intro hv
    by_cases hgone : Closed svc c new (dataVpn j k)
    · rw [hc.gone _ hgone, hv hgone]
    · exact hc.map _ hgone

lemma Unmapped.data_none_iff (hc : Unmapped c c1 (Closed svc c new)) (hn : new < 32) :
    c1.map (dataVpn j k) = Option.none ↔
      CloseUnmaps svc c new (dataVpn j k) ∨ c.map (dataVpn j k) = Option.none := by
  rw [← closed_data_iff hn]
  by_cases hgone : Closed svc c new (dataVpn j k)
  · exact iff_of_true (hc.gone _ hgone) (.inl hgone)
  · rw [hc.map _ hgone, or_iff_right hgone]

/-- The other descriptors after `dup`. -/
lemma sameDesc_iff (hn : new < 32) (hj : j < 32) (hne : j ≠ new)
    (hc : Unmapped c c1 (Closed svc c new))
    (hframe : ∀ v, v ≠ fdVpn new → (∀ k < 1024, v ≠ dataVpn new k) → c'.map v = c1.map v) :
    SameDesc c c' j ↔
      ∀ k < 1024, CloseUnmaps svc c new (dataVpn j k) → c.map (dataVpn j k) = none := by
  have hfd : c'.map (fdVpn j) = c.map (fdVpn j) := by
    rw [hframe _ (fdVpn_ne hne) fun k _ => fdVpn_ne_dataVpn hj, hc.map]
    rintro (⟨he, -⟩ | hv)
    · exact fdVpn_ne hne he
    · exact not_closeUnmaps_fdVpn hj hv
  rw [SameDesc, and_iff_right hfd]
  refine forall₂_congr fun k hk => ?_
  rw [hframe _ (fdVpn_ne_dataVpn hn).symm fun l hl => dataVpn_ne hne hk hl, hc.data_same_iff hn]

/-- A page of the new window after the loop is what `old` has exactly if nothing is left of `new`. -/
lemma shared_dupTo_iff (hn : new < 32) (hc : Unmapped c c1 (Closed svc c new))
    (hold : c1.map (dataVpn old k) = c.map (dataVpn old k)) :
    (dupTo c1 old new k).map shared = (c1.map (dataVpn old k)).map shared ↔
      (c.map (dataVpn new k) ≠ none →
        CloseUnmaps svc c new (dataVpn new k) ∨ c.map (dataVpn old k) ≠ none) := by
  rw [dupTo, hold]
  cases hp : c.map (dataVpn old k) with
  | none =>
    have hnone := hc.data_none_iff (j := new) (k := k) hn
    simp only [Option.elim_none, Option.map_none, Option.map_eq_none_iff, ne_eq, not_true_eq_false,
      or_false]
    rw [hnone]
    tauto
  | some p => simp [shared_dupCopy]

/-- **What `dup` should do**, for two descriptors: exactly if `close` keeps to the pages of the new one
and nothing is left of it. -/
theorem OpenDesc.dup_ne_iff (ho : OpenDesc c old p d) (hn : new < maxfd) (hne : old ≠ new)
    (h : c.dup svc (BitVec.ofNat 32 old) (BitVec.ofNat 32 new) = .ok (r, c')) :
    DupHolds c c' old new r ↔ KeepsOthers svc c new ∧ LeavesNothing svc c old new := by
  obtain ⟨c1, c2, r2, hc, hloop, hend⟩ := ho.dup_cases hn hne h
  have hloopframe : ∀ v, (∀ k < 1024, v ≠ dataVpn new k) → c2.map v = c1.map v := fun v hv =>
    hloop.frame v fun k hk => hv k (List.mem_range.mp hk)
  have hframe : ∀ v, v ≠ fdVpn new → (∀ k < 1024, v ≠ dataVpn new k) → c'.map v = c1.map v := by
    intro v hfd hv
    rw [← hloopframe v hv]
    rcases hend with ⟨-, -, hm⟩ | ⟨-, -, hu⟩
    · rw [hm.map, Function.update_of_ne hfd]
    · refine hu.map v ?_
      rintro (he | ⟨k, hk, he⟩)
      · exact hfd he
      · exact hv k hk he
  have hmem : c'.mem = c.mem := by
    rw [← hc.mem, ← hloop.mem]
    rcases hend with ⟨-, -, hm⟩ | ⟨-, -, hu⟩
    · exact hm.mem
    · exact hu.mem
  have hothers : (∀ j < maxfd, j = old ∨ j ≠ new → SameDesc c c' j) ↔ KeepsOthers svc c new := by
    refine forall₂_congr fun j hj => ?_
    rw [or_iff_right_of_imp fun he => he ▸ hne]
    exact forall_congr' fun hjn => sameDesc_iff hn hj hjn hc hframe
  rw [DupHolds, hothers, and_iff_right hmem]
  refine and_congr_right fun hkeep => ?_
  have hsame : ∀ k < 1024, c1.map (dataVpn old k) = c.map (dataVpn old k) := fun k hk =>
    (hc.data_same_iff hn).mpr (hkeep old ho.lt hne k hk)
  rcases hend with ⟨hpos, rfl, hm⟩ | ⟨hneg, rfl, hu⟩
  · -- the new descriptor shows the pages of the old one
    have hold := (sameDesc_iff hn ho.lt hne hc hframe).mpr (hkeep old ho.lt hne)
    have hfd : (c'.map (fdVpn new)).map shared = (c'.map (fdVpn old)).map shared := by
      rw [hold.1, ho.page, hm.map, Function.update_self]
      exact congrArg some (shared_dupCopy p)
    have hdata : ∀ k < 1024,
        (c'.map (dataVpn new k)).map shared = (c'.map (dataVpn old k)).map shared ↔
          (c.map (dataVpn new k) ≠ none →
            CloseUnmaps svc c new (dataVpn new k) ∨ c.map (dataVpn old k) ≠ none) := by
      intro k hk
      rw [← shared_dupTo_iff hn hc (hsame k hk), hold.2 k hk, hsame k hk, hm.map,
        Function.update_of_ne (fdVpn_ne_dataVpn hn).symm,
        hloop.copied hpos k (List.mem_range.mpr hk)]
    have hneg : (BitVec.ofNat 32 new).slt 0 = false := ofNat_not_neg hn
    rw [hneg, and_iff_right rfl, and_iff_right hfd, or_iff_left fun hf => Bool.noConfusion hf.1]
    exact forall₂_congr hdata
  · -- there was no page table for the new window, so it was empty
    refine iff_of_true (.inr ⟨hneg, hu.gone _ (.inl rfl), fun k hk => hu.gone _ (.inr ⟨k, hk, rfl⟩)⟩) ?_
    intro k hk hsome
    have ht := c.tables _ hsome
    rw [dataVpn_div hk, ← hc.table, hloop.failed hneg] at ht
    exact Bool.noConfusion ht

/-- **When `dup` does what it should.** -/
theorem OpenDesc.dup_iff (ho : OpenDesc c old p d) (hn : new < maxfd)
    (h : c.dup svc (BitVec.ofNat 32 old) (BitVec.ofNat 32 new) = .ok (r, c')) :
    DupHolds c c' old new r ↔
      old ≠ new ∧ KeepsOthers svc c new ∧ LeavesNothing svc c old new := by
  by_cases hne : old = new
  · subst hne
    refine iff_of_false (fun hd => ?_) fun hcond => hcond.1 rfl
    have hsame := (hd.1 old ho.lt (.inl rfl)).1
    rw [ho.dup_same h, ho.page] at hsame
    cases hsame
  · rw [ho.dup_ne_iff hn hne h, and_iff_right hne]

end Client

/-! ## A descriptor that is duplicated to itself -/

/-- A program whose descriptor 0 is the console. -/
def consClient : Client Unit where
  map := fun n => if n = fdVpn 0 then some ⟨7, pteD ||| pteLibrary ||| pteV⟩ else none
  table := fun n => n == 383
  mem := fun _ k => if k = 0 then 0x63 else 0
  grants := fun _ => some 20
  server := some ()
  tables := fdVpn_table

lemma consClient_open :
    Client.OpenDesc consClient 0 ⟨7, pteD ||| pteLibrary ||| pteV⟩ .cons := ⟨by decide, rfl, rfl⟩

/-- The theorem for the console and descriptor 1. -/
theorem dup_iff_consClient : ∃ r c', consClient.dup openingOnly 0 1 = .ok (r, c') ∧
    (Client.DupHolds consClient c' 0 1 r ↔ 0 ≠ 1 ∧ Client.KeepsOthers openingOnly consClient 1 ∧
      Client.LeavesNothing openingOnly consClient 0 1) := by
  have heval : (match consClient.dup openingOnly 0 1 with
      | .ok _ => true
      | .error _ => false) = true := by rfl
  cases hrun : consClient.dup openingOnly 0 1 with
  | error e =>
    rw [hrun] at heval
    exact absurd heval Bool.false_ne_true
  | ok x => exact ⟨x.1, x.2, rfl, consClient_open.dup_iff (by decide) hrun⟩

/-- **A descriptor that is duplicated to itself**: `close` takes the page that should be mapped. -/
theorem dup_self : ∃ r c', consClient.dup openingOnly 0 0 = .ok (r, c') ∧
    r.slt 0 = true ∧ c'.map (fdVpn 0) = none ∧ ¬ Client.DupHolds consClient c' 0 0 r := by
  have heval : (match consClient.dup openingOnly 0 0 with
      | .ok (r, _) => r.slt 0
      | .error _ => false) = true := by rfl
  cases hrun : consClient.dup openingOnly 0 0 with
  | error e =>
    rw [hrun] at heval
    exact absurd heval Bool.false_ne_true
  | ok x =>
    rw [hrun] at heval
    refine ⟨x.1, x.2, rfl, heval, consClient_open.dup_same hrun, fun hd => ?_⟩
    have hsame := (hd.1 0 (by decide) (.inl rfl)).1
    rw [consClient_open.dup_same hrun, consClient_open.page] at hsame
    cases hsame

end MosVolca
