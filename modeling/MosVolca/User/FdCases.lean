import MosVolca.User.Fd

/-!
# The functions of the file library, case by case

Where the pages of a descriptor are, what an access to a page that is mapped does, and how the loops
over the pages of a file follow the answers of the server.

## Main definitions

* `MosVolca.fdVpn`, `MosVolca.dataVpn` — the pages of a descriptor.
* `MosVolca.Client.OpenFile` — an open file.
* `MosVolca.FileService.mapRefusal`, `MosVolca.FileService.sizeRefusal` — the first request of a
  function that the server refuses.

## Main results

* `MosVolca.Client.eachPage_map` — the loops that map pages stop where the server refuses.
* `MosVolca.Client.OpenFile.ftruncate_cases` — what `ftruncate` does.
-/

namespace MosVolca

/-! ## Addresses -/

/-- The page of a descriptor. -/
def fdVpn (i : ℕ) : ℕ := 0x5fc00 + i

/-- The page of descriptor 0 has a page table. -/
lemma fdVpn_table : ∀ n, (if n = fdVpn 0 then some (⟨7, pteD ||| pteLibrary ||| pteV⟩ : UserPage)
    else none) ≠ none → (n / 1024 == 383) = true := by
  intro n hn
  split_ifs at hn with he
  · rw [he]
    rfl
  · exact absurd rfl hn

/-- An error that a server may return instead of a page. -/
lemma eInval_refuses : (-eInval).slt 0 = true := by decide

/-- Page `k` of the data of a descriptor. -/
def dataVpn (i k : ℕ) : ℕ := 0x60000 + 1024 * i + k

variable {i j k n m : ℕ} {va w : Word}

@[simp] lemma fdtable_toNat : fdtable.toNat = 0x5fc00000 := rfl
@[simp] lemma filebase_toNat : filebase.toNat = 0x60000000 := rfl
@[simp] lemma maxfilesize_toNat : maxfilesize.toNat = 0x400000 := rfl

/-- The distance of an entry of a table from its start. -/
lemma index_toNat (h : i * w.toNat < 2 ^ 32) (hi : i < 2 ^ 32) :
    (BitVec.ofNat 32 i * w).toNat = i * w.toNat := by
  rw [BitVec.toNat_mul, BitVec.toNat_ofNat, Nat.mod_eq_of_lt hi, Nat.mod_eq_of_lt h]

lemma index2fd_toNat (hi : i < 32) : (index2fd (BitVec.ofNat 32 i)).toNat = 4096 * fdVpn i := by
  have h : (BitVec.ofNat 32 i * 4096).toNat = i * 4096 :=
    index_toNat (by change i * 4096 < _; omega) (by omega)
  rw [index2fd, BitVec.toNat_add, h, fdtable_toNat, fdVpn]
  omega

lemma index2data_toNat (hi : i < 32) :
    (index2data (BitVec.ofNat 32 i)).toNat = 4096 * dataVpn i 0 := by
  have h : (BitVec.ofNat 32 i * pdmap).toNat = i * 4194304 :=
    index_toNat (by change i * 4194304 < _; omega) (by omega)
  rw [index2data, BitVec.toNat_add, h, filebase_toNat, dataVpn]
  omega

lemma windowAddr_toNat (h : va.toNat + 4096 * k < 2 ^ 32) :
    (windowAddr va k).toNat = va.toNat + 4096 * k := by
  rw [windowAddr, BitVec.toNat_add, BitVec.toNat_ofNat, Nat.add_mod_mod, Nat.mod_eq_of_lt h]

lemma vpn_of_toNat (h : va.toNat = 4096 * n + m) (hm : m < 4096) : vpn va = n := by
  rw [vpn_eq_div, h]
  omega

lemma vpn_index2fd (hi : i < 32) : vpn (index2fd (BitVec.ofNat 32 i)) = fdVpn i :=
  vpn_of_toNat (m := 0) (index2fd_toNat hi) (by decide)

lemma windowAddr_data_toNat (hi : i < 32) (hk : k < 0x80000) :
    (windowAddr (index2data (BitVec.ofNat 32 i)) k).toNat = 4096 * dataVpn i k := by
  have h := index2data_toNat hi
  unfold dataVpn at h ⊢
  rw [windowAddr_toNat (by omega), h]
  omega

lemma vpn_windowAddr_data (hi : i < 32) (hk : k < 0x80000) :
    vpn (windowAddr (index2data (BitVec.ofNat 32 i)) k) = dataVpn i k :=
  vpn_of_toNat (m := 0) (windowAddr_data_toNat hi hk) (by decide)

/-- The number of a descriptor is read back from its page. -/
lemma fd2num_index2fd (hi : i < 32) : fd2num (index2fd (BitVec.ofNat 32 i)) = BitVec.ofNat 32 i := by
  have h := index2fd_toNat hi
  have hle : fdtable ≤ index2fd (BitVec.ofNat 32 i) := by
    rw [BitVec.le_def, h, fdtable_toNat, fdVpn]
    omega
  apply BitVec.eq_of_toNat_eq
  rw [fd2num, BitVec.toNat_udiv, BitVec.toNat_sub_of_le hle, h, fdtable_toNat, fdVpn,
    BitVec.toNat_ofNat, show (4096 : Word).toNat = 4096 from rfl]
  omega

lemma fd2data_index2fd (hi : i < 32) :
    fd2data (index2fd (BitVec.ofNat 32 i)) = index2data (BitVec.ofNat 32 i) := by
  rw [fd2data, fd2num_index2fd hi]

/-- The address of a field of a `struct Filefd`. -/
lemma field_toNat (hi : i < 32) (hw : w.toNat < 4096) :
    (index2fd (BitVec.ofNat 32 i) + w).toNat = 4096 * fdVpn i + w.toNat := by
  have h := index2fd_toNat hi
  unfold fdVpn at h ⊢
  rw [BitVec.toNat_add, h]
  omega

lemma vpn_field (hi : i < 32) (hw : w.toNat < 4096) :
    vpn (index2fd (BitVec.ofNat 32 i) + w) = fdVpn i :=
  vpn_of_toNat (field_toNat hi hw) hw

lemma word_field (hi : i < 32) (hw : w.toNat < 4096) :
    (index2fd (BitVec.ofNat 32 i) + w).toNat % 4096 / 4 = w.toNat / 4 := by
  rw [field_toNat hi hw]
  omega

lemma isIllegalVa_eq_false (h1 : 0x3fe000 ≤ va.toNat) (h2 : va.toNat < 0x7f400000) :
    isIllegalVa va = false := by
  rw [isIllegalVa, Bool.or_eq_false_iff, decide_eq_false_iff_not, decide_eq_false_iff_not,
    BitVec.lt_def, ge_iff_le, BitVec.le_def, utemp_toNat, utop_toNat]
  omega

lemma legal_index2fd (hi : i < 32) : isIllegalVa (index2fd (BitVec.ofNat 32 i)) = false := by
  have h := index2fd_toNat hi
  unfold fdVpn at h
  exact isIllegalVa_eq_false (by omega) (by omega)

/-- `ROUND` to a page, as a number. -/
lemma roundPg_toNat (h : w.toNat ≤ 0xfffff000) :
    (roundPg w).toNat = 4096 * ((w.toNat + 4095) / 4096) := by
  have hmask : ∀ x : Word, x &&& ~~~4095#32 = (x >>> 12) <<< 12 := by
    intro x
    apply BitVec.eq_of_getLsbD_eq
    intro b hb
    have hm : ∀ b < 32, (~~~4095#32).getLsbD b = decide (12 ≤ b) := by decide
    rw [BitVec.getLsbD_and, hm b hb, BitVec.getLsbD_shiftLeft, BitVec.getLsbD_ushiftRight]
    by_cases h12 : b < 12
    · simp [h12]
    · have hge : 12 ≤ b := by omega
      simp [hb, h12, hge]
  have hadd : (w + 4095).toNat = w.toNat + 4095 := by
    rw [BitVec.toNat_add, show (4095 : Word).toNat = 4095 from rfl, Nat.mod_eq_of_lt (by omega)]
  rw [roundPg, hmask, BitVec.toNat_shiftLeft, BitVec.toNat_ushiftRight, hadd, Nat.shiftRight_eq_div_pow,
    Nat.shiftLeft_eq]
  omega

/-- The loop from one size to another goes through the pages of the second that the first does not
have. -/
lemma mem_pagesBetween {a b : Word} (ha : a.toNat ≤ 0xfffff000) (hb : b.toNat ≤ 0xfffff000) :
    k ∈ pagesBetween a b ↔ a.toNat ≤ 4096 * k ∧ 4096 * k < b.toNat := by
  rw [pagesBetween, roundPg_toNat ha, roundPg_toNat hb, List.mem_range'_1]
  omega

/-! ## The answers of the server -/

namespace FileService

variable {σ : Type} (svc : FileService σ)

/-- The answers to requests for the pages `ks` of a file: the first error, if there is one. -/
def mapRefusal (fileid : Word) : List ℕ → σ → Kernel (Option Word)
  | [], _ => pure none
  | k :: ks, s => do
    match ← svc.page s (.map fileid (BitVec.ofNat 32 (4096 * k))) with
    | (.error r, _) => pure (some r.code)
    | (.ok _, s) => mapRefusal fileid ks s

/-- The answers to the requests of `ftruncate`. -/
def sizeRefusal (fileid oldsize size : Word) (s : σ) : Kernel (Option Word) := do
  let (r, s) ← svc.value s (.setSize fileid size)
  if r.slt 0 then pure (some r) else svc.mapRefusal fileid (pagesBetween oldsize size) s

end FileService

/-! ## Accesses and mappings -/

namespace Client

variable {σ : Type} {svc : FileService σ} {c c' c1 : Client σ} {p q : UserPage} {s s1 : σ}
  {r fileid size : Word} {req : FsRequest} {ks : List ℕ}

/-- There is neither a page table for the page nor a page for the table. -/
def NoRoom (c : Client σ) (n : ℕ) : Prop := c.table (n / 1024) = false ∧ c.grants 0 = none

instance (c : Client σ) (n : ℕ) : Decidable (c.NoRoom n) := inferInstanceAs (Decidable (_ ∧ _))

/-- The pages that the kernel has after one has been mapped at page `n`. -/
def grantsAfter (c : Client σ) (n : ℕ) : ℕ → Option ℕ :=
  if c.table (n / 1024) then c.grants else fun k => c.grants (k + 1)

/-- Page `n` has been mapped, and nothing else. -/
structure Maps (c c' : Client σ) (n : ℕ) (p : UserPage) : Prop where
  map : c'.map = Function.update c.map n (some p)
  table : c'.table = Function.update c.table (n / 1024) true
  grants : c'.grants = c.grantsAfter n
  mem : c'.mem = c.mem
  server : c'.server = c.server

/-- `page_insert` maps the page, or fails for want of a page table. -/
lemma pageInsert_cases (c : Client σ) (n : ℕ) (p : UserPage) :
    ((c.pageInsert n p).1 = 0 ∧ ¬ c.NoRoom n ∧ Maps c (c.pageInsert n p).2 n p) ∨
      (c.pageInsert n p).1 = -eNoMem ∧ c.NoRoom n ∧ (c.pageInsert n p).2 = c.next := by
  unfold pageInsert
  by_cases ht : c.table (n / 1024) = true
  · rw [if_pos ht]
    exact .inl ⟨rfl, fun h => by simp [h.1] at ht, rfl, rfl, (if_pos ht).symm, rfl, rfl⟩
  · rw [if_neg ht]
    cases hg : c.grants 0 with
    | none => exact .inr ⟨rfl, ⟨by simpa using ht, hg⟩, rfl⟩
    | some q =>
      exact .inl ⟨rfl, fun h => by simp [h.2] at hg, rfl, rfl, (if_neg ht).symm, rfl, rfl⟩

lemma touch_mapped (h : c.map (vpn va) = some p) : c.touch va = .ok (p, c) := by
  rw [touch, h]
  rfl

lemma load_mapped (h : c.map (vpn va) = some p) :
    c.load va = .ok (c.mem p.page (va.toNat % 4096 / 4), c) := by
  rw [load, touch_mapped h]
  rfl

lemma loadByte_mapped (h : c.map (vpn va) = some p) :
    c.loadByte va = .ok (PageBytes.get c.mem (p.page, va.toNat % 4096), c) := by
  rw [loadByte, touch_mapped h]
  rfl

lemma checkWritable_ok_iff : checkWritable p = .ok () ↔ p.perm &&& pteD ≠ 0 := by
  unfold checkWritable
  split_ifs with h
  · exact ⟨fun h' => by simp at h', fun h' => absurd h h'⟩
  · exact ⟨fun _ => h, fun _ => rfl⟩

lemma store_mapped (h : c.map (vpn va) = some p) : c.store va w = .ok c' ↔
    p.perm &&& pteD ≠ 0 ∧ c' = c.setMem (TwoLevel.write c.mem p.page (va.toNat % 4096 / 4) w) := by
  rw [store, touch_mapped h, ok_bind, bind_eq_ok, ← checkWritable_ok_iff]
  constructor
  · rintro ⟨_, hw, he⟩
    exact ⟨hw, (Except.ok.inj he).symm⟩
  · rintro ⟨hw, rfl⟩
    exact ⟨(), hw, rfl⟩

lemma storeByte_mapped (h : c.map (vpn va) = some p) (hw : p.perm &&& pteD ≠ 0) (b : BitVec 8) :
    c.storeByte va b = .ok (c.setMem (PageBytes.set c.mem (p.page, va.toNat % 4096) b)) := by
  rw [storeByte, touch_mapped h, ok_bind]
  dsimp only
  rw [checkWritable_ok_iff.mpr hw]
  rfl

/-- `memcpy` between pages that are mapped. -/
lemma memcpy_mapped {m : Memcpy} {dst src : ℕ → UserPage}
    (hdst : ∀ j < m.count, c.map (vpn (m.dst + BitVec.ofNat 32 j)) = some (dst j) ∧
      (dst j).perm &&& pteD ≠ 0)
    (hsrc : ∀ j < m.count, c.map (vpn (m.src + BitVec.ofNat 32 j)) = some (src j)) :
    c.memcpy m = .ok (c.setMem (PageBytes.copy c.mem
      (fun j => ((dst j).page, (m.dst + BitVec.ofNat 32 j).toNat % 4096))
      (fun j => ((src j).page, (m.src + BitVec.ofNat 32 j).toNat % 4096)) m.count)) := by
  unfold memcpy
  revert hdst hsrc
  generalize m.count = n
  intro hdst hsrc
  induction n with
  | zero => rfl
  | succ n ih =>
    rw [List.range_succ, List.foldlM_append, ih (fun j hj => hdst j (hj.trans n.lt_succ_self))
      (fun j hj => hsrc j (hj.trans n.lt_succ_self)), ok_bind, List.foldlM_cons]
    obtain ⟨hd, hw⟩ := hdst n n.lt_succ_self
    have hload : ∀ M, (c.setMem M).loadByte (m.src + BitVec.ofNat 32 n) = _ := fun M =>
      loadByte_mapped (c := c.setMem M) (hsrc n n.lt_succ_self)
    have hstore : ∀ M b, (c.setMem M).storeByte (m.dst + BitVec.ofNat 32 n) b = _ := fun M =>
      storeByte_mapped (c := c.setMem M) hd hw
    rw [hload, ok_bind]
    dsimp only
    rw [hstore]
    rfl

/-- A field of a descriptor that is in use. -/
lemma load_field (hi : i < 32) (h : c.map (fdVpn i) = some p) (hw : w.toNat < 4096) :
    c.load (index2fd (BitVec.ofNat 32 i) + w) = .ok (c.mem p.page (w.toNat / 4), c) := by
  rw [load_mapped ((vpn_field hi hw).symm ▸ h), word_field hi hw]

lemma vpt_mapped (h : c.map n = some p) : c.vpt n = .ok (some p, c) := by
  rw [vpt, if_pos (c.tables n (by simp [h])), h]
  rfl

lemma fdnum_slt (hi : i < 32) : (BitVec.ofNat 32 i).slt 32 = true := by
  have h : ∀ i < 32, (BitVec.ofNat 32 i).slt 32 = true := by decide
  exact h i hi

lemma fdLookup_mapped (hi : i < 32) (h : c.map (fdVpn i) = some p) :
    c.fdLookup (BitVec.ofNat 32 i) = .ok (some (index2fd (BitVec.ofNat 32 i)), c) := by
  rw [fdLookup, if_pos (fdnum_slt hi), vpn_index2fd hi, vpt_mapped h]
  rfl

/-! ## Requests -/

/-- The page of a reply has been mapped at page `n`. -/
structure Receives (c c' : Client σ) (n : ℕ) (g : FsPage) (s : σ) : Prop where
  room : ¬ c.NoRoom n
  map : c'.map = Function.update c.map n (some (replyPage g))
  table : c'.table = Function.update c.table (n / 1024) true
  grants : c'.grants = c.grantsAfter n
  mem : c'.mem = Function.update c.mem g.page g.words
  server : c'.server = some s

/-- The page of a reply could not be mapped. -/
structure Loses (c c' : Client σ) (n : ℕ) (g : FsPage) : Prop where
  room : c.NoRoom n
  map : c'.map = c.map
  mem : c'.mem = Function.update c.mem g.page g.words
  server : c'.server = none

/-- **A request whose reply has a page**: the server refuses it, or the page is mapped, or the
kernel has no page table for it. -/
lemma fsipcPage_cases (h : c.fsipcPage svc req va = .ok (r, c')) (hs : c.server = some s) :
    (∃ e s1, svc.page s req = .ok (.error e, s1) ∧ r = e.code ∧ c' = c.setServer (some s1)) ∨
      ∃ g s1, svc.page s req = .ok (.ok g, s1) ∧ r = 0 ∧
        (Receives c c' (vpn va) g s1 ∨ Loses c c' (vpn va) g) := by
  unfold fsipcPage at h
  simp only [hs] at h
  split_ifs at h with hva
  obtain ⟨⟨a, s1⟩, hp, h⟩ := bind_eq_ok.mp h
  cases a with
  | error e =>
    replace h := pure_pair_inj h
    exact .inl ⟨e, s1, hp, h.1.symm, h.2.symm⟩
  | ok g =>
    simp only [pure_eq_ok, Except.ok.injEq, Prod.mk.injEq] at h
    obtain ⟨rfl, hc⟩ := h
    refine .inr ⟨g, s1, hp, rfl, ?_⟩
    rcases pageInsert_cases (c.received g s1) (vpn va) (replyPage g) with
      ⟨h0, hroom, hm⟩ | ⟨h0, hno, hn⟩
    · rw [if_pos h0] at hc
      exact .inl ⟨hroom, hc ▸ hm.map, hc ▸ hm.table, hc ▸ hm.grants, hc ▸ hm.mem, hc ▸ hm.server⟩
    · rw [if_neg (by rw [h0]; decide), hn] at hc
      exact .inr ⟨hno, hc ▸ rfl, hc ▸ rfl, hc ▸ rfl⟩

/-- A round that does not fail. -/
lemma eachPage_cons_ok {f : Client σ → ℕ → Kernel (Word × Client σ)} {k : ℕ}
    (h : f c k = .ok (r, c1)) (hr : r.slt 0 = false) :
    eachPage f (k :: ks) c = eachPage f ks c1 := by
  rw [eachPage, h, ok_bind]
  dsimp only
  rw [hr, if_neg (by decide)]

/-- A round that fails. -/
lemma eachPage_cons_error {f : Client σ → ℕ → Kernel (Word × Client σ)} {k : ℕ}
    (h : f c k = .ok (r, c1)) (hr : r.slt 0 = true) : eachPage f (k :: ks) c = .ok (r, c1) := by
  rw [eachPage, h, ok_bind]
  dsimp only
  rw [hr, if_pos rfl]
  rfl

/-- What every round preserves, the loop preserves. -/
lemma eachPage_invariant {f : Client σ → ℕ → Kernel (Word × Client σ)} {I : Client σ → Prop}
    (hstep : ∀ k ∈ ks, ∀ c r c', I c → f c k = .ok (r, c') → I c') (hc : I c)
    (h : eachPage f ks c = .ok (r, c')) : I c' := by
  induction ks generalizing c with
  | nil =>
    cases h
    exact hc
  | cons k ks ih =>
    obtain ⟨⟨r1, c1⟩, h1, h⟩ := bind_eq_ok.mp h
    have hc1 := hstep k List.mem_cons_self c r1 c1 hc h1
    dsimp only at h
    split_ifs at h
    · cases h
      exact hc1
    · exact ih (fun j hj => hstep j (List.mem_cons_of_mem k hj)) hc1 h

/-- A page of a file that the server sends is mapped. -/
lemma fsipcPage_ok {g : FsPage} (hs : c.server = some s) (hp : svc.page s req = .ok (.ok g, s1))
    (hva : isIllegalVa va = false) (hroom : ¬ c.NoRoom (vpn va)) :
    ∃ c', c.fsipcPage svc req va = .ok (0, c') ∧ Receives c c' (vpn va) g s1 := by
  rcases pageInsert_cases (c.received g s1) (vpn va) (replyPage g) with ⟨h0, -, hm⟩ | ⟨-, hno, -⟩
  · refine ⟨_, ?_, hroom, hm.map, hm.table, hm.grants, hm.mem, hm.server⟩
    unfold fsipcPage
    simp only [hs]
    rw [if_neg (by simp [hva]), hp, ok_bind]
    simp only [h0, if_true, pure_eq_ok]
  · exact absurd hno hroom

/-- A page that the server does not send is not changed. -/
lemma fsipcPage_mem {q : ℕ}
    (hq : ∀ s g s1, svc.page s req = .ok (.ok g, s1) → g.page ≠ q)
    (h : c.fsipcPage svc req va = .ok (r, c')) : c'.mem q = c.mem q := by
  cases hs : c.server with
  | none => simp [fsipcPage, hs] at h
  | some s =>
    rcases fsipcPage_cases h hs with ⟨e, s1, -, -, rfl⟩ | ⟨g, s1, hp, -, hrec | hlost⟩
    · rfl
    · rw [hrec.mem, Function.update_of_ne (hq s g s1 hp).symm]
    · rw [hlost.mem, Function.update_of_ne (hq s g s1 hp).symm]

/-- The loop that maps pages stops where the server refuses one. -/
theorem eachPage_map (h : eachPage (fsipcMap svc fileid va) ks c = .ok (r, c'))
    (hs : c.server = some s) :
    svc.mapRefusal fileid ks s = .ok (if r.slt 0 then some r else none) ∧
      (r.slt 0 = true ∨ r = 0) := by
  induction ks generalizing c s with
  | nil =>
    simp only [eachPage, pure_eq_ok, Except.ok.injEq, Prod.mk.injEq] at h
    rw [← h.1]
    exact ⟨rfl, .inr rfl⟩
  | cons k ks ih =>
    obtain ⟨⟨r1, c1⟩, h1, h⟩ := bind_eq_ok.mp h
    rcases fsipcPage_cases h1 hs with ⟨e, s1, hp, rfl, rfl⟩ | ⟨g, s1, hp, rfl, hrec | hlost⟩
    · simp only [e.neg, if_true, pure_eq_ok, Except.ok.injEq, Prod.mk.injEq] at h
      rw [FileService.mapRefusal, hp, ok_bind, ← h.1, e.neg]
      exact ⟨rfl, .inl rfl⟩
    · rw [FileService.mapRefusal, hp, ok_bind]
      exact ih h hrec.server
    · rw [FileService.mapRefusal, hp, ok_bind]
      -- the server is gone, so this was the last page
      cases ks with
      | nil =>
        simp only [eachPage, pure_eq_ok] at h
        cases h
        exact ⟨rfl, .inr rfl⟩
      | cons k' ks =>
        simp [eachPage, fsipcMap, fsipcPage, hlost.server] at h

/-- A request whose reply is a value. -/
lemma fsipcValue_ok_iff : c.fsipcValue svc req = .ok (r, c') ↔
    ∃ s s1, c.server = some s ∧ svc.value s req = .ok (r, s1) ∧ c' = c.setServer (some s1) := by
  unfold fsipcValue
  cases hs : c.server with
  | none => simp
  | some s =>
    simp only [bind_eq_ok, pure_eq_ok, Except.ok.injEq, Prod.mk.injEq, Prod.exists, Option.some.injEq]
    constructor
    · rintro ⟨r1, s1, hv, rfl, rfl⟩
      exact ⟨s, s1, rfl, hv, rfl⟩
    · rintro ⟨_, s1, rfl, hv, rfl⟩
      exact ⟨r, s1, hv, rfl, rfl⟩

/-- `ftruncate` returns the first error of the server. -/
theorem ftruncatePages_refusal {fd oldsize : Word}
    (h : c.ftruncatePages svc fd fileid oldsize size = .ok (r, c')) :
    ∃ s, c.server = some s ∧
      svc.sizeRefusal fileid oldsize size s = .ok (if r.slt 0 then some r else none) ∧
      (r.slt 0 = true ∨ r = 0) := by
  obtain ⟨⟨r1, c1⟩, h1, h⟩ := bind_eq_ok.mp h
  obtain ⟨s, s1, hs, hv, rfl⟩ := fsipcValue_ok_iff.mp h1
  refine ⟨s, hs, ?_⟩
  rw [FileService.sizeRefusal, hv, ok_bind]
  dsimp only at h ⊢
  split_ifs at h with hr1
  · cases h
    rw [hr1]
    exact ⟨rfl, .inl rfl⟩
  obtain ⟨⟨r2, c2⟩, h2, h⟩ := bind_eq_ok.mp h
  obtain ⟨hmap, hr2⟩ := eachPage_map h2 rfl
  rw [if_neg hr1, hmap]
  dsimp only at h
  split_ifs at h with hneg
  · obtain ⟨⟨r3, c3⟩, -, h⟩ := bind_eq_ok.mp h
    cases h
    rw [hneg]
    exact ⟨rfl, .inl rfl⟩
  · obtain ⟨⟨r3, c3⟩, -, h⟩ := bind_eq_ok.mp h
    dsimp only at h
    split_ifs at h
    cases h
    rw [if_neg hneg]
    exact ⟨rfl, .inr rfl⟩

/-- To unmap a page does not change what the pages hold. -/
lemma unmapPage_mem {k : ℕ} (h : c.unmapPage va k = .ok (r, c')) : c'.mem = c.mem := by
  unfold unmapPage memUnmap at h
  split_ifs at h <;> cases h <;> rfl

/-- `ftruncate` does not change a page that the server does not send. -/
lemma ftruncatePages_mem {fd oldsize : Word} {q : ℕ}
    (hq : ∀ s k g s1, svc.page s (.map fileid (BitVec.ofNat 32 (4096 * k))) = .ok (.ok g, s1) →
      g.page ≠ q)
    (h : c.ftruncatePages svc fd fileid oldsize size = .ok (r, c')) : c'.mem q = c.mem q := by
  have hvalue : ∀ {c c' : Client σ} {r : Word} {w : Word},
      c.fsipcSetSize svc fileid w = .ok (r, c') → c'.mem q = c.mem q := fun h => by
    obtain ⟨s, s1, -, -, rfl⟩ := fsipcValue_ok_iff.mp h
    rfl
  obtain ⟨⟨r1, c1⟩, h1, h⟩ := bind_eq_ok.mp h
  have hc1 := hvalue h1
  dsimp only at h
  split_ifs at h
  · cases h
    exact hc1
  obtain ⟨⟨r2, c2⟩, h2, h⟩ := bind_eq_ok.mp h
  have hc2 : c2.mem q = c.mem q := eachPage_invariant (I := fun x => x.mem q = c.mem q)
    (fun k _ x r x' hx hk => (fsipcPage_mem (fun s g s1 => hq s k g s1) hk).trans hx) hc1 h2
  dsimp only at h
  split_ifs at h
  · obtain ⟨⟨r3, c3⟩, h3, h⟩ := bind_eq_ok.mp h
    cases h
    exact (hvalue h3).trans hc2
  · obtain ⟨⟨r3, c3⟩, h3, h⟩ := bind_eq_ok.mp h
    have hc3 : c3.mem q = c.mem q := eachPage_invariant (I := fun x => x.mem q = c.mem q)
      (fun k _ x r x' hx hk => (congrFun (unmapPage_mem hk) q).trans hx) hc2 h3
    dsimp only at h
    split_ifs at h
    cases h
    exact hc3

/-! ## Open files -/

/-- The descriptor `i` is an open file, and `p` is the page of its `struct Filefd`. -/
structure OpenFile (c : Client σ) (i : ℕ) (p : UserPage) : Prop where
  lt : i < maxfd
  page : c.map (fdVpn i) = some p
  dev : c.mem p.page 0 = devfileId

/-- `f_fileid`. -/
def fileId (c : Client σ) (p : UserPage) : Word := c.mem p.page 3

/-- `f_file.f_size`. -/
def fileSize (c : Client σ) (p : UserPage) : Word := c.mem p.page 36

/-- `f_file.f_size` is stored. -/
def setSize (c : Client σ) (p : UserPage) (size : Word) : Client σ :=
  c.setMem (TwoLevel.write c.mem p.page 36 size)

namespace OpenFile

variable (ho : OpenFile c i p)
include ho

lemma load_devId : c.load (fdDevId (index2fd (BitVec.ofNat 32 i))) = .ok (devfileId, c) := by
  have h := load_field (w := 0#32) ho.lt ho.page (by decide)
  rw [BitVec.add_zero] at h
  rw [fdDevId, h]
  exact congrArg (fun w => Except.ok (w, c)) ho.dev

lemma load_fileid : c.load (fdFileid (index2fd (BitVec.ofNat 32 i))) = .ok (c.fileId p, c) :=
  load_field ho.lt ho.page (by decide)

lemma load_size : c.load (fdSize (index2fd (BitVec.ofNat 32 i))) = .ok (c.fileSize p, c) :=
  load_field ho.lt ho.page (by decide)

lemma store_size (size : Word) : c.store (fdSize (index2fd (BitVec.ofNat 32 i))) size = .ok c' ↔
    p.perm &&& pteD ≠ 0 ∧ c' = c.setSize p size := by
  have hv : vpn (fdSize (index2fd (BitVec.ofNat 32 i))) = fdVpn i := vpn_field ho.lt (by decide)
  have hw : (fdSize (index2fd (BitVec.ofNat 32 i))).toNat % 4096 / 4 = 36 :=
    word_field ho.lt (by decide)
  rw [store_mapped (hv.symm ▸ ho.page), hw]
  rfl

/-- **`ftruncate` of an open file**: a size that is too large is refused; otherwise the size is
stored, and the server is asked. -/
theorem ftruncate_iff : c.ftruncate svc (BitVec.ofNat 32 i) size = .ok (r, c') ↔
    (size > maxfilesize ∧ r = -eNoDisk ∧ c' = c) ∨
      ¬ size > maxfilesize ∧ p.perm &&& pteD ≠ 0 ∧
        (c.setSize p size).ftruncatePages svc (index2fd (BitVec.ofNat 32 i)) (c.fileId p)
          (c.fileSize p) size = .ok (r, c') := by
  unfold ftruncate
  by_cases hmax : size > maxfilesize
  · rw [if_pos hmax]
    simp [hmax, eq_comm]
  · rw [if_neg hmax, fdLookup_mapped ho.lt ho.page, ok_bind]
    simp only [ho.load_devId, ok_bind, ne_eq, not_true_eq_false, if_false, ho.load_fileid, ho.load_size,
      bind_eq_ok, ho.store_size, hmax, false_and, false_or, not_false_eq_true, true_and]
    constructor
    · rintro ⟨c1, ⟨hw, rfl⟩, h⟩
      exact ⟨hw, h⟩
    · rintro ⟨hw, h⟩
      exact ⟨_, ⟨hw, rfl⟩, h⟩

end OpenFile

end Client

end MosVolca
