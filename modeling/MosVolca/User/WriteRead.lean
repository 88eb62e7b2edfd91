import MosVolca.User.FileWindow

/-!
# What is written is read

`file_write` to an open file whose data are mapped: `ftruncate` maps the pages that the file does not
have yet, and the bytes of the buffer are copied to the window. What `file_read` copies afterwards is
what was written, up to the reads whose sum `offset + n` wraps.

## Main definitions

* `MosVolca.Serves` — a server that grants every request for a file.
* `MosVolca.Client.Apart` — a buffer apart from what a write changes.
* `MosVolca.Client.Written`, `MosVolca.Client.ReadsBack` — what a write should do, and what a read
  should find.

## Main results

* `MosVolca.Client.eachPage_maps` — the loop that maps pages, if every request is granted.
* `MosVolca.Client.OpenFile.write_read` — a write, and the reads after it.
* `MosVolca.write_read_wraps` — a read that wraps.
-/

namespace MosVolca

variable {σ : Type} {svc : FileService σ} {up : σ → Prop} {fileid : Word} {P : ℕ → ℕ}

/-- In the states `up`, the server grants every request for the file, and `P` are the pages of its
blocks. -/
structure Serves (svc : FileService σ) (up : σ → Prop) (fileid : Word) (P : ℕ → ℕ) : Prop where
  inj : Function.Injective P
  map : ∀ s, up s → ∀ k < 1024, ∃ w s1,
    svc.page s (.map fileid (BitVec.ofNat 32 (4096 * k))) = .ok (.ok ⟨P k, w⟩, s1) ∧ up s1
  size : ∀ s, up s → ∀ size, ∃ r s1,
    svc.value s (.setSize fileid size) = .ok (r, s1) ∧ r.slt 0 = false ∧ up s1

namespace Client

variable {c c' c1 : Client σ} {i : ℕ} {p : UserPage} {s : σ} {n offset buf size : Word}
  {ks : List ℕ}

/-! ## Pages that are mapped -/

/-- The pages `ks` of a file have been mapped, and nothing else. -/
structure MapsAll (c c' : Client σ) (i : ℕ) (P : ℕ → ℕ) (ks : List ℕ) : Prop where
  inside : ∀ k ∈ ks, c'.map (dataVpn i k) = some ⟨P k, pteD ||| pteLibrary ||| pteV⟩
  outside : ∀ v, (∀ k ∈ ks, v ≠ dataVpn i k) → c'.map v = c.map v
  mem : ∀ q, (∀ k ∈ ks, q ≠ P k) → c'.mem q = c.mem q

lemma dataVpn_table {k : ℕ} (hk : k < 1024) : dataVpn i k / 1024 = dataVpn i 0 / 1024 := by
  unfold dataVpn
  omega

/-- **The loop that maps pages**, if every request is granted. -/
theorem eachPage_maps (hserves : Serves svc up fileid P) (hi : i < maxfd)
    (hks : ∀ k ∈ ks, k < 1024) (hs : c.server = some s) (hup : up s)
    (hroom : ¬ c.NoRoom (dataVpn i 0)) :
    ∃ c' s', eachPage (fsipcMap svc fileid (index2data (BitVec.ofNat 32 i))) ks c = .ok (0, c') ∧
      c'.server = some s' ∧ up s' ∧ MapsAll c c' i P ks := by
  induction ks generalizing c s with
  | nil => exact ⟨c, s, rfl, hs, hup, by simp, fun _ _ => rfl, fun _ _ => rfl⟩
  | cons k ks ih =>
    have hk : k < 1024 := hks k List.mem_cons_self
    have hv : vpn (windowAddr (index2data (BitVec.ofNat 32 i)) k) = dataVpn i k :=
      vpn_windowAddr_data hi (by omega)
    have hlegal : isIllegalVa (windowAddr (index2data (BitVec.ofNat 32 i)) k) = false := by
      have h := windowAddr_data_toNat hi (show k < 0x80000 by omega)
      unfold maxfd at hi
      unfold dataVpn at h
      exact isIllegalVa_eq_false (by omega) (by omega)
    obtain ⟨w, s1, hp, hup1⟩ := hserves.map s hup k hk
    have hroom' : ¬ c.NoRoom (vpn (windowAddr (index2data (BitVec.ofNat 32 i)) k)) := by
      rw [hv, NoRoom, dataVpn_table hk]
      exact hroom
    obtain ⟨c1, h1, hrec⟩ := fsipcPage_ok hs hp hlegal hroom'
    rw [hv] at hrec
    have hroom1 : ¬ c1.NoRoom (dataVpn i 0) := by
      rw [NoRoom, hrec.table, ← dataVpn_table hk, Function.update_self]
      simp
    obtain ⟨c', s', hrest, hs', hup', hmaps⟩ :=
      ih (fun j hj => hks j (List.mem_cons_of_mem k hj)) hrec.server hup1 hroom1
    refine ⟨c', s', ?_, hs', hup', ?_, ?_, ?_⟩
    · rw [eachPage, fsipcMap, h1, ok_bind]
      exact hrest
    · intro j hj
      by_cases hjks : j ∈ ks
      · exact hmaps.inside j hjks
      · obtain rfl : j = k := (List.mem_cons.mp hj).resolve_right hjks
        rw [hmaps.outside _ fun l hl he => hjks (by
          rwa [show j = l by unfold dataVpn at he; omega]), hrec.map, Function.update_self]
        rfl
    · intro v hv'
      rw [hmaps.outside v fun j hj => hv' j (List.mem_cons_of_mem k hj), hrec.map,
        Function.update_of_ne (hv' k List.mem_cons_self)]
    · intro q hq
      rw [hmaps.mem q fun j hj => hq j (List.mem_cons_of_mem k hj), hrec.mem,
        Function.update_of_ne (hq k List.mem_cons_self)]

/-! ## `ftruncate` of a file that grows -/

/-- The data of a descriptor are mapped up to a size, in the pages `P` and writable. -/
def DataMapped (c : Client σ) (i : ℕ) (P : ℕ → ℕ) (size : Word) : Prop :=
  ∀ k, 4096 * k < size.toNat → dataVpn i k < 0x80000 ∧
    ∃ perm, perm &&& pteD ≠ 0 ∧ c.map (dataVpn i k) = some ⟨P k, perm⟩

/-- An open file that grows: its new pages are mapped, and its size is the new one. -/
lemma OpenFile.ftruncate_grows (ho : c.OpenFile i p) (hw : p.perm &&& pteD ≠ 0)
    (hserves : Serves svc up (c.fileId p) P) (hs : c.server = some s) (hup : up s)
    (hroom : ¬ c.NoRoom (dataVpn i 0)) (hgrow : c.fileSize p < size) (hmax : size ≤ maxfilesize) :
    ∃ c', c.ftruncate svc (BitVec.ofNat 32 i) size = .ok (0, c') ∧
      MapsAll (c.setSize p size) c' i P (pagesBetween (c.fileSize p) size) := by
  rw [BitVec.lt_def] at hgrow
  rw [BitVec.le_def, maxfilesize_toNat] at hmax
  have hmem : ∀ k, k ∈ pagesBetween (c.fileSize p) size ↔
      (c.fileSize p).toNat ≤ 4096 * k ∧ 4096 * k < size.toNat := fun k =>
    mem_pagesBetween (by omega) (by omega)
  obtain ⟨r, s1, hv, hr, hup1⟩ := hserves.size s hup size
  have hset : (c.setSize p size).fsipcSetSize svc (c.fileId p) size =
      .ok (r, (c.setSize p size).setServer (some s1)) :=
    fsipcValue_ok_iff.mpr ⟨s, s1, hs, hv, rfl⟩
  have hks : ∀ k ∈ pagesBetween (c.fileSize p) size, k < 1024 := fun k hk => by
    have := (hmem k).mp hk
    omega
  have hroom' : ¬ ((c.setSize p size).setServer (some s1)).NoRoom (dataVpn i 0) := hroom
  obtain ⟨c', s', hloop, -, -, hmaps⟩ := eachPage_maps hserves ho.lt hks rfl hup1 hroom'
  have hnone : pagesBetween size (c.fileSize p) = [] := by
    refine List.eq_nil_iff_forall_not_mem.mpr fun k hk => ?_
    have := (mem_pagesBetween (by omega) (by omega)).mp hk
    omega
  refine ⟨c', ho.ftruncate_iff.mpr (.inr ⟨?_, hw, ?_⟩), hmaps.inside, hmaps.outside, hmaps.mem⟩
  · rw [gt_iff_lt, BitVec.lt_def, maxfilesize_toNat]
    omega
  · rw [ftruncatePages, hset, ok_bind, fd2data_index2fd ho.lt]
    dsimp only
    rw [hr, if_neg (by decide), hloop, ok_bind, hnone]
    rfl

/-! ## Bytes -/

/-- The byte that a program finds at an address. -/
def byteAt (c : Client σ) (va : Word) : BitVec 8 :=
  match c.map (vpn va) with
  | some q => PageBytes.get c.mem (q.page, va.toNat % 4096)
  | none => 0

/-- Where byte `x` of a file is. -/
def filePlace (P : ℕ → ℕ) (x : ℕ) : PageBytes.Place := (P (x / 4096), x % 4096)

lemma byteAt_of_map {va : Word} {q : UserPage} (h : c.map (vpn va) = some q) :
    c.byteAt va = PageBytes.get c.mem (q.page, va.toNat % 4096) := by
  rw [byteAt, h]

lemma filePlace_inj (hinj : Function.Injective P) {x y : ℕ} (h : filePlace P x = filePlace P y) :
    x = y := by
  obtain ⟨hq, hb⟩ := Prod.mk.inj h
  have := hinj hq
  omega

/-- The address of byte `x` of the data. -/
lemma dataAddr_toNat (hi : i < maxfd) {x : ℕ} (hx : dataVpn i (x / 4096) < 0x80000) :
    (index2data (BitVec.ofNat 32 i) + BitVec.ofNat 32 x).toNat =
      4096 * dataVpn i (x / 4096) + x % 4096 := by
  have h := index2data_toNat hi
  unfold dataVpn at h hx ⊢
  rw [BitVec.toNat_add, BitVec.toNat_ofNat, h]
  omega

/-- The page where byte `x` of the data is mapped. -/
lemma DataMapped.map_addr (hcov : c.DataMapped i P size) (hi : i < maxfd) {x : ℕ}
    (hx : x < size.toNat) : ∃ perm, perm &&& pteD ≠ 0 ∧
      c.map (vpn (index2data (BitVec.ofNat 32 i) + BitVec.ofNat 32 x)) =
        some ⟨P (x / 4096), perm⟩ ∧
      (index2data (BitVec.ofNat 32 i) + BitVec.ofNat 32 x).toNat % 4096 = x % 4096 := by
  obtain ⟨hlt, perm, hperm, hmap⟩ := hcov (x / 4096) (by omega)
  have haddr := dataAddr_toNat hi hlt
  refine ⟨perm, hperm, ?_, by omega⟩
  rw [vpn_of_toNat haddr (Nat.mod_lt _ (by decide)), hmap]

lemma DataMapped.byteAt (hcov : c.DataMapped i P size) (hi : i < maxfd) {x : ℕ}
    (hx : x < size.toNat) :
    c.byteAt (index2data (BitVec.ofNat 32 i) + BitVec.ofNat 32 x) =
      PageBytes.get c.mem (filePlace P x) := by
  obtain ⟨perm, -, hmap, hmod⟩ := hcov.map_addr hi hx
  rw [byteAt_of_map hmap, hmod]
  rfl

/-! ## A write -/

/-- A buffer apart from what a write changes: it is mapped, it is not in the page of the descriptor
or in a page that the write maps, and none of its bytes is one that is written. -/
def Apart (c : Client σ) (i : ℕ) (p : UserPage) (P : ℕ → ℕ) (buf n offset : Word) : Prop :=
  ∀ j < n.toNat, ∃ q, c.map (vpn (buf + BitVec.ofNat 32 j)) = some q ∧ q.page ≠ p.page ∧
    (∀ k, (c.fileSize p).toNat ≤ 4096 * k → 4096 * k < offset.toNat + n.toNat →
      vpn (buf + BitVec.ofNat 32 j) ≠ dataVpn i k ∧ q.page ≠ P k) ∧
    ∀ x, offset.toNat ≤ x → x < offset.toNat + n.toNat →
      (q.page, (buf + BitVec.ofNat 32 j).toNat % 4096) ≠ filePlace P x

/-- What a write to an open file should do, apart from the bytes of the file. -/
structure Written (c c' : Client σ) (i : ℕ) (p : UserPage) (P : ℕ → ℕ) (n offset : Word) : Prop where
  opened : c'.OpenFile i p
  size : (c'.fileSize p).toNat = max (c.fileSize p).toNat (offset.toNat + n.toNat)
  mapped : c'.DataMapped i P (c'.fileSize p)
  /-- No window of another descriptor is touched, -/
  maps : ∀ v, (∀ k < 1024, v ≠ dataVpn i k) → c'.map v = c.map v
  /-- and no other page. -/
  pages : ∀ q, q ≠ p.page → (∀ k, q ≠ P k) → c'.mem q = c.mem q

/-- What `file_write` has done when it comes to its `memcpy`: the file has its new size. -/
structure Grown (c c' : Client σ) (i : ℕ) (p : UserPage) (P : ℕ → ℕ) (n offset : Word) : Prop where
  written : Written c c' i p P n offset
  map : ∀ v, (∀ k, (c.fileSize p).toNat ≤ 4096 * k → 4096 * k < offset.toNat + n.toNat →
    v ≠ dataVpn i k) → c'.map v = c.map v
  mem : ∀ q, q ≠ p.page → (∀ k, (c.fileSize p).toNat ≤ 4096 * k →
    4096 * k < offset.toNat + n.toNat → q ≠ P k) → c'.mem q = c.mem q

namespace OpenFile

variable (ho : c.OpenFile i p) (hw : p.perm &&& pteD ≠ 0)
  (hserves : Serves svc up (c.fileId p) P) (hs : c.server = some s) (hup : up s)
  (hroom : ¬ c.NoRoom (dataVpn i 0)) (hcov : c.DataMapped i P (c.fileSize p))
  (hfd : ∀ k, P k ≠ p.page) (hsum : offset.toNat + n.toNat ≤ maxfilesize.toNat)
include ho hw hserves hs hup hroom hcov hfd hsum

omit hw hserves hs hup hroom in
/-- The pages that `ftruncate` maps make the data of the new size. -/
lemma grown_of_mapsAll {tot : Word} {c1 : Client σ} (htot : tot.toNat = offset.toNat + n.toNat)
    (hgt : (c.fileSize p).toNat < tot.toNat)
    (hmaps : MapsAll (c.setSize p tot) c1 i P (pagesBetween (c.fileSize p) tot)) :
    Grown c c1 i p P n offset := by
  rw [maxfilesize_toNat] at hsum
  have hi := ho.lt
  unfold maxfd at hi
  have hmem : ∀ k, k ∈ pagesBetween (c.fileSize p) tot ↔
      (c.fileSize p).toNat ≤ 4096 * k ∧ 4096 * k < tot.toNat := fun k =>
    mem_pagesBetween (by omega) (by omega)
  have hfdpage : c1.mem p.page = (c.setSize p tot).mem p.page :=
    hmaps.mem _ fun k _ => (hfd k).symm
  have hmap : ∀ v, (∀ k, (c.fileSize p).toNat ≤ 4096 * k → 4096 * k < offset.toNat + n.toNat →
      v ≠ dataVpn i k) → c1.map v = c.map v := fun v hv =>
    hmaps.outside v fun k hk => hv k ((hmem k).mp hk).1 (by have := (hmem k).mp hk; omega)
  have hpages : ∀ q, q ≠ p.page → (∀ k, (c.fileSize p).toNat ≤ 4096 * k →
      4096 * k < offset.toNat + n.toNat → q ≠ P k) → c1.mem q = c.mem q := fun q hq hk =>
    (hmaps.mem q fun k hk' => hk k ((hmem k).mp hk').1 (by have := (hmem k).mp hk'; omega)).trans
      (funext fun w => TwoLevel.write_of_ne_page hq)
  have hsize : c1.fileSize p = tot := by
    rw [fileSize, hfdpage]
    exact TwoLevel.write_same ..
  refine ⟨⟨⟨ho.lt, ?_, ?_⟩, ?_, ?_, ?_, ?_⟩, hmap, hpages⟩
  · rw [hmap _ fun k _ hk => by unfold fdVpn dataVpn; omega, ho.page]
  · rw [hfdpage, ← ho.dev]
    exact TwoLevel.write_of_ne_slot (by decide)
  · rw [hsize, htot]
    omega
  · rw [hsize]
    intro k hk
    by_cases hold : 4096 * k < (c.fileSize p).toNat
    · obtain ⟨hlt, perm, hperm, hm⟩ := hcov k hold
      refine ⟨hlt, perm, hperm, ?_⟩
      rw [hmap _ fun j hj _ => by unfold dataVpn; omega, hm]
    · refine ⟨by unfold dataVpn; omega, _, by decide, hmaps.inside k ((hmem k).mpr ⟨by omega, hk⟩)⟩
  · exact fun v hv => hmap v fun k _ hk => hv k (by omega)
  · exact fun q hq hk => hpages q hq fun k _ _ => hk k

/-- **`file_write` up to its `memcpy`.** -/
theorem fileWrite_grown (buf : Word) : ∃ c1,
    c.fileWrite svc (index2fd (BitVec.ofNat 32 i)) buf n offset =
      .ok (n, some ⟨index2data (BitVec.ofNat 32 i) + offset, buf, n⟩, c1) ∧
      Grown c c1 i p P n offset := by
  have hsum' := hsum
  rw [maxfilesize_toNat] at hsum'
  have htot : (offset + n).toNat = offset.toNat + n.toNat := by
    rw [BitVec.toNat_add, Nat.mod_eq_of_lt (by omega)]
  have hmax : ¬ offset + n > maxfilesize := by
    rw [gt_iff_lt, BitVec.lt_def, maxfilesize_toNat, htot]
    omega
  unfold fileWrite
  rw [if_neg hmax, ho.load_size, ok_bind, fd2num_index2fd ho.lt, fd2data_index2fd ho.lt]
  dsimp only
  by_cases hgt : offset + n > c.fileSize p
  · have hlt := BitVec.lt_def.mp hgt
    obtain ⟨c1, h1, hmaps⟩ := ho.ftruncate_grows hw hserves hs hup hroom hgt
      (by rw [BitVec.le_def, maxfilesize_toNat]; omega)
    rw [if_pos hgt, h1, ok_bind]
    dsimp only
    rw [if_neg (by decide)]
    exact ⟨c1, rfl, ho.grown_of_mapsAll hcov hfd hsum htot (by omega) hmaps⟩
  · rw [if_neg hgt, pure_eq_ok, ok_bind]
    dsimp only
    rw [if_neg (by decide)]
    rw [gt_iff_lt, BitVec.lt_def, htot] at hgt
    exact ⟨c, rfl, ⟨ho, by omega, hcov, fun _ _ => rfl, fun _ _ _ => rfl⟩, fun _ _ => rfl,
      fun _ _ _ => rfl⟩

end OpenFile

/-- The bytes of a buffer are the same when the file has grown. -/
lemma Grown.buffer (hg : Grown c c1 i p P n offset) (hbuf : c.Apart i p P buf n offset) {j : ℕ}
    (hj : j < n.toNat) : ∃ q, c1.map (vpn (buf + BitVec.ofNat 32 j)) = some q ∧
      PageBytes.get c1.mem (q.page, (buf + BitVec.ofNat 32 j).toNat % 4096) =
        c.byteAt (buf + BitVec.ofNat 32 j) ∧
      ∀ x, offset.toNat ≤ x → x < offset.toNat + n.toNat →
        (q.page, (buf + BitVec.ofNat 32 j).toNat % 4096) ≠ filePlace P x := by
  obtain ⟨q, hq, hne, hnew, hx⟩ := hbuf j hj
  refine ⟨q, ?_, ?_, hx⟩
  · rw [hg.map _ fun k h1 h2 => (hnew k h1 h2).1, hq]
  · rw [byteAt_of_map hq, PageBytes.get, PageBytes.get, hg.mem _ hne fun k h1 h2 => (hnew k h1 h2).2]

/-- **The `memcpy` of a write.** -/
theorem Grown.copies (hg : Grown c c1 i p P n offset) (hinj : Function.Injective P)
    (hfd : ∀ k, P k ≠ p.page) (hsum : offset.toNat + n.toNat ≤ maxfilesize.toNat)
    (hbuf : c.Apart i p P buf n offset) :
    ∃ c', c1.memcpy ⟨index2data (BitVec.ofNat 32 i) + offset, buf, n⟩ = .ok c' ∧
      Written c c' i p P n offset ∧
      (∀ x, offset.toNat ≤ x → x < offset.toNat + n.toNat →
        PageBytes.get c'.mem (filePlace P x) =
          c.byteAt (buf + BitVec.ofNat 32 (x - offset.toNat))) ∧
      ∀ x, x < offset.toNat ∨ offset.toNat + n.toNat ≤ x → x < (c.fileSize p).toNat →
        PageBytes.get c'.mem (filePlace P x) = PageBytes.get c.mem (filePlace P x) := by
  rw [maxfilesize_toNat] at hsum
  have hi := hg.written.opened.lt
  have hsize := hg.written.size
  set m : Memcpy := ⟨index2data (BitVec.ofNat 32 i) + offset, buf, n⟩ with hm
  have hcount : m.count = n.toNat := by
    have h := index2data_toNat hi
    unfold maxfd at hi
    unfold dataVpn at h
    have hdst : m.dst.toNat + m.n.toNat < 2 ^ 32 := by
      rw [hm, BitVec.toNat_add, h]
      dsimp only
      omega
    rw [Memcpy.count, if_pos hdst]
  let dst : ℕ → UserPage := fun j => (c1.map (vpn (m.dst + BitVec.ofNat 32 j))).getD p
  let src : ℕ → UserPage := fun j => (c1.map (vpn (m.src + BitVec.ofNat 32 j))).getD p
  let D : ℕ → PageBytes.Place := fun j => ((dst j).page, (m.dst + BitVec.ofNat 32 j).toNat % 4096)
  let S : ℕ → PageBytes.Place := fun j => ((src j).page, (m.src + BitVec.ofNat 32 j).toNat % 4096)
  have hdst : ∀ j < n.toNat, (c1.map (vpn (m.dst + BitVec.ofNat 32 j)) = some (dst j) ∧
      (dst j).perm &&& pteD ≠ 0) ∧ D j = filePlace P (offset.toNat + j) := fun j hj => by
    have haddr : m.dst + BitVec.ofNat 32 j =
        index2data (BitVec.ofNat 32 i) + BitVec.ofNat 32 (offset.toNat + j) := by
      rw [BitVec.ofNat_add, BitVec.ofNat_toNat, BitVec.setWidth_eq, ← BitVec.add_assoc]
    obtain ⟨perm, hperm, hmap, hmod⟩ := hg.written.mapped.map_addr (x := offset.toNat + j) hi (by omega)
    rw [← haddr] at hmap hmod
    simp only [D, dst, hmap, hmod, Option.getD_some]
    exact ⟨⟨trivial, hperm⟩, rfl⟩
  have hsrc : ∀ j < n.toNat, c1.map (vpn (m.src + BitVec.ofNat 32 j)) = some (src j) ∧
      PageBytes.get c1.mem (S j) = c.byteAt (buf + BitVec.ofNat 32 j) ∧
      ∀ x, offset.toNat ≤ x → x < offset.toNat + n.toNat → S j ≠ filePlace P x := fun j hj => by
    obtain ⟨q, hq, hbyte, hx⟩ := hg.buffer hbuf hj
    have hsrcj : src j = q := by
      simp only [src, hm, hq, Option.getD_some]
    simp only [S, hsrcj]
    exact ⟨hq, hbyte, hx⟩
  have hinjD : ∀ j < n.toNat, ∀ k < n.toNat, D j = D k → j = k := fun j hj k hk he => by
    rw [(hdst j hj).2, (hdst k hk).2] at he
    have := filePlace_inj hinj he
    omega
  have hapart : ∀ j < n.toNat, ∀ k < n.toNat, D j ≠ S k := fun j hj k hk => by
    rw [(hdst j hj).2]
    exact ((hsrc k hk).2.2 _ (by omega) (by omega)).symm
  refine ⟨c1.setMem (PageBytes.copy c1.mem D S n.toNat), ?_, ?_, fun x h1 h2 => ?_, fun x h1 h2 => ?_⟩
  · have hto : ∀ j < m.count, c1.map (vpn (m.dst + BitVec.ofNat 32 j)) = some (dst j) ∧
        (dst j).perm &&& pteD ≠ 0 := fun j hj => (hdst j (hcount ▸ hj)).1
    have hfrom : ∀ j < m.count, c1.map (vpn (m.src + BitVec.ofNat 32 j)) = some (src j) :=
      fun j hj => (hsrc j (hcount ▸ hj)).1
    have h := memcpy_mapped hto hfrom
    rw [hcount] at h
    exact h
  · have hpage : ∀ q, (∀ k, q ≠ P k) → PageBytes.copy c1.mem D S n.toNat q = c1.mem q := fun q hq =>
      PageBytes.copy_of_ne_page fun j hj => by
        rw [(hdst j hj).2]
        exact (hq _).symm
    have hsame : (c1.setMem (PageBytes.copy c1.mem D S n.toNat)).fileSize p = c1.fileSize p :=
      congrFun (hpage p.page fun k => (hfd k).symm) 36
    have hw := hg.written
    refine ⟨⟨hi, hw.opened.page, ?_⟩, ?_, ?_, hw.maps, fun q h1 h2 => ?_⟩
    · rw [← hw.opened.dev]
      exact congrFun (hpage p.page fun k => (hfd k).symm) 0
    · rw [hsame, hsize]
    · rw [hsame]
      exact hw.mapped
    · rw [← hw.pages q h1 h2]
      exact hpage q h2
  · obtain ⟨j, rfl⟩ := Nat.exists_eq_add_of_le h1
    have hj : j < n.toNat := by omega
    rw [Nat.add_sub_cancel_left, ← (hsrc j hj).2.1, ← (hdst j hj).2]
    exact PageBytes.get_copy hinjD hapart hj
  · have hne : ∀ j < n.toNat, D j ≠ filePlace P x := fun j hj he => by
      rw [(hdst j hj).2] at he
      have := filePlace_inj hinj he
      omega
    have hold : c1.mem (P (x / 4096)) = c.mem (P (x / 4096)) :=
      hg.mem _ (hfd _) fun k hk _ he => by
        have := hinj he
        omega
    change PageBytes.get (PageBytes.copy c1.mem D S n.toNat) (filePlace P x) = _
    rw [PageBytes.get_copy_of_ne hne]
    exact congrArg (fun w => ByteWords.get w (x % 4096)) hold

/-! ## The reads after a write -/

/-- A read of `len` bytes at `pos` after a write of a buffer: it copies what there is of the file, the
bytes of the buffer where they were written, and the bytes of the old file elsewhere. -/
def ReadsBack (c c' : Client σ) (i : ℕ) (p : UserPage) (buf n offset dst len pos : Word) : Prop :=
  ∃ r m, c'.fileRead (index2fd (BitVec.ofNat 32 i)) dst len pos = .ok (r, m, c') ∧
    r.toNat = min len.toNat ((c'.fileSize p).toNat - pos.toNat) ∧
    m.elim (r = 0) fun m => m.dst = dst ∧ m.count = r.toNat ∧ ∀ j < r.toNat,
      (offset.toNat ≤ pos.toNat + j → pos.toNat + j < offset.toNat + n.toNat →
        c'.byteAt (m.src + BitVec.ofNat 32 j) =
          c.byteAt (buf + BitVec.ofNat 32 (pos.toNat + j - offset.toNat))) ∧
      (pos.toNat + j < offset.toNat ∨ offset.toNat + n.toNat ≤ pos.toNat + j →
        pos.toNat + j < (c.fileSize p).toNat →
        c'.byteAt (m.src + BitVec.ofNat 32 j) =
          c.byteAt (index2data (BitVec.ofNat 32 i) + BitVec.ofNat 32 (pos.toNat + j)))

/-- The number of bytes that `file_read` returns is what is left of the file, exactly if the sum does
not wrap or nothing is left. -/
lemma OpenFile.fileRead_length (ho : c.OpenFile i p) (dst len pos : Word) :
    ∃ r m, c.fileRead (index2fd (BitVec.ofNat 32 i)) dst len pos = .ok (r, m, c) ∧
      (r.toNat = min len.toNat ((c.fileSize p).toNat - pos.toNat) ↔
        pos > c.fileSize p ∨ pos.toNat + len.toNat < 2 ^ 32) ∧
      (m = none ∧ r = 0 ∨ m = some ⟨dst, index2data (BitVec.ofNat 32 i) + pos, r⟩) := by
  rw [ho.fileRead_eq]
  by_cases hgt : pos > c.fileSize p
  · rw [if_pos hgt]
    refine ⟨_, _, rfl, iff_of_true ?_ (.inl hgt), .inl ⟨rfl, rfl⟩⟩
    rw [gt_iff_lt, BitVec.lt_def] at hgt
    rw [Nat.sub_eq_zero_of_le hgt.le, Nat.min_zero]
    rfl
  rw [if_neg hgt]
  refine ⟨_, _, rfl, ?_, .inr rfl⟩
  rw [or_iff_right hgt]
  rw [gt_iff_lt, BitVec.lt_def] at hgt
  have hsub : (c.fileSize p - pos).toNat = (c.fileSize p).toNat - pos.toNat :=
    BitVec.toNat_sub_of_le (by rw [BitVec.le_def]; omega)
  have hsum : (pos + len).toNat = (pos.toNat + len.toNat) % 2 ^ 32 := BitVec.toNat_add ..
  have hlen := len.isLt
  have hsize := (c.fileSize p).isLt
  split_ifs with hs
  · rw [gt_iff_lt, BitVec.lt_def, hsum] at hs
    rw [hsub]
    omega
  · rw [gt_iff_lt, BitVec.lt_def, hsum] at hs
    omega

/-- **A write, and the reads after it.** If the server grants every request, `file_write` to an open
file copies the buffer, and a read finds the right bytes exactly if its sum does not wrap, or if it
is beyond the file. -/
theorem OpenFile.write_read (ho : c.OpenFile i p) (hw : p.perm &&& pteD ≠ 0)
    (hserves : Serves svc up (c.fileId p) P) (hs : c.server = some s) (hup : up s)
    (hroom : ¬ c.NoRoom (dataVpn i 0)) (hcov : c.DataMapped i P (c.fileSize p))
    (hfd : ∀ k, P k ≠ p.page) (hsum : offset.toNat + n.toNat ≤ maxfilesize.toNat)
    (hbuf : c.Apart i p P buf n offset) :
    ∃ m c1 c', c.fileWrite svc (index2fd (BitVec.ofNat 32 i)) buf n offset = .ok (n, some m, c1) ∧
      c1.memcpy m = .ok c' ∧ Written c c' i p P n offset ∧
      ∀ dst len pos, dst.toNat + min len.toNat ((c'.fileSize p).toNat - pos.toNat) < 2 ^ 32 →
        (ReadsBack c c' i p buf n offset dst len pos ↔
          pos > c'.fileSize p ∨ pos.toNat + len.toNat < 2 ^ 32) := by
  obtain ⟨c1, hwrite, hg⟩ := ho.fileWrite_grown hw hserves hs hup hroom hcov hfd hsum buf
  obtain ⟨c', hcopy, hwritten, hnew, hold⟩ := hg.copies hserves.inj hfd hsum hbuf
  refine ⟨_, c1, c', hwrite, hcopy, hwritten, fun dst len pos hdst => ?_⟩
  obtain ⟨r, m, hread, hlen, hm⟩ := hwritten.opened.fileRead_length dst len pos
  constructor
  · rintro ⟨r', m', hread', hr', -⟩
    rw [hread, Except.ok.injEq, Prod.mk.injEq] at hread'
    exact hlen.mp (hread'.1 ▸ hr')
  · intro hok
    have hr := hlen.mpr hok
    refine ⟨r, m, hread, hr, ?_⟩
    rcases hm with ⟨rfl, rfl⟩ | rfl
    · rfl
    refine ⟨rfl, by rw [Memcpy.count, if_pos (by rw [hr]; exact hdst)], fun j hj => ?_⟩
    have hx : pos.toNat + j < (c'.fileSize p).toNat := by omega
    have haddr : index2data (BitVec.ofNat 32 i) + pos + BitVec.ofNat 32 j =
        index2data (BitVec.ofNat 32 i) + BitVec.ofNat 32 (pos.toNat + j) := by
      rw [BitVec.ofNat_add, BitVec.ofNat_toNat, BitVec.setWidth_eq, ← BitVec.add_assoc]
    dsimp only
    rw [haddr, hwritten.mapped.byteAt ho.lt hx]
    refine ⟨hnew _, fun hout hlt => ?_⟩
    rw [hold _ hout hlt, hcov.byteAt ho.lt hlt]

end Client

/-! ## A small file -/

/-- An open file without data, with descriptor 0, and a page for a buffer. -/
def emptyFile : Client Unit where
  map := fun n =>
    if n = fdVpn 0 then some ⟨7, pteD ||| pteLibrary ||| pteV⟩
    else if n = 0x400 then some ⟨8, pteD ||| pteV⟩
    else none
  table := fun n => n == 383 || n == 1 || n == 384
  mem := fun q k => if q = 7 ∧ k = 0 then devfileId else 0
  grants := fun _ => none
  server := some ()
  tables := fun n hn => by
    split_ifs at hn with h1 h2
    · rw [h1]
      rfl
    · rw [h2]
      rfl
    · exact absurd rfl hn

/-- A server that has a page for every block. -/
def granting : FileService Unit where
  page := fun s req =>
    match req with
    | .map _ offset => pure (.ok ⟨100 + offset.toNat / 4096, fun _ => 0⟩, s)
    | _ => pure (.error ⟨-eInval, eInval_refuses⟩, s)
  value := fun s _ => pure (0, s)

/-- A server that grants every block, each from a page of its own. -/
lemma granting_serves (fileid : Word) :
    Serves granting (fun _ => True) fileid fun k => 100 + k where
  inj := fun j k h => by
    dsimp only at h
    omega
  map := fun s _ k hk => by
    have h : (BitVec.ofNat 32 (4096 * k)).toNat / 4096 = k := by
      rw [BitVec.toNat_ofNat]
      omega
    refine ⟨fun _ => 0, s, ?_, trivial⟩
    simp only [granting, h]
    rfl
  size := fun s _ _ => ⟨0, s, rfl, rfl, trivial⟩

/-- The page of its `struct Filefd`. -/
def emptyFilePage : UserPage := ⟨7, pteD ||| pteLibrary ||| pteV⟩

lemma emptyFile_open : emptyFile.OpenFile 0 emptyFilePage := ⟨by decide, by decide, by decide⟩

lemma emptyFile_size : emptyFile.fileSize emptyFilePage = 0 := by decide

lemma emptyFile_mapped :
    emptyFile.DataMapped 0 (fun k => 100 + k) (emptyFile.fileSize emptyFilePage) := by
  intro k hk
  rw [emptyFile_size] at hk
  exact absurd hk (Nat.not_lt_zero _)

lemma emptyFile_apart : emptyFile.Apart 0 emptyFilePage (fun k => 100 + k) 0x400000 1 0 := by
  intro j hj
  have h1 : (1 : Word).toNat = 1 := by decide
  have h0 : j = 0 := by omega
  rw [h0]
  refine ⟨⟨8, pteD ||| pteV⟩, by decide, by decide, fun k _ _ => ⟨?_, ?_⟩, fun x _ _ he => ?_⟩
  · rw [show vpn (0x400000 + BitVec.ofNat 32 0) = 0x400 by decide, dataVpn]
    omega
  · dsimp only
    omega
  · have : 8 = 100 + x / 4096 := congrArg Prod.fst he
    omega

/-- The theorem for one byte that is written to the empty file. -/
theorem write_read_emptyFile :
    ∃ m c1 c', emptyFile.fileWrite granting (index2fd (BitVec.ofNat 32 0)) 0x400000 1 0 =
        .ok (1, some m, c1) ∧
      c1.memcpy m = .ok c' ∧ emptyFile.Written c' 0 emptyFilePage (fun k => 100 + k) 1 0 ∧
      ∀ dst len pos : Word,
        dst.toNat + min len.toNat ((c'.fileSize emptyFilePage).toNat - pos.toNat) < 2 ^ 32 →
        (emptyFile.ReadsBack c' 0 emptyFilePage 0x400000 1 0 dst len pos ↔
          pos > c'.fileSize emptyFilePage ∨ pos.toNat + len.toNat < 2 ^ 32) :=
  emptyFile_open.write_read (by decide) (granting_serves _) rfl trivial (by decide) emptyFile_mapped
    (fun k => by change 100 + k ≠ 7; omega) (by decide) emptyFile_apart

/-- **A read that wraps.** One byte is written to the empty file. A read of `2 ^ 32 - 1` bytes from the
end of the file on then does not find that nothing is left. -/
theorem write_read_wraps :
    ∃ m c1 c', emptyFile.fileWrite granting (index2fd (BitVec.ofNat 32 0)) 0x400000 1 0 =
        .ok (1, some m, c1) ∧
      c1.memcpy m = .ok c' ∧
      ¬ emptyFile.ReadsBack c' 0 emptyFilePage 0x400000 1 0 0x400000 0xffffffff 1 := by
  have hfd : ∀ k, 100 + k ≠ emptyFilePage.page := fun k => by
    change 100 + k ≠ 7
    omega
  have hsum : (0 : Word).toNat + (1 : Word).toNat ≤ maxfilesize.toNat := by decide
  obtain ⟨c1, hwrite, hg⟩ := emptyFile_open.fileWrite_grown (by decide) (granting_serves _) rfl trivial
    (by decide) emptyFile_mapped hfd hsum 0x400000
  obtain ⟨c', hcopy, hwritten, -⟩ := hg.copies (granting_serves 0).inj hfd hsum emptyFile_apart
  refine ⟨_, c1, c', hwrite, hcopy, ?_⟩
  rintro ⟨r, m, hread, hr, -⟩
  obtain ⟨r', m', hread', hlen, -⟩ := hwritten.opened.fileRead_length 0x400000 0xffffffff 1
  rw [hread, Except.ok.injEq, Prod.mk.injEq] at hread'
  have hsize : (c'.fileSize emptyFilePage).toNat = 1 := by
    rw [hwritten.size, emptyFile_size]
    rfl
  rcases hlen.mp (hread'.1 ▸ hr) with hgt | hlt
  · rw [gt_iff_lt, BitVec.lt_def, hsize] at hgt
    exact absurd hgt (by decide)
  · exact absurd hlt (by decide)

end MosVolca
