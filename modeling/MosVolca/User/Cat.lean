import MosVolca.User.Cursor

/-!
# `cat`

The loop of `user/cat.c`, which reads a file in pieces and writes each of them to the console. It ends,
and shows all of the file from the offset on, and nothing else.

## Main definitions

* `MosVolca.Program.cat` — the loop, cut off after a number of rounds.
* `MosVolca.Program.Screen` — descriptor 1 is the console.

## Main results

* `MosVolca.Program.Screen.write` — `write` to the console.
* `MosVolca.Program.Reads.cat` — the loop.
-/

namespace MosVolca

/-- `sizeof buf`. -/
def catSize : Word := 8192

namespace Program

variable {σ : Type} {svc : FileService σ} {pipe : PipeOps σ} {s s' : Program σ} {D : Set ℕ}
  {p q : UserPage} {P : ℕ → ℕ} {f : ByteFile} {i len m off : ℕ} {buf n w : Word} {l : List (BitVec 8)}

/-- `cat`, with the address of `buf`, cut off after a number of rounds. -/
def cat (svc : FileService σ) (pipe : PipeOps σ) (buf : Word) :
    ℕ → Program σ → Word → Kernel (Program σ)
  | 0, _, _ => throw (.panic "cat does not return")
  | fuel + 1, s, f => do
    let (n, s) ← s.read pipe f buf catSize
    if (0 : Word).slt n then
      let (r, s) ← s.write svc pipe 1 buf n
      if r ≠ n then throw (.panic "write error copying") else cat svc pipe buf fuel s f
    else if n.slt 0 then throw (.panic "error reading")
    else pure s

/-! ## The console -/

/-- Descriptor 1 is the console. Its page is apart from the file and from a buffer. -/
structure Screen (s : Program σ) (p : UserPage) (P : ℕ → ℕ) (len : ℕ) (buf : Word) (m : ℕ)
    (q : UserPage) : Prop where
  page : s.client.map (fdVpn 1) = some q
  dev : s.client.mem q.page 0 = 0x63
  mode : s.client.mem q.page 2 &&& oAccmode ≠ oRdonly
  writable : q.perm &&& pteD ≠ 0
  file : q.page ≠ p.page
  data : ∀ k, 4096 * k < len → q.page ≠ P k
  buffer : ∀ j < m, (s.client.placeAt (buf + BitVec.ofNat 32 j)).1 ≠ q.page

/-- What `read` stores leaves the console as it is. -/
lemma Screen.of_storedAt (h : Screen s p P len buf m q) (hl : l.length ≤ m)
    (hs : StoredAt s s' p buf l off) : Screen s' p P len buf m q := by
  have hpage : s'.client.mem q.page = s.client.mem q.page :=
    hs.pages q.page h.file fun j hj => h.buffer j (hj.trans_le hl)
  constructor
  · rw [hs.map, h.page]
  · rw [hpage, h.dev]
  · rw [hpage]
    exact h.mode
  · exact h.writable
  · exact h.file
  · exact h.data
  · intro j hj
    rw [hs.placeAt]
    exact h.buffer j hj

/-- The file stays open if its pages stay. -/
lemma Reads.congr (hr : Reads s D p P f) (hmap : s'.client.map = s.client.map)
    (hpage : s'.client.mem p.page = s.client.mem p.page)
    (hdata : ∀ k, 4096 * k < f.data.length → s'.client.mem (P k) = s.client.mem (P k)) :
    Reads s' D p P f where
  opened i hi := by
    obtain ⟨hlt, hp, hdev⟩ := hr.opened i hi
    exact ⟨hlt, by rw [hmap, hp], by rw [hpage, hdev]⟩
  mapped i hi := by
    unfold Client.DataMapped Client.fileSize
    rw [hmap, hpage]
    exact hr.mapped i hi
  size := by
    unfold Client.fileSize
    rw [hpage]
    exact hr.size
  bytes x hx := by
    rw [← hr.bytes x hx]
    exact congrArg (fun words => ByteWords.get words (x % 4096)) (hdata (x / 4096) (by omega))
  offset := by
    rw [hpage]
    exact hr.offset
  mode := by
    rw [hpage]
    exact hr.mode
  writable := hr.writable
  apart := hr.apart
  small := hr.small

/-- The loop of `sys_print_cons` shows the bytes of the buffer. -/
lemma printBytes_mapped (h : ∀ j < m, ∃ x, s.client.map (vpn (buf + BitVec.ofNat 32 j)) = some x) :
    s.printBytes buf m =
      .ok { s with console := { s.console with shown := s.console.shown ++ s.bytesAt buf m } } := by
  unfold printBytes bytesAt
  induction m with
  | zero =>
    rw [List.range_zero, List.map_nil, List.append_nil]
    rfl
  | succ m ih =>
    obtain ⟨x, hx⟩ := h m m.lt_succ_self
    have hload := Client.loadByte_mapped hx
    have hbyte := Client.byteAt_of_map hx
    rw [List.range_succ, List.foldlM_append, ih fun j hj => h j (hj.trans m.lt_succ_self), ok_bind,
      List.foldlM_cons]
    simp only [hload, ok_bind, List.map_append, List.map_cons, List.map_nil, hbyte]
    rw [← List.append_assoc]
    rfl

variable (svc pipe) in
/-- **`write`** to the console shows the bytes, and moves the offset of the console only. -/
lemma Screen.write (hs : Screen s p P len buf m q) (hb : Buffer s p P len buf m) (hn : n.toNat ≤ m)
    (hpos : 0 < n.toNat) (hsmall : n.toNat < 2 ^ 31) :
    s.write svc pipe 1 buf n = .ok (n, ⟨s.client.setMem (TwoLevel.write s.client.mem q.page 1
        (s.client.mem q.page 1 + n)),
      { s.console with shown := s.console.shown ++ s.bytesAt buf n.toNat }⟩) := by
  have hfits := hb.fits
  rw [utop_toNat] at hfits
  have hdev : devLookup (s.client.mem q.page 0) = some .cons := by
    rw [hs.dev]
    rfl
  have hsum : (buf + n).toNat = buf.toNat + n.toNat := by
    rw [BitVec.toNat_add, Nat.mod_eq_of_lt (by omega)]
  -- the tests of `sys_print_cons`
  have hok : ¬ (buf + n > utop ∨ buf ≥ utop ∨ buf > buf + n) := by
    rw [gt_iff_lt, BitVec.lt_def, ge_iff_le, BitVec.le_def, gt_iff_lt, BitVec.lt_def, hsum, utop_toNat]
    omega
  have hprint : s.printBytes buf n.toNat = _ := printBytes_mapped fun j hj => by
    obtain ⟨x, hx, -⟩ := hb.mapped j (by omega)
    exact ⟨x, hx⟩
  have hwork : s.devWrite svc pipe .cons (index2fd (BitVec.ofNat 32 1)) buf n (s.client.mem q.page 1) =
      .ok (n, { s with
        console := { s.console with shown := s.console.shown ++ s.bytesAt buf n.toNat } }) := by
    unfold devWrite consWrite
    rw [if_neg hok, hprint]
    rfl
  show s.transfer oRdonly (BitVec.ofNat 32 1) _ = _
  rw [transfer_open (by decide) hs.page hdev hs.mode, hwork, ok_bind]
  simp only [zero_slt hsmall, decide_eq_true hpos, if_true]
  exact transfer_moves (by decide) hs.page hs.writable

/-- What `write` changes leaves the console a console. -/
lemma Screen.moved (hs : Screen s p P len buf m q) {t : Console} :
    Screen ⟨s.client.setMem (TwoLevel.write s.client.mem q.page 1 w), t⟩ p P len buf m q where
  page := hs.page
  dev := (TwoLevel.write_of_ne_slot (by decide)).trans hs.dev
  mode := by
    show TwoLevel.write s.client.mem q.page 1 w q.page 2 &&& oAccmode ≠ oRdonly
    rw [TwoLevel.write_of_ne_slot (by decide)]
    exact hs.mode
  writable := hs.writable
  file := hs.file
  data := hs.data
  buffer := hs.buffer

/-! ## The loop -/

variable (svc pipe) in
/-- One round: nothing is left, and the loop ends, or a piece of the file is shown. -/
lemma Reads.cat_round (hr : Reads s D p P f) (hi : i ∈ D)
    (hb : Buffer s p P f.data.length buf catSize.toNat)
    (hs : Screen s p P f.data.length buf catSize.toNat q) (hoff : f.off ≤ f.data.length) (fuel : ℕ) :
    (f.off = f.data.length ∧ ∃ s', Program.cat svc pipe buf (fuel + 1) s (BitVec.ofNat 32 i) = .ok s' ∧
      s'.console = s.console ∧ Reads s' D p P f) ∨
    f.off < f.data.length ∧ ∃ s', Program.cat svc pipe buf (fuel + 1) s (BitVec.ofNat 32 i) =
        Program.cat svc pipe buf fuel s' (BitVec.ofNat 32 i) ∧
      s'.client.map = s.client.map ∧
      s'.console = { s.console with shown := s.console.shown ++ (f.read catSize.toNat).1 } ∧
      Reads s' D p P (f.read catSize.toNat).2 ∧
      Screen s' p P f.data.length buf catSize.toNat q := by
  have hsize : catSize.toNat = 8192 := rfl
  have hsmall := hr.small
  rw [maxfilesize_toNat] at hsmall
  obtain ⟨s₁, hread, hstored⟩ := hr.read pipe hi hb (by omega)
  obtain ⟨l, hl⟩ : ∃ l, (f.read catSize.toNat).1 = l := ⟨_, rfl⟩
  have hlen : l.length = min 8192 (f.data.length - f.off) := by
    rw [← hl]
    show ((f.data.drop f.off).take 8192).length = _
    rw [List.length_take, List.length_drop]
  obtain ⟨n, hn⟩ : ∃ n : Word, BitVec.ofNat 32 l.length = n := ⟨_, rfl⟩
  have hnlen : n.toNat = l.length := by
    rw [← hn, BitVec.toNat_ofNat]
    omega
  have hnext : (f.read catSize.toNat).2 = { f with off := f.off + l.length } := by
    rw [← hl]
    rfl
  rw [hl, hn] at hread
  rw [hl, hnext] at hstored ⊢
  have hr₁ := hr.of_storedAt (hb.mono (by omega)) hstored
  have hb₁ : Buffer s₁ p P f.data.length buf catSize.toNat := hb.congr hstored.map
  have hs₁ := hs.of_storedAt (by omega) hstored
  have hconsole : s₁.console = s.console := by rw [hstored.same]
  rw [Program.cat, hread, ok_bind]
  simp only [zero_slt (r := n) (by omega), decide_eq_true_eq]
  by_cases hpos : 0 < n.toNat
  · right
    have hbytes : s₁.bytesAt buf n.toNat = l := by
      rw [hnlen]
      exact hstored.bytesAt hb (by omega)
    have hwrite := hs₁.write svc pipe (n := n) hb₁ (by omega) hpos (by omega)
    rw [if_pos hpos, hwrite, ok_bind]
    simp only [ne_eq, not_true_eq_false, if_false]
    refine ⟨by omega, _, rfl, hstored.map, ?_, hr₁.congr rfl ?_ fun k hk => ?_, hs₁.moved⟩
    · rw [hbytes, hconsole]
    · funext k
      exact TwoLevel.write_of_ne_page hs.file.symm
    · funext j
      exact TwoLevel.write_of_ne_page (hs.data k hk).symm
  · left
    have hn0 : n = 0 := BitVec.eq_of_toNat_eq (Nat.eq_zero_of_not_pos hpos)
    rw [if_neg hpos, hn0]
    refine ⟨by omega, s₁, rfl, hconsole, ?_⟩
    rw [show f.off + l.length = f.off by omega] at hr₁
    exact hr₁

/-- What is read, and what is left. -/
lemma read_append_drop (f : ByteFile) (n : ℕ) :
    (f.read n).1 ++ (f.read n).2.data.drop (f.read n).2.off = f.data.drop f.off := by
  show (f.data.drop f.off).take n ++ f.data.drop (f.off + ((f.data.drop f.off).take n).length) = _
  rw [← List.drop_drop]
  by_cases hn : n ≤ (f.data.drop f.off).length
  · rw [List.length_take_of_le hn, List.take_append_drop]
  · rw [List.take_of_length_le (by omega), List.drop_length, List.append_nil]

variable (svc pipe) in
/-- **`cat`** of a file returns, and shows the file from the offset on, once and in order.
**Proof sketch.** Induction on the number of rounds: a round shows 8192 bytes, or all that are left, and
leaves the file, the buffer and the console as they have to be for the rest. -/
theorem Reads.cat (hr : Reads s D p P f) (hi : i ∈ D)
    (hb : Buffer s p P f.data.length buf catSize.toNat)
    (hs : Screen s p P f.data.length buf catSize.toNat q) (hoff : f.off ≤ f.data.length) {fuel : ℕ}
    (hfuel : f.data.length - f.off ≤ 8192 * fuel) :
    ∃ s', Program.cat svc pipe buf (fuel + 1) s (BitVec.ofNat 32 i) = .ok s' ∧
      s'.console = { s.console with shown := s.console.shown ++ f.data.drop f.off } ∧
      Reads s' D p P { f with off := f.data.length } := by
  have hdone : f.off = f.data.length → ∀ {s' : Program σ}, s'.console = s.console →
      Reads s' D p P f → s'.console = { s.console with shown := s.console.shown ++ f.data.drop f.off } ∧
        Reads s' D p P { f with off := f.data.length } := by
    intro hend s' hc hr'
    rw [hc, hend, List.drop_length, List.append_nil]
    refine ⟨rfl, ?_⟩
    rw [← hend]
    exact hr'
  induction fuel generalizing s f with
  | zero =>
    rcases hr.cat_round svc pipe hi hb hs hoff 0 with ⟨hend, s', hcat, hc, hr'⟩ | ⟨hlt, -⟩
    · exact ⟨s', hcat, hdone hend hc hr'⟩
    · omega
  | succ fuel ih =>
    rcases hr.cat_round svc pipe hi hb hs hoff (fuel + 1) with
      ⟨hend, s', hcat, hc, hr'⟩ | ⟨hlt, s₁, hcat, hmap, hc, hr₁, hs₁⟩
    · exact ⟨s', hcat, hdone hend hc hr'⟩
    · have hdata : (f.read catSize.toNat).2.data = f.data := rfl
      have hnext : (f.read catSize.toNat).2.off = f.off + min 8192 (f.data.length - f.off) := by
        show f.off + ((f.data.drop f.off).take 8192).length = _
        rw [List.length_take, List.length_drop]
      obtain ⟨s', hrest, hc', hr'⟩ := ih hr₁ (hdata ▸ hb.congr hmap) (hdata ▸ hs₁) (by
        rw [hdata]
        omega) (by
        rw [hdata]
        omega) fun hend s' hc hr' => by
          rw [hc, hend, List.drop_length, List.append_nil]
          exact ⟨rfl, hend ▸ hr'⟩
      refine ⟨s', hcat.trans hrest, ?_, hr'⟩
      rw [hc', hc]
      simp only [List.append_assoc, read_append_drop]

end Program

end MosVolca
