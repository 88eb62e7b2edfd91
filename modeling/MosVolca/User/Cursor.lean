import MosVolca.Library.RecordFile
import MosVolca.User.WriteRead

/-!
# Reading and writing at the offset

`read`, `readn`, `write` and `seek` of `user/lib/fd.c`, and the console of `user/lib/console.c`. The
offset is in the page of the descriptor, so descriptors that are made by `dup` share it. What a program
reads from a file through such descriptors, with `seek` in between, is what it would read from one file
of bytes with one place for the next access.

## Main definitions

* `MosVolca.Console` — the terminal, with `MosVolca.Client.consRead` and `MosVolca.Client.consWrite`.
* `MosVolca.PipeOps` — the functions of the pipes, which depend on other programs.
* `MosVolca.Program.read`, `MosVolca.Program.readn`, `MosVolca.Program.write`, `MosVolca.Program.seek`.
* `MosVolca.Program.Reads` — a file that is open in a program, as a file of bytes.
* `MosVolca.FileOp` — the calls of a program that reads.

## Main results

* `MosVolca.Program.Reads.read`, `MosVolca.Program.Reads.seek` — one call.
* `MosVolca.Program.Reads.readn` — the loop of `readn`.
* `MosVolca.Program.Reads.calls_runOn` — every run of such calls.
-/

namespace MosVolca

/-- `O_ACCMODE`. -/
def oAccmode : Word := 3
/-- `O_WRONLY`. -/
def oWronly : Word := 1
/-- `O_RDONLY`. -/
def oRdonly : Word := 0

/-- The addresses of `fd_offset` and `fd_omode`. -/
def fdOffset (fd : Word) : Word := fd + 4
def fdOmode (fd : Word) : Word := fd + 8

/-! ## The devices -/

/-- The terminal: the keys to come, what it shows, and the variable that turns the echo off. A key 0 is
none. -/
structure Console where
  keys : List (BitVec 8)
  shown : List (BitVec 8)
  closeInputBack : Bool

/-- A program and its terminal. -/
structure Program (σ : Type) where
  client : Client σ
  console : Console

/-- The functions of the pipes, with the descriptor, the buffer, the number of bytes and the offset. -/
structure PipeOps (σ : Type) where
  read : Program σ → Word → Word → Word → Word → Kernel (Word × Program σ)
  write : Program σ → Word → Word → Word → Word → Kernel (Word × Program σ)

namespace Program

variable {σ : Type} (svc : FileService σ) (pipe : PipeOps σ)

/-- `cons_read`. -/
def consRead (s : Program σ) (buf n : Word) : Kernel (Word × Program σ) :=
  if n = 0 then pure (0, s)
  else
    match s.console.keys.dropWhile (· == 0) with
    | [] => throw (.panic "cons_read does not return")
    | key :: keys => do
      let echo := if key = 0x0D then 0x0A else key
      let shown := if s.console.closeInputBack then s.console.shown else s.console.shown ++ [echo]
      let s := { s with console := { s.console with keys := keys, shown := shown } }
      let r : Word := key.signExtend 32
      if r.slt 0 then pure (r, s)
      else if key = 0x04 then pure (0, s)
      else
        let c ← s.client.storeByte buf key
        pure (1, { s with client := c })

/-- The loop of `sys_print_cons`. -/
def printBytes (s : Program σ) (buf : Word) (n : ℕ) : Kernel (Program σ) :=
  (List.range n).foldlM (fun s j => do
    let (b, c) ← s.client.loadByte (buf + BitVec.ofNat 32 j)
    pure ⟨c, { s.console with shown := s.console.shown ++ [b] }⟩) s

/-- `cons_write`, with `sys_print_cons`. -/
def consWrite (s : Program σ) (buf n : Word) : Kernel (Word × Program σ) :=
  if buf + n > utop ∨ buf ≥ utop ∨ buf > buf + n then pure (-eInval, s)
  else do
    let s ← s.printBytes buf n.toNat
    pure (n, s)

/-- The `memcpy` of a device. -/
def copy (s : Program σ) : Option Memcpy → Kernel (Program σ)
  | none => pure s
  | some m => do
    let c ← s.client.memcpy m
    pure { s with client := c }

/-- `dev_read`. -/
def devRead (s : Program σ) (dev : Dev) (fd buf n offset : Word) : Kernel (Word × Program σ) :=
  match dev with
  | .file => do
    let (r, m, c) ← s.client.fileRead fd buf n offset
    let s ← { s with client := c }.copy m
    pure (r, s)
  | .cons => s.consRead buf n
  | .pipe => pipe.read s fd buf n offset

/-- `dev_write`. -/
def devWrite (s : Program σ) (dev : Dev) (fd buf n offset : Word) : Kernel (Word × Program σ) :=
  match dev with
  | .file => do
    let (r, m, c) ← s.client.fileWrite svc fd buf n offset
    let s ← { s with client := c }.copy m
    pure (r, s)
  | .cons => s.consWrite buf n
  | .pipe => pipe.write s fd buf n offset

/-! ## `fd.c` -/

/-- `read` and `write`: a descriptor that is open in the mode `refused` is refused, and the offset goes
up by the result. -/
def transfer (s : Program σ) (refused fdnum : Word)
    (work : Program σ → Dev → Word → Word → Kernel (Word × Program σ)) :
    Kernel (Word × Program σ) := do
  match ← s.client.fdLookup fdnum with
  | (none, c) => pure (-eInval, { s with client := c })
  | (some fd, c) =>
    let (devId, c) ← c.load (fdDevId fd)
    match devLookup devId with
    | none => pure (-eInval, { s with client := c })
    | some dev =>
      let (omode, c) ← c.load (fdOmode fd)
      if omode &&& oAccmode = refused then pure (-eInval, { s with client := c })
      else
        let (offset, c) ← c.load (fdOffset fd)
        let (r, s) ← work { s with client := c } dev fd offset
        if (0 : Word).slt r then
          let (offset, c) ← s.client.load (fdOffset fd)
          let c ← c.store (fdOffset fd) (offset + r)
          pure (r, { s with client := c })
        else pure (r, s)

/-- `read`. -/
def read (s : Program σ) (fdnum buf n : Word) : Kernel (Word × Program σ) :=
  s.transfer oWronly fdnum fun s dev fd offset => s.devRead pipe dev fd buf n offset

/-- `write`. -/
def write (s : Program σ) (fdnum buf n : Word) : Kernel (Word × Program σ) :=
  s.transfer oRdonly fdnum fun s dev fd offset => s.devWrite svc pipe dev fd buf n offset

/-- The loop of `readn`, with `tot`. -/
def readnFrom (s : Program σ) (fdnum buf n : Word) : ℕ → Word → Kernel (Word × Program σ)
  | 0, _ => throw (.panic "readn does not return")
  | fuel + 1, tot =>
    if tot < n then do
      let (m, s) ← s.read pipe fdnum (buf + tot) (n - tot)
      if m.slt 0 then pure (m, s)
      else if m = 0 then pure (tot, s)
      else s.readnFrom fdnum buf n fuel (tot + m)
    else pure (tot, s)

/-- `readn`, cut off after a number of rounds. -/
def readn (s : Program σ) (fuel : ℕ) (fdnum buf n : Word) : Kernel (Word × Program σ) :=
  s.readnFrom pipe fdnum buf n fuel 0

/-- `seek`. -/
def seek (s : Program σ) (fdnum offset : Word) : Kernel (Word × Program σ) := do
  match ← s.client.fdLookup fdnum with
  | (none, c) => pure (-eInval, { s with client := c })
  | (some fd, c) =>
    let c ← c.store (fdOffset fd) offset
    pure (0, { s with client := c })

end Program

variable {σ : Type} {svc : FileService σ} {pipe : PipeOps σ} {s s' : Program σ} {c : Client σ}
  {D : Set ℕ} {p : UserPage} {P : ℕ → ℕ} {f : ByteFile} {i len off : ℕ} {buf n w r : Word}
  {l : List (BitVec 8)}

/-! ## A file that is open -/

/-- The place of an address. -/
def Client.placeAt (c : Client σ) (va : Word) : PageBytes.Place :=
  ((c.map (vpn va)).elim 0 UserPage.page, va.toNat % 4096)

lemma Client.placeAt_of_map {va : Word} {q : UserPage} (h : c.map (vpn va) = some q) :
    c.placeAt va = (q.page, va.toNat % 4096) := by
  rw [placeAt, h]
  rfl

namespace Program

/-- **A file that is open** with the descriptors `D`, as a file of bytes. They share the page `p`, and
the data are in the pages `P`. -/
structure Reads (s : Program σ) (D : Set ℕ) (p : UserPage) (P : ℕ → ℕ) (f : ByteFile) : Prop where
  opened : ∀ i ∈ D, s.client.OpenFile i p
  mapped : ∀ i ∈ D, s.client.DataMapped i P (s.client.fileSize p)
  size : (s.client.fileSize p).toNat = f.data.length
  bytes : ∀ x < f.data.length, PageBytes.get s.client.mem (Client.filePlace P x) = f.data.getD x 0
  offset : (s.client.mem p.page 1).toNat = f.off
  mode : s.client.mem p.page 2 &&& oAccmode ≠ oWronly
  writable : p.perm &&& pteD ≠ 0
  apart : ∀ k, 4096 * k < f.data.length → P k ≠ p.page
  small : f.data.length ≤ maxfilesize.toNat

/-- A buffer of the program, apart from the file. -/
structure Buffer (s : Program σ) (p : UserPage) (P : ℕ → ℕ) (len : ℕ) (buf : Word) (n : ℕ) : Prop where
  fits : buf.toNat + n ≤ utop.toNat
  mapped : ∀ j < n, ∃ q, s.client.map (vpn (buf + BitVec.ofNat 32 j)) = some q ∧ q.perm &&& pteD ≠ 0 ∧
    q.page ≠ p.page ∧ ∀ k, 4096 * k < len → q.page ≠ P k
  inj : ∀ j < n, ∀ k < n, s.client.placeAt (buf + BitVec.ofNat 32 j) =
    s.client.placeAt (buf + BitVec.ofNat 32 k) → j = k

/-- The bytes `l` have been stored in the buffer, and the offset is `off`. Nothing else is changed. -/
structure StoredAt (s s' : Program σ) (p : UserPage) (buf : Word) (l : List (BitVec 8)) (off : ℕ) :
    Prop where
  same : s' = { s with client := s.client.setMem s'.client.mem }
  bytes : ∀ j < l.length,
    PageBytes.get s'.client.mem (s.client.placeAt (buf + BitVec.ofNat 32 j)) = l.getD j 0
  frame : ∀ x : PageBytes.Place, x.1 ≠ p.page →
    (∀ j < l.length, x ≠ s.client.placeAt (buf + BitVec.ofNat 32 j)) →
      PageBytes.get s'.client.mem x = PageBytes.get s.client.mem x
  pages : ∀ q ≠ p.page, (∀ j < l.length, (s.client.placeAt (buf + BitVec.ofNat 32 j)).1 ≠ q) →
    s'.client.mem q = s.client.mem q
  fields : ∀ k ≠ 1, s'.client.mem p.page k = s.client.mem p.page k
  offset : (s'.client.mem p.page 1).toNat = off

/-- The memory `m` has the bytes `l` in the buffer, and is otherwise the one of the program. -/
structure Puts (s : Program σ) (buf : Word) (l : List (BitVec 8)) (m : TwoLevel.Store Word) : Prop where
  bytes : ∀ j < l.length,
    PageBytes.get m (s.client.placeAt (buf + BitVec.ofNat 32 j)) = l.getD j 0
  frame : ∀ x, (∀ j < l.length, x ≠ s.client.placeAt (buf + BitVec.ofNat 32 j)) →
    PageBytes.get m x = PageBytes.get s.client.mem x
  pages : ∀ q, (∀ j < l.length, (s.client.placeAt (buf + BitVec.ofNat 32 j)).1 ≠ q) →
    m q = s.client.mem q

lemma puts_nil : Puts s buf [] s.client.mem :=
  ⟨fun j hj => absurd hj (Nat.not_lt_zero j), fun _ _ => rfl, fun _ _ => rfl⟩

lemma buffer_zero : Buffer s p P len 0 0 :=
  ⟨by decide, fun j hj => absurd hj (Nat.not_lt_zero j), fun j hj => absurd hj (Nat.not_lt_zero j)⟩

/-- A buffer can be used for fewer bytes. -/
lemma Buffer.mono {m : ℕ} (h : Buffer s p P len buf m) {k : ℕ} (hk : k ≤ m) : Buffer s p P len buf k where
  fits := (Nat.add_le_add_left hk _).trans h.fits
  mapped j hj := h.mapped j (hj.trans_le hk)
  inj j hj i hi := h.inj j (hj.trans_le hk) i (hi.trans_le hk)

/-- A place of the buffer. -/
lemma Buffer.place {m j : ℕ} (h : Buffer s p P len buf m) (hj : j < m) :
    (s.client.placeAt (buf + BitVec.ofNat 32 j)).1 ≠ p.page ∧
      ∀ k, 4096 * k < len → (s.client.placeAt (buf + BitVec.ofNat 32 j)).1 ≠ P k := by
  obtain ⟨q, hq, -, hpage, hdata⟩ := h.mapped j hj
  rw [Client.placeAt_of_map hq]
  exact ⟨hpage, hdata⟩

lemma StoredAt.map (h : StoredAt s s' p buf l off) : s'.client.map = s.client.map := by
  rw [h.same]
  rfl

lemma StoredAt.placeAt (h : StoredAt s s' p buf l off) (va : Word) :
    s'.client.placeAt va = s.client.placeAt va := by
  unfold Client.placeAt
  rw [h.map]

/-- The buffers stay buffers if nothing is mapped. -/
lemma Buffer.congr {m : ℕ} (hb : Buffer s p P len buf m) (hmap : s'.client.map = s.client.map) :
    Buffer s' p P len buf m where
  fits := hb.fits
  mapped := by
    rw [hmap]
    exact hb.mapped
  inj := by
    unfold Client.placeAt
    rw [hmap]
    exact hb.inj

/-- **The file stays open**, with another offset. -/
lemma Reads.of_storedAt (hr : Reads s D p P f) (hb : Buffer s p P f.data.length buf l.length)
    (h : StoredAt s s' p buf l off) : Reads s' D p P { f with off := off } where
  opened i hi := by
    obtain ⟨hlt, hpage, hdev⟩ := hr.opened i hi
    refine ⟨hlt, ?_, ?_⟩
    · rw [h.map, hpage]
    · rw [h.fields 0 (by decide), hdev]
  mapped i hi := by
    unfold Client.DataMapped Client.fileSize
    rw [h.map, h.fields 36 (by decide)]
    exact hr.mapped i hi
  size := by
    unfold Client.fileSize
    rw [h.fields 36 (by decide)]
    exact hr.size
  bytes x hx := by
    have hx : x < f.data.length := hx
    have hk : 4096 * (x / 4096) < f.data.length := by omega
    rw [← hr.bytes x hx]
    apply h.frame
    · exact hr.apart _ hk
    · intro j hj he
      exact (hb.place hj).2 _ hk (congrArg Prod.fst he).symm
  offset := h.offset
  mode := by
    rw [h.fields 2 (by decide)]
    exact hr.mode
  writable := hr.writable
  apart := hr.apart
  small := hr.small

/-! ## `read` -/

/-- **`memcpy` from the window** of a file to a buffer. -/
lemma Reads.memcpy (hr : Reads s D p P f) (hi : i ∈ D) (pos : Word)
    (hb : Buffer s p P f.data.length buf r.toNat) (hend : pos.toNat + r.toNat ≤ f.data.length) :
    ∃ m, s.client.memcpy ⟨buf, index2data (BitVec.ofNat 32 i) + pos, r⟩ = .ok (s.client.setMem m) ∧
      Puts s buf ((f.data.drop pos.toNat).take r.toNat) m := by
  have hlen : ((f.data.drop pos.toNat).take r.toNat).length = r.toNat := by
    rw [List.length_take, List.length_drop]
    omega
  set m : Memcpy := ⟨buf, index2data (BitVec.ofNat 32 i) + pos, r⟩ with hm
  have hcount : m.count = r.toNat := by
    have hfits := hb.fits
    rw [utop_toNat] at hfits
    rw [Memcpy.count, if_pos (by show buf.toNat + r.toNat < 2 ^ 32; omega)]
  let src : ℕ → UserPage := fun j => (s.client.map (vpn (m.src + BitVec.ofNat 32 j))).getD p
  let dst : ℕ → UserPage := fun j => (s.client.map (vpn (m.dst + BitVec.ofNat 32 j))).getD p
  have hdst : ∀ j < r.toNat, s.client.map (vpn (m.dst + BitVec.ofNat 32 j)) = some (dst j) ∧
      (dst j).perm &&& pteD ≠ 0 ∧
      ((dst j).page, (m.dst + BitVec.ofNat 32 j).toNat % 4096) =
        s.client.placeAt (buf + BitVec.ofNat 32 j) := by
    intro j hj
    obtain ⟨q, hq, hperm, -⟩ := hb.mapped j hj
    have hdstj : dst j = q := by simp only [dst, hm, hq, Option.getD_some]
    rw [hdstj, Client.placeAt_of_map hq]
    exact ⟨hq, hperm, rfl⟩
  have hsrc : ∀ j < r.toNat, s.client.map (vpn (m.src + BitVec.ofNat 32 j)) = some (src j) ∧
      ((src j).page, (m.src + BitVec.ofNat 32 j).toNat % 4096) =
        Client.filePlace P (pos.toNat + j) := by
    intro j hj
    have haddr : m.src + BitVec.ofNat 32 j =
        index2data (BitVec.ofNat 32 i) + BitVec.ofNat 32 (pos.toNat + j) := by
      rw [BitVec.ofNat_add, BitVec.ofNat_toNat, BitVec.setWidth_eq, ← BitVec.add_assoc]
    obtain ⟨perm, -, hmap, hmod⟩ := (hr.mapped i hi).map_addr (x := pos.toNat + j) (hr.opened i hi).lt
      (by rw [hr.size]; omega)
    rw [← haddr] at hmap hmod
    have hsrcj : src j = ⟨P ((pos.toNat + j) / 4096), perm⟩ := by
      simp only [src, hmap, Option.getD_some]
    rw [hsrcj, hmod]
    exact ⟨hmap, rfl⟩
  have hcopy := @Client.memcpy_mapped _ s.client m dst src
    (fun j hj => ⟨(hdst j (hcount ▸ hj)).1, (hdst j (hcount ▸ hj)).2.1⟩)
    fun j hj => (hsrc j (hcount ▸ hj)).1
  rw [hcount] at hcopy
  refine ⟨_, hcopy, fun j hj => ?_, fun x hx => ?_, fun q hq => ?_⟩
  · rw [hlen] at hj
    rw [List.getD_eq_getElem _ _ (by omega), List.getElem_take, List.getElem_drop,
      ← List.getD_eq_getElem _ 0, ← (hdst j hj).2.2, ← hr.bytes (pos.toNat + j) (by omega), ← (hsrc j hj).2]
    apply PageBytes.get_copy _ _ hj
    · intro a ha b hb' he
      rw [(hdst a ha).2.2, (hdst b hb').2.2] at he
      exact hb.inj a ha b hb' he
    · intro a ha b hb' he
      rw [(hdst a ha).2.2, (hsrc b hb').2] at he
      exact (hb.place ha).2 ((pos.toNat + b) / 4096) (by omega) (congrArg Prod.fst he)
  · rw [hlen] at hx
    apply PageBytes.get_copy_of_ne
    intro j hj he
    rw [(hdst j hj).2.2] at he
    exact hx j hj he.symm
  · rw [hlen] at hq
    apply PageBytes.copy_of_ne_page
    intro j hj
    have hplace : (dst j).page = _ := congrArg Prod.fst (hdst j hj).2.2
    show (dst j).page ≠ q
    rw [hplace]
    exact hq j hj

/-- `transfer` with a descriptor that is open. -/
lemma transfer_open {refused : Word} {work : Program σ → Dev → Word → Word → Kernel (Word × Program σ)}
    {dev : Dev} (hi : i < maxfd) (hmap : s.client.map (fdVpn i) = some p)
    (hdev : devLookup (s.client.mem p.page 0) = some dev)
    (hmode : s.client.mem p.page 2 &&& oAccmode ≠ refused) :
    s.transfer refused (BitVec.ofNat 32 i) work =
      (work s dev (index2fd (BitVec.ofNat 32 i)) (s.client.mem p.page 1) >>= fun x =>
        if (0 : Word).slt x.1 then do
          let (offset, c) ← x.2.client.load (fdOffset (index2fd (BitVec.ofNat 32 i)))
          let c ← c.store (fdOffset (index2fd (BitVec.ofNat 32 i))) (offset + x.1)
          pure (x.1, { x.2 with client := c })
        else pure x) := by
  have hdevId : s.client.load (fdDevId (index2fd (BitVec.ofNat 32 i))) =
      .ok (s.client.mem p.page 0, s.client) := by
    have h := Client.load_field (w := 0#32) hi hmap (by decide)
    rw [BitVec.add_zero] at h
    exact h
  have homode : s.client.load (fdOmode (index2fd (BitVec.ofNat 32 i))) =
      .ok (s.client.mem p.page 2, s.client) := Client.load_field hi hmap (by decide)
  have hoffset : s.client.load (fdOffset (index2fd (BitVec.ofNat 32 i))) =
      .ok (s.client.mem p.page 1, s.client) := Client.load_field hi hmap (by decide)
  unfold transfer
  rw [Client.fdLookup_mapped hi hmap, ok_bind]
  simp only [hdevId, ok_bind, hdev, homode, if_neg hmode, hoffset]

/-- The offset of a descriptor is stored. -/
lemma store_offset (hi : i < maxfd) (hmap : c.map (fdVpn i) = some p) (hw : p.perm &&& pteD ≠ 0) :
    c.store (fdOffset (index2fd (BitVec.ofNat 32 i))) w =
      .ok (c.setMem (TwoLevel.write c.mem p.page 1 w)) := by
  have hv : vpn (fdOffset (index2fd (BitVec.ofNat 32 i))) = fdVpn i := vpn_field hi (by decide)
  have hword : (fdOffset (index2fd (BitVec.ofNat 32 i))).toNat % 4096 / 4 = 1 :=
    word_field hi (by decide)
  apply (Client.store_mapped (hv.symm ▸ hmap)).mpr
  rw [hword]
  exact ⟨hw, rfl⟩

/-- The offset goes up by a result that is more than 0. -/
lemma transfer_moves {m : TwoLevel.Store Word} {t : Console} (hi : i < maxfd)
    (hmap : s.client.map (fdVpn i) = some p) (hw : p.perm &&& pteD ≠ 0) :
    (do
      let (offset, c) ← (s.client.setMem m).load (fdOffset (index2fd (BitVec.ofNat 32 i)))
      let c ← c.store (fdOffset (index2fd (BitVec.ofNat 32 i))) (offset + r)
      pure (r, ({ client := c, console := t } : Program σ))) =
      .ok (r, ⟨s.client.setMem (TwoLevel.write m p.page 1 (m p.page 1 + r)), t⟩) := by
  have hload : (s.client.setMem m).load (fdOffset (index2fd (BitVec.ofNat 32 i))) =
      .ok (m p.page 1, s.client.setMem m) :=
    Client.load_field (c := s.client.setMem m) hi hmap (by decide)
  have hstore := store_offset (c := s.client.setMem m) (w := m p.page 1 + r) hi hmap hw
  rw [hload, ok_bind]
  simp only [hstore, ok_bind, pure_eq_ok]
  rfl

/-- A result that is not negative as an `int`. -/
lemma zero_slt (h : r.toNat < 2 ^ 31) : (0 : Word).slt r = decide (0 < r.toNat) := by
  have hint : r.toInt = r.toNat := BitVec.toInt_eq_toNat_of_lt (by omega)
  rw [BitVec.slt, hint]
  simp

/-- What has been stored in the buffer, when the offset is set. -/
lemma storedAt_setOffset {m : TwoLevel.Store Word} (hb : Buffer s p P len buf l.length)
    (h : Puts s buf l m) :
    StoredAt s { s with client := s.client.setMem (TwoLevel.write m p.page 1 w) } p buf l w.toNat where
  same := rfl
  bytes j hj := by
    rw [← h.bytes j hj]
    apply congrArg fun words => ByteWords.get words _
    funext k
    exact TwoLevel.write_of_ne_page (hb.place hj).1
  frame x hx hj := by
    rw [← h.frame x hj]
    apply congrArg fun words => ByteWords.get words _
    funext k
    exact TwoLevel.write_of_ne_page hx
  pages q hq hj := by
    rw [← h.pages q hj]
    funext k
    exact TwoLevel.write_of_ne_page hq
  fields k hk := by
    show TwoLevel.write m p.page 1 w p.page k = s.client.mem p.page k
    rw [TwoLevel.write_of_ne_slot hk, h.pages p.page fun j hj => (hb.place hj).1]
  offset := congrArg BitVec.toNat (TwoLevel.write_same _ _ _ _)

variable (pipe) in
/-- **`read`** of a file reads from the file of bytes. -/
theorem Reads.read (hr : Reads s D p P f) (hi : i ∈ D) (hb : Buffer s p P f.data.length buf n.toNat)
    (hsum : f.off + n.toNat < 2 ^ 32) :
    ∃ s', s.read pipe (BitVec.ofNat 32 i) buf n =
        .ok (BitVec.ofNat 32 (f.read n.toNat).1.length, s') ∧
      StoredAt s s' p buf (f.read n.toNat).1 (f.read n.toNat).2.off := by
  have ho := hr.opened i hi
  have hsmall := hr.small
  have hoff := hr.offset
  have hsize := hr.size
  set l := (f.data.drop f.off).take n.toNat with hl
  have hlen : l.length = min n.toNat (f.data.length - f.off) := by
    rw [hl, List.length_take, List.length_drop]
  rw [maxfilesize_toNat] at hsmall
  obtain ⟨r, hrl⟩ : ∃ r : Word, r.toNat = l.length :=
    ⟨BitVec.ofNat 32 l.length, by rw [BitVec.toNat_ofNat]; omega⟩
  have hrw : BitVec.ofNat 32 l.length = r := by
    apply BitVec.eq_of_toNat_eq
    rw [BitVec.toNat_ofNat, hrl]
    omega
  have hb' : Buffer s p P f.data.length buf l.length := hb.mono (by omega)
  -- the work of `file_read`
  obtain ⟨m, hwork, hputs⟩ : ∃ m,
      s.devRead pipe .file (index2fd (BitVec.ofNat 32 i)) buf n (s.client.mem p.page 1) =
        .ok (r, { s with client := s.client.setMem m }) ∧ Puts s buf l m := by
    unfold devRead
    simp only [ho.fileRead_eq, ok_bind]
    by_cases hgt : s.client.mem p.page 1 > s.client.fileSize p
    · -- the offset is behind the end
      have hlt := BitVec.lt_def.mp hgt
      have hl0 : l = [] := List.length_eq_zero_iff.mp (by omega)
      have hr0 : r = 0 := BitVec.eq_of_toNat_eq (hrl.trans (by rw [hl0]; rfl))
      rw [if_pos hgt, hr0, hl0]
      exact ⟨s.client.mem, rfl, puts_nil⟩
    · have hle : f.off ≤ f.data.length := by
        rw [gt_iff_lt, BitVec.lt_def] at hgt
        omega
      have hk : (if s.client.mem p.page 1 + n > s.client.fileSize p then
          s.client.fileSize p - s.client.mem p.page 1 else n) = r := by
        have hsub : (s.client.fileSize p - s.client.mem p.page 1).toNat = f.data.length - f.off := by
          rw [BitVec.toNat_sub_of_le (by rw [BitVec.le_def]; omega)]
          omega
        have hadd : (s.client.mem p.page 1 + n).toNat = f.off + n.toNat := by
          rw [BitVec.toNat_add, hoff, Nat.mod_eq_of_lt hsum]
        apply BitVec.eq_of_toNat_eq
        rw [hrl, hlen]
        split_ifs with hgt' <;> rw [gt_iff_lt, BitVec.lt_def, hadd] at hgt' <;> omega
      rw [if_neg hgt, hk]
      have hb1 : Buffer s p P f.data.length buf r.toNat := hb.mono (by omega)
      obtain ⟨m, hcopy, hputs⟩ := hr.memcpy hi (s.client.mem p.page 1) hb1 (by omega)
      have htake : (f.data.drop (s.client.mem p.page 1).toNat).take r.toNat = l := by
        rw [hoff, hrl, hlen, hl, ← List.length_drop, ← List.take_eq_take_min]
      refine ⟨m, ?_, htake ▸ hputs⟩
      simp only [copy, hcopy, ok_bind, pure_eq_ok]
  have hpage := hputs.pages p.page fun j hj => (hb'.place hj).1
  show ∃ s', _ = Except.ok (BitVec.ofNat 32 l.length, s') ∧ StoredAt s s' p buf l (f.off + l.length)
  unfold Program.read
  have hdev : devLookup (s.client.mem p.page 0) = some .file := by
    rw [ho.dev]
    rfl
  rw [transfer_open ho.lt ho.page hdev hr.mode, hwork, ok_bind, hrw]
  simp only [zero_slt (r := r) (by omega), decide_eq_true_eq]
  by_cases h0 : 0 < r.toNat
  · rw [if_pos h0]
    have htot : (m p.page 1 + r).toNat = f.off + l.length := by
      rw [BitVec.toNat_add, hpage, hoff, hrl, Nat.mod_eq_of_lt (by omega)]
    exact ⟨_, transfer_moves ho.lt ho.page hr.writable, htot ▸ storedAt_setOffset hb' hputs⟩
  · rw [if_neg h0]
    have hl0 : l = [] := List.length_eq_zero_iff.mp (by omega)
    refine ⟨_, rfl, rfl, hputs.bytes, fun x _ => hputs.frame x, fun q _ => hputs.pages q, fun k _ => ?_, ?_⟩
    · exact congrFun hpage k
    · show (m p.page 1).toNat = _
      rw [hpage, hoff, hl0]
      rfl

/-! ## `seek` and `readn` -/

/-- **`seek`** moves the place of the next access. -/
theorem Reads.seek (hr : Reads s D p P f) (hi : i ∈ D) :
    ∃ s', s.seek (BitVec.ofNat 32 i) w = .ok (0, s') ∧ StoredAt s s' p 0 [] w.toNat := by
  have ho := hr.opened i hi
  have hstore := store_offset (c := s.client) (w := w) ho.lt ho.page hr.writable
  refine ⟨{ s with client := s.client.setMem (TwoLevel.write s.client.mem p.page 1 w) }, ?_,
    storedAt_setOffset (buffer_zero : Buffer s p P 0 0 0) puts_nil⟩
  unfold Program.seek
  rw [Client.fdLookup_mapped ho.lt ho.page, ok_bind]
  simp only [hstore, ok_bind, pure_eq_ok]

/-- What is stored in two parts. -/
lemma StoredAt.append {s₁ : Program σ} {l' : List (BitVec 8)} {off' : ℕ}
    (h : StoredAt s s₁ p buf l off) (hb : Buffer s p P len buf (l.length + l'.length))
    (h' : StoredAt s₁ s' p (buf + BitVec.ofNat 32 l.length) l' off') :
    StoredAt s s' p buf (l ++ l') off' := by
  have hplace : ∀ j, s₁.client.placeAt (buf + BitVec.ofNat 32 l.length + BitVec.ofNat 32 j) =
      s.client.placeAt (buf + BitVec.ofNat 32 (l.length + j)) := by
    intro j
    rw [h.placeAt, BitVec.ofNat_add, BitVec.add_assoc]
  constructor
  · rw [h'.same, h.same]
    rfl
  · intro j hj
    rw [List.length_append] at hj
    by_cases hlt : j < l.length
    · have hkeep := h'.frame (s.client.placeAt (buf + BitVec.ofNat 32 j)) (hb.place (by omega)).1 ?_
      · rw [hkeep, h.bytes j hlt, List.getD_append _ _ _ _ hlt]
      · intro k hk he
        rw [hplace] at he
        have := hb.inj j (by omega) (l.length + k) (by omega) he
        omega
    · obtain ⟨k, rfl⟩ := Nat.exists_eq_add_of_le (Nat.not_lt.mp hlt)
      rw [← hplace, h'.bytes k (by omega), List.getD_append_right _ _ _ _ (by omega),
        Nat.add_sub_cancel_left]
  · intro x hx hne
    rw [List.length_append] at hne
    rw [h'.frame x hx fun k hk => ?_, h.frame x hx fun j hj => hne j (by omega)]
    rw [hplace]
    exact hne _ (by omega)
  · intro q hq hne
    rw [List.length_append] at hne
    rw [h'.pages q hq fun k hk => ?_, h.pages q hq fun j hj => hne j (by omega)]
    rw [hplace]
    exact hne _ (by omega)
  · intro k hk
    rw [h'.fields k hk, h.fields k hk]
  · exact h'.offset

/-- The rest of a buffer. -/
lemma Buffer.drop {a b : ℕ} (h : Buffer s p P len buf (a + b)) :
    Buffer s p P len (buf + BitVec.ofNat 32 a) b := by
  have haddr : ∀ j, buf + BitVec.ofNat 32 a + BitVec.ofNat 32 j = buf + BitVec.ofNat 32 (a + j) := by
    intro j
    rw [BitVec.ofNat_add, BitVec.add_assoc]
  have hfits := h.fits
  rw [utop_toNat] at hfits
  constructor
  · rw [BitVec.toNat_add, BitVec.toNat_ofNat, utop_toNat]
    omega
  · intro j hj
    rw [haddr]
    exact h.mapped (a + j) (by omega)
  · intro j hj k hk he
    rw [haddr, haddr] at he
    have := h.inj (a + j) (by omega) (a + k) (by omega) he
    omega

variable (pipe) in
/-- **`readn`** of a file reads what `read` does: it stops after a second call that finds the end. -/
theorem Reads.readn (hr : Reads s D p P f) (hi : i ∈ D) (hb : Buffer s p P f.data.length buf n.toNat)
    (hsum : f.off + n.toNat < 2 ^ 32) (fuel : ℕ) :
    ∃ s', s.readn pipe (fuel + 2) (BitVec.ofNat 32 i) buf n =
        .ok (BitVec.ofNat 32 (f.read n.toNat).1.length, s') ∧
      StoredAt s s' p buf (f.read n.toNat).1 (f.read n.toNat).2.off := by
  have hsmall := hr.small
  rw [maxfilesize_toNat] at hsmall
  have hlen : (f.read n.toNat).1.length = min n.toNat (f.data.length - f.off) := by
    show ((f.data.drop f.off).take n.toNat).length = _
    rw [List.length_take, List.length_drop]
  obtain ⟨s₁, hread, hstored⟩ := hr.read pipe hi hb hsum
  obtain ⟨m, hm⟩ : ∃ m : Word, BitVec.ofNat 32 (f.read n.toNat).1.length = m := ⟨_, rfl⟩
  have hmlen : m.toNat = (f.read n.toNat).1.length := by
    rw [← hm, BitVec.toNat_ofNat]
    omega
  have hneg : ∀ {w : Word}, w.toNat < 2 ^ 31 → w.slt 0 = false := by
    intro w hw
    have hint : w.toInt = w.toNat := BitVec.toInt_eq_toNat_of_lt (by omega)
    rw [BitVec.slt, hint]
    simp
  rw [hm] at hread ⊢
  unfold Program.readn
  rw [readnFrom]
  by_cases hn : (0 : Word) < n
  · rw [if_pos hn, show buf + 0 = buf from BitVec.add_zero buf, show n - 0 = n from BitVec.sub_zero n,
      hread, ok_bind]
    simp only [hneg (w := m) (by omega), Bool.false_eq_true, if_false,
      show 0 + m = m from BitVec.zero_add m]
    by_cases hm0 : m = 0
    · -- nothing is left
      rw [if_pos hm0]
      exact ⟨s₁, by rw [hm0]; rfl, hstored⟩
    · rw [if_neg hm0, readnFrom]
      by_cases hend : m < n
      · -- the second call finds the end of the file
        have hlt := BitVec.lt_def.mp hend
        have hsub : (n - m).toNat = n.toNat - m.toNat := BitVec.toNat_sub_of_le (by
          rw [BitVec.le_def]
          omega)
        have hb₁ : Buffer s p P f.data.length buf (m.toNat + (n - m).toNat) := by
          rw [hsub, Nat.add_sub_cancel' hlt.le]
          exact hb
        have hr₁ := hr.of_storedAt (hb.mono (by omega)) hstored
        obtain ⟨s₂, hread₂, hstored₂⟩ := hr₁.read pipe (n := n - m) hi
          (by
            have hdrop := hb₁.drop
            rw [BitVec.ofNat_toNat, BitVec.setWidth_eq] at hdrop
            exact hdrop.congr hstored.map)
          (by
            show f.off + (f.read n.toNat).1.length + (n - m).toNat < 2 ^ 32
            omega)
        have hnil : (ByteFile.read { f with off := (f.read n.toNat).2.off } (n - m).toNat).1 = [] := by
          show (f.data.drop (f.off + (f.read n.toNat).1.length)).take (n - m).toNat = []
          rw [List.drop_eq_nil_of_le (by omega), List.take_nil]
        rw [hnil] at hread₂
        rw [if_pos hend, hread₂, ok_bind]
        have hm' : buf + m = buf + BitVec.ofNat 32 (f.read n.toNat).1.length := by rw [hm]
        rw [hm'] at hstored₂
        rw [hnil] at hstored₂
        have hb' : Buffer s p P f.data.length buf ((f.read n.toNat).1.length + ([] : List (BitVec 8)).length) := by
          rw [List.length_nil, Nat.add_zero]
          exact hb.mono (by omega)
        have happend := hstored.append hb' hstored₂
        rw [List.append_nil] at happend
        refine ⟨s₂, rfl, ?_⟩
        have hoff : (ByteFile.read { f with off := (f.read n.toNat).2.off } (n - m).toNat).2.off =
            (f.read n.toNat).2.off := by
          show (f.read n.toNat).2.off + (ByteFile.read _ _).1.length = _
          rw [hnil]
          rfl
        rw [hoff] at happend
        exact happend
      · rw [if_neg hend]
        exact ⟨s₁, rfl, hstored⟩
  · rw [if_neg hn]
    rw [BitVec.lt_def] at hn
    have hn0 : n.toNat = 0 := Nat.eq_zero_of_not_pos hn
    have hl : (f.read n.toNat).1 = [] := List.length_eq_zero_iff.mp (by omega)
    have hm0 : m = 0 := BitVec.eq_of_toNat_eq (by rw [hmlen, hl]; rfl)
    refine ⟨s, by rw [hm0]; rfl, ?_⟩
    rw [show (f.read n.toNat).2.off = f.off + (f.read n.toNat).1.length from rfl, hl]
    exact ⟨rfl, fun j hj => absurd hj (Nat.not_lt_zero j), fun x _ _ => rfl, fun q _ _ => rfl,
      fun k _ => rfl, hr.offset⟩

end Program

/-! ## Runs -/

/-- A call of a program that reads, with the descriptor. -/
inductive FileOp
  | read (i : ℕ) (buf n : Word)
  | readn (i : ℕ) (buf n : Word)
  | seek (i : ℕ) (offset : Word)

namespace FileOp

/-- The descriptor. -/
def fd : FileOp → ℕ
  | .read i _ _ | .readn i _ _ | .seek i _ => i

/-- The buffer. -/
def addr : FileOp → Word
  | .read _ buf _ | .readn _ buf _ => buf
  | .seek _ _ => 0

/-- The number of bytes that the buffer has. -/
def count : FileOp → ℕ
  | .read _ _ n | .readn _ _ n => n.toNat
  | .seek _ _ => 0

/-- What the call gets from a file of bytes. -/
def on (f : ByteFile) : FileOp → List (BitVec 8) × ByteFile
  | .read _ _ n | .readn _ _ n => f.read n.toNat
  | .seek _ offset => ([], f.seek offset.toNat)

/-- What the calls get from a file of bytes, one after the other. -/
def runOn (f : ByteFile) : List FileOp → List (List (BitVec 8)) × ByteFile
  | [] => ([], f)
  | op :: ops => ((op.on f).1 :: (runOn (op.on f).2 ops).1, (runOn (op.on f).2 ops).2)

/-- No sum of an offset and a number of bytes wraps. -/
def Fits (f : ByteFile) : List FileOp → Prop
  | [] => True
  | op :: ops => f.off + op.count < 2 ^ 32 ∧ Fits (op.on f).2 ops

lemma on_data (f : ByteFile) (op : FileOp) : (op.on f).2.data = f.data := by
  cases op <;> rfl

end FileOp

namespace Program

/-- The bytes from an address on. -/
def bytesAt (s : Program σ) (va : Word) (n : ℕ) : List (BitVec 8) :=
  (List.range n).map fun j => s.client.byteAt (va + BitVec.ofNat 32 j)

/-- A call, and the bytes that are in the buffer then, as many as the result says. -/
def call (pipe : PipeOps σ) (fuel : ℕ) (s : Program σ) : FileOp → Kernel (List (BitVec 8) × Program σ)
  | .read i buf n => do
    let (r, s) ← s.read pipe (BitVec.ofNat 32 i) buf n
    pure (s.bytesAt buf r.toNat, s)
  | .readn i buf n => do
    let (r, s) ← s.readn pipe fuel (BitVec.ofNat 32 i) buf n
    pure (s.bytesAt buf r.toNat, s)
  | .seek i offset => do
    let (_, s) ← s.seek (BitVec.ofNat 32 i) offset
    pure ([], s)

/-- The calls of a program, one after the other. -/
def calls (pipe : PipeOps σ) (fuel : ℕ) (s : Program σ) :
    List FileOp → Kernel (List (List (BitVec 8)) × Program σ)
  | [] => pure ([], s)
  | op :: ops => do
    let (l, s) ← s.call pipe fuel op
    let (ls, s) ← calls pipe fuel s ops
    pure (l :: ls, s)

/-- The bytes of the buffer. -/
lemma StoredAt.bytesAt {m : ℕ} (h : StoredAt s s' p buf l off) (hb : Buffer s p P len buf m)
    (hm : l.length ≤ m) : s'.bytesAt buf l.length = l := by
  unfold Program.bytesAt
  apply List.ext_getElem
  · simp
  · intro j hj hj'
    obtain ⟨q, hq, -⟩ := hb.mapped j (by omega)
    have hbyte := h.bytes j hj'
    rw [Client.placeAt_of_map hq, List.getD_eq_getElem _ _ hj'] at hbyte
    rw [List.getElem_map, List.getElem_range, Client.byteAt_of_map (by rw [h.map, hq])]
    exact hbyte

variable (pipe) in
/-- **One call** gets what it gets from the file of bytes. -/
lemma Reads.call {op : FileOp} (hr : Reads s D p P f) (hi : op.fd ∈ D)
    (hb : Buffer s p P f.data.length op.addr op.count) (hsum : f.off + op.count < 2 ^ 32) (fuel : ℕ) :
    ∃ s', s.call pipe (fuel + 2) op = .ok ((op.on f).1, s') ∧
      StoredAt s s' p op.addr (op.on f).1 (op.on f).2.off ∧ (op.on f).1.length ≤ op.count := by
  have hlen : ∀ n : Word, (f.read n.toNat).1.length ≤ n.toNat := fun n => List.length_take_le _ _
  have hsmall : ∀ n : Word, (BitVec.ofNat 32 (f.read n.toNat).1.length).toNat =
      (f.read n.toNat).1.length := by
    intro n
    rw [BitVec.toNat_ofNat]
    exact Nat.mod_eq_of_lt ((hlen n).trans_lt n.isLt)
  cases op with
  | read i buf n =>
    dsimp only [FileOp.fd, FileOp.addr, FileOp.count] at hi hb hsum
    obtain ⟨s', hread, hstored⟩ := hr.read pipe hi hb hsum
    refine ⟨s', ?_, hstored, hlen n⟩
    rw [Program.call, hread, ok_bind]
    simp only [hsmall, hstored.bytesAt (m := n.toNat) hb (hlen n)]
    rfl
  | readn i buf n =>
    dsimp only [FileOp.fd, FileOp.addr, FileOp.count] at hi hb hsum
    obtain ⟨s', hread, hstored⟩ := hr.readn pipe hi hb hsum fuel
    refine ⟨s', ?_, hstored, hlen n⟩
    rw [Program.call, hread, ok_bind]
    simp only [hsmall, hstored.bytesAt (m := n.toNat) hb (hlen n)]
    rfl
  | seek i offset =>
    dsimp only [FileOp.fd] at hi
    obtain ⟨s', hseek, hstored⟩ := hr.seek (w := offset) hi
    refine ⟨s', ?_, hstored, le_rfl⟩
    rw [Program.call, hseek]
    rfl

variable (pipe) in
/-- **A run** of calls with the descriptors that share a page gets what it gets from one file of bytes,
and changes the buffers and the offset only. -/
theorem Reads.calls_runOn (ops : List FileOp) (hr : Reads s D p P f) (hfits : FileOp.Fits f ops)
    (hops : ∀ op ∈ ops, op.fd ∈ D ∧ Buffer s p P f.data.length op.addr op.count) (fuel : ℕ) :
    ∃ s', s.calls pipe (fuel + 2) ops = .ok ((FileOp.runOn f ops).1, s') ∧
      Reads s' D p P (FileOp.runOn f ops).2 ∧
      s' = { s with client := s.client.setMem s'.client.mem } ∧
      ∀ x : PageBytes.Place, x.1 ≠ p.page → (∀ op ∈ ops, ∀ j < op.count,
        x ≠ s.client.placeAt (op.addr + BitVec.ofNat 32 j)) →
          PageBytes.get s'.client.mem x = PageBytes.get s.client.mem x := by
  induction ops generalizing s f with
  | nil => exact ⟨s, rfl, hr, rfl, fun x _ _ => rfl⟩
  | cons op ops ih =>
    obtain ⟨hi, hb⟩ := hops op List.mem_cons_self
    obtain ⟨s₁, hcall, hstored, hlen⟩ := hr.call pipe hi hb hfits.1 fuel
    have hr₁ := hr.of_storedAt (hb.mono hlen) hstored
    have hon : ({ f with off := (op.on f).2.off } : ByteFile) = (op.on f).2 := by
      rw [← FileOp.on_data f op]
    rw [hon] at hr₁
    obtain ⟨s', hrest, hr', hsame, hframe⟩ := ih hr₁ hfits.2 fun op' hop' => by
      obtain ⟨hi', hb'⟩ := hops op' (List.mem_cons_of_mem op hop')
      rw [FileOp.on_data]
      exact ⟨hi', hb'.congr hstored.map⟩
    refine ⟨s', ?_, hr', ?_, fun x hx hne => ?_⟩
    · rw [Program.calls, hcall, ok_bind]
      simp only [hrest, ok_bind]
      rfl
    · rw [hsame, hstored.same]
      rfl
    · rw [hframe x hx fun op' hop' j hj => ?_, hstored.frame x hx fun j hj => ?_]
      · exact hne op List.mem_cons_self j (hj.trans_le hlen)
      · rw [hstored.placeAt]
        exact hne op' (List.mem_cons_of_mem op hop') j hj

end Program

/-! ## A descriptor and its duplicate -/

/-- A file with the bytes `abc`, open with descriptor 0 and with its duplicate 1, and a page for a
buffer. -/
def sharedFile : Client Unit where
  map := fun n =>
    if n = fdVpn 0 ∨ n = fdVpn 1 then some ⟨7, pteD ||| pteLibrary ||| pteV⟩
    else if n = dataVpn 0 0 ∨ n = dataVpn 1 0 then some ⟨9, pteD ||| pteLibrary ||| pteV⟩
    else if n = 0x400 then some ⟨8, pteD ||| pteV⟩
    else none
  table := fun n => n == 383 || n == 384 || n == 385 || n == 1
  mem := fun q k =>
    if q = 7 ∧ k = 0 then devfileId
    else if q = 7 ∧ k = 36 then 3
    else if q = 9 ∧ k = 0 then 0x636261
    else 0
  grants := fun _ => none
  server := some ()
  tables := fun n hn => by
    split_ifs at hn with h1 h2 h3
    · rcases h1 with rfl | rfl <;> rfl
    · rcases h2 with rfl | rfl <;> rfl
    · rw [h3]
      rfl
    · exact absurd rfl hn

/-- Pipes that are at their end. -/
def noPipes : PipeOps Unit := ⟨fun s _ _ _ _ => pure (0, s), fun s _ _ _ _ => pure (0, s)⟩

/-- The program, and the page of its `struct Filefd`. -/
def sharedProgram : Program Unit := ⟨sharedFile, ⟨[], [], false⟩⟩
def sharedPage : UserPage := ⟨7, pteD ||| pteLibrary ||| pteV⟩

/-- Two descriptors share a file of three bytes. -/
lemma sharedProgram_reads :
    sharedProgram.Reads {i | i < 2} sharedPage (fun _ => 9) ⟨[0x61, 0x62, 0x63], 0⟩ where
  opened i hi := by
    have h : ∀ i < 2, i < maxfd ∧ sharedFile.map (fdVpn i) = some sharedPage ∧
        sharedFile.mem sharedPage.page 0 = devfileId := by decide
    obtain ⟨hlt, hpage, hdev⟩ := h i hi
    exact ⟨hlt, hpage, hdev⟩
  mapped i hi k hk := by
    have hk0 : k = 0 := by
      have hsize : (sharedFile.fileSize sharedPage).toNat = 3 := by decide
      have hk : 4096 * k < (sharedFile.fileSize sharedPage).toNat := hk
      omega
    subst hk0
    have h : ∀ i < 2, dataVpn i 0 < 0x80000 ∧
        sharedFile.map (dataVpn i 0) = some ⟨9, pteD ||| pteLibrary ||| pteV⟩ := by decide
    exact ⟨(h i hi).1, _, by decide, (h i hi).2⟩
  size := by decide
  bytes := by decide
  offset := by decide
  mode := by decide
  writable := by decide
  apart k _ := by decide
  small := by decide

lemma sharedProgram_buffer : sharedProgram.Buffer sharedPage (fun _ => 9) 3 0x400000 2 where
  fits := by decide
  mapped j hj := by
    have h : ∀ j < 2, sharedFile.map (vpn (0x400000 + BitVec.ofNat 32 j)) =
        some ⟨8, pteD ||| pteV⟩ := by decide
    exact ⟨_, h j hj, by decide, by decide, fun k _ => by decide⟩
  inj := by decide

/-- The theorem for three calls: after `seek` with the duplicate, `readn` finds the last two bytes. -/
theorem calls_runOn_sharedProgram : ∃ s',
    sharedProgram.calls noPipes (0 + 2) [.read 0 0x400000 2, .seek 1 1, .readn 1 0x400000 2] =
      .ok ([[0x61, 0x62], [], [0x62, 0x63]], s') ∧
    s'.Reads {i | i < 2} sharedPage (fun _ => 9) ⟨[0x61, 0x62, 0x63], 3⟩ := by
  obtain ⟨s', hcalls, hreads, -⟩ := sharedProgram_reads.calls_runOn noPipes
    [.read 0 0x400000 2, .seek 1 1, .readn 1 0x400000 2]
    ⟨by decide, by decide, by decide, trivial⟩ (fun op hop => by
      rcases List.mem_cons.mp hop with rfl | hop
      · exact ⟨by show 0 < 2; decide, sharedProgram_buffer⟩
      rcases List.mem_cons.mp hop with rfl | hop
      · exact ⟨by show 1 < 2; decide, Program.buffer_zero⟩
      obtain rfl := List.mem_singleton.mp hop
      exact ⟨by show 1 < 2; decide, sharedProgram_buffer⟩) 0
  exact ⟨s', hcalls, hreads⟩

end MosVolca
