import MosVolca.Tools.Layout

/-!
# What the formatter writes

The structure of a file of the host, the blocks with its bytes, and the structures of what is in a
directory. Each function writes to the structure that `create_file` gives and to new blocks only, so
that what is written first stays.

## Main definitions

* `MosVolca.BytesFrom`, `MosVolca.Contains` — a file of the host and a directory of the host in the
  contents of the blocks.
* `MosVolca.HostDir.blocks`, `MosVolca.HostDir.reach` — the blocks for what is in a directory.

## Main results

* `MosVolca.readBlocks_needs` — the blocks of a file.
* `MosVolca.writeEntries_needs` — what is in a directory.
-/

namespace MosVolca

open Bounded Footprint DiskImage

variable {n : ℕ} {s s1 s' : DiskImage} {D D1 D' : ℕ → ℕ → Prop} {c : Blocks} {f g : FilePtr}
  {lo k m i b w e bno : ℕ} {name data : List Char8}

/-! ## The bytes of a file -/

/-- The file has the bytes from its block `k` on. -/
def BytesFrom (c : Blocks) (g : FilePtr) (k : ℕ) (data : List Char8) : Prop :=
  ∀ i < data.length, ∃ b, blockOf c g (k + i / 4096) = some b ∧
    ByteWords.get (c b) (i % 4096) = data.getD i 0

/-- The number of blocks for so many bytes. -/
def dataBlocks (size : ℕ) : ℕ := (size + 4095) / 4096

/-- The blocks for pointers that are handed out when `m` blocks are added after the first `k`. -/
def indexBlocks (k m : ℕ) : ℕ := if k ≤ 10 ∧ 10 < k + m then 1 else 0

lemma indexBlocks_succ (k m : ℕ) : indexBlocks k (m + 1) = indexCost k + indexBlocks (k + 1) m := by
  unfold indexBlocks indexCost
  split_ifs <;> omega

/-- The first block and the other ones. -/
lemma bytesFrom_of_take (h : BytesFrom c g k (data.take 4096))
    (h' : BytesFrom c g (k + 1) (data.drop 4096)) : BytesFrom c g k data := by
  intro i hi
  rcases Nat.lt_or_ge i 4096 with hlt | hge
  · obtain ⟨b, hb, hbyte⟩ := h i (by rw [List.length_take]; omega)
    refine ⟨b, hb, hbyte.trans ?_⟩
    rw [List.getD_eq_getElem?_getD, List.getElem?_take_of_lt hlt, ← List.getD_eq_getElem?_getD]
  · obtain ⟨b, hb, hbyte⟩ := h' (i - 4096) (by rw [List.length_drop]; omega)
    refine ⟨b, ?_, ?_⟩
    · have hblk : k + i / 4096 = k + 1 + (i - 4096) / 4096 := by omega
      rw [hblk]
      exact hb
    · rw [show i % 4096 = (i - 4096) % 4096 by omega, hbyte, List.getD_eq_getElem?_getD,
        List.getElem?_drop, ← List.getD_eq_getElem?_getD, Nat.add_sub_cancel' hge]

/-- **The bytes of a block** rest on its words and on the pointer to it. -/
lemma LinksBlock.bytes (hp : LinksBlock n s lo g k bno s') (hl : Linked s.disk bno lo g k)
    (hlt : bno < s.nextbno) (hlo : lo ≤ bno) (hlen : data.length ≤ 4096)
    (hbytes : ∀ i < data.length, ByteWords.get (s.disk bno) i = data.getD i 0) :
    Rests (Own s' lo g (OpenPointer s'.disk g (k + 1))) (fun c => BytesFrom c g k data) s'.disk := by
  have hbelow := hl.below
  have hnext := hp.next
  have hpoints := (hp.points.own hp.linked (Nat.lt_succ_self k)).rests
  have hown : ∀ w, Own s' lo g (OpenPointer s'.disk g (k + 1)) bno w := by
    intro w
    refine ⟨.inl hlo, by omega, ?_⟩
    rintro (⟨hbg, -⟩ | ⟨hk, hbi, -⟩)
    · omega
    · exact hp.ne_index hl hlt (by omega) hbi
  have hsame : s'.disk bno = s.disk bno := by
    funext w
    refine hp.evolves.same bno w ⟨hlt, ?_⟩
    rintro (⟨hbg, -⟩ | ⟨hk, hbi, -⟩)
    · omega
    · have := (hl.index hk).2
      omega
  intro c hc i hi
  have hword : c bno = s.disk bno := by
    funext w
    rw [hc _ _ (hown w), hsame]
  refine ⟨bno, ?_, ?_⟩
  · rw [show k + i / 4096 = k by omega]
    exact hpoints c hc
  · rw [hword, Nat.mod_eq_of_lt (by omega)]
    exact hbytes i hi

/-- The next block with bytes in it is handed out. -/
def DiskImage.giveBytes (s : DiskImage) (bytes : List Char8) : DiskImage :=
  (s.storeBytes s.nextbno 0 bytes).give .data

lemma giveBytes_disk_of_lt (hb : b < s.nextbno) : (s.giveBytes data).disk b = s.disk b :=
  Function.update_of_ne (by omega) _ _

lemma Sound.giveBytes (h : Sound n s) (hlt : s.nextbno < n) : Sound n (s.giveBytes data) where
  pos := Nat.succ_pos _
  le := hlt
  fresh b w hb := by
    change s.nextbno + 1 ≤ b at hb
    change (Function.update s.disk s.nextbno _) b w = 0
    rw [Function.update_of_ne (by omega), h.fresh b w (by omega)]

/-- The bytes of the block that is handed out. -/
lemma get_giveBytes (hi : i < data.length) :
    ByteWords.get ((s.giveBytes data).disk s.nextbno) i = data.getD i 0 := by
  change ByteWords.get (Function.update s.disk s.nextbno _ s.nextbno) i = _
  rw [Function.update_self, ByteWords.get_put, if_pos (by omega), Nat.sub_zero]

lemma evolves_giveBytes (hD : ∀ b w, Settled s D b w → ¬ D' b w) :
    Evolves s D (s.giveBytes data) D' where
  le := Nat.le_succ _
  same b w hb := by rw [giveBytes_disk_of_lt hb.1]
  settled := hD

/-- What the loop of `write_file` leaves, with `m` blocks after the first `k`. -/
structure ReadsBlocks (n : ℕ) (s : DiskImage) (lo : ℕ) (g : FilePtr) (k m : ℕ) (data : List Char8)
    (s' : DiskImage) : Prop where
  next : s'.nextbno = s.nextbno + m + indexBlocks k m
  sound : Sound n s'
  linked : Linked s'.disk s'.nextbno lo g (k + m)
  evolves : Evolves s (OpenPointer s.disk g k) s' (OpenPointer s'.disk g (k + m))
  rests : Rests (Own s' lo g (OpenPointer s'.disk g (k + m))) (fun c => BytesFrom c g k data) s'.disk

/-- **The loop of `write_file`**: it needs one block more than it hands out. -/
theorem readBlocks_needs (hn : n ≤ 0x40000) (h : Sound n s) (hl : Linked s.disk s.nextbno lo g k)
    (hlo : lo ≤ s.nextbno) (hm : dataBlocks data.length = m) (hk : k + m ≤ 1024) :
    Needs n FormatStop.IsOutside (s.nextbno + m + indexBlocks k m + 1) (ReadsBlocks n s lo g k m data)
      (readBlocks n s g k data) := by
  induction m generalizing s k data with
  | zero =>
    obtain rfl : data = [] := List.length_eq_zero_iff.mp (by unfold dataBlocks at hm; omega)
    have hcost : indexBlocks k 0 = 0 := if_neg (by omega)
    rw [readBlocks, hcost]
    rcases Nat.lt_or_ge s.nextbno n with hlt | hge
    · rw [diskIndex_of_lt hlt]
      exact .ok hlt ⟨by rw [hcost]; rfl, h, hl, Evolves.refl s _,
        fun c hc i hi => absurd hi (Nat.not_lt_zero i)⟩
    · rw [diskIndex_of_le hge]
      exact .short (by omega) ⟨_, rfl⟩
  | succ m ih =>
    have hlen : 0 < data.length := by
      unfold dataBlocks at hm
      omega
    obtain ⟨x, l, rfl⟩ := List.exists_cons_of_length_pos hlen
    have hcost := indexBlocks_succ k m
    rw [readBlocks]
    rcases Nat.lt_or_ge s.nextbno n with hlt | hge
    · have hbelow := hl.below
      have hsg : Sound n (s.giveBytes ((x :: l).take 4096)) := h.giveBytes hlt
      have hind : wordAt (s.giveBytes ((x :: l).take 4096)).disk g.indirect =
          wordAt s.disk g.indirect :=
        congrFun (giveBytes_disk_of_lt (by change g.block < s.nextbno; omega)) _
      have hstep := saveBlockLink_needs hsg (hl.congr hind (Nat.le_succ _)) (hlo.trans (Nat.le_succ _))
        hn hlt h.pos (by omega : k < 1024)
      rw [diskIndex_of_lt hlt]
      simp only [ok_then]
      rw [nextBlock_of_lt (s := s.storeBytes s.nextbno 0 _) hlt]
      have htop : (s.giveBytes ((x :: l).take 4096)).nextbno + indexCost k ≤
          s.nextbno + (m + 1) + indexBlocks k (m + 1) + 1 := by
        rw [hcost]
        change s.nextbno + 1 + indexCost k ≤ _
        omega
      refine hstep.bind_le htop fun _ s1 hp => ?_
      have hnext := hp.next
      change s1.nextbno = s.nextbno + 1 + indexCost k at hnext
      have hdrop : dataBlocks ((x :: l).drop 4096).length = m := by
        rw [List.length_drop]
        unfold dataBlocks at hm ⊢
        omega
      have hrest := ih hp.sound hp.linked (by omega) hdrop (by omega)
      refine (hrest.top_eq (by omega)).imp fun _ s2 hr => ?_
      have hopen : ∀ b w, ¬ OpenPointer s.disk g k b w →
          ¬ OpenPointer (s.giveBytes ((x :: l).take 4096)).disk g k b w := by
        intro b w ho
        unfold OpenPointer at ho ⊢
        rwa [hind]
      have hbytes := hp.bytes (hl.congr hind le_rfl) (Nat.lt_succ_self _) hlo
        (List.length_take_le 4096 (x :: l)) fun i hi => get_giveBytes hi
      have hkm : k + 1 + m = k + (m + 1) := by omega
      have hr2 := hr.next
      refine ⟨by omega, hr.sound, hkm ▸ hr.linked, ?_, ?_⟩
      · have hfirst := (evolves_giveBytes fun b w hb => hopen b w hb.2).trans hp.evolves
        exact hkm ▸ hfirst.trans hr.evolves
      · have hboth := (hr.evolves.rests hbytes).and hr.rests
        rw [hkm] at hboth
        exact hboth.imp fun c hc => bytesFrom_of_take hc.1 hc.2
    · rw [diskIndex_of_le hge]
      exact .short (by omega) ⟨_, rfl⟩

/-! ## One entry more -/

/-- The number of blocks of a directory with `e` entries. -/
def blocksFor (e : ℕ) : ℕ := (e + 15) / 16

/-- The number of entries in the last block of a directory with `e` entries. -/
def usedFor (e : ℕ) : ℕ := e + 16 - 16 * blocksFor e

/-- The blocks that are handed out for entry `e` of a directory. -/
def entryCost (e : ℕ) : ℕ := if e % 16 = 0 then 1 + indexCost (e / 16) else 0

lemma linkCost_eq (e : ℕ) : linkCost (blocksFor e) (usedFor e) = entryCost e := by
  unfold linkCost entryCost usedFor blocksFor
  split_ifs with h1 h2 h2
  · omega
  · rfl
  · rw [show (e + 15) / 16 = e / 16 by omega]
  · omega

/-- The words that change when entries are added to a directory with `e` entries. -/
def OpenFrom (c : Blocks) (f : FilePtr) (e : ℕ) : ℕ → ℕ → Prop :=
  OpenDir c f (blocksFor e) (usedFor e)

/-- Entry `e` of a directory. -/
def EntryAt (c : Blocks) (f : FilePtr) (e : ℕ) (Q : FilePtr → Prop) : Prop :=
  ∃ b, blockOf c f (e / 16) = some b ∧ Q (FilePtr.entry b (e % 16))

lemma EntryAt.imp {P Q : FilePtr → Prop} (h : EntryAt c f e P) (hpq : ∀ g, P g → Q g) :
    EntryAt c f e Q := by
  obtain ⟨b, hb, hp⟩ := h
  exact ⟨b, hb, hpq _ hp⟩

/-- A property of an entry, and another one. -/
lemma EntryAt.and {P Q : FilePtr → Prop} (h : EntryAt c f e P) (h' : EntryAt c f e Q) :
    EntryAt c f e fun g => P g ∧ Q g := by
  obtain ⟨b, hb, hp⟩ := h
  obtain ⟨b', hb', hq⟩ := h'
  obtain rfl := Option.some.inj (hb.symm.trans hb')
  exact ⟨b, hb, hp, hq⟩

/-- The structure `g`, which was empty, is filled. -/
structure FillsEntry (n : ℕ) (s : DiskImage) (g : FilePtr) (cost : ℕ) (Q : Blocks → FilePtr → Prop)
    (s' : DiskImage) : Prop where
  next : s'.nextbno = s.nextbno + cost
  sound : Sound n s'
  same : ∀ b w, b < s.nextbno → ¬ InStruct g b w → s'.disk b w = s.disk b w
  named : s'.nameByte g 0 ≠ 0
  rests : Rests (fun b w => s.nextbno ≤ b ∧ b < s'.nextbno ∨ InStruct g b w) (fun c => Q c g) s'.disk

/-- Entry `e` is added to a directory. -/
structure AddsEntry (n : ℕ) (s : DiskImage) (lo : ℕ) (f : FilePtr) (e cost : ℕ)
    (Q : Blocks → FilePtr → Prop) (s' : DiskImage) : Prop where
  next : s'.nextbno = s.nextbno + entryCost e + cost
  sound : Sound n s'
  dir : DirAt s' lo f (blocksFor (e + 1)) (usedFor (e + 1))
  evolves : Evolves s (OpenFrom s.disk f e) s' (OpenFrom s'.disk f (e + 1))
  rests : Rests (Own s' lo f (OpenFrom s'.disk f (e + 1))) (fun c => EntryAt c f e (Q c)) s'.disk

section Fill

variable {nb u cost : ℕ} {Q : Blocks → FilePtr → Prop} (hd : DirAt s lo f nb u)
  (hb : LastBlock s lo f nb u b) (hpos : 0 < nb) (hu : u < 16)
  (hf : FillsEntry n s (FilePtr.entry b u) cost Q s')

include hf in
/-- The other blocks stay. -/
lemma FillsEntry.other (hib : i ≠ b) (hi : i < s.nextbno) : s'.disk i = s.disk i := by
  funext w
  exact hf.same i w hi fun h => hib h.1

include hd hb hf in
/-- The pointer to the indirect block of the directory stays. -/
lemma FillsEntry.indirect : wordAt s'.disk f.indirect = wordAt s.disk f.indirect := by
  have hbelow := hd.linked.below
  have hge := hb.ge
  have hlt := hb.lt
  exact congrFun (hf.other (by simp only [FilePtr.indirect]; omega)
    (by simp only [FilePtr.indirect]; omega)) _

include hd hb hpos hf in
/-- The pointer to the last block of the directory stays. -/
lemma FillsEntry.pointer : blockOf s'.disk f (nb - 1) = some b := by
  have hbelow := hd.linked.below
  have hge := hb.ge
  have hlt := hb.lt
  refine ((hd.points hb hpos).inter (B := fun i _ => i ≠ b ∧ i < s.nextbno) (fun _ => by omega)
    fun h10 => ⟨⟨(hb.ne (by omega)).symm, (hd.linked.index (by omega)).2⟩, by omega⟩).rests s'.disk ?_
  exact fun i w hi => congrFun (hf.other hi.1.1 hi.1.2) w

include hd hb hpos hu hf in
/-- The block of the last entry is the last of the directory. -/
lemma FillsEntry.lastBlock : LastBlock s' lo f nb (u + 1) b := by
  have hnext := hf.next
  have hlt := hb.lt
  refine ⟨hf.pointer hd hb hpos, hb.ge, by omega, fun h10 => ?_, fun j hj => ?_, fun w hw hw' => ?_⟩
  · rw [hf.indirect hd hb]
    exact hb.ne h10
  · rcases Nat.lt_or_ge j u with hju | hju
    · have hsame : s'.disk b (64 * j) = s.disk b (64 * j) :=
        hf.same b _ hlt fun h => by have := h.2.1; simp only [FilePtr.entry] at this; omega
      have hbyte : s'.nameByte (FilePtr.entry b j) 0 = s.nameByte (FilePtr.entry b j) 0 := by
        simp only [DiskImage.nameByte, ByteWords.get, FilePtr.entry]
        rw [show (4 * (64 * j) + 0) / 4 = 64 * j by omega, hsame]
      rw [hbyte]
      exact hb.used j hju
    · obtain rfl : j = u := by omega
      exact hf.named
  · rw [hf.same b w hlt fun h => by have := h.2.2; simp only [FilePtr.entry] at this; omega]
    exact hb.blank w (by omega) hw'

include hd hb hpos hu hf in
lemma FillsEntry.dirAt : DirAt s' lo f nb (u + 1) := by
  have hnext := hf.next
  have hbelow := hd.linked.below
  have hge := hb.ge
  have hlt := hb.lt
  have hlo := hd.lo_le
  have hnb := hd.nb_lt
  refine ⟨hd.linked.congr (hf.indirect hd hb) (by omega), by omega, ?_, hd.nb_le, by omega, hu,
    fun h0 => absurd h0 hpos.ne', fun _ => ⟨b, hf.lastBlock hd hb hpos hu⟩⟩
  rw [← hd.size]
  exact congrFun (hf.other (by simp only [FilePtr.size]; omega)
    (by simp only [FilePtr.size]; omega)) _

include hd hb hpos hf in
/-- The words that are open in the directory afterwards. -/
lemma FillsEntry.openDir (h : OpenDir s'.disk f nb (u + 1) i w) :
    OpenDir s.disk f nb u i w ∧ (i = b → 64 * (u + 1) ≤ w) := by
  have hbelow := hd.linked.below
  have hge := hb.ge
  unfold OpenDir OpenPointer at h
  rw [hf.indirect hd hb, hf.pointer hd hb hpos] at h
  rcases h with ⟨hi, hw⟩ | (⟨hi, hw⟩ | ⟨h10, hi, hw⟩) | ⟨-, hi, hw⟩
  · exact ⟨.inl ⟨hi, hw⟩, fun hib => by omega⟩
  · exact ⟨.inr (.inl (.inl ⟨hi, hw⟩)), fun hib => by omega⟩
  · exact ⟨.inr (.inl (.inr ⟨h10, hi, hw⟩)), fun hib => absurd (hib.symm.trans hi) (hb.ne h10)⟩
  · obtain rfl := Option.some.inj hi
    exact ⟨.inr (.inr ⟨hpos, hb.eq, by omega⟩), fun _ => hw⟩

include hd hb hpos hf in
/-- The directory has one entry more. -/
lemma FillsEntry.evolves : Evolves s (OpenDir s.disk f nb u) s' (OpenDir s'.disk f nb (u + 1)) where
  le := by
    have := hf.next
    omega
  same i w hs := by
    refine hf.same i w hs.1 fun h => hs.2 (.inr (.inr ⟨hpos, ?_, h.2.1⟩))
    rw [hb.eq, h.1]
    rfl
  settled i w hs ho := hs.2 (hf.openDir hd hb hpos ho).1

include hd hb hpos hu hf in
/-- **The structure that was filled** belongs to the directory. -/
lemma FillsEntry.entry : Rests (Own s' lo f (OpenDir s'.disk f nb (u + 1)))
    (fun c => ∃ b, blockOf c f (nb - 1) = some b ∧ Q c (FilePtr.entry b u)) s'.disk := by
  have hnext := hf.next
  have hbelow := hd.linked.below
  have hge := hb.ge
  have hlt := hb.lt
  have hlo := hd.lo_le
  have hd' := hf.dirAt hd hb hpos hu
  have hpoint := ((hd'.points (hf.lastBlock hd hb hpos hu) hpos).own hd'.linked (by omega)).rests
  have hq := hf.rests.mono (B := Own s' lo f (OpenDir s'.disk f nb (u + 1))) ?_
  · exact (hpoint.and hq).imp fun c hc => ⟨b, hc⟩
  · rintro i w (⟨hi, hi'⟩ | ⟨hi, hw, hw'⟩)
    · refine ⟨.inl (by omega), hi', fun ho => ?_⟩
      rcases (hf.openDir hd hb hpos ho).1 with ⟨hif, -⟩ | (⟨hif, -⟩ | ⟨h10, hii, -⟩) | ⟨-, hib, -⟩
      · omega
      · omega
      · have := (hd.linked.index h10).2
        omega
      · obtain rfl := Option.some.inj (hib.symm.trans hb.eq)
        omega
    · simp only [FilePtr.entry] at hi hw'
      refine ⟨.inl (by omega), by omega, fun ho => ?_⟩
      have := (hf.openDir hd hb hpos ho).2 hi
      omega

end Fill

/-- **An entry is added** by `create_file` and by what fills the structure. -/
lemma NewEntry.adds {nb u cost : ℕ} {Q : Blocks → FilePtr → Prop}
    (h : NewEntry n s lo f (blocksFor e) (usedFor e) nb u b s1)
    (hf : FillsEntry n s1 (FilePtr.entry b u) cost Q s') : AddsEntry n s lo f e cost Q s' := by
  have hcount := h.count
  have hroom := h.room
  have hnext := h.next
  have hnext' := hf.next
  rw [linkCost_eq] at hnext
  have hnb : nb = blocksFor (e + 1) := by
    unfold usedFor blocksFor at hcount
    unfold blocksFor
    omega
  have hu : u + 1 = usedFor (e + 1) := by
    unfold usedFor blocksFor at hcount ⊢
    omega
  have hdiv : nb - 1 = e / 16 := by
    unfold usedFor blocksFor at hcount
    omega
  have hmod : u = e % 16 := by
    unfold usedFor blocksFor at hcount
    omega
  refine ⟨by omega, hf.sound, ?_, ?_, ?_⟩
  · rw [← hnb, ← hu]
    exact hf.dirAt h.dir h.last h.pos h.room
  · unfold OpenFrom
    rw [← hnb, ← hu]
    exact h.evolves.trans (hf.evolves h.dir h.last h.pos)
  · unfold OpenFrom EntryAt
    rw [← hnb, ← hu, ← hdiv, ← hmod]
    exact hf.entry h.dir h.last h.pos h.room

/-! ## The head of a structure -/

/-- The name and the type of a structure. -/
structure NameAt (c : Blocks) (g : FilePtr) (name : List Char8) (type : Word) : Prop where
  hasName : HasName c g name
  short : name.length < maxnamelen
  type : wordAt c g.type = type

lemma nameAt_eq_get (c : Blocks) (g : FilePtr) (k : ℕ) :
    nameAt c g k = ByteWords.get (c g.block) (4 * g.word + k) := by
  unfold nameAt ByteWords.get
  rw [show (4 * g.word + k) / 4 = g.word + k / 4 by omega,
    show (4 * g.word + k) % 4 = k % 4 by omega]

/-- The name and the type rest on the first words. -/
lemma NameAt.rests {type : Word} (h : NameAt c g name type) :
    Rests (fun i w => i = g.block ∧ g.word ≤ w ∧ w < g.word + 34 ∧ w ≠ g.word + 32)
      (fun c => NameAt c g name type) c := by
  obtain ⟨hname, hshort, htype⟩ := h
  have hlen : name.length < 128 := hshort
  intro c' hc
  refine ⟨fun k hk => ?_, hshort, ?_⟩
  · rw [← hname k hk]
    unfold nameAt
    rw [hc _ _ ⟨rfl, by omega, by omega, by omega⟩]
  · rw [← htype]
    exact hc _ _ ⟨rfl, by simp only [FilePtr.type]; omega, by simp only [FilePtr.type]; omega,
      by simp only [FilePtr.type]; omega⟩

/-- The structure `g`, which was empty, has its name and its type. -/
structure Headed (s : DiskImage) (g : FilePtr) (name : List Char8) (type : Word) (s' : DiskImage) :
    Prop where
  same : ∀ i w, i < s.nextbno → ¬ InStruct g i w → s'.disk i w = s.disk i w
  indirect : wordAt s'.disk g.indirect = 0
  named : s'.nameByte g 0 ≠ 0
  head : name.length < maxnamelen → NameAt s'.disk g name type

/-- What comes after the head does not change it. -/
lemma Headed.fills {type : Word} {cost : ℕ} {P : Blocks → FilePtr → Prop}
    (hh : Headed s g name type s1) (hg : g.block < s.nextbno)
    (hsame : ∀ i w, i < s.nextbno → ¬ OpenDir s1.disk g 0 16 i w → s'.disk i w = s1.disk i w)
    (hnext : s'.nextbno = s.nextbno + cost) (hs : Sound n s')
    (hp : Rests (fun b w => s.nextbno ≤ b ∧ b < s'.nextbno ∨ InStruct g b w) (fun c => P c g) s'.disk) :
    FillsEntry n s g cost
      (fun c g => (name.length < maxnamelen → NameAt c g name type) ∧ P c g) s' := by
  have hopen : ∀ i w, OpenDir s1.disk g 0 16 i w → InStruct g i w ∧
      (w = g.word + 32 ∨ g.word + 34 ≤ w) := by
    rintro i w (⟨hi, hw⟩ | (⟨hi, hw⟩ | ⟨h10, -⟩) | ⟨h0, -⟩)
    · exact ⟨⟨hi, by omega, by omega⟩, .inl hw⟩
    · exact ⟨⟨hi, by omega, by omega⟩, .inr (by omega)⟩
    · omega
    · omega
  have hword : ∀ w, g.word ≤ w → w < g.word + 34 → w ≠ g.word + 32 →
      s'.disk g.block w = s1.disk g.block w := by
    intro w _ hw' hne
    refine hsame _ _ hg fun ho => ?_
    have := (hopen _ _ ho).2
    omega
  refine ⟨hnext, hs, fun i w hi hin => ?_, ?_, Rests.and ?_ hp⟩
  · rw [hsame i w hi fun ho => hin (hopen i w ho).1, hh.same i w hi hin]
  · have hbyte : s'.nameByte g 0 = s1.nameByte g 0 := by
      simp only [DiskImage.nameByte, ByteWords.get]
      rw [hword _ (by omega) (by omega) (by omega)]
    rw [hbyte]
    exact hh.named
  · intro c hc hshort
    refine (hh.head hshort).rests c fun i w hw => ?_
    obtain ⟨rfl, hw1, hw2, hw3⟩ := hw
    rw [hc _ _ (.inr ⟨rfl, hw1, by omega⟩), hword w hw1 hw2 hw3]

lemma storeBytes_disk_of_ne {l : List Char8} (h : i ≠ b) :
    (s.storeBytes b k l).disk i = s.disk i := Function.update_of_ne h _ _

lemma storeBytes_disk_congr {l : List Char8} (h : s'.disk i = s.disk i) :
    (s'.storeBytes b k l).disk i = (s.storeBytes b k l).disk i := by
  by_cases hib : i = b
  · subst hib
    change Function.update s'.disk i _ i = Function.update s.disk i _ i
    rw [Function.update_self, Function.update_self, h]
  · rw [storeBytes_disk_of_ne hib, storeBytes_disk_of_ne hib, h]

/-- The words that the bytes are not in stay. -/
lemma storeBytes_disk_of_disjoint {l : List Char8}
    (h : i ≠ b ∨ 4 * w + 4 ≤ k ∨ k + l.length ≤ 4 * w) :
    (s.storeBytes b k l).disk i w = s.disk i w := by
  by_cases hib : i = b
  · subst hib
    change Function.update s.disk i _ i w = _
    rw [Function.update_self, ByteWords.put_of_disjoint (h.resolve_left fun hne => hne rfl)]
  · rw [storeBytes_disk_of_ne hib]

/-- The bytes in a structure that was empty. -/
lemma get_storeBytes {l : List Char8} (hzero : s.disk b ((k + i) / 4) = 0) :
    ByteWords.get ((s.storeBytes b k l).disk b) (k + i) = l.getD i 0 := by
  change ByteWords.get (Function.update s.disk b _ b) (k + i) = _
  rw [Function.update_self, ByteWords.get_put]
  split_ifs with h
  · rw [Nat.add_sub_cancel_left]
  · rw [List.getD_eq_default _ _ (by omega), ByteWords.get, hzero]
    simp

/-- The bytes of the name, and after them the size and the type. -/
lemma headed_of_storeBytes {l : List Char8} {type : Word}
    (hg : g.block < s.nextbno) (hzero : ∀ w, g.word ≤ w → w < g.word + 64 → s.disk g.block w = 0)
    (hlen : l.length ≤ 176) (h0 : l.getD 0 0 ≠ 0)
    (hname : name.length < 128 → ∀ k ≤ name.length, l.getD k 0 = name.getD k 0)
    (hsame : ∀ i w, i < s.nextbno → ¬ (i = g.block ∧ (w = g.word + 32 ∨ w = g.word + 33)) →
      s'.disk i w = (s.storeBytes g.block (4 * g.word) l).disk i w)
    (htype : wordAt s'.disk g.type = type) : Headed s g name type s' := by
  have hbyte : ∀ k < 128, ByteWords.get (s'.disk g.block) (4 * g.word + k) = l.getD k 0 := by
    intro k hk
    have hword : s'.disk g.block ((4 * g.word + k) / 4) =
        (s.storeBytes g.block (4 * g.word) l).disk g.block ((4 * g.word + k) / 4) :=
      hsame _ _ hg fun h => by omega
    rw [ByteWords.get, hword]
    exact get_storeBytes (hzero _ (by omega) (by omega))
  refine ⟨fun i w hi hin => ?_, ?_, ?_, fun hshort => ⟨fun k hk => ?_, hshort, htype⟩⟩
  · rw [hsame i w hi fun h => hin ⟨h.1, by omega, by omega⟩, storeBytes_disk_of_disjoint]
    by_contra hne
    push Not at hne
    exact hin ⟨hne.1, by omega, by omega⟩
  · have hind := hsame g.block (g.word + 44) hg fun h => by omega
    have hold : s.disk g.block (g.word + 44) = 0 := hzero _ (by omega) (by omega)
    exact hind.trans ((storeBytes_disk_of_disjoint (.inr (.inr (by omega)))).trans hold)
  · exact (hbyte 0 (by decide)).trans_ne h0
  · have hlt : name.length < 128 := hshort
    rw [nameAt_eq_get, hbyte k (by omega), hname hlt k (by omega)]

/-- Bytes in a block that has been handed out. -/
lemma Sound.storeBytes {l : List Char8} (h : Sound n s) (hb : b < s.nextbno) :
    Sound n (s.storeBytes b k l) where
  pos := h.pos
  le := h.le
  fresh i w hi := by
    change s.nextbno ≤ i at hi
    rw [storeBytes_disk_of_ne (by omega), h.fresh i w hi]

/-- A name that `strcpy` copies without reaching the pointer to the indirect block. -/
def IsMild (name : List Char8) : Prop := name.getD 0 0 ≠ 0 ∧ name.length < 176

lemma getD_append_zero (l : List Char8) (k : ℕ) : (l ++ [0]).getD k 0 = l.getD k 0 := by
  rcases Nat.lt_or_ge k l.length with h | h
  · rw [List.getD_append _ _ _ _ h]
  · rw [List.getD_append_right _ _ _ _ h, List.getD_eq_default _ _ h]
    cases k - l.length <;> rfl

/-- The state after name, size and type are written. -/
def DiskImage.withHead (s : DiskImage) (g : FilePtr) (name : List Char8) (size type : Word) :
    DiskImage := ((s.strcpy g name).store g.size size).store g.type type

section Head

variable {size type : Word} {nb u : ℕ}

@[simp] lemma withHead_nextbno : (s.withHead g name size type).nextbno = s.nextbno := rfl

lemma withHead_disk (h : ¬ (i = g.block ∧ (w = g.word + 32 ∨ w = g.word + 33))) :
    (s.withHead g name size type).disk i w =
      (s.storeBytes g.block (4 * g.word) (name ++ [0])).disk i w := by
  unfold withHead
  rw [store_disk_of_ne (by simp only [FilePtr.type]; omega),
    store_disk_of_ne (by simp only [FilePtr.size]; omega)]
  rfl

lemma withHead_disk_of_ne (h : i ≠ g.block) : (s.withHead g name size type).disk i = s.disk i := by
  funext w
  rw [withHead_disk fun hi => h hi.1, storeBytes_disk_of_ne h]

lemma withHead_type : wordAt (s.withHead g name size type).disk g.type = type := wordAt_store _ _ _

lemma withHead_size : wordAt (s.withHead g name size type).disk g.size = size := by
  unfold withHead
  rw [wordAt_store_of_ne, wordAt_store]
  intro he
  have := congrArg WordPtr.word he
  simp only [FilePtr.size, FilePtr.type] at this
  omega

lemma Sound.withHead (h : Sound n s) (hg : g.block < s.nextbno) :
    Sound n (s.withHead g name size type) :=
  ((h.storeBytes hg).store hg).store hg

/-- The new entry is empty. -/
lemma NewEntry.zero (h : NewEntry n s lo f nb u k i b s1) :
    ∀ w, (FilePtr.entry b i).word ≤ w → w < (FilePtr.entry b i).word + 64 →
      s1.disk (FilePtr.entry b i).block w = 0 := by
  intro w hw hw'
  have := h.room
  simp only [FilePtr.entry] at hw hw' ⊢
  exact h.last.blank w hw (by omega)

/-- The head of a new entry for a file or for a link. -/
lemma headed_strcpy (hg : g.block < s.nextbno)
    (hzero : ∀ w, g.word ≤ w → w < g.word + 64 → s.disk g.block w = 0) (hname : IsMild name)
    (hsame : ∀ i w, i < s.nextbno → ¬ (i = g.block ∧ (w = g.word + 32 ∨ w = g.word + 33)) →
      s'.disk i w = (s.storeBytes g.block (4 * g.word) (name ++ [0])).disk i w)
    (htype : wordAt s'.disk g.type = type) : Headed s g name type s' := by
  refine headed_of_storeBytes hg hzero ?_ ?_ (fun _ k _ => getD_append_zero name k) hsame htype
  · rw [List.length_append]
    have := hname.2
    simp only [List.length_cons, List.length_nil]
    omega
  · rw [getD_append_zero]
    exact hname.1

end Head

/-! ## Files and links -/

/-- The size and the bytes of a file. -/
def HasData (c : Blocks) (g : FilePtr) (data : List Char8) : Prop :=
  wordAt c g.size = BitVec.ofNat 32 data.length ∧ BytesFrom c g 0 data

/-- The name, the type, the size and the bytes, if the name is not too long. -/
def DataAt (name data : List Char8) (type : Word) (c : Blocks) (g : FilePtr) : Prop :=
  (name.length < maxnamelen → NameAt c g name type) ∧ HasData c g data

lemma Own.new (h : Own s lo g D b w) : lo ≤ b ∧ b < s.nextbno ∨ InStruct g b w :=
  h.1.imp_left fun hlo => ⟨hlo, h.2.1⟩

/-- The head and the blocks of a file or of a link. -/
lemma Headed.fills_data {type : Word} {cost : ℕ} (hh : Headed s g name type s1)
    (hg : g.block < s.nextbno) (hle : s.nextbno ≤ s1.nextbno)
    (hsize : wordAt s1.disk g.size = BitVec.ofNat 32 data.length)
    (hev : Evolves s1 (OpenPointer s1.disk g 0) s' D') (hnext : s'.nextbno = s.nextbno + cost)
    (hs : Sound n s')
    (hbytes : Rests (Own s' s.nextbno g D') (fun c => BytesFrom c g 0 data) s'.disk) :
    FillsEntry n s g cost (DataAt name data type) s' := by
  refine hh.fills hg (fun i w hi ho => ?_) hnext hs
    (Rests.and ?_ (hbytes.mono fun _ _ hw => hw.new))
  · exact hev.same i w ⟨hi.trans_le hle, fun ho' => ho (.inr (.inl ho'))⟩
  · have hkeep : wordAt s'.disk g.size = wordAt s1.disk g.size := by
      refine hev.same _ _ ⟨hg.trans_le hle, ?_⟩
      rintro (⟨-, hw⟩ | ⟨h10, -⟩)
      · simp only [FilePtr.size] at hw
        omega
      · omega
    intro c hc
    rw [← hsize, ← hkeep]
    exact hc _ _ (.inr ⟨rfl, by simp only [FilePtr.size]; omega, by simp only [FilePtr.size]; omega⟩)

section Entry

variable (hn : n ≤ 0x40000) (h : Sound n s) (hd : DirAt s lo f (blocksFor e) (usedFor e))
  (hnb : usedFor e = 16 → s.nextbno < n → blocksFor e < 1024)

include hn h hd hnb in
lemma createFile_needs' : Needs n FormatStop.IsOutside (s.nextbno + entryCost e)
    (fun r => ∃ nb u b, r.1 = FilePtr.entry b u ∧
      NewEntry n s lo f (blocksFor e) (usedFor e) nb u b r.2) (createFile n s f) :=
  (createFile_needs h hd hn hnb).top_eq (by rw [linkCost_eq])

include hn h hd hnb in
/-- **`write_file`.** -/
theorem writeFile_needs (hname : IsMild name) (hm : dataBlocks data.length = m) (hm1 : m ≤ 1024) :
    Needs n FormatStop.IsOutside (s.nextbno + entryCost e + (m + indexBlocks 0 m) + 1)
      (AddsEntry n s lo f e (m + indexBlocks 0 m) (DataAt name data ftypeReg))
      (writeFile n s f name data) := by
  unfold writeFile
  refine (createFile_needs' hn h hd hnb).bind_le (by omega) ?_
  rintro - ⟨g, s1⟩ ⟨nb, u, b, hg, hnew⟩
  dsimp only at hg hnew
  subst hg
  have hlt : (FilePtr.entry b u).block < s1.nextbno := hnew.last.lt
  have hnext := hnew.next
  rw [linkCost_eq] at hnext
  change Needs n _ _ _ (readBlocks n (s1.withHead (FilePtr.entry b u) name (BitVec.ofNat 32 data.length)
    ftypeReg) (FilePtr.entry b u) 0 data)
  obtain ⟨s2, hs2⟩ : ∃ s2, s1.withHead (FilePtr.entry b u) name (BitVec.ofNat 32 data.length)
    ftypeReg = s2 := ⟨_, rfl⟩
  have hnext2 : s2.nextbno = s1.nextbno := by rw [← hs2, withHead_nextbno]
  have hhead : Headed s1 (FilePtr.entry b u) name ftypeReg s2 :=
    headed_strcpy hlt hnew.zero hname (fun i w _ hi => hs2 ▸ withHead_disk hi) (hs2 ▸ withHead_type)
  have hlinked : Linked s2.disk s2.nextbno s1.nextbno (FilePtr.entry b u) 0 :=
    ⟨hlt, fun _ => hhead.indirect, fun h10 => absurd h10 (by decide)⟩
  have hread := readBlocks_needs hn (hs2 ▸ hnew.sound.withHead hlt) hlinked hnext2.ge hm (by omega)
  rw [hs2]
  refine (hread.top_eq (by omega)).imp fun _ s3 hr => hnew.adds ?_
  have hnext3 := hr.next
  exact hhead.fills_data hlt hnext2.ge (hs2 ▸ withHead_size) hr.evolves (by omega) hr.sound hr.rests

include hn h hd hnb in
/-- **`write_symlink`**: what is behind the target in its block is zero. -/
theorem writeSymlink_adds (hname : IsMild name) (hlen : data.length ≤ 4096) :
    Needs n FormatStop.IsOutside (s.nextbno + entryCost e + 1)
      (AddsEntry n s lo f e 1 fun c g => DataAt name data ftypeLnk c g ∧
        BytesFrom c g 0 ((data ++ [0]).take 4096)) (writeSymlink n s f name data) := by
  unfold writeSymlink
  refine (createFile_needs' hn h hd hnb).bind_le (by omega) ?_
  rintro - ⟨g, s1⟩ ⟨nb, u, b, hg, hnew⟩
  dsimp only at hg hnew
  subst hg
  have hlt : (FilePtr.entry b u).block < s1.nextbno := hnew.last.lt
  have hnext := hnew.next
  rw [linkCost_eq] at hnext
  simp only [List.take_of_length_le hlen]
  rcases Nat.lt_or_ge s1.nextbno n with hroom | hroom
  · rw [diskIndex_of_lt hroom]
    obtain ⟨sb, hsb⟩ : ∃ sb, s1.storeBytes s1.nextbno 0 data = sb := ⟨_, rfl⟩
    obtain ⟨s2, hs2⟩ : ∃ s2, sb.withHead (FilePtr.entry b u) name (BitVec.ofNat 32 data.length)
      ftypeLnk = s2 := ⟨_, rfl⟩
    have hnextb : sb.nextbno = s1.nextbno := by rw [← hsb]; rfl
    have hnext2 : s2.nextbno = s1.nextbno := by rw [← hs2, withHead_nextbno, hnextb]
    have hold : ∀ i, i ≠ s1.nextbno → sb.disk i = s1.disk i := fun i hi => by
      rw [← hsb, storeBytes_disk_of_ne hi]
    have hhead : Headed s1 (FilePtr.entry b u) name ftypeLnk (s2.give .data) := by
      refine headed_strcpy hlt hnew.zero hname (fun i w hi hw => ?_) (hs2 ▸ withHead_type)
      rw [give_disk, ← hs2, withHead_disk hw, storeBytes_disk_congr (hold i (by omega))]
    have hsound : Sound n (s2.give .data) := by
      refine ⟨Nat.succ_pos _, hnext2.trans_lt hroom, fun i w hi => ?_⟩
      rw [give_nextbno] at hi
      rw [give_disk, ← hs2, withHead_disk_of_ne (by omega), hold i (by omega),
        hnew.sound.fresh i w (by omega)]
    have hlinked : Linked (s2.give .data).disk s1.nextbno s1.nextbno (FilePtr.entry b u) 0 :=
      ⟨hlt, fun _ => hhead.indirect, fun h10 => absurd h10 (by decide)⟩
    have hbytes : ∀ i, ByteWords.get ((s2.give .data).disk s1.nextbno) i = data.getD i 0 := by
      intro i
      have hget := get_storeBytes (s := s1) (b := s1.nextbno) (k := 0) (i := i) (l := data)
        (hnew.sound.fresh _ _ le_rfl)
      rwa [Nat.zero_add, hsb, ← withHead_disk_of_ne (s := sb) hlt.ne', hs2] at hget
    have hsave := saveBlockLink_needs hsound (hlinked.congr rfl (by rw [give_nextbno]; omega))
      (by rw [give_nextbno]; omega) hn hroom hnew.sound.pos (by decide : 0 < 1024)
    change Needs n _ _ _ (nextBlock n ((s1.storeBytes s1.nextbno 0 data).withHead (FilePtr.entry b u)
      name (BitVec.ofNat 32 data.length) ftypeLnk) .data >>= fun r =>
      saveBlockLink n r.2 (FilePtr.entry b u) 0 r.1)
    rw [hsb, hs2, nextBlock_of_lt (hnext2.trans_lt hroom), ok_then]
    rw [hnext2]
    have hcost : indexCost 0 = 0 := rfl
    refine (hsave.top_eq (by rw [hcost, give_nextbno]; omega)).imp fun _ s3 hp => hnew.adds ?_
    have hnext3 := hp.next
    rw [hcost, give_nextbno] at hnext3
    have hgive : s1.nextbno < (s2.give .data).nextbno := by
      rw [give_nextbno]
      omega
    have hfills : FillsEntry n s1 (FilePtr.entry b u) 1 (DataAt name data ftypeLnk) s3 :=
      hhead.fills_data hlt hgive.le (hs2 ▸ withHead_size) hp.evolves (by omega) hp.sound
        (hp.bytes hlinked hgive le_rfl hlen fun i _ => hbytes i)
    have hend := hp.bytes hlinked hgive le_rfl (List.length_take_le 4096 (data ++ [0])) fun i hi => by
      rw [hbytes i, List.getD_eq_getElem?_getD, List.getD_eq_getElem?_getD,
        List.getElem?_take_of_lt (lt_of_lt_of_le hi (List.length_take_le _ _)),
        ← List.getD_eq_getElem?_getD, ← List.getD_eq_getElem?_getD, getD_append_zero]
    exact { hfills with rests := hfills.rests.and (hend.mono fun _ _ ho => ho.new) }
  · rw [diskIndex_of_le hroom]
    exact .short (by omega) ⟨_, rfl⟩

include hn h hd hnb in
/-- The entry of a link. -/
theorem writeSymlink_needs (hname : IsMild name) (hlen : data.length ≤ 4096) :
    Needs n FormatStop.IsOutside (s.nextbno + entryCost e + 1)
      (AddsEntry n s lo f e 1 (DataAt name data ftypeLnk)) (writeSymlink n s f name data) :=
  (writeSymlink_adds hn h hd hnb hname hlen).imp fun _ _ ha =>
    { ha with rests := ha.rests.imp fun _ hc => hc.imp fun _ hg => hg.1 }

/-- The bytes of a name that `strncpy` writes. -/
lemma getD_take_replicate (l : List Char8) (m k : ℕ) :
    ((l ++ List.replicate m 0).take m).getD k 0 = if k < m then l.getD k 0 else 0 := by
  split_ifs with h
  · rw [List.getD_eq_getElem?_getD, List.getElem?_take_of_lt h, ← List.getD_eq_getElem?_getD]
    rcases Nat.lt_or_ge k l.length with hk | hk
    · rw [List.getD_append _ _ _ _ hk]
    · rw [List.getD_append_right _ _ _ _ hk, List.getD_eq_default _ _ hk,
        List.getD_replicate _ (by omega)]
  · exact List.getD_eq_default _ _ (by rw [List.length_take]; omega)

/-- A directory without entries. -/
structure MakesDirectory (n : ℕ) (s : DiskImage) (lo : ℕ) (f : FilePtr) (e nb u b : ℕ)
    (name : List Char8) (s1 s' : DiskImage) : Prop where
  new : NewEntry n s lo f (blocksFor e) (usedFor e) nb u b s1
  next : s'.nextbno = s1.nextbno
  sound : Sound n s'
  head : Headed s1 (FilePtr.entry b u) name ftypeDir s'
  dir : DirAt s' s1.nextbno (FilePtr.entry b u) (blocksFor 0) (usedFor 0)

include hn h hd hnb in
/-- `write_directory` before the entries. -/
theorem makeDirectory_needs (hname : name.getD 0 0 ≠ 0) :
    Needs n FormatStop.IsOutside (s.nextbno + entryCost e)
      (fun r => ∃ nb u b s1, r.1 = FilePtr.entry b u ∧ MakesDirectory n s lo f e nb u b name s1 r.2)
      (makeDirectory n s f name) := by
  unfold makeDirectory
  refine (createFile_needs' hn h hd hnb).bind_le le_rfl ?_
  rintro htop ⟨g, s1⟩ ⟨nb, u, b, hg, hnew⟩
  dsimp only at hg hnew
  subst hg
  have hlt : (FilePtr.entry b u).block < s1.nextbno := hnew.last.lt
  obtain ⟨l, hl⟩ : ∃ l, (name ++ List.replicate 127 0).take 127 = l := ⟨_, rfl⟩
  have hget : ∀ k, l.getD k 0 = if k < 127 then name.getD k 0 else 0 := fun k => by
    rw [← hl, getD_take_replicate]
  have hlen : l.length = 127 := by
    rw [← hl, List.length_take, List.length_append, List.length_replicate]
    omega
  obtain ⟨s2, hs2⟩ : ∃ s2, s1.storeBytes b (4 * (64 * u)) l = s2 := ⟨_, rfl⟩
  have hcopy : s1.strncpy (FilePtr.entry b u) name (maxnamelen - 1) = s2 := by
    rw [← hs2, ← hl]
    rfl
  have hend : s2.nameByte (FilePtr.entry b u) (maxnamelen - 1) = 0 := by
    have hbyte := get_storeBytes (s := s1) (b := b) (k := 4 * (64 * u)) (i := 127) (l := l)
      (hnew.zero _ (by simp only [FilePtr.entry]; omega) (by simp only [FilePtr.entry]; omega))
    rw [hs2, hget, if_neg (by decide)] at hbyte
    exact hbyte
  simp only [hcopy, hend, ne_eq, not_true_eq_false, if_false]
  obtain ⟨s3, hs3⟩ : ∃ s3, s2.store (FilePtr.entry b u).type ftypeDir = s3 := ⟨_, rfl⟩
  have hkeep : ∀ i w, ¬ (i = b ∧ w = 64 * u + 33) → s3.disk i w = s2.disk i w := by
    intro i w hi
    rw [← hs3, store_disk_of_ne fun he => hi he]
  rw [hs3]
  have hnext : s3.nextbno = s1.nextbno := by
    rw [← hs3, ← hs2]
    rfl
  have hsound : Sound n s3 := by
    rw [← hs3, ← hs2]
    exact (hnew.sound.storeBytes hlt).store hlt
  have hhead : Headed s1 (FilePtr.entry b u) name ftypeDir s3 := by
    refine headed_of_storeBytes hlt hnew.zero (l := l) (by omega) ?_ (fun hshort k hk => ?_)
      (fun i w _ hi => ?_) ?_
    · rwa [hget, if_pos (by decide)]
    · rw [hget]
      split_ifs with hk127
      · rfl
      · exact (List.getD_eq_default _ _ (by omega)).symm
    · rw [hkeep i w fun he => hi ⟨he.1, .inr he.2⟩, ← hs2]
      rfl
    · rw [← hs3, wordAt_store]
  have hsize : wordAt s3.disk (FilePtr.entry b u).size = 0 := by
    refine (hkeep b (64 * u + 32) fun he => by omega).trans ?_
    rw [← hs2, storeBytes_disk_of_disjoint (.inr (.inr (by omega)))]
    exact hnew.zero (64 * u + 32) (by simp only [FilePtr.entry]; omega)
      (by simp only [FilePtr.entry]; omega)
  have hpos := hnew.sound.pos
  exact .ok htop ⟨nb, u, b, s1, rfl, hnew, hnext, hsound, hhead,
    ⟨hlt, fun _ => hhead.indirect, fun h10 => absurd h10 (by decide)⟩, hnext.ge, hsize, by decide,
    by rw [hnext]; exact hpos, by decide, fun _ => rfl, fun h0 => absurd h0 (by decide)⟩

end Entry

/-! ## What is in a directory -/

namespace HostDir

/-- The number of entries. -/
def count : HostDir → ℕ
  | .nil => 0
  | .file _ _ rest | .link _ _ rest | .dir _ _ rest => rest.count + 1

/-- The blocks that are handed out for a file of the size. -/
def fileCost (size : ℕ) : ℕ := dataBlocks size + indexBlocks 0 (dataBlocks size)

/-- The blocks that are handed out, from entry `e` of the directory on. -/
def blocks : ℕ → HostDir → ℕ
  | _, .nil => 0
  | e, .file _ data rest => entryCost e + fileCost data.length + rest.blocks (e + 1)
  | e, .link _ _ rest => entryCost e + 1 + rest.blocks (e + 1)
  | e, .dir _ children rest => entryCost e + children.blocks 0 + rest.blocks (e + 1)

/-- The blocks that are used, from entry `e` of the directory on: a file uses the block after its own
ones too. -/
def reach : ℕ → HostDir → ℕ
  | _, .nil => 0
  | e, .file _ data rest => entryCost e + fileCost data.length + max 1 (rest.reach (e + 1))
  | e, .link _ _ rest => entryCost e + 1 + rest.reach (e + 1)
  | e, .dir _ children rest =>
    entryCost e + max (children.reach 0) (children.blocks 0 + rest.reach (e + 1))

/-- Every name fits into the name of a structure. -/
def Short : HostDir → Prop
  | .nil => True
  | .file name _ rest | .link name _ rest => name.length < maxnamelen ∧ rest.Short
  | .dir name children rest => name.length < maxnamelen ∧ children.Short ∧ rest.Short

/-- The names are not empty, the files have fewer blocks than there are pointers, and the targets of
the links are paths of the host. -/
def OnHost : HostDir → Prop
  | .nil => True
  | .file name data rest => name.getD 0 0 ≠ 0 ∧ dataBlocks data.length < nindirect ∧ rest.OnHost
  | .link name target rest => name.getD 0 0 ≠ 0 ∧ target.length < 4096 ∧ rest.OnHost
  | .dir name children rest => name.getD 0 0 ≠ 0 ∧ children.OnHost ∧ rest.OnHost

/-- The names of files and links leave the pointer to the indirect block alone. -/
def Mild : HostDir → Prop
  | .nil => True
  | .file name _ rest | .link name _ rest => name.length < 176 ∧ rest.Mild
  | .dir _ children rest => children.Mild ∧ rest.Mild

lemma Short.mild {d : HostDir} (h : d.Short) : d.Mild := by
  induction d with
  | nil => trivial
  | file name data rest ih => exact ⟨lt_trans h.1 (by decide), ih h.2⟩
  | link name target rest ih => exact ⟨lt_trans h.1 (by decide), ih h.2⟩
  | dir name children rest ihc ihr => exact ⟨ihc h.2.1, ihr h.2.2⟩

/-- No directory inside has more entries than pointers to them. -/
def Narrow : HostDir → Prop
  | .nil => True
  | .file _ _ rest | .link _ _ rest => rest.Narrow
  | .dir _ children rest => children.count ≤ 16384 ∧ children.Narrow ∧ rest.Narrow

end HostDir

/-- The directory `f` has the entries from `e` on. -/
def Contains (c : Blocks) : FilePtr → ℕ → HostDir → Prop
  | _, _, .nil => True
  | f, e, .file name data rest =>
    EntryAt c f e (fun g => NameAt c g name ftypeReg ∧ HasData c g data) ∧ Contains c f (e + 1) rest
  | f, e, .link name target rest =>
    EntryAt c f e (fun g => NameAt c g name ftypeLnk ∧ HasData c g target) ∧ Contains c f (e + 1) rest
  | f, e, .dir name children rest =>
    EntryAt c f e (fun g => NameAt c g name ftypeDir ∧
      wordAt c g.size = BitVec.ofNat 32 (4096 * blocksFor children.count) ∧
      Contains c g 0 children) ∧ Contains c f (e + 1) rest

/-- What `write_directory` leaves of the entries `d` from `e` on. -/
structure Writes (n : ℕ) (s : DiskImage) (lo : ℕ) (f : FilePtr) (e : ℕ) (d : HostDir) (s' : DiskImage) :
    Prop where
  next : s'.nextbno = s.nextbno + d.blocks e
  sound : Sound n s'
  dir : DirAt s' lo f (blocksFor (e + d.count)) (usedFor (e + d.count))
  evolves : Evolves s (OpenFrom s.disk f e) s' (OpenFrom s'.disk f (e + d.count))
  rests : d.Short → Rests (Own s' lo f (OpenFrom s'.disk f (e + d.count)))
    (fun c => Contains c f e d) s'.disk

variable {d : HostDir}

/-- A directory gets its block for entry `e`. -/
lemma blocksFor_lt (hd : DirAt s lo f (blocksFor e) (usedFor e))
    (hw : n ≤ 1024 ∨ e < 16384) (hu : usedFor e = 16) (hlt : s.nextbno < n) : blocksFor e < 1024 := by
  rcases hw with hn | he
  · have := hd.nb_lt
    omega
  · unfold usedFor blocksFor at hu
    unfold blocksFor
    omega

/-- One entry is one of those that the directory has pointers for. -/
lemma entries_lt {r : ℕ} {P : Prop} (hw : n ≤ 1024 ∨ e + (r + 1) ≤ 16384 ∧ P) :
    n ≤ 1024 ∨ e < 16384 :=
  hw.imp_right fun hw => by omega

/-- The entries after it. -/
lemma entries_rest {r : ℕ} {P Q : Prop} (hw : n ≤ 1024 ∨ e + (r + 1) ≤ 16384 ∧ P) (hpq : P → Q) :
    n ≤ 1024 ∨ e + 1 + r ≤ 16384 ∧ Q :=
  hw.imp_right fun hw => ⟨by omega, hpq hw.2⟩

/-- One entry and the ones after it. -/
lemma AddsEntry.writes {cost : ℕ} {Q : Blocks → FilePtr → Prop} {rest : HostDir}
    (ha : AddsEntry n s lo f e cost Q s1) (hr : Writes n s1 lo f (e + 1) rest s')
    (hcount : d.count = rest.count + 1)
    (hblocks : d.blocks e = entryCost e + cost + rest.blocks (e + 1))
    (hcontains : d.Short → rest.Short ∧
      ∀ c, EntryAt c f e (Q c) → Contains c f (e + 1) rest → Contains c f e d) :
    Writes n s lo f e d s' := by
  have hnext := ha.next
  have hnext' := hr.next
  have hsum : e + 1 + rest.count = e + d.count := by omega
  refine ⟨by omega, hr.sound, hsum ▸ hr.dir, ?_, fun hshort => ?_⟩
  · exact hsum ▸ ha.evolves.trans hr.evolves
  · obtain ⟨hrest, hall⟩ := hcontains hshort
    have hboth := (hr.evolves.rests ha.rests).and (hr.rests hrest)
    rw [hsum] at hboth
    exact hboth.imp fun c hc => hall c hc.1 hc.2

/-- The structure of a directory, after its entries are written. -/
lemma MakesDirectory.adds {nb u : ℕ} {s2 : DiskImage}
    (hm : MakesDirectory n s lo f e nb u b name s1 s2)
    (hw : Writes n s2 s1.nextbno (FilePtr.entry b u) 0 d s') :
    AddsEntry n s lo f e (d.blocks 0)
      (fun c g => (name.length < maxnamelen → NameAt c g name ftypeDir) ∧ (d.Short →
        wordAt c g.size = BitVec.ofNat 32 (4096 * blocksFor d.count) ∧ Contains c g 0 d)) s' := by
  have hlt : (FilePtr.entry b u).block < s1.nextbno := hm.new.last.lt
  have hnext := hm.next
  have hnext' := hw.next
  refine hm.new.adds (hm.head.fills hlt (fun i w hi ho => hw.evolves.same i w ⟨by omega, ho⟩) (by omega)
    hw.sound fun c hc hshort => ⟨?_, ?_⟩)
  · have hsize := hw.dir.size
    rw [Nat.zero_add] at hsize
    rw [← hsize]
    exact hc _ _ (.inr ⟨rfl, by simp only [FilePtr.size]; omega, by simp only [FilePtr.size]; omega⟩)
  · exact (hw.rests hshort).mono (fun _ _ ho => ho.new) c hc

/-- **`write_directory`** writes the entries one after the other. It needs the blocks that are used by
the one of them that uses the last one. -/
theorem writeEntries_needs (hn : n ≤ 0x40000) (h : Sound n s)
    (hd : DirAt s lo f (blocksFor e) (usedFor e)) (hhost : d.OnHost) (hmild : d.Mild)
    (hw : n ≤ 1024 ∨ e + d.count ≤ 16384 ∧ d.Narrow) :
    Needs n FormatStop.IsOutside (s.nextbno + d.reach e) (Writes n s lo f e d)
      (writeEntries n s f d) := by
  induction d generalizing s lo f e with
  | nil =>
    exact .ok h.le ⟨rfl, h, hd, Evolves.refl s _, fun _ _ _ => trivial⟩
  | file name data rest ih =>
    obtain ⟨hname, hsize, hrest⟩ := hhost
    have hnb := blocksFor_lt hd (entries_lt hw)
    have hfirst := writeFile_needs hn h hd hnb ⟨hname, hmild.1⟩ rfl hsize.le
    have hcost : HostDir.fileCost data.length =
      dataBlocks data.length + indexBlocks 0 (dataBlocks data.length) := rfl
    refine (hfirst.bind (t := s.nextbno + entryCost e + HostDir.fileCost data.length +
      rest.reach (e + 1)) fun _ s1 ha => ?_).top_eq ?_
    · have hnext := ha.next
      have hrest := ih ha.sound ha.dir hrest hmild.2 (entries_rest hw id)
      refine (hrest.top_eq (by omega)).imp fun _ s2 hr =>
        ha.writes hr rfl rfl fun hshort => ⟨hshort.2, fun c hc hc' => ⟨?_, hc'⟩⟩
      obtain ⟨b, hb, hname, hdata⟩ := hc
      exact ⟨b, hb, hname hshort.1, hdata⟩
    · simp only [HostDir.reach]
      omega
  | link name target rest ih =>
    obtain ⟨hname, hlen, hrest⟩ := hhost
    have hnb := blocksFor_lt hd (entries_lt hw)
    have hfirst := writeSymlink_needs hn h hd hnb ⟨hname, hmild.1⟩ hlen.le
    refine (hfirst.bind (t := s.nextbno + entryCost e + 1 + rest.reach (e + 1))
      fun _ s1 ha => ?_).top_eq ?_
    · have hnext := ha.next
      have hrest := ih ha.sound ha.dir hrest hmild.2 (entries_rest hw id)
      refine (hrest.top_eq (by omega)).imp fun _ s2 hr =>
        ha.writes hr rfl rfl fun hshort => ⟨hshort.2, fun c hc hc' => ⟨?_, hc'⟩⟩
      obtain ⟨b, hb, hname, hdata⟩ := hc
      exact ⟨b, hb, hname hshort.1, hdata⟩
    · simp only [HostDir.reach]
      omega
  | dir name children rest ihc ihr =>
    obtain ⟨hname, hchildren, hrest⟩ := hhost
    have hnb := blocksFor_lt hd (entries_lt hw)
    have hfirst := makeDirectory_needs hn h hd hnb hname
    refine (hfirst.bind (t := s.nextbno + entryCost e +
      max (children.reach 0) (children.blocks 0 + rest.reach (e + 1))) ?_).top_eq ?_
    · rintro - ⟨g, s2⟩ ⟨nb, u, b, s1, hg, hm⟩
      dsimp only at hg hm
      subst hg
      have hnext := hm.next
      have hnext1 := hm.new.next
      rw [linkCost_eq] at hnext1
      have hinner := ihc hm.sound hm.dir hchildren hmild.1 (hw.imp_right fun hw => by
        rw [Nat.zero_add]
        exact ⟨hw.2.1, hw.2.2.1⟩)
      refine (hinner.bind (t := s.nextbno + entryCost e + children.blocks 0 + rest.reach (e + 1))
        fun _ s3 hin => ?_).top_eq (by omega)
      have ha := hm.adds hin
      have hnext3 := ha.next
      have hrest := ihr ha.sound ha.dir hrest hmild.2 (entries_rest hw fun hw => hw.2.2)
      refine (hrest.top_eq (by omega)).imp fun _ s4 hr =>
        ha.writes hr rfl rfl fun hshort => ⟨hshort.2.2, fun c hc hc' => ⟨?_, hc'⟩⟩
      obtain ⟨b, hb, hname, hall⟩ := hc
      exact ⟨b, hb, hname hshort.1, hall hshort.2.1⟩
    · simp only [HostDir.reach]
      omega

end MosVolca
