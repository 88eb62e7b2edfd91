import MosVolca.Tools.ImageOwners

/-!
# The ends of directories and of links

A directory of the image has the entries of the host and, in its last block, nothing behind them. What
is behind the last entry of a directory is open as long as entries are added to it, and after that it
stays as it is. The target of a link has a zero behind it, although the formatter does not write one.

## Main definitions

* `MosVolca.EndsAt`, `MosVolca.Ends` — the end of a directory, and of all that is inside one.
* `MosVolca.TextAt` — the end of a link.

## Main results

* `MosVolca.writeEntries_ends` — the directories and links that `write_directory` leaves.
* `MosVolca.formatDisk_holds` — the tree of the image.
-/

namespace MosVolca

open Bounded Footprint DiskImage

variable {n : ℕ} {s s' s1 : DiskImage} {c c' : Blocks} {f g : FilePtr} {lo b e w : ℕ}
  {name : List Char8} {d : HostDir}

/-- The last block of a directory with `e` entries has zeros behind them. -/
def EndsAt (c : Blocks) (f : FilePtr) (e : ℕ) : Prop :=
  0 < blocksFor e → ∀ b, blockOf c f (blocksFor e - 1) = some b →
    ∀ w, 64 * usedFor e ≤ w → w < 1024 → c b w = 0

/-- The text and a zero behind it are in the first block of the file. -/
def TextAt (c : Blocks) (g : FilePtr) (text : List Char8) : Prop :=
  text.length < 4096 ∧ BytesFrom c g 0 (text ++ [0])

/-- The directories and the links among the entries `d` of `f`, from entry `e` on, have nothing behind
their last entries and their targets, and so have all directories and links inside. -/
def Ends (c : Blocks) : FilePtr → ℕ → HostDir → Prop
  | _, _, .nil => True
  | f, e, .file _ _ rest => Ends c f (e + 1) rest
  | f, e, .link _ target rest => EntryAt c f e (fun g => TextAt c g target) ∧ Ends c f (e + 1) rest
  | f, e, .dir _ children rest =>
    EntryAt c f e (fun g => EndsAt c g children.count ∧ Ends c g 0 children) ∧ Ends c f (e + 1) rest

/-- **The end of a directory** rests on its own words and on the blocks from `lo` on. -/
lemma DirAt.endsAt (h : DirAt s lo f (blocksFor e) (usedFor e)) :
    Rests (fun b w => lo ≤ b ∧ b < s.nextbno ∨ InStruct f b w) (fun c => EndsAt c f e) s.disk := by
  intro c hc hpos b hb w hw hw'
  obtain ⟨b0, hb0⟩ := h.last hpos
  have hpoints := ((h.points hb0 hpos).own h.linked (by omega)).rests.mono fun _ _ ho => ho.new
  obtain rfl : b = b0 := Option.some.inj (hb.symm.trans (hpoints c hc))
  rw [hc _ _ (.inl ⟨hb0.ge, hb0.lt⟩)]
  exact hb0.blank w hw hw'

/-- The structure of a directory, after its entries are written. -/
lemma MakesDirectory.adds_ends {nb u : ℕ} {s2 : DiskImage}
    (hm : MakesDirectory n s lo f e nb u b name s1 s2)
    (hw : Writes n s2 s1.nextbno (FilePtr.entry b u) 0 d s')
    (hends : Rests (Own s' s1.nextbno (FilePtr.entry b u)
      (OpenFrom s'.disk (FilePtr.entry b u) (0 + d.count)))
        (fun c => Ends c (FilePtr.entry b u) 0 d) s'.disk) :
    AddsEntry n s lo f e (d.blocks 0) (fun c g => (name.length < maxnamelen → NameAt c g name ftypeDir) ∧
      EndsAt c g d.count ∧ Ends c g 0 d) s' := by
  have hlt : (FilePtr.entry b u).block < s1.nextbno := hm.new.last.lt
  have hnext := hm.next
  have hnext' := hw.next
  have hdir := hw.dir
  rw [Nat.zero_add] at hdir
  apply hm.new.adds
  apply hm.head.fills hlt (fun i w hi ho => hw.evolves.same i w ⟨by omega, ho⟩) (by omega) hw.sound
  exact hdir.endsAt.and (hends.mono fun _ _ ho => ho.new)

/-- **`write_directory`** leaves directories that end with their last entries.

**Proof sketch.** Induction on the entries. A file or a link leaves no directory. The entries of a
directory end where they are written, by the induction hypothesis, and its last block is not written to
after that, because the directory around it has other blocks. -/
theorem writeEntries_ends (hn : n ≤ 0x40000) (h : Sound n s)
    (hd : DirAt s lo f (blocksFor e) (usedFor e)) (hhost : d.OnHost) (hmild : d.Mild)
    (hw : n ≤ 1024 ∨ e + d.count ≤ 16384 ∧ d.Narrow) (hrun : writeEntries n s f d = .ok s') :
    Rests (Own s' lo f (OpenFrom s'.disk f (e + d.count))) (fun c => Ends c f e d) s'.disk := by
  induction d generalizing s s' lo f e with
  | nil => exact fun _ _ => trivial
  | file name data rest ih =>
    obtain ⟨hname, hsize, hrest⟩ := hhost
    obtain ⟨s1, hfile, hrun⟩ := bind_ok_iff.mp hrun
    have hneeds := writeFile_needs hn h hd (blocksFor_lt hd (entries_lt hw)) ⟨hname, hmild.1⟩ rfl hsize.le
    rw [hfile] at hneeds
    have ha := hneeds.post
    have hends := ih ha.sound ha.dir hrest hmild.2 (entries_rest hw id) hrun
    have hsum : e + 1 + rest.count = e + (HostDir.file name data rest).count := by
      simp only [HostDir.count]
      omega
    rw [hsum] at hends
    exact hends
  | link name target rest ih =>
    obtain ⟨hname, hlen, hrest⟩ := hhost
    obtain ⟨s1, hlink, hrun⟩ := bind_ok_iff.mp hrun
    have hneeds := writeSymlink_adds hn h hd (blocksFor_lt hd (entries_lt hw)) ⟨hname, hmild.1⟩ hlen.le
    rw [hlink] at hneeds
    have ha := hneeds.post
    have hnarrow := entries_rest hw id
    have hafter := writeEntries_needs hn ha.sound ha.dir hrest hmild.2 hnarrow
    rw [hrun] at hafter
    have hboth := (hafter.post.evolves.rests ha.rests).and (ih ha.sound ha.dir hrest hmild.2 hnarrow hrun)
    have hsum : e + 1 + rest.count = e + (HostDir.link name target rest).count := by
      simp only [HostDir.count]
      omega
    rw [hsum] at hboth
    refine hboth.imp fun c hc => ⟨hc.1.imp fun g hg => ⟨hlen, ?_⟩, hc.2⟩
    have hbytes := hg.2
    rwa [List.take_of_length_le (List.length_append.trans_le hlen)] at hbytes
  | dir name children rest ihc ihr =>
    obtain ⟨hname, hchildren, hrest⟩ := hhost
    obtain ⟨⟨g, s2⟩, hmake, hrun1⟩ := bind_ok_iff.mp hrun
    obtain ⟨s3, hin, hrun2⟩ := bind_ok_iff.mp hrun1
    have hneeds := makeDirectory_needs hn h hd (blocksFor_lt hd (entries_lt hw)) hname
    rw [hmake] at hneeds
    obtain ⟨nb, u, b, s1, hg, hm⟩ := hneeds.post
    dsimp only at hg hm hin hrun2
    subst hg
    have hwidth : n ≤ 1024 ∨ 0 + children.count ≤ 16384 ∧ children.Narrow := hw.imp_right fun hw => by
      rw [Nat.zero_add]
      exact ⟨hw.2.1, hw.2.2.1⟩
    -- the entries inside
    have hinner := writeEntries_needs hn hm.sound hm.dir hchildren hmild.1 hwidth
    rw [hin] at hinner
    have ha := hm.adds_ends hinner.post (ihc hm.sound hm.dir hchildren hmild.1 hwidth hin)
    -- the entries after it
    have hnarrow := entries_rest hw fun hw : _ ∧ _ ∧ rest.Narrow => hw.2.2
    have hafter := writeEntries_needs hn ha.sound ha.dir hrest hmild.2 hnarrow
    rw [hrun2] at hafter
    have hends := ihr ha.sound ha.dir hrest hmild.2 hnarrow hrun2
    have hsum : e + 1 + rest.count = e + (HostDir.dir name children rest).count := by
      simp only [HostDir.count]
      omega
    have hboth := (hafter.post.evolves.rests ha.rests).and hends
    rw [hsum] at hboth
    exact hboth.imp fun c hc => ⟨hc.1.imp fun g hg => hg.2, hc.2⟩

/-- **The tree of the image**: it holds the arguments, and its directories and its links end with their
last entries and their targets. Block 0 has no part in it. -/
theorem formatDisk_holds {args : HostDir} (h : FitsInto n args) (hshort : args.Short) (hn : 4 ≤ n)
    (hmax : n ≤ 0x40000) (hrun : formatDisk n args = .ok s) (hc : ∀ b ≠ 0, c b = s.disk b) :
    HoldsTree c args ∧ EndsAt c FilePtr.root args.count ∧ Ends c FilePtr.root 0 args := by
  obtain ⟨s0, s1, hr⟩ := formatDisk_run hn hrun
  have hwrites := hr.writes h hmax
  have hends := writeEntries_ends hmax hr.fresh.sound hr.fresh.dir h.onHost h.mild
    (.inr (by simpa using ⟨h.entries, h.narrow⟩)) hr.entries
  have hdir := hwrites.dir
  rw [Nat.zero_add] at hdir
  obtain ⟨c', rfl, hsame, -⟩ := flushBitmap_cases hn hwrites.sound.le hr.flush
  have hdata : ∀ b w, b = 1 ∨ 2 + nbitblock n ≤ b → c b w = s1.disk b w := by
    intro b w hb
    rw [hc b (by omega)]
    exact hsame b w fun hres => by
      obtain ⟨hlo, hhi⟩ := hres
      omega
  have hown : ∀ b w, (2 + nbitblock n ≤ b ∨ InStruct FilePtr.root b w) → c b w = s1.disk b w :=
    fun b w hb => hdata b w (hb.symm.imp_left fun hb => hb.1)
  obtain ⟨s2, hrun', himage⟩ := h.image hn hmax
  obtain rfl := Except.ok.inj (hrun.symm.trans hrun')
  obtain ⟨htype, hsize, -⟩ := himage.holds hshort
  have hroot : ∀ w, c 1 w = c' 1 w := fun w => congrFun (hc 1 one_ne_zero) w
  exact ⟨⟨(hroot 35).trans htype, (hroot 34).trans hsize, hwrites.rests hshort c fun b w hb => hown b w hb.1⟩,
    hdir.endsAt c fun b w hb => hown b w (hb.imp_left fun hb => hb.1),
    hends c fun b w hb => hown b w hb.1⟩

/-- The formatter leaves the pointer of the root to a directory at zero. -/
lemma formatDisk_rootDir {args : HostDir} (h : FitsInto n args) (hn : 4 ≤ n) (hmax : n ≤ 0x40000)
    (hrun : formatDisk n args = .ok s) : wordAt s.disk FilePtr.root.dir = 0 := by
  obtain ⟨s0, s1, hr⟩ := formatDisk_run hn hrun
  have hwrites := hr.writes h hmax
  obtain ⟨c', rfl, hsame, -⟩ := flushBitmap_cases hn hwrites.sound.le hr.flush
  have hnext := hr.fresh.next
  have hkeep : s1.disk 1 47 = s0.disk 1 47 := hwrites.root_same (by omega) fun _ => by omega
  show c' 1 47 = 0
  rw [hsame 1 47 fun hres => absurd hres.1 (by decide), hkeep]
  exact initDisk_zero (w := 45) hr.init (by decide)

end MosVolca
