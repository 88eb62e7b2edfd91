import MosVolca.Kern.EnvFree
import MosVolca.Kern.RunQueue
import MosVolca.Library.Bitmap

/-!
# The environment table

The free list, the statuses, the identifiers, the ASIDs with their bitmap and the page directories
of the environments. They are updated at different points of `env_alloc`, its callers and
`env_free`, and `env_alloc` can fail in between.

## Main definitions

* `MosVolca.EnvTable` — the invariant of the table.
* `MosVolca.EnvSpaces` — the same, with the page accounting that keeps page directories apart.
* `MosVolca.TableEntry` — the entries that create and destroy environments and switch to another.

## Main results

* `MosVolca.EnvSpaces.step` — an entry keeps the invariant.
* `MosVolca.envTable_of_run` — the table in every reachable state.
-/

namespace MosVolca

open TwoLevel

/-- **The environment table.** The free list holds the free environments, each once; the slot of an
environment in use is in its identifier; environments in use have different ASIDs below `NASID`,
which are the bits of `asid_bitmap`, and different page directories. -/
structure EnvTable (k : Kern) : Prop where
  free_nodup : k.envFreeList.Nodup
  free_mem : ∀ e, e ∈ k.envFreeList ↔ (k.envs e).status = .free
  envx_id : ∀ e, (k.envs e).status ≠ .free → envx (k.envs e).id = e
  asid_lt : ∀ e, (k.envs e).status ≠ .free → (k.envs e).asid.toNat < nasid
  asid_inj : ∀ e x, (k.envs e).status ≠ .free → (k.envs x).status ≠ .free →
    (k.envs e).asid = (k.envs x).asid → e = x
  pgdir_inj : ∀ e x, (k.envs e).status ≠ .free → (k.envs x).status ≠ .free →
    (k.envs e).pgdir = (k.envs x).pgdir → e = x
  asid_used : ∀ i < nasid, Bitmap.test k.asidBitmap i = true ↔
    ∃ e, (k.envs e).status ≠ .free ∧ (k.envs e).asid.toNat = i

/-- The environment table, and the page accounting for the page directories `D`, which come from
the free list of pages. -/
structure EnvSpaces (M : Machine) (D K : Finset ℕ) (k : Kern) : Prop
    extends KernAccounting M k D K, EnvTable k where
  ge : ∀ d ∈ D, M.bootPages ≤ d

/-- The page directories `D` are those of the environments in use. -/
def DirsLive (D : Finset ℕ) (k : Kern) : Prop :=
  ∀ d ∈ D, ∃ e, (k.envs e).status ≠ .free ∧ (k.envs e).pgdir = d

/-- A binary that is linked below `UTOP`; its pages are mapped with flags only. -/
def Image.Linked (image : Image) : Prop := ∀ c ∈ image.calls, c.va < utop ∧ c.perm < 4096#32

/-- The entries that create and destroy environments, switch to another one and change a status;
the programs that are loaded are linked below `UTOP`. -/
def TableEntry : Entry → Prop
  | .envCreate binary _ => ∀ image ∈ binary, image.Linked
  | .exofork | .envDestroy _ | .timer | .yield | .setEnvStatus _ _ | .setTlbModEntry _ _ => True
  | _ => False

variable {M : Machine} {k k' k1 : Kern} {s s' : PhysMem} {D K H : Finset ℕ} {e x : EnvPtr}
  {p q i : ℕ} {rest : List ℕ} {frest : List EnvPtr} {asid : Word} {bitmap bitmap' : ℕ → Word}
  {o : Option Word} {a : Entry}

/-! ## The bitmap -/

/-- The word of a bit of `asid_bitmap`, and its place there. -/
lemma asid_position (i : ℕ) : i >>> 5 = i / 32 ∧ i &&& 31 = i % 32 :=
  ⟨Nat.shiftRight_eq_div_pow i 5, Nat.and_two_pow_sub_one_eq_mod i 5⟩

/-- `asid_alloc` takes an identifier that is not used. -/
lemma asidAlloc_ok (h : asidAlloc bitmap = .ok (asid, bitmap')) :
    asid.toNat < nasid ∧ Bitmap.test bitmap asid.toNat = false ∧
      bitmap' = Bitmap.set bitmap asid.toNat := by
  unfold asidAlloc at h
  split at h
  case h_2 => simp at h
  case h_1 i hfind =>
    obtain ⟨rfl, rfl⟩ : BitVec.ofNat 32 i = asid ∧ _ = bitmap' := by simpa using h
    have hlt : i < nasid := List.mem_range.mp (List.mem_of_find?_eq_some hfind)
    have hi : (BitVec.ofNat 32 i).toNat = i := by
      rw [BitVec.toNat_ofNat]
      exact Nat.mod_eq_of_lt (hlt.trans (by decide))
    have hzero := List.find?_some hfind
    obtain ⟨h5, h31⟩ := asid_position i
    rw [beq_iff_eq, h5, h31] at hzero
    rw [hi, h5, h31]
    exact ⟨hlt, (Bitmap.and_mask_eq_zero_iff (by decide)).mp hzero, rfl⟩

lemma asidFree_eq : asidFree bitmap asid = Bitmap.clear bitmap asid.toNat := by
  obtain ⟨h5, h31⟩ := asid_position asid.toNat
  have hindex : (asid >>> 5).toNat = asid.toNat / 32 := by rw [BitVec.toNat_ushiftRight, h5]
  have hinner : (asid &&& 31#32).toNat = asid.toNat % 32 := by
    rw [BitVec.toNat_and]
    exact h31
  unfold asidFree
  rw [hindex, hinner]
  rfl

/-! ## Changes of the table -/

/-- The environments in use keep what the table says about them. -/
lemma EnvTable.congr (h : EnvTable k) (hfree : k'.envFreeList = k.envFreeList)
    (hbits : k'.asidBitmap = k.asidBitmap)
    (hst : ∀ x, (k'.envs x).status = .free ↔ (k.envs x).status = .free)
    (henv : ∀ x, (k.envs x).status ≠ .free → (k'.envs x).id = (k.envs x).id ∧
      (k'.envs x).asid = (k.envs x).asid ∧ (k'.envs x).pgdir = (k.envs x).pgdir) : EnvTable k' := by
  have hlive : ∀ x, (k'.envs x).status ≠ .free → (k.envs x).status ≠ .free :=
    fun x hx => mt (hst x).mpr hx
  refine ⟨hfree ▸ h.free_nodup, fun e => ?_, fun e he => ?_, fun e he => ?_,
    fun e x he hx heq => ?_, fun e x he hx heq => ?_, fun i hi => ?_⟩
  · rw [hfree, hst]
    exact h.free_mem e
  · rw [(henv e (hlive e he)).1]
    exact h.envx_id e (hlive e he)
  · rw [(henv e (hlive e he)).2.1]
    exact h.asid_lt e (hlive e he)
  · rw [(henv e (hlive e he)).2.1, (henv x (hlive x hx)).2.1] at heq
    exact h.asid_inj e x (hlive e he) (hlive x hx) heq
  · rw [(henv e (hlive e he)).2.2, (henv x (hlive x hx)).2.2] at heq
    exact h.pgdir_inj e x (hlive e he) (hlive x hx) heq
  · rw [hbits, h.asid_used i hi]
    refine exists_congr fun e => ?_
    by_cases he : (k.envs e).status = .free
    · simp [he, (hst e).mpr he]
    · rw [(henv e he).2.1]
      simp [he, mt (hst e).mp he]

/-- A free environment is taken, with an unused ASID and a new page directory. -/
lemma EnvTable.alloc (h : EnvTable k) (he : k.envFreeList = e :: frest)
    (ha : asidAlloc k.asidBitmap = .ok (asid, bitmap))
    (hq : ∀ x, (k.envs x).status ≠ .free → (k.envs x).pgdir ≠ q)
    (hfree : k'.envFreeList = frest) (hbits : k'.asidBitmap = bitmap)
    (hlive : (k'.envs e).status ≠ .free) (hid : envx (k'.envs e).id = e)
    (hasid : (k'.envs e).asid = asid) (hdir : (k'.envs e).pgdir = q)
    (hother : ∀ x, x ≠ e → k'.envs x = k.envs x) : EnvTable k' := by
  obtain ⟨hlt, hunused, hset⟩ := asidAlloc_ok ha
  obtain ⟨hnot, hnodup⟩ := List.nodup_cons.mp (he ▸ h.free_nodup)
  have hold : (k.envs e).status = .free := (h.free_mem e).mp (he ▸ List.mem_cons_self)
  have hne : ∀ x, (k.envs x).status ≠ .free → x ≠ e := fun x hx hxe => hx (hxe ▸ hold)
  -- no environment in use has the new ASID
  have hfresh : ∀ x, (k.envs x).status ≠ .free → (k.envs x).asid ≠ asid := fun x hx hc => by
    have hbit := (h.asid_used asid.toNat hlt).mpr ⟨x, hx, by rw [hc]⟩
    rw [hunused] at hbit
    exact absurd hbit Bool.false_ne_true
  have hcases : ∀ x, (k'.envs x).status ≠ .free → x = e ∨ x ≠ e ∧ (k.envs x).status ≠ .free := by
    intro x hx
    by_cases hxe : x = e
    · exact Or.inl hxe
    · exact Or.inr ⟨hxe, hother x hxe ▸ hx⟩
  refine ⟨hfree ▸ hnodup, fun x => ?_, fun x hx => ?_, fun x hx => ?_, fun x y hx hy heq => ?_,
    fun x y hx hy heq => ?_, fun i hi => ?_⟩
  · have hmem := h.free_mem x
    rw [he, List.mem_cons] at hmem
    rw [hfree]
    by_cases hxe : x = e
    · subst hxe
      simp [hnot, hlive]
    · rw [hother x hxe, ← hmem]
      simp [hxe]
  · rcases hcases x hx with rfl | ⟨hxe, hx⟩
    · exact hid
    · rw [hother x hxe]
      exact h.envx_id x hx
  · rcases hcases x hx with rfl | ⟨hxe, hx⟩
    · rwa [hasid]
    · rw [hother x hxe]
      exact h.asid_lt x hx
  · rcases hcases x hx with rfl | ⟨hxe, hx⟩ <;> rcases hcases y hy with rfl | ⟨hye, hy⟩
    · rfl
    · rw [hasid, hother y hye] at heq
      exact absurd heq.symm (hfresh y hy)
    · rw [hasid, hother x hxe] at heq
      exact absurd heq (hfresh x hx)
    · rw [hother x hxe, hother y hye] at heq
      exact h.asid_inj x y hx hy heq
  · rcases hcases x hx with rfl | ⟨hxe, hx⟩ <;> rcases hcases y hy with rfl | ⟨hye, hy⟩
    · rfl
    · rw [hdir, hother y hye] at heq
      exact absurd heq.symm (hq y hy)
    · rw [hdir, hother x hxe] at heq
      exact absurd heq (hq x hx)
    · rw [hother x hxe, hother y hye] at heq
      exact h.pgdir_inj x y hx hy heq
  · rw [hbits, hset, Bitmap.test_set (by decide), Bool.or_eq_true, decide_eq_true_eq,
      h.asid_used i hi]
    constructor
    · rintro (⟨x, hx, hxi⟩ | rfl)
      · exact ⟨x, by rwa [hother x (hne x hx)], by rwa [hother x (hne x hx)]⟩
      · exact ⟨e, hlive, by rw [hasid]⟩
    · rintro ⟨x, hx, hxi⟩
      rcases hcases x hx with rfl | ⟨hxe, hx⟩
      · exact Or.inr (by rw [← hxi, hasid])
      · rw [hother x hxe] at hxi
        exact Or.inl ⟨x, hx, hxi⟩

/-- An environment in use becomes free, and its ASID with it. -/
lemma EnvTable.free (h : EnvTable k) (he : (k.envs e).status ≠ .free)
    (hfree : k'.envFreeList = e :: k.envFreeList)
    (hbits : k'.asidBitmap = asidFree k.asidBitmap (k.envs e).asid)
    (hself : (k'.envs e).status = .free) (hother : ∀ x, x ≠ e → k'.envs x = k.envs x) :
    EnvTable k' := by
  have hcases : ∀ x, (k'.envs x).status ≠ .free → x ≠ e ∧ (k.envs x).status ≠ .free := by
    intro x hx
    have hxe : x ≠ e := fun hc => hx (hc ▸ hself)
    exact ⟨hxe, hother x hxe ▸ hx⟩
  refine ⟨?_, fun x => ?_, fun x hx => ?_, fun x hx => ?_, fun x y hx hy heq => ?_,
    fun x y hx hy heq => ?_, fun i hi => ?_⟩
  · rw [hfree]
    exact List.nodup_cons.mpr ⟨mt (h.free_mem e).mp he, h.free_nodup⟩
  · rw [hfree, List.mem_cons, h.free_mem x]
    by_cases hxe : x = e
    · subst hxe
      simp [hself]
    · rw [hother x hxe]
      simp [hxe]
  · obtain ⟨hxe, hx⟩ := hcases x hx
    rw [hother x hxe]
    exact h.envx_id x hx
  · obtain ⟨hxe, hx⟩ := hcases x hx
    rw [hother x hxe]
    exact h.asid_lt x hx
  · obtain ⟨hxe, hx⟩ := hcases x hx
    obtain ⟨hye, hy⟩ := hcases y hy
    rw [hother x hxe, hother y hye] at heq
    exact h.asid_inj x y hx hy heq
  · obtain ⟨hxe, hx⟩ := hcases x hx
    obtain ⟨hye, hy⟩ := hcases y hy
    rw [hother x hxe, hother y hye] at heq
    exact h.pgdir_inj x y hx hy heq
  · rw [hbits, asidFree_eq, Bitmap.test_clear (by decide), Bool.and_eq_true, decide_eq_true_eq,
      h.asid_used i hi]
    constructor
    · rintro ⟨⟨x, hx, hxi⟩, hne⟩
      have hxe : x ≠ e := fun hc => hne (by rw [← hxi, hc])
      exact ⟨x, by rwa [hother x hxe], by rwa [hother x hxe]⟩
    · rintro ⟨x, hx, hxi⟩
      obtain ⟨hxe, hx⟩ := hcases x hx
      rw [hother x hxe] at hxi
      refine ⟨⟨x, hx, hxi⟩, fun hc => hxe ?_⟩
      exact h.asid_inj x e hx he (BitVec.eq_of_toNat_eq (hxi.trans hc))

/-! ## Loading a program -/

/-- A copy changes the page alone. -/
lemma copySrc_cases {pm pm' : PhysMem} {c : MapperCall} (hp : p < M.npage)
    (h : copySrc M pm p c = .ok pm') :
    ∃ m, pm' = { pm with mem := m } ∧ ∀ q, q ≠ p → m q = pm.mem q := by
  unfold copySrc at h
  split at h
  · simp only [pure_eq_ok, Except.ok.injEq] at h
    exact ⟨pm.mem, h.symm, fun _ _ => rfl⟩
  · obtain ⟨kva, hk, h⟩ := bind_eq_ok.mp h
    obtain ⟨-, rfl⟩ := (kaddr_page2pa_eq_ok (hp.trans M.npage_lt)).mp hk
    simp only [pure_eq_ok, Except.ok.injEq] at h
    exact ⟨_, h.symm, fun q hq => Function.update_of_ne hq _ _⟩

/-- `load_icode_mapper` maps a new page. -/
lemma loadIcodeMapper_accounting {c : MapperCall} (h : PageAccounting M k.pm D K ∅)
    (hd : (k.envs e).pgdir ∈ D) (hva : c.va < utop) (hperm : c.perm < 4096#32)
    (hr : loadIcodeMapper M k e c = .ok (0, k')) :
    k'.envs = k.envs ∧ PageAccounting M k'.pm D K ∅ := by
  unfold loadIcodeMapper at hr
  obtain ⟨⟨o, pm⟩, halloc, hr⟩ := bind_eq_ok.mp hr
  rcases o with r | pp
  · simp at hr
  simp only [bind_eq_ok, pure_eq_ok, Except.ok.injEq, Prod.mk.injEq] at hr
  obtain ⟨pm1, hcopy, ⟨r, pm2⟩, hins, rfl, rfl⟩ := hr
  obtain ⟨h1, -, -⟩ := h.pageAlloc halloc
  have hmem : pp ∈ insert pp (∅ : Finset ℕ) := Finset.mem_insert_self pp ∅
  obtain ⟨m, rfl, hm⟩ := copySrc_cases (h1.held pp hmem).1.2 hcopy
  have h2 := h1.writeHeld hmem hm
  have h0 : pageRefs { pm with mem := m } D pp = 0 := (h2.held pp hmem).2.2
  have hnew := h2.pageInsert_result hd (pdx_lt_of_lt_utop hva) (h2.insertable_of_held hmem)
    (h2.held pp hmem).1.1 hperm (Or.inr (by rw [h0]; decide)) hins
  rcases hnew with ⟨hr, -⟩ | ⟨-, h3, -⟩
  · exact absurd hr (by decide)
  · exact ⟨rfl, by simpa using h3⟩

/-- `load_icode` keeps the page accounting. -/
lemma loadIcode_accounting {binary : Option Image} (h : PageAccounting M k.pm D K ∅)
    (hd : (k.envs e).pgdir ∈ D) (hlink : ∀ image ∈ binary, image.Linked)
    (hr : loadIcode M k e binary = .ok k') : PageAccounting M k'.pm D K ∅ := by
  unfold loadIcode at hr
  rcases binary with _ | image
  · simp at hr
  simp only [bind_eq_ok, pure_eq_ok, Except.ok.injEq] at hr
  obtain ⟨k1, hfold, rfl⟩ := hr
  suffices hloop : k1.envs = k.envs ∧ PageAccounting M k1.pm D K ∅ from hloop.2
  refine foldlM_invariant (P := fun k1 => k1.envs = k.envs ∧ PageAccounting M k1.pm D K ∅)
    (fun c hc k1 k2 h1 hstep => ?_) ⟨rfl, h⟩ hfold
  obtain ⟨⟨r, k3⟩, hmap, hstep⟩ := bind_eq_ok.mp hstep
  simp only at hstep
  split_ifs at hstep with hr0
  simp only [Except.ok.injEq] at hstep
  subst hstep
  obtain ⟨hva, hperm⟩ := hlink image rfl c hc
  obtain rfl : r = 0 := not_not.mp hr0
  obtain ⟨henvs, hp⟩ := loadIcodeMapper_accounting h1.2 (by rwa [h1.1]) hva hperm hmap
  exact ⟨henvs.trans h1.1, hp⟩

/-! ## The entries -/

/-- The environments change, but for what the table says about them. -/
lemma EnvSpaces.changeEnvs (h : EnvSpaces M D K k) (hpm : k'.pm = k.pm)
    (hfree : k'.envFreeList = k.envFreeList) (hbits : k'.asidBitmap = k.asidBitmap)
    (hst : ∀ x, (k'.envs x).status = .free ↔ (k.envs x).status = .free)
    (henv : ∀ x, (k'.envs x).id = (k.envs x).id ∧ (k'.envs x).asid = (k.envs x).asid ∧
      (k'.envs x).pgdir = (k.envs x).pgdir)
    (hcur : ∀ x, k'.curenv = some x → (k.envs x).status ≠ .free)
    (hrecv : ∀ x, (k'.envs x).ipcRecving ≠ 0 → (k'.envs x).ipcDstva < utop) :
    EnvSpaces M D K k' where
  toEnvTable := h.toEnvTable.congr hfree hbits hst fun x _ => henv x
  pages := hpm ▸ h.pages
  dir x hx := (henv x).2.2 ▸ h.dir x (mt (hst x).mpr hx)
  cur x hx := mt (hst x).mp (hcur x hx)
  dstva := hrecv
  ge := h.ge

/-- The environments that `envid2env` finds are in use. -/
lemma EnvSpaces.live {envid : Word} {checkperm : Bool} (h : EnvSpaces M D K k)
    (hid : envid2env k envid checkperm = .ok (.ok (some e))) : (k.envs e).status ≠ .free := by
  rcases envid2env_eq_some hid with ⟨-, hc⟩ | ⟨-, -, hst, -⟩
  · exact h.cur e hc
  · exact hst

/-- A switch to another environment changes no page directory. -/
lemma EnvSpaces.dispatched (h : EnvSpaces M D K k) (hd : Dispatched k k' e) :
    EnvSpaces M D K k' := by
  refine h.changeEnvs hd.pm hd.free hd.bitmap (fun x => by rw [hd.status x]) (fun x => ?_)
    (fun x hx => ?_) fun x hx => ?_
  · obtain ⟨tf, runs, hy⟩ := hd.envs x
    rw [hy]
    exact ⟨rfl, rfl, rfl⟩
  · obtain rfl : e = x := by simpa [hd.cur] using hx
    rw [hd.runnable]
    decide
  · obtain ⟨tf, runs, hy⟩ := hd.envs x
    rw [hy] at hx ⊢
    exact h.dstva x hx

/-- An environment in use changes, but for what the table says about it. -/
lemma EnvSpaces.setEnv (h : EnvSpaces M D K k) (he : (k.envs e).status ≠ .free) (f : Env → Env)
    (hf : ∀ x, (f x).id = x.id ∧ (f x).asid = x.asid ∧ (f x).pgdir = x.pgdir ∧
      (f x).ipcRecving = x.ipcRecving ∧ (f x).ipcDstva = x.ipcDstva)
    (hst : (f (k.envs e)).status ≠ .free) : EnvSpaces M D K (k.setEnv e f) := by
  obtain ⟨hid, hasid, hdir, hrecv, hdst⟩ := hf (k.envs e)
  refine h.changeEnvs rfl rfl rfl (Kern.setEnv_free_iff he hst) (fun x => ?_) h.cur fun x hx => ?_
  · exact ⟨k.setEnv_keeps e f Env.id hid x, k.setEnv_keeps e f Env.asid hasid x,
      k.setEnv_keeps e f Env.pgdir hdir x⟩
  · rw [k.setEnv_keeps e f Env.ipcRecving hrecv] at hx
    rw [k.setEnv_keeps e f Env.ipcDstva hdst]
    exact h.dstva x hx

lemma DirsLive.congr (h : DirsLive D k) (hlive : ∀ x, (k.envs x).status ≠ .free →
    (k'.envs x).status ≠ .free ∧ (k'.envs x).pgdir = (k.envs x).pgdir) : DirsLive D k' :=
  fun d hd => by
    obtain ⟨x, hx, rfl⟩ := h d hd
    exact ⟨x, (hlive x hx).1, (hlive x hx).2⟩

/-- A switch frees no environment. -/
lemma DirsLive.dispatched (h : DirsLive D k) (hd : Dispatched k k' e) : DirsLive D k' := by
  refine h.congr fun x hx => ⟨by rwa [hd.status x], ?_⟩
  obtain ⟨tf, runs, hy⟩ := hd.envs x
  rw [hy]

lemma DirsLive.setEnv (h : DirsLive D k) {f : Env → Env} (hdir : ∀ x, (f x).pgdir = x.pgdir)
    (hst : (f (k.envs e)).status ≠ .free) : DirsLive D (k.setEnv e f) := by
  refine h.congr fun x hx => ⟨?_, k.setEnv_keeps e f Env.pgdir (hdir _) x⟩
  exact Kern.forall_setEnv (P := fun x y => (k.envs x).status ≠ .free → y.status ≠ .free)
    (fun _ => hst) (fun _ _ => id) x hx

/-- A new environment has a new page directory. -/
lemma DirsLive.insert (h : DirsLive D k) (he : (k.envs e).status = .free)
    (hlive : (k'.envs e).status ≠ .free) (hdir : (k'.envs e).pgdir = q)
    (hother : ∀ x, x ≠ e → k'.envs x = k.envs x) : DirsLive (insert q D) k' := by
  intro d hd
  rcases Finset.mem_insert.mp hd with rfl | hd
  · exact ⟨e, hlive, hdir⟩
  · obtain ⟨x, hx, hxd⟩ := h d hd
    have hxe : x ≠ e := fun hxe => hx (hxe ▸ he)
    exact ⟨x, by rwa [hother x hxe], by rwa [hother x hxe]⟩

/-- A new environment. -/
lemma EnvSpaces.alloc (h : EnvSpaces M D K k) (he : k.envFreeList = e :: frest)
    (hf : k.pm.pageFreeList = q :: rest) (ha : asidAlloc k.asidBitmap = .ok (asid, bitmap))
    (hp : PageAccounting M k'.pm (insert q D) K ∅) (hfree : k'.envFreeList = frest)
    (hbits : k'.asidBitmap = bitmap) (hcur : k'.curenv = k.curenv)
    (hlive : (k'.envs e).status ≠ .free) (hid : (k'.envs e).id = k.nextId e)
    (hasid : (k'.envs e).asid = asid) (hdir : (k'.envs e).pgdir = q)
    (hrecv : (k'.envs e).ipcRecving = (k.envs e).ipcRecving ∧
      (k'.envs e).ipcDstva = (k.envs e).ipcDstva)
    (hother : ∀ x, x ≠ e → k'.envs x = k.envs x) : EnvSpaces M (insert q D) K k' := by
  have hq := h.pages.head_free hf
  have hnew : ∀ x, (k.envs x).status ≠ .free → (k.envs x).pgdir ≠ q := fun x hx hc =>
    Shape.not_node_of_refCount hq.2.2.2 (Shape.Node.of_mem (hc ▸ h.dir x hx))
  have hold : (k.envs e).status = .free := (h.free_mem e).mp (he ▸ List.mem_cons_self)
  refine ⟨⟨hp, fun x hx => ?_, fun x hx => ?_, fun x hx => ?_⟩,
    h.toEnvTable.alloc he ha hnew hfree hbits hlive (by rw [hid, envx_nextId]) hasid hdir hother,
    fun d hd => ?_⟩
  · by_cases hxe : x = e
    · rw [hxe, hdir]
      exact Finset.mem_insert_self q D
    · rw [hother x hxe] at hx ⊢
      exact Finset.mem_insert_of_mem (h.dir x hx)
  · have hx := h.cur x (hcur ▸ hx)
    rwa [hother x fun hxe => hx (hxe ▸ hold)]
  · by_cases hxe : x = e
    · subst hxe
      rw [hrecv.1] at hx
      rw [hrecv.2]
      exact h.dstva x hx
    · rw [hother x hxe] at hx ⊢
      exact h.dstva x hx
  · rcases Finset.mem_insert.mp hd with rfl | hd
    · exact hq.1.1
    · exact h.ge d hd

/-- `env_alloc` without a free ASID loses the page directory that it has made. -/
lemma EnvSpaces.lost (h : EnvSpaces M D K k) (he : k.envFreeList = e :: frest)
    (hf : k.pm.pageFreeList = q :: rest) :
    EnvSpaces M D (insert q K) (envReset (k.withDir e q rest) e) := by
  have hold : (k.envs e).status = .free := (h.free_mem e).mp (he ▸ List.mem_cons_self)
  have hother : ∀ x, x ≠ e → (envReset (k.withDir e q rest) e).envs x = k.envs x := fun x hx => by
    simp only [envReset, Kern.withDir, mkenvid, Kern.setEnv, Function.update_of_ne hx]
  have hself : ((envReset (k.withDir e q rest) e).envs e).status = (k.envs e).status ∧
      ((envReset (k.withDir e q rest) e).envs e).ipcRecving = (k.envs e).ipcRecving ∧
      ((envReset (k.withDir e q rest) e).envs e).ipcDstva = (k.envs e).ipcDstva := by
    simp [envReset, Kern.withDir, mkenvid, Kern.setEnv]
  have hst : ∀ x, ((envReset (k.withDir e q rest) e).envs x).status = (k.envs x).status := by
    intro x
    by_cases hxe : x = e
    · rw [hxe, hself.1]
    · rw [hother x hxe]
  have hne : ∀ x, (k.envs x).status ≠ .free → x ≠ e := fun x hx hxe => hx (hxe ▸ hold)
  refine ⟨⟨h.pages.lostDir hf k.basePgdir, fun x hx => ?_, fun x hx => ?_, fun x hx => ?_⟩,
    h.toEnvTable.congr rfl rfl (fun x => by rw [hst x]) (fun x hx => ?_), h.ge⟩
  · rw [hst] at hx
    rw [hother x (hne x hx)]
    exact h.dir x hx
  · rw [hst]
    exact h.cur x hx
  · by_cases hxe : x = e
    · subst hxe
      rw [hself.2.1] at hx
      rw [hself.2.2]
      exact h.dstva x hx
    · rw [hother x hxe] at hx ⊢
      exact h.dstva x hx
  · rw [hother x (hne x hx)]
    exact ⟨rfl, rfl, rfl⟩

/-- The failures of `env_alloc`. -/
lemma EnvSpaces.envAlloc_error {parentId r : Word} (h : EnvSpaces M D K k)
    (hr : envAlloc M k parentId = .ok (.error r, k')) :
    ∃ K', EnvSpaces M D K' k' ∧ K ⊆ K' ∧ (DirsLive D k → DirsLive D k') := by
  rcases envAlloc_cases h.pages.free_lt hr with ⟨_, -, rfl⟩ | ⟨e, frest, q, rest, he, hf,
    ⟨-, -, rfl⟩ | ⟨_, _, -, ho, -⟩⟩
  · exact ⟨K, h, Finset.Subset.refl K, id⟩
  · refine ⟨insert q K, h.lost he hf, Finset.subset_insert q K, fun hl => hl.congr fun x hx => ?_⟩
    have hxe : x ≠ e := fun hxe => hx (hxe ▸ (h.free_mem e).mp (he ▸ List.mem_cons_self))
    simp only [envReset, Kern.withDir, mkenvid, Kern.setEnv, Function.update_of_ne hxe]
    exact ⟨hx, trivial⟩
  · simp at ho

/-- `sys_exofork` adds an address space, or leaves them as they are. -/
lemma EnvSpaces.sysExofork {r : Word} (h : EnvSpaces M D K k)
    (hr : sysExofork M k = .ok (r, k')) :
    ∃ D' K', EnvSpaces M D' K' k' ∧ K ⊆ K' ∧ (DirsLive D k → DirsLive D' k') := by
  unfold MosVolca.sysExofork at hr
  obtain ⟨c, hc, hr⟩ := bind_eq_ok.mp hr
  obtain ⟨⟨o, k1⟩, halloc, hr⟩ := bind_eq_ok.mp hr
  rcases o with r' | e
  · replace hr := pure_pair_inj hr
    obtain ⟨K', h'⟩ := h.envAlloc_error halloc
    exact ⟨D, K', hr.2 ▸ h'⟩
  replace hr := pure_pair_inj hr
  rcases envAlloc_cases h.pages.free_lt halloc with ⟨_, ho, -⟩ | ⟨e', frest, q, rest, he, hf,
    ⟨-, ho, -⟩ | ⟨asid, bitmap, ha, ho, rfl⟩⟩
  · simp at ho
  · simp at ho
  obtain rfl : e = e' := by simpa using ho
  obtain ⟨-, rfl⟩ := hr
  have hself := k.allocated_self e q rest asid (k.envs c).id bitmap
  have hlist : (k.allocated e q rest asid bitmap (k.envs c).id).envFreeList = frest := by
    change k.envFreeList.erase e = frest
    rw [he, List.erase_cons_head]
  have hother : ∀ f : Env → Env, ∀ x, x ≠ e →
      ((k.allocated e q rest asid bitmap (k.envs c).id).setEnv e f).envs x = k.envs x :=
    fun f x hx => by rw [Kern.setEnv_envs_of_ne _ _ hx, Kern.allocated_of_ne _ _ _ _ _ _ _ hx]
  refine ⟨insert q D, K, h.alloc he hf ha (h.pages.newDir hf k.basePgdir) hlist rfl rfl ?_ ?_ ?_ ?_
    ?_ (hother _), Finset.Subset.refl K, fun hl =>
      hl.insert ((h.free_mem e).mp (he ▸ List.mem_cons_self)) ?_ ?_ (hother _)⟩
  · simp
  · simp [hself]
  · simp [hself]
  · simp [hself]
  · simp [hself]
  · simp
  · simp [hself]

/-- `env_create` adds an address space. -/
lemma EnvSpaces.envCreate {binary : Option Image} {priority : Word} (h : EnvSpaces M D K k)
    (hlink : ∀ image ∈ binary, image.Linked)
    (hr : envCreate M k binary priority = .ok (e, k')) :
    ∃ D' K', EnvSpaces M D' K' k' ∧ K ⊆ K' ∧ (DirsLive D k → DirsLive D' k') := by
  unfold MosVolca.envCreate at hr
  obtain ⟨⟨o, k1⟩, halloc, hr⟩ := bind_eq_ok.mp hr
  rcases o with r' | e1
  · simp at hr
  simp only [bind_eq_ok, pure_eq_ok, Except.ok.injEq, Prod.mk.injEq] at hr
  obtain ⟨k2, hload, rfl, rfl⟩ := hr
  rcases envAlloc_cases h.pages.free_lt halloc with ⟨_, ho, -⟩ | ⟨e', frest, q, rest, he, hf,
    ⟨-, ho, -⟩ | ⟨asid, bitmap, ha, ho, rfl⟩⟩
  · simp at ho
  · simp at ho
  obtain rfl : e1 = e' := by simpa using ho
  have hself := k.allocated_self e1 q rest asid 0 bitmap
  have hlist : (k.allocated e1 q rest asid bitmap 0).envFreeList = frest := by
    change k.envFreeList.erase e1 = frest
    rw [he, List.erase_cons_head]
  have hacc := loadIcode_accounting (h.pages.newDir hf k.basePgdir)
    (by rw [Kern.setEnv_envs_same, hself]; exact Finset.mem_insert_self q D) hlink hload
  obtain ⟨pm, epc, hk2⟩ := loadIcode_frame hload
  have henv : k2.envs e1 = { (k.allocated e1 q rest asid bitmap 0).envs e1 with
      pri := priority, status := .runnable,
      tf := { ((k.allocated e1 q rest asid bitmap 0).envs e1).tf with cp0Epc := epc } } := by
    rw [hk2]
    simp [Kern.setEnv]
  rw [hself] at henv
  have hother : ∀ x, x ≠ e1 → k2.envs x = k.envs x := fun x hx => by
    have hx2 : k2.envs x = (k.allocated e1 q rest asid bitmap 0).envs x := by
      rw [hk2]
      simp [Kern.setEnv, hx]
    exact hx2.trans (Kern.allocated_of_ne _ _ _ _ _ _ _ hx)
  refine ⟨insert q D, K, h.alloc he hf ha hacc ?_ ?_ ?_ ?_ ?_ ?_ ?_ ?_ hother,
    Finset.Subset.refl K, fun hl =>
      hl.insert ((h.free_mem e1).mp (he ▸ List.mem_cons_self)) ?_ ?_ hother⟩
  · rw [hk2]
    exact hlist
  · rw [hk2]
    rfl
  · rw [hk2]
    rfl
  · simp [henv]
  · simp [henv]
  · simp [henv]
  · simp [henv]
  · simp [henv]
  · simp [henv]
  · simp [henv]

/-- `env_free`, with the environment that is current afterwards. -/
lemma EnvSpaces.envFree {c : Option EnvPtr} (h : EnvSpaces M D K k)
    (he : (k.envs e).status ≠ .free) (hr : envFree M k e = .ok k1)
    (hc : ∀ x, c = some x → x ≠ e ∧ k.curenv = some x) :
    EnvSpaces M (D.erase (k.envs e).pgdir) K { k1 with curenv := c } ∧
      (DirsLive D k → DirsLive (D.erase (k.envs e).pgdir) { k1 with curenv := c }) := by
  have hd := h.dir e he
  obtain ⟨pm, hvm, hacc, -⟩ := h.pages.envFreeVm hd (h.ge _ hd) (k.envs e).asid
  obtain ⟨pm', q, hvm', -, rfl⟩ := envFree_frame hr
  obtain rfl : pm = pm' := by simpa [hvm] using hvm'
  have hother : ∀ x, x ≠ e →
      Function.update k.envs e { k.envs e with status := .free } x = k.envs x :=
    fun x hx => Function.update_of_ne hx _ _
  have hself : (Function.update k.envs e { k.envs e with status := .free } e).status = .free := by
    rw [Function.update_self]
  refine ⟨⟨⟨hacc, fun x hx => ?_, fun x hx => ?_, fun x hx => ?_⟩,
    h.toEnvTable.free he rfl rfl hself hother, fun d hd => h.ge d (Finset.mem_of_mem_erase hd)⟩,
    fun hl d hd => ?_⟩
  · have hxe : x ≠ e := fun hxe => hx (hxe ▸ hself)
    change (Function.update k.envs e { k.envs e with status := .free } x).status ≠ .free at hx
    change (Function.update k.envs e { k.envs e with status := .free } x).pgdir ∈ _
    rw [hother x hxe] at hx ⊢
    exact Finset.mem_erase.mpr ⟨fun heq => hxe (h.pgdir_inj x e hx he heq), h.dir x hx⟩
  · obtain ⟨hxe, hcur⟩ := hc x hx
    change (Function.update k.envs e { k.envs e with status := .free } x).status ≠ .free
    rw [hother x hxe]
    exact h.cur x hcur
  · change (Function.update k.envs e { k.envs e with status := .free } x).ipcDstva < utop
    change (Function.update k.envs e { k.envs e with status := .free } x).ipcRecving ≠ 0 at hx
    by_cases hxe : x = e
    · subst hxe
      rw [Function.update_self] at hx ⊢
      exact h.dstva x hx
    · rw [hother x hxe] at hx ⊢
      exact h.dstva x hx
  · obtain ⟨hne, hd⟩ := Finset.mem_erase.mp hd
    obtain ⟨x, hx, rfl⟩ := hl d hd
    have hxe := hother x fun hxe => hne (by rw [hxe])
    refine ⟨x, ?_, ?_⟩
    · change (Function.update k.envs e { k.envs e with status := .free } x).status ≠ .free
      rwa [hxe]
    · change (Function.update k.envs e { k.envs e with status := .free } x).pgdir = _
      rw [hxe]

/-- `sys_env_destroy` gives an address space back. -/
lemma EnvSpaces.sysEnvDestroy {envid : Word} (h : EnvSpaces M D K k)
    (hr : sysEnvDestroy M k envid = .ok (o, k')) :
    ∃ D', EnvSpaces M D' K k' ∧ (DirsLive D k → DirsLive D' k') := by
  rcases sysEnvDestroy_cases hr with ⟨-, rfl⟩ | ⟨e, returned, hid, hd, -⟩
  · exact ⟨D, h, id⟩
  have he := h.live hid
  obtain ⟨k1, hfree, hd⟩ := envDestroy_cases hd
  have hcur1 : k1.curenv = k.curenv := by
    obtain ⟨pm, q, -, -, rfl⟩ := envFree_frame hfree
    rfl
  refine ⟨D.erase (k.envs e).pgdir, ?_⟩
  rcases hd with ⟨-, -, hs⟩ | ⟨hcur, -, rfl⟩
  · -- the environment was running
    obtain ⟨c, hdisp⟩ := schedule_dispatched hs
    obtain ⟨h2, hl⟩ := h.envFree (c := none) he hfree fun x hx => by simp at hx
    exact ⟨h2.dispatched hdisp, fun hlive => (hl hlive).dispatched hdisp⟩
  · exact h.envFree he hfree fun x hx => ⟨fun hxe => hcur (hxe ▸ hx), hcur1 ▸ hx⟩

/-- A switch changes no page directory. -/
lemma EnvSpaces.schedule {yield : Bool} (h : EnvSpaces M D K k)
    (hr : schedule k yield = .ok k') :
    EnvSpaces M D K k' ∧ (DirsLive D k → DirsLive D k') := by
  obtain ⟨c, hd⟩ := schedule_dispatched hr
  exact ⟨h.dispatched hd, fun hl => hl.dispatched hd⟩

/-- **An entry keeps the environment table**, with the page directories apart, and gives up no page
that the kernel keeps. -/
theorem EnvSpaces.step (h : EnvSpaces M D K k) (ha : TableEntry a)
    (hr : enter M k a = .ok (o, k')) :
    ∃ D' K', EnvSpaces M D' K' k' ∧ K ⊆ K' ∧ (DirsLive D k → DirsLive D' k') := by
  cases a with
  | envCreate binary priority =>
    obtain ⟨⟨x, k1⟩, hc, hr⟩ := bind_eq_ok.mp hr
    replace hr := pure_pair_inj hr
    exact hr.2 ▸ h.envCreate ha hc
  | exofork =>
    obtain ⟨r, hr⟩ := returning_eq_ok hr
    exact h.sysExofork hr
  | envDestroy envid =>
    obtain ⟨D', h', hl⟩ := h.sysEnvDestroy hr
    exact ⟨D', K, h', Finset.Subset.refl K, hl⟩
  | timer | yield =>
    obtain ⟨_, hs⟩ := enter_schedules hr trivial
    obtain ⟨h', hl⟩ := h.schedule hs
    exact ⟨D, K, h', Finset.Subset.refl K, hl⟩
  | setEnvStatus envid status =>
    obtain ⟨r, hr⟩ := returning_eq_ok hr
    rcases sysSetEnvStatus_cases hr with ⟨-, rfl⟩ | ⟨e, q, hid, -, -, rfl⟩
    · exact ⟨D, K, h, Finset.Subset.refl K, id⟩
    have hne : EnvStatus.ofWord status ≠ .free := by
      unfold EnvStatus.ofWord
      split_ifs <;> simp
    have hset := h.setEnv (h.live hid) (fun x => { x with status := .ofWord status })
      (fun _ => ⟨rfl, rfl, rfl, rfl, rfl⟩) hne
    refine ⟨D, K, ⟨⟨hset.pages, hset.dir, hset.cur, hset.dstva⟩,
      hset.toEnvTable.congr rfl rfl (fun _ => Iff.rfl) fun _ _ => ⟨rfl, rfl, rfl⟩, hset.ge⟩,
      Finset.Subset.refl K, fun hl =>
        hl.setEnv (f := fun x => { x with status := .ofWord status }) (fun _ => rfl) hne⟩
  | setTlbModEntry envid func =>
    obtain ⟨r, hr⟩ := returning_eq_ok hr
    rcases sysSetTlbModEntry_cases hr with ⟨-, rfl⟩ | ⟨e, hid, -, rfl⟩
    · exact ⟨D, K, h, Finset.Subset.refl K, id⟩
    exact ⟨D, K, h.setEnv (h.live hid) _ (fun _ => ⟨rfl, rfl, rfl, rfl, rfl⟩) (h.live hid),
      Finset.Subset.refl K, fun hl => hl.setEnv (fun _ => rfl) (h.live hid)⟩
  | memAlloc _ _ _ | memMap _ _ _ _ _ | memUnmap _ _ | ipcRecv _ | ipcTrySend _ _ _ _ =>
    exact absurd ha (by simp [TableEntry])

/-! ## Runs -/

/-- After `env_init` every environment is free. -/
lemma envSpaces_boot {pm : PhysMem} {base : ℕ} {ktf : Trapframe}
    (h : KernAccounting M (Kern.boot pm base ktf) ∅ K) :
    EnvSpaces M ∅ K (Kern.boot pm base ktf) := by
  refine ⟨h, ⟨nodup_allEnvs, fun e => ?_, fun e he => ?_, fun e he => ?_, fun e x he => ?_,
    fun e x he => ?_, fun i hi => ?_⟩, by simp⟩
  · exact iff_of_true (mem_allEnvs e) rfl
  · exact absurd rfl he
  · exact absurd rfl he
  · exact absurd rfl he
  · exact absurd rfl he
  · have hbit : Bitmap.test (fun _ => 0#32) i = false := by simp [Bitmap.test]
    refine iff_of_false ?_ ?_
    · exact fun h => Bool.false_ne_true (hbit.symm.trans h)
    · rintro ⟨e, he, -⟩
      exact absurd rfl he

variable {n : ℕ} {mem : Store Word} {pm₀ : PhysMem} {ktf : Trapframe} {σ : ℕ → Kern}
  {act : ℕ → Entry} {res : ℕ → Option Word}

/-- In every state of a run from `env_init` the page directories and the table are in order. -/
lemma envSpaces_of_run (hM : M.BootLayout) (hinit : pageInit M mem = .ok pm₀)
    (hboot : envInit M pm₀ ktf = .ok (σ 0)) (hrun : KernRun M n σ act res)
    (hact : ∀ t < n, TableEntry (act t)) : ∀ t ≤ n, ∃ D K, EnvSpaces M D K (σ t) := by
  obtain ⟨pm, base, K, henv, hacc, -⟩ := envInit_returns hM hinit ktf
  have hstart : σ 0 = Kern.boot pm base ktf := by simpa [henv] using hboot.symm
  have htrap : ∀ {D' K' : Finset ℕ} {k : Kern} (tf : Trapframe), EnvSpaces M D' K' k →
      EnvSpaces M D' K' (k.trap tf) := fun tf h =>
    h.changeEnvs rfl rfl rfl (fun _ => Iff.rfl) (fun _ => ⟨rfl, rfl, rfl⟩) h.cur h.dstva
  intro t ht
  induction t with
  | zero => exact ⟨∅, K, hstart ▸ envSpaces_boot hacc⟩
  | succ t ih =>
    obtain ⟨D', K', h⟩ := ih (by omega)
    obtain ⟨tf, hs⟩ := hrun t (by omega)
    obtain ⟨D', K', h', -⟩ := (htrap tf h).step (hact t (by omega)) hs
    exact ⟨D', K', h'⟩

/-- **The environment table in every reachable state.** In every state that is reached from
`env_init` by creating, forking, destroying and switching environments, with programs that are
linked below `UTOP`, the free list holds exactly the free environments, once each; the slot of an
environment in use is in its identifier; environments in use have different ASIDs below 64 and
different page directories; and the bits of `asid_bitmap` are the ASIDs in use. -/
theorem envTable_of_run (hM : M.BootLayout) (hinit : pageInit M mem = .ok pm₀)
    (hboot : envInit M pm₀ ktf = .ok (σ 0)) (hrun : KernRun M n σ act res)
    (hact : ∀ t < n, TableEntry (act t)) : ∀ t ≤ n, EnvTable (σ t) := by
  intro t ht
  obtain ⟨D, K, h⟩ := envSpaces_of_run hM hinit hboot hrun hact t ht
  exact h.toEnvTable

/-- The first environment forks, makes its child runnable and yields to it. -/
lemma queueRun_tableEntry (t : ℕ) (ht : t < 5) : TableEntry (queueEntries t) := by
  interval_cases t
  · intro image himage c hc
    cases himage
    simp at hc
  all_goals trivial

lemma queueRun_kernRun : KernRun bootMachine 5 queueRun queueEntries queueResults := fun t ht =>
  ⟨(queueRun t).ktf, by rw [Kern.trap_ktf, queueRun_enter t (by omega)]⟩

/-- After these entries the table is in order. -/
theorem envTable_of_run_fork : EnvTable (queueRun 5) :=
  envTable_of_run bootMachine_layout booted.pageInit_eq booted.envInit_eq queueRun_kernRun
    queueRun_tableEntry 5 le_rfl

end MosVolca
