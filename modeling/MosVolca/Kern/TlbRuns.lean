import MosVolca.Kern.Coherence
import MosVolca.Kern.RefCounts

/-!
# TLB coherence in runs of the kernel

Every kernel entry, every refill and every loss of a TLB entry keeps the TLB coherent with the page
tables of the environments in use, as long as the counts of the pages are right.

## Main definitions

* `MosVolca.Owns` — the page directory that has an identifier.
* `MosVolca.Event.Permitted` — what may happen.
* `MosVolca.Event.HasRoom` — no page is mapped at more addresses than `pp_ref` can count.

## Main results

* `MosVolca.RunSpaces.coherent_enter`, `MosVolca.RunSpaces.coherent_happens` — one entry, and one
  event.
* `MosVolca.tlbCoherent_of_run` — the TLB in every state of a run.
-/

namespace MosVolca

open TwoLevel

/-- The identifier `a` and the page directory `d` are those of an environment in use. -/
def Owns (k : Kern) (a d : ℕ) : Prop :=
  ∃ e, (k.envs e).status ≠ .free ∧ (k.envs e).asid.toNat = a ∧ (k.envs e).pgdir = d

/-- The TLB is coherent with the page tables of the environments in use. -/
def KernCoherent (k : Kern) : Prop := Coherent k.pm k.basePgdir (Owns k)

/-- The permissions that programs pass have flag bits only, and not `PTE_G`; the programs that are
loaded are linked below `UTOP`. -/
def LibraryPerms : Entry → Prop
  | .envCreate binary _ => ∀ image ∈ binary, image.Linked ∧
      ∀ c ∈ image.calls, c.perm &&& pteG = 0
  | .memAlloc _ _ perm | .memMap _ _ _ _ perm | .ipcTrySend _ _ _ perm =>
    perm < 4096#32 ∧ perm &&& pteG = 0
  | _ => True

/-- The TLB answers `w` for the address `va` when `EntryHi` has the identifier `asid`: a global entry
matches every identifier. -/
def PhysMem.TlbHit (s : PhysMem) (asid va w : Word) : Prop :=
  ∃ a, s.tlb a (vpn va) = some w ∧ (a = asid.toNat ∨ w &&& pteG ≠ 0)

/-- An entry has permissions as programs pass them; a refill is at an address below `UTOP` or at one
of the window that is mapped. -/
def Event.Permitted (k : Kern) : Event → Prop
  | .entry a => LibraryPerms a
  | .refill va => ∀ e, k.curenv = some e → va < utop ∨
      uvpt ≤ va ∧ va < ulim ∧ translate k.pm (k.envs e).pgdir va ≠ none
  | .drop _ _ => True

/-- The page that an entry maps is mapped there already, or has room for one more page table
entry in its count. -/
def Event.HasRoom (M : Machine) (k : Kern) : Event → Prop
  | .entry a => ∀ e va pp perm, Intended M k a e va pp perm →
      (translate k.pm (k.envs e).pgdir va).map ppn = some pp ∨ pteCount k pp + 1 < 2 ^ 16
  | _ => True

variable {M : Machine} {k k' : Kern} {s s' : PhysMem} {D K : Finset ℕ} {d i n q : ℕ}
  {e x : EnvPtr} {a : Entry} {ev : Event} {o : Option Word} {rest : List ℕ} {bitmap : ℕ → Word}
  {asid envid r va perm w : Word}

/-- What is permitted, and has room, wraps no count. -/
lemma Event.Permitted.keepsCounts (hp : ev.Permitted k) (hr : ev.HasRoom M k) :
    ev.KeepsCounts M k := by
  cases ev with
  | entry a =>
    refine ⟨fun binary priority ha image himage => ?_, fun e va pp perm hint => ?_, hr⟩
    · subst ha
      exact (hp image himage).1
    · have hperm : perm < 4096#32 := by
        cases hint with
        | memAlloc | memMap | ipcTrySend => exact hp.1
      rw [KeepsFrame, ppn_of_lt hperm, Nat.or_zero]
  | refill va => exact fun e he => (hp e he).imp_right fun h => h.2.2
  | drop => trivial

/-! ## Identifiers -/

/-- The environments in use keep their identifiers and page directories. -/
lemma owns_congr (hst : ∀ x, (k'.envs x).status = .free ↔ (k.envs x).status = .free)
    (henv : ∀ x, (k.envs x).status ≠ .free →
      (k'.envs x).asid = (k.envs x).asid ∧ (k'.envs x).pgdir = (k.envs x).pgdir) :
    Owns k' = Owns k := by
  funext a d
  refine propext (exists_congr fun x => ?_)
  by_cases hx : (k.envs x).status = .free
  · simp [hx, (hst x).mpr hx]
  · rw [(henv x hx).1, (henv x hx).2]
    simp [hx, mt (hst x).mp hx]

/-- A free environment is taken. -/
lemma owns_alloc (hold : (k.envs e).status = .free) (hlive : (k'.envs e).status ≠ .free)
    (hasid : (k'.envs e).asid = asid) (hdir : (k'.envs e).pgdir = q)
    (hother : ∀ x, x ≠ e → k'.envs x = k.envs x) (a d : ℕ) :
    Owns k' a d ↔ Owns k a d ∨ (a = asid.toNat ∧ d = q) := by
  constructor
  · rintro ⟨x, hx, rfl, rfl⟩
    by_cases hxe : x = e
    · subst hxe
      exact Or.inr ⟨by rw [hasid], hdir⟩
    · rw [hother x hxe] at hx ⊢
      exact Or.inl ⟨x, hx, rfl, rfl⟩
  · rintro (⟨x, hx, rfl, rfl⟩ | ⟨rfl, rfl⟩)
    · have hxe : x ≠ e := fun hc => hx (hc ▸ hold)
      exact ⟨x, by rwa [hother x hxe], by rw [hother x hxe], by rw [hother x hxe]⟩
    · exact ⟨e, hlive, by rw [hasid], hdir⟩

namespace EnvSpaces

variable (h : EnvSpaces M D K k)

include h

lemma owns_mem (a d : ℕ) (ho : Owns k a d) : d ∈ D := by
  obtain ⟨x, hx, -, rfl⟩ := ho
  exact h.dir x hx

/-- A page directory has one identifier. -/
lemma owns_asid (he : (k.envs e).status ≠ .free) (a : ℕ) (ho : Owns k a (k.envs e).pgdir) :
    a = (k.envs e).asid.toNat := by
  obtain ⟨x, hx, rfl, hd⟩ := ho
  rw [h.pgdir_inj x e hx he hd]

/-- An identifier has one page directory. -/
lemma owns_pgdir (he : (k.envs e).status ≠ .free) (d : ℕ)
    (ho : Owns k (k.envs e).asid.toNat d) : d = (k.envs e).pgdir := by
  obtain ⟨x, hx, ha, rfl⟩ := ho
  rw [h.asid_inj x e hx he (BitVec.eq_of_toNat_eq ha)]

/-- The identifier that `asid_alloc` takes has no page directory. -/
lemma owns_idle (ha : asidAlloc k.asidBitmap = .ok (asid, bitmap)) (d : ℕ) :
    ¬ Owns k asid.toNat d := by
  rintro ⟨x, hx, hax, -⟩
  obtain ⟨hlt, hunused, -⟩ := asidAlloc_ok ha
  have hbit := (h.asid_used asid.toNat hlt).mpr ⟨x, hx, hax⟩
  rw [hunused] at hbit
  exact absurd hbit Bool.false_ne_true

/-- An environment in use gives up its page directory. -/
lemma owns_free (he : (k.envs e).status ≠ .free) (hself : (k'.envs e).status = .free)
    (hother : ∀ x, x ≠ e → k'.envs x = k.envs x) (a d : ℕ) :
    Owns k' a d ↔ Owns k a d ∧ d ≠ (k.envs e).pgdir := by
  constructor
  · rintro ⟨x, hx, rfl, rfl⟩
    have hxe : x ≠ e := fun hc => hx (hc ▸ hself)
    rw [hother x hxe] at hx ⊢
    exact ⟨⟨x, hx, rfl, rfl⟩, fun hc => hxe (h.pgdir_inj x e hx he hc)⟩
  · rintro ⟨⟨x, hx, rfl, rfl⟩, hne⟩
    have hxe : x ≠ e := fun hc => hne (by rw [hc])
    exact ⟨x, by rwa [hother x hxe], by rw [hother x hxe], by rw [hother x hxe]⟩

end EnvSpaces

/-! ## Environments -/

/-- The environments keep what identifies them. -/
lemma KernCoherent.congr (h : Coherent k'.pm k.basePgdir (Owns k))
    (hbase : k'.basePgdir = k.basePgdir)
    (hst : ∀ x, (k'.envs x).status = .free ↔ (k.envs x).status = .free)
    (henv : ∀ x, (k.envs x).status ≠ .free →
      (k'.envs x).asid = (k.envs x).asid ∧ (k'.envs x).pgdir = (k.envs x).pgdir) :
    KernCoherent k' := by
  unfold KernCoherent
  rw [owns_congr hst henv, hbase]
  exact h

/-- The TLB stays coherent when another environment runs. -/
lemma KernCoherent.dispatched (h : KernCoherent k) (hd : Dispatched k k' e) : KernCoherent k' := by
  refine KernCoherent.congr (hd.pm ▸ h) hd.base (fun x => by rw [hd.status x]) fun x _ => ?_
  obtain ⟨tf, runs, hx⟩ := hd.envs x
  rw [hx]
  exact ⟨rfl, rfl⟩

/-- The TLB stays coherent when another environment runs. -/
lemma KernCoherent.schedule {yield : Bool} (h : KernCoherent k)
    (hr : schedule k yield = .ok k') : KernCoherent k' := by
  obtain ⟨c, hd⟩ := schedule_dispatched hr
  exact h.dispatched hd

/-- An environment in use changes, but not what identifies it. -/
lemma KernCoherent.setEnv (h : KernCoherent k) (he : (k.envs e).status ≠ .free) (f : Env → Env)
    (hf : ∀ x, (f x).asid = x.asid ∧ (f x).pgdir = x.pgdir)
    (hst : (f (k.envs e)).status ≠ .free) : KernCoherent (k.setEnv e f) := by
  refine KernCoherent.congr (k := k) h rfl (Kern.setEnv_free_iff he hst) fun x _ => ?_
  exact ⟨k.setEnv_keeps e f Env.asid (hf _).1 x, k.setEnv_keeps e f Env.pgdir (hf _).2 x⟩

/-! ## One entry -/

/-- `load_icode_mapper` maps a new page for the environment. -/
lemma Coherent.loadIcodeMapper {c : MapperCall} {base : ℕ} {R : ℕ → ℕ → Prop}
    (hcoh : Coherent k.pm base R) (ha : PageAccounting M k.pm D K ∅) (hK : base ∈ K)
    (hD : ∀ a d, R a d → d ∈ D) (hd : (k.envs e).pgdir ∈ D)
    (hR : ∀ a, R a (k.envs e).pgdir → a = (k.envs e).asid.toNat)
    (hasid : (k.envs e).asid.toNat < nasid) (hva : c.va < utop) (hperm : c.perm &&& pteG = 0)
    (hr : loadIcodeMapper M k e c = .ok (r, k')) : Coherent k'.pm base R := by
  unfold MosVolca.loadIcodeMapper at hr
  obtain ⟨⟨o, pm⟩, halloc, hr⟩ := bind_eq_ok.mp hr
  rcases o with r' | pp
  · simp at hr
  simp only [bind_eq_ok, pure_eq_ok, Except.ok.injEq, Prod.mk.injEq] at hr
  obtain ⟨pm1, hcopy, ⟨r1, pm2⟩, hins, rfl, rfl⟩ := hr
  obtain ⟨h1, -, -⟩ := ha.pageAlloc halloc
  have hmem : pp ∈ insert pp (∅ : Finset ℕ) := Finset.mem_insert_self pp ∅
  obtain ⟨m, rfl, hm⟩ := copySrc_cases (h1.held pp hmem).1.2 hcopy
  rcases pageAlloc_cases ha.free_lt halloc with ⟨-, ho, -⟩ | ⟨q', rest, hf, -, rfl⟩
  · simp at ho
  have htake := Coherent.takeFree hcoh ha.toUserAccounting hK hD hf
  have hwrite := htake.writeHeld h1.toUserAccounting hK hD hmem hm
  exact hwrite.pageInsert (h1.writeHeld hmem hm).toUserAccounting hK hD hd
    (pdx_lt_of_lt_utop hva) hR hasid hperm hins

section Step

variable (h : EnvSpaces M D K k) (hb : k.basePgdir ∈ K) (hcoh : KernCoherent k)

include h hb hcoh

/-- A page is mapped for an environment in use. -/
lemma EnvSpaces.coherent_insert {pm : PhysMem} (he : (k.envs e).status ≠ .free)
    (hva : pdx va < pdx utop) (hperm : perm &&& pteG = 0)
    (hr : pageInsert M k.pm (k.envs e).pgdir (k.envs e).asid q va perm = .ok (r, pm)) :
    Coherent pm k.basePgdir (Owns k) :=
  Coherent.pageInsert hcoh h.pages.toUserAccounting hb h.owns_mem (h.dir e he) hva
    (h.owns_asid he) (h.asid_lt e he) hperm hr

/-- A new page is mapped for an environment in use. -/
lemma EnvSpaces.coherent_alloc {pm pm1 : PhysMem} (he : (k.envs e).status ≠ .free)
    (hva : pdx va < pdx utop) (hperm : perm &&& pteG = 0)
    (hp : pageAlloc M k.pm = .ok (.ok q, pm1))
    (hr : pageInsert M pm1 (k.envs e).pgdir (k.envs e).asid q va perm = .ok (r, pm)) :
    Coherent pm k.basePgdir (Owns k) := by
  have hacc := h.pages.toUserAccounting
  rcases pageAlloc_cases hacc.free_lt hp with ⟨-, ho, -⟩ | ⟨q', rest, hf, -, rfl⟩
  · simp at ho
  have htake := Coherent.takeFree hcoh hacc hb h.owns_mem hf
  exact htake.pageInsert (hacc.takeFree hf) hb h.owns_mem (h.dir e he) hva
    (h.owns_asid he) (h.asid_lt e he) hperm hr

lemma EnvSpaces.coherent_memAlloc (hp : LibraryPerms (.memAlloc envid va perm))
    (hs : sysMemAlloc M k envid va perm = .ok (r, k')) : KernCoherent k' := by
  rcases sysMemAlloc_cases hs with ⟨-, rfl⟩ | ⟨e, pp, pm1, pm', hva, hid, halloc, hins, rfl⟩
  · exact hcoh
  · exact h.coherent_alloc hb hcoh (h.live hid) (pdx_of_legal hva) hp.2 halloc hins

lemma EnvSpaces.coherent_memMap {srcid srcva dstid dstva : Word}
    (hp : LibraryPerms (.memMap srcid srcva dstid dstva perm))
    (hs : sysMemMap M k srcid srcva dstid dstva perm = .ok (r, k')) : KernCoherent k' := by
  rcases sysMemMap_cases hs with ⟨-, rfl⟩ | ⟨src, dst, pp, pte, pm', -, hva, -, hid, -, hins, rfl⟩
  · exact hcoh
  · exact h.coherent_insert hb hcoh (h.live hid) (pdx_of_legal hva) hp.2 hins

lemma EnvSpaces.coherent_memUnmap (hs : sysMemUnmap M k envid va = .ok (r, k')) :
    KernCoherent k' := by
  rcases sysMemUnmap_cases hs with ⟨-, rfl⟩ | ⟨e, pm', hva, hid, hrem, -, rfl⟩
  · exact hcoh
  have he := h.live hid
  exact Coherent.pageRemove hcoh h.pages.toUserAccounting hb h.owns_mem (h.dir e he)
    (pdx_of_legal hva) (h.owns_asid he) (h.asid_lt e he) hrem

omit h hb in
/-- The TLB stays coherent when a message comes without a page. -/
lemma KernCoherent.received (he : (k.envs e).status ≠ .free) (cur : EnvPtr) (value perm : Word)
    (q : TailQueue.TailQ EnvPtr) :
    KernCoherent { k.received e cur value perm with envSchedList := q } := by
  have hset : KernCoherent (k.received e cur value perm) := by
    unfold Kern.received
    exact hcoh.setEnv he _ (fun _ => ⟨rfl, rfl⟩) (by simp)
  exact hset

/-- The TLB stays coherent when a page is sent. -/
lemma EnvSpaces.coherent_ipcTrySend {value srcva : Word}
    (hp : LibraryPerms (.ipcTrySend envid value srcva perm))
    (hs : sysIpcTrySend M k envid value srcva perm = .ok (r, k')) : KernCoherent k' := by
  rcases sysIpcTrySend_cases hs with ⟨rfl, -⟩ | ⟨e, cur, q, hva, hid, hrecv, hc, -, hk'⟩
  · exact hcoh
  have he := h.live hid
  rcases hk' with ⟨-, -, rfl⟩ | ⟨-, -, -, rfl⟩ | ⟨pp, pte, pm', -, -, hins, rfl⟩
  · exact hcoh.received he cur value perm q
  · exact hcoh.received he cur value perm q
  · have hmap : KernCoherent { k with pm := pm' } :=
      h.coherent_insert hb hcoh he (pdx_lt_of_lt_utop (h.dstva e hrecv)) hp.2 hins
    exact hmap.received he cur value perm q

omit hb in
lemma EnvSpaces.coherent_ipcRecv {dstva : Word} (hs : sysIpcRecv k dstva = .ok (o, k')) :
    KernCoherent k' := by
  rcases sysIpcRecv_cases hs with ⟨-, rfl⟩ | ⟨cur, q, -, -, hc, -, hsched⟩
  · exact hcoh
  have hset := hcoh.setEnv (h.cur cur hc)
    (fun x => { x with ipcRecving := 1, ipcDstva := dstva, status := .notRunnable })
    (fun _ => ⟨rfl, rfl⟩) (by simp)
  refine KernCoherent.schedule ?_ hsched
  exact hset

/-! ### New environments -/

/-- `env_alloc` fails; a page directory may be lost. -/
lemma EnvSpaces.coherent_envAlloc_error {parentId : Word}
    (hr : envAlloc M k parentId = .ok (.error r, k')) : KernCoherent k' := by
  have hacc := h.pages.toUserAccounting
  rcases envAlloc_cases hacc.free_lt hr with ⟨_, -, rfl⟩ | ⟨e, frest, q, rest, he, hf,
    ⟨-, -, rfl⟩ | ⟨_, _, -, ho, -⟩⟩
  · exact hcoh
  · have hold : (k.envs e).status = .free := (h.free_mem e).mp (he ▸ List.mem_cons_self)
    have hlost := Coherent.lostDir hcoh hacc hb h.owns_mem hf
    have hother : ∀ x, x ≠ e → (envReset (k.withDir e q rest) e).envs x = k.envs x := fun x hx => by
      simp only [envReset, Kern.withDir, mkenvid, Kern.setEnv, Function.update_of_ne hx]
    have hself : ((envReset (k.withDir e q rest) e).envs e).status = .free := by
      simp [envReset, Kern.withDir, mkenvid, Kern.setEnv, hold]
    refine KernCoherent.congr (k := k) hlost rfl (fun x => ?_) fun x hx => ?_
    · by_cases hxe : x = e
      · subst hxe
        exact iff_of_true hself hold
      · rw [hother x hxe]
    · have hxe : x ≠ e := fun hc => hx (hc ▸ hold)
      rw [hother x hxe]
      exact ⟨rfl, rfl⟩
  · simp at ho

/-- A new environment in use after `env_alloc`. -/
lemma EnvSpaces.coherent_allocated {frest : List EnvPtr} (he : k.envFreeList = e :: frest)
    (hf : k.pm.pageFreeList = q :: rest) (ha : asidAlloc k.asidBitmap = .ok (asid, bitmap))
    (parentId : Word) (f : Env → Env) (hf' : ∀ x, (f x).asid = x.asid ∧ (f x).pgdir = x.pgdir)
    (hst : ∀ x, (f x).status ≠ .free) :
    KernCoherent ((k.allocated e q rest asid bitmap parentId).setEnv e f) := by
  have hold : (k.envs e).status = .free := (h.free_mem e).mp (he ▸ List.mem_cons_self)
  have hself := k.allocated_self e q rest asid parentId bitmap
  refine Coherent.newDir hcoh h.pages.toUserAccounting hb h.owns_mem hf (h.owns_idle ha)
    (owns_alloc hold ?_ ?_ ?_ fun x hx => ?_)
  · rw [Kern.setEnv_envs_same]
    exact hst _
  · rw [Kern.setEnv_envs_same, (hf' _).1, hself]
  · rw [Kern.setEnv_envs_same, (hf' _).2, hself]
  · rw [Kern.setEnv_envs_of_ne _ f hx]
    exact Kern.allocated_of_ne _ _ _ _ _ _ _ hx

/-- The TLB stays coherent when an environment forks. -/
lemma EnvSpaces.coherent_exofork (hs : MosVolca.sysExofork M k = .ok (r, k')) : KernCoherent k' := by
  unfold MosVolca.sysExofork at hs
  obtain ⟨c, -, hs⟩ := bind_eq_ok.mp hs
  obtain ⟨⟨o, k1⟩, halloc, hs⟩ := bind_eq_ok.mp hs
  rcases o with r' | e
  · replace hs := pure_pair_inj hs
    exact hs.2 ▸ h.coherent_envAlloc_error hb hcoh halloc
  replace hs := pure_pair_inj hs
  rcases envAlloc_cases h.pages.free_lt halloc with ⟨_, ho, -⟩ | ⟨e', frest, q, rest, he, hf,
    ⟨-, ho, -⟩ | ⟨asid, bitmap, ha, ho, rfl⟩⟩
  · simp at ho
  · simp at ho
  obtain rfl : e = e' := by simpa using ho
  obtain ⟨-, rfl⟩ := hs
  exact h.coherent_allocated hb hcoh he hf ha _ _ (fun _ => ⟨rfl, rfl⟩) fun _ => by simp

/-- The loop of `load_icode`: the pages of the segments are mapped for the environment. -/
lemma EnvSpaces.coherent_loadIcode {binary : Option Image} (he : (k.envs e).status ≠ .free)
    (hlink : ∀ image ∈ binary, image.Linked ∧ ∀ c ∈ image.calls, c.perm &&& pteG = 0)
    (hr : loadIcode M k e binary = .ok k') : KernCoherent k' := by
  unfold loadIcode at hr
  rcases binary with _ | image
  · simp at hr
  simp only [bind_eq_ok, pure_eq_ok, Except.ok.injEq] at hr
  obtain ⟨k1, hfold, rfl⟩ := hr
  obtain ⟨hlinked, hlocal⟩ := hlink image rfl
  suffices hloop : (k1.envs = k.envs ∧ k1.basePgdir = k.basePgdir) ∧
      PageAccounting M k1.pm D K ∅ ∧ Coherent k1.pm k.basePgdir (Owns k) by
    obtain ⟨⟨henvs, hbase⟩, -, h1⟩ := hloop
    have hk1 : KernCoherent k1 := KernCoherent.congr h1 hbase (fun x => by rw [henvs])
      fun x _ => by rw [henvs]; exact ⟨rfl, rfl⟩
    exact hk1.setEnv (by rwa [henvs]) _ (fun _ => ⟨rfl, rfl⟩) (by rwa [henvs])
  refine foldlM_invariant (P := fun k1 : Kern => (k1.envs = k.envs ∧ k1.basePgdir = k.basePgdir) ∧
      PageAccounting M k1.pm D K ∅ ∧ Coherent k1.pm k.basePgdir (Owns k))
    (fun c hc k1 k2 ⟨⟨henvs, hbase⟩, ha, h1⟩ hstep => ?_) ⟨⟨rfl, rfl⟩, h.pages, hcoh⟩ hfold
  obtain ⟨⟨r, k3⟩, hmap, hstep⟩ := bind_eq_ok.mp hstep
  simp only at hstep
  split_ifs at hstep with hr0
  simp only [Except.ok.injEq] at hstep
  subst hstep
  obtain rfl : r = 0 := not_not.mp hr0
  obtain ⟨hva, hperm⟩ := hlinked c hc
  have hd : (k1.envs e).pgdir ∈ D := by
    rw [henvs]
    exact h.dir e he
  obtain ⟨henvs', ha'⟩ := loadIcodeMapper_accounting ha hd hva hperm hmap
  have hframe : k3.basePgdir = k1.basePgdir := by
    obtain ⟨pm, rfl⟩ := loadIcodeMapper_frame hmap
    rfl
  refine ⟨⟨henvs'.trans henvs, hframe.trans hbase⟩, ha', ?_⟩
  refine Coherent.loadIcodeMapper h1 ha hb h.owns_mem hd ?_ ?_ hva (hlocal c hc) hmap
  · rw [henvs]
    exact h.owns_asid he
  · rw [henvs]
    exact h.asid_lt e he

/-- The TLB stays coherent when an environment is created. -/
lemma EnvSpaces.coherent_envCreate {binary : Option Image} {priority : Word}
    (hlink : ∀ image ∈ binary, image.Linked ∧ ∀ c ∈ image.calls, c.perm &&& pteG = 0)
    (hr : MosVolca.envCreate M k binary priority = .ok (e, k')) : KernCoherent k' := by
  unfold MosVolca.envCreate at hr
  obtain ⟨⟨o, k1⟩, halloc, hr⟩ := bind_eq_ok.mp hr
  rcases o with r' | e1
  · simp at hr
  simp only [bind_eq_ok, pure_eq_ok, Except.ok.injEq, Prod.mk.injEq] at hr
  obtain ⟨k2, hload, rfl, rfl⟩ := hr
  rcases envAlloc_cases h.pages.free_lt halloc with ⟨_, ho, -⟩ | ⟨e', frest, q, rest, he, hf,
    ⟨-, ho, -⟩ | ⟨asid, bitmap, ha, ho, rfl⟩⟩
  · simp at ho
  · simp at ho
  obtain rfl : e1 = e' := by simpa using ho
  have hself := k.allocated_self e1 q rest asid 0 bitmap
  have hlist : (k.allocated e1 q rest asid bitmap 0).envFreeList = frest := by
    change k.envFreeList.erase e1 = frest
    rw [he, List.erase_cons_head]
  have hnew := h.coherent_allocated hb hcoh he hf ha 0
    (fun x => { x with pri := priority, status := .runnable }) (fun _ => ⟨rfl, rfl⟩)
    fun _ => by simp
  have hspaces : EnvSpaces M (insert q D) K ((k.allocated e1 q rest asid bitmap 0).setEnv e1
      fun x => { x with pri := priority, status := .runnable }) := by
    refine h.alloc he hf ha (h.pages.newDir hf k.basePgdir) hlist rfl rfl ?_ ?_ ?_ ?_ ?_
      fun x hx => ?_
    · rw [Kern.setEnv_envs_same]
      simp
    · rw [Kern.setEnv_envs_same, hself]
    · rw [Kern.setEnv_envs_same, hself]
    · rw [Kern.setEnv_envs_same, hself]
    · rw [Kern.setEnv_envs_same, hself]
      exact ⟨rfl, rfl⟩
    · rw [Kern.setEnv_envs_of_ne _ _ hx, Kern.allocated_of_ne _ _ _ _ _ _ _ hx]
  have hloaded := hspaces.coherent_loadIcode hb hnew (by simp) hlink hload
  exact hloaded

/-! ### Environments that end -/

lemma EnvSpaces.coherent_envFree {k1 : Kern} (he : (k.envs e).status ≠ .free)
    (hr : MosVolca.envFree M k e = .ok k1) : KernCoherent k1 := by
  have hd := h.dir e he
  obtain ⟨pm, q, hvm, -, rfl⟩ := envFree_frame hr
  refine Coherent.envFreeVm hcoh h.pages hb h.owns_mem hd (h.owns_asid he) (h.asid_lt e he)
    (h.ge _ hd) (h.owns_free he ?_ fun x hx => Function.update_of_ne hx _ _) hvm
  exact congrArg Env.status (Function.update_self e _ k.envs)

lemma EnvSpaces.coherent_envDestroy (hr : MosVolca.sysEnvDestroy M k envid = .ok (o, k')) :
    KernCoherent k' := by
  rcases sysEnvDestroy_cases hr with ⟨-, rfl⟩ | ⟨e, returned, hid, hd, -⟩
  · exact hcoh
  obtain ⟨k1, hfree, hd⟩ := envDestroy_cases hd
  have h1 := h.coherent_envFree hb hcoh (h.live hid) hfree
  rcases hd with ⟨-, -, hs⟩ | ⟨-, -, rfl⟩
  · refine KernCoherent.schedule ?_ hs
    exact h1
  · exact h1

/-- **An entry keeps the TLB coherent.** -/
theorem EnvSpaces.coherent_enter (hp : LibraryPerms a) (hs : enter M k a = .ok (o, k')) :
    KernCoherent k' := by
  cases a with
  | envCreate binary priority =>
    obtain ⟨⟨x, k1⟩, hc, hs⟩ := bind_eq_ok.mp hs
    replace hs := pure_pair_inj hs
    exact hs.2 ▸ h.coherent_envCreate hb hcoh hp hc
  | timer | yield =>
    obtain ⟨_, hr⟩ := enter_schedules hs trivial
    exact hcoh.schedule hr
  | envDestroy envid => exact h.coherent_envDestroy hb hcoh hs
  | setTlbModEntry envid func =>
    obtain ⟨r, hs⟩ := returning_eq_ok hs
    rcases sysSetTlbModEntry_cases hs with ⟨-, rfl⟩ | ⟨e, hid, -, rfl⟩
    · exact hcoh
    · exact hcoh.setEnv (h.live hid) _ (fun _ => ⟨rfl, rfl⟩) (h.live hid)
  | memAlloc envid va perm =>
    obtain ⟨r, hs⟩ := returning_eq_ok hs
    exact h.coherent_memAlloc hb hcoh hp hs
  | memMap srcid srcva dstid dstva perm =>
    obtain ⟨r, hs⟩ := returning_eq_ok hs
    exact h.coherent_memMap hb hcoh hp hs
  | memUnmap envid va =>
    obtain ⟨r, hs⟩ := returning_eq_ok hs
    exact h.coherent_memUnmap hb hcoh hs
  | exofork =>
    obtain ⟨r, hs⟩ := returning_eq_ok hs
    exact h.coherent_exofork hb hcoh hs
  | setEnvStatus envid status =>
    obtain ⟨r, hs⟩ := returning_eq_ok hs
    rcases sysSetEnvStatus_cases hs with ⟨-, rfl⟩ | ⟨e, q, hid, -, -, rfl⟩
    · exact hcoh
    have hset := hcoh.setEnv (h.live hid) (fun x => { x with status := .ofWord status })
      (fun _ => ⟨rfl, rfl⟩) (by unfold EnvStatus.ofWord; split_ifs <;> simp)
    exact hset
  | ipcRecv dstva => exact h.coherent_ipcRecv hcoh hs
  | ipcTrySend envid value srcva perm =>
    obtain ⟨r, hs⟩ := returning_eq_ok hs
    exact h.coherent_ipcTrySend hb hcoh hp hs

end Step

/-! ## Runs -/

/-- **An event keeps the TLB coherent.** -/
theorem RunSpaces.coherent_happens (h : RunSpaces M D K k) (hcoh : KernCoherent k)
    (hp : ev.Permitted k) (hs : Happens M k ev k') : KernCoherent k' := by
  cases hs with
  | @entry a tf r k' hs =>
    exact (h.toOwnSpaces.trap tf).toEnvSpaces.coherent_enter h.base_mem hcoh hp hs
  | @refill e va w s hc hr =>
    have he := h.cur e hc
    have hd := h.dir e he
    have hlt := h.pages.toAccounting.dir_bits hd
    have hown : Owns k (k.envs e).asid.toNat (k.envs e).pgdir := ⟨e, he, rfl, rfl⟩
    have hvis : UserVisible va := by
      rcases hp e hc with hva | ⟨hw, hw', -⟩
      · exact UserVisible.of_lt hva
      · exact Or.inr (pdx_of_window hw hw')
    rw [h.curDir e hc] at hr
    rcases refill_cases h.pages.toUserAccounting hd ((hp e hc).imp_right fun h => h.2.2) hr with
      ⟨rfl, ht⟩ | ⟨hva, hnone, q, s1, rfl, halloc, hins⟩
    · exact Coherent.tlbWrite hcoh hown (h.owns_pgdir he) hlt hvis ht
    · -- a new page is mapped first
      have hi : pdx (pteAddr va) < pdx utop := by
        rw [pdx_pteAddr]
        exact pdx_lt_of_lt_utop hva
      have hmap := h.coherent_alloc h.base_mem hcoh he hi (by decide : pteD &&& pteG = 0) halloc hins
      refine Coherent.tlbWrite hmap hown (h.owns_pgdir he) hlt hvis ?_
      obtain ⟨h1, -, -⟩ := h.pages.pageAlloc halloc
      rw [h1.translate_pageInsert hd hi hins hd (pdx_lt_of_lt_utop hva), if_pos]
      exact ⟨rfl, (vpn_pteAddr va).symm⟩
  | @drop a v =>
    refine Coherent.fewer hcoh rfl fun a' va w ht => ?_
    by_cases hc : a' = a ∧ vpn va = v
    · obtain ⟨rfl, rfl⟩ := hc
      simp [PhysMem.tlbDrop] at ht
    · rw [← ht]
      by_cases ha : a' = a
      · subst ha
        have hv : vpn va ≠ v := fun hv => hc ⟨rfl, hv⟩
        simp [PhysMem.tlbDrop, Function.update_of_ne hv]
      · simp [PhysMem.tlbDrop, Function.update_of_ne ha]

variable {σ : ℕ → Kern} {act : ℕ → Event} {mem : Store Word} {pm₀ : PhysMem} {ktf : Trapframe}

/-- After `env_init` the TLB is empty, and no entry of the template is global. -/
lemma coherent_boot {pm : PhysMem} {base : ℕ} (htlb : pm.tlb = fun _ _ => none)
    (hbase : ∀ i, pteValid (pm.mem base i) = true → ∃ q, pm.mem base i = mkPde q) :
    KernCoherent (Kern.boot pm base ktf) := by
  have hno : ∀ a d, ¬ Owns (Kern.boot pm base ktf) a d := fun a d ⟨x, hx, _⟩ => hx rfl
  refine ⟨⟨fun d ⟨a, hR⟩ => absurd hR (hno a d), fun d ⟨a, hR⟩ => absurd hR (hno a d),
    fun d ⟨a, hR⟩ => absurd hR (hno a d), fun i _ _ hv => ?_,
    fun d ⟨a, hR⟩ => absurd hR (hno a d), fun d ⟨a, hR⟩ => absurd hR (hno a d)⟩,
    fun a va w ht => ?_⟩
  · obtain ⟨q, hq⟩ := hbase i hv
    exact hq ▸ mkPde_local q
  · change pm.tlb a (vpn va) = some w at ht
    rw [htlb] at ht
    simp at ht

/-- The TLB is coherent in every state of a run from the boot. -/
lemma kernCoherent_of_run (hM : M.BootLayout) (hinit : pageInit M mem = .ok pm₀)
    (hboot : envInit M pm₀ ktf = .ok (σ 0)) (hrun : EventRun M n σ act)
    (hperm : ∀ t < n, (act t).Permitted (σ t)) (hroom : ∀ t < n, (act t).HasRoom M (σ t)) :
    ∀ t ≤ n, KernCoherent (σ t) := by
  have hspaces := runSpaces_of_run hM hinit hboot hrun fun t ht =>
    (hperm t ht).keepsCounts (hroom t ht)
  intro t ht
  induction t with
  | zero =>
    obtain ⟨pm, base, K, henv, -, htlb, ⟨-, hbase⟩, -⟩ := envInit_returns hM hinit ktf
    have hstart : σ 0 = Kern.boot pm base ktf := by simpa [henv] using hboot.symm
    exact hstart ▸ coherent_boot htlb hbase
  | succ t ih =>
    obtain ⟨D, K, h⟩ := hspaces t (by omega)
    exact h.coherent_happens (ih (by omega)) (hperm t (by omega)) (hrun t (by omega))

/-- **TLB coherence in every reachable state.** In every state of a run of kernel entries, refills
and losses of TLB entries from the boot on, with permissions as programs pass them and refills at
addresses below `UTOP` or of the window, in which no page is mapped at more addresses than `pp_ref`
can count: what the TLB answers for an environment in use is its translation. -/
theorem tlbCoherent_of_run (hM : M.BootLayout) (hinit : pageInit M mem = .ok pm₀)
    (hboot : envInit M pm₀ ktf = .ok (σ 0)) (hrun : EventRun M n σ act)
    (hperm : ∀ t < n, (act t).Permitted (σ t)) (hroom : ∀ t < n, (act t).HasRoom M (σ t)) :
    ∀ t ≤ n, ∀ e va w, ((σ t).envs e).status ≠ .free →
      (σ t).pm.TlbHit ((σ t).envs e).asid va w →
        translate (σ t).pm ((σ t).envs e).pgdir va = some w := by
  rintro t ht e va w he ⟨a, htlb, hmatch⟩
  have hheld := (kernCoherent_of_run hM hinit hboot hrun hperm hroom t ht).held a va w htlb
  obtain rfl := hmatch.resolve_right (not_not.mpr hheld.notGlobal)
  exact hheld.owned _ ⟨e, he, rfl, rfl⟩

end MosVolca
