import MosVolca.Kern.DemandPaging
import MosVolca.User.ForkLoop

/-!
# The memory after fork

What `fork` has done when it returns a child to the parent. The results of the calls that map the
pages are ignored, so the child may lack pages.

## Main definitions

* `MosVolca.ForkState` — a program in an accounted address space.
* `MosVolca.Forked` — the state after `fork`.

## Main results

* `MosVolca.fork_result` — the memory after `fork`.
-/

namespace MosVolca

open TwoLevel

variable {M : Machine} {s s' s₀ : PhysMem} {D K : Finset ℕ} {d q i m n : ℕ} {rest : List ℕ}
  {va w asid child r cow : Word} {k k' k₁ : Kern} {c e x : EnvPtr} {frest : List EnvPtr}
  {bitmap : ℕ → Word} {P P' : Proc}

/-- A program runs in the environment `c`, whose address space is accounted for; the environments
on the free list are free. -/
structure ForkState (M : Machine) (k : Kern) (c : EnvPtr) (D K : Finset ℕ) : Prop where
  accounting : UserAccounting M k.pm D K ∅
  cur : k.curenv = some c
  curPgdir : k.curPgdir = (k.envs c).pgdir
  dir : (k.envs c).pgdir ∈ D
  inUse : (k.envs c).status ≠ .free
  free : ∀ e ∈ k.envFreeList, (k.envs e).status = .free

/-! ## `sys_exofork` -/

/-- The child is found under its identifier. -/
lemma ForkState.hasChild (h : ForkState M k c D K) (he : k.envFreeList = e :: frest)
    (hf : k.pm.pageFreeList = q :: rest) (hid : k.nextId e ≠ 0) :
    HasChild (k.forked c e q rest asid bitmap) D c e (k.nextId e) := by
  have hce : c ≠ e := fun hce => h.inUse (h.free c (by rw [he, hce]; exact List.mem_cons_self))
  obtain ⟨h1, h2, h3, h4⟩ := k.forked_self c e q rest asid bitmap
  have hown : (k.forked c e q rest asid bitmap).envs c = k.envs c := Kern.forked_of_ne hce
  have hcur : (k.forked c e q rest asid bitmap).curenv = some c := h.cur
  refine ⟨h.cur, ?_, ?_, ?_, ?_⟩
  · rw [hown]
    exact h.curPgdir
  · unfold envid2env
    rw [if_neg hid]
    simp only [envx_nextId, h1, h2, h4, hcur, deref]
    simp [hown]
  · rw [hown]
    exact h.dir
  · rw [h3]
    intro hq
    exact Shape.not_node_of_refCount (h.accounting.head_free hf).2.2.2 (Shape.Node.of_mem hq)

/-- The loop begins with an empty child. -/
lemma ForkState.forking (h : ForkState M k c D K) (hf : k.pm.pageFreeList = q :: rest) :
    Forking M k.pm D K (k.envs c).pgdir q rest.length 0 0 (k.pm.newDir q rest k.basePgdir) := by
  have hnode := Shape.not_node_of_refCount (h.accounting.head_free hf).2.2.2
  have hne : (k.envs c).pgdir ≠ q := fun he => hnode (he ▸ Shape.Node.of_mem h.dir)
  have hno : ∀ m, ¬ Dupped 0 m := fun m hm => Nat.not_lt_zero m hm.2.1
  have htables : childTables (k.pm.newDir q rest k.basePgdir) q = ∅ := by
    refine Finset.eq_empty_of_forall_notMem fun i hi => ?_
    obtain ⟨hlt, hv⟩ := mem_childTables.mp hi
    rw [PhysMem.newDir_mem_user hlt, pteValid_zero] at hv
    exact absurd hv Bool.false_ne_true
  refine ⟨h.accounting.newDir hf _, fun i => congrFun (PhysMem.newDir_mem_of_ne hne) i,
    fun m hm => ?_, fun m hm => ?_, ?_, Or.inl ?_, ?_, fun m hm w hw => ?_⟩
  · rw [if_neg (hno m)]
    exact h.accounting.translate_newDir hf h.dir (userPages_lt hm).2
  · rw [if_neg fun hc => hno m hc.1]
    refine translate_eq_none_iff.mpr fun hv => ?_
    rw [PhysMem.newDir_mem_user (userPages_lt hm).2, pteValid_zero] at hv
    exact absurd hv Bool.false_ne_true
  · rw [htables]
    exact Finset.empty_subset _
  · rw [htables]
    rfl
  · rw [htables, Finset.card_empty, Nat.zero_add]
    rfl
  · refine PhysMem.newDir_mem_of_ne fun he => ?_
    have hleaf := leaf_of_translate (n := pdx utop) h.dir (userPages_lt hm).2 hw
    exact (h.accounting.insertable_of_leaf hleaf).not_free (by
      rw [he, hf]
      exact List.mem_cons_self)

/-! ## `fork` -/

/-- The two states have the same memory and the same page directories. -/
structure SameSpaces (k k' : Kern) : Prop where
  pm : k'.pm = k.pm
  pgdir : ∀ x, (k'.envs x).pgdir = (k.envs x).pgdir

lemma SameSpaces.setEnv (h : SameSpaces k k') (e : EnvPtr) {f : Env → Env}
    (hf : ∀ x, (f x).pgdir = x.pgdir) : SameSpaces k (k'.setEnv e f) := by
  refine ⟨h.pm, fun x => ?_⟩
  by_cases hx : x = e
  · rw [hx, Kern.setEnv_envs_same, hf, h.pgdir]
  · rw [Kern.setEnv_envs_of_ne _ _ hx, h.pgdir]

lemma SameSpaces.refl (k : Kern) : SameSpaces k k := ⟨rfl, fun _ => rfl⟩

/-- `sys_set_tlb_mod_entry` changes no address space, and its errors are negative. -/
lemma sysSetTlbModEntry_same {envid func : Word}
    (h : sysSetTlbModEntry k envid func = .ok (r, k')) : SameSpaces k k' ∧ r.toInt ≤ 0 := by
  rcases sysSetTlbModEntry_cases h with ⟨rfl, rfl⟩ | ⟨e, -, rfl, rfl⟩
  · exact ⟨.refl k', by decide⟩
  · exact ⟨(SameSpaces.refl k).setEnv e fun _ => rfl, by decide⟩

/-- Nor does `sys_set_env_status`. -/
lemma sysSetEnvStatus_same {envid status : Word}
    (h : sysSetEnvStatus k envid status = .ok (r, k')) : SameSpaces k k' ∧ r.toInt ≤ 0 := by
  rcases sysSetEnvStatus_cases h with ⟨rfl | rfl, rfl⟩ | ⟨e, q, -, rfl, -, rfl⟩
  · exact ⟨.refl k', by decide⟩
  · exact ⟨.refl k', by decide⟩
  · have hq : SameSpaces k { k with envSchedList := q } := ⟨rfl, fun _ => rfl⟩
    exact ⟨hq.setEnv e fun _ => rfl, by decide⟩

/-- A call comes back with the result of the system call, which is logged. -/
lemma Proc.call_eq_ok {x : Kernel (Word × Kern)} :
    P.call x = .ok (r, P') ↔ x = .ok (r, P'.kern) ∧ P'.results = P.results ++ [r] := by
  constructor
  · intro h
    obtain ⟨⟨r', k'⟩, hx, h⟩ := bind_eq_ok.mp h
    obtain ⟨rfl, rfl⟩ := pure_pair_inj h
    exact ⟨hx, rfl⟩
  · rintro ⟨hx, hlog⟩
    obtain ⟨k', rs⟩ := P'
    simp only at hx hlog
    unfold call
    rw [hx, hlog]
    rfl

/-- The handler of the current environment can be set. -/
lemma setHandler_cases (h : setHandler P cow = .ok (r, P')) : r = 0 ∧
    SameSpaces P.kern P'.kern ∧ ∃ c f, P.kern.curenv = some c ∧
      (P' = P ∨ P' = ⟨P.kern.setEnv c fun x => { x with userTlbModEntry := f }, P.results ++ [0]⟩) := by
  unfold setHandler at h
  obtain ⟨c, hc, h⟩ := bind_eq_ok.mp h
  have hcur := deref_eq_ok.mp hc
  split_ifs at h with htlb
  · obtain ⟨h1, hlog⟩ := Proc.call_eq_ok.mp h
    have hid : envid2env P.kern 0 true = .ok (.ok (some c)) := by
      rw [envid2env, if_pos rfl, hcur]
      rfl
    unfold sysSetTlbModEntry at h1
    rw [hid] at h1
    simp only [ok_bind, deref, pure_eq_ok, Except.ok.injEq, Prod.mk.injEq] at h1
    obtain ⟨rfl, hk⟩ := h1
    refine ⟨rfl, ?_, c, cow, hcur, Or.inr ?_⟩
    · rw [← hk]
      exact (SameSpaces.refl _).setEnv c fun _ => rfl
    · rw [hk, ← hlog]
  · obtain ⟨rfl, rfl⟩ := pure_pair_inj h
    exact ⟨rfl, .refl _, c, cow, hcur, Or.inl rfl⟩

/-- The steps of a `fork` that returns a child to the parent. -/
lemma fork_cases (h : fork M P cow = .ok (r, P')) (hr : 0 < r.toInt) : ∃ P₁ P₂ P₃ P₄,
    setHandler P cow = .ok (0, P₁) ∧ syscallExofork M P₁ = .ok (r, P₂) ∧
    forkPages M r P₂ = .ok P₃ ∧ syscallSetTlbModEntry P₃ r cow = .ok (0, P₄) ∧
    syscallSetEnvStatus P₄ r envRunnable = .ok (0, P') := by
  unfold fork at h
  obtain ⟨⟨r1, P₁⟩, h1, h⟩ := bind_eq_ok.mp h
  obtain ⟨rfl, -⟩ := setHandler_cases h1
  simp only [ne_eq, not_true_eq_false, ↓reduceIte] at h
  obtain ⟨⟨child, P₂⟩, h2, h⟩ := bind_eq_ok.mp h
  simp only at h
  split_ifs at h with hchild
  · replace h := pure_pair_inj h
    rw [← h.1] at hr
    exact absurd hr (by decide)
  obtain ⟨P₃, h3, h⟩ := bind_eq_ok.mp h
  obtain ⟨⟨r4, P₄⟩, h4, h⟩ := bind_eq_ok.mp h
  have hle4 := (sysSetTlbModEntry_same (Proc.call_eq_ok.mp h4).1).2
  simp only at h
  split_ifs at h with hr4
  · subst hr4
    obtain ⟨⟨r5, P₅⟩, h5, h⟩ := bind_eq_ok.mp h
    have hle5 := (sysSetEnvStatus_same (Proc.call_eq_ok.mp h5).1).2
    simp only [pure_eq_ok, Except.ok.injEq, Prod.mk.injEq] at h
    obtain ⟨hr5, rfl⟩ := h
    split_ifs at hr5 with h0
    · subst hr5 h0
      exact ⟨P₁, P₂, P₃, P₄, h1, h2, h3, h4, h5⟩
    · rw [hr5] at hle5
      omega
  · replace h := pure_pair_inj h
    rw [h.1] at hle4
    omega

/-- **The state after a `fork` that returns the child `r`**: the child has the first free page as its
page directory, and the loop has done all user pages. If every call has succeeded, every page of
the parent is legal and has a page table in the child. -/
structure Forked (M : Machine) (P P' : Proc) (c : EnvPtr) (r : Word) (D K : Finset ℕ) (q : ℕ)
    (rest : List ℕ) : Prop where
  free : P.kern.pm.pageFreeList = q :: rest
  fresh : q ∉ D
  parentDir : (P'.kern.envs c).pgdir = (P.kern.envs c).pgdir
  childDir : (P'.kern.envs (envx r)).pgdir = q
  ne : envx r ≠ c
  mem : Forking M P.kern.pm D K (P.kern.envs c).pgdir q rest.length userPages userPages P'.kern.pm
  log : (∀ x ∈ P'.results, 0 ≤ x.toInt) → ∀ m < vpn ustacktop,
    entryAt P.kern.pm (P.kern.envs c).pgdir m ≠ none →
      vpn utemp ≤ m ∧ pteValid (P'.kern.pm.mem q (m / 1024)) = true

/-- Setting the handler keeps the state of the program. -/
lemma ForkState.setHandler (h : ForkState M P.kern c D K) (hs : setHandler P cow = .ok (r, P')) :
    ForkState M P'.kern c D K := by
  obtain ⟨-, -, x, f, hx, rfl | rfl⟩ := setHandler_cases hs
  · exact h
  obtain rfl : x = c := Option.some.inj (hx.symm.trans h.cur)
  have hself := Kern.setEnv_envs_same P.kern x fun y => { y with userTlbModEntry := f }
  refine ⟨h.accounting, h.cur, ?_, ?_, ?_, fun e he => ?_⟩
  · rw [hself]
    exact h.curPgdir
  · rw [hself]
    exact h.dir
  · rw [hself]
    exact h.inUse
  · rw [P.kern.setEnv_keeps x _ Env.status rfl]
    exact h.free e he

/-- **The memory after `fork`.** -/
theorem fork_result (h : ForkState M P.kern c D K) (hr : fork M P cow = .ok (r, P'))
    (hpos : 0 < r.toInt) : ∃ q rest, Forked M P P' c r D K q rest := by
  obtain ⟨P₁, P₂, P₃, P₄, h1, h2, h3, h4, h5⟩ := fork_cases hr hpos
  have hs1 := h.setHandler h1
  obtain ⟨-, hsame1, -⟩ := setHandler_cases h1
  have hfree : ∀ q ∈ P₁.kern.pm.pageFreeList, q < M.npage := hs1.accounting.free_lt
  obtain ⟨h2, -⟩ := Proc.call_eq_ok.mp h2
  rcases sysExofork_cases hfree h2 with h0 | ⟨x, e, frest, q, rest, asid, bitmap, hx, he, hf, -,
    rfl, hk⟩
  · rcases h0 with rfl | rfl
    · exact absurd hpos (by decide)
    · exact absurd hpos (by decide)
  obtain rfl : x = c := Option.some.inj (hx.symm.trans hs1.cur)
  have hid : P₁.kern.nextId e ≠ 0 := fun h0 => by
    rw [h0] at hpos
    exact absurd hpos (by decide)
  have hchild : HasChild P₂.kern D x e (P₁.kern.nextId e) := hk ▸ hs1.hasChild he hf hid
  have hne : e ≠ x := fun hex => hs1.inUse (hs1.free x (by
    rw [he, hex]
    exact List.mem_cons_self))
  have hdir : (P₂.kern.envs x).pgdir = (P.kern.envs x).pgdir := by
    rw [hk, Kern.forked_of_ne hne.symm, hsame1.pgdir]
  have hcdir : (P₂.kern.envs e).pgdir = q := by
    rw [hk]
    exact (P₁.kern.forked_self x e q rest asid bitmap).2.2.1
  have hloop : ForkLoop M P₂.kern P.kern.pm D K x e rest.length 0 P₂ := by
    refine ⟨rfl, ?_, fun _ m hm => absurd hm (Nat.not_lt_zero m)⟩
    have h0 := hs1.forking hf
    rw [hsame1.pm, hsame1.pgdir] at h0
    rw [hdir, hcdir, hk, Kern.forked_pm, hsame1.pm]
    exact h0
  obtain ⟨P₃', h3', hend⟩ := ForkLoop.forkPages_returns hchild hloop
  obtain rfl : P₃' = P₃ := by
    rw [h3'] at h3
    exact Except.ok.inj h3
  obtain ⟨h4, hlog4⟩ := Proc.call_eq_ok.mp h4
  obtain ⟨h5, hlog5⟩ := Proc.call_eq_ok.mp h5
  obtain ⟨hsame4, -⟩ := sysSetTlbModEntry_same h4
  obtain ⟨hsame5, -⟩ := sysSetEnvStatus_same h5
  have hpm : P'.kern.pm = P₃'.kern.pm := hsame5.pm.trans hsame4.pm
  have hpgdir : ∀ y, (P'.kern.envs y).pgdir = (P₂.kern.envs y).pgdir := fun y => by
    rw [hsame5.pgdir, hsame4.pgdir, hend.kern]
  refine ⟨q, rest, ?_, ?_, ?_, ?_, ?_, ?_, fun hall m hm hne' => ?_⟩
  · rw [← hsame1.pm]
    exact hf
  · rw [← hcdir]
    exact hchild.childDir
  · rw [hpgdir, hdir]
  · rw [envx_nextId, hpgdir, hcdir]
  · rwa [envx_nextId]
  · have hmem := hend.mem
    rwa [hdir, hcdir, ← hpm] at hmem
  · have hlog := hend.log (fun y hy => hall y (by simp [hlog5, hlog4, hy])) m
      (hm.trans (by decide)) hm
    rw [hdir, hcdir, ← hpm] at hlog
    exact hlog hne'

lemma dupped_userPages : Dupped userPages m ↔ vpn utemp ≤ m ∧ m < vpn ustacktop := by
  have h1 : userPages = 521216 := by decide
  rw [Dupped, vpn_ustacktop, h1]
  omega

/-! ## One environment -/

/-- The environment 0 runs, with its page directory in page 0; nothing else is in use. -/
def soloKern (pm : PhysMem) : Kern :=
  { Kern.boot pm 0 Env.zero.tf with
    envs := fun e =>
      if e = 0 then { Env.zero with id := 0x800, status := .runnable, pri := 1 } else Env.zero
    envFreeList := [1]
    envSchedList := (Kern.boot pm 0 Env.zero.tf).envSchedList.insertHead 0
    curenv := some 0
    asidBitmap := fun _ => 1#32
    envidCount := 1 }

lemma soloKern_state {pm : PhysMem} (h : UserAccounting M pm {0} ∅ ∅) :
    ForkState M (soloKern pm) 0 {0} ∅ := by
  refine ⟨h, rfl, rfl, Finset.mem_singleton_self 0, ?_, fun e he => ?_⟩
  · change EnvStatus.runnable ≠ .free
    decide
  · obtain rfl : e = 1 := by simpa [soloKern] using he
    rfl

end MosVolca
