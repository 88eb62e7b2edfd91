import MosVolca.Kern.Ipc
import MosVolca.Kern.RunQueue
import MosVolca.Library.Cyclic

/-!
# Round-robin scheduling

`schedule` keeps the current environment until its slices are used up, and then takes the head of
`env_sched_list`, after it has moved the current environment to the tail.

## Main definitions

* `MosVolca.ReadyQueue` — the queue holds the runnable environments, once each.
* `MosVolca.Scheduled` — the state after `schedule`.
* `MosVolca.QueueStep` — calls of `schedule`, insertions at the tail and removals.
* `MosVolca.Queued` — how many times another environment can be picked before one that waits.

## Main results

* `MosVolca.schedule_returns` — what `schedule` does on a well-formed queue.
* `MosVolca.Slice.tick` — one timer tick.
* `MosVolca.Queued.step` — one step, while an environment waits.
* `MosVolca.round_robin` — the order in which environments run.
-/

namespace MosVolca

open TailQueue Cyclic

/-- `env_sched_list` holds exactly the runnable environments, once each. -/
structure ReadyQueue (k : Kern) (l : List EnvPtr) : Prop where
  repr : k.envSchedList.Repr l
  mem : ∀ e, e ∈ l ↔ (k.envs e).status = .runnable

/-- The queue after the current environment, if it is runnable, has gone to the tail. -/
def requeued (k : Kern) (l : List EnvPtr) : List EnvPtr :=
  match k.curenv with
  | some c => if (k.envs c).status = .runnable then l.erase c ++ [c] else l
  | none => l

/-- `schedule` has led from `k` to `k'`: `e` runs, the queue is `l`, and the counter `count`. -/
structure Scheduled (k k' : Kern) (e : EnvPtr) (l : List EnvPtr) (count : Word) : Prop where
  cur : k'.curenv = some e
  repr : k'.envSchedList.Repr l
  count : k'.count = count
  envs : ∀ x, (k.envs x).SameBut (k'.envs x)

variable {k k' k1 : Kern} {c e x : EnvPtr} {l l₁ l₂ rest : List EnvPtr} {yield : Bool} {j n t : ℕ}

/-! ## One call -/

lemma envRun_returns (h : (k.envs e).status = .runnable) : ∃ k', envRun k e = .ok k' ∧
    k'.count = k.count := by
  refine ⟨switchTo (saveContext k) e, ?_, ?_⟩
  · unfold envRun
    rw [if_neg (not_not.mpr h)]
    rfl
  · exact (congrArg Kern.count (saveContext_eq k) :)

lemma requeued_runnable (hc : k.curenv = some c) (hr : (k.envs c).status = .runnable) :
    requeued k l = l.erase c ++ [c] := by
  unfold requeued
  rw [hc]
  exact if_pos hr

lemma requeued_of_not_runnable (h : ∀ c, k.curenv = some c → (k.envs c).status ≠ .runnable) :
    requeued k l = l := by
  unfold requeued
  rcases hc : k.curenv with _ | c
  · rfl
  · exact if_neg (h c hc)

/-- The running environment can be put at the end of the queue. -/
lemma requeue_returns (h : k.envSchedList.Repr l)
    (hc : ∀ c, k.curenv = some c → (k.envs c).status = .runnable → c ∈ l) :
    ∃ q, requeue k = .ok { k with envSchedList := q } ∧ q.Repr (requeued k l) := by
  unfold requeue
  split
  case h_1 c hcur =>
    by_cases hr : (k.envs c).status = .runnable
    · obtain ⟨q1, h1, hrepr1⟩ := h.remove (hc c hcur hr)
      obtain ⟨q2, h2, hrepr2⟩ := hrepr1.insertTail h.nodup.not_mem_erase
      rw [if_pos hr, h1, requeued_runnable hcur hr]
      refine ⟨q2, ?_, hrepr2⟩
      simp only [deref, pure_eq_ok, ok_bind, h2]
    · rw [if_neg hr, requeued_of_not_runnable fun c' hc' => ?_]
      · exact ⟨k.envSchedList, rfl, h⟩
      · obtain rfl : c = c' := by simpa [hcur] using hc'
        exact hr
  case h_2 hcur =>
    rw [requeued_of_not_runnable fun c' hc' => by simp [hcur] at hc']
    exact ⟨k.envSchedList, rfl, h⟩

lemma mem_requeued (h : k.envSchedList.Repr l)
    (hc : ∀ c, k.curenv = some c → (k.envs c).status = .runnable → c ∈ l) :
    x ∈ requeued k l ↔ x ∈ l := by
  by_cases hr : ∃ c, k.curenv = some c ∧ (k.envs c).status = .runnable
  · obtain ⟨c, hcur, hr⟩ := hr
    have hcl := hc c hcur hr
    rw [requeued_runnable hcur hr, List.mem_append, List.mem_singleton, h.nodup.mem_erase_iff]
    by_cases hx : x = c
    · simp [hx, hcl]
    · simp [hx]
  · rw [requeued_of_not_runnable fun c hcur hrun => hr ⟨c, hcur, hrun⟩]

/-- When the running environment stays. -/
lemma stays_eq_some_iff : stays k yield = some e ↔ k.curenv = some e ∧ yield = false ∧
    k.count ≠ 0 ∧ (k.envs e).status = .runnable := by
  unfold stays
  rcases k.curenv with _ | c
  · simp
  · simp only
    constructor
    · intro h
      split_ifs at h with hstay
      obtain rfl : c = e := by simpa using h
      simp only [not_or, not_not] at hstay
      exact ⟨rfl, by simpa using hstay.1, hstay.2.1, hstay.2.2⟩
    · rintro ⟨hc, rfl, hcount, hr⟩
      obtain rfl : c = e := by simpa using hc
      rw [if_neg]
      simpa [hr] using hcount

/-- **What `schedule` does**: it keeps the current environment, or takes the head of the queue
after it has moved the current environment to the tail. -/
theorem schedule_returns (h : k.envSchedList.Repr l) (hmem : ∀ x ∈ l, (k.envs x).status = .runnable)
    (hc : ∀ c, k.curenv = some c → (k.envs c).status = .runnable → c ∈ l) (hne : l ≠ [])
    (yield : Bool) :
    (∃ e k', stays k yield = some e ∧ schedule k yield = .ok k' ∧
      Scheduled k k' e l (k.count - 1)) ∨
    (stays k yield = none ∧ ∃ e rest k', requeued k l = e :: rest ∧ schedule k yield = .ok k' ∧
      Scheduled k k' e (e :: rest) ((k.envs e).pri - 1)) := by
  rcases hs : stays k yield with _ | e
  · right
    refine ⟨rfl, ?_⟩
    obtain ⟨q, hq, hrepr⟩ := requeue_returns h hc
    have hperm := fun x => mem_requeued (x := x) h hc
    obtain ⟨e, rest, hlist⟩ := List.exists_cons_of_ne_nil (l := requeued k l) fun hnil => by
      obtain ⟨x, hx⟩ := List.exists_mem_of_ne_nil l hne
      have := (hperm x).mpr hx
      simp [hnil] at this
    have hr : (k.envs e).status = .runnable :=
      hmem e ((hperm e).mp (hlist ▸ List.mem_cons_self))
    have hfirst : q.first = some e := by rw [hrepr.first, hlist, List.head?_cons]
    obtain ⟨k', hrun, hcount⟩ := envRun_returns
      (k := { k with envSchedList := q, count := (k.envs e).pri - 1 }) hr
    obtain ⟨hd, hl⟩ := envRun_dispatched hrun
    refine ⟨e, rest, k', hlist, ?_, hd.cur, by rw [hl]; exact hlist ▸ hrepr, hcount, hd.envs⟩
    unfold schedule
    rw [hs]
    simp only [hq, ok_bind, pickEnv, hfirst, pure_eq_ok]
    exact hrun
  · left
    obtain ⟨hcur, -, -, hr⟩ := stays_eq_some_iff.mp hs
    obtain ⟨k', hrun, hcount⟩ := envRun_returns (k := { k with count := k.count - 1 }) hr
    obtain ⟨hd, hl⟩ := envRun_dispatched hrun
    refine ⟨e, k', rfl, ?_, hd.cur, by rw [hl]; exact h, hcount, hd.envs⟩
    unfold schedule
    rw [hs]
    simp only [pure_eq_ok, ok_bind]
    exact hrun

lemma Scheduled.status {count : Word} (h : Scheduled k k' e l count) (x : EnvPtr) :
    (k'.envs x).status = (k.envs x).status ∧ (k'.envs x).pri = (k.envs x).pri := by
  obtain ⟨tf, runs, hx⟩ := h.envs x
  rw [hx]
  exact ⟨rfl, rfl⟩

/-! ## Timer ticks -/

/-- The slices of an environment in one round: its priority. -/
def Kern.slicesOf (k : Kern) (e : EnvPtr) : ℕ := (k.envs e).pri.toNat

/-- The states under the timer; the registers `tf t` are saved at tick `t`. -/
def ticks (tf : ℕ → Trapframe) (k : Kern) : ℕ → Kern
  | 0 => k
  | t + 1 =>
    match schedule ((ticks tf k t).trap (tf t)) false with
    | .ok k' => k'
    | .error _ => ticks tf k t

/-- The state after tick `t` of a run from `k₀`, whose queue was `l`: the environment `e` is at the
head of the queue and has run `j + 1` slices of this round; and the slices from this round on are
those of the whole run from `t - j` on. -/
structure Slice (k₀ : Kern) (l : List EnvPtr) (t : ℕ) (e : EnvPtr) (rest : List EnvPtr) (j : ℕ)
    (k : Kern) : Prop where
  cur : k.curenv = some e
  repr : k.envSchedList.Repr (e :: rest)
  count : k.count.toNat + (j + 1) = k₀.slicesOf e
  envs : ∀ x, (k₀.envs x).SameBut (k.envs x)
  mem : ∀ x ∈ e :: rest, x ∈ l
  round : ∀ i, repeated (slices k₀.slicesOf l) (t + i) =
    repeated (slices k₀.slicesOf (e :: rest)) (j + i)

lemma Slice.pri {k₀ : Kern} (h : Slice k₀ l t e rest j k) (x : EnvPtr) :
    (k.envs x).pri = (k₀.envs x).pri ∧ (k.envs x).status = (k₀.envs x).status := by
  obtain ⟨tf, runs, hx⟩ := h.envs x
  rw [hx]
  exact ⟨rfl, rfl⟩

lemma Slice.trap {k₀ : Kern} (h : Slice k₀ l t e rest j k) (tf : Trapframe) :
    Slice k₀ l t e rest j (k.trap tf) :=
  ⟨h.cur, h.repr, h.count, h.envs, h.mem, h.round⟩

/-- The environment of a slice. -/
lemma Slice.env {k₀ : Kern} (h : Slice k₀ l t e rest j k) :
    repeated (slices k₀.slicesOf l) t = some e := by
  have hround := h.round 0
  rw [Nat.add_zero, Nat.add_zero] at hround
  rw [hround]
  exact repeated_slices_head rest (by have := h.count; omega)

lemma toNat_sub_one {w : Word} (h : w ≠ 0) : (w - 1).toNat + 1 = w.toNat := by
  have hpos : 0 < w.toNat := Nat.pos_of_ne_zero fun h0 => h (BitVec.eq_of_toNat_eq (by simpa using h0))
  have := w.isLt
  rw [BitVec.toNat_sub]
  have h1 : (1 : Word).toNat = 1 := rfl
  omega

/-- The head of the queue begins its slices. -/
lemma Scheduled.slice {k₀ : Kern} (h : Scheduled k k' e (e :: rest) ((k.envs e).pri - 1))
    (hk : ∀ x, (k₀.envs x).SameBut (k.envs x)) (hmem : ∀ x ∈ e :: rest, x ∈ l)
    (hpri : ∀ x ∈ l, (k₀.envs x).pri ≠ 0)
    (hround : ∀ i, repeated (slices k₀.slicesOf l) (t + i) =
      repeated (slices k₀.slicesOf (e :: rest)) i) : Slice k₀ l t e rest 0 k' := by
  refine ⟨h.cur, h.repr, ?_, fun x => (hk x).trans (h.envs x), hmem, fun i => by
    rw [hround, Nat.zero_add]⟩
  have hpe : (k.envs e).pri = (k₀.envs e).pri := by
    obtain ⟨tf, runs, hx⟩ := hk e
    rw [hx]
  rw [h.count, hpe]
  exact toNat_sub_one (hpri e (hmem e List.mem_cons_self))

/-- **One tick**: the current environment has another slice, or the next one begins. -/
lemma Slice.tick {k₀ : Kern} (h : Slice k₀ l t e rest j k)
    (hrun : ∀ x ∈ l, (k₀.envs x).status = .runnable) (hpri : ∀ x ∈ l, (k₀.envs x).pri ≠ 0) :
    ∃ k' e' rest' j', schedule k false = .ok k' ∧ Slice k₀ l (t + 1) e' rest' j' k' := by
  have hr : ∀ x ∈ e :: rest, (k.envs x).status = .runnable := fun x hx => by
    rw [(h.pri x).2, hrun x (h.mem x hx)]
  have hre := hr e List.mem_cons_self
  rcases schedule_returns h.repr hr
      (fun c hc _ => by
        obtain rfl : e = c := by simpa [h.cur] using hc
        exact List.mem_cons_self)
      (List.cons_ne_nil e rest) false with
    ⟨e', k', hs, hk', hsch⟩ | ⟨hs, e', rest', k', hlist, hk', hsch⟩
  · obtain ⟨hcur, -, hcount, -⟩ := stays_eq_some_iff.mp hs
    obtain rfl : e = e' := by simpa [h.cur] using hcur
    refine ⟨k', e, rest, j + 1, hk', hsch.cur, hsch.repr, ?_, fun x => (h.envs x).trans (hsch.envs x),
      h.mem, fun i => ?_⟩
    · have hsub := toNat_sub_one hcount
      have hold := h.count
      rw [hsch.count]
      omega
    · have := h.round (1 + i)
      rwa [← Nat.add_assoc, ← Nat.add_assoc] at this
  · -- the slices of `e` are used up
    have hzero : k.count = 0 := by
      by_contra hne
      rw [stays_eq_some_iff.mpr ⟨h.cur, rfl, hne, hre⟩] at hs
      simp at hs
    have hj : j + 1 = k₀.slicesOf e := by
      have := h.count
      rw [hzero] at this
      simpa using this
    have hreq : requeued k (e :: rest) = rest ++ [e] := by
      rw [requeued_runnable h.cur hre, List.erase_cons_head]
    rw [hreq] at hlist
    refine ⟨k', e', rest', 0, hk', hsch.slice h.envs (fun x hx => ?_) hpri fun i => ?_⟩
    · rw [← hlist, List.mem_append, List.mem_singleton] at hx
      exact h.mem x (List.mem_cons.mpr hx.symm)
    · have := h.round (1 + i)
      rw [← Nat.add_assoc] at this
      rw [this, ← hlist, repeated_slices_rotate, ← hj, Nat.add_assoc]

/-- **The order of slices**: from a queue of runnable environments with priorities, the timer runs
them in rounds, each as many slices in a row as its priority says. -/
theorem ticks_env (h : k.envSchedList.Repr l) (hne : l ≠ [])
    (hrun : ∀ x ∈ l, (k.envs x).status = .runnable) (hpri : ∀ x ∈ l, (k.envs x).pri ≠ 0)
    (hcur : k.curenv = none) (tf : ℕ → Trapframe) (t : ℕ) :
    schedule ((ticks tf k t).trap (tf t)) false = .ok (ticks tf k (t + 1)) ∧
      (ticks tf k (t + 1)).curenv = repeated (slices k.slicesOf l) t := by
  have hstep : ∀ {t : ℕ} {k' : Kern}, schedule ((ticks tf k t).trap (tf t)) false = .ok k' →
      ticks tf k (t + 1) = k' := fun hs => by rw [ticks, hs]
  have hinv : ∀ t, schedule ((ticks tf k t).trap (tf t)) false = .ok (ticks tf k (t + 1)) ∧
      ∃ e rest j, Slice k l t e rest j (ticks tf k (t + 1)) := by
    intro t
    induction t with
    | zero =>
      have hcur0 : ∀ c, (k.trap (tf 0)).curenv ≠ some c := fun c hc => by
        rw [show (k.trap (tf 0)).curenv = none from hcur] at hc
        simp at hc
      rcases schedule_returns (k := k.trap (tf 0)) h hrun (fun c hc => absurd hc (hcur0 c)) hne
          false with ⟨e, k', hs, -⟩ | ⟨-, e, rest, k', hlist, hk', hsch⟩
      · exact absurd (stays_eq_some_iff.mp hs).1 (hcur0 e)
      have hreq : requeued (k.trap (tf 0)) l = l :=
        requeued_of_not_runnable fun c hc => absurd hc (hcur0 c)
      rw [hreq] at hlist
      have h1 : ticks tf k (0 + 1) = k' := hstep hk'
      refine ⟨by rw [h1]; exact hk', e, rest, 0, ?_⟩
      rw [h1]
      refine hsch.slice (fun x => Env.SameBut.refl _) (fun x hx => hlist ▸ hx) hpri fun i => ?_
      rw [Nat.zero_add, hlist]
    | succ t ih =>
      obtain ⟨-, e, rest, j, hslice⟩ := ih
      obtain ⟨k', e', rest', j', hk', hslice'⟩ := (hslice.trap (tf (t + 1))).tick hrun hpri
      rw [hstep hk']
      exact ⟨hk', e', rest', j', hslice'⟩
  obtain ⟨hs, e, rest, j, hslice⟩ := hinv t
  exact ⟨hs, by rw [hslice.cur, hslice.env]⟩

/-! ## Yielding -/

/-- **A yielding environment does not run again** while another one is runnable. -/
theorem yield_other (h : ReadyQueue k l) (hc : k.curenv = some c)
    (hx : (k.envs x).status = .runnable) (hxc : x ≠ c) :
    ∃ k', schedule k true = .ok k' ∧ k'.curenv ≠ some c := by
  have hxl : x ∈ l := (h.mem x).mpr hx
  rcases schedule_returns h.repr (fun y hy => (h.mem y).mp hy) (fun y _ hy => (h.mem y).mpr hy)
      (List.ne_nil_of_mem hxl) true with ⟨e, k', hs, -⟩ | ⟨-, e, rest, k', hlist, hk', hsch⟩
  · obtain ⟨-, hy, -⟩ := stays_eq_some_iff.mp hs
    exact absurd hy (by decide)
  refine ⟨k', hk', ?_⟩
  rw [hsch.cur, ne_eq, Option.some.injEq]
  rintro rfl
  by_cases hr : (k.envs e).status = .runnable
  · -- the current environment is behind the other one
    rw [requeued_runnable hc hr] at hlist
    obtain ⟨y, ys, hys⟩ := List.exists_cons_of_ne_nil
      (List.ne_nil_of_mem ((List.mem_erase_of_ne hxc).mpr hxl))
    rw [hys, List.cons_append, List.cons.injEq] at hlist
    have hmem : e ∈ l.erase e := by rw [hys, hlist.1]; exact List.mem_cons_self
    exact h.repr.nodup.not_mem_erase hmem
  · rw [requeued_of_not_runnable fun c' hc' => by
      obtain rfl : e = c' := by simpa [hc] using hc'
      exact hr] at hlist
    exact hr ((h.mem e).mp (hlist ▸ List.mem_cons_self))

/-! ## Waiting -/

/-- What happens to the queue. -/
inductive QueueEvent
  | schedule (yield : Bool)
  | insertTail (e : EnvPtr)
  | remove (e : EnvPtr)

/-- A call of `schedule`; an environment that becomes runnable and goes to the tail; or a runnable
environment that leaves the queue, because it waits or is destroyed, which ends it if it is the
current one. -/
inductive QueueStep (k k' : Kern) : QueueEvent → Prop
  | schedule (tf : Trapframe) {yield : Bool} (h : schedule (k.trap tf) yield = .ok k') :
    QueueStep k k' (.schedule yield)
  | insertTail {e : EnvPtr} (hr : (k.envs e).status ≠ .runnable)
    (hq : k.envSchedList.insertTail e = some k'.envSchedList)
    (hr' : (k'.envs e).status = .runnable)
    (hother : ∀ x, x ≠ e → (k'.envs x).status = (k.envs x).status)
    (hc : k'.curenv = k.curenv) : QueueStep k k' (.insertTail e)
  | remove {e : EnvPtr} (hr : (k.envs e).status = .runnable)
    (hq : k.envSchedList.remove e = some k'.envSchedList) (hr' : (k'.envs e).status ≠ .runnable)
    (hother : ∀ x, x ≠ e → (k'.envs x).status = (k.envs x).status)
    (hc : k'.curenv = k.curenv ∨ k.curenv = some e ∧ k'.curenv = none) : QueueStep k k' (.remove e)

/-- `schedule` takes an environment from the queue. -/
def picks (k : Kern) : QueueEvent → Bool
  | .schedule yield => (stays k yield).isNone
  | _ => false

/-- How many times this has happened before time `n`. -/
def picksBefore (σ : ℕ → Kern) (ev : ℕ → QueueEvent) : ℕ → ℕ
  | 0 => 0
  | n + 1 => picksBefore σ ev n + if picks (σ n) (ev n) then 1 else 0

/-- **The environment `e` waits**: it is in the queue, does not run, and at most `b` picks take
another one or it. If the current environment is ahead of `e`, it goes to the tail first. -/
def Queued (e : EnvPtr) (b : ℕ) (k : Kern) : Prop :=
  ∃ l₁ l₂, ReadyQueue k (l₁ ++ e :: l₂) ∧ k.curenv ≠ some e ∧
    (l₁.length < b ∨ (l₁.length ≤ b ∧ ∃ c ∈ l₁, k.curenv = some c))

lemma not_queued_zero : ¬ Queued e 0 k := by
  rintro ⟨l₁, l₂, -, -, hlt | ⟨hle, c, hc, -⟩⟩
  · exact Nat.not_lt_zero _ hlt
  · rw [List.length_eq_zero_iff.mp (Nat.le_zero.mp hle)] at hc
    simp at hc

/-- The environments keep their statuses and the queue its elements. -/
lemma Scheduled.ready {count : Word} (h : Scheduled k k' c l₁ count) (hk : ReadyQueue k l)
    (hmem : ∀ x, x ∈ l₁ ↔ x ∈ l) : ReadyQueue k' l₁ :=
  ⟨h.repr, fun x => by rw [hmem, hk.mem, (h.status x).1]⟩

/-- A waiting environment after a call of `schedule`. -/
lemma Queued.schedule {b : ℕ} (h : Queued e b k) (hs : schedule k yield = .ok k') :
    k'.curenv = some e ∧ stays k yield = none ∨
      Queued e (b - if picks k (.schedule yield) then 1 else 0) k' := by
  obtain ⟨l₁, l₂, hq, hne, hb⟩ := h
  have hcl : ∀ c, k.curenv = some c → (k.envs c).status = .runnable → c ∈ l₁ ++ e :: l₂ :=
    fun c _ hr => (hq.mem c).mpr hr
  rcases schedule_returns hq.repr (fun x hx => (hq.mem x).mp hx) hcl (by simp) yield with
    ⟨c, k'', hst, hk', hsch⟩ | ⟨hst, c, rest, k'', hlist, hk', hsch⟩
  · obtain rfl : k'' = k' := by simpa [hk'] using hs
    right
    obtain ⟨hc, -⟩ := stays_eq_some_iff.mp hst
    have hcur : k''.curenv = k.curenv := by rw [hsch.cur, hc]
    refine ⟨l₁, l₂, hsch.ready hq fun _ => Iff.rfl, hcur ▸ hne, ?_⟩
    simpa [picks, hst, hcur] using hb
  obtain rfl : k'' = k' := by simpa [hk'] using hs
  have hready : ReadyQueue k'' (c :: rest) := hsch.ready hq fun x => by
    rw [← hlist, mem_requeued hq.repr hcl]
  have hpick : (if picks k (.schedule yield) then 1 else 0) = 1 := by simp [picks, hst]
  rw [hpick]
  -- the queue before the environment is picked: `e` has `m` environments before it
  obtain ⟨m₁, m₂, hm, hlen⟩ : ∃ m₁ m₂, c :: rest = m₁ ++ e :: m₂ ∧ m₁.length < b := by
    rw [← hlist]
    by_cases hr : ∃ d, k.curenv = some d ∧ (k.envs d).status = .runnable
    · obtain ⟨d, hd, hr⟩ := hr
      have hde : d ≠ e := fun hc => hne (hc ▸ hd)
      rw [requeued_runnable hd hr]
      by_cases hd1 : d ∈ l₁
      · refine ⟨l₁.erase d, l₂ ++ [d], ?_, ?_⟩
        · rw [List.erase_append_left _ hd1, List.append_assoc, List.cons_append]
        · have hpos := List.length_pos_of_mem hd1
          rw [List.length_erase_of_mem hd1]
          rcases hb with hb | ⟨hb, -⟩ <;> omega
      · refine ⟨l₁, l₂.erase d ++ [d], ?_, ?_⟩
        · rw [List.erase_append_right _ hd1, List.erase_cons_tail (by simpa using hde.symm),
            List.append_assoc, List.cons_append]
        · refine hb.resolve_right ?_
          rintro ⟨-, x, hx, hcx⟩
          obtain rfl : d = x := by simpa [hd] using hcx
          exact hd1 hx
    · refine ⟨l₁, l₂, requeued_of_not_runnable fun d hd hrun => hr ⟨d, hd, hrun⟩,
        hb.resolve_right ?_⟩
      rintro ⟨-, x, hx, hcx⟩
      exact hr ⟨x, hcx, (hq.mem x).mp (List.mem_append_left _ hx)⟩
  rcases m₁ with _ | ⟨d, m₁⟩
  · rw [List.nil_append, List.cons.injEq] at hm
    exact Or.inl ⟨by rw [hsch.cur, hm.1], hst⟩
  · right
    obtain ⟨rfl, hrest⟩ : c = d ∧ rest = m₁ ++ e :: m₂ := by simpa using hm
    rw [hm] at hready
    refine ⟨c :: m₁, m₂, hready, ?_, Or.inr ⟨by omega, c, List.mem_cons_self, hsch.cur⟩⟩
    rw [hsch.cur, ne_eq, Option.some.injEq]
    rintro rfl
    have hnodup := hready.repr.nodup
    rw [List.cons_append, List.nodup_cons] at hnodup
    exact hnodup.1 (by simp)

/-- **One step, while an environment waits.** -/
lemma Queued.step {b : ℕ} {ev : QueueEvent} (h : Queued e b k) (hs : QueueStep k k' ev)
    (hev : ev ≠ .insertTail e ∧ ev ≠ .remove e) :
    k'.curenv = some e ∧ picks k ev = true ∨ Queued e (b - if picks k ev then 1 else 0) k' := by
  cases hs with
  | schedule tf hs =>
    have htrap : Queued e b (k.trap tf) := by
      obtain ⟨l₁, l₂, hq, hrest⟩ := h
      exact ⟨l₁, l₂, ⟨hq.repr, hq.mem⟩, hrest⟩
    refine (htrap.schedule hs).imp (fun hpick => ⟨hpick.1, ?_⟩) id
    exact Option.isNone_iff_eq_none.mpr hpick.2
  | @insertTail x hr hq hr' hother hc =>
    right
    obtain ⟨l₁, l₂, hready, hne, hb⟩ := h
    have hx : x ∉ l₁ ++ e :: l₂ := fun hx => hr ((hready.mem x).mp hx)
    obtain ⟨q, hq', hrepr⟩ := hready.repr.insertTail hx
    obtain rfl : q = k'.envSchedList := by simpa [hq'] using hq
    refine ⟨l₁, l₂ ++ [x], ⟨?_, fun y => ?_⟩, hc ▸ hne, by simpa [picks, hc] using hb⟩
    · simpa using hrepr
    · by_cases hyx : y = x
      · simp [hyx, hr']
      · rw [hother y hyx, ← hready.mem y]
        simp [hyx]
  | @remove x hr hq hr' hother hc =>
    right
    obtain ⟨l₁, l₂, hready, hne, hb⟩ := h
    have hxe : x ≠ e := fun hxe => hev.2 (by rw [hxe])
    have hx : x ∈ l₁ ++ e :: l₂ := (hready.mem x).mpr hr
    obtain ⟨q, hq', hrepr⟩ := hready.repr.remove hx
    obtain rfl : q = k'.envSchedList := by simpa [hq'] using hq
    have hmem : ∀ y, y ∈ (l₁ ++ e :: l₂).erase x ↔ (k'.envs y).status = .runnable := by
      intro y
      rw [hready.repr.nodup.mem_erase_iff, hready.mem y]
      by_cases hyx : y = x
      · simp [hyx, hr']
      · simp [hyx, hother y hyx]
    have hne' : k'.curenv ≠ some e := by
      rcases hc with hc | ⟨-, hc⟩ <;> simp [hc, hne]
    by_cases hx1 : x ∈ l₁
    · rw [List.erase_append_left _ hx1] at hrepr hmem
      refine ⟨l₁.erase x, l₂, ⟨hrepr, hmem⟩, hne', Or.inl ?_⟩
      have hpos := List.length_pos_of_mem hx1
      rw [List.length_erase_of_mem hx1]
      change _ < b - 0
      rcases hb with hb | ⟨hb, -⟩ <;> omega
    · rw [List.erase_append_right _ hx1, List.erase_cons_tail (by simpa using hxe.symm)]
        at hrepr hmem
      refine ⟨l₁, l₂.erase x, ⟨hrepr, hmem⟩, hne', ?_⟩
      change l₁.length < b ∨ (l₁.length ≤ b ∧ _)
      refine hb.imp id fun ⟨hle, c, hc1, hcur⟩ => ⟨hle, c, hc1, ?_⟩
      rcases hc with hc | ⟨hcx, -⟩
      · rw [hc, hcur]
      · obtain rfl : c = x := by simpa [hcur] using hcx
        exact absurd hc1 hx1

/-- **A waiting environment is picked** after the environments ahead of it. -/
theorem queued_picked {σ : ℕ → Kern} {ev : ℕ → QueueEvent} (h : ReadyQueue (σ 0) (l₁ ++ e :: l₂))
    (hcur : (σ 0).curenv ≠ some e) (hrun : ∀ t < n, QueueStep (σ t) (σ (t + 1)) (ev t))
    (hev : ∀ t < n, ev t ≠ .insertTail e ∧ ev t ≠ .remove e)
    (hpicks : l₁.length + 1 ≤ picksBefore σ ev n) :
    ∃ t < n, picks (σ t) (ev t) = true ∧ (σ (t + 1)).curenv = some e ∧
      picksBefore σ ev t ≤ l₁.length := by
  by_contra hno
  have hinv : ∀ t ≤ n, picksBefore σ ev t ≤ l₁.length ∧
      Queued e (l₁.length + 1 - picksBefore σ ev t) (σ t) := by
    intro t ht
    induction t with
    | zero => exact ⟨Nat.zero_le _, l₁, l₂, h, hcur, Or.inl (Nat.lt_succ_self _)⟩
    | succ t ih =>
      obtain ⟨hle, hw⟩ := ih (by omega)
      rcases hw.step (hrun t (by omega)) (hev t (by omega)) with ⟨hc, hp⟩ | hw'
      · exact absurd ⟨t, by omega, hp, hc, hle⟩ hno
      have hb : picksBefore σ ev (t + 1) =
          picksBefore σ ev t + if picks (σ t) (ev t) then 1 else 0 := rfl
      rw [Nat.sub_sub, ← hb] at hw'
      refine ⟨?_, hw'⟩
      by_contra hgt
      rw [Nat.sub_eq_zero_of_le (by omega)] at hw'
      exact not_queued_zero hw'
  have := (hinv n le_rfl).1
  omega

/-! ## The whole -/

/-- **Round-robin scheduling.** From a queue of runnable environments with priorities, while none is
current, the timer runs them in rounds, each as many slices in a row as its priority says. When the
queue holds exactly the runnable environments, an environment that yields does not run again while
another one is runnable; and an environment that is not the current one, stays runnable and has `m`
others ahead of it is picked by one of the next `m + 1` picks, whatever else happens to the queue. -/
theorem round_robin (k : Kern) (l : List EnvPtr) :
    (k.envSchedList.Repr l → l ≠ [] → (∀ x ∈ l, (k.envs x).status = .runnable) →
      (∀ x ∈ l, (k.envs x).pri ≠ 0) → k.curenv = none → ∀ (tf : ℕ → Trapframe) (t : ℕ),
        schedule ((ticks tf k t).trap (tf t)) false = .ok (ticks tf k (t + 1)) ∧
          (ticks tf k (t + 1)).curenv = repeated (slices k.slicesOf l) t) ∧
    (ReadyQueue k l → ∀ c x, k.curenv = some c → (k.envs x).status = .runnable → x ≠ c →
      ∃ k', schedule k true = .ok k' ∧ k'.curenv ≠ some c) ∧
    ∀ l₁ e l₂, ReadyQueue k (l₁ ++ e :: l₂) → k.curenv ≠ some e →
      ∀ (n : ℕ) (σ : ℕ → Kern) (ev : ℕ → QueueEvent), σ 0 = k →
        (∀ t < n, QueueStep (σ t) (σ (t + 1)) (ev t)) →
        (∀ t < n, ev t ≠ .insertTail e ∧ ev t ≠ .remove e) →
        l₁.length + 1 ≤ picksBefore σ ev n →
          ∃ t < n, picks (σ t) (ev t) = true ∧ (σ (t + 1)).curenv = some e ∧
            picksBefore σ ev t ≤ l₁.length := by
  refine ⟨fun h hne hrun hpri hcur tf t => ticks_env h hne hrun hpri hcur tf t,
    fun h c x hc hx hxc => yield_other h hc hx hxc, ?_⟩
  rintro l₁ e l₂ h hcur n σ ev rfl hrun hev hpicks
  exact queued_picked h hcur hrun hev hpicks

/-- Of the two environments the first one runs. -/
lemma pairKern_ready : ReadyQueue pairKern [0, 1] := by
  refine ⟨⟨by decide, rfl, ⟨rfl, rfl, rfl, rfl, trivial⟩, rfl⟩, fun e => ?_⟩
  by_cases h0 : e = 0
  · simp [h0, pairKern]
  · by_cases h1 : e = 1
    · simp [h1, pairKern]
    · simp [h0, h1, pairKern, Env.zero]

/-- The states while they yield to each other. -/
def pairYields : ℕ → Kern
  | 0 => pairKern
  | t + 1 =>
    match schedule (pairYields t) true with
    | .ok k => k
    | .error _ => pairYields t

lemma pairYields_step (t : ℕ) (ht : t < 2) :
    QueueStep (pairYields t) (pairYields (t + 1)) (.schedule true) := by
  interval_cases t
  · exact .schedule (pairYields 0).ktf rfl
  · exact .schedule (pairYields 1).ktf rfl

/-- With slices of one tick the two take turns; the second one runs when the first one yields, and
is picked before anything else. -/
theorem round_robin_pair :
    (ticks (fun _ => Env.zero.tf) { pairKern with curenv := none } 4).curenv = some 1 ∧
      (∃ k', schedule pairKern true = .ok k' ∧ k'.curenv ≠ some 0) ∧
      ∃ t < 2, picks (pairYields t) (.schedule true) = true ∧
        (pairYields (t + 1)).curenv = some 1 ∧
        picksBefore pairYields (fun _ => .schedule true) t ≤ 1 := by
  refine ⟨?_, ?_, ?_⟩
  · have h := ((round_robin { pairKern with curenv := none } [0, 1]).1 pairKern_ready.repr (by simp)
      (fun x hx => (pairKern_ready.mem x).mp hx) (fun x hx => ?_) rfl (fun _ => Env.zero.tf) 3).2
    · rw [h]
      rfl
    · have : x = 0 ∨ x = 1 := by simpa using hx
      rcases this with rfl | rfl <;> decide
  · exact (round_robin pairKern [0, 1]).2.1 pairKern_ready 0 1 rfl rfl (by decide)
  · exact (round_robin pairKern [0, 1]).2.2 [0] 1 [] pairKern_ready (by decide) 2 pairYields
      (fun _ => .schedule true) rfl pairYields_step (by simp) (by decide)

/-- The environment that runs has no other ahead of it, and is not picked when it yields. -/
theorem current_not_picked : ¬ ∀ (n : ℕ) (σ : ℕ → Kern) (ev : ℕ → QueueEvent) (l₁ : List EnvPtr)
    (e : EnvPtr) (l₂ : List EnvPtr), ReadyQueue (σ 0) (l₁ ++ e :: l₂) →
    (∀ t < n, QueueStep (σ t) (σ (t + 1)) (ev t)) →
    (∀ t < n, ev t ≠ .insertTail e ∧ ev t ≠ .remove e) → l₁.length + 1 ≤ picksBefore σ ev n →
      ∃ t < n, picks (σ t) (ev t) = true ∧ (σ (t + 1)).curenv = some e ∧
        picksBefore σ ev t ≤ l₁.length := by
  intro h
  obtain ⟨t, ht, -, hcur, -⟩ := h 1 pairYields (fun _ => .schedule true) [] 0 [1] pairKern_ready
    (fun t ht => pairYields_step t (by omega)) (by simp) (by decide)
  interval_cases t
  have hone : (pairYields 1).curenv = some 1 := rfl
  rw [hone] at hcur
  exact absurd hcur (by decide)

end MosVolca
