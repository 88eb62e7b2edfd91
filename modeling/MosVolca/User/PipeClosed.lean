import MosVolca.User.PipeEnds

/-!
# When a pipe looks closed

`_pipe_is_closed` compares the number of places of a `struct Fd` with the number of places of the
pipe. `pipe`, `dup`, `close` and the death of an environment never leave a place with a `struct Fd`
and without the pipe in an environment that can look. `fork` and `spawn` map the pages of a child in
the order of their addresses, so the child has each `struct Fd` before it has the pipe.

## Main definitions

* `MosVolca.EndsInv` — what holds of the places, by what each environment is doing.
* `MosVolca.CopiesData` — the condition on the steps of `fork`.

## Main results

* `MosVolca.EndsInv.run` — the invariant of a run.
* `MosVolca.pipeIsClosed_right` — when `_pipe_is_closed` is right.
* `MosVolca.pipe_looks_closed` — a run in which it is not.
-/

namespace MosVolca

/-! ## The invariant -/

/-- Wherever the environment has a `struct Fd` of the pipe it has the pipe. -/
def NoGap (s : PipeEnds) (e : ℕ) : Prop := ∀ i, (e, i) ∈ s.held → (e, i) ∈ s.data

/-- The environment has no pages of the pipe. -/
def NoPlaces (s : PipeEnds) (e : ℕ) : Prop := ∀ i, (e, i) ∉ s.held ∧ (e, i) ∉ s.data

/-- What an environment has, by what it is doing. -/
def EndsLocal (s : PipeEnds) (e : ℕ) : Doing → Prop
  | .absent | .gone | .pipeFd0 _ _ => NoPlaces s e
  | .embryo => True
  | .idle | .closeFd _ _ | .dupData _ _ | .dupErrFd _ => NoGap s e
  | .pipeFd1 i _ | .pipeErr1 i => ∀ k, (e, k) ∈ s.held → k = i
  | .pipeData i j | .pipeErr2 i j | .pipeErr3 i j => ∀ k, (e, k) ∈ s.held → k = i ∨ k = j
  | .pipeMap i j => (∀ k, (e, k) ∈ s.held → k = i ∨ k = j) ∧ (e, i) ∈ s.data
  | .closeData i _ | .dupErrData i => NoGap s e ∧ (e, i) ∉ s.held
  | .dupFd old new => NoGap s e ∧ ((e, old) ∈ s.held → (e, new) ∈ s.data)
  | .copy c k _ => NoGap s e ∧ c ≠ e ∧ s.doing c ≠ .absent ∧ (s.doing c = .embryo →
      (∀ i, (c, i) ∈ s.held → i < k ∧ i < maxfd ∧ (e, i) ∈ s.held) ∧
        ∀ i, maxfd + i < k → (e, i) ∈ s.data → (c, i) ∈ s.data)

/-- A place has one `struct Fd`. -/
def OneFd (s : PipeEnds) : Prop := ∀ p, p ∈ s.fds .read → p ∉ s.fds .write

/-- **The condition on the steps**: no `fork` fails to map the page of the pipe for its child. -/
def CopiesData (s : PipeEnds) : EndsEvent → Prop
  | .call e ok => ∀ c k, s.doing e = .copy c k false → maxfd ≤ k → ok = true
  | _ => True

/-- All steps of a run meet the condition. -/
def CopiesDataRun (s : PipeEnds) : List EndsEvent → Prop
  | [] => True
  | ev :: events => CopiesData s ev ∧ CopiesDataRun (endsStep s ev) events

/-- The environment is in `pipe`. -/
def Doing.creates : Doing → Bool
  | .pipeFd0 _ _ | .pipeFd1 _ _ | .pipeData _ _ | .pipeMap _ _ => true
  | .pipeErr3 _ _ | .pipeErr2 _ _ | .pipeErr1 _ => true
  | _ => false

/-- There is no program that could do anything. -/
def Doing.off (d : Doing) : Prop := d = .absent ∨ d = .gone

/-- **The invariant.** -/
structure EndsInv (s : PipeEnds) : Prop where
  one : OneFd s
  loc : ∀ e, EndsLocal s e (s.doing e)
  builder : ∀ {e e' c k k' b b'}, s.doing e = .copy c k b → s.doing e' = .copy c k' b' → e = e'
  alone : ∀ {e e'}, (s.doing e).creates = true → e' ≠ e → (s.doing e').off

variable {s s' : PipeEnds} {e c x i j k : ℕ} {d : Doing} {r : PipeEnd} {p q : FdPlace}

/-! ## Places after a system call -/

@[simp] lemma goes_fds : (s.goes e d).fds = s.fds := rfl

@[simp] lemma goes_data : (s.goes e d).data = s.data := rfl

@[simp] lemma goes_held : (s.goes e d).held = s.held := rfl

@[simp] lemma goes_self : (s.goes e d).doing e = d := Function.update_self _ _ _

lemma goes_of_ne (h : x ≠ e) : (s.goes e d).doing x = s.doing x := Function.update_of_ne h _ _

lemma mem_held : p ∈ s.held ↔ p ∈ s.fds .read ∨ p ∈ s.fds .write := Finset.mem_union

@[simp] lemma mem_held_allocFd : q ∈ (s.allocFd r p).held ↔ q = p ∨ q ∈ s.held := by
  cases r <;> simp [mem_held, PipeEnds.allocFd] <;> tauto

/-- A descriptor that is mapped is held. -/
lemma mem_held_mapFd (hp : p ∈ s.held) {q x : FdPlace} :
    x ∈ (s.mapFd p q).held ↔ x = q ∨ x ∈ s.held := by
  rw [mem_held] at hp
  by_cases hx : x = q
  · subst hx
    simp only [mem_held, PipeEnds.mapFd, true_or, iff_true]
    rcases hp with hp | hp
    · exact .inl (by simp [hp])
    · exact .inr (by simp [hp])
  · have hmem : ∀ r, x ∈ (s.mapFd p q).fds r ↔ x ∈ s.fds r := by
      intro r
      simp only [PipeEnds.mapFd]
      split_ifs
      · rw [Finset.mem_insert, or_iff_right hx]
      · rw [Finset.mem_erase, and_iff_right hx]
    rw [mem_held, mem_held, hmem, hmem, or_iff_right hx]

@[simp] lemma mem_held_unmapFd : q ∈ (s.unmapFd p).held ↔ q ≠ p ∧ q ∈ s.held := by
  simp only [mem_held, PipeEnds.unmapFd, Finset.mem_erase]
  tauto

@[simp] lemma mem_held_die : q ∈ (s.die e).held ↔ q ∈ s.held ∧ q.1 ≠ e := by
  simp only [mem_held, PipeEnds.die, Finset.mem_filter]
  tauto

@[simp] lemma mapData_held : (s.mapData p).held = s.held := rfl

@[simp] lemma unmapData_held : (s.unmapData p).held = s.held := rfl

@[simp] lemma allocFd_data : (s.allocFd r p).data = s.data := rfl

@[simp] lemma mapFd_data : (s.mapFd p q).data = s.data := rfl

@[simp] lemma unmapFd_data : (s.unmapFd p).data = s.data := rfl

@[simp] lemma mem_data_mapData : q ∈ (s.mapData p).data ↔ q = p ∨ q ∈ s.data :=
  Finset.mem_insert

@[simp] lemma mem_data_unmapData : q ∈ (s.unmapData p).data ↔ q ≠ p ∧ q ∈ s.data :=
  Finset.mem_erase

@[simp] lemma mem_data_die : q ∈ (s.die e).data ↔ q ∈ s.data ∧ q.1 ≠ e := Finset.mem_filter

lemma OneFd.allocFd (h : OneFd s) : OneFd (s.allocFd r p) := by
  intro q hq hw
  have hq' := h q
  cases r <;> simp [PipeEnds.allocFd] at hq hw <;> tauto

lemma OneFd.mapFd (h : OneFd s) : OneFd (s.mapFd p q) := by
  intro x hx hw
  have hp := h p
  have hx' := h x
  simp only [PipeEnds.mapFd] at hx hw
  split_ifs at hx hw <;> simp at hx hw <;> tauto

lemma OneFd.mono (h : OneFd s) (hsub : ∀ r, s'.fds r ⊆ s.fds r) : OneFd s' := by
  intro p hp hw
  exact h p (hsub _ hp) (hsub _ hw)

/-! ## One step -/

/-- An environment has the same places. -/
def SamePlaces (s s' : PipeEnds) (x : ℕ) : Prop :=
  ∀ i, ((x, i) ∈ s'.held ↔ (x, i) ∈ s.held) ∧ ((x, i) ∈ s'.data ↔ (x, i) ∈ s.data)

lemma NoGap.congr (h : NoGap s x) (hs : SamePlaces s s' x) : NoGap s' x := by
  intro i hi
  exact (hs i).2.mpr (h i ((hs i).1.mp hi))

lemma NoPlaces.congr (h : NoPlaces s x) (hs : SamePlaces s s' x) : NoPlaces s' x := by
  intro i
  rw [(hs i).1, (hs i).2]
  exact h i

/-- What an environment has depends on its own places, and on those of the child that it makes. -/
lemma EndsLocal.congr (h : EndsLocal s x d) (hs : SamePlaces s s' x)
    (hc : ∀ c k b, d = .copy c k b → (s'.doing c = .embryo → s.doing c = .embryo ∧
      SamePlaces s s' c) ∧ (s.doing c ≠ .absent → s'.doing c ≠ .absent)) : EndsLocal s' x d := by
  cases d with
  | absent => exact NoPlaces.congr h hs
  | gone => exact NoPlaces.congr h hs
  | pipeFd0 => exact NoPlaces.congr h hs
  | embryo => trivial
  | idle => exact NoGap.congr h hs
  | closeFd => exact NoGap.congr h hs
  | dupData => exact NoGap.congr h hs
  | dupErrFd => exact NoGap.congr h hs
  | pipeFd1 i j =>
    intro k hk
    exact h k ((hs k).1.mp hk)
  | pipeErr1 i =>
    intro k hk
    exact h k ((hs k).1.mp hk)
  | pipeData i j =>
    intro k hk
    exact h k ((hs k).1.mp hk)
  | pipeErr2 i j =>
    intro k hk
    exact h k ((hs k).1.mp hk)
  | pipeErr3 i j =>
    intro k hk
    exact h k ((hs k).1.mp hk)
  | pipeMap i j => exact ⟨fun k hk => h.1 k ((hs k).1.mp hk), (hs i).2.mpr h.2⟩
  | closeData i old => exact ⟨NoGap.congr h.1 hs, fun hi => h.2 ((hs i).1.mp hi)⟩
  | dupErrData i => exact ⟨NoGap.congr h.1 hs, fun hi => h.2 ((hs i).1.mp hi)⟩
  | dupFd old new =>
    exact ⟨NoGap.congr h.1 hs, fun hi => (hs new).2.mpr (h.2 ((hs old).1.mp hi))⟩
  | copy c k b =>
    obtain ⟨hgap, hne, habs, hchild⟩ := h
    obtain ⟨hemb, habs'⟩ := hc c k b rfl
    refine ⟨hgap.congr hs, hne, habs' habs, fun he => ?_⟩
    obtain ⟨he', hsc⟩ := hemb he
    obtain ⟨hfd, hdata⟩ := hchild he'
    refine ⟨fun i hi => ?_, fun i hi hd => ?_⟩
    · obtain ⟨h1, h2, h3⟩ := hfd i ((hsc i).1.mp hi)
      exact ⟨h1, h2, (hs i).1.mpr h3⟩
    · exact (hsc i).2.mpr (hdata i hi ((hs i).2.mp hd))

lemma SamePlaces.refl (s : PipeEnds) (x : ℕ) : SamePlaces s s x := fun _ => ⟨Iff.rfl, Iff.rfl⟩

lemma samePlaces_allocFd (h : x ≠ e) : SamePlaces s (s.allocFd r (e, i)) x := by
  intro k
  simp [h]

lemma samePlaces_mapFd (hp : p ∈ s.held) (h : x ≠ c) : SamePlaces s (s.mapFd p (c, i)) x := by
  intro k
  simp [mem_held_mapFd hp, h]

lemma samePlaces_unmapFd (h : x ≠ e) : SamePlaces s (s.unmapFd (e, i)) x := by
  intro k
  simp [h]

lemma samePlaces_mapData (h : x ≠ e) : SamePlaces s (s.mapData (e, i)) x := by
  intro k
  simp [h]

lemma samePlaces_unmapData (h : x ≠ e) : SamePlaces s (s.unmapData (e, i)) x := by
  intro k
  simp [h]

lemma samePlaces_die (h : x ≠ e) : SamePlaces s (s.die e) x := by
  intro k
  simp [h]

lemma noPlaces_die : NoPlaces (s.die e) e := by
  intro k
  simp

lemma OneFd.unmapFd (h : OneFd s) : OneFd (s.unmapFd p) := h.mono fun _ => Finset.erase_subset _ _

lemma OneFd.die (h : OneFd s) : OneFd (s.die e) := h.mono fun _ => Finset.filter_subset _ _

namespace EndsInv

/-- **The frame of a step**: only the environments in `X` change. -/
lemma frame (h : EndsInv s) (X : ℕ → Prop) (hone : OneFd s')
    (hsame : ∀ x, ¬ X x → SamePlaces s s' x ∧ s'.doing x = s.doing x)
    (hloc : ∀ x, X x → EndsLocal s' x (s'.doing x))
    (hchild : ∀ x c k b, ¬ X x → s.doing x = .copy c k b → X c →
      s'.doing c ≠ .embryo ∧ s'.doing c ≠ .absent)
    (hbuilder : ∀ x c k b, s'.doing x = .copy c k b → ∃ k' b', s.doing x = .copy c k' b')
    (halone : ∀ x, (s'.doing x).creates = true → (s.doing x).creates = true)
    (hoff : ∀ x, (s.doing x).off → (s'.doing x).off) : EndsInv s' where
  one := hone
  loc := by
    intro x
    by_cases hx : X x
    · exact hloc x hx
    · obtain ⟨hs, hd⟩ := hsame x hx
      rw [hd]
      refine (h.loc x).congr hs fun c k b hcopy => ?_
      by_cases hc : X c
      · obtain ⟨hemb, habs⟩ := hchild x c k b hx hcopy hc
        exact ⟨fun he => absurd he hemb, fun _ => habs⟩
      · obtain ⟨hsc, hdc⟩ := hsame c hc
        rw [hdc]
        exact ⟨fun he => ⟨he, hsc⟩, id⟩
  builder := by
    intro e e' c k k' b b' he he'
    obtain ⟨k1, b1, h1⟩ := hbuilder e c k b he
    obtain ⟨k2, b2, h2⟩ := hbuilder e' c k' b' he'
    exact h.builder h1 h2
  alone := by
    intro e e' he hne
    exact hoff e' (h.alone (halone e he) hne)

/-- A step of an environment that changes its own places, and goes on without a child. -/
lemma own (h : EndsInv s) (e : ℕ) (d : Doing) (hdoing : s'.doing = s.doing) (hone : OneFd s')
    (hother : ∀ x, x ≠ e → SamePlaces s s' x) (hloc : EndsLocal (s'.goes e d) e d)
    (hon : ¬ (s.doing e).off) (hd : d ≠ .embryo ∧ d ≠ .absent)
    (hcopy : ∀ c k b, d = .copy c k b → ∃ k' b', s.doing e = .copy c k' b')
    (hcreates : d.creates = true → (s.doing e).creates = true) : EndsInv (s'.goes e d) := by
  refine h.frame (· = e) hone (fun x hx => ?_) ?_ ?_ ?_ ?_ ?_
  · refine ⟨hother x hx, ?_⟩
    rw [goes_of_ne hx, hdoing]
  · rintro x rfl
    rw [goes_self]
    exact hloc
  · rintro x c k b hx hxc rfl
    rw [goes_self]
    exact hd
  · intro x c k b hx
    by_cases hxe : x = e
    · rw [hxe, goes_self] at hx
      rw [hxe]
      exact hcopy c k b hx
    · rw [goes_of_ne hxe, hdoing] at hx
      exact ⟨k, b, hx⟩
  · intro x hx
    by_cases hxe : x = e
    · rw [hxe, goes_self] at hx
      rw [hxe]
      exact hcreates hx
    · rwa [goes_of_ne hxe, hdoing] at hx
  · intro x hx
    by_cases hxe : x = e
    · exact absurd (hxe ▸ hx) hon
    · rwa [goes_of_ne hxe, hdoing]

/-- A step that changes nothing but what the environment is doing. -/
lemma goes (h : EndsInv s) (e : ℕ) (d : Doing) (hloc : EndsLocal s e d)
    (hon : ¬ (s.doing e).off) (hd : d ≠ .embryo ∧ d ≠ .absent ∧ ∀ c k b, d ≠ .copy c k b)
    (hcreates : d.creates = true → (s.doing e).creates = true) : EndsInv (s.goes e d) := by
  refine h.own e d rfl h.one (fun x _ => .refl s x) ?_ hon ⟨hd.1, hd.2.1⟩ ?_ hcreates
  · exact hloc.congr (fun i => ⟨Iff.rfl, Iff.rfl⟩) fun c k b hc => absurd hc (hd.2.2 c k b)
  · exact fun c k b hc => absurd hc (hd.2.2 c k b)

/-- **A system call of `pipe`.** -/
lemma callPipe (h : EndsInv s) (hd : (s.doing e).creates = true) (ok : Bool) :
    EndsInv (endsCall s e ok) := by
  have hl := h.loc e
  have hon : ¬ (s.doing e).off := by
    rintro (h0 | h0) <;> rw [h0] at hd <;> exact absurd hd (by decide)
  unfold endsCall
  cases hdoing : s.doing e with
  | pipeFd0 i j =>
    rw [hdoing] at hl
    simp only
    split_ifs
    · refine h.own e _ rfl h.one.allocFd (fun x => samePlaces_allocFd) (fun k hk => ?_) hon
        (by simp) (by simp) fun _ => hd
      rcases mem_held_allocFd.mp hk with hk | hk
      · exact (Prod.mk.inj hk).2
      · exact absurd hk (hl k).1
    · exact h.goes e _ (fun k hk => absurd hk (hl k).1) hon (by simp) fun _ => hd
  | pipeFd1 i j =>
    rw [hdoing] at hl
    simp only
    split_ifs
    · refine h.own e _ rfl h.one.allocFd (fun x => samePlaces_allocFd) (fun k hk => ?_) hon
        (by simp) (by simp) fun _ => hd
      rcases mem_held_allocFd.mp hk with hk | hk
      · exact .inr (Prod.mk.inj hk).2
      · exact .inl (hl k hk)
    · exact h.goes e _ hl hon (by simp) fun _ => hd
  | pipeData i j =>
    rw [hdoing] at hl
    simp only
    split_ifs
    · exact h.own e _ rfl h.one (fun x => samePlaces_mapData) ⟨hl, by simp⟩ hon (by simp) (by simp)
        fun _ => hd
    · exact h.goes e _ hl hon (by simp) fun _ => hd
  | pipeMap i j =>
    rw [hdoing] at hl
    simp only
    split_ifs
    · refine h.own e _ rfl h.one (fun x => samePlaces_mapData) (fun k hk => ?_) hon (by simp)
        (by simp) fun _ => hd
      rcases hl.1 k hk with rfl | rfl
      · exact mem_data_mapData.mpr (.inr hl.2)
      · exact mem_data_mapData.mpr (.inl rfl)
    · exact h.goes e _ hl.1 hon (by simp) fun _ => hd
  | pipeErr3 i j =>
    rw [hdoing] at hl
    exact h.own e _ rfl h.one (fun x => samePlaces_unmapData) hl hon (by simp) (by simp) fun _ => hd
  | pipeErr2 i j =>
    rw [hdoing] at hl
    refine h.own e _ rfl h.one.unmapFd (fun x => samePlaces_unmapFd) (fun k hk => ?_) hon (by simp)
      (by simp) fun _ => hd
    obtain ⟨hne, hk⟩ := mem_held_unmapFd.mp hk
    rcases hl k hk with rfl | rfl
    · rfl
    · exact absurd rfl hne
  | pipeErr1 i =>
    rw [hdoing] at hl
    refine h.own e _ rfl h.one.unmapFd (fun x => samePlaces_unmapFd) (fun k hk => ?_) hon (by simp)
      (by simp) fun _ => hd
    obtain ⟨hne, hk⟩ := mem_held_unmapFd.mp hk
    obtain rfl := hl k hk
    exact absurd rfl hne
  | _ =>
    rw [hdoing] at hd
    exact absurd hd (by simp [Doing.creates])

/-- A step of an environment that makes a child: the two of them change. -/
lemma pair (h : EndsInv s) {b : Bool} (d d' : Doing) (hd : s.doing e = .copy c k b)
    (hemb : s.doing c = .embryo) (he : s'.doing e = d) (hc : s'.doing c = d')
    (hrest : ∀ x, x ≠ e → x ≠ c → SamePlaces s s' x ∧ s'.doing x = s.doing x) (hone : OneFd s')
    (hloc : EndsLocal s' e d) (hloc' : EndsLocal s' c d')
    (hon : d = .idle ∨ d = .copy c (k + 1) b) (hon' : d' = .idle ∨ d' = .gone ∨ d' = .embryo) :
    EndsInv s' := by
  refine h.frame (fun x => x = e ∨ x = c) hone (fun x hx => ?_) (fun x hx => ?_)
    (fun x c' k' b' hx hcopy hc' => ?_) (fun x c' k' b' hx => ?_) (fun x hx => ?_) fun x hx => ?_
  · rw [not_or] at hx
    exact hrest x hx.1 hx.2
  · rcases hx with rfl | rfl
    · exact he ▸ hloc
    · exact hc ▸ hloc'
  · rcases hc' with rfl | rfl
    · rw [he]
      rcases hon with rfl | rfl
      · exact ⟨by simp, by simp⟩
      · exact ⟨by simp, by simp⟩
    · exact absurd (.inl (h.builder hcopy hd)) hx
  · by_cases hxe : x = e
    · rw [hxe, he] at hx
      rcases hon with rfl | rfl
      · exact absurd hx (by simp)
      · obtain ⟨rfl, -, -⟩ : c = c' ∧ k + 1 = k' ∧ b = b' := by simpa using hx
        exact ⟨k, b, hxe ▸ hd⟩
    · by_cases hxc : x = c
      · rw [hxc, hc] at hx
        rcases hon' with rfl | rfl | rfl <;> exact absurd hx (by simp)
      · rw [(hrest x hxe hxc).2] at hx
        exact ⟨k', b', hx⟩
  · by_cases hxe : x = e
    · rw [hxe, he] at hx
      rcases hon with rfl | rfl <;> exact absurd hx (by simp [Doing.creates])
    · by_cases hxc : x = c
      · rw [hxc, hc] at hx
        rcases hon' with rfl | rfl | rfl <;> exact absurd hx (by simp [Doing.creates])
      · rwa [(hrest x hxe hxc).2] at hx
  · by_cases hxe : x = e
    · rw [hxe, hd] at hx
      exact absurd hx (by simp [Doing.off])
    · by_cases hxc : x = c
      · rw [hxc, hemb] at hx
        exact absurd hx (by simp [Doing.off])
      · rwa [(hrest x hxe hxc).2]

/-- The child of a `spawn` is destroyed. -/
lemma dieGoes (h : EndsInv s) (hd : s.doing e = .copy c k true) (hemb : s.doing c = .embryo) :
    EndsInv ((s.die c).goes e .idle) := by
  have hl := h.loc e
  rw [hd] at hl
  obtain ⟨hgap, hne, -, -⟩ := hl
  refine h.pair .idle .gone hd hemb goes_self ?_ (fun x hxe hxc => ⟨samePlaces_die hxc, ?_⟩)
    h.one.die (NoGap.congr hgap (samePlaces_die hne.symm)) noPlaces_die (.inl rfl)
    (.inr (.inl rfl))
  · rw [goes_of_ne hne]
    exact Function.update_self _ _ _
  · rw [goes_of_ne hxe]
    exact Function.update_of_ne hxc _ _

/-- A page is mapped for the child. -/
lemma copyGoes (h : EndsInv s) {spawn : Bool} {s1 : PipeEnds} (hd : s.doing e = .copy c k spawn)
    (hemb : s.doing c = .embryo) (hdoing : s1.doing = s.doing) (hone : OneFd s1)
    (hother : ∀ x, x ≠ c → SamePlaces s s1 x)
    (hloc : (∀ i, (c, i) ∈ s1.held → i < k + 1 ∧ i < maxfd ∧ (e, i) ∈ s.held) ∧
      ∀ i, maxfd + i < k + 1 → (e, i) ∈ s.data → (c, i) ∈ s1.data) :
    EndsInv (s1.goes e (.copy c (k + 1) spawn)) := by
  have hl := h.loc e
  rw [hd] at hl
  obtain ⟨hgap, hne, habs, -⟩ := hl
  have hse : SamePlaces s s1 e := hother e hne.symm
  have hc : (s1.goes e (.copy c (k + 1) spawn)).doing c = .embryo := by
    rw [goes_of_ne hne, hdoing, hemb]
  refine h.pair _ _ hd hemb goes_self hc (fun x hxe hxc => ⟨hother x hxc, ?_⟩) hone
    ⟨NoGap.congr hgap hse, hne, ?_, fun _ => ⟨fun i hi => ?_, fun i hi hdat => ?_⟩⟩ trivial
    (.inr rfl) (.inr (.inr rfl))
  · rw [goes_of_ne hxe, hdoing]
  · rw [hc]
    simp
  · obtain ⟨h1, h2, h3⟩ := hloc.1 i hi
    exact ⟨h1, h2, (hse i).1.mpr h3⟩
  · exact hloc.2 i hi ((hse i).2.mp hdat)

/-- The ways of `copyPage`. -/
lemma copyPage_cases {P : PipeEnds → Prop} {spawn ok mapped : Bool} {map : PipeEnds → PipeEnds}
    (hskip : mapped = false → P (s.goes e (.copy c (k + 1) spawn)))
    (hmap : mapped = true → s.doing c = .embryo → P ((map s).goes e (.copy c (k + 1) spawn)))
    (hspawn : spawn = true → P ((if s.doing c = .embryo then s.die c else s).goes e .idle))
    (hfork : spawn = false → ¬ (ok = true ∧ s.doing c = .embryo) →
      P (s.goes e (.copy c (k + 1) spawn))) : P (copyPage s e c k spawn ok mapped map) := by
  unfold copyPage
  by_cases hm : mapped = false
  · rw [if_pos hm]
    exact hskip hm
  · rw [if_neg hm]
    by_cases hboth : ok = true ∧ s.doing c = .embryo
    · rw [if_pos hboth]
      exact hmap (by simpa using hm) hboth.2
    · rw [if_neg hboth]
      by_cases hs : spawn = true
      · rw [if_pos hs]
        exact hspawn hs
      · rw [if_neg hs]
        exact hfork (by simpa using hs) hboth

/-- **A system call of `fork` or `spawn`.** -/
lemma callCopy (h : EndsInv s) {spawn ok : Bool} (hd : s.doing e = .copy c k spawn)
    (hok : spawn = false → maxfd ≤ k → ok = true) : EndsInv (endsCall s e ok) := by
  have hl := h.loc e
  rw [hd] at hl
  obtain ⟨hgap, hne, habs, hchild⟩ := hl
  have hon : ¬ (s.doing e).off := by
    rw [hd]
    simp [Doing.off]
  -- the environment goes on without a page for the child
  have hskip : (s.doing c = .embryo → ∀ i, maxfd + i = k → (e, i) ∉ s.data) →
      EndsInv (s.goes e (.copy c (k + 1) spawn)) := by
    intro hno
    by_cases he : s.doing c = .embryo
    · refine h.copyGoes hd he rfl h.one (fun x _ => .refl s x) ⟨fun i hi => ?_, fun i hi hdat => ?_⟩
      · obtain ⟨h1, h2, h3⟩ := (hchild he).1 i hi
        exact ⟨by omega, h2, h3⟩
      · have hik : maxfd + i ≠ k := fun hik => hno he i hik hdat
        exact (hchild he).2 i (by omega) hdat
    · refine h.own e _ rfl h.one (fun x _ => .refl s x) ?_ hon (by simp) ?_ (by simp [Doing.creates])
      · refine ⟨hgap, hne, ?_, fun he' => absurd ?_ he⟩
        · rwa [goes_of_ne hne]
        · rwa [goes_of_ne hne] at he'
      · intro c' k' b hc
        obtain ⟨rfl, -, -⟩ : c = c' ∧ k + 1 = k' ∧ spawn = b := by simpa using hc
        exact ⟨k, spawn, hd⟩
  have hidle : EndsInv (s.goes e .idle) :=
    h.goes e .idle hgap hon (by simp) (by simp [Doing.creates])
  have hfail : spawn = true →
      EndsInv ((if s.doing c = .embryo then s.die c else s).goes e .idle) := by
    rintro rfl
    split_ifs with he
    · exact h.dieGoes hd he
    · exact hidle
  unfold endsCall
  rw [hd]
  simp only
  split_ifs with hk hk2 he
  · -- the page of a `struct Fd`
    have hnone : s.doing c = .embryo → ∀ i, maxfd + i = k → (e, i) ∉ s.data := by
      intro _ i hi
      omega
    refine copyPage_cases (fun _ => hskip hnone) (fun hm hemb => ?_) hfail fun _ _ => hskip hnone
    have hm : (e, k) ∈ s.held := by simpa using hm
    refine h.copyGoes hd hemb rfl h.one.mapFd (fun x => samePlaces_mapFd hm)
      ⟨fun i hi => ?_, fun i hi hdat => by omega⟩
    rcases (mem_held_mapFd hm).mp hi with hi | hi
    · obtain rfl : i = k := (Prod.mk.inj hi).2
      exact ⟨by omega, hk, hm⟩
    · obtain ⟨h1, h2, h3⟩ := (hchild hemb).1 i hi
      exact ⟨by omega, h2, h3⟩
  · -- the page of the pipe
    have hki : ∀ i, maxfd + i = k → i = k - maxfd := by
      intro i hi
      omega
    refine copyPage_cases (fun hm => hskip fun _ i hi => ?_) (fun _ hemb => ?_) hfail
      fun hs hboth => hskip fun hemb => absurd ⟨hok hs (by omega), hemb⟩ hboth
    · rw [hki i hi]
      simpa using hm
    · refine h.copyGoes hd hemb rfl h.one (fun x => samePlaces_mapData)
        ⟨fun i hi => ?_, fun i hi hdat => ?_⟩
      · obtain ⟨h1, h2, h3⟩ := (hchild hemb).1 i hi
        exact ⟨by omega, h2, h3⟩
      · rw [mem_data_mapData]
        by_cases hik : maxfd + i = k
        · exact .inl (by rw [hki i hik])
        · exact .inr ((hchild hemb).2 i (by omega) hdat)
  · -- the child becomes runnable: it has the pipe wherever it has a `struct Fd`
    have hchildGap : NoGap s c := by
      intro i hi
      obtain ⟨-, h2, h3⟩ := (hchild he).1 i hi
      exact (hchild he).2 i (by omega) (hgap i h3)
    refine h.pair .idle .idle hd he goes_self ?_ (fun x hxe hxc => ⟨.refl s x, ?_⟩) h.one hgap
      hchildGap (.inl rfl) (.inl rfl)
    · rw [goes_of_ne hne, goes_self]
    · rw [goes_of_ne hxe, goes_of_ne hxc]
  · exact hidle

/-- **A system call.** -/
lemma call (h : EndsInv s) {ok : Bool}
    (hok : ∀ c k, s.doing e = .copy c k false → maxfd ≤ k → ok = true) :
    EndsInv (endsCall s e ok) := by
  have hl := h.loc e
  cases hdoing : s.doing e with
  | copy c k spawn =>
    refine h.callCopy hdoing fun hs hk => ?_
    subst hs
    exact hok c k hdoing hk
  | absent | embryo | gone | idle =>
    unfold endsCall
    rw [hdoing]
    exact h
  | closeFd i old =>
    unfold endsCall
    rw [hdoing] at hl ⊢
    refine h.own e _ rfl h.one.unmapFd (fun x => samePlaces_unmapFd) ⟨fun k hk => ?_, ?_⟩
      (by simp [hdoing, Doing.off]) (by simp) (by simp) (by simp [Doing.creates])
    · exact hl k (mem_held_unmapFd.mp hk).2
    · exact fun hi => (mem_held_unmapFd.mp hi).1 rfl
  | closeData i old =>
    have hgap : NoGap (s.unmapData (e, i)) e := by
      rw [hdoing] at hl
      intro k hk
      rw [mem_data_unmapData]
      refine ⟨fun he => hl.2 ?_, hl.1 k hk⟩
      rw [← he]
      exact hk
    unfold endsCall
    rw [hdoing]
    cases old with
    | none =>
      exact h.own e _ rfl h.one (fun x => samePlaces_unmapData) hgap (by simp [hdoing, Doing.off])
        (by simp) (by simp) (by simp [Doing.creates])
    | some old =>
      exact h.own e _ rfl h.one (fun x => samePlaces_unmapData) hgap (by simp [hdoing, Doing.off])
        (by simp) (by simp) (by simp [Doing.creates])
  | dupData old new =>
    have hon : ¬ (s.doing e).off := by simp [hdoing, Doing.off]
    unfold endsCall
    rw [hdoing] at hl ⊢
    simp only
    split_ifs with hin
    · refine h.own e _ rfl h.one (fun x => samePlaces_mapData) ⟨fun k hk => ?_, fun _ => ?_⟩ hon
        (by simp) (by simp) (by simp [Doing.creates])
      · exact mem_data_mapData.mpr (.inr (hl k hk))
      · exact mem_data_mapData.mpr (.inl rfl)
    · exact h.goes e _ hl hon (by simp) (by simp [Doing.creates])
    · exact h.goes e _ ⟨hl, fun hold => absurd (hl old hold) hin⟩ hon (by simp)
        (by simp [Doing.creates])
  | dupFd old new =>
    have hon : ¬ (s.doing e).off := by simp [hdoing, Doing.off]
    unfold endsCall
    rw [hdoing] at hl ⊢
    simp only
    split_ifs with hboth
    · refine h.own e _ rfl h.one.mapFd (fun x => samePlaces_mapFd hboth.2) (fun k hk => ?_) hon
        (by simp) (by simp) (by simp [Doing.creates])
      rcases (mem_held_mapFd hboth.2).mp hk with hk | hk
      · obtain rfl : k = new := (Prod.mk.inj hk).2
        exact hl.2 hboth.2
      · exact hl.1 k hk
    · exact h.goes e _ hl.1 hon (by simp) (by simp [Doing.creates])
  | dupErrFd new =>
    unfold endsCall
    rw [hdoing] at hl ⊢
    refine h.own e _ rfl h.one.unmapFd (fun x => samePlaces_unmapFd) ⟨fun k hk => ?_, ?_⟩
      (by simp [hdoing, Doing.off]) (by simp) (by simp) (by simp [Doing.creates])
    · exact hl k (mem_held_unmapFd.mp hk).2
    · exact fun hi => (mem_held_unmapFd.mp hi).1 rfl
  | dupErrData new =>
    unfold endsCall
    rw [hdoing] at hl ⊢
    refine h.own e _ rfl h.one (fun x => samePlaces_unmapData) (fun k hk => ?_)
      (by simp [hdoing, Doing.off]) (by simp) (by simp) (by simp [Doing.creates])
    refine mem_data_unmapData.mpr ⟨fun he => hl.2 ?_, hl.1 k hk⟩
    rw [← he]
    exact hk
  | _ => exact h.callPipe (by rw [hdoing]; rfl) ok

/-- A child is made. -/
lemma beginCopy (h : EndsInv s) {spawn : Bool} (he : s.doing e = .idle) (hc : s.doing c = .absent) :
    EndsInv ((s.goes c .embryo).goes e (.copy c 0 spawn)) := by
  have hne : c ≠ e := by
    rintro rfl
    exact absurd (he.symm.trans hc) (by simp)
  have hnone : NoPlaces s c := by
    have hl := h.loc c
    rwa [hc] at hl
  have hnew : ∀ x, ((s.goes c .embryo).goes e (.copy c 0 spawn)).doing x =
      if x = e then .copy c 0 spawn else if x = c then .embryo else s.doing x := by
    intro x
    split_ifs with hxe hxc
    · rw [hxe, goes_self]
    · rw [goes_of_ne hxe, hxc, goes_self]
    · rw [goes_of_ne hxe, goes_of_ne hxc]
  -- nobody copies to a child that has not been made
  have hnobody : ∀ {x k b}, s.doing x ≠ .copy c k b := by
    intro x k b hx
    have hl := h.loc x
    rw [hx] at hl
    exact hl.2.2.1 hc
  have hnocreate : ∀ x, (s.doing x).creates = false := by
    intro x
    by_contra hx
    have hxe : x ≠ e := by
      rintro rfl
      rw [he] at hx
      exact hx rfl
    have hoff := h.alone (by simpa using hx) hxe.symm
    rw [he] at hoff
    exact absurd hoff (by simp [Doing.off])
  refine ⟨h.one, fun x => ?_, ?_, fun {x x'} hx => ?_⟩
  · rw [hnew]
    split_ifs with hxe hxc
    · subst hxe
      refine ⟨?_, hne, ?_, fun _ => ⟨fun i hi => absurd hi (hnone i).1, fun i hi => by omega⟩⟩
      · have hl := h.loc x
        rwa [he] at hl
      · rw [hnew, if_neg hne, if_pos rfl]
        simp
    · trivial
    · refine (h.loc x).congr (.refl s x) fun c' k b hx => ?_
      rw [hnew]
      split_ifs with h1 h2
      · simp
      · exact absurd (h2 ▸ hx) hnobody
      · exact ⟨fun h3 => ⟨h3, .refl s c'⟩, id⟩
  · intro x x' c' k k' b b' hx hx'
    rw [hnew] at hx hx'
    split_ifs at hx hx' with h1 h2 h3 h4
    · rw [h1, h2]
    · obtain ⟨rfl, -, -⟩ : c = c' ∧ 0 = k ∧ spawn = b := by simpa using hx
      exact absurd hx' hnobody
    · obtain ⟨rfl, -, -⟩ : c = c' ∧ 0 = k' ∧ spawn = b' := by simpa using hx'
      exact absurd hx hnobody
    · exact h.builder hx hx'
  · rw [hnew] at hx
    split_ifs at hx with h1 h2
    · exact absurd hx (by simp [Doing.creates])
    · exact absurd hx (by simp [Doing.creates])
    · exact absurd hx (by simp [hnocreate x])

/-- An environment is destroyed. -/
lemma die (h : EndsInv s) (he : s.doing e ≠ .absent) : EndsInv (s.die e) := by
  have hself : (s.die e).doing e = .gone := Function.update_self _ _ _
  have hrest : ∀ x, x ≠ e → (s.die e).doing x = s.doing x := by
    intro x hx
    exact Function.update_of_ne hx _ _
  refine h.frame (· = e) h.one.die (fun x hx => ⟨samePlaces_die hx, hrest x hx⟩) ?_ ?_ ?_ ?_ ?_
  · rintro x rfl
    rw [hself]
    exact noPlaces_die
  · rintro x c k b hx hcopy rfl
    rw [hself]
    exact ⟨by simp, by simp⟩
  · intro x c k b hx
    by_cases hxe : x = e
    · rw [hxe, hself] at hx
      exact absurd hx (by simp)
    · exact ⟨k, b, (hrest x hxe).symm.trans hx⟩
  · intro x hx
    by_cases hxe : x = e
    · rw [hxe, hself] at hx
      exact absurd hx (by simp [Doing.creates])
    · rwa [hrest x hxe] at hx
  · intro x hx
    by_cases hxe : x = e
    · rw [hxe, hself]
      exact .inr rfl
    · rwa [hrest x hxe]

/-- **One step.** -/
theorem step (h : EndsInv s) {ev : EndsEvent} (hok : CopiesData s ev) : EndsInv (endsStep s ev) := by
  cases ev with
  | call e ok => exact h.call hok
  | copy e child spawn =>
    unfold endsStep
    simp only
    split_ifs with hc
    · exact h.beginCopy hc.1 hc.2
    · exact h
  | dup e old new =>
    have hl := h.loc e
    unfold endsStep
    simp only
    split_ifs with hc
    · rw [hc.1] at hl
      exact h.goes e _ hl (by simp [hc.1, Doing.off]) (by simp) (by simp [Doing.creates])
    · rw [hc.1] at hl
      exact h.goes e _ hl (by simp [hc.1, Doing.off]) (by simp) (by simp [Doing.creates])
    · exact h
  | close e i =>
    have hl := h.loc e
    unfold endsStep
    simp only
    split_ifs with hc
    · rw [hc.1] at hl
      exact h.goes e _ hl (by simp [hc.1, Doing.off]) (by simp) (by simp [Doing.creates])
    · exact h
  | kill e =>
    unfold endsStep
    simp only
    split_ifs with hc
    · exact h
    · exact h.die hc

/-- **A run.** -/
theorem run (h : EndsInv s) {events : List EndsEvent} (hok : CopiesDataRun s events) :
    EndsInv (endsRun s events) := by
  induction events generalizing s with
  | nil => exact h
  | cons ev events ih => exact ih (h.step hok.1) hok.2

/-- It holds at the start. -/
lemma start (i j : ℕ) : EndsInv (.start i j) where
  one := fun p hp => absurd hp (by simp [PipeEnds.start])
  loc := by
    intro e
    have hno : NoPlaces (.start i j) e := fun k => by simp [mem_held, PipeEnds.start]
    by_cases he : e = 0
    · rw [he] at hno ⊢
      exact hno
    · have hd : (PipeEnds.start i j).doing e = .absent := if_neg he
      rw [hd]
      exact hno
  builder := by
    intro e e' c k k' b b' he
    simp only [PipeEnds.start] at he
    split_ifs at he
  alone := by
    intro e e' he hne
    simp only [PipeEnds.start] at he ⊢
    split_ifs at he with h0
    · rw [if_neg fun h1 => hne (h1.trans h0.symm)]
      exact .inl rfl
    · exact absurd he (by simp [Doing.creates])

/-! ## The test -/

/-- The places of the two ends are counted once each. -/
lemma card_held (h : EndsInv s) : s.held.card = (s.fds .read).card + (s.fds .write).card :=
  Finset.card_union_of_disjoint (Finset.disjoint_left.mpr h.one)

/-- Where an environment is in none of the functions, no other one is in `pipe`. -/
lemma not_creates (h : EndsInv s) (he : s.doing e = .idle) (x : ℕ) :
    (s.doing x).creates = false := by
  by_contra hx
  have hxe : e ≠ x := by
    rintro rfl
    rw [he] at hx
    exact hx rfl
  have hoff := h.alone (by simpa using hx) hxe
  rw [he] at hoff
  exact absurd hoff (by simp [Doing.off])

/-- Every place of an end has the pipe, if that is so in the children that are not runnable. -/
lemma held_subset (h : EndsInv s) (he : s.doing e = .idle)
    (hchild : ∀ c, s.doing c = .embryo → NoGap s c) : s.held ⊆ s.data := by
  rintro ⟨x, i⟩ hx
  have hl := h.loc x
  have hno := h.not_creates he x
  cases hdoing : s.doing x with
  | embryo => exact hchild x hdoing i hx
  | absent | gone =>
    rw [hdoing] at hl
    exact absurd hx (hl i).1
  | idle | closeFd | dupData | dupErrFd =>
    rw [hdoing] at hl
    exact hl i hx
  | closeData | dupErrData | dupFd | copy =>
    rw [hdoing] at hl
    exact hl.1 i hx
  | _ =>
    rw [hdoing] at hno
    exact absurd hno (by simp [Doing.creates])

end EndsInv

/-- **When `_pipe_is_closed` is right.** In every run in which no `fork` fails to map the page of
the pipe, an environment that looks at an end of the pipe, while no child that is not runnable has
a `struct Fd` without the pipe, sees that the pipe is closed only if no environment has the other
end. -/
theorem pipeIsClosed_right {i j : ℕ} {events : List EndsEvent}
    (hok : CopiesDataRun (.start i j) events) (hs : s = endsRun (.start i j) events)
    (hchild : ∀ c, s.doing c = .embryo → NoGap s c) (he : s.doing e = .idle)
    (hp : (e, k) ∈ s.fds r) (hclosed : s.pipeIsClosed r (e, k) = true) :
    s.fds r.other = ∅ := by
  have h : EndsInv s := hs ▸ (EndsInv.start i j).run hok
  have hsub := h.held_subset he hchild
  have hdata : (e, k) ∈ s.data := by
    refine hsub (mem_held.mpr ?_)
    cases r with
    | read => exact .inl hp
    | write => exact .inr hp
  have hcard := Finset.card_le_card hsub
  rw [h.card_held] at hcard
  rw [PipeEnds.pipeIsClosed, PipeEnds.fdRef, PipeEnds.dataRef, if_pos hp, if_pos hdata,
    beq_iff_eq] at hclosed
  cases r with
  | read => exact Finset.card_eq_zero.mp (by change (s.fds .write).card = 0; omega)
  | write => exact Finset.card_eq_zero.mp (by change (s.fds .read).card = 0; omega)

/-- The first environment makes a pipe and closes its writing end. -/
def closeWriter : List EndsEvent :=
  List.replicate 4 (.call 0 true) ++ [.close 0 1, .call 0 true, .call 0 true]

/-- The other environments have not been made. -/
lemma closeWriter_doing (hc : c ≠ 0) : (endsRun (.start 0 1) closeWriter).doing c = .absent := by
  simp [closeWriter, endsRun, endsStep, endsCall, PipeEnds.start, PipeEnds.goes, PipeEnds.allocFd,
    PipeEnds.mapData, PipeEnds.unmapFd, PipeEnds.unmapData, PipeEnds.held, hc, maxfd]

/-- What it comes to, computed once. -/
lemma closeWriter_facts : (endsRun (.start 0 1) closeWriter).doing 0 = .idle ∧
    (0, 0) ∈ (endsRun (.start 0 1) closeWriter).fds .read ∧
    (endsRun (.start 0 1) closeWriter).pipeIsClosed .read (0, 0) = true := by
  decide +kernel

/-- Its reading end is closed. -/
theorem pipeIsClosed_right_closeWriter :
    (endsRun (.start 0 1) closeWriter).fds .write = ∅ := by
  refine pipeIsClosed_right (r := .read) (e := 0) (k := 0) ?_ rfl ?_
    closeWriter_facts.1 closeWriter_facts.2.1 closeWriter_facts.2.2
  · simp [closeWriter, CopiesDataRun, CopiesData]
  · intro c hc
    by_cases h0 : c = 0
    · subst h0
      exact absurd (closeWriter_facts.1.symm.trans hc) (by decide)
    · rw [closeWriter_doing h0] at hc
      exact absurd hc (by simp)

/-! ## A pipe that looks closed -/

/-- The first environment makes a pipe and a child; the child closes its writing end. -/
def readerEvents : List EndsEvent :=
  List.replicate 4 (.call 0 true) ++ [.copy 0 1 false] ++ List.replicate 65 (.call 0 true) ++
    [.close 1 1, .call 1 true, .call 1 true]

/-- **A pipe that looks closed**: the first environment makes a second child, and `fork` has mapped
the reading end there. The pipe has 3 places, and so has the reading end; the first environment
has the writing end. -/
theorem pipe_looks_closed :
    let s := endsRun (.start 0 1) (readerEvents ++ [.copy 0 2 false, .call 0 true])
    s.doing 1 = .idle ∧ (1, 0) ∈ s.fds .read ∧ s.pipeIsClosed .read (1, 0) = true ∧
      (0, 1) ∈ s.fds .write ∧ (0, 1) ∈ s.data := by
  decide +kernel

end MosVolca
