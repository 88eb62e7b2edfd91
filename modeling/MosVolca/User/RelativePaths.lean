import MosVolca.Lib.Paths
import MosVolca.User.FileTruncate

/-!
# Paths from the current directory

`openatThis` goes through a path element by element: it puts each one behind the path `nowPath` that
it has come to, and opens that path when nothing is left. What is left is in `nextPath`, an array on
the stack that `splitPath` does not write to if the element is the last of the string. So the string
that the array happens to hold is gone through as well, and a second slash after an element is an
error.

## Main definitions

* `MosVolca.openatPath` — the path that `openatThis` opens.
* `MosVolca.Client.openatThis` — the function.
* `MosVolca.OpensAsAbsolute` — the path is opened as from the root.
* `MosVolca.SlashEnded` — the elements of the path have one slash each.

## Main results

* `MosVolca.opensAsAbsolute_iff` — when a path is opened as from the root.
* `MosVolca.openatThis_stale` — a path that is not.
-/

namespace MosVolca

variable {σ : Type} {depth fuel : ℕ} {envid mode : Word} {frame ffFrame : ℕ → ℕ}
  {stale : ℕ → List Char8} {cwd p q nowPath : List Char8} {elems : List (List Char8)}

/-! ## The functions -/

/-- `"."`. -/
def dotName : List Char8 := [0x2E]
/-- `".."`. -/
def dotDotName : List Char8 := [0x2E, 0x2E]

/-- `nowPath` after the element `dir`. -/
def stepPath (nowPath dir : List Char8) : List Char8 :=
  if dir = dotName then nowPath
  else if dir = dotDotName then toParentPath nowPath
  else catPath nowPath dir

/-- The path that `openatThis` opens: `some none` if it returns -1, and `none` if `fuel` calls are
not enough. Call `k` finds the string `stale k` in its array `nextPath`. -/
def openatPath (stale : ℕ → List Char8) : ℕ → List Char8 → List Char8 → Option (Option (List Char8))
  | 0, _, _ => none
  | fuel + 1, nowPath, path =>
    match splitPath (stale 0) path with
    | none => some none
    | some (dir, nextPath) =>
      if nextPath = [] then some (some (stepPath nowPath dir))
      else openatPath (fun k => stale (k + 1)) fuel (stepPath nowPath dir) nextPath

/-- `openatThis`, with a stack for `fuel` calls. Call `k` finds the string `stale k` in its array
`nextPath`. -/
def Client.openatThis (svc : FileService σ) (c : Client σ) (mode : Word) (stale : ℕ → List Char8) :
    ℕ → List Char8 → List Char8 → Kernel (Word × Client σ)
  | 0, _, _ => throw (.panic "the stack is full")
  | fuel + 1, nowPath, path =>
    match splitPath (stale 0) path with
    | none => pure (-1, c)
    | some (dir, nextPath) =>
      if nextPath = [] then c.openAP svc (stepPath nowPath dir) mode
      else c.openatThis svc mode (fun k => stale (k + 1)) fuel (stepPath nowPath dir) nextPath

/-- `openatThis` opens the path of `openatPath`. -/
lemma Client.openatThis_eq (svc : FileService σ) (c : Client σ)
    (h : openatPath stale fuel nowPath p = some (some q)) :
    c.openatThis svc mode stale fuel nowPath p = c.openAP svc q mode := by
  induction fuel generalizing stale nowPath p with
  | zero => cases h
  | succ fuel ih =>
    rw [openatPath] at h
    rw [Client.openatThis]
    cases hs : splitPath (stale 0) p with
    | none =>
      rw [hs] at h
      cases h
    | some x =>
      rw [hs] at h
      simp only at h ⊢
      split_ifs at h ⊢ with hnext
      · cases h
        rfl
      · exact ih h

/-! ## Paths with the same elements -/

/-- `walk_path` looks at the elements of a path only. -/
lemma walkPath_congr (s : BlockCache) (h : pathElems p = pathElems q) (depth : ℕ) :
    walkPath s p depth = walkPath s q depth := by
  cases depth with
  | zero => rfl
  | succ depth => rw [walkPath, walkPath, h]

lemma walksTo_congr (s : BlockCache) (f : FilePtr) (h : pathElems p = pathElems q) :
    WalksTo s p f ↔ WalksTo s q f := by
  unfold WalksTo
  simp only [walkPath_congr s h]

/-- `serve_open` looks at the elements of a path only. -/
lemma serveOpen_congr (s : FileServer) (h : pathElems p = pathElems q) :
    serveOpen s depth envid p mode = serveOpen s depth envid q mode := by
  unfold serveOpen openMissing fileOpen fileCreate
  simp only [walkPath_congr _ h]

/-- `openAP` looks at the elements of a path that is short enough only. -/
lemma Client.openAP_congr (c : Client FileServer) (h : pathElems p = pathElems q)
    (hp : p.length < maxpathlen) (hq : q.length < maxpathlen) :
    c.openAP (fileServer depth envid frame ffFrame) p mode =
      c.openAP (fileServer depth envid frame ffFrame) q mode := by
  have hpage : ∀ s, (fileServer depth envid frame ffFrame).page s (.openFile p mode) =
      (fileServer depth envid frame ffFrame).page s (.openFile q mode) := fun s => by
    unfold fileServer serveRequest
    simp only [serveOpen_congr _ h]
  have hopen : ∀ fd, c.fsipcOpen (fileServer depth envid frame ffFrame) p mode fd =
      c.fsipcOpen (fileServer depth envid frame ffFrame) q mode fd := fun fd => by
    unfold Client.fsipcOpen Client.fsipcPage
    rw [if_neg (Nat.not_le.mpr hp), if_neg (Nat.not_le.mpr hq)]
    simp only [hpage]
  unfold Client.openAP
  simp only [hopen]

/-! ## Elements with one slash each -/

/-- The elements, each with a slash behind it. -/
def slashAfter (elems : List (List Char8)) : List Char8 := elems.flatMap (· ++ [slash])

/-- The strings are elements of a path. -/
def Elements (elems : List (List Char8)) : Prop := ∀ e ∈ elems, e ≠ [] ∧ slash ∉ e

/-- The path has elements, and each of them has one slash behind it. -/
def SlashEnded (p : List Char8) : Prop :=
  ∃ elems, elems ≠ [] ∧ Elements elems ∧ p = slashAfter elems

lemma slashAfter_cons (e : List Char8) (elems : List (List Char8)) :
    slashAfter (e :: elems) = e ++ slash :: slashAfter elems := by
  unfold slashAfter
  rw [List.flatMap_cons, List.append_assoc, List.singleton_append]

lemma slashAfter_eq_nil : slashAfter elems = [] ↔ elems = [] := by
  cases elems with
  | nil => exact iff_of_true rfl rfl
  | cons e elems =>
    rw [slashAfter_cons]
    exact iff_of_false (by simp) (List.cons_ne_nil _ _)

lemma pathElems_slashAfter (h : Elements elems) : pathElems (slashAfter elems) = elems := by
  induction elems with
  | nil => rfl
  | cons e elems ih =>
    obtain ⟨hne, hno⟩ := h e List.mem_cons_self
    rw [slashAfter_cons, pathElems_append, pathElems_of_no_slash hno hne,
      ih fun x hx => h x (List.mem_cons_of_mem e hx), List.singleton_append]

/-- `splitPath` at the first slash. -/
lemma splitPath_append {stale e rest : List Char8} (hne : e ≠ []) (hno : slash ∉ e)
    (hlen : e.length ≤ maxnamelen) : splitPath stale (e ++ slash :: rest) = some (e, rest) := by
  have hhead : (e ++ slash :: rest).head? ≠ some slash := by
    rw [List.head?_append_of_ne_nil _ hne]
    exact fun h => hno (List.mem_of_mem_head? h)
  have hall : ∀ x ∈ e, (x != slash) = true := fun x hx =>
    bne_iff_ne.mpr fun he => hno (he ▸ hx)
  have htake : (e ++ slash :: rest).takeWhile (· != slash) = e := by
    rw [List.takeWhile_append_of_pos hall, List.takeWhile_cons_of_neg (by simp), List.append_nil]
  have hdrop : (e ++ slash :: rest).dropWhile (· != slash) = slash :: rest := by
    rw [List.dropWhile_append_of_pos hall, List.dropWhile_cons_of_neg (by simp)]
  unfold splitPath
  rw [if_neg hhead, htake, if_neg (Nat.not_lt.mpr hlen), hdrop]

/-- What `splitPath` finds with a slash in the string, and without. -/
lemma of_splitPath {stale dir next : List Char8} (h : splitPath stale p = some (dir, next)) :
    (slash ∉ p ∧ next = stale) ∨ (dir ≠ [] ∧ slash ∉ dir ∧ p = dir ++ slash :: next) := by
  unfold splitPath at h
  by_cases hhead : p.head? = some slash
  · rw [if_pos hhead] at h
    cases h
  by_cases hlen : (p.takeWhile (· != slash)).length > maxnamelen
  · simp only [if_neg hhead, if_pos hlen] at h
    cases h
  simp only [if_neg hhead, if_neg hlen] at h
  have hno := slash_notMem_takeWhile p
  have hsplit := List.takeWhile_append_dropWhile (p := (· != slash)) (l := p)
  cases hd : p.dropWhile (· != slash) with
  | nil =>
    rw [hd] at h hsplit
    cases h
    rw [List.append_nil] at hsplit
    exact .inl ⟨hsplit ▸ hno, rfl⟩
  | cons x rest =>
    obtain rfl : x = slash := eq_slash_of_dropWhile hd
    rw [hd] at h hsplit
    cases h
    refine .inr ⟨fun he => hhead ?_, hno, hsplit.symm⟩
    rw [← hsplit, he, List.nil_append, List.head?_cons]

/-! ## What is opened -/

lemma pathElems_catPath {pre e : List Char8} (hne : e ≠ []) (hno : slash ∉ e) :
    pathElems (catPath pre e) = pathElems pre ++ [e] := by
  have he : pathElems e = [e] := pathElems_of_no_slash hno hne
  have hhead : e.head? ≠ some slash := fun h => hno (List.mem_of_mem_head? h)
  unfold catPath
  by_cases hlast : pre.getLast? = some slash
  · rw [if_neg fun h => h.1 hlast]
    obtain ⟨a, rfl⟩ := List.getLast?_eq_some_iff.mp hlast
    rw [List.append_assoc, List.singleton_append, pathElems_append, pathElems_append, he]
    exact congrArg (· ++ [e]) (List.append_nil _).symm
  · rw [if_pos ⟨hlast, hhead⟩, pathElems_append, he]

lemma catPath_head {pre e : List Char8} (h : pre.head? = some slash) :
    (catPath pre e).head? = some slash := by
  have hne : pre ≠ [] := fun he => by rw [he] at h; cases h
  unfold catPath
  split_ifs
  · rwa [List.head?_append_of_ne_nil _ hne]
  · rwa [List.head?_append_of_ne_nil _ hne]

lemma catPath_length (pre e : List Char8) :
    (catPath pre e).length ≤ pre.length + (e.length + 1) := by
  unfold catPath
  split_ifs
  · simp
  · simp

/-- The elements are put behind the path one by one. -/
lemma foldl_catPath (h : Elements elems) (hcwd : cwd.head? = some slash) :
    pathElems (elems.foldl catPath cwd) = pathElems cwd ++ elems ∧
      (elems.foldl catPath cwd).head? = some slash ∧
      (elems.foldl catPath cwd).length ≤ cwd.length + (slashAfter elems).length := by
  induction elems generalizing cwd with
  | nil => exact ⟨(List.append_nil _).symm, hcwd, Nat.le_add_right _ _⟩
  | cons e elems ih =>
    obtain ⟨hne, hno⟩ := h e List.mem_cons_self
    obtain ⟨h1, h2, h3⟩ :=
      ih (fun x hx => h x (List.mem_cons_of_mem e hx)) (catPath_head (e := e) hcwd)
    refine ⟨?_, h2, h3.trans ?_⟩
    · rw [List.foldl_cons, h1, pathElems_catPath hne hno, List.append_assoc, List.singleton_append]
    · have := catPath_length cwd e
      rw [slashAfter_cons, List.length_append, List.length_cons]
      omega

/-- The elements of the path are no steps of their own, and their names are short enough. -/
def PlainElements (elems : List (List Char8)) : Prop :=
  ∀ e ∈ elems, e ≠ dotName ∧ e ≠ dotDotName ∧ e.length < maxnamelen

/-- **Elements with one slash each** are all put behind the path, and nothing else is. -/
theorem openatPath_slashAfter (hne : elems ≠ []) (h : Elements elems) (hplain : PlainElements elems)
    (hfuel : elems.length ≤ fuel) :
    openatPath stale fuel cwd (slashAfter elems) = some (some (elems.foldl catPath cwd)) := by
  induction elems generalizing stale fuel cwd with
  | nil => exact absurd rfl hne
  | cons e elems ih =>
    obtain ⟨hnil, hno⟩ := h e List.mem_cons_self
    obtain ⟨hdot, hdotDot, hlen⟩ := hplain e List.mem_cons_self
    obtain ⟨fuel, rfl⟩ : ∃ n, fuel = n + 1 := Nat.exists_eq_add_one_of_ne_zero (by
      rw [List.length_cons] at hfuel
      omega)
    have hstep : stepPath cwd e = catPath cwd e := by
      unfold stepPath
      rw [if_neg hdot, if_neg hdotDot]
    rw [openatPath, slashAfter_cons, splitPath_append hnil hno hlen.le]
    simp only [slashAfter_eq_nil, hstep]
    split_ifs with hlast
    · rw [hlast]
      rfl
    · exact ih hlast (fun x hx => h x (List.mem_cons_of_mem e hx))
        (fun x hx => hplain x (List.mem_cons_of_mem e hx)) (by simpa using hfuel)

/-- If the arrays hold a slash, only paths with one slash behind each element are opened. -/
theorem slashEnded_of_openatPath
    (h : openatPath (fun _ => [slash]) fuel nowPath p = some (some q)) : SlashEnded p := by
  induction fuel generalizing nowPath p with
  | zero => cases h
  | succ fuel ih =>
    rw [openatPath] at h
    cases hs : splitPath [slash] p with
    | none =>
      rw [hs] at h
      cases h
    | some x =>
      obtain ⟨dir, next⟩ := x
      rw [hs] at h
      simp only at h
      rcases of_splitPath hs with ⟨-, rfl⟩ | ⟨hne, hno, rfl⟩
      · -- the string in the array is gone through, and it starts with a slash
        rw [if_neg (List.cons_ne_nil _ _)] at h
        obtain ⟨es, hes, hall, hp⟩ := ih h
        cases es with
        | nil => exact absurd rfl hes
        | cons e es =>
          obtain ⟨hnil, hno⟩ := hall e List.mem_cons_self
          rw [slashAfter_cons] at hp
          have hhead := congrArg List.head? hp
          rw [List.head?_append_of_ne_nil _ hnil] at hhead
          exact absurd (List.mem_of_mem_head? hhead.symm) hno
      · split_ifs at h with hlast
        · refine ⟨[dir], List.cons_ne_nil _ _, fun e he => ?_, by rw [slashAfter_cons, hlast]; rfl⟩
          rw [List.mem_singleton.mp he]
          exact ⟨hne, hno⟩
        · obtain ⟨es, -, hall, rfl⟩ := ih h
          refine ⟨dir :: es, List.cons_ne_nil _ _, fun e he => ?_, (slashAfter_cons dir es).symm⟩
          rcases List.mem_cons.mp he with rfl | he
          · exact ⟨hne, hno⟩
          · exact hall e he

/-! ## Opens from the current directory -/

/-- **The path is opened as from the root**, whatever the arrays on the stack hold: `openatThis`
comes to an end, and it opens a path from the root that leads to the same files as the path behind
the current directory, with the same result. -/
def OpensAsAbsolute (cwd p : List Char8) : Prop :=
  ∀ stale : ℕ → List Char8, ∃ n q,
    (∀ fuel ≥ n, openatPath stale fuel cwd p = some (some q)) ∧ q.head? = some slash ∧
    (∀ s f, WalksTo s q f ↔ WalksTo s (cwd ++ slash :: p) f) ∧
    ∀ depth envid frame ffFrame (c : Client FileServer) mode, ∀ fuel ≥ n,
      c.openatThis (fileServer depth envid frame ffFrame) mode stale fuel cwd p =
        c.openAP (fileServer depth envid frame ffFrame) (cwd ++ slash :: p) mode

/-- **Paths from the current directory.** A path without `.` and `..` that is short enough, with
short names, is opened as from the root exactly if each of its elements has one slash behind it. -/
theorem opensAsAbsolute_iff (hcwd : cwd.head? = some slash) (hplain : PlainElements (pathElems p))
    (hlen : (cwd ++ slash :: p).length < maxpathlen) : OpensAsAbsolute cwd p ↔ SlashEnded p := by
  constructor
  · intro h
    obtain ⟨n, q, hopen, -⟩ := h fun _ => [slash]
    exact slashEnded_of_openatPath (hopen n le_rfl)
  · rintro ⟨elems, hne, hall, rfl⟩ stale
    rw [pathElems_slashAfter hall] at hplain
    obtain ⟨helems, hhead, hlength⟩ := foldl_catPath hall hcwd
    have hopen : ∀ fuel ≥ elems.length, openatPath stale fuel cwd (slashAfter elems) =
        some (some (elems.foldl catPath cwd)) := fun fuel hfuel =>
      openatPath_slashAfter hne hall hplain hfuel
    have hsame : pathElems (elems.foldl catPath cwd) =
        pathElems (cwd ++ slash :: slashAfter elems) := by
      rw [helems, pathElems_append, pathElems_slashAfter hall]
    refine ⟨elems.length, elems.foldl catPath cwd, hopen, hhead,
      fun s f => walksTo_congr s f hsame, ?_⟩
    intro depth envid frame ffFrame c mode fuel hfuel
    rw [c.openatThis_eq _ (hopen fuel hfuel)]
    refine c.openAP_congr hsame ?_ hlen
    rw [List.length_append, List.length_cons] at hlen
    omega

/-- The path `a/` in the root. -/
theorem opensAsAbsolute_iff_slash :
    OpensAsAbsolute [0x2F] [0x61, 0x2F] ↔ SlashEnded [0x61, 0x2F] :=
  opensAsAbsolute_iff rfl (by unfold PlainElements; decide) (by decide)

/-- **A string of the stack is opened.** The path `a` in the root: it is opened with what the array
holds behind it. -/
theorem openatThis_stale : ¬ ∀ cwd p : List Char8, cwd.head? = some slash → p.head? ≠ some slash →
    PlainElements (pathElems p) → (cwd ++ slash :: p).length < maxpathlen →
    OpensAsAbsolute cwd p := by
  intro h
  obtain ⟨n, q, hopen, -⟩ := h [0x2F] [0x61] rfl (by decide) (by unfold PlainElements; decide)
    (by decide) fun _ => [slash]
  have hfail : openatPath (fun _ => [slash]) (n + 2) [0x2F] [0x61] = some none := rfl
  rw [hopen (n + 2) (by omega)] at hfail
  cases hfail

end MosVolca
