import Mathlib.Tactic.IntervalCases
import MosVolca.User.Sh

/-!
# Redirections and commands

Command lines of simple commands that are joined by `;` and `&`. A simple command should run with
its own words and with the shell's descriptors, changed only by its own redirections. `parsecmd`
redirects the descriptors of the environment that parses the whole line, so the redirections of a
command stay for the later ones: the commands run as they should if and only if each redirects
every descriptor that the one before it has redirected, and none has more than 127 words.

## Main definitions

* `MosVolca.Simple`, `MosVolca.CmdLine` — simple commands and command lines, with their tokens.
* `MosVolca.CmdLine.expected` — what should run.
* `MosVolca.Isolating` — the condition.

## Main results

* `MosVolca.parsecmd_items` — what `parsecmd` does on a simple command.
* `MosVolca.runcmd_isolated_iff` — when every command runs as it should.
-/

namespace MosVolca

/-! ## Command lines -/

/-- A part of a simple command: a word, `< t` or `> t`. -/
inductive Item
  | word (t : Text)
  | input (t : Text)
  | output (t : Text)

/-- The tokens of a part. -/
def Item.tokens : Item → List Token
  | .word t => [.word t]
  | .input t => [.less, .word t]
  | .output t => [.greater, .word t]

/-- The words of a simple command. -/
def Item.word? : Item → Option Text
  | .word t => some t
  | _ => none

/-- A simple command has a word. -/
structure Simple where
  items : List Item
  named : items.filterMap Item.word? ≠ []

/-- `;` or `&`. -/
inductive Sep
  | semi
  | amp

/-- The token of a separator. -/
def Sep.token : Sep → Token
  | .semi => .semi
  | .amp => .amp

/-- Simple commands joined by separators; there may be a separator at the end. -/
inductive CmdLine
  | nil
  | last (c : Simple)
  | join (c : Simple) (s : Sep) (rest : CmdLine)

namespace Simple

/-- The words of the command. -/
def words (c : Simple) : List Text := c.items.filterMap Item.word?

/-- The tokens of the command. -/
def tokens (c : Simple) : List Token := c.items.flatMap Item.tokens

end Simple

/-- The tokens of the line. -/
def CmdLine.tokens : CmdLine → List Token
  | .nil => []
  | .last c => c.tokens
  | .join c s rest => c.tokens ++ s.token :: rest.tokens

/-! ## What should run -/

/-- The number of redirections, each of which is a call. -/
def redirections (items : List Item) : ℕ := (items.filter fun i => i.word?.isNone).length

/-- The descriptors after the redirections of the parts, the first of which is the call number
`n`. -/
def redirect (w : Calls) : ℕ → List Item → FdTable → FdTable
  | _, [], fds => fds
  | n, .word _ :: items, fds => redirect w n items fds
  | n, .input t :: items, fds => redirect w (n + 1) items (stdinFrom w n t fds)
  | n, .output t :: items, fds => redirect w (n + 1) items (stdoutTo w n t fds)

/-- The command with its own words, and the descriptors `fds` with its own redirections. -/
def Simple.alone (c : Simple) (w : Calls) (n : ℕ) (fds : FdTable) : Run :=
  .spawn (c.words.map .word) (redirect w n c.items fds)

/-- What should run, in the order of the line. -/
def CmdLine.expected (w : Calls) (fds : FdTable) : ℕ → CmdLine → List Run
  | _, .nil => []
  | n, .last c => [c.alone w n fds]
  | n, .join c _ rest =>
    c.alone w n fds :: rest.expected w fds (n + redirections c.items + 1)

/-! ## The condition -/

/-- The server grants the call number `n`, `open` of `t`. -/
def Granted (w : Calls) (n : ℕ) (mode : OpenMode) (t : Text) : Prop :=
  w.grants n mode false = true ∨
    (t.head? ≠ some 47#8 ∧ endsInB t = true ∧ w.grants n mode true = true)

/-- One of the parts redirects the descriptor `d`: there is a descriptor for `open`, and the server
grants it. -/
def Redirects (w : Calls) (fds : FdTable) (d : ℕ) : ℕ → List Item → Prop
  | _, [] => False
  | n, .word _ :: items => Redirects w fds d n items
  | n, .input t :: items =>
    (d = 0 ∧ fdAlloc fds ≠ none ∧ Granted w n .rdonly t) ∨ Redirects w fds d (n + 1) items
  | n, .output t :: items =>
    (d = 1 ∧ fdAlloc fds ≠ none ∧ (Granted w n .wronly t ∨ Granted w n .creatWronly t)) ∨
      Redirects w fds d (n + 1) items

/-- **The condition on a command line**, after commands that have redirected the descriptors `R`: a
command has at most 127 words and redirects every descriptor that has been redirected before, and
the forks succeed whose children run commands. -/
def Isolating (w : Calls) (fds : FdTable) : (ℕ → Prop) → ℕ → CmdLine → Prop
  | _, _, .nil => True
  | R, n, .last c => c.words.length < maxArgs ∧ ∀ d, R d → Redirects w fds d n c.items
  | R, n, .join c s rest =>
    (c.words.length < maxArgs ∧ ∀ d, R d → Redirects w fds d n c.items) ∧
      (w.fork (n + redirections c.items) = true ∨ (s = .semi ∧ rest = .nil)) ∧
      Isolating w fds (fun d => Redirects w fds d n c.items) (n + redirections c.items + 1) rest

/-- The descriptors of a shell: 0 and 1 are in use. -/
structure ShellFds where
  used : ℕ → Bool
  stdin : used 0 = true
  stdout : used 1 = true

/-- What they refer to. -/
def ShellFds.table (f : ShellFds) : FdTable := fun d =>
  if f.used d then some (.inherited d) else none

/-! ## One redirection -/

variable {w : Calls} {f : ShellFds} {fds : FdTable} {d n : ℕ} {t : Text} {items : List Item}

/-- The descriptors of the environment that parses: the shell's, but for 0 and 1, which are in
use. -/
structure Parsing (f : ShellFds) (fds : FdTable) : Prop where
  stdin : fds 0 ≠ none
  stdout : fds 1 ≠ none
  other : ∀ d, 2 ≤ d → fds d = f.table d

lemma ShellFds.parsing (f : ShellFds) : Parsing f f.table := by
  refine ⟨?_, ?_, fun d _ => rfl⟩
  · rw [ShellFds.table, f.stdin]
    simp
  · rw [ShellFds.table, f.stdout]
    simp

/-- What an `open` gives that is granted, if there is a descriptor for it. -/
def got (w : Calls) (n : ℕ) (mode : OpenMode) (t : Text) : Option Desc :=
  if w.grants n mode false then some (.opened t mode)
  else if t.head? ≠ some 47#8 ∧ endsInB t = true ∧ w.grants n mode true then
    some (.opened (47#8 :: t) mode)
  else none

lemma got_isSome (mode : OpenMode) : (got w n mode t).isSome ↔ Granted w n mode t := by
  unfold got Granted
  split_ifs with h1 h2
  · simp [h1]
  · simp [h2]
  · simp only [Option.isSome_none, Bool.false_eq_true, false_iff]
    rintro (h | h)
    · exact h1 h
    · exact h2 h

lemma got_opened {mode : OpenMode} {x : Desc} (h : got w n mode t = some x) :
    ∃ path, x = .opened path mode := by
  unfold got at h
  split_ifs at h
  · exact ⟨t, (Option.some.inj h).symm⟩
  · exact ⟨_, (Option.some.inj h).symm⟩

/-- `open`, for any table. -/
lemma openFile_eq (w : Calls) (n : ℕ) (mode : OpenMode) (t : Text) (fds : FdTable) :
    openFile w n mode t fds = match fdAlloc fds, got w n mode t with
      | some fd, some x => (some fd, Function.update fds fd (some x))
      | _, _ => (none, fds) := by
  unfold openFile openAP got
  rcases hfd : fdAlloc fds with _ | fd
  · split_ifs <;> simp [hfd]
  rcases h1 : w.grants n mode false with _ | _
  · rcases h2 : w.grants n mode true with _ | _ <;> by_cases hs : t.head? = some 47#8 <;>
      rcases hb : endsInB t with _ | _ <;> simp [hs, hfd]
  · by_cases hs : t.head? = some 47#8 <;> simp [hs]

/-- The descriptor that `fd_alloc` gives is neither 0 nor 1, and not in use. -/
lemma Parsing.fdAlloc_some (h : Parsing f fds) {fd : ℕ} (hfd : fdAlloc fds = some fd) :
    2 ≤ fd ∧ fds fd = none := by
  have hnone : fds fd = none := by
    have := List.find?_some hfd
    simpa using this
  refine ⟨?_, hnone⟩
  by_contra hlt
  interval_cases fd
  · exact h.stdin hnone
  · exact h.stdout hnone

/-- The redirections do not change what is in use. -/
lemma Parsing.fdAlloc_eq (h : Parsing f fds) : fdAlloc fds = fdAlloc f.table := by
  have hf := f.parsing
  have hnone : (fun d => (fds d).isNone) = fun d => (f.table d).isNone := by
    funext d
    by_cases hd : 2 ≤ d
    · rw [h.other d hd]
    · interval_cases d
      · rw [Option.isNone_eq_false_iff.mpr (Option.isSome_iff_ne_none.mpr h.stdin),
          Option.isNone_eq_false_iff.mpr (Option.isSome_iff_ne_none.mpr hf.stdin)]
      · rw [Option.isNone_eq_false_iff.mpr (Option.isSome_iff_ne_none.mpr h.stdout),
          Option.isNone_eq_false_iff.mpr (Option.isSome_iff_ne_none.mpr hf.stdout)]
  rw [fdAlloc, fdAlloc, hnone]

/-- `dup` onto 0 or 1 of a new descriptor, and its `close`. -/
lemma close_dup (h : Parsing f fds) {fd : ℕ} (hfd : fdAlloc fds = some fd) (hd : d < 2)
    (x : Desc) : close (some fd) (dup (some fd) d (Function.update fds fd (some x))) =
      Function.update fds d (some x) := by
  obtain ⟨hge, hnone⟩ := h.fdAlloc_some hfd
  have hne : fd ≠ d := by omega
  funext i
  unfold dup close
  simp only [Function.update_self, Option.isNone_some, Bool.false_eq_true, if_false,
    Function.update_of_ne hne]
  by_cases hi : i = fd
  · rw [hi, Function.update_self, Function.update_of_ne hne, hnone]
  · rw [Function.update_of_ne hi]
    by_cases hid : i = d
    · rw [hid, Function.update_self, Function.update_self]
    · rw [Function.update_of_ne hid, Function.update_of_ne hid, Function.update_of_ne hid,
        Function.update_of_ne hi]

/-- The table in which `d` refers to `x`, if there is such a thing and a descriptor for `open`. -/
def place (fds : FdTable) (d : ℕ) (x : Option Desc) (i : ℕ) : Option Desc :=
  if i = d ∧ fdAlloc fds ≠ none then x else none

lemma stdinFrom_apply (h : Parsing f fds) (w : Calls) (n : ℕ) (t : Text) (i : ℕ) :
    stdinFrom w n t fds i = (place f.table 0 (got w n .rdonly t) i).or (fds i) := by
  unfold stdinFrom place
  rw [openFile_eq, ← h.fdAlloc_eq]
  rcases hfd : fdAlloc fds with _ | fd
  · simp [dup, close]
  rcases hg : got w n .rdonly t with _ | x
  · simp [dup, close]
  · simp only [close_dup h hfd (by decide : 0 < 2)]
    by_cases hi : i = 0
    · simp [hi]
    · simp [hi]

/-- `>` opens the file for writing, or creates it, and moves it to descriptor 1. -/
lemma stdoutTo_apply (h : Parsing f fds) (w : Calls) (n : ℕ) (t : Text) (i : ℕ) :
    stdoutTo w n t fds i =
      (place f.table 1 ((got w n .wronly t).or (got w n .creatWronly t)) i).or (fds i) := by
  unfold stdoutTo place
  simp only [openFile_eq]
  rw [← h.fdAlloc_eq]
  rcases hfd : fdAlloc fds with _ | fd
  · simp [dup, close, hfd]
  rcases hg : got w n .wronly t with _ | x
  · rcases hg' : got w n .creatWronly t with _ | y
    · simp [dup, close, hfd]
    · simp only [hfd, Option.isNone_none, if_true, close_dup h hfd (by decide : 1 < 2)]
      by_cases hi : i = 1
      · simp [hi]
      · simp [hi]
  · simp only [Option.isNone_some, Bool.false_eq_true, if_false,
      close_dup h hfd (by decide : 1 < 2)]
    by_cases hi : i = 1
    · simp [hi]
    · simp [hi]

/-! ## The redirections of a command -/

/-- What the redirections of the parts make of a descriptor, if they change it. -/
def assigned (w : Calls) (fds : FdTable) (i : ℕ) : ℕ → List Item → Option Desc
  | _, [] => none
  | n, .word _ :: items => assigned w fds i n items
  | n, .input t :: items =>
    (assigned w fds i (n + 1) items).or (place fds 0 (got w n .rdonly t) i)
  | n, .output t :: items =>
    (assigned w fds i (n + 1) items).or
      (place fds 1 ((got w n .wronly t).or (got w n .creatWronly t)) i)

/-- A redirection leaves 0 and 1 in use and changes nothing else. -/
lemma Parsing.place (h : Parsing f fds) {fds' : FdTable} (hd : d < 2) {x : Option Desc}
    (hfds' : ∀ i, fds' i = (place f.table d x i).or (fds i)) : Parsing f fds' := by
  have hor : ∀ i, fds i ≠ none → fds' i ≠ none := by
    intro i hi
    rw [hfds']
    simp [hi]
  refine ⟨hor 0 h.stdin, hor 1 h.stdout, fun i hi => ?_⟩
  rw [hfds', MosVolca.place, if_neg (by omega)]
  exact h.other i hi

/-- **The descriptors after the redirections of a command.** -/
lemma redirect_apply (h : Parsing f fds) (w : Calls) (n : ℕ) (items : List Item) (i : ℕ) :
    redirect w n items fds i = (assigned w f.table i n items).or (fds i) := by
  induction items generalizing n fds with
  | nil => rfl
  | cons item items ih =>
    cases item with
    | word t => exact ih h n
    | input t =>
      have happly := stdinFrom_apply h w n t
      rw [redirect, ih (h.place (by decide) happly) (n + 1), happly, assigned, Option.or_assoc]
    | output t =>
      have happly := stdoutTo_apply h w n t
      rw [redirect, ih (h.place (by decide) happly) (n + 1), happly, assigned, Option.or_assoc]

lemma Parsing.redirect (h : Parsing f fds) (w : Calls) (n : ℕ) (items : List Item) :
    Parsing f (redirect w n items fds) := by
  induction items generalizing n fds with
  | nil => exact h
  | cons item items ih =>
    cases item with
    | word t => exact ih h n
    | input t => exact ih (h.place (by decide) (stdinFrom_apply h w n t)) (n + 1)
    | output t => exact ih (h.place (by decide) (stdoutTo_apply h w n t)) (n + 1)

lemma place_isSome {x : Option Desc} {j : ℕ} :
    (place fds d x j).isSome ↔ j = d ∧ fdAlloc fds ≠ none ∧ x.isSome := by
  unfold place
  split_ifs with hc
  · simp [hc.1, hc.2]
  · simp only [Option.isSome_none, Bool.false_eq_true, false_iff]
    rintro ⟨hj, hfd, -⟩
    exact hc ⟨hj, hfd⟩

/-- A descriptor is changed if one of the parts redirects it. -/
lemma assigned_isSome (w : Calls) (fds : FdTable) (i n : ℕ) (items : List Item) :
    (assigned w fds i n items).isSome ↔ Redirects w fds i n items := by
  induction items generalizing n with
  | nil => simp [assigned, Redirects]
  | cons item items ih =>
    cases item with
    | word t => exact ih n
    | input t =>
      rw [assigned, Option.isSome_or, Bool.or_eq_true, ih, place_isSome, got_isSome, Redirects]
      exact or_comm
    | output t =>
      rw [assigned, Option.isSome_or, Bool.or_eq_true, ih, place_isSome, Option.isSome_or,
        Bool.or_eq_true, got_isSome, got_isSome, Redirects]
      exact or_comm

/-- It refers to a file that has been opened. -/
lemma assigned_opened {i : ℕ} {x : Desc} (h : assigned w fds i n items = some x) :
    ∃ path mode, x = .opened path mode := by
  have hplace : ∀ {d y}, place fds d y i = some x → y = some x := by
    intro d y hy
    unfold place at hy
    split_ifs at hy
    exact hy
  induction items generalizing n with
  | nil => cases h
  | cons item items ih =>
    cases item with
    | word t => exact ih h
    | input t =>
      rcases Option.or_eq_some_iff.mp h with h | ⟨-, h⟩
      · exact ih h
      · obtain ⟨path, hx⟩ := got_opened (hplace h)
        exact ⟨path, _, hx⟩
    | output t =>
      rcases Option.or_eq_some_iff.mp h with h | ⟨-, h⟩
      · exact ih h
      · rcases Option.or_eq_some_iff.mp (hplace h) with h | ⟨-, h⟩
        · obtain ⟨path, hx⟩ := got_opened h
          exact ⟨path, _, hx⟩
        · obtain ⟨path, hx⟩ := got_opened h
          exact ⟨path, _, hx⟩

/-! ## Parsing -/

/-- **`parsecmd` on a simple command**: the words go to `argv`, the redirections change the
descriptors of the environment that parses. -/
lemma parsecmd_items (w : Calls) (n : ℕ) (fds : FdTable) (argv : List Arg) (items : List Item)
    (rest : List Token) (hargv : argv.length ≤ maxArgs) :
    parsecmd w n fds argv (items.flatMap Item.tokens ++ rest) =
      if argv.length + (items.filterMap Item.word?).length ≤ maxArgs then
        parsecmd w (n + redirections items) (redirect w n items fds)
          (argv ++ (items.filterMap Item.word?).map .word) rest
      else [] := by
  induction items generalizing n fds argv with
  | nil => simp [redirections, redirect, hargv]
  | cons item items ih =>
    cases item with
    | word t =>
      have hwords : (Item.word t :: items).filterMap Item.word? =
          t :: items.filterMap Item.word? := rfl
      have hcalls : redirections (Item.word t :: items) = redirections items := rfl
      change parsecmd w n fds argv (.word t :: (items.flatMap Item.tokens ++ rest)) = _
      rw [parsecmd, hwords, hcalls, List.length_cons, redirect]
      by_cases hfull : argv.length ≥ maxArgs
      · rw [if_pos hfull, if_neg (by omega)]
      · rw [if_neg hfull, ih n fds _ (by rw [List.length_append, List.length_singleton]; omega),
          List.length_append, List.length_singleton, List.map_cons, List.append_assoc,
          List.singleton_append, Nat.add_assoc, Nat.add_comm 1]
    | input t =>
      have hcalls : redirections (Item.input t :: items) = redirections items + 1 := rfl
      change parsecmd w n fds argv (.less :: .word t :: (items.flatMap Item.tokens ++ rest)) = _
      rw [parsecmd, ih (n + 1) _ argv hargv, hcalls, redirect, Nat.add_assoc, Nat.add_comm 1]
      rfl
    | output t =>
      have hcalls : redirections (Item.output t :: items) = redirections items + 1 := rfl
      change parsecmd w n fds argv (.greater :: .word t :: (items.flatMap Item.tokens ++ rest)) = _
      rw [parsecmd, ih (n + 1) _ argv hargv, hcalls, redirect, Nat.add_assoc, Nat.add_comm 1]
      rfl

/-- What runs of a line. -/
def runs (w : Calls) (n : ℕ) (fds : FdTable) (line : List Token) : List Run :=
  (parsecmd w n fds [] line).filterMap Parsed.run

/-- What runs of a simple command that is parsed with the descriptors `fds`. -/
def Simple.runs (c : Simple) (w : Calls) (n : ℕ) (fds : FdTable) : Run :=
  if c.words.length < maxArgs then c.alone w n fds else .overrun

lemma Simple.run_eq (c : Simple) (w : Calls) (n : ℕ) (fds : FdTable) :
    Parsed.run ⟨c.words.map .word, redirect w n c.items fds, false⟩ = some (c.runs w n fds) := by
  have hne : c.words.map Arg.word ≠ [] := fun h => c.named (List.map_eq_nil_iff.mp h)
  unfold Parsed.run Simple.runs
  rw [if_neg hne, List.length_map]
  by_cases hlen : c.words.length < maxArgs
  · rw [if_neg (Nat.not_le.mpr hlen), if_pos hlen]
    rfl
  · rw [if_pos (Nat.not_lt.mp hlen), if_neg hlen]

lemma parsecmd_simple (c : Simple) (w : Calls) (n : ℕ) (fds : FdTable) (rest : List Token) :
    parsecmd w n fds [] (c.tokens ++ rest) =
      if c.words.length ≤ maxArgs then
        parsecmd w (n + redirections c.items) (redirect w n c.items fds) (c.words.map .word) rest
      else [] := by
  have h := parsecmd_items w n fds [] c.items rest (Nat.zero_le _)
  rwa [List.length_nil, Nat.zero_add, List.nil_append] at h

lemma runs_last (c : Simple) (w : Calls) (n : ℕ) (fds : FdTable) :
    runs w n fds (CmdLine.last c).tokens =
      if c.words.length ≤ maxArgs then [c.runs w n fds] else [] := by
  have h := parsecmd_simple c w n fds []
  rw [List.append_nil] at h
  unfold runs
  rw [CmdLine.tokens, h]
  split_ifs with hlen
  · rw [parsecmd, List.filterMap_cons_some (c.run_eq w n fds), List.filterMap_nil]
  · rfl

/-- What runs of a line that begins with a simple command. -/
lemma runs_join (c : Simple) (s : Sep) (rest : CmdLine) (w : Calls) (n : ℕ) (fds : FdTable) :
    runs w n fds (CmdLine.join c s rest).tokens =
      if c.words.length ≤ maxArgs then
        if w.fork (n + redirections c.items) then
          c.runs w n fds :: runs w (n + redirections c.items + 1) (redirect w n c.items fds)
            rest.tokens
        else match s with
          | .semi => [c.runs w n fds]
          | .amp => runs w (n + redirections c.items + 1) (redirect w n c.items fds) rest.tokens
      else [] := by
  unfold runs
  rw [CmdLine.tokens, parsecmd_simple]
  split_ifs with hlen hfork
  · cases s with
    | semi => rw [Sep.token, parsecmd, if_pos hfork, List.filterMap_cons_some (c.run_eq w n fds)]
    | amp => rw [Sep.token, parsecmd, if_pos hfork, List.filterMap_cons_some (c.run_eq w n fds)]
  · cases s with
    | semi =>
      rw [Sep.token, parsecmd, if_neg hfork, List.filterMap_cons_some (c.run_eq w n fds),
        List.filterMap_nil]
    | amp => rw [Sep.token, parsecmd, if_neg hfork]
  · rfl

/-- No more runs than what should. -/
lemma length_runs_le (w : Calls) (n m : ℕ) (fds fds' : FdTable) (l : CmdLine) :
    (runs w n fds l.tokens).length ≤ (l.expected w fds' m).length := by
  induction l generalizing n m fds with
  | nil => exact Nat.le_refl 0
  | last c =>
    rw [runs_last]
    split_ifs
    · exact Nat.le_refl 1
    · exact Nat.zero_le _
  | join c s rest ih =>
    have h := ih (n + redirections c.items + 1) (m + redirections c.items + 1)
      (redirect w n c.items fds)
    rw [runs_join, CmdLine.expected, List.length_cons]
    split_ifs
    · exact Nat.succ_le_succ h
    · cases s with
      | semi => exact Nat.succ_le_succ (Nat.zero_le _)
      | amp => exact h.trans (Nat.le_succ _)
    · exact Nat.zero_le _

/-! ## Lines -/

variable {R : ℕ → Prop} {c : Simple}

/-- When a simple command runs as it should, after commands that have redirected `R`. -/
lemma runs_eq_alone_iff (h : Parsing f fds) (hR : ∀ d, fds d ≠ f.table d ↔ R d) (c : Simple)
    (w : Calls) (n : ℕ) : c.runs w n fds = c.alone w n f.table ↔
      c.words.length < maxArgs ∧ ∀ d, R d → Redirects w f.table d n c.items := by
  by_cases hlen : c.words.length < maxArgs
  swap
  · unfold Simple.runs Simple.alone
    rw [if_neg hlen]
    exact iff_of_false (by simp) fun hc => hlen hc.1
  have htable : redirect w n c.items fds = redirect w n c.items f.table ↔
      ∀ d, R d → Redirects w f.table d n c.items := by
    rw [funext_iff]
    refine forall_congr' fun d => ?_
    rw [redirect_apply h, redirect_apply f.parsing, ← assigned_isSome, ← hR d]
    rcases assigned w f.table d n c.items with _ | x
    · simp
    · simp
  unfold Simple.runs Simple.alone
  rw [if_pos hlen, Run.spawn.injEq, htable]
  simp [hlen]

/-- A command that redirects all that has been redirected leaves its own redirections. -/
lemma redirected_next (h : Parsing f fds) (hR : ∀ d, fds d ≠ f.table d ↔ R d)
    (hc : ∀ d, R d → Redirects w f.table d n items) :
    ∀ d, redirect w n items fds d ≠ f.table d ↔ Redirects w f.table d n items := by
  intro d
  rw [redirect_apply h, ← assigned_isSome]
  rcases ha : assigned w f.table d n items with _ | x
  · have hfds : fds d = f.table d := by
      by_contra hne
      have := (assigned_isSome w f.table d n items).mpr (hc d ((hR d).mp hne))
      rw [ha] at this
      exact absurd this (by simp)
    simp [hfds]
  · obtain ⟨path, mode, rfl⟩ := assigned_opened ha
    have hne : some (Desc.opened path mode) ≠ f.table d := by
      unfold ShellFds.table
      split_ifs <;> simp
    simpa using hne

/-- **When the commands of a line run as they should**, after commands that have redirected
`R`. -/
lemma runs_isolated_iff (h : Parsing f fds) (hR : ∀ d, fds d ≠ f.table d ↔ R d) (w : Calls)
    (n : ℕ) (l : CmdLine) :
    runs w n fds l.tokens = l.expected w f.table n ↔ Isolating w f.table R n l := by
  induction l generalizing n fds R with
  | nil => exact iff_of_true rfl trivial
  | last c =>
    rw [runs_last, CmdLine.expected, Isolating]
    by_cases hlen : c.words.length ≤ maxArgs
    · rw [if_pos hlen, List.cons_eq_cons, and_iff_left rfl, runs_eq_alone_iff h hR]
    · rw [if_neg hlen]
      exact iff_of_false (by simp) fun hc => hlen hc.1.le
  | join c s rest ih =>
    rw [runs_join, CmdLine.expected, Isolating, ← runs_eq_alone_iff h hR]
    by_cases hlen : c.words.length ≤ maxArgs
    swap
    · rw [if_neg hlen]
      exact iff_of_false (by simp) fun hc =>
        hlen ((runs_eq_alone_iff h hR c w n).mp hc.1).1.le
    rw [if_pos hlen]
    -- the first command is the first of what runs, unless its own fork fails
    by_cases hfork : w.fork (n + redirections c.items) = true
    · rw [if_pos hfork, List.cons_eq_cons]
      refine and_congr_right fun hc => ?_
      obtain ⟨-, hc⟩ := (runs_eq_alone_iff h hR c w n).mp hc
      rw [ih (h.redirect w n c.items) (redirected_next h hR hc)]
      exact (and_iff_right (Or.inl hfork)).symm
    rw [if_neg hfork]
    cases s with
    | semi =>
      rw [List.cons_eq_cons]
      refine and_congr_right fun _ => ?_
      cases rest with
      | nil => exact iff_of_true rfl ⟨Or.inr ⟨rfl, rfl⟩, trivial⟩
      | last c' =>
        refine iff_of_false (by simp [CmdLine.expected]) ?_
        rintro ⟨hf | ⟨-, hnil⟩, -⟩
        · exact hfork hf
        · cases hnil
      | join c' s' rest' =>
        refine iff_of_false (by simp [CmdLine.expected]) ?_
        rintro ⟨hf | ⟨-, hnil⟩, -⟩
        · exact hfork hf
        · cases hnil
    | amp =>
      refine iff_of_false (fun heq => ?_) ?_
      · have hle := length_runs_le w (n + redirections c.items + 1)
          (n + redirections c.items + 1) (redirect w n c.items fds) f.table rest
        have hlength : (runs w (n + redirections c.items + 1) (redirect w n c.items fds)
            rest.tokens).length = _ := congrArg List.length heq
        rw [List.length_cons] at hlength
        omega
      · rintro ⟨-, hf | ⟨hs, -⟩, -⟩
        · exact hfork hf
        · cases hs

/-- **Redirections and commands.** For every command line of simple commands joined by `;` and `&`,
whatever the calls of the shell give: every simple command is spawned, once, with its own words and
with the shell's descriptors changed only by its own redirections, if and only if each command has
at most 127 words and redirects every descriptor that a command before it has redirected, and the
forks whose children are to run a command succeed. -/
theorem runcmd_isolated_iff (w : Calls) (f : ShellFds) (l : CmdLine) :
    runcmd w f.table l.tokens = l.expected w f.table 0 ↔
      Isolating w f.table (fun _ => False) 0 l :=
  runs_isolated_iff f.parsing (fun _ => by simp) w 0 l

/-- Every call gives what it is asked for. -/
def Calls.willing : Calls where
  grants := fun _ _ _ => true
  fork := fun _ => true
  pipe := fun _ => true
  stale := fun _ => (none, none)
  var := fun _ => true

/-- `a > f ; b`. -/
def leakyLine : CmdLine :=
  .join ⟨[.word [97#8], .output [102#8]], by simp [Item.word?]⟩ .semi
    (.last ⟨[.word [98#8]], by simp [Item.word?]⟩)

/-- The standard output of `b` is the file that `a` is redirected to. -/
theorem not_runcmd_isolated : ¬ ∀ (w : Calls) (f : ShellFds) (l : CmdLine),
    runcmd w f.table l.tokens = l.expected w f.table 0 := by
  intro h
  have hrun := h .willing ⟨fun d => decide (d < 2), rfl, rfl⟩ leakyLine
  obtain ⟨-, -, -, hR⟩ := (runs_isolated_iff (ShellFds.parsing _)
    (R := fun _ => False) (fun _ => by simp) _ 0 _).mp hrun
  have hfree : fdAlloc (ShellFds.table ⟨fun d => decide (d < 2), rfl, rfl⟩) = some 2 := rfl
  exact hR 1 (Or.inl ⟨rfl, by rw [hfree]; exact Option.some_ne_none 2, Or.inl (Or.inl rfl)⟩)

end MosVolca
