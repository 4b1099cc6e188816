import Xv6.Param
import Xv6.Shell.Words

/-!
# Running commands

`runcmd` of `user/sh.c`.  It makes system calls, among them `fork`, so its meaning is the
lives of the processes that come out of it.  A life records the descriptors of the process
after each call.

A pipe is known by the node of the command that made it: a node is run by one process, once.
`fork1`, and the search for a file by `open`, are taken to succeed.  A call can still fail
because no descriptor is free.
-/

namespace Xv6.Shell

/-! ## Descriptors -/

/-- From a node of a command to one below it. -/
inductive Dir where
  | inner
  | left
  | right
  deriving DecidableEq

/-- A node of a command, from the root. -/
abbrev Path := List Dir

/-- What a descriptor refers to: something that was open before, a file that `open` found, or
an end of the pipe of a node. -/
inductive Obj (σ : Type) where
  | inherited (n : Nat)
  | file (name : σ) (mode : Nat)
  | rd (node : Path)
  | wr (node : Path)

abbrev Table (σ : Type) := Nat → Option (Obj σ)

section Calls

variable {σ : Type}

/-- The lowest free descriptor. -/
def fdalloc (t : Table σ) : Option Nat := (List.range NOFILE).find? fun fd => (t fd).isNone

/-- `fdalloc` and what refers to it then. -/
def install (o : Obj σ) (t : Table σ) : Option (Nat × Table σ) :=
  (fdalloc t).map fun fd => (fd, Function.update t fd (some o))

def close (fd : Nat) (t : Table σ) : Table σ := Function.update t fd none

/-- `dup`, where the caller does not look at the result. -/
def dup (fd : Nat) (t : Table σ) : Table σ :=
  match t fd with
  | none => t
  | some o => ((install o t).map Prod.snd).getD t

def pipe (node : Path) (t : Table σ) : Option (Nat × Nat × Table σ) := do
  let (p0, t) ← install (.rd node) t
  let (p1, t) ← install (.wr node) t
  return (p0, p1, t)

end Calls

/-! ## `runcmd` -/

/-- The life of a process from a call of `runcmd` on. -/
inductive Life (σ : Type) where
  /-- A call that leaves the descriptors `t`. -/
  | call (t : Table σ) (next : Life σ)
  | fork (t : Table σ) (child next : Life σ)
  | wait (t : Table σ) (next : Life σ)
  /-- The case `EXEC`, at a node. -/
  | exec (node : Path) (t : Table σ) (argv : List σ)
  | exit (t : Table σ)
  /-- `open` or `pipe` failed. -/
  | failed (t : Table σ)

variable {σ : Type} {cmd : Cmd σ} {t : Table σ} {fd : Nat} {o : Obj σ} {ts : List Token}
  {rs : List Redir} {line : Text}

/-- Calls in a row. -/
def calls : List (Table σ → Table σ) → (Table σ → Life σ) → Table σ → Life σ
  | [], k, t => k t
  | f :: fs, k, t => .call (f t) (calls fs k (f t))

def runcmd : Cmd σ → Path → Table σ → Life σ
  | .exec argv, node, t => .exec node t argv
  | .redir cmd file mode fd, node, t =>
      .call (close fd t) <|
        match install (.file file mode) (close fd t) with
        | none => .failed (close fd t)
        | some (_, t) => .call t (runcmd cmd (node ++ [.inner]) t)
  | .list left right, node, t =>
      .fork t (runcmd left (node ++ [.left]) t) <|
        .wait t (runcmd right (node ++ [.right]) t)
  | .pipe left right, node, t =>
      match pipe node t with
      | none => .failed t
      | some (p0, p1, t) =>
          .call t <|
          .fork t (calls [close 1, dup p1, close p0, close p1] (runcmd left (node ++ [.left])) t) <|
          .fork t (calls [close 0, dup p0, close p0, close p1] (runcmd right (node ++ [.right])) t) <|
          calls [close p0, close p1] (fun t => .wait t (.wait t (.exit t))) t
  | .back cmd, node, t => .fork t (runcmd cmd (node ++ [.inner]) t) (.exit t)

/-! ## What the processes do -/

/-- A process in the case `EXEC`. -/
structure Leaf (σ : Type) where
  node : Path
  table : Table σ
  argv : List σ

namespace Life

/-- The processes that reach `EXEC`. -/
def leaves : Life σ → List (Leaf σ)
  | .call _ next | .wait _ next => next.leaves
  | .fork _ child next => child.leaves ++ next.leaves
  | .exec node t argv => [⟨node, t, argv⟩]
  | .exit _ | .failed _ => []

/-- No call fails. -/
def Works : Life σ → Prop
  | .call _ next | .wait _ next => next.Works
  | .fork _ child next => child.Works ∧ next.Works
  | .exec .. | .exit _ => True
  | .failed _ => False

/-- The descriptors of the process and of its descendants, at all times. -/
def tables : Life σ → List (Table σ)
  | .call t next | .wait t next => t :: next.tables
  | .fork t child next => t :: (child.tables ++ next.tables)
  | .exec _ t _ | .exit t | .failed t => [t]

/-- The descriptors of processes in `wait`, each with the lives of the children that the
process has made. -/
def waits (children : List (Life σ)) : Life σ → List (Table σ × List (Life σ))
  | .call _ next => next.waits children
  | .fork _ child next => child.waits [] ++ next.waits (child :: children)
  | .wait t next => (t, children) :: next.waits children
  | .exec .. | .exit _ | .failed _ => []

end Life

/-- The descriptors 0, 1 and 2 are open, and no others. -/
def Standard (t : Table σ) : Prop := ∀ fd, (t fd).isSome ↔ fd < 3

/-- What the leaves of a command should have, without the calls: a redirection replaces its
descriptor, a pipe replaces 1 on its left and 0 on its right, and everything else is
inherited. -/
def wires : Cmd σ → Path → Table σ → List (Leaf σ)
  | .exec argv, node, t => [⟨node, t, argv⟩]
  | .redir cmd file mode fd, node, t =>
      wires cmd (node ++ [.inner]) (Function.update t fd (some (.file file mode)))
  | .pipe left right, node, t =>
      wires left (node ++ [.left]) (Function.update t 1 (some (.wr node))) ++
        wires right (node ++ [.right]) (Function.update t 0 (some (.rd node)))
  | .list left right, node, t => wires left (node ++ [.left]) t ++ wires right (node ++ [.right]) t
  | .back cmd, node, t => wires cmd (node ++ [.inner]) t

/-! ## The calls with the standard descriptors open -/

section Standard

variable {t : Table σ} {o : Obj σ} {fd : Nat}

theorem fdalloc_eq (hfree : t fd = none) (hlow : ∀ i < fd, t i ≠ none) (hfd : fd < NOFILE) :
    fdalloc t = some fd := by
  unfold fdalloc
  rw [List.find?_range_eq_some]
  refine ⟨by rw [hfree]; rfl, List.mem_range.mpr hfd, fun i hi => ?_⟩
  simpa [Option.isSome_iff_ne_none] using hlow i hi

theorem install_eq (hfree : t fd = none) (hlow : ∀ i < fd, t i ≠ none) (hfd : fd < NOFILE) :
    install o t = some (fd, Function.update t fd (some o)) := by
  rw [install, fdalloc_eq hfree hlow hfd]
  rfl

namespace Standard

variable (h : Standard t)
include h

theorem isSome_iff : t fd ≠ none ↔ fd < 3 := by
  rw [← h fd, Option.isSome_iff_ne_none]

theorem eq_none (hfd : 3 ≤ fd) : t fd = none := by
  by_contra hne
  have := h.isSome_iff.mp hne
  omega

theorem update (hfd : fd < 3) (o : Obj σ) : Standard (Function.update t fd (some o)) := by
  intro i
  by_cases hi : i = fd
  · subst hi
    simpa using hfd
  · rw [Function.update_of_ne hi]
    exact h i

/-- The descriptor that is closed is the one that comes next. -/
theorem install_close (hfd : fd < 3) :
    install o (close fd t) = some (fd, Function.update t fd (some o)) := by
  have hlow : ∀ i < fd, close fd t i ≠ none := by
    intro i hi
    rw [close, Function.update_of_ne (Nat.ne_of_lt hi)]
    exact h.isSome_iff.mpr (hi.trans hfd)
  have hfree : close fd t fd = none := Function.update_self ..
  rw [install_eq hfree hlow (hfd.trans (by decide)), close, Function.update_idem]

end Standard

/-- The descriptors with both ends of a pipe. -/
def piped (node : Path) (t : Table σ) : Table σ :=
  Function.update (Function.update t 3 (some (.rd node))) 4 (some (.wr node))

theorem piped_of_lt {node : Path} (hfd : fd < 3) : piped node t fd = t fd := by
  unfold piped
  rw [Function.update_of_ne (by omega), Function.update_of_ne (by omega)]

namespace Standard

variable {node : Path} (h : Standard t)
include h

theorem pipe_eq (node : Path) : pipe node t = some (3, 4, piped node t) := by
  have hlow : ∀ i < 3, t i ≠ none := fun i => h.isSome_iff.mpr
  have hlow' : ∀ i < 4, Function.update t 3 (some (.rd node)) i ≠ none := by
    intro i hi
    by_cases hi3 : i = 3
    · rw [hi3, Function.update_self]
      exact Option.some_ne_none _
    · rw [Function.update_of_ne hi3]
      exact hlow i (by omega)
  have hfree : Function.update t 3 (some (.rd node)) 4 = none := by
    rw [Function.update_of_ne (by decide)]
    exact h.eq_none (by decide)
  unfold pipe
  rw [install_eq (h.eq_none (Nat.le_refl 3)) hlow (by decide)]
  show (install _ _).bind _ = _
  rw [install_eq hfree hlow' (by decide)]
  rfl

/-- An end of the pipe moves to a standard descriptor, and the two others are closed. -/
theorem plumb {k : Nat} (hfd : fd < 3) (hk : 3 ≤ k) (ho : piped node t k = some o) :
    close 4 (close 3 (dup k (close fd (piped node t)))) = Function.update t fd (some o) := by
  have hdup : dup k (close fd (piped node t)) = Function.update (piped node t) fd (some o) := by
    have hk' : close fd (piped node t) k = some o := by
      rw [close, Function.update_of_ne (by omega), ho]
    have hfree : close fd (piped node t) fd = none := Function.update_self ..
    have hlow : ∀ i < fd, close fd (piped node t) i ≠ none := by
      intro i hi
      rw [close, Function.update_of_ne (Nat.ne_of_lt hi), piped_of_lt (hi.trans hfd)]
      exact h.isSome_iff.mpr (hi.trans hfd)
    simp only [dup, hk']
    rw [install_eq hfree hlow (hfd.trans (by decide)), close, Function.update_idem]
    rfl
  rw [hdup]
  funext i
  simp only [close, piped, Function.update_apply]
  have h3 := h.eq_none (Nat.le_refl 3)
  have h4 := h.eq_none (show 3 ≤ 4 by decide)
  grind

theorem close_piped : close 4 (close 3 (piped node t)) = t := by
  funext i
  simp only [close, piped, Function.update_apply]
  have h3 := h.eq_none (Nat.le_refl 3)
  have h4 := h.eq_none (show 3 ≤ 4 by decide)
  grind

end Standard

end Standard

/-! ## The leaves -/

theorem leaves_calls (fs : List (Table σ → Table σ)) (k : Table σ → Life σ) (t : Table σ) :
    (calls fs k t).leaves = (k (fs.foldl (fun t f => f t) t)).leaves := by
  induction fs generalizing t with
  | nil => rfl
  | cons f fs ih => exact ih (f t)

theorem works_calls (fs : List (Table σ → Table σ)) (k : Table σ → Life σ) (t : Table σ) :
    (calls fs k t).Works ↔ (k (fs.foldl (fun t f => f t) t)).Works := by
  induction fs generalizing t with
  | nil => rfl
  | cons f fs ih => exact ih (f t)

/-- The redirections of a command are of standard descriptors. -/
def Cmd.Fds : Cmd σ → Prop
  | .exec _ => True
  | .redir cmd _ _ fd => fd < 3 ∧ cmd.Fds
  | .pipe left right | .list left right => left.Fds ∧ right.Fds
  | .back cmd => cmd.Fds

theorem runcmd_leaves (hc : cmd.Fds) (node : Path) (h : Standard t) :
    (runcmd cmd node t).leaves = wires cmd node t ∧ (runcmd cmd node t).Works := by
  induction cmd generalizing node t with
  | exec argv => exact ⟨rfl, trivial⟩
  | redir cmd file mode fd ih =>
      obtain ⟨hfd, hc⟩ := hc
      unfold runcmd
      rw [h.install_close hfd]
      exact ih hc _ (h.update hfd _)
  | pipe left right ihl ihr =>
      have hl := ihl hc.1 (node ++ [.left]) (h.update (show 1 < 3 by decide) (.wr node))
      have hr := ihr hc.2 (node ++ [.right]) (h.update (show 0 < 3 by decide) (.rd node))
      unfold runcmd
      rw [h.pipe_eq]
      simp only [Life.leaves, Life.Works, leaves_calls, works_calls, List.foldl_cons,
        List.foldl_nil, wires]
      rw [h.plumb (by decide) (by decide) (Function.update_self ..),
        h.plumb (by decide) (by decide) (o := .rd node) rfl]
      refine ⟨?_, hl.2, hr.2, trivial⟩
      rw [hl.1, hr.1, List.append_nil]
  | list left right ihl ihr =>
      have hl := ihl hc.1 (node ++ [.left]) h
      have hr := ihr hc.2 (node ++ [.right]) h
      refine ⟨?_, hl.2, hr.2⟩
      show _ ++ _ = wires left _ t ++ wires right _ t
      rw [hl.1]
      exact congrArg _ hr.1
  | back cmd ih =>
      have hc := ih hc (node ++ [.inner]) h
      exact ⟨(List.append_nil _).trans hc.1, hc.2, trivial⟩

theorem wires_standard (hc : cmd.Fds) (node : Path) (h : Standard t) :
    ∀ l ∈ wires cmd node t, Standard l.table := by
  induction cmd generalizing node t with
  | exec argv =>
      intro l hl
      rw [List.mem_singleton.mp hl]
      exact h
  | redir cmd file mode fd ih => exact ih hc.2 _ (h.update hc.1 _)
  | pipe left right ihl ihr =>
      intro l hl
      rcases List.mem_append.mp hl with hl | hl
      · exact ihl hc.1 _ (h.update (by decide) _) l hl
      · exact ihr hc.2 _ (h.update (by decide) _) l hl
  | list left right ihl ihr =>
      intro l hl
      rcases List.mem_append.mp hl with hl | hl
      · exact ihl hc.1 _ h l hl
      · exact ihr hc.2 _ h l hl
  | back cmd ih => exact ih hc _ h

/-! ## What a process can hold -/

def Holds (t : Table σ) (o : Obj σ) : Prop := ∃ fd, t fd = some o

/-- A call that gives no process something new. -/
def Keeps (f : Table σ → Table σ) : Prop := ∀ t o, Holds (f t) o → Holds t o

theorem holds_update {v : Option (Obj σ)} (h : Holds (Function.update t fd v) o) :
    v = some o ∨ Holds t o := by
  obtain ⟨i, hi⟩ := h
  by_cases hif : i = fd
  · rw [hif, Function.update_self] at hi
    exact .inl hi
  · rw [Function.update_of_ne hif] at hi
    exact .inr ⟨i, hi⟩

theorem holds_install {t' : Table σ} {o' : Obj σ} (h : install o t = some (fd, t'))
    (ho : Holds t' o') : o' = o ∨ Holds t o' := by
  unfold install at h
  cases hfd : fdalloc t with
  | none =>
      rw [hfd] at h
      cases h
  | some i =>
      rw [hfd] at h
      cases h
      exact (holds_update ho).imp_left fun h => (Option.some.inj h).symm

theorem keeps_close (fd : Nat) : Keeps (σ := σ) (close fd) := fun _ _ h =>
  (holds_update h).resolve_left (Option.some_ne_none _).symm

theorem keeps_dup (fd : Nat) : Keeps (σ := σ) (dup fd) := by
  intro t o h
  unfold dup at h
  cases hfd : t fd with
  | none =>
      rw [hfd] at h
      exact h
  | some o' =>
      simp only [hfd] at h
      cases hi : install o' t with
      | none =>
          rw [hi] at h
          exact h
      | some r =>
          rw [hi] at h
          rcases holds_install hi h with rfl | h
          · exact ⟨fd, hfd⟩
          · exact h

theorem keeps_plumbing (fd k p0 p1 : Nat) :
    ∀ f ∈ [close (σ := σ) fd, dup k, close p0, close p1], Keeps f := by
  intro f hf
  simp only [List.mem_cons, List.not_mem_nil, or_false] at hf
  rcases hf with rfl | rfl | rfl | rfl
  · exact keeps_close fd
  · exact keeps_dup k
  · exact keeps_close p0
  · exact keeps_close p1

/-- All that the process and its descendants ever hold has the property. -/
def Life.Only (P : Obj σ → Prop) (l : Life σ) : Prop := ∀ t ∈ l.tables, ∀ o, Holds t o → P o

section Only

variable {P : Obj σ → Prop} {t : Table σ} {l : Life σ}

theorem only_cons {ts : List (Table σ)} (ht : ∀ o, Holds t o → P o)
    (hts : ∀ t ∈ ts, ∀ o, Holds t o → P o) (hl : l.tables = t :: ts) : l.Only P := by
  intro t' ht'
  rw [hl] at ht'
  rcases List.mem_cons.mp ht' with rfl | ht'
  · exact ht
  · exact hts t' ht'

theorem only_fork {child next : Life σ} (ht : ∀ o, Holds t o → P o) (hc : child.Only P)
    (hn : next.Only P) : (Life.fork t child next).Only P :=
  only_cons ht (fun t' ht' => (List.mem_append.mp ht').elim (hc t') (hn t')) rfl

theorem only_calls {fs : List (Table σ → Table σ)} {k : Table σ → Life σ}
    (hk : ∀ t, (∀ o, Holds t o → P o) → (k t).Only P) (hf : ∀ f ∈ fs, Keeps f) :
    ∀ {t : Table σ}, (∀ o, Holds t o → P o) → (calls fs k t).Only P := by
  induction fs with
  | nil => exact fun ht => hk _ ht
  | cons f fs ih =>
      intro t ht
      have hft : ∀ o, Holds (f t) o → P o := fun o ho => ht o (hf f List.mem_cons_self t o ho)
      exact only_cons hft (ih (fun g hg => hf g (List.mem_cons_of_mem _ hg)) hft) rfl

theorem only_single (ht : ∀ o, Holds t o → P o) (hl : l.tables = [t]) : l.Only P := by
  intro t' ht'
  rw [hl] at ht'
  rw [List.mem_singleton.mp ht']
  exact ht

theorem below {Q : Path → Prop} {node : Path} (h : ∀ q, node <+: q → Q q) (d : Dir) :
    ∀ q, node ++ [d] <+: q → Q q := fun q hq => h q ((List.prefix_append node [d]).trans hq)

theorem holds_pipe {node : Path} {t' : Table σ} {p0 p1 : Nat} (h : pipe node t = some (p0, p1, t'))
    {o : Obj σ} (ho : Holds t' o) :
    o = .rd node ∨ o = .wr node ∨ Holds t o := by
  unfold pipe at h
  simp only [Option.bind_eq_bind, Option.bind_eq_some_iff, Prod.exists, Option.pure_def,
    Option.some.injEq, Prod.mk.injEq] at h
  obtain ⟨_, t₁, h₁, _, t₂, h₂, -, -, rfl⟩ := h
  rcases holds_install h₂ ho with rfl | ho
  · exact .inr (.inl rfl)
  · exact (holds_install h₁ ho).imp_right .inr

/-- What a process that runs a command and its descendants hold was held before, or is a file,
or belongs to a pipe of the command. -/
theorem runcmd_only (hfile : ∀ name mode, P (.file name mode)) (cmd : Cmd σ) (node : Path)
    (hpipe : ∀ q, node <+: q → P (.rd q) ∧ P (.wr q)) (ht : ∀ o, Holds t o → P o) :
    (runcmd cmd node t).Only P := by
  induction cmd generalizing node t with
  | exec argv => exact only_single ht rfl
  | redir cmd file mode fd ih =>
      have hc : ∀ o, Holds (close fd t) o → P o := fun o ho => ht o (keeps_close fd t o ho)
      unfold runcmd
      cases hi : install (.file file mode) (close fd t) with
      | none => exact only_cons hc (only_single hc rfl) rfl
      | some r =>
          have hr : ∀ o, Holds r.2 o → P o := by
            intro o ho
            rcases holds_install hi ho with rfl | ho
            · exact hfile file mode
            · exact hc o ho
          refine only_cons hc (only_cons hr ?_ rfl) rfl
          exact ih _ (below hpipe .inner) hr
  | pipe left right ihl ihr =>
      unfold runcmd
      cases hi : pipe node t with
      | none => exact only_single ht rfl
      | some r =>
          obtain ⟨p0, p1, t'⟩ := r
          have hr : ∀ o, Holds t' o → P o := by
            intro o ho
            rcases holds_pipe hi ho with rfl | rfl | ho
            · exact (hpipe node List.prefix_rfl).1
            · exact (hpipe node List.prefix_rfl).2
            · exact ht o ho
          have hkeep := keeps_plumbing (σ := σ) 1 p1 p0 p1
          refine only_cons hr (only_fork hr (only_calls ?_ hkeep hr)
            (only_fork hr (only_calls ?_ (keeps_plumbing 0 p0 p0 p1) hr) (only_calls ?_ ?_ hr))) rfl
          · exact fun t ht => ihl _ (below hpipe .left) ht
          · exact fun t ht => ihr _ (below hpipe .right) ht
          · exact fun t ht => only_cons ht (only_cons ht (only_single ht rfl) rfl) rfl
          · exact fun f hf => hkeep f (List.mem_cons_of_mem _ (List.mem_cons_of_mem _ hf))
  | list left right ihl ihr =>
      refine only_fork ht (ihl _ (below hpipe .left) ht) ?_
      exact only_cons ht (ihr _ (below hpipe .right) ht) rfl
  | back cmd ih =>
      refine only_fork ht (ih _ (below hpipe .inner) ht) ?_
      exact only_single ht rfl

end Only

/-! ## Waiting -/

theorem waits_calls (fs : List (Table σ → Table σ)) (k : Table σ → Life σ) (t : Table σ)
    (cs : List (Life σ)) :
    (calls fs k t).waits cs = (k (fs.foldl (fun t f => f t) t)).waits cs := by
  induction fs generalizing t with
  | nil => rfl
  | cons f fs ih => exact ih (f t)

/-- No process of the life reads from a pipe that `t` writes to. -/
def Unread (t : Table σ) (l : Life σ) : Prop := ∀ q, Holds t (.wr q) → l.Only (· ≠ .rd q)

/-- The pipes of the descriptors `t` come from outside of the node, and `t` does not have both
ends of one. -/
structure Apart (node : Path) (t : Table σ) : Prop where
  outside : ∀ q, Holds t (.rd q) ∨ Holds t (.wr q) → ¬ node <+: q
  oneEnd : ∀ q, Holds t (.wr q) → ¬ Holds t (.rd q)

section Waits

variable {node : Path} {t : Table σ}

theorem Apart.child (h : Apart node t) (d : Dir) : Apart (node ++ [d]) t :=
  ⟨fun q hq hp => h.outside q hq ((List.prefix_append node [d]).trans hp), h.oneEnd⟩

theorem not_child_prefix (node : Path) (d : Dir) : ¬ node ++ [d] <+: node := by
  intro h
  have := h.length_le
  simp at this

/-- A descriptor becomes a file, or an end of the pipe of the node. -/
theorem Apart.update (h : Apart node t) {o : Obj σ} (fd : Nat) (d : Dir)
    (ho : ∀ q, o = .rd q ∨ o = .wr q → q = node) :
    Apart (node ++ [d]) (Function.update t fd (some o)) := by
  have hnode : ∀ q, Holds t (.rd q) ∨ Holds t (.wr q) → q ≠ node := by
    rintro q hq rfl
    exact h.outside q hq List.prefix_rfl
  refine ⟨fun q hq hp => ?_, fun q hw hr => ?_⟩
  · have hq' : (o = .rd q ∨ o = .wr q) ∨ (Holds t (.rd q) ∨ Holds t (.wr q)) := by
      rcases hq with hq | hq
      · exact (holds_update hq).imp (fun h => .inl (Option.some.inj h)) .inl
      · exact (holds_update hq).imp (fun h => .inr (Option.some.inj h)) .inr
    rcases hq' with hq' | hq'
    · rw [ho q hq'] at hp
      exact not_child_prefix node d hp
    · exact (h.child d).outside q hq' hp
  · rcases holds_update hw with hw | hw <;> rcases holds_update hr with hr | hr
    · rw [hw] at hr
      cases hr
    · exact hnode q (.inl hr) (ho q (.inr (Option.some.inj hw)))
    · exact hnode q (.inr hw) (ho q (.inl (Option.some.inj hr)))
    · exact h.oneEnd q hw hr

/-- No process below a node reads from what the process of the node had open for writing. -/
theorem Apart.unread (h : Apart node t) {t' : Table σ} (cmd : Cmd σ) (d : Dir)
    (ht' : ∀ o, Holds t' o → o = .rd node ∨ o = .wr node ∨ Holds t o)
    {fs : List (Table σ → Table σ)} (hf : ∀ f ∈ fs, Keeps f) :
    Unread t (calls fs (runcmd cmd (node ++ [d])) t') := by
  intro q hq
  have hpipe : ∀ q', node <+: q' → Obj.rd (σ := σ) q' ≠ .rd q ∧ Obj.wr (σ := σ) q' ≠ .rd q := by
    refine fun q' hq' => ⟨?_, nofun⟩
    rintro ⟨⟩
    exact h.outside q (.inr hq) hq'
  refine only_calls (fun t' ht' => ?_) hf fun o ho => ?_
  · exact runcmd_only (fun _ _ => nofun) cmd _ (below hpipe d) ht'
  · rcases ht' o ho with rfl | rfl | ho
    · exact (hpipe node List.prefix_rfl).1
    · exact (hpipe node List.prefix_rfl).2
    · rintro rfl
      exact h.oneEnd q hq ho

/-- In no life of a process that runs a command does a process wait with an end of a pipe that
one of its children, or of their descendants, reads from. -/
theorem runcmd_waits {cmd : Cmd σ} (hc : cmd.Fds) {cs : List (Life σ)} (hs : Standard t)
    (ha : Apart node t) (hcs : ∀ c ∈ cs, Unread t c) :
    ∀ w ∈ (runcmd cmd node t).waits cs, ∀ c ∈ w.2, Unread w.1 c := by
  induction cmd generalizing node t cs with
  | exec argv => nofun
  | redir cmd file mode fd ih =>
      obtain ⟨hfd, hc⟩ := hc
      unfold runcmd
      rw [hs.install_close hfd]
      refine ih hc (hs.update hfd _) (ha.update fd .inner (by simp)) fun c hc q hq => ?_
      exact hcs c hc q ((holds_update hq).resolve_left (by simp))
  | pipe left right ihl ihr =>
      have hl := ihl hc.1 (hs.update (show 1 < 3 by decide) (.wr node))
        (ha.update 1 .left (by simp)) (List.forall_mem_nil _)
      have hr := ihr hc.2 (hs.update (show 0 < 3 by decide) (.rd node))
        (ha.update 0 .right (by simp)) (List.forall_mem_nil _)
      have hcs' : ∀ c ∈
          calls [close 0, dup 3, close 3, close 4] (runcmd right (node ++ [.right])) (piped node t) ::
          calls [close 1, dup 4, close 3, close 4] (runcmd left (node ++ [.left])) (piped node t) ::
          cs, Unread t c := by
        intro c hc
        have hp : ∀ o, Holds (piped node t) o → o = .rd node ∨ o = .wr node ∨ Holds t o :=
          fun o => holds_pipe (hs.pipe_eq node)
        rcases List.mem_cons.mp hc with rfl | hc
        · exact ha.unread right .right hp (keeps_plumbing 0 3 3 4)
        rcases List.mem_cons.mp hc with rfl | hc
        · exact ha.unread left .left hp (keeps_plumbing 1 4 3 4)
        · exact hcs c hc
      unfold runcmd
      rw [hs.pipe_eq]
      simp only [Life.waits, waits_calls, List.foldl_cons, List.foldl_nil]
      rw [hs.plumb (by decide) (by decide) (Function.update_self ..),
        hs.plumb (by decide) (by decide) (o := .rd node) rfl, hs.close_piped]
      intro w hw
      rcases List.mem_append.mp hw with hw | hw
      · exact hl w hw
      rcases List.mem_append.mp hw with hw | hw
      · exact hr w hw
      rcases List.mem_cons.mp hw with rfl | hw
      · exact hcs'
      · rw [List.mem_singleton.mp hw]
        exact hcs'
  | list left right ihl ihr =>
      have hcs' : ∀ c ∈ runcmd left (node ++ [.left]) t :: cs, Unread t c := by
        intro c hc
        rcases List.mem_cons.mp hc with rfl | hc
        · exact ha.unread left .left (fun o ho => .inr (.inr ho)) (List.forall_mem_nil _)
        · exact hcs c hc
      intro w hw
      rcases List.mem_append.mp hw with hw | hw
      · exact ihl hc.1 hs (ha.child .left) (by simp) w hw
      rcases List.mem_cons.mp hw with rfl | hw
      · exact hcs'
      · exact ihr hc.2 hs (ha.child .right) hcs' w hw
  | back cmd ih =>
      intro w hw
      rcases List.mem_append.mp hw with hw | hw
      · exact ih hc hs (ha.child .inner) (by simp) w hw
      · cases hw

end Waits

/-! ## Parsed commands -/

theorem Token.redir_fd {t : Token} {mode : Nat} (h : t.redir = some (mode, fd)) : fd < 3 := by
  cases t with
  | lt | gt | gtgt =>
      cases h
      decide
  | word | bar | lparen | rparen | semi | amp => cases h

theorem Redirs.fds (h : Redirs ts rs) : ∀ r ∈ rs, r.fd < 3 := by
  induction h with
  | nil => nofun
  | cons hop _ ih => exact List.forall_mem_cons.mpr ⟨Token.redir_fd hop, ih⟩

theorem Words.fds {ws : List Text} (h : Words ts ws rs) : ∀ r ∈ rs, r.fd < 3 := by
  induction h with
  | nil => nofun
  | cons hr _ ih => exact List.forall_mem_append.mpr ⟨hr.fds, ih⟩

theorem fds_wrap {cmd : Cmd Text} (hc : cmd.Fds) (h : ∀ r ∈ rs, r.fd < 3) : (wrap cmd rs).Fds := by
  induction rs generalizing cmd with
  | nil => exact hc
  | cons r rs ih =>
      obtain ⟨hr, hrs⟩ := List.forall_mem_cons.mp h
      have hcmd : (Cmd.redir cmd r.file r.mode r.fd).Fds := ⟨hr, hc⟩
      exact ih hcmd hrs

theorem fds_iterate_back (hc : cmd.Fds) (n : Nat) : (Cmd.back^[n] cmd).Fds := by
  induction n generalizing cmd with
  | zero => exact hc
  | succ n ih =>
      have hback : (Cmd.back cmd).Fds := hc
      exact ih hback

theorem Derives.fds {k : Kind} {T : Cmd Text} (h : Derives k ts T) : T.Fds := by
  induction h with
  | simple hr hw _ => exact fds_wrap trivial (List.forall_mem_append.mpr ⟨hr.fds, hw.fds⟩)
  | block _ hr ih => exact fds_wrap ih hr.fds
  | last _ ih => exact ih
  | pipe _ _ ihl ihr => exact ⟨ihl, ihr⟩
  | backs n _ ih => exact fds_iterate_back ih n
  | list n _ _ ihl ihr => exact ⟨fds_iterate_back ihl n, ihr⟩

theorem Cmd.fds_map {τ : Type} (f : σ → τ) (cmd : Cmd σ) : (cmd.map f).Fds ↔ cmd.Fds := by
  induction cmd with
  | exec argv => rfl
  | redir cmd file mode fd ih => exact and_congr_right fun _ => ih
  | pipe left right ihl ihr | list left right ihl ihr => exact and_congr ihl ihr
  | back cmd ih => exact ih

/-- A parsed command, with the strings that its pointers read. -/
def Cmd.strs (line : Text) (mem : List UInt8) (cmd : Cmd Span) : Cmd (List UInt8) :=
  cmd.map fun a => cstring mem (line.length - a.start.length)

theorem parsecmd_strs {cmd : Cmd Span} {mem : List UInt8} (h : parsecmd line = .ok (cmd, mem)) :
    cmd.strs line mem = (cmd.map Span.text).map (List.map Subtype.val) := by
  obtain ⟨-, hplaced, rfl⟩ := parsecmd_sound h
  rw [Cmd.map_map]
  exact Cmd.map_congr fun a ha => cstring_nulterminate hplaced ha

theorem parsecmd_fds {cmd : Cmd Span} {mem : List UInt8} (h : parsecmd line = .ok (cmd, mem)) :
    (cmd.strs line mem).Fds := by
  rw [parsecmd_strs h]
  exact (Cmd.fds_map _ _).mpr (parsecmd_sound h).1.fds

/-- For every command that `parsecmd` returns, run in a process with the descriptors 0, 1 and 2
open and no others, none of them an end of a pipe of the command: no call fails; the leaves
have the descriptors that the command describes; these are 0, 1 and 2 and no others; and no
process waits with the write end of a pipe that a process it waits for, or a descendant of
one, ever has the read end of. -/
theorem pipelines_wired {line : Text} {cmd : Cmd Span} {mem : List UInt8}
    (h : parsecmd line = .ok (cmd, mem)) {t : Table (List UInt8)} (ht : Standard t)
    (hp : ∀ q, ¬ Holds t (.rd q) ∧ ¬ Holds t (.wr q)) :
    (runcmd (cmd.strs line mem) [] t).Works ∧
    (runcmd (cmd.strs line mem) [] t).leaves = wires (cmd.strs line mem) [] t ∧
    (∀ l ∈ (runcmd (cmd.strs line mem) [] t).leaves, Standard l.table) ∧
    ∀ w ∈ (runcmd (cmd.strs line mem) [] t).waits [], ∀ child ∈ w.2, ∀ t' ∈ child.tables,
      ∀ q, Holds w.1 (.wr q) → ¬ Holds t' (.rd q) := by
  have hfds := parsecmd_fds h
  have ha : Apart [] t :=
    ⟨fun q hq => (hq.elim (hp q).1 (hp q).2).elim, fun q hq => ((hp q).2 hq).elim⟩
  obtain ⟨hleaves, hworks⟩ := runcmd_leaves hfds [] ht
  refine ⟨hworks, hleaves, hleaves ▸ wires_standard hfds [] ht, fun w hw c hc t' ht' q hq hr => ?_⟩
  exact runcmd_waits hfds ht ha (by simp) w hw c hc q hq t' ht' _ hr rfl

/-- The descriptors of the shell. -/
def inherited : Table (List UInt8) := fun fd => if fd < 3 then some (.inherited fd) else none

theorem standard_inherited : Standard inherited := by
  intro fd
  unfold inherited
  split <;> simp_all

theorem inherited_noPipe (q : Path) : ¬ Holds inherited (.rd q) ∧ ¬ Holds inherited (.wr q) := by
  constructor
  all_goals
    rintro ⟨fd, hfd⟩
    unfold inherited at hfd
    split at hfd <;> cases hfd

theorem pipelines_wired_twoCommands : ∃ cmd mem, parsecmd (text ['a', '|', 'b']) = .ok (cmd, mem) ∧
    Standard inherited ∧ (∀ q, ¬ Holds inherited (.rd q) ∧ ¬ Holds inherited (.wr q)) ∧
    ((runcmd (cmd.strs (text ['a', '|', 'b']) mem) [] inherited).leaves.map fun l =>
      (l.node, l.argv)) = [([.left], [chars ['a']]), ([.right], [chars ['b']])] ∧
    ∀ l ∈ (runcmd (cmd.strs (text ['a', '|', 'b']) mem) [] inherited).leaves, Standard l.table := by
  have h : parsecmd (text ['a', '|', 'b']) = .ok
      (.pipe (.exec [⟨text ['a', '|', 'b'], text ['|', 'b']⟩]) (.exec [⟨text ['b'], []⟩]),
        [97, 0, 98, 0]) := rfl
  obtain ⟨-, hleaves, hstd, -⟩ := pipelines_wired h standard_inherited inherited_noPipe
  refine ⟨_, _, h, standard_inherited, inherited_noPipe, ?_, hstd⟩
  rw [hleaves]
  rfl

end Xv6.Shell
