import Xv6.Vm.Boot

/-!
# Physical page ownership and the shape of address spaces

After boot and any system calls, whichever allocations failed in them, every page
of memory has exactly one owner, and the page table of every process maps its
memory, its trapframe and the trampoline and nothing else.
-/

namespace Xv6.Vm

open Hoare FreeList RefCount

variable {n fr tr v : Nat} {g : Layout} {s s' : Sys n} {m : Nat → Page} {a p np L : Nat}
  {q : Proc n} {pipes rest : List Nat} {safe : Fin n → Int → Prop} {hand : List (Fin NFILE)}
  {xs : List (Fin NPROC × Op)} {P : Sys NPROC → Prop}

/-! ## Owners -/

/-- What a page of memory is used for. -/
inductive Owner (n : Nat) where
  /-- The element of the free list at a position. -/
  | free (i : Nat)
  /-- The page of the page table of a process at the end of a path of entries. -/
  | table (p : Fin n) (path : List Nat)
  /-- The user page of a process with a number. -/
  | user (p : Fin n) (v : Nat)
  | trapframe (p : Fin n)
  | pipe
  /-- One of the pages taken at boot. -/
  | boot (i : Nat)

/-- The page of a page table at the end of a path of valid entries. -/
def follow (m : Nat → Page) : Nat → List Nat → Option Nat
  | p, [] => some p
  | p, i :: path =>
      if i < 512 ∧ Valid (pteOf m p i) then follow m (PTE2PA (pteOf m p i)) path else none

/-- The page `a` is used for something, where `free` is the free list. -/
def Owns (s : Sys n) (taken free : List Nat) (a : Nat) : Owner n → Prop
  | .free i => free[i]? = some a
  | .table p path => (s.proc p).state ≠ .unused ∧ path.length ≤ 2 ∧
      follow s.kern.mem (s.proc p).pagetable path = some a
  | .user p v => (s.proc p).state ≠ .unused ∧ v * PGSIZE < TRAPFRAME ∧
      Leaf (entry s.kern.mem (s.proc p).pagetable v) ∧
      PTE2PA (entry s.kern.mem (s.proc p).pagetable v) = a
  | .trapframe p => (s.proc p).state ≠ .unused ∧ (s.proc p).trapframe = a
  | .pipe => ∃ f, 0 < (s.file f).ref ∧ (s.file f).type = .pipe ∧ (s.file f).pipe = a
  | .boot i => taken[i]? = some a

/-! ## A list of the owners -/

/-- The pages of a page table with their paths. -/
def tablePaths (m : Nat → Page) : Nat → Nat → List (List Nat × Nat)
  | 0, p => [([], p)]
  | L + 1, p => ([], p) :: (List.range 512).flatMap fun i =>
      if Valid (pteOf m p i) then
        (tablePaths m L (PTE2PA (pteOf m p i))).map fun x => (i :: x.1, x.2)
      else []

/-- The pages below one entry with their paths. -/
def kidPaths (m : Nat → Page) (L p i : Nat) : List (List Nat × Nat) :=
  if Valid (pteOf m p i) then
    (tablePaths m L (PTE2PA (pteOf m p i))).map fun x => (i :: x.1, x.2)
  else []

theorem tablePaths_succ :
    tablePaths m (L + 1) p = ([], p) :: (List.range 512).flatMap (kidPaths m L p) := rfl

theorem tablePaths_pages : (tablePaths m L p).map Prod.snd = tbl m L p := by
  induction L generalizing p with
  | zero => rw [tbl_zero]; rfl
  | succ L ih =>
      have hk : (fun i => (kidPaths m L p i).map Prod.snd) = kid m L p := by
        funext i
        by_cases h : Valid (pteOf m p i)
        · rw [kid_of_valid h, kidPaths, if_pos h, List.map_map, ← ih]
          rfl
        · rw [kid_of_not_valid h, kidPaths, if_neg h]
          rfl
      rw [tablePaths_succ, tbl_succ, List.map_cons, List.map_flatMap, hk]

theorem mem_tablePaths {path : List Nat} :
    (path, a) ∈ tablePaths m L p ↔ path.length ≤ L ∧ follow m p path = some a := by
  induction L generalizing p path with
  | zero =>
      cases path with
      | nil => simp [tablePaths, follow, eq_comm]
      | cons i path => simp [tablePaths]
  | succ L ih =>
      rw [tablePaths_succ, List.mem_cons, List.mem_flatMap]
      have hkid : ∀ j, (path, a) ∈ kidPaths m L p j ↔ Valid (pteOf m p j) ∧
          ∃ path', path = j :: path' ∧ path'.length ≤ L ∧
            follow m (PTE2PA (pteOf m p j)) path' = some a := by
        intro j
        by_cases h : Valid (pteOf m p j)
        · rw [kidPaths, if_pos h, List.mem_map]
          constructor
          · rintro ⟨x, hx, he⟩
            cases he
            exact ⟨h, x.1, rfl, ih.mp hx⟩
          · rintro ⟨-, path', rfl, hp⟩
            exact ⟨(path', a), ih.mpr hp, rfl⟩
        · rw [kidPaths, if_neg h]
          exact ⟨nofun, fun hc => absurd hc.1 h⟩
      simp only [hkid]
      cases path with
      | nil => simp [follow, eq_comm]
      | cons i path =>
          constructor
          · rintro (h | ⟨j, hj, hv, path', he, hl, hf⟩)
            · cases h
            · cases he
              exact ⟨Nat.succ_le_succ hl, by rw [follow, if_pos ⟨List.mem_range.mp hj, hv⟩, hf]⟩
          · rintro ⟨hl, hf⟩
            rw [follow] at hf
            split at hf
            · next hc =>
                exact .inr ⟨i, List.mem_range.mpr hc.1, hc.2, path, rfl, Nat.le_of_succ_le_succ hl,
                  hf⟩
            · cases hf

/-- The pages of a process with their uses. -/
def procOwners (m : Nat → Page) (q : Proc n) (p : Fin n) : List (Owner n × Nat) :=
  q.frames.map (fun a => (.trapframe p, a)) ++
    if q.pagetable = 0 then []
    else (tablePaths m 2 q.pagetable).map (fun x => (.table p x.1, x.2)) ++
      (List.range' 0 (npages q.sz)).map fun v => (.user p v, PTE2PA (entry m q.pagetable v))

theorem procOwners_pages {p : Fin n} : (procOwners m q p).map Prod.snd = q.pages m := by
  rw [procOwners, Proc.pages, Proc.tables, List.map_append, List.map_map]
  congr 1
  · exact List.map_id _
  · by_cases h : q.pagetable = 0
    · rw [if_pos h, if_pos h]
      rfl
    · rw [if_neg h, if_neg h, space, ← tablePaths_pages, List.map_append, List.map_map,
        List.map_map]
      rfl

/-- All pages with their uses. -/
def owners (s : Sys n) (taken pipes free : List Nat) : List (Owner n × Nat) :=
  taken.zipIdx.map (fun x => (.boot x.2, x.1)) ++
    (pipes.map (fun a => (.pipe, a)) ++
      (List.finRange n).flatMap fun p => procOwners s.kern.mem (s.proc p) p) ++
    free.zipIdx.map fun x => (.free x.2, x.1)

theorem owners_pages {taken free : List Nat} :
    (owners s taken pipes free).map Prod.snd =
      (taken ++ (pipes ++ procPages s.kern.mem s.proc)) ++ free := by
  have hz : ∀ (l : List Nat) (f : Nat → Owner n),
      (l.zipIdx.map fun x => (f x.2, x.1)).map Prod.snd = l := by
    intro l f
    rw [List.map_map]
    exact List.zipIdx_map_fst 0 l
  have hp : (fun p => (procOwners s.kern.mem (s.proc p) p).map Prod.snd) =
      fun p => (s.proc p).pages s.kern.mem := funext fun p => procOwners_pages
  rw [owners, List.map_append, List.map_append, List.map_append, hz, hz, List.map_flatMap, hp,
    List.map_map]
  congr 3
  exact List.map_id _

theorem mem_procOwners {p : Fin n} {o : Owner n} :
    (o, a) ∈ procOwners m q p ↔
      o = .trapframe p ∧ a ∈ q.frames ∨
      q.pagetable ≠ 0 ∧ ((∃ path, o = .table p path ∧ path.length ≤ 2 ∧
          follow m q.pagetable path = some a) ∨
        ∃ v < npages q.sz, o = .user p v ∧ PTE2PA (entry m q.pagetable v) = a) := by
  rw [procOwners, List.mem_append]
  refine or_congr ?_ ?_
  · simp [eq_comm, and_comm]
  · by_cases h : q.pagetable = 0
    · simp [h]
    · rw [if_neg h, List.mem_append]
      simp only [ne_eq, h, not_false_eq_true, true_and]
      refine or_congr ?_ ?_
      · simp only [List.mem_map, Prod.mk.injEq, Prod.exists]
        constructor
        · rintro ⟨path, a', hm, rfl, rfl⟩
          exact ⟨path, rfl, mem_tablePaths.mp hm⟩
        · rintro ⟨path, rfl, hm⟩
          exact ⟨path, a, mem_tablePaths.mpr hm, rfl, rfl⟩
      · simp only [List.mem_map, Prod.mk.injEq, List.mem_range'_1, Nat.zero_le, true_and,
          Nat.zero_add]
        constructor
        · rintro ⟨v, hv, rfl, rfl⟩
          exact ⟨v, hv, rfl, rfl⟩
        · rintro ⟨v, hv, rfl, rfl⟩
          exact ⟨v, hv, rfl, rfl⟩

theorem mem_owners {taken free : List Nat} {o : Owner n} :
    (o, a) ∈ owners s taken pipes free ↔
      (∃ i, o = .boot i ∧ taken[i]? = some a) ∨ (o = .pipe ∧ a ∈ pipes) ∨
      (∃ p, (o, a) ∈ procOwners s.kern.mem (s.proc p) p) ∨
      ∃ i, o = .free i ∧ free[i]? = some a := by
  have hz : ∀ (l : List Nat) (f : Nat → Owner n),
      (o, a) ∈ l.zipIdx.map (fun x => (f x.2, x.1)) ↔ ∃ i, o = f i ∧ l[i]? = some a := by
    intro l f
    simp only [List.mem_map, Prod.mk.injEq, Prod.exists, List.mem_zipIdx_iff_getElem?]
    constructor
    · rintro ⟨a', i, hi, rfl, rfl⟩
      exact ⟨i, rfl, hi⟩
    · rintro ⟨i, rfl, hi⟩
      exact ⟨a, i, hi, rfl, rfl⟩
  rw [owners, List.mem_append, List.mem_append, List.mem_append, hz, hz, List.mem_flatMap]
  simp only [List.mem_finRange, true_and, List.mem_map, Prod.mk.injEq]
  have hpipe : (∃ x ∈ pipes, Owner.pipe = o ∧ x = a) ↔ o = .pipe ∧ a ∈ pipes := by
    constructor
    · rintro ⟨x, hx, rfl, rfl⟩
      exact ⟨rfl, hx⟩
    · rintro ⟨rfl, ha⟩
      exact ⟨a, ha, rfl, rfl⟩
  rw [hpipe, or_assoc, or_assoc]

/-- A page below the trapframe is mapped if and only if it is a user page. -/
theorem Space.leaf_iff (hs : Space m p np fr tr) (hnp : np ≤ ramPages) :
    v * PGSIZE < TRAPFRAME ∧ Leaf (entry m p v) ↔ v < np := by
  have hlt := ramPages_lt
  have hfp : framePage = 2 ^ 26 - 2 := rfl
  have htp : trampPage = 2 ^ 26 - 1 := rfl
  rw [trapframe_eq, Nat.mul_lt_mul_right (by decide)]
  constructor
  · rintro ⟨hv, hl⟩
    by_contra hc
    rw [hs.rest v (by omega) (lt_npte (by omega)) (by omega) (by omega)] at hl
    exact not_valid_zero hl.valid
  · exact fun hv => ⟨by omega, hs.user v hv⟩

theorem Inv.np_le {p : Fin n} (h : Inv g safe rest pipes hand s) (hp : (s.proc p).pagetable ≠ 0) :
    npages (s.proc p).sz ≤ ramPages :=
  Vm.np_le (h.owned_space hp)

theorem owns_iff {taken free : List Nat} {o : Owner n} (h : Inv g safe taken pipes [] s) :
    Owns s taken free a o ↔ (o, a) ∈ owners s taken pipes free := by
  have hlive : ∀ p, (s.proc p).state ≠ .unused ↔ (s.proc p).pagetable ≠ 0 := fun p =>
    ⟨fun hu => ((h.procs p).live hu).2, fun hp hu => hp ((h.procs p).clean hu).pagetable⟩
  simp only [mem_owners, mem_procOwners]
  cases o with
  | free i => simp [Owns]
  | boot i => simp [Owns]
  | table p path => simp [Owns, hlive]
  | user p v =>
      simp only [Owns, hlive]
      constructor
      · rintro ⟨hp, h1, h2, h3⟩
        have hv := (((h.procs p).space hp).leaf_iff (h.np_le hp)).mp ⟨h1, h2⟩
        exact .inr (.inr (.inl ⟨p, .inr ⟨hp, .inr ⟨v, hv, rfl, h3⟩⟩⟩))
      · simp only [reduceCtorEq, false_and, exists_false, false_or, or_false, Owner.user.injEq]
        rintro ⟨p', hp, v', hv, ⟨rfl, rfl⟩, he⟩
        obtain ⟨h1, h2⟩ := (((h.procs p).space hp).leaf_iff (h.np_le hp)).mpr hv
        exact ⟨hp, h1, h2, he⟩
  | trapframe p =>
      simp only [Owns]
      constructor
      · rintro ⟨hu, he⟩
        refine .inr (.inr (.inl ⟨p, .inl ⟨rfl, ?_⟩⟩))
        rw [Proc.frames_eq ((h.procs p).live hu).1, he]
        exact List.mem_cons_self
      · simp only [reduceCtorEq, false_and, and_false, exists_false, false_or, or_false,
          Owner.trapframe.injEq]
        rintro ⟨p', rfl, ha⟩
        have ht : (s.proc p).trapframe ≠ 0 := fun h0 => by
          rw [Proc.frames, if_pos h0] at ha
          cases ha
        rw [Proc.frames_eq ht, List.mem_singleton] at ha
        exact ⟨fun hu => ht ((h.procs p).clean hu).trapframe, ha.symm⟩
  | pipe =>
      simp only [Owns, reduceCtorEq, false_and, and_false, exists_false, false_or, or_false, true_and]
      rw [h.files.pipe]
      constructor
      · rintro ⟨f, -, ht, hp⟩
        exact ⟨_, f, ht, hp, rfl⟩
      · rintro ⟨w, f, ht, hp, -⟩
        refine ⟨f, Nat.pos_of_ne_zero fun h0 => ?_, ht, hp⟩
        rw [h.files.ref] at h0
        rw [h.files.closed f h0] at ht
        cases ht

/-- In a list of pairs with different second parts, each has one first part. -/
theorem existsUnique_fst {α β : Type} {l : List (α × β)} {b : β} (hn : (l.map Prod.snd).Nodup)
    (hb : b ∈ l.map Prod.snd) : ∃! a, (a, b) ∈ l := by
  obtain ⟨⟨a, b'⟩, hm, rfl⟩ := List.mem_map.mp hb
  refine ⟨a, hm, fun a' hm' => ?_⟩
  have he := List.inj_on_of_nodup_map hn hm' hm rfl
  exact congrArg Prod.fst he

/-- Every page has one owner. -/
theorem Inv.existsUnique_owner {taken : List Nat} (h : Inv g safe taken pipes [] s)
    (ha : g.IsPage a) :
    ∃! o, Owns s taken s.kern.frees a o := by
  simp only [owns_iff h]
  apply existsUnique_fst
  · rw [owners_pages]
    exact h.owned.nodup
  · rw [owners_pages]
    exact h.complete a ha

/-! ## Runs -/

/-- A step keeps the pages in order. -/
theorem step_good {taken : List Nat} {x : Fin n × Op} (hsafe : ∀ p c, safe p c → safe p 0)
    (hkill : ∀ pid, x.2 = .kill pid → ∀ p, ¬ safe p pid) (h : Good g safe taken s)
    (hs : step g s x = some s') : Good g safe taken s' := by
  rw [step] at hs
  split at hs
  · next hc =>
      have hw := Op.run_spec h hc.1 hsafe hkill
      split at hs
      · next hr =>
          cases hs
          exact (wp_ok hr).mp hw
      · cases hs
  · cases hs

theorem boot_ok (g : Layout) (mem : Nat → Page) (safe : Fin (n + 1) → Int → Prop)
    (hsafe : ∀ p c, safe p c → safe p 0) :
    ∃ taken s₀, boot g (zeroed (n + 1) mem) = .ok (taken, s₀) ∧ Good g safe taken s₀ := by
  have hw : wp (boot g) (fun taken s => Good g safe taken s) (fun _ => False)
      (zeroed (n + 1) mem) := boot_spec hsafe
  cases hb : boot g (zeroed (n + 1) mem) with
  | error e => exact ((wp_error hb).mp hw).elim
  | ok r => exact ⟨r.1, r.2, rfl, (wp_ok hb).mp hw⟩

/-- The pages are in order in every state that is reached. -/
theorem good_of_run {taken : List Nat} {s₀ : Sys n} {xs : List (Fin n × Op)}
    (h : Good g (fun _ _ => False) taken s₀) (hr : Run.exec (step g) s₀ xs = some s) :
    Good g (fun _ _ => False) taken s :=
  Run.exec_invariant (fun _ _ _ h' hs => step_good (fun _ _ => id) (fun _ _ _ => id) h' hs) h hr

/-! ## A small machine -/

instance : NeZero NPROC := ⟨by decide⟩

/-- A memory of sixteen pages. -/
def smallLayout : Layout where
  ends := PHYSTOP - 16 * PGSIZE
  trampoline := KERNBASE
  bootPages := 0
  kernbase_le := by decide
  trampoline_aligned := by decide
  trampoline_lt := by decide
  room := by decide

/-- Boot with `NPROC` slots and a memory of zeros. -/
def bootZeroed (g : Layout) : Except Panic (List Nat × Sys NPROC) :=
  boot g (zeroed NPROC fun _ => Page.fill 0)

/-- Boot and a run, checked at the end. -/
def checkRun (g : Layout) (xs : List (Fin NPROC × Op)) (P : Sys NPROC → Prop) [DecidablePred P] :
    Bool :=
  match bootZeroed g with
  | .ok (_, s₀) => (Run.exec (step g) s₀ xs).any fun s => decide (P s)
  | .error _ => false

theorem exists_run_of_check [DecidablePred P] (h : checkRun g xs P = true) :
    ∃ taken s₀ s, bootZeroed g = .ok (taken, s₀) ∧ Run.exec (step g) s₀ xs = some s ∧ P s := by
  rw [checkRun] at h
  cases hb : bootZeroed g with
  | error e => simp [hb] at h
  | ok r =>
      rw [hb] at h
      obtain ⟨s, hs⟩ := Run.exists_exec_of_check h
      exact ⟨r.1, r.2, s, rfl, hs⟩

/-- The same, with the pages in order. -/
theorem exists_good_of_check [DecidablePred P] (h : checkRun g xs P = true) :
    ∃ taken s₀ s, bootZeroed g = .ok (taken, s₀) ∧ Run.exec (step g) s₀ xs = some s ∧
      Good g (fun _ _ => False) taken s ∧ P s := by
  obtain ⟨taken, s₀, hb, hg⟩ :=
    boot_ok (n := 63) g (fun _ => Page.fill 0) (fun _ _ => False) fun _ _ => id
  obtain ⟨_, _, s, hb', hr, hs⟩ := exists_run_of_check h
  cases hb.symm.trans hb'
  exact ⟨taken, s₀, s, hb, hr, good_of_run hg hr, hs⟩

theorem exists_boot_of_check [DecidablePred P] (h : checkRun g [] P = true) :
    ∃ taken s₀, bootZeroed g = .ok (taken, s₀) ∧
      Good g (fun _ _ => False) taken s₀ ∧ P s₀ := by
  obtain ⟨taken, s₀, s, hb, hr, hs⟩ := exists_good_of_check h
  cases hr
  exact ⟨taken, s₀, hb, hs⟩

/-! ## Every page has one owner -/

/-- After boot and any system calls, every page of memory has exactly one owner. -/
theorem page_owner (n : Nat) (g : Layout) (mem : Nat → Page) :
    ∃ taken s₀, boot g (zeroed (n + 1) mem) = .ok (taken, s₀) ∧
      ∀ xs s, Run.exec (step g) s₀ xs = some s →
        ∃ free, Chain s.kern.mem s.kern.free free ∧
          ∀ a, a % PGSIZE = 0 → PGROUNDUP g.ends ≤ a → a < PHYSTOP →
            ∃! o, Owns s taken free a o := by
  obtain ⟨taken, s₀, hb, hg⟩ := boot_ok (n := n) g mem (fun _ _ => False) fun _ _ => id
  refine ⟨taken, s₀, hb, fun xs s hr => ?_⟩
  obtain ⟨pipes, h⟩ := good_of_run hg hr
  refine ⟨s.kern.frees, h.owned.chain, fun a h1 h2 h3 => h.existsUnique_owner ⟨h1, ?_, h3⟩⟩
  refine Nat.le_trans ?_ h2
  rw [PGROUNDUP, PGSIZE]
  omega

/-- The last page of memory after a `fork`, when the child has grown by a byte. -/
theorem page_owner_last : ∃ taken s₀ s, bootZeroed smallLayout = .ok (taken, s₀) ∧
    Run.exec (step smallLayout) s₀ [(0, .fork), (1, .sbrk 1)] = some s ∧
    (s.proc 1).sz = PGSIZE + 1 ∧ ∃ free, Chain s.kern.mem s.kern.free free ∧
      ∃! o, Owns s taken free (PHYSTOP - PGSIZE) o := by
  obtain ⟨taken, s₀, hb, h⟩ := page_owner 63 smallLayout fun _ => Page.fill 0
  obtain ⟨_, _, s, hb', hr, hsz⟩ : ∃ taken s₀ s, bootZeroed smallLayout = .ok (taken, s₀) ∧
      Run.exec (step smallLayout) s₀ [(0, .fork), (1, .sbrk 1)] = some s ∧
      (s.proc 1).sz = PGSIZE + 1 := exists_run_of_check (by decide +kernel)
  cases hb.symm.trans hb'
  obtain ⟨free, hc, ho⟩ := h _ s hr
  exact ⟨taken, s₀, s, hb, hr, hsz, free, hc, ho _ (by decide) (by decide) (by decide)⟩

/-! ## The shape of an address space -/

/-- The page table of a process maps its memory, its trapframe and the trampoline
and nothing else. -/
structure Shape (g : Layout) (m : Nat → Page) (q : Proc n) : Prop where
  below : PGROUNDUP q.sz ≤ TRAPFRAME
  leaf : ∀ va < NPTE * PGSIZE, Leaf (look m 2 q.pagetable va) ↔
    va < PGROUNDUP q.sz ∨ (TRAPFRAME ≤ va ∧ va < TRAMPOLINE) ∨ (TRAMPOLINE ≤ va ∧ va < MAXVA)
  valid : ∀ va < NPTE * PGSIZE, Valid (look m 2 q.pagetable va) → Leaf (look m 2 q.pagetable va)
  frame : PTE2PA (look m 2 q.pagetable TRAPFRAME) = q.trapframe ∧
    NoUser (look m 2 q.pagetable TRAPFRAME)
  tramp : PTE2PA (look m 2 q.pagetable TRAMPOLINE) = g.trampoline ∧
    NoUser (look m 2 q.pagetable TRAMPOLINE)

/-- The four kinds of entries of an address space. -/
theorem Space.entry_cases (hs : Space m p np fr tr) (hv : v < NPTE) :
    v < np ∧ Leaf (entry m p v) ∨ v = framePage ∧ entry m p v = fr ∨
      v = trampPage ∧ entry m p v = tr ∨
      np ≤ v ∧ v ≠ framePage ∧ v ≠ trampPage ∧ entry m p v = 0 := by
  by_cases h1 : v < np
  · exact .inl ⟨h1, hs.user v h1⟩
  by_cases h2 : v = framePage
  · exact .inr (.inl ⟨h2, h2 ▸ hs.frame⟩)
  by_cases h3 : v = trampPage
  · exact .inr (.inr (.inl ⟨h3, h3 ▸ hs.tramp⟩))
  · exact .inr (.inr (.inr ⟨by omega, h2, h3, hs.rest v (by omega) hv h2 h3⟩))

theorem Space.shape (hnp : npages q.sz ≤ ramPages) (htf : g.IsPage q.trapframe)
    (hs : Space m q.pagetable (npages q.sz) (framePte q.trapframe) (trampPte g)) :
    Shape g m q := by
  have hlt := ramPages_lt
  have hfp : framePage = 2 ^ 26 - 2 := rfl
  have htp : trampPage = 2 ^ 26 - 1 := rfl
  have e1 : TRAPFRAME = (2 ^ 26 - 2) * 4096 := by decide
  have e2 : TRAMPOLINE = (2 ^ 26 - 1) * 4096 := by decide
  have e3 : MAXVA = 2 ^ 26 * 4096 := by decide
  have hlook : ∀ va < NPTE * PGSIZE, look m 2 q.pagetable va = entry m q.pagetable (va / PGSIZE) ∧
      va / PGSIZE < NPTE := by
    intro va hva
    have hd : va / PGSIZE < NPTE := Nat.div_lt_of_lt_mul (by rwa [Nat.mul_comm])
    rw [look_eq_entry, Nat.mod_eq_of_lt hd]
    exact ⟨rfl, hd⟩
  have hframe : look m 2 q.pagetable TRAPFRAME = framePte q.trapframe := by
    rw [(hlook _ (by decide)).1]
    exact hs.frame
  have htramp : look m 2 q.pagetable TRAMPOLINE = trampPte g := by
    rw [(hlook _ (by decide)).1]
    exact hs.tramp
  refine ⟨?_, fun va hva => ?_, fun va hva hv => ?_, ?_, ?_⟩
  · rw [PGROUNDUP_eq, PGSIZE, e1]
    omega
  · obtain ⟨he, hd⟩ := hlook va hva
    rw [he, PGROUNDUP_eq, e1, e2, e3]
    rw [PGSIZE] at *
    rcases hs.entry_cases hd with ⟨h1, hl⟩ | ⟨h1, hl⟩ | ⟨h1, hl⟩ | ⟨h1, h2, h3, hl⟩
    · exact iff_of_true hl (by omega)
    · exact iff_of_true (hl ▸ leaf_framePte _) (by omega)
    · exact iff_of_true (hl ▸ leaf_trampPte) (by omega)
    · exact iff_of_false (fun hc => not_valid_zero (hl ▸ hc.valid)) (by omega)
  · obtain ⟨he, hd⟩ := hlook va hva
    rw [he] at hv ⊢
    rcases hs.entry_cases hd with ⟨-, hl⟩ | ⟨-, hl⟩ | ⟨-, hl⟩ | ⟨-, -, -, hl⟩
    · exact hl
    · exact hl ▸ leaf_framePte _
    · exact hl ▸ leaf_trampPte
    · exact absurd (hl ▸ hv) not_valid_zero
  · rw [hframe]
    exact ⟨PTE2PA_leaf htf.1 (by decide), noUser_framePte _⟩
  · rw [htramp]
    exact ⟨PTE2PA_leaf g.trampoline_aligned (by decide), noUser_trampPte⟩

theorem Inv.shape {p : Fin n} (h : Inv g safe rest pipes hand s) (hp : (s.proc p).state ≠ .unused) :
    Shape g s.kern.mem (s.proc p) := by
  have hpt := ((h.procs p).live hp).2
  exact Space.shape (h.np_le hpt) (h.trapframe_page hp) ((h.procs p).space hpt)

/-- After boot and any system calls, every live process has an address space in
shape, and no further call stops in a panic other than that for init. -/
theorem space_shape (n : Nat) (g : Layout) (mem : Nat → Page) :
    ∃ taken s₀, boot g (zeroed (n + 1) mem) = .ok (taken, s₀) ∧
      ∀ xs s, Run.exec (step g) s₀ xs = some s →
        (∀ p, (s.proc p).state ≠ .unused → Shape g s.kern.mem (s.proc p)) ∧
        ∀ (p : Fin (n + 1)) (op : Op) (e : Panic), (s.proc p).state = .runnable →
          op.run g p s = .error e → e = .initExiting := by
  obtain ⟨taken, s₀, hb, hg⟩ := boot_ok (n := n) g mem (fun _ _ => False) fun _ _ => id
  refine ⟨taken, s₀, hb, fun xs s hr => ?_⟩
  have hgood := good_of_run hg hr
  refine ⟨?_, fun p op e hp he => ?_⟩
  · obtain ⟨pipes, h⟩ := hgood
    exact fun p hp => h.shape hp
  · exact (wp_error he).mp (Op.run_spec hgood hp (fun _ _ => id) fun _ _ _ => id)

/-- After a `fork` both address spaces are in shape.  The call that stops the kernel is the `exit` of
init. -/
theorem space_shape_fork : ∃ taken s₀ s, bootZeroed smallLayout = .ok (taken, s₀) ∧
    Run.exec (step smallLayout) s₀ [(0, .fork)] = some s ∧
    Shape smallLayout s.kern.mem (s.proc 0) ∧ Shape smallLayout s.kern.mem (s.proc 1) ∧
    Op.run smallLayout 0 (.exit 0) s = .error .initExiting := by
  obtain ⟨taken, s₀, hb, h⟩ := space_shape 63 smallLayout fun _ => Page.fill 0
  obtain ⟨_, _, s, hb', hr, h0, h1, he⟩ : ∃ taken s₀ s, bootZeroed smallLayout = .ok (taken, s₀) ∧
      Run.exec (step smallLayout) s₀ [(0, .fork)] = some s ∧ (s.proc 0).state = .runnable ∧
      (s.proc 1).state = .runnable ∧ (Op.run smallLayout 0 (.exit 0) s).toOption.isNone :=
    exists_run_of_check (by decide +kernel)
  cases hb.symm.trans hb'
  obtain ⟨hshape, herr⟩ := h _ s hr
  refine ⟨taken, s₀, s, hb, hr, hshape 0 (fun hu => nomatch h0.symm.trans hu),
    hshape 1 (fun hu => nomatch h1.symm.trans hu), ?_⟩
  cases hx : Op.run smallLayout 0 (.exit 0) s with
  | ok r => rw [hx] at he; cases he
  | error e => rw [herr 0 (.exit 0) e h0 hx]

end Xv6.Vm
