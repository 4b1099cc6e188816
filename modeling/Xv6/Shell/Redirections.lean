import Xv6.Shell.Run

/-!
# The redirections of a simple command

The parser puts each redirection of a command around the ones before it, and `runcmd` opens
the files from the outside in.  So the file that a descriptor of a simple command refers to is
the one of its first redirection of that descriptor.
-/

namespace Xv6.Shell

/-- The derivations, with one simple command of the line: the node of its leaf in the command,
its words, and its own redirections in the order of the line. -/
inductive Carries : Kind → List Token → Cmd Text → Path → List Text → List Redir → Prop where
  | simple {ts ts' : List Token} {ws : List Text} {rs rs' : List Redir} :
      Redirs ts rs → Words ts' ws rs' → ws.length ≤ MAXARGS - 1 →
      Carries .exec (ts ++ ts') (wrap (.exec ws) (rs ++ rs'))
        (List.replicate (rs ++ rs').length .inner) ws (rs ++ rs')
  | block {ts ts' : List Token} {cmd : Cmd Text} {p : Path} {ws : List Text} {rs rs' : List Redir} :
      Carries .line ts cmd p ws rs → Redirs ts' rs' →
      Carries .exec (.lparen :: (ts ++ .rparen :: ts')) (wrap cmd rs')
        (List.replicate rs'.length .inner ++ p) ws rs
  | last {ts : List Token} {cmd : Cmd Text} {p : Path} {ws : List Text} {rs : List Redir} :
      Carries .exec ts cmd p ws rs → Carries .pipe ts cmd p ws rs
  | pipeLeft {ts ts' : List Token} {left right : Cmd Text} {p : Path} {ws : List Text}
      {rs : List Redir} : Carries .exec ts left p ws rs → Derives .pipe ts' right →
      Carries .pipe (ts ++ .bar :: ts') (.pipe left right) (.left :: p) ws rs
  | pipeRight {ts ts' : List Token} {left right : Cmd Text} {p : Path} {ws : List Text}
      {rs : List Redir} : Derives .exec ts left → Carries .pipe ts' right p ws rs →
      Carries .pipe (ts ++ .bar :: ts') (.pipe left right) (.right :: p) ws rs
  | backs {ts : List Token} {cmd : Cmd Text} {p : Path} {ws : List Text} {rs : List Redir}
      (n : Nat) : Carries .pipe ts cmd p ws rs →
      Carries .line (ts ++ List.replicate n .amp) (Cmd.back^[n] cmd)
        (List.replicate n .inner ++ p) ws rs
  | listLeft {ts ts' : List Token} {left right : Cmd Text} {p : Path} {ws : List Text}
      {rs : List Redir} (n : Nat) : Carries .pipe ts left p ws rs → Derives .line ts' right →
      Carries .line (ts ++ List.replicate n .amp ++ .semi :: ts')
        (.list (Cmd.back^[n] left) right) (.left :: (List.replicate n .inner ++ p)) ws rs
  | listRight {ts ts' : List Token} {left right : Cmd Text} {p : Path} {ws : List Text}
      {rs : List Redir} (n : Nat) : Derives .pipe ts left → Carries .line ts' right p ws rs →
      Carries .line (ts ++ List.replicate n .amp ++ .semi :: ts')
        (.list (Cmd.back^[n] left) right) (.right :: p) ws rs

section Wires

variable {σ : Type} {f : Text → σ} {rs : List Redir} {q p : Path} {ws : List Text}
  {ls ls' : List (Leaf σ)} {k : Kind} {ts : List Token} {cmd : Cmd Text}

theorem wires_below (cmd : Cmd σ) (node : Path) (t : Table σ) :
    ∀ l ∈ wires cmd node t, node <+: l.node := by
  induction cmd generalizing node t with
  | exec argv =>
      intro l hl
      rw [List.mem_singleton.mp hl]
  | redir cmd file mode fd ih => exact fun l hl => (List.prefix_append node [_]).trans (ih _ _ l hl)
  | pipe left right ihl ihr | list left right ihl ihr =>
      intro l hl
      rcases List.mem_append.mp hl with hl | hl
      · exact (List.prefix_append node [_]).trans (ihl _ _ l hl)
      · exact (List.prefix_append node [_]).trans (ihr _ _ l hl)
  | back cmd ih => exact fun l hl => (List.prefix_append node [_]).trans (ih _ _ l hl)

/-- The descriptors after the files of `rs` are opened, the last one first. -/
def opened (f : Text → σ) (rs : List Redir) (t : Table σ) : Table σ :=
  rs.foldr (fun r t => Function.update t r.fd (some (.file (f r.file) r.mode))) t

theorem opened_eq_first {fd : Nat} {r : Redir} (t : Table σ) (h : rs.find? (·.fd = fd) = some r) :
    opened f rs t fd = some (.file (f r.file) r.mode) := by
  induction rs with
  | nil => cases h
  | cons r' rs ih =>
      show Function.update (opened f rs t) r'.fd _ fd = _
      by_cases hfd : r'.fd = fd
      · rw [List.find?_cons_of_pos (by simpa using hfd)] at h
        cases h
        rw [hfd, Function.update_self]
      · rw [List.find?_cons_of_neg (by simpa using hfd)] at h
        rw [Function.update_of_ne (Ne.symm hfd)]
        exact ih h

theorem wires_wrap (f : Text → σ) (cmd : Cmd Text) (rs : List Redir) (node : Path) (t : Table σ) :
    wires ((wrap cmd rs).map f) node t =
      wires (cmd.map f) (node ++ List.replicate rs.length .inner) (opened f rs t) := by
  induction rs generalizing cmd with
  | nil =>
      rw [List.length_nil, List.replicate_zero, List.append_nil]
      rfl
  | cons r rs ih =>
      show wires ((wrap (.redir cmd r.file r.mode r.fd) rs).map f) node t = _
      rw [ih]
      show wires (cmd.map f) ((node ++ _) ++ [.inner]) _ = _
      rw [List.append_assoc, ← List.replicate_succ']
      rfl

theorem wires_backs (cmd : Cmd σ) (n : Nat) (node : Path) (t : Table σ) :
    wires (Cmd.back^[n] cmd) node t = wires cmd (node ++ List.replicate n .inner) t := by
  induction n generalizing cmd with
  | zero =>
      rw [List.replicate_zero, List.append_nil]
      rfl
  | succ n ih =>
      rw [Function.iterate_succ_apply, ih]
      show wires cmd ((node ++ _) ++ [.inner]) t = _
      rw [List.append_assoc, ← List.replicate_succ']

/-- One of the leaves is the leaf of the simple command. -/
structure LeafOf (f : Text → σ) (node : Path) (ws : List Text) (rs : List Redir)
    (ls : List (Leaf σ)) : Prop where
  found : ∃ l ∈ ls, l.node = node
  ofFound : ∀ l ∈ ls, l.node = node → l.argv = ws.map f ∧ ∃ t, l.table = opened f rs t

theorem LeafOf.append_left {node : Path} (h : LeafOf f node ws rs ls) (hq : ¬ q <+: node)
    (hl : ∀ l ∈ ls', q <+: l.node) : LeafOf f node ws rs (ls ++ ls') := by
  obtain ⟨⟨l, hmem, hnode⟩, hof⟩ := h
  refine ⟨⟨l, List.mem_append_left _ hmem, hnode⟩, fun l hl' hn => ?_⟩
  rcases List.mem_append.mp hl' with hl' | hl'
  · exact hof l hl' hn
  · exact absurd (hn ▸ hl l hl') hq

theorem LeafOf.append_right {node : Path} (h : LeafOf f node ws rs ls) (hq : ¬ q <+: node)
    (hl : ∀ l ∈ ls', q <+: l.node) : LeafOf f node ws rs (ls' ++ ls) := by
  obtain ⟨⟨l, hmem, hnode⟩, hof⟩ := h
  refine ⟨⟨l, List.mem_append_right _ hmem, hnode⟩, fun l hl' hn => ?_⟩
  rcases List.mem_append.mp hl' with hl' | hl'
  · exact absurd (hn ▸ hl l hl') hq
  · exact hof l hl' hn

theorem not_other_prefix {node : Path} {d d' : Dir} (h : d ≠ d') :
    ¬ node ++ [d] <+: node ++ (d' :: p) := by
  rw [List.prefix_append_right_inj, List.cons_prefix_cons]
  exact fun hp => h hp.1

theorem Carries.leafOf (h : Carries k ts cmd p ws rs) (f : Text → σ) (node : Path) (t : Table σ) :
    LeafOf f (node ++ p) ws rs (wires (cmd.map f) node t) := by
  induction h generalizing node t with
  | simple hr hw _ =>
      rw [wires_wrap]
      refine ⟨⟨_, List.mem_singleton_self _, rfl⟩, fun l hl _ => ?_⟩
      rw [List.mem_singleton.mp hl]
      exact ⟨rfl, _, rfl⟩
  | block _ hr ih =>
      rw [wires_wrap, ← List.append_assoc]
      exact ih _ _
  | last _ ih => exact ih _ _
  | pipeLeft _ hd ih =>
      rw [List.append_cons]
      refine (ih _ _).append_left ?_ (wires_below _ (node ++ [.right]) _)
      rw [← List.append_cons]
      exact not_other_prefix nofun
  | pipeRight hd _ ih =>
      rw [List.append_cons]
      refine (ih _ _).append_right ?_ (wires_below _ (node ++ [.left]) _)
      rw [← List.append_cons]
      exact not_other_prefix nofun
  | listLeft n _ hd ih =>
      have hb := ih (node ++ [.left] ++ List.replicate n .inner) t
      rw [← wires_backs, ← Cmd.map_iterate_back] at hb
      rw [List.append_cons, ← List.append_assoc]
      refine hb.append_left ?_ (wires_below _ (node ++ [.right]) _)
      rw [List.append_assoc, ← List.append_cons]
      exact not_other_prefix nofun
  | listRight n hd _ ih =>
      rw [List.append_cons]
      refine (ih _ _).append_right ?_ (wires_below _ (node ++ [.left]) _)
      rw [← List.append_cons]
      exact not_other_prefix nofun
  | backs n _ ih =>
      rw [Cmd.map_iterate_back, wires_backs, ← List.append_assoc]
      exact ih _ _

/-- Every leaf is the leaf of a simple command. -/
theorem Derives.carries (h : Derives k ts cmd) (f : Text → σ) (node : Path) (t : Table σ) :
    ∀ l ∈ wires (cmd.map f) node t,
    ∃ p ws rs, l.node = node ++ p ∧ Carries k ts cmd p ws rs := by
  induction h generalizing node t with
  | simple hr hw hlen =>
      intro l hl
      rw [wires_wrap] at hl
      rw [List.mem_singleton.mp hl]
      exact ⟨_, _, _, rfl, .simple hr hw hlen⟩
  | block _ hr ih =>
      intro l hl
      rw [wires_wrap] at hl
      obtain ⟨p, ws, rs, hnode, hc⟩ := ih _ _ l hl
      exact ⟨_, ws, rs, hnode.trans (List.append_assoc _ _ _), .block hc hr⟩
  | last _ ih =>
      intro l hl
      obtain ⟨p, ws, rs, hnode, hc⟩ := ih _ _ l hl
      exact ⟨p, ws, rs, hnode, .last hc⟩
  | pipe hl hr ihl ihr =>
      intro l hmem
      rcases List.mem_append.mp hmem with hmem | hmem
      · obtain ⟨p, ws, rs, hnode, hc⟩ := ihl _ _ l hmem
        exact ⟨_, ws, rs, hnode.trans (List.append_cons ..).symm, .pipeLeft hc hr⟩
      · obtain ⟨p, ws, rs, hnode, hc⟩ := ihr _ _ l hmem
        exact ⟨_, ws, rs, hnode.trans (List.append_cons ..).symm, .pipeRight hl hc⟩
  | backs n _ ih =>
      intro l hl
      rw [Cmd.map_iterate_back, wires_backs] at hl
      obtain ⟨p, ws, rs, hnode, hc⟩ := ih _ _ l hl
      exact ⟨_, ws, rs, hnode.trans (List.append_assoc _ _ _), .backs n hc⟩
  | list n hl hr ihl ihr =>
      intro l hmem
      rcases List.mem_append.mp hmem with hmem | hmem
      · change l ∈ wires ((Cmd.back^[n] _).map f) _ _ at hmem
        rw [Cmd.map_iterate_back, wires_backs] at hmem
        obtain ⟨p, ws, rs, hnode, hc⟩ := ihl _ _ l hmem
        refine ⟨_, ws, rs, ?_, .listLeft n hc hr⟩
        rw [hnode]
        simp
      · obtain ⟨p, ws, rs, hnode, hc⟩ := ihr _ _ l hmem
        exact ⟨_, ws, rs, hnode.trans (List.append_cons ..).symm, .listRight n hl hc⟩

end Wires

/-- The bytes of a text. -/
def bytes (w : Text) : List UInt8 := w.map Subtype.val

/-- For every line that `parsecmd` accepts and every simple command of it, run with the
standard descriptors open: `runcmd` reaches the leaf of the command, and there a descriptor
that the command redirects refers to the file of its last redirection if and only if the first
and the last redirection of the descriptor are to one file.  Every leaf is the leaf of a simple
command.  The names stand for files in any way. -/
theorem redirections_iff {ι : Type} (inode : List UInt8 → ι) {line : Text} {cmd : Cmd Span}
    {mem : List UInt8} (h : parsecmd line = .ok (cmd, mem)) {t : Table (List UInt8)}
    (ht : Standard t) :
    (∀ l ∈ (runcmd (cmd.strs line mem) [] t).leaves, ∃ ws rs,
      Carries .line (lex line) (cmd.map Span.text) l.node ws rs) ∧
    ∀ p ws rs, Carries .line (lex line) (cmd.map Span.text) p ws rs →
      (∃ l ∈ (runcmd (cmd.strs line mem) [] t).leaves, l.node = p) ∧
      ∀ l ∈ (runcmd (cmd.strs line mem) [] t).leaves, l.node = p → l.argv = ws.map bytes ∧
        ∀ fd first last, rs.find? (·.fd = fd) = some first →
          rs.reverse.find? (·.fd = fd) = some last →
          ((∃ name mode, l.table fd = some (.file name mode) ∧
              inode name = inode (bytes last.file)) ↔
            inode (bytes first.file) = inode (bytes last.file)) := by
  rw [(runcmd_leaves (parsecmd_fds h) [] ht).1, parsecmd_strs h]
  refine ⟨fun l hl => ?_, fun p ws rs hc => ?_⟩
  · obtain ⟨p, ws, rs, hnode, hc⟩ := (parsecmd_sound h).1.carries bytes [] t l hl
    rw [hnode]
    exact ⟨ws, rs, hc⟩
  · obtain ⟨hfound, hof⟩ := hc.leafOf bytes [] t
    refine ⟨hfound, fun l hl hp => ?_⟩
    obtain ⟨hargv, t', htable⟩ := hof l hl hp
    refine ⟨hargv, fun fd first last hfirst _ => ?_⟩
    rw [htable, opened_eq_first t' hfirst]
    constructor
    · rintro ⟨name, mode, hfile, heq⟩
      cases hfile
      exact heq
    · exact fun heq => ⟨_, _, rfl, heq⟩

section

variable (f : Char)

/-- `a>x>f`. -/
def twoFiles : Text := text ['a', '>', 'x', '>', f]

/-- What `parsecmd` makes of it. -/
def twoRedirs : Cmd Span :=
  .redir (.redir (.exec [⟨twoFiles f, text ['>', 'x', '>', f]⟩])
    ⟨text ['x', '>', f], text ['>', f]⟩ 1537 1) ⟨text [f], []⟩ 1537 1

theorem twoFiles_carries (hf : f = 'x' ∨ f = 'y') :
    Carries .line (lex (twoFiles f)) ((twoRedirs f).map Span.text) [.inner, .inner] [text ['a']]
      [⟨text ['x'], 1537, 1⟩, ⟨text [f], 1537, 1⟩] := by
  have hlex : lex (twoFiles f) = [] ++ (.word (text ['a']) ::
      ([.gt, .word (text ['x']), .gt, .word (text [f])] ++ [])) := by
    rcases hf with rfl | rfl <;> decide +kernel
  rw [hlex]
  rcases hf with rfl | rfl <;>
    exact .backs 0 (.last (.simple .nil (.cons (.cons rfl (.cons rfl .nil)) .nil) (by decide)))

end

/-- `a>x>x`: the descriptor 1 of the command refers to `x`. -/
theorem redirections_iff_twice : ∃ mem, parsecmd (twoFiles 'x') = .ok (twoRedirs 'x', mem) ∧
    Standard inherited ∧
    ∃ l ∈ (runcmd ((twoRedirs 'x').strs (twoFiles 'x') mem) [] inherited).leaves,
      l.argv = [chars ['a']] ∧ ∃ mode, l.table 1 = some (.file (chars ['x']) mode) := by
  have h : parsecmd (twoFiles 'x') = .ok (twoRedirs 'x', [97, 0, 120, 0, 120, 0]) := rfl
  obtain ⟨⟨l, hl, hp⟩, hof⟩ :=
    (redirections_iff id h standard_inherited).2 _ _ _ (twoFiles_carries 'x' (.inl rfl))
  obtain ⟨hargv, hfile⟩ := hof l hl hp
  obtain ⟨name, mode, htable, rfl⟩ := (hfile 1 _ _ rfl rfl).mpr rfl
  exact ⟨_, h, standard_inherited, l, hl, hargv, mode, htable⟩

/-- `a>x>y`: the descriptor 1 of the command refers to `x`. -/
theorem leftmost_file : ∃ cmd mem, parsecmd (text ['a', '>', 'x', '>', 'y']) = .ok (cmd, mem) ∧
    Carries .line (lex (text ['a', '>', 'x', '>', 'y'])) (cmd.map Span.text) [.inner, .inner]
      [text ['a']] [⟨text ['x'], 1537, 1⟩, ⟨text ['y'], 1537, 1⟩] ∧
    ((runcmd (cmd.strs (text ['a', '>', 'x', '>', 'y']) mem) [] inherited).leaves.map fun l =>
      (l.node, l.argv)) = [([.inner, .inner], [chars ['a']])] ∧
    ∀ l ∈ (runcmd (cmd.strs (text ['a', '>', 'x', '>', 'y']) mem) [] inherited).leaves,
      l.table 1 = some (.file (chars ['x']) 1537) := by
  refine ⟨twoRedirs 'y', [97, 0, 120, 0, 121, 0], rfl, twoFiles_carries 'y' (.inr rfl), rfl, ?_⟩
  intro l hl
  rw [List.mem_singleton.mp hl]
  rfl

end Xv6.Shell
