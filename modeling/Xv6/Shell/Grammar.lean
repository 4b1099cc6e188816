import Xv6.Shell.Parser

/-!
# Tokens and the grammar of command lines

`lex` cuts a line into tokens, and `Derives` is the grammar, with the command that a
derivation stands for.  `gettoken` and `peek` look at the line only through its tokens.
-/

namespace Xv6.Shell

/-! ## Tokens -/

inductive Token where
  | word (w : Text)
  | bar
  | lparen
  | rparen
  | semi
  | amp
  | lt
  | gt
  | gtgt
  deriving DecidableEq

/-- The symbols that are tokens, `>` apart. -/
def symbol (c : Byte) : Option Token :=
  if c.val = '|'.toUInt8 then some .bar
  else if c.val = '('.toUInt8 then some .lparen
  else if c.val = ')'.toUInt8 then some .rparen
  else if c.val = ';'.toUInt8 then some .semi
  else if c.val = '&'.toUInt8 then some .amp
  else if c.val = '<'.toUInt8 then some .lt
  else none

/-- The tokens of a line.  A word is a longest run of characters that are neither
whitespace nor symbols, and `>>` is one token. -/
def lex : Text → List Token
  | [] => []
  | c :: s =>
      if isWhite c then lex s
      else if c.val = '>'.toUInt8 then
        if deref s = '>'.toUInt8 then .gtgt :: lex s.tail else .gt :: lex s
      else
        match symbol c with
        | some t => t :: lex s
        | none => .word (c :: s.takeWhile isWord) :: lex (s.dropWhile isWord)
termination_by s => s.length
decreasing_by
  all_goals
    have hle := (List.dropWhile_sublist isWord (l := s)).length_le
    simp only [List.length_cons, List.length_tail]
    omega

/-! ## The grammar -/

/-- The mode and the descriptor of a redirection. -/
def Token.redir : Token → Option (Nat × Nat)
  | .lt => some (O_RDONLY, 0)
  | .gt => some (O_WRONLY ||| O_CREATE ||| O_TRUNC, 1)
  | .gtgt => some (O_WRONLY ||| O_CREATE, 1)
  | _ => none

structure Redir where
  file : Text
  mode : Nat
  fd : Nat

/-- The redirections of a command, the first one innermost. -/
def wrap (cmd : Cmd Text) (rs : List Redir) : Cmd Text :=
  rs.foldl (fun cmd r => .redir cmd r.file r.mode r.fd) cmd

/-- `redirs := {('<' | '>' | '>>') word}`. -/
inductive Redirs : List Token → List Redir → Prop where
  | nil : Redirs [] []
  | cons {op : Token} {file : Text} {mode fd : Nat} {ts : List Token} {rs : List Redir} :
      op.redir = some (mode, fd) → Redirs ts rs →
      Redirs (op :: .word file :: ts) (⟨file, mode, fd⟩ :: rs)

/-- `{word redirs}`, with the words and the redirections. -/
inductive Words : List Token → List Text → List Redir → Prop where
  | nil : Words [] [] []
  | cons {w : Text} {ts ts' : List Token} {ws : List Text} {rs rs' : List Redir} :
      Redirs ts rs → Words ts' ws rs' → Words (.word w :: (ts ++ ts')) (w :: ws) (rs ++ rs')

inductive Kind where
  | line
  | pipe
  | exec

/-- The grammar, with the commands that derivations stand for. -/
inductive Derives : Kind → List Token → Cmd Text → Prop where
  /-- `exec := redirs {word redirs}`, with at most `MAXARGS - 1` words. -/
  | simple {ts ts' : List Token} {ws : List Text} {rs rs' : List Redir} :
      Redirs ts rs → Words ts' ws rs' → ws.length ≤ MAXARGS - 1 →
      Derives .exec (ts ++ ts') (wrap (.exec ws) (rs ++ rs'))
  /-- `exec := '(' line ')' redirs`. -/
  | block {ts ts' : List Token} {cmd : Cmd Text} {rs : List Redir} :
      Derives .line ts cmd → Redirs ts' rs →
      Derives .exec (.lparen :: (ts ++ .rparen :: ts')) (wrap cmd rs)
  /-- `pipe := exec`. -/
  | last {ts : List Token} {cmd : Cmd Text} : Derives .exec ts cmd → Derives .pipe ts cmd
  /-- `pipe := exec '|' pipe`. -/
  | pipe {ts ts' : List Token} {left right : Cmd Text} :
      Derives .exec ts left → Derives .pipe ts' right →
      Derives .pipe (ts ++ .bar :: ts') (.pipe left right)
  /-- `line := pipe {'&'}`. -/
  | backs {ts : List Token} {cmd : Cmd Text} (n : Nat) :
      Derives .pipe ts cmd → Derives .line (ts ++ List.replicate n .amp) (Cmd.back^[n] cmd)
  /-- `line := pipe {'&'} ';' line`. -/
  | list {ts ts' : List Token} {left right : Cmd Text} (n : Nat) :
      Derives .pipe ts left → Derives .line ts' right →
      Derives .line (ts ++ List.replicate n .amp ++ .semi :: ts')
        (.list (Cmd.back^[n] left) right)

/-! ## `gettoken` and `peek` -/

/-- What `gettoken` returns for a token. -/
def Token.code : Token → UInt8
  | .word _ => 'a'.toUInt8
  | .bar => '|'.toUInt8
  | .lparen => '('.toUInt8
  | .rparen => ')'.toUInt8
  | .semi => ';'.toUInt8
  | .amp => '&'.toUInt8
  | .lt => '<'.toUInt8
  | .gt => '>'.toUInt8
  | .gtgt => '+'.toUInt8

/-- The symbol that a token starts with. -/
def Token.lead : Token → Option UInt8
  | .word _ => none
  | .gtgt => some '>'.toUInt8
  | t => some t.code

/-- The string of a span. -/
def Span.text (a : Span) : Text := a.start.take (a.start.length - a.stop.length)

/-- A place of a line that no word goes across. -/
def Cursor (s line : Text) : Prop :=
  ∃ pre, pre ++ s = line ∧ ∀ c ∈ pre.getLast?, isWord c → ∀ d ∈ s.head?, isWord d = false

namespace Cursor

variable {s t line : Text}

protected theorem refl (s : Text) : Cursor s s := ⟨[], rfl, nofun⟩

theorem of_last {pre : Text} (h : pre ++ s = line) (hl : ∀ c ∈ pre.getLast?, isWord c = false) :
    Cursor s line := by
  refine ⟨pre, h, fun c hc hw => ?_⟩
  rw [hl c hc] at hw
  cases hw

theorem cons {c : Byte} (hc : isWord c = false) (s : Text) : Cursor s (c :: s) :=
  of_last (List.singleton_append (l := s)) fun d hd => by cases hd; exact hc

theorem trans (h : Cursor s t) (ht : Cursor t line) : Cursor s line := by
  obtain ⟨pre, rfl, hp⟩ := h
  obtain ⟨pre', rfl, hp'⟩ := ht
  refine ⟨pre' ++ pre, List.append_assoc _ _ _, fun c hc => ?_⟩
  rcases List.eq_nil_or_concat pre with rfl | ⟨l, b, rfl⟩
  · rw [List.append_nil] at hc
    exact hp' c hc
  · refine hp c ?_
    simpa using hc

theorem suffix (h : Cursor s line) : s <:+ line := by
  obtain ⟨pre, hpre, -⟩ := h
  exact ⟨pre, hpre⟩

theorem length_le (h : Cursor s line) : s.length ≤ line.length := h.suffix.length_le

end Cursor

/-- A span of a line that is a word. -/
structure Placed (line : Text) (a : Span) : Prop where
  inside : Cursor a.start line
  split : a.start = a.text ++ a.stop
  word : ∀ c ∈ a.text, isWord c
  stop : ∀ c ∈ a.stop.head?, isWord c = false

theorem lex_nil : lex [] = [] := by rw [lex]

theorem lex_skip (s : Text) : lex (skip s) = lex s := by
  induction s with
  | nil => rfl
  | cons c s ih =>
      unfold skip
      rw [List.dropWhile_cons]
      split
      · rename_i hc
        rw [lex, if_pos hc]
        exact ih
      · rfl

theorem isWord_of_isWhite {c : Byte} (h : isWhite c) : isWord c = false := by
  unfold isWord
  rw [show strchr whitespace c.val = true from h]
  rfl

theorem isWord_of_symbol {c : Byte} (h : strchr symbols c.val) : isWord c = false := by
  unfold isWord
  rw [h, Bool.not_true, Bool.and_false]

theorem skip_cursor (s : Text) : Cursor (skip s) s := by
  refine .of_last List.takeWhile_append_dropWhile fun c hc => ?_
  have hall : (s.takeWhile isWhite).all isWhite := List.all_takeWhile
  exact isWord_of_isWhite (List.all_eq_true.mp hall c (List.mem_of_getLast? hc))

/-- The first character after whitespace. -/
theorem skip_cons {s s' : Text} {c : Byte} (h : skip s = c :: s') : isWhite c = false := by
  have hne : s.dropWhile isWhite ≠ [] := by
    show skip s ≠ []
    rw [h]
    nofun
  have hc := List.head_dropWhile_not isWhite hne
  have hh : (s.dropWhile isWhite).head hne = c := by
    show (skip s).head hne = c
    simp only [h, List.head_cons]
  rwa [hh] at hc

theorem symbol_some {c : Byte} {t : Token} (h : symbol c = some t) :
    t.code = c.val ∧ t.lead = some c.val ∧
      strchr (chars ['|', '(', ')', ';', '&', '<']) c.val = true ∧ isWord c = false := by
  unfold symbol at h
  split_ifs at h with h1 h2 h3 h4 h5 h6
  · cases h
    refine ⟨h1.symm, ?_, ?_, isWord_of_symbol ?_⟩ <;> rw [h1] <;> decide
  · cases h
    refine ⟨h2.symm, ?_, ?_, isWord_of_symbol ?_⟩ <;> rw [h2] <;> decide
  · cases h
    refine ⟨h3.symm, ?_, ?_, isWord_of_symbol ?_⟩ <;> rw [h3] <;> decide
  · cases h
    refine ⟨h4.symm, ?_, ?_, isWord_of_symbol ?_⟩ <;> rw [h4] <;> decide
  · cases h
    refine ⟨h5.symm, ?_, ?_, isWord_of_symbol ?_⟩ <;> rw [h5] <;> decide
  · cases h
    refine ⟨h6.symm, ?_, ?_, isWord_of_symbol ?_⟩ <;> rw [h6] <;> decide

theorem symbol_none {c : Byte} (h : symbol c = none) :
    strchr (chars ['|', '(', ')', ';', '&', '<']) c.val = false := by
  unfold symbol at h
  split_ifs at h with h1 h2 h3 h4 h5 h6
  simp [strchr, chars, h1, h2, h3, h4, h5, h6]

theorem isWord_of_symbol_none {c : Byte} (hw : isWhite c = false) (hs : symbol c = none)
    (hgt : c.val ≠ '>'.toUInt8) : isWord c = true := by
  have hn := symbol_none hs
  simp only [strchr, chars, List.map_cons, List.map_nil, List.contains_cons, List.contains_nil,
    Bool.or_eq_false_iff, beq_eq_false_iff_ne] at hn
  obtain ⟨h1, h2, h3, h4, h5, h6, -⟩ := hn
  have hsym : strchr symbols c.val = false := by
    simp [strchr, symbols, chars, h1, h2, h3, h4, h5, h6, hgt]
  unfold isWord
  rw [hsym, show strchr whitespace c.val = false from hw]
  rfl

/-- `gettoken` reads the token `t`. -/
structure Reads (s : Text) (t : Token) (g : Got) : Prop where
  lex : lex s = t :: lex g.eq
  ret : g.ret = t.code
  text : ∀ w, t = .word w → g.span.text = w ∧ Placed s g.span
  short : g.eq.length < s.length
  cursor : Cursor g.eq s

theorem Span.text_append (w s : Text) : Span.text ⟨w ++ s, s⟩ = w := by
  simp [Span.text]

theorem scan_cons (c : Byte) (s : Text) : scan (c :: s) =
    if strchr (chars ['|', '(', ')', ';', '&', '<']) c.val then ⟨c.val, c :: s, s⟩
    else if c.val = '>'.toUInt8 then
      if deref s = '>'.toUInt8 then ⟨'+'.toUInt8, c :: s, s.tail⟩ else ⟨c.val, c :: s, s⟩
    else ⟨'a'.toUInt8, c :: s, (c :: s).dropWhile isWord⟩ := if_neg c.property

theorem scan_symbol {c : Byte} {s : Text} {t : Token} (hw : isWhite c = false)
    (ht : symbol c = some t) : Reads (c :: s) t (scan (c :: s)) := by
  obtain ⟨hcode, hlead, hin, hword⟩ := symbol_some ht
  have hgt : c.val ≠ '>'.toUInt8 := by
    intro he
    rw [he] at hin
    revert hin
    decide
  have hscan : scan (c :: s) = ⟨c.val, c :: s, s⟩ := by
    rw [scan_cons, if_pos hin]
  rw [hscan]
  refine ⟨?_, hcode.symm, fun w hw => ?_, Nat.lt_succ_self _, .cons hword s⟩
  · rw [Shell.lex, hw, if_neg Bool.false_ne_true, if_neg hgt, ht]
  · rw [hw] at hlead
    cases hlead

theorem scan_gt {c : Byte} {s : Text} (hw : isWhite c = false) (hc : c.val = '>'.toUInt8) :
    ∃ t, Reads (c :: s) t (scan (c :: s)) := by
  have hsym : ¬ strchr (chars ['|', '(', ')', ';', '&', '<']) c.val := by
    rw [hc]
    decide
  have hgt : ∀ {d : Byte}, d.val = '>'.toUInt8 → isWord d = false := fun hd =>
    isWord_of_symbol (by rw [hd]; decide)
  have hlex : lex (c :: s) =
      if deref s = '>'.toUInt8 then .gtgt :: lex s.tail else .gt :: lex s := by
    rw [Shell.lex, hw, if_neg Bool.false_ne_true, if_pos hc]
  by_cases hd : deref s = '>'.toUInt8
  · rw [if_pos hd] at hlex
    have hscan : scan (c :: s) = ⟨'+'.toUInt8, c :: s, s.tail⟩ := by
      rw [scan_cons, if_neg hsym, if_pos hc, if_pos hd]
    rw [hscan]
    refine ⟨.gtgt, hlex, rfl, nofun, Nat.lt_succ_of_le (List.tail_suffix s).length_le, ?_⟩
    cases s with
    | nil => exact .cons (hgt hc) []
    | cons d s => exact (Cursor.cons (hgt hd) s).trans (.cons (hgt hc) (d :: s))
  · rw [if_neg hd] at hlex
    have hscan : scan (c :: s) = ⟨c.val, c :: s, s⟩ := by
      rw [scan_cons, if_neg hsym, if_pos hc, if_neg hd]
    rw [hscan]
    exact ⟨.gt, hlex, hc, nofun, Nat.lt_succ_self _, .cons (hgt hc) s⟩

theorem dropWhile_head (p : Byte → Bool) (s : Text) : ∀ c ∈ (s.dropWhile p).head?, p c = false := by
  intro c hc
  cases h : s.dropWhile p with
  | nil =>
      rw [h] at hc
      cases hc
  | cons d s' =>
      rw [h] at hc
      cases hc
      have hne : s.dropWhile p ≠ [] := by
        rw [h]
        nofun
      have hp := List.head_dropWhile_not p hne
      simp only [h, List.head_cons] at hp
      exact hp

theorem scan_word {c : Byte} {s : Text} (hw : isWhite c = false) (hc : c.val ≠ '>'.toUInt8)
    (hs : symbol c = none) :
    Reads (c :: s) (.word (c :: s.takeWhile isWord)) (scan (c :: s)) := by
  have hword := isWord_of_symbol_none hw hs hc
  have hsym : ¬ strchr (chars ['|', '(', ')', ';', '&', '<']) c.val := by
    rw [symbol_none hs]
    exact Bool.false_ne_true
  have hscan : scan (c :: s) = ⟨'a'.toUInt8, c :: s, s.dropWhile isWord⟩ := by
    rw [scan_cons, if_neg hsym, if_neg hc, List.dropWhile_cons_of_pos hword]
  have hsplit : c :: s = (c :: s.takeWhile isWord) ++ s.dropWhile isWord := by
    rw [List.cons_append, List.takeWhile_append_dropWhile]
  rw [hscan]
  have htext : Span.text ⟨c :: s, s.dropWhile isWord⟩ = c :: s.takeWhile isWord := by
    rw [hsplit]
    exact Span.text_append _ _
  refine ⟨?_, rfl, fun w hw' => ?_, ?_,
    ⟨c :: s.takeWhile isWord, hsplit.symm, fun _ _ _ => dropWhile_head _ _⟩⟩
  · rw [Shell.lex, hw, if_neg Bool.false_ne_true, if_neg hc, hs]
  · cases hw'
    refine ⟨htext, .refl _, ?_, fun d hd => ?_, dropWhile_head _ _⟩
    · show c :: s = Span.text ⟨c :: s, s.dropWhile isWord⟩ ++ _
      rw [htext]
      exact hsplit
    · have hd' : d ∈ Span.text ⟨c :: s, s.dropWhile isWord⟩ := hd
      rw [htext] at hd'
      rcases List.mem_cons.mp hd' with rfl | hd'
      · exact hword
      · exact List.all_eq_true.mp List.all_takeWhile d hd'
  · exact Nat.lt_succ_of_le (List.dropWhile_suffix _).length_le

theorem scan_cases (s : Text) : lex s = [] ∧ skip s = [] ∨ ∃ t, Reads s t (scan (skip s)) := by
  cases hs : skip s with
  | nil =>
      refine .inl ⟨?_, rfl⟩
      rw [← lex_skip, hs, lex_nil]
  | cons c s' =>
      have hw := skip_cons hs
      have hreads : ∃ t, Reads (c :: s') t (scan (c :: s')) := by
        by_cases hc : c.val = '>'.toUInt8
        · exact scan_gt hw hc
        · cases ht : symbol c with
          | none => exact ⟨_, scan_word hw hc ht⟩
          | some t => exact ⟨t, scan_symbol hw ht⟩
      obtain ⟨t, hr⟩ := hreads
      have hcur : Cursor (c :: s') s := hs ▸ skip_cursor s
      refine .inr ⟨t, ?_, hr.ret, fun w hw => ?_, ?_, hr.cursor.trans hcur⟩
      · rw [← lex_skip, hs]
        exact hr.lex
      · obtain ⟨h1, h2⟩ := hr.text w hw
        exact ⟨h1, h2.inside.trans hcur, h2.split, h2.word, h2.stop⟩
      · exact Nat.lt_of_lt_of_le hr.short hcur.length_le

/-- The next token starts with one of the symbols `toks`. -/
def starts (toks : List Char) (ts : List Token) : Bool :=
  ts.head?.any fun t => t.lead.any (strchr (chars toks))

/-- `peek` sees what the next token starts with. -/
theorem peek_eq_starts {toks : List Char} (htoks : (chars toks).all (strchr symbols)) (s : Text) :
    (deref (skip s) ≠ 0 && strchr (chars toks) (deref (skip s))) = starts toks (lex s) := by
  rw [← lex_skip]
  cases hs : skip s with
  | nil => rw [lex_nil]; rfl
  | cons c s' =>
      have hw := skip_cons hs
      have hc : (deref (c :: s') ≠ 0 && strchr (chars toks) (deref (c :: s'))) =
          strchr (chars toks) c.val := by
        rw [show decide (deref (c :: s') ≠ 0) = true from decide_eq_true c.property]
        exact Bool.true_and _
      rw [hc, lex, hw, if_neg Bool.false_ne_true]
      split
      · rename_i hgt
        split <;> rw [hgt] <;> rfl
      · rename_i hgt
        cases ht : symbol c with
        | some t =>
            show _ = t.lead.any _
            rw [(symbol_some ht).2.1]
            rfl
        | none =>
            -- a word does not start with a symbol
            have hword := isWord_of_symbol_none hw ht hgt
            show strchr (chars toks) c.val = false
            by_contra hin
            rw [Bool.not_eq_false] at hin
            have hsym := List.all_eq_true.mp htoks _ (List.contains_iff_mem.mp hin)
            unfold isWord at hword
            rw [hsym, Bool.not_true, Bool.and_false] at hword
            cases hword

open Hoare

variable {Q : Got → Text → Prop} {E : Stop → Prop} {s : Text}

theorem wp_gettoken
    (hnil : lex s = [] → ∀ g s', g.ret = 0 → lex s' = [] → Cursor s' s → Q g s')
    (hcons : ∀ t ts g s', lex s = t :: ts → lex s' = ts → g.ret = t.code →
      (∀ w, t = .word w → g.span.text = w ∧ Placed s g.span) → s'.length < s.length →
      Cursor s' s → Q g s') : wp gettoken Q E s := by
  show Q (scan (skip s)) (skip (scan (skip s)).eq)
  rcases scan_cases s with ⟨h1, h2⟩ | ⟨t, hr⟩
  · rw [h2]
    exact hnil h1 _ _ rfl lex_nil ⟨s, List.append_nil s, fun _ _ _ => nofun⟩
  · have hcur := skip_cursor (scan (skip s)).eq
    exact hcons t _ _ _ hr.lex (lex_skip _) hr.ret hr.text
      (Nat.lt_of_le_of_lt hcur.length_le hr.short) (hcur.trans hr.cursor)

theorem wp_peek {R : Bool → Text → Prop} {toks : List Char}
    (htoks : (chars toks).all (strchr symbols))
    (h : ∀ s', lex s' = lex s → Cursor s' s → R (starts toks (lex s)) s') :
    wp (peek toks) R E s := by
  show R (deref (skip s) ≠ 0 && strchr (chars toks) (deref (skip s))) (skip s)
  rw [peek_eq_starts htoks]
  exact h _ (lex_skip s) (skip_cursor s)

end Xv6.Shell
