import Xv6.Shell.Accepts

/-!
# The words of a command

The strings of a parsed command are the words of the line.  Each one is a longest run of
characters that are neither whitespace nor symbols, and after `nulterminate` the pointer to it
reads that run.
-/

namespace Xv6.Shell

/-- The text of a token that is a word. -/
def Token.word? : Token → Option Text
  | .word w => some w
  | _ => none

theorem Token.word?_of_redir {t : Token} {r : Nat × Nat} (h : t.redir = some r) :
    t.word? = none := by
  cases t with
  | word w => cases h
  | bar | lparen | rparen | semi | amp | lt | gt | gtgt => rfl

theorem Cmd.strings_map {σ τ : Type} (f : σ → τ) (cmd : Cmd σ) :
    (cmd.map f).strings = cmd.strings.map f := by
  induction cmd with
  | exec argv => rfl
  | redir cmd file mode fd ih => simp [map, strings, ih]
  | pipe left right ihl ihr | list left right ihl ihr => simp [map, strings, ihl, ihr]
  | back cmd ih => exact ih

theorem strings_wrap (cmd : Cmd Text) (rs : List Redir) :
    (wrap cmd rs).strings = cmd.strings ++ rs.map Redir.file := by
  induction rs generalizing cmd with
  | nil => exact (List.append_nil _).symm
  | cons r rs ih =>
      show (wrap (.redir cmd r.file r.mode r.fd) rs).strings = _
      rw [ih, Cmd.strings, List.append_assoc]
      rfl

section Perm

variable {ts : List Token} {ws : List Text} {rs : List Redir}

theorem filterMap_word (w : Text) (ts : List Token) :
    (.word w :: ts).filterMap Token.word? = w :: ts.filterMap Token.word? := rfl

theorem Redirs.words (h : Redirs ts rs) : ts.filterMap Token.word? = rs.map Redir.file := by
  induction h with
  | nil => rfl
  | cons hop _ ih =>
      rw [List.filterMap_cons_none (Token.word?_of_redir hop), filterMap_word, ih]
      rfl

theorem Words.words (h : Words ts ws rs) :
    (ts.filterMap Token.word?).Perm (ws ++ rs.map Redir.file) := by
  induction h with
  | nil => exact .refl _
  | @cons w ts ts' ws rs rs' hr _ ih =>
      rw [filterMap_word, List.filterMap_append, hr.words, List.map_append]
      exact .cons w ((List.Perm.append_left _ ih).trans (List.perm_append_comm_assoc ..))

/-- Each word of the tokens is one string of the command. -/
theorem Derives.words {k : Kind} {T : Cmd Text} (h : Derives k ts T) :
    (ts.filterMap Token.word?).Perm T.strings := by
  induction h with
  | @simple ts ts' ws rs rs' hr hw _ =>
      rw [List.filterMap_append, hr.words, strings_wrap, List.map_append]
      exact (List.Perm.append_left _ hw.words).trans (List.perm_append_comm_assoc ..)
  | block _ hr ih =>
      rw [List.filterMap_cons_none rfl, List.filterMap_append, List.filterMap_cons_none rfl,
        hr.words, strings_wrap]
      exact ih.append_right _
  | last _ ih => exact ih
  | pipe _ _ ihl ihr =>
      rw [List.filterMap_append, List.filterMap_cons_none rfl]
      exact ihl.append ihr
  | backs n _ ih =>
      rw [List.filterMap_append, List.filterMap_replicate, Cmd.strings_iterate_back]
      rw [show Token.word? .amp = none from rfl]
      exact (List.append_nil _).symm ▸ ih
  | list n _ _ ihl ihr =>
      rw [List.filterMap_append, List.filterMap_append, List.filterMap_replicate,
        List.filterMap_cons_none rfl, Cmd.strings, Cmd.strings_iterate_back]
      rw [show Token.word? .amp = none from rfl, List.append_nil]
      exact ihl.append ihr

end Perm

/-- The text `w` between `pre` and `post` is a longest run of word characters. -/
structure IsToken (pre w post : Text) : Prop where
  nonempty : w ≠ []
  word : ∀ c ∈ w, isWord c
  first : ∀ c ∈ pre.getLast?, isWord c = false
  last : ∀ c ∈ post.head?, isWord c = false

theorem lex_word_ne_nil {s w : Text} (h : .word w ∈ lex s) : w ≠ [] := by
  induction s using lex.induct with
  | case1 =>
      rw [lex_nil] at h
      cases h
  | case2 c s hw ih =>
      rw [lex, if_pos hw] at h
      exact ih h
  | case3 c s hw hc hd ih | case4 c s hw hc hd ih =>
      rw [lex, if_neg hw, if_pos hc] at h
      simp only [hd, if_true, if_false, List.mem_cons, reduceCtorEq, false_or] at h
      exact ih h
  | case5 c s hw hc t ht ih =>
      rw [lex, if_neg hw, if_neg hc, ht] at h
      rcases List.mem_cons.mp h with rfl | h
      · cases (symbol_some ht).2.1
      · exact ih h
  | case6 c s hw hc ht ih =>
      rw [lex, if_neg hw, if_neg hc, ht] at h
      rcases List.mem_cons.mp h with h | h
      · cases h
        exact List.cons_ne_nil _ _
      · exact ih h

theorem Placed.isToken {line : Text} {a : Span} (h : Placed line a) (hne : a.text ≠ []) :
    ∃ pre, line = pre ++ a.text ++ a.stop ∧ IsToken pre a.text a.stop := by
  obtain ⟨⟨pre, hline, hcut⟩, hsplit, hword, hstop⟩ := h
  refine ⟨pre, by rw [List.append_assoc, ← hsplit, hline], hne, hword, fun c hc => ?_, hstop⟩
  obtain ⟨d, w, hd⟩ := List.exists_cons_of_ne_nil hne
  by_contra hc'
  -- the first character of the word would follow a character of a word
  have hhead : a.start.head? = some d := by rw [hsplit, hd]; rfl
  have hnot := hcut c hc (Bool.eq_true_of_not_eq_false hc') d hhead
  rw [hword d (hd ▸ List.mem_cons_self)] at hnot
  cases hnot

/-- For every line that `parsecmd` accepts, the strings of the command are the words of the
line, each word once, and each string read in the memory that `nulterminate` leaves is the
text of its token in the line. -/
theorem words_kept {line : Text} {cmd : Cmd Span} {mem : List UInt8}
    (h : parsecmd line = .ok (cmd, mem)) :
    ((lex line).filterMap Token.word?).Perm (cmd.strings.map Span.text) ∧
    ∀ a ∈ cmd.strings, ∃ pre, line = pre ++ a.text ++ a.stop ∧ IsToken pre a.text a.stop ∧
      a.start = a.text ++ a.stop ∧ cstring mem pre.length = a.text.map Subtype.val := by
  obtain ⟨hd, hplaced, rfl⟩ := parsecmd_sound h
  have hperm := hd.words
  rw [Cmd.strings_map] at hperm
  refine ⟨hperm, fun a ha => ?_⟩
  have hmem : a.text ∈ (lex line).filterMap Token.word? :=
    hperm.mem_iff.mpr (List.mem_map_of_mem ha)
  obtain ⟨t, ht, hw⟩ := List.mem_filterMap.mp hmem
  have hne : a.text ≠ [] := by
    cases t with
    | word w =>
        cases hw
        exact lex_word_ne_nil ht
    | bar | lparen | rparen | semi | amp | lt | gt | gtgt => cases hw
  obtain ⟨pre, hline, htok⟩ := (hplaced a ha).isToken hne
  refine ⟨pre, hline, htok, (hplaced a ha).split, ?_⟩
  have hstr := cstring_nulterminate hplaced ha
  have hlen : line.length - a.start.length = pre.length := by
    have h1 := congrArg List.length hline
    have h2 := congrArg List.length (hplaced a ha).split
    simp only [List.length_append] at h1 h2
    omega
  rwa [hlen] at hstr

/-- A string of characters other than NUL as a text. -/
def text (s : List Char) : Text :=
  (chars s).filterMap fun c => if h : c ≠ 0 then some ⟨c, h⟩ else none

theorem words_kept_oneRedir : ∃ cmd mem, parsecmd (text ['a', '>', 'b']) = .ok (cmd, mem) ∧
    cmd.strings.map Span.text = [text ['a'], text ['b']] ∧
    ∀ a ∈ cmd.strings, ∃ pre, text ['a', '>', 'b'] = pre ++ a.text ++ a.stop ∧
      cstring mem pre.length = a.text.map Subtype.val := by
  have h : parsecmd (text ['a', '>', 'b']) = .ok
      (.redir (.exec [⟨text ['a', '>', 'b'], text ['>', 'b']⟩]) ⟨text ['b'], []⟩
        (O_WRONLY ||| O_CREATE ||| O_TRUNC) 1, [97, 0, 98, 0]) := rfl
  refine ⟨_, _, h, rfl, fun a ha => ?_⟩
  obtain ⟨pre, hline, -, -, hstr⟩ := (words_kept h).2 a ha
  exact ⟨pre, hline, hstr⟩

end Xv6.Shell
